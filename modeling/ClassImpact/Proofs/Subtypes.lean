import ClassImpact.Proofs.Forgotten

/-!
# Subtypes

A value of one type is a value of another by way of declared supertypes, element by element in
arrays, and because every array is an object that can be cloned and written out.  The three ways
are apart: a primitive type has no supertype but itself, a class has classes above it, and an
array has arrays and the three supertypes of arrays.

So a chain of subtypes changes its kind at most once, from arrays to classes.  From there on it
climbs in the hierarchy, and the answer for its ends is the one for arrays only when the climb
does not leave the three supertypes.  Circles in the hierarchy do no harm.

## Main results

* `View.isSubtype_iff_subtypeOf`: the check decides the least relation with these rules
* `View.isSubtype_preorder_iff`: when subtyping is a preorder
-/

namespace ClassImpact

namespace View

variable {v : View} {a b c : TypeRef} {m n : Symbol}

/-- The class is one of the supertypes of every array. -/
def ArraySuper (v : View) (n : Symbol) : Prop :=
  ∃ s ∈ arraySupertypeNames, v.names.lookup s = some n

/-- The supertypes of arrays declare no supertypes but each other. -/
def ArraysOnTop (v : View) : Prop := ∀ n, v.ArraySuper n → ∀ t ∈ v.supersOf n, v.ArraySuper t

instance (v : View) (n : Symbol) : Decidable (v.ArraySuper n) :=
  inferInstanceAs (Decidable (∃ s ∈ arraySupertypeNames, v.names.lookup s = some n))

instance (v : View) : Decidable v.ArraysOnTop :=
  decidable_of_iff (∀ s ∈ arraySupertypeNames, ∀ n ∈ v.names.lookup s, ∀ t ∈ v.supersOf n,
      v.ArraySuper t)
    ⟨fun h n ⟨s, hs, hn⟩ => h s hs n hn, fun h s hs n hn => h n ⟨s, hs, hn⟩⟩

/-! ## The supertypes of a type, by its kind -/

@[simp] theorem isSubtype_self (v : View) (a : TypeRef) : v.isSubtype a a = .yes := by
  unfold isSubtype
  rw [if_pos rfl]

theorem isSubtype_array (a b : TypeRef) :
    v.isSubtype (.array a) (.array b) = v.isSubtype a b := by
  by_cases hab : a = b
  · rw [hab, isSubtype_self, isSubtype_self]
  · rw [isSubtype, if_neg (mt TypeRef.array.inj hab)]

theorem isSubtype_named (m n : Symbol) : v.isSubtype (.named m) (.named n) = v.inherits m n := by
  by_cases hmn : m = n
  · rw [hmn, isSubtype_self, inherits_self]
  · rw [isSubtype, if_neg (mt TypeRef.named.inj hmn)]

/-- A primitive type has no supertype but itself. -/
theorem primitive_isSubtype_iff {p : Primitive} :
    v.isSubtype (.primitive p) c = .yes ↔ c = .primitive p := by
  cases c with
  | primitive q => simp [isSubtype, eq_comm]
  | named n => simp [isSubtype]
  | array b => simp [isSubtype]

/-- The supertypes of a class are the classes that its declared supertypes lead to. -/
theorem named_isSubtype_iff :
    v.isSubtype (.named m) c = .yes ↔ ∃ n, c = .named n ∧ v.Above m n := by
  cases c with
  | named n => simp [isSubtype_named, inherits_eq_yes_iff]
  | primitive p => simp [isSubtype]
  | array b => simp [isSubtype]

/-- The supertypes of an array are the arrays of supertypes, and those of every array. -/
theorem array_isSubtype_iff :
    v.isSubtype (.array a) c = .yes ↔
      (∃ b, c = .array b ∧ v.isSubtype a b = .yes) ∨ ∃ n, c = .named n ∧ v.ArraySuper n := by
  cases c with
  | named n => simp [isSubtype, ArraySuper]
  | primitive p => simp [isSubtype]
  | array b => simp [isSubtype_array]

/-! ## Chains -/

/-- Nothing but supertypes of arrays stands above them. -/
theorem ArraysOnTop.above (h : v.ArraysOnTop) (hm : v.ArraySuper m) (habove : v.Above m n) :
    v.ArraySuper n := by
  induction habove with
  | refl => exact hm
  | tail _ hstep ih => exact h _ ih _ hstep

/-- **Subtyping is transitive**, by the kind of the first type. -/
theorem ArraysOnTop.isSubtype_trans (h : v.ArraysOnTop) (hab : v.isSubtype a b = .yes)
    (hbc : v.isSubtype b c = .yes) : v.isSubtype a c = .yes := by
  induction a generalizing b c with
  | primitive p =>
    rw [primitive_isSubtype_iff] at hab
    rw [← hab]
    exact hbc
  | named m =>
    obtain ⟨n, rfl, hmn⟩ := named_isSubtype_iff.1 hab
    obtain ⟨k, rfl, hnk⟩ := named_isSubtype_iff.1 hbc
    exact named_isSubtype_iff.2 ⟨k, rfl, hmn.trans hnk⟩
  | array a ih =>
    rcases array_isSubtype_iff.1 hab with ⟨b, rfl, hab'⟩ | ⟨n, rfl, hn⟩
    · rcases array_isSubtype_iff.1 hbc with ⟨c, rfl, hbc'⟩ | ⟨k, rfl, hk⟩
      · exact array_isSubtype_iff.2 (.inl ⟨c, rfl, ih hab' hbc'⟩)
      · exact array_isSubtype_iff.2 (.inr ⟨k, rfl, hk⟩)
    · -- the chain has left the arrays, and climbs
      obtain ⟨k, rfl, hnk⟩ := named_isSubtype_iff.1 hbc
      exact array_isSubtype_iff.2 (.inr ⟨k, rfl, h.above hn hnk⟩)

/-- Where chains can be cut short, a declared supertype of a supertype of arrays is one as well. -/
theorem arraysOnTop_of_trans (h : ∀ a b c, v.isSubtype a b = .yes → v.isSubtype b c = .yes →
    v.isSubtype a c = .yes) : v.ArraysOnTop := by
  intro n hn t ht
  have harray : v.isSubtype (.array (.named n)) (.named n) = .yes :=
    array_isSubtype_iff.2 (.inr ⟨n, rfl, hn⟩)
  have hstep : v.isSubtype (.named n) (.named t) = .yes :=
    named_isSubtype_iff.2 ⟨t, rfl, .single ht⟩
  rcases array_isSubtype_iff.1 (h _ _ _ harray hstep) with ⟨b, hb, -⟩ | ⟨k, hk, hsuper⟩
  · cases hb
  · cases hk
    exact hsuper

/-! ## The relation that the check decides -/

/-- One type is a subtype of another: by the supertypes that are declared, element by element,
as an array, and by chains of these. -/
inductive SubtypeOf (v : View) : TypeRef → TypeRef → Prop where
  | refl (a : TypeRef) : SubtypeOf v a a
  | trans {a b c : TypeRef} (hab : SubtypeOf v a b) (hbc : SubtypeOf v b c) : SubtypeOf v a c
  | declared {n t : Symbol} (h : t ∈ v.supersOf n) : SubtypeOf v (.named n) (.named t)
  | elements {a b : TypeRef} (h : SubtypeOf v a b) : SubtypeOf v (.array a) (.array b)
  | array {a : TypeRef} {n : Symbol} (h : v.ArraySuper n) : SubtypeOf v (.array a) (.named n)

theorem subtypeOf_of_above (h : v.Above m n) : v.SubtypeOf (.named m) (.named n) := by
  induction h with
  | refl => exact .refl _
  | tail _ hstep ih => exact .trans ih (.declared hstep)

/-- What the check confirms follows from the rules, in any hierarchy. -/
theorem subtypeOf_of_isSubtype (h : v.isSubtype a b = .yes) : v.SubtypeOf a b := by
  induction a generalizing b with
  | primitive p =>
    rw [primitive_isSubtype_iff.1 h]
    exact .refl _
  | named m =>
    obtain ⟨n, rfl, hmn⟩ := named_isSubtype_iff.1 h
    exact subtypeOf_of_above hmn
  | array a ih =>
    rcases array_isSubtype_iff.1 h with ⟨b, rfl, hab⟩ | ⟨n, rfl, hn⟩
    · exact .elements (ih hab)
    · exact .array hn

/-- **What the check decides**: the least relation with the rules of subtyping. -/
theorem isSubtype_iff_subtypeOf (h : v.ArraysOnTop) :
    v.isSubtype a b = .yes ↔ v.SubtypeOf a b := by
  refine ⟨subtypeOf_of_isSubtype, fun hab => ?_⟩
  induction hab with
  | refl a => exact isSubtype_self v a
  | trans _ _ ihab ihbc => exact h.isSubtype_trans ihab ihbc
  | declared hstep => exact named_isSubtype_iff.2 ⟨_, rfl, .single hstep⟩
  | elements _ ih => exact array_isSubtype_iff.2 (.inl ⟨_, rfl, ih⟩)
  | array hn => exact array_isSubtype_iff.2 (.inr ⟨_, rfl, hn⟩)

/-- **Subtyping is a preorder** exactly where the supertypes of arrays declare no others, on
circles as well; there it is the least relation with the rules of subtyping.  In every view the
climb behind an answer ends because no class is left to look at, and not at its bound. -/
theorem isSubtype_preorder_iff (v : View) :
    (IsPreorder TypeRef (fun a b => v.isSubtype a b = .yes) ↔ v.ArraysOnTop) ∧
      (v.ArraysOnTop → ∀ a b, v.isSubtype a b = .yes ↔ v.SubtypeOf a b) ∧
      ∀ who, ((Walk.everywhere v.supersOf).run (v.upBound (v.supersOf who))
        ⟨[who], [who], []⟩).pending = [] := by
  refine ⟨⟨fun h => ?_, fun h => ?_⟩, fun h a b => isSubtype_iff_subtypeOf h, fun who => ?_⟩
  · exact arraysOnTop_of_trans fun a b c => h.trans a b c
  · exact { refl := v.isSubtype_self, trans := fun _ _ _ => h.isSubtype_trans }
  · have hlisted : ∀ p, ∀ n ∈ (Walk.everywhere v.supersOf).neighbours p,
        n ∈ v.listedSupers (v.supersOf who) := fun _ _ hn => mem_supersOf_listed _ hn
    exact Walk.pending_findFrom (.everywhere hlisted) trivial (v.card_listedSupers_lt _) who

/-- Two classes that extend each other, beside the root and an interface above it. -/
def circle (rootInterfaces : List TypeRef) : View where
  main :=
    ((Graph.empty.record ⟨6⟩ { ClassInfo.plain ⟨1⟩ (.ofFlags [.pub]) (.named ⟨1⟩) with
        interfaces := rootInterfaces }).record ⟨7⟩
      (.plain ⟨4⟩ (.ofFlags [.pub]) (.named ⟨5⟩))).record ⟨7⟩
        (.plain ⟨5⟩ (.ofFlags [.pub]) (.named ⟨4⟩))
  overlay := none
  names := NameTable.new.internAll
    (arraySupertypeNames ++ ["p/A", "p/B", "Object.java", "A.java", "p/Top"])

example : (circle [.named ⟨2⟩]).ArraysOnTop := by decide

example : ¬ (circle [.named ⟨8⟩]).ArraysOnTop := by decide

example : (circle []).isSubtype (.array (.named ⟨4⟩)) (.array (.named ⟨5⟩)) = .yes := by decide

end View

end ClassImpact

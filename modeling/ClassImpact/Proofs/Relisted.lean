import Mathlib
import ClassImpact.Hierarchy.Members
import ClassImpact.Proofs.Merged
import ClassImpact.Proofs.Walks

/-!
# Graphs that list their sets in another order

The order in which a set lists its members carries no meaning, but every search walks
over such lists.  Two graphs are relisted when they are equal up to the order of their
sets.  Searches towards supertypes follow declarations, which are lists, and find the
same in both; searches towards subclasses follow sets, and find the same things in
another order.
-/

namespace ClassImpact

open Identified (ident)

/-! ## Relisted graphs -/

/-- The same class, its usages listed in another order. -/
def ClassInfo.Relisted (c d : ClassInfo) : Prop :=
  ∃ usages : IdSet Usage, d = { c with usages := usages } ∧ ∀ u, u ∈ c.usages ↔ u ∈ usages

theorem ClassInfo.Relisted.refl (c : ClassInfo) : c.Relisted c := ⟨c.usages, rfl, fun _ => Iff.rfl⟩

theorem ClassInfo.forall₂_relisted_refl (l : List ClassInfo) :
    List.Forall₂ ClassInfo.Relisted l l := List.forall₂_same.2 fun c _ => .refl c

theorem ClassInfo.Relisted.ident_eq {c d : ClassInfo} (h : c.Relisted d) : ident c = ident d := by
  obtain ⟨_, rfl, -⟩ := h
  rfl

/-- Two sets of classes that list relisted classes, in another order. -/
def IdSet.Relisted (s t : IdSet ClassInfo) : Prop :=
  ∃ l, s.toList.Perm l ∧ List.Forall₂ ClassInfo.Relisted l t.toList

/-- Two tables with the same keys and related values. -/
def Table.Rel {α β : Type} (R : α → β → Prop) (t : Table α) (u : Table β) : Prop :=
  List.Forall₂ (fun e e' => e.1 = e'.1 ∧ R e.2 e'.2) t.entries u.entries

theorem Table.rel_lookupIn {α β : Type} {R : α → β → Prop} {l : List (Symbol × α)}
    {m : List (Symbol × β)} (h : List.Forall₂ (fun e e' => e.1 = e'.1 ∧ R e.2 e'.2) l m)
    (k : Symbol) : Option.Rel R (lookupIn k l) (lookupIn k m) := by
  induction h with
  | nil => exact .none
  | @cons e e' l m he _ ih =>
    rw [lookupIn, lookupIn, ← he.1]
    by_cases hk : e.1 = k
    · rw [if_pos hk, if_pos hk]
      exact .some he.2
    · rw [if_neg hk, if_neg hk]
      exact ih

theorem Table.Rel.get? {α β : Type} {R : α → β → Prop} {t : Table α} {u : Table β}
    (h : t.Rel R u) (k : Symbol) : Option.Rel R (t.get? k) (u.get? k) :=
  rel_lookupIn h k

namespace Graph

/-- The same graph, its sets listed in another order. -/
structure Relisted (g g' : Graph) : Prop where
  fileOf : g'.fileOf = g.fileOf
  subclasses : g.subclasses.Rel (fun s t => s.toList.Perm t.toList) g'.subclasses
  dependants : g.dependants.Rel (fun s t => s.toList.Perm t.toList) g'.dependants
  classesIn : g.classesIn.Rel IdSet.Relisted g'.classesIn

theorem Relisted.refl (g : Graph) : g.Relisted g where
  fileOf := rfl
  subclasses := List.forall₂_same.2 fun _ _ => ⟨rfl, .refl _⟩
  dependants := List.forall₂_same.2 fun _ _ => ⟨rfl, .refl _⟩
  classesIn := List.forall₂_same.2 fun e _ =>
    ⟨rfl, e.2.toList, .refl _, ClassInfo.forall₂_relisted_refl _⟩

theorem mem_valuesOf_of_rel {t u : SetTable Symbol}
    (h : t.Rel (fun s t => s.toList.Perm t.toList) u) (k x : Symbol) :
    x ∈ (t.valuesOf k).toList ↔ x ∈ (u.valuesOf k).toList := by
  have hget := h.get? k
  unfold Table.valuesOf
  generalize t.get? k = a at hget
  generalize u.get? k = b at hget
  cases hget with
  | some hp => exact hp.mem_iff
  | none => exact Iff.rfl

variable {g g' : Graph}

theorem Relisted.relist_classesIn (h : g.Relisted g') (f : Symbol) :
    Relist ClassInfo.Relisted (g.classesIn.valuesOf f).toList (g'.classesIn.valuesOf f).toList := by
  have hget := h.classesIn.get? f
  unfold Table.valuesOf
  generalize g.classesIn.get? f = a at hget
  generalize g'.classesIn.get? f = b at hget
  cases hget with
  | @some s t hp =>
    obtain ⟨l, hl, hlt⟩ := hp
    have hrel := Relist.of_forall₂ hlt
    exact ⟨fun x hx => hrel.1 x (hl.mem_iff.1 hx), fun y hy => by
      obtain ⟨x, hx, hR⟩ := hrel.2 y hy
      exact ⟨x, hl.mem_iff.2 hx, hR⟩⟩
  | none => exact ⟨by simp, by simp⟩

theorem Relisted.describe? (h : g.Relisted g') (n : Symbol) :
    Option.Rel ClassInfo.Relisted (g.describe? n) (g'.describe? n) := by
  cases hc : g.describe? n with
  | some c =>
    obtain ⟨f, hf, hmem, rfl⟩ := describe?_eq_some.1 hc
    obtain ⟨_, hmem', usages, rfl, hu⟩ := (h.relist_classesIn f).1 c hmem
    have hc' : g'.describe? c.name = some { c with usages := usages } :=
      describe?_eq_some.2 ⟨f, h.fileOf ▸ hf, hmem', rfl⟩
    rw [hc']
    exact .some ⟨usages, rfl, hu⟩
  | none =>
    cases hc' : g'.describe? n with
    | none => exact .none
    | some c' =>
      obtain ⟨f, hf, hmem, rfl⟩ := describe?_eq_some.1 hc'
      obtain ⟨c, hmem', usages, rfl, -⟩ := (h.relist_classesIn f).2 c' hmem
      have : g.describe? c.name = some c := describe?_eq_some.2 ⟨f, h.fileOf ▸ hf, hmem', rfl⟩
      rw [this] at hc
      simp at hc

theorem Relisted.mem_directSubclasses (h : g.Relisted g') (n x : Symbol) :
    x ∈ g.directSubclasses n ↔ x ∈ g'.directSubclasses n :=
  mem_valuesOf_of_rel h.subclasses n x

theorem Relisted.mem_dependantsOf (h : g.Relisted g') (n x : Symbol) :
    x ∈ g.dependantsOf n ↔ x ∈ g'.dependantsOf n :=
  mem_valuesOf_of_rel h.dependants n x

theorem length_supers_relisted {l m : List ClassInfo}
    (h : List.Forall₂ ClassInfo.Relisted l m) :
    m.map (fun c => c.supers.length) = l.map fun c => c.supers.length := by
  induction h with
  | nil => rfl
  | cons hR _ ih =>
    obtain ⟨_, rfl, -⟩ := hR
    rw [List.map_cons, List.map_cons, ih]
    rfl

theorem Relisted.declaredSupers (h : g.Relisted g') :
    View.declaredSupers g' = View.declaredSupers g := by
  have key : ∀ {l m : List (Symbol × IdSet ClassInfo)},
      List.Forall₂ (fun e e' => e.1 = e'.1 ∧ e.2.Relisted e'.2) l m →
      (m.map fun e => (e.2.toList.map fun c => c.supers.length).sum) =
        l.map fun e => (e.2.toList.map fun c => c.supers.length).sum := by
    intro l m hlm
    induction hlm with
    | nil => rfl
    | cons he _ ih =>
      obtain ⟨-, l, hl, hlm⟩ := he
      rw [List.map_cons, List.map_cons, ih, length_supers_relisted hlm, (hl.map _).sum_eq]
  unfold View.declaredSupers
  simp only [List.length_flatMap]
  rw [key h.classesIn]

end Graph

/-! ## Relisted views -/

namespace View

/-- Two views of one hierarchy, whose graphs list their sets in another order. -/
structure Relisted (v v' : View) : Prop where
  names : v'.names = v.names
  describe : ∀ n, Option.Rel ClassInfo.Relisted (v.describe? n) (v'.describe? n)
  subclasses : ∀ n x, x ∈ v.main.directSubclasses n ↔ x ∈ v'.main.directSubclasses n
  upBound : ∀ supers, v'.upBound supers = v.upBound supers

theorem Relisted.refl (v : View) : v.Relisted v where
  names := rfl
  describe n := by
    cases v.describe? n with
    | none => exact .none
    | some c => exact .some (.refl c)
  subclasses _ _ := Iff.rfl
  upBound _ := rfl

theorem relisted_alone {main main' : Graph} (h : main.Relisted main') (names : NameTable) :
    Relisted ⟨main, none, names⟩ ⟨main', none, names⟩ where
  names := rfl
  describe n := h.describe? n
  subclasses := h.mem_directSubclasses
  upBound supers := by simp only [View.upBound, h.declaredSupers]

theorem relisted_overlay {main main' round round' : Graph} (h : main.Relisted main')
    (hr : round.Relisted round') (names : NameTable) :
    Relisted ⟨main, some round, names⟩ ⟨main', some round', names⟩ where
  names := rfl
  describe n := by
    have hm := h.describe? n
    have ho := hr.describe? n
    unfold View.describe?
    simp only [Option.bind_some]
    generalize round.describe? n = a at ho
    generalize round'.describe? n = b at ho
    cases ho with
    | some hR => exact .some hR
    | none => exact hm
  subclasses := h.mem_directSubclasses
  upBound supers := by
    simp only [View.upBound, Option.map_some, Option.getD_some, h.declaredSupers,
      hr.declaredSupers]

variable {v v' : View} (h : v.Relisted v')

include h

/-- What two views say of a class, case by case. -/
theorem Relisted.cases (n : Symbol) :
    v.describe? n = none ∧ v'.describe? n = none ∨
      ∃ c c', v.describe? n = some c ∧ v'.describe? n = some c' ∧ c.Relisted c' := by
  have hn := h.describe n
  generalize v.describe? n = a at hn
  generalize v'.describe? n = b at hn
  cases hn with
  | some hR => exact .inr ⟨_, _, rfl, rfl, hR⟩
  | none => exact .inl ⟨rfl, rfl⟩

theorem Relisted.isSome_describe? (n : Symbol) :
    (v'.describe? n).isSome = (v.describe? n).isSome := by
  rcases h.cases n with ⟨h₁, h₂⟩ | ⟨_, _, h₁, h₂, -⟩
  · rw [h₁, h₂]
  · rw [h₁, h₂]
    rfl

theorem Relisted.supersOf : v'.supersOf = v.supersOf := by
  funext n
  unfold View.supersOf
  rcases h.cases n with ⟨h₁, h₂⟩ | ⟨c, _, h₁, h₂, _, rfl, -⟩
  · rw [h₁, h₂]
  · rw [h₁, h₂]
    rfl

theorem Relisted.inherits (who whom : Symbol) : v'.inherits who whom = v.inherits who whom := by
  unfold View.inherits View.ancestors
  rw [h.supersOf, h.upBound]

theorem Relisted.isSubtype (who whom : TypeRef) : v'.isSubtype who whom = v.isSubtype who whom := by
  induction who generalizing whom with
  | primitive p => cases whom <;> simp only [View.isSubtype]
  | array element ih => cases whom <;> simp only [View.isSubtype, ih, h.names]
  | named name => cases whom <;> simp only [View.isSubtype, h.inherits]

theorem Relisted.isVisibleIn (owner : Symbol) (access : Access) (scope : Symbol) :
    v'.isVisibleIn owner access scope = v.isVisibleIn owner access scope := by
  unfold View.isVisibleIn
  rw [h.names]

theorem Relisted.matching (c : ClassInfo) (how : MethodMatch) (than : MethodInfo)
    (usages : IdSet Usage) :
    v'.matching { c with usages := usages } how than = v.matching c how than := by
  have hless : v'.isLessSpecific than = v.isLessSpecific than := by
    funext m
    unfold View.isLessSpecific
    rw [h.names]
    congr 2
    funext p
    rw [h.isSubtype]
  unfold View.matching
  rw [hless]

end View

end ClassImpact

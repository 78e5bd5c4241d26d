import ClassImpact.Proofs.Forgotten

/-!
# Overriding methods

A method is overridden below its class by the methods of its key that it is visible to, each the
first on some way down.  The search for them asks at every step whether the method is visible
from one class to the next one below, and so it answers about the packages of neighbours.  A
method that is local to a package is visible in the package of its own class.

The two agree where the class above every declaration lies in the package of the declaration
just when the declaring class does.  That is so for every method that is not local to a package.

## Main results

* `Walk.Uniform.mem_findFrom`, `Walk.Uniform.find?_findFrom`: what a walk finds whose looks are
  those from its start
* `View.overriding_exact_iff`: where the search finds the overriding methods
-/

namespace ClassImpact

open Identified (ident)

/-! ## Walks with the looks of their start -/

namespace Walk

/-- Edges lead from `a` to `b` through symbols that let pass. -/
def Chain (edge : Symbol → Symbol → Prop) (pass : Symbol → Prop) (a b : Symbol) : Prop :=
  Relation.ReflTransGen (fun p n => edge p n ∧ pass n) a b

section

variable {σ β : Type} {w : Walk σ β} {label : σ → Symbol} {start p : σ} {n : Symbol}
  {edge : Symbol → Symbol → Prop} {pass : Symbol → Prop}

/-- A walk along `edge` that takes every look as from its start, and goes on where it may
pass. -/
structure Uniform (w : Walk σ β) (label : σ → Symbol) (start : σ)
    (edge : Symbol → Symbol → Prop) (pass : Symbol → Prop) : Prop where
  labelled : w.Labelled label
  neighbours : ∀ {p}, w.Place label start p → ∀ n, n ∈ w.neighbours p ↔ edge (label p) n
  look : ∀ {p n}, w.Arrives label start p n → Chain edge pass (label start) (label p) →
    w.look p n = w.look start n
  opens : ∀ {p n}, w.Arrives label start p n → Chain edge pass (label start) (label p) →
    ((w.look start n).next.isSome = true ↔ pass n)

namespace Uniform

variable (h : w.Uniform label start edge pass)

include h

theorem chain_of_place (hp : w.Place label start p) :
    Chain edge pass (label start) (label p) := by
  induction hp with
  | start => exact .refl
  | @step p q n hp hn hs hl hq ih =>
    have harr : w.Arrives label start p n := ⟨hp, hn, hs, hl⟩
    have hpass : pass n := by
      rw [← h.opens harr ih, ← h.look harr ih, hq]
      rfl
    rw [h.labelled p n q hq]
    exact ih.tail ⟨(h.neighbours hp n).1 hn, hpass⟩

theorem exists_place (hc : Chain edge pass (label start) n) :
    ∃ p, w.Place label start p ∧ label p = n := by
  induction hc with
  | refl => exact ⟨start, .start, rfl⟩
  | @tail u n hu hn ih =>
    obtain ⟨p, hp, rfl⟩ := ih
    by_cases hs : n = label start
    · exact ⟨start, .start, hs.symm⟩
    · by_cases hl : n = label p
      · exact ⟨p, hp, hl.symm⟩
      · have harr : w.Arrives label start p n := ⟨hp, (h.neighbours hp n).2 hn.1, hs, hl⟩
        have hsome := (h.opens harr hu).2 hn.2
        rw [← h.look harr hu] at hsome
        obtain ⟨q, hq⟩ := Option.isSome_iff_exists.1 hsome
        exact ⟨q, .step hp harr.mem hs hl hq, h.labelled p n q hq⟩

theorem steady : w.Steady label start := by
  intro p p' n hp hp'
  rw [h.look hp (h.chain_of_place hp.place), h.look hp' (h.chain_of_place hp'.place)]

/-- The symbols that a walk looks at. -/
theorem exists_arrives_iff :
    (∃ p, w.Arrives label start p n) ↔
      n ≠ label start ∧ ∃ u, Chain edge pass (label start) u ∧ edge u n := by
  constructor
  · rintro ⟨p, hp⟩
    exact ⟨hp.ne_start, label p, h.chain_of_place hp.place,
      (h.neighbours hp.place n).1 hp.mem⟩
  · rintro ⟨hs, u, hu, hn⟩
    -- a chain that has come to `n` already is cut before it
    induction hu with
    | refl => exact ⟨start, .start, (h.neighbours .start n).2 hn, hs, hs⟩
    | @tail u' u hu' hu ih =>
      by_cases hnu : n = u
      · exact ih (hnu ▸ hu.1)
      · obtain ⟨p, hp, rfl⟩ := h.exists_place (hu'.tail hu)
        exact ⟨p, hp, (h.neighbours hp n).2 hn, hs, hnu⟩

section

variable {I : σ → Prop} {symbols : Finset Symbol} {bound : Nat} (hw : w.Confined I symbols)
  (hstart : I start) (hbound : symbols.card < bound)

include hw hstart hbound

omit hw hstart hbound in
/-- What a walk sees at a symbol, from wherever it comes, its start sees there. -/
theorem exists_look_iff {n : Symbol} {P : Arrival σ β → Prop} :
    (∃ p, w.Arrives label start p n ∧ P (w.look p n)) ↔
      (n ≠ label start ∧ ∃ u, Chain edge pass (label start) u ∧ edge u n) ∧ P (w.look start n) := by
  rw [← h.exists_arrives_iff, ← exists_and_right]
  refine exists_congr fun p => and_congr_right fun hp => ?_
  rw [h.look hp (h.chain_of_place hp.place)]

/-- What a walk finds: what its start finds at the symbols that chains lead to. -/
theorem mem_findFrom {x : β} :
    x ∈ w.findFrom bound (label start) start ↔
      ∃ n, (n ≠ label start ∧ ∃ u, Chain edge pass (label start) u ∧ edge u n) ∧
        x ∈ (w.look start n).found := by
  rw [Walk.mem_findFrom h.labelled h.steady hw hstart hbound, exists_comm]
  exact exists_congr fun n => h.exists_look_iff (P := fun a => x ∈ a.found)

/-- The first thing of a kind that a walk finds, where things of that kind are found at one
symbol only. -/
theorem find?_findFrom {kind : β → Bool} {o : Symbol}
    (ho : ∀ p n x, w.Arrives label start p n → x ∈ (w.look p n).found → kind x = true → n = o)
    {x : β} :
    (w.findFrom bound (label start) start).find? kind = some x ↔
      (o ≠ label start ∧ ∃ u, Chain edge pass (label start) u ∧ edge u o) ∧
        (w.look start o).found.find? kind = some x := by
  rw [Walk.find?_findFrom h.labelled h.steady hw hstart hbound ho]
  exact h.exists_look_iff (P := fun a => a.found.find? kind = some x)

end

end Uniform

end

end Walk

/-! ## Sets of what was found -/

theorem IdSet.mem_ofList_iff_find? {α κ : Type} [Identified α κ] [DecidableEq κ] {l : List α}
    {a : α} : a ∈ ofList l ↔ l.find? (fun b => ident b = ident a) = some a := by
  rw [← find?_ofList]
  exact ⟨fun h => find?_eq_some.2 ⟨h, rfl⟩, fun h => (find?_eq_some.1 h).1⟩

namespace View

variable {v : View} {c d : ClassInfo} {m : MethodInfo} {how : MethodMatch}

/-! ## Looks at a class -/

section

variable {β : Type} {visible : MethodInfo → Except Fault Bool} {found : List MethodInfo}
  {emit : Declaration → β}

/-- Methods of which all are visible, or none is. -/
theorem filterMapM_visible_of_all {b : Bool} (h : ∀ m ∈ found, visible m = .ok b) :
    (found.filterMapM fun m => (visible m).map fun b => if b then some m else none) =
      .ok (if b then found else []) := by
  induction found with
  | nil => cases b <;> rfl
  | cons m found ih =>
    obtain ⟨hm, hfound⟩ := List.forall_mem_cons.1 h
    rw [List.filterMapM_cons, hm, ih hfound]
    cases b <;> rfl

theorem arrivalAt_unseen (h : ∀ m ∈ found, visible m = .ok false) :
    arrivalAt c found visible emit = ⟨[], some c⟩ := by
  unfold arrivalAt
  rw [filterMapM_visible_of_all h]
  rfl

theorem arrivalAt_seen (hne : found ≠ []) (h : ∀ m ∈ found, visible m = .ok true) :
    arrivalAt c found visible emit = ⟨found.map fun m => .ok (emit ⟨m, c⟩), none⟩ := by
  unfold arrivalAt
  rw [filterMapM_visible_of_all h]
  cases found with
  | nil => exact absurd rfl hne
  | cons m found => rfl

end

theorem matching_sameKey_eq_nil_iff :
    v.matching d .sameKey m = [] ↔ d.declaresMethod m.key = false := by
  rw [← Bool.not_eq_true, ClassInfo.declaresMethod_iff, matching, List.filter_eq_nil_iff]
  simp

/-- The methods of one key in a class are known by the first of them. -/
theorem find?_matching_sameKey {β : Type} {f : MethodInfo → β} {kind : β → Bool}
    (hkind : ∀ x, x.key = m.key → kind (f x) = true) :
    ((v.matching d .sameKey m).map f).find? kind =
      (d.methods.find? fun x => x.key = m.key).map f := by
  rw [List.find?_map, matching, List.find?_filter]
  congr 2
  funext x
  by_cases hx : x.key = m.key
  · simp [hx, hkind x hx]
  · simp [hx]

/-! ## Visibility from the declaring class -/

end View

/-- Two classes lie in one package. -/
def NameTable.Together (names : NameTable) (c d : Symbol) : Prop :=
  ∃ package, names.packageOf c = .ok package ∧ names.packageOf d = .ok package

theorem NameTable.together_iff {names : NameTable} {c d : Symbol} {p q : String}
    (hc : names.packageOf c = .ok p) (hd : names.packageOf d = .ok q) :
    names.Together c d ↔ p = q := by
  constructor
  · rintro ⟨package, hc', hd'⟩
    exact (Except.ok.inj (hc.symm.trans hc')).trans (Except.ok.inj (hd'.symm.trans hd))
  · rintro rfl
    exact ⟨p, hc, hd⟩

instance (names : NameTable) (c d : Symbol) : Decidable (names.Together c d) :=
  match hc : names.packageOf c, hd : names.packageOf d with
  | .ok _, .ok _ => decidable_of_iff _ (NameTable.together_iff hc hd).symm
  | .error _, _ => .isFalse fun ⟨_, hc', _⟩ => by rw [hc] at hc'; cases hc'
  | _, .error _ => .isFalse fun ⟨_, _, hd'⟩ => by rw [hd] at hd'; cases hd'

namespace View

variable {v : View} {c d : ClassInfo} {m : MethodInfo} {a n p : Symbol}

/-- The method `m` of the class `a` is visible in another class `n`. -/
def Sees (v : View) (m : MethodInfo) (a n : Symbol) : Prop :=
  m.access.isPrivate = false ∧ (m.access.isPackageLocal = true → v.names.Together a n)

instance (v : View) (m : MethodInfo) (a n : Symbol) : Decidable (v.Sees m a n) :=
  inferInstanceAs (Decidable (_ ∧ (_ → _)))

/-- A class that the view describes, and that does not both declare the key of `m` and see the
method. -/
def LetsPast (v : View) (m : MethodInfo) (a n : Symbol) : Prop :=
  ∃ d, v.describe? n = some d ∧ ¬ (d.declaresMethod m.key = true ∧ v.Sees m a n)

/-- Subclass edges lead from `a` to `p` through classes that let the method past. -/
def OpenBelow (v : View) (m : MethodInfo) (a p : Symbol) : Prop :=
  Walk.Chain (fun p n => n ∈ v.main.directSubclasses p) (v.LetsPast m a) a p

/-- The first declaration of a key in a class of the view. -/
def Declared (v : View) (key : MethodKey) (x : Declaration) : Prop :=
  v.describe? x.owner.name = some x.owner ∧
    x.owner.methods.find? (fun y => y.key = key) = some x.method

theorem exists_declared {key : MethodKey} (hd : v.describe? d.name = some d)
    (h : d.declaresMethod key = true) : ∃ x : MethodInfo, x.key = key ∧ v.Declared key ⟨x, d⟩ := by
  obtain ⟨m, hm, hkey⟩ := ClassInfo.declaresMethod_iff.1 h
  obtain ⟨x, hx⟩ := Option.isSome_iff_exists.1
    (List.find?_isSome (p := fun y => decide (y.key = key)).2 ⟨m, hm, decide_eq_true hkey⟩)
  have hxkey : x.key = key := by simpa using List.find?_some hx
  exact ⟨x, hxkey, hd, hx⟩

/-- A declaration below `a` overrides its method `m`: it is of the same key, the method is
visible to its class, and no class on some way down to it does so already. -/
structure Overrides (v : View) (m : MethodInfo) (a : Symbol) (x : Declaration) : Prop where
  declared : v.Declared m.key x
  other : x.owner.name ≠ a
  sees : v.Sees m a x.owner.name
  below : ∃ p, v.OpenBelow m a p ∧ x.owner.name ∈ v.main.directSubclasses p

/-! ## The look at a class -/

section

variable {β : Type} {sees : Prop} [Decidable sees] {lost : List (Except Fault β)}
  {emit : Declaration → β}

/-- What is found at the class `n`, and whether the way goes on, when all of its declarations of
the key of `m` are seen or none is. -/
def lookFor (v : View) (m : MethodInfo) (sees : Prop) [Decidable sees]
    (lost : List (Except Fault β)) (emit : Declaration → β) (n : Symbol) :
    Arrival ClassInfo (Except Fault β) :=
  match v.describe? n with
  | none => ⟨lost, none⟩
  | some d =>
    if d.declaresMethod m.key = true ∧ sees then
      ⟨(v.matching d .sameKey m).map fun x => .ok (emit ⟨x, d⟩), none⟩
    else ⟨[], some d⟩

theorem isSome_next_lookFor : (v.lookFor m sees lost emit n).next.isSome = true ↔
    ∃ d, v.describe? n = some d ∧ ¬ (d.declaresMethod m.key = true ∧ sees) := by
  unfold lookFor
  cases v.describe? n with
  | none => simp
  | some d =>
    dsimp only
    split
    · rename_i h
      simp [h]
    · rename_i h
      simp only [Option.isSome_some, Option.some.injEq, exists_eq_left', true_iff]
      exact h

theorem exists_ok_of_mem_lookFor (hlost : ∀ r ∈ lost, ∃ b, r = .ok b) {r : Except Fault β}
    (h : r ∈ (v.lookFor m sees lost emit n).found) : ∃ b, r = .ok b := by
  unfold lookFor at h
  split at h
  · exact hlost r h
  · split at h
    · obtain ⟨x, -, rfl⟩ := List.mem_map.1 h
      exact ⟨_, rfl⟩
    · simp at h

/-- A class whose declarations of the key are seen is known by the first of them. -/
theorem find?_lookFor {kind : Except Fault β → Bool} {x : Declaration}
    (hemit : Function.Injective emit) (hlost : ∀ r ∈ lost, kind r = false)
    (hkind : ∀ y, kind (.ok (emit y)) = decide (ident y = ident x)) :
    (v.lookFor m sees lost emit x.owner.name).found.find? kind = some (.ok (emit x)) ↔
      v.Declared m.key x ∧ sees := by
  have hkey : ∀ {l : List MethodInfo} {y}, l.find? (fun y => y.key = m.key) = some y →
      y ∈ l ∧ y.key = m.key := fun h =>
    ⟨List.mem_of_find?_eq_some h, by simpa using List.find?_some h⟩
  unfold lookFor Declared
  cases hd : v.describe? x.owner.name with
  | none =>
    have hnone : lost.find? kind = none :=
      List.find?_eq_none.2 fun r hr => by rw [hlost r hr]; exact Bool.false_ne_true
    simp [hnone]
  | some d =>
    dsimp only
    split
    · rename_i hsees
      have hfind : x.owner = d → x.method.key = m.key →
          (((v.matching d .sameKey m).map fun y => (.ok (emit ⟨y, d⟩) : Except Fault β)).find?
            kind = some (.ok (emit x)) ↔
          d.methods.find? (fun z => z.key = m.key) = some x.method) := by
        rintro rfl hx
        rw [find?_matching_sameKey fun z hz => by rw [hkind]; simp [ident, hz, hx]]
        simp only [Option.map_eq_some_iff, Except.ok.injEq]
        constructor
        · rintro ⟨y, hy, he⟩
          rw [hy, ← hemit he]
        · exact fun h => ⟨x.method, h, rfl⟩
      constructor
      · intro h
        obtain ⟨y, hy, he⟩ := List.mem_map.1 (List.mem_of_find?_eq_some h)
        obtain rfl := hemit (Except.ok.inj he)
        exact ⟨⟨rfl, (hfind rfl (of_decide_eq_true (List.mem_filter.1 hy).2)).1 h⟩, hsees.2⟩
      · rintro ⟨⟨hknown, hdeclared⟩, -⟩
        obtain rfl := Option.some.inj hknown
        exact (hfind rfl (hkey hdeclared).2).2 hdeclared
    · rename_i hsees
      simp only [List.find?_nil, reduceCtorEq, false_iff, Option.some.injEq]
      rintro ⟨⟨rfl, hdeclared⟩, h⟩
      obtain ⟨hmem, heq⟩ := hkey hdeclared
      exact hsees ⟨ClassInfo.declaresMethod_iff.2 ⟨_, hmem, heq⟩, h⟩

theorem arrivalAt_eq_lookFor {visible : MethodInfo → Except Fault Bool}
    (hd : v.describe? n = some d)
    (h : ∀ x ∈ v.matching d .sameKey m, visible x = .ok (decide sees)) :
    arrivalAt d (v.matching d .sameKey m) visible emit = v.lookFor m sees lost emit n := by
  simp only [lookFor, hd]
  by_cases hdeclares : d.declaresMethod m.key = true
  · by_cases hsees : sees
    · rw [if_pos ⟨hdeclares, hsees⟩]
      refine arrivalAt_seen ?_ fun x hx => by rw [h x hx, decide_eq_true hsees]
      rw [Ne, matching_sameKey_eq_nil_iff, hdeclares]
      exact Bool.noConfusion
    · rw [if_neg fun h => hsees h.2]
      exact arrivalAt_unseen fun x hx => by rw [h x hx, decide_eq_false hsees]
  · rw [if_neg fun h => hdeclares h.1,
      matching_sameKey_eq_nil_iff.2 (Bool.eq_false_iff.2 hdeclares)]
    exact arrivalAt_unseen fun _ h => absurd h List.not_mem_nil

end

/-- The look at the class `n` when the method is the one of the class `a`. -/
def lookFrom (v : View) (m : MethodInfo) (a n : Symbol) :
    Arrival ClassInfo (Except Fault Declaration) :=
  v.lookFor m (v.Sees m a n) [] id n

theorem isSome_next_lookFrom : (v.lookFrom m a n).next.isSome = true ↔ v.LetsPast m a n :=
  isSome_next_lookFor

theorem find?_lookFrom {x : Declaration} :
    (v.lookFrom m a x.owner.name).found.find? (isAt (ident x)) = some (.ok x) ↔
      v.Declared m.key x ∧ v.Sees m a x.owner.name :=
  find?_lookFor Function.injective_id (fun _ hr => absurd hr List.not_mem_nil) fun _ => rfl

/-- The search sees the method from `p` just as from `a`. -/
def SeesAlike (v : View) (m : MethodInfo) (a p n : Symbol) : Prop :=
  v.isVisibleIn p m.access n = .ok (decide (v.Sees m a n))

theorem look_overridingWalk {here : ClassInfo}
    (h : ∀ d, v.describe? n = some d → d.declaresMethod m.key = true →
      v.SeesAlike m a here.name n) :
    (v.overridingWalk m .sameKey).look here n = v.lookFrom m a n := by
  unfold lookFrom
  cases hd : v.describe? n with
  | none => simp only [overridingWalk, lookFor, hd]
  | some d =>
    obtain rfl := name_of_describe? hd
    simp only [overridingWalk, hd]
    refine arrivalAt_eq_lookFor hd fun x hx => h d hd ?_
    exact ClassInfo.declaresMethod_iff.2
      ⟨x, (List.mem_filter.1 hx).1, of_decide_eq_true (List.mem_filter.1 hx).2⟩

/-! ## Ways through packages -/

/-- A class that declares the key of `m` below an open one lies in the package of that one just
when it lies in the package of `a`, as far as packages matter to the method. -/
def Aligned (v : View) (m : MethodInfo) (a : Symbol) : Prop :=
  m.access.isPackageLocal = true → ∀ p n d, v.OpenBelow m a p → n ∈ v.main.directSubclasses p →
    n ≠ p → n ≠ a → v.describe? n = some d → d.declaresMethod m.key = true →
    ∃ near home there, v.names.packageOf p = .ok near ∧ v.names.packageOf a = .ok home ∧
      v.names.packageOf n = .ok there ∧ (near = there ↔ home = there)

theorem aligned_of_not_local (h : m.access.isPackageLocal = false) : v.Aligned m a := by
  intro hlocal
  rw [h] at hlocal
  cases hlocal

theorem sees_iff_of_local {home there : String} (hlocal : m.access.isPackageLocal = true)
    (ha : v.names.packageOf a = .ok home) (hn : v.names.packageOf n = .ok there) :
    v.Sees m a n ↔ home = there := by
  have hprivate := (Access.isPackageLocal_iff.1 hlocal).2.1
  rw [Sees, NameTable.together_iff ha hn]
  exact ⟨fun h => h.2 hlocal, fun h => ⟨hprivate, fun _ => h⟩⟩

theorem seesAlike (hne : n ≠ p)
    (h : m.access.isPackageLocal = true → ∃ near home there, v.names.packageOf p = .ok near ∧
      v.names.packageOf a = .ok home ∧ v.names.packageOf n = .ok there ∧
      (near = there ↔ home = there)) : v.SeesAlike m a p n := by
  have howner : (p != n) = true := bne_iff_ne.2 hne.symm
  unfold SeesAlike
  cases hlocal : m.access.isPackageLocal with
  | false => simp [isVisibleIn, Sees, hlocal, howner, pure, Except.pure, bind, Except.bind]
  | true =>
    obtain ⟨near, home, there, hp, ha, hn, hagree⟩ := h hlocal
    have hprivate := (Access.isPackageLocal_iff.1 hlocal).2.1
    have hsees : v.Sees m a n ↔ near = there := by
      rw [sees_iff_of_local hlocal ha hn, hagree]
    rw [isVisibleIn_eq hp hn m.access]
    by_cases hnear : near = there
    · rw [decide_eq_true (hsees.2 hnear)]
      simp [hlocal, hprivate, hnear]
    · rw [decide_eq_false fun h => hnear (hsees.1 h)]
      simp [hlocal, hprivate, hnear]

namespace Aligned

variable (h : v.Aligned m c.name)

include h

theorem look_eq (hp : v.OpenBelow m c.name p) (hn : n ∈ v.main.directSubclasses p)
    (hne : n ≠ p) (hnc : n ≠ c.name) {here : ClassInfo} (hhere : here.name = p ∨ here = c) :
    (v.overridingWalk m .sameKey).look here n = v.lookFrom m c.name n := by
  refine look_overridingWalk fun d hd hdeclares => ?_
  have hpackages := fun hlocal => h hlocal p n d hp hn hne hnc hd hdeclares
  rcases hhere with rfl | rfl
  · exact View.seesAlike hne hpackages
  · refine View.seesAlike hnc fun hlocal => ?_
    obtain ⟨_, home, there, -, ha, hn, -⟩ := hpackages hlocal
    exact ⟨home, home, there, ha, ha, hn, Iff.rfl⟩

/-- Where packages agree, the search takes every look as from the declaring class. -/
theorem uniform : (v.overridingWalk m .sameKey).Uniform ClassInfo.name c
    (fun p n => n ∈ v.main.directSubclasses p) (v.LetsPast m c.name) where
  labelled := labelled_overridingWalk m .sameKey
  neighbours _ _ := Iff.rfl
  look harr hp := by
    rw [h.look_eq hp harr.mem harr.ne_self harr.ne_start (.inl rfl),
      h.look_eq hp harr.mem harr.ne_self harr.ne_start (.inr rfl)]
  opens harr hp := by
    rw [h.look_eq hp harr.mem harr.ne_self harr.ne_start (.inr rfl), isSome_next_lookFrom]

end Aligned

/-! ## What the search finds -/

theorem overriding_eq_ok_iff {how : MethodMatch} {found : IdSet Declaration} :
    v.overriding m c how = .ok found ↔ ∃ l : List Declaration,
      (v.overridingWalk m how).findFrom (downBound v.main) c.name c = l.map .ok ∧
        found = .ofList l := by
  unfold overriding
  constructor
  · intro h
    obtain ⟨l, hl, hfound⟩ := exists_of_map_ok h
    exact ⟨l, values_of_mapM hl, hfound.symm⟩
  · rintro ⟨l, hl, rfl⟩
    rw [hl, mapM_map_ok]
    rfl

theorem mem_overriding {how : MethodMatch} {found : IdSet Declaration}
    (h : v.overriding m c how = .ok found) (x : Declaration) :
    x ∈ found ↔ ((v.overridingWalk m how).findFrom (downBound v.main) c.name c).find?
      (isAt (ident x)) = some (.ok x) := by
  obtain ⟨l, hl, rfl⟩ := overriding_eq_ok_iff.1 h
  have hkind : isAt (ident x) ∘ Except.ok = fun y : Declaration => decide (ident y = ident x) := rfl
  rw [IdSet.mem_ofList_iff_find?, hl, List.find?_map, hkind]
  simp

theorem confined_overridingWalk (v : View) (m : MethodInfo) (how : MethodMatch) :
    (v.overridingWalk m how).Confined (fun _ => True) v.main.listedSubclasses :=
  .everywhere fun _ _ hn => Graph.mem_listedSubclasses hn

theorem Aligned.overriding_exact (h : v.Aligned m c.name) :
    ∃ found, v.overriding m c .sameKey = .ok found ∧
      ∀ x, x ∈ found ↔ v.Overrides m c.name x := by
  have hconfined := confined_overridingWalk v m .sameKey
  have hbound := v.main.card_listedSubclasses_lt
  have hlook : ∀ {n}, (n ≠ c.name ∧ ∃ p, v.OpenBelow m c.name p ∧ n ∈ v.main.directSubclasses p) →
      (v.overridingWalk m .sameKey).look c n = v.lookFrom m c.name n := by
    intro n hn
    obtain ⟨p, harr⟩ := h.uniform.exists_arrives_iff.2 hn
    exact h.look_eq (h.uniform.chain_of_place harr.place) harr.mem harr.ne_self harr.ne_start
      (.inr rfl)
  obtain ⟨l, hl⟩ := exists_values
    (l := (v.overridingWalk m .sameKey).findFrom (downBound v.main) c.name c) fun r hr => by
      obtain ⟨n, hn, hr⟩ := (h.uniform.mem_findFrom hconfined trivial hbound).1 hr
      exact exists_ok_of_mem_lookFor (fun _ h => absurd h List.not_mem_nil) (hlook hn ▸ hr)
  have hfound := overriding_eq_ok_iff.2 ⟨l, hl, rfl⟩
  refine ⟨_, hfound, fun x => ?_⟩
  rw [mem_overriding hfound, h.uniform.find?_findFrom hconfined trivial hbound
    (fun _ _ _ _ hr hk => symbol_of_isAt (k := ident x) hr hk)]
  constructor
  · rintro ⟨hreach, hx⟩
    rw [hlook hreach] at hx
    obtain ⟨hdeclared, hsees⟩ := find?_lookFrom.1 hx
    exact ⟨hdeclared, hreach.1, hsees, hreach.2⟩
  · rintro ⟨hdeclared, hother, hsees, hbelow⟩
    have hx := find?_lookFrom.2 ⟨hdeclared, hsees⟩
    rw [← hlook ⟨hother, hbelow⟩] at hx
    exact ⟨⟨hother, hbelow⟩, hx⟩

section

variable (hn : v.Named) (hc : v.names.Knows c.name) {here : ClassInfo}

include hn hc

/-- A look along the search sees the method as if the class that it comes from declared it. -/
theorem look_of_named (harr : (v.overridingWalk m .sameKey).Arrives ClassInfo.name c here n) :
    (v.overridingWalk m .sameKey).look here n = v.lookFrom m here.name n := by
  refine look_overridingWalk fun d hd _ => seesAlike harr.ne_self fun _ => ?_
  obtain rfl := name_of_describe? hd
  obtain ⟨near, hnear⟩ := (knows_of_place hn hc harr.place).packageOf
  obtain ⟨there, hthere⟩ := (hn d.name d hd).packageOf
  exact ⟨near, near, there, hnear, hnear, hthere, Iff.rfl⟩

variable (hl : v.Level m c.name) {found : IdSet Declaration}
  (hfound : v.overriding m c .sameKey = .ok found)

include hl hfound

/-- Where every way down sees the same, a declaration is found when the class that the search
comes from would let it be seen. -/
theorem mem_overriding_of_arrives {x : Declaration}
    (harr : (v.overridingWalk m .sameKey).Arrives ClassInfo.name c here x.owner.name)
    (hx : v.Declared m.key x) : x ∈ found ↔ v.Sees m here.name x.owner.name := by
  have hsteady := steady_overridingWalk hn hc hl .sameKey
  have hlook := find?_lookFrom (v := v) (m := m) (a := here.name) (x := x)
  rw [mem_overriding hfound, Walk.find?_findFrom (labelled_overridingWalk m .sameKey) hsteady
    (confined_overridingWalk v m .sameKey) trivial v.main.card_listedSubclasses_lt
    (fun _ _ _ _ hr hk => symbol_of_isAt (k := ident x) hr hk)]
  rw [← look_of_named hn hc harr] at hlook
  constructor
  · rintro ⟨p, hp, hp'⟩
    rw [hsteady p here _ hp harr] at hp'
    exact (hlook.1 hp').2
  · intro hsees
    exact ⟨here, harr, hlook.2 ⟨hx, hsees⟩⟩

variable (hexact : ∀ x, x ∈ found ↔ v.Overrides m c.name x)

include hexact

/-- What is seen from the class before it is found, and so it sees the method of `c`. -/
theorem sees_of_exact (harr : (v.overridingWalk m .sameKey).Arrives ClassInfo.name c here n)
    (hd : v.describe? n = some d) (hdeclares : d.declaresMethod m.key = true)
    (hnear : v.Sees m here.name n) : v.Sees m c.name n := by
  obtain rfl := name_of_describe? hd
  obtain ⟨x, -, hx⟩ := exists_declared hd hdeclares
  have hmem := (mem_overriding_of_arrives hn hc hl hfound harr hx).2 hnear
  exact ((hexact ⟨x, d⟩).1 hmem).sees

/-- The search gets wherever a way down is open to the method of `c`. -/
theorem place_of_exact (hp : v.OpenBelow m c.name p) :
    ∃ here, (v.overridingWalk m .sameKey).Place ClassInfo.name c here ∧ here.name = p := by
  induction hp with
  | refl => exact ⟨c, .start, rfl⟩
  | @tail u n _ hstep ih =>
    obtain ⟨here, hhere, rfl⟩ := ih
    by_cases hnc : n = c.name
    · exact ⟨c, .start, hnc.symm⟩
    · by_cases hne : n = here.name
      · exact ⟨here, hhere, hne.symm⟩
      · have harr : (v.overridingWalk m .sameKey).Arrives ClassInfo.name c here n :=
          ⟨hhere, hstep.1, hnc, hne⟩
        obtain ⟨d, hd, hpast⟩ := hstep.2
        have hopen : v.LetsPast m here.name n := ⟨d, hd, fun hnear =>
          hpast ⟨hnear.1, sees_of_exact hn hc hl hfound hexact harr hd hnear.1 hnear.2⟩⟩
        rw [← isSome_next_lookFrom, ← look_of_named hn hc harr] at hopen
        obtain ⟨q, hq⟩ := Option.isSome_iff_exists.1 hopen
        exact ⟨q, .step hhere hstep.1 hnc hne hq, labelled_overridingWalk m .sameKey here n q hq⟩

/-- Where every way down sees the same, only packages that agree let the search find the
overriding methods. -/
theorem Aligned.of_exact : v.Aligned m c.name := by
  intro hlocal p n d hp hmem hne hnc hd hdeclares
  obtain ⟨here, hhere, rfl⟩ := place_of_exact hn hc hl hfound hexact hp
  obtain rfl := name_of_describe? hd
  have harr : (v.overridingWalk m .sameKey).Arrives ClassInfo.name c here d.name :=
    ⟨hhere, hmem, hnc, hne⟩
  obtain ⟨near, hnear⟩ := (knows_of_place hn hc hhere).packageOf
  obtain ⟨home, hhome⟩ := hc.packageOf
  obtain ⟨there, hthere⟩ := (hn d.name d hd).packageOf
  refine ⟨near, home, there, hnear, hhome, hthere, ?_⟩
  rw [← sees_iff_of_local hlocal hnear hthere, ← sees_iff_of_local hlocal hhome hthere]
  refine ⟨sees_of_exact hn hc hl hfound hexact harr hd hdeclares, fun hsees => ?_⟩
  obtain ⟨x, -, hx⟩ := exists_declared hd hdeclares
  have hoverrides : v.Overrides m c.name ⟨x, d⟩ := ⟨hx, hnc, hsees, here.name, hp, hmem⟩
  exact (mem_overriding_of_arrives hn hc hl hfound harr hx).1 ((hexact _).2 hoverrides)

end

/-- The search for the methods that override `m` finds just those that do. -/
def FindsOverriding (v : View) (m : MethodInfo) (c : ClassInfo) : Prop :=
  ∃ found, v.overriding m c .sameKey = .ok found ∧ ∀ x, x ∈ found ↔ v.Overrides m c.name x

/-- **The search for overriding methods** finds those that override the method where packages
agree, which they do for a method that is not local to its package.  In a view where every class
has a name and every way down sees the same, it does so nowhere else. -/
theorem overriding_exact_iff (v : View) (m : MethodInfo) (c : ClassInfo) :
    (m.access.isPackageLocal = false → v.Aligned m c.name) ∧
      (v.Aligned m c.name → v.FindsOverriding m c) ∧
      (v.Named → v.names.Knows c.name → v.Level m c.name → v.FindsOverriding m c →
        v.Aligned m c.name) :=
  ⟨aligned_of_not_local, Aligned.overriding_exact,
    fun hn hc hl ⟨_, hfound, hexact⟩ => .of_exact hn hc hl hfound hexact⟩

end View

/-! ## A detour through another package

A class declares a method that is local to its package.  Below it stands a class without the
method, and below that one a class of either package that declares it.  The search takes the
package of the class in the middle for that of the method. -/

namespace Detour

/-- The names of the example, with some name for the class in the middle. -/
def names (middle : String) : NameTable :=
  NameTable.new.internAll ["java/lang/Object", "<init>", "p/A", middle, "p/C", "q/D", "m", "k",
    "F.java"]

/-- A method that is local to its package. -/
def hidden : MethodInfo := ⟨⟨7⟩, .none, [], .primitive .int, none, [], none⟩

/-- A public method. -/
def shown : MethodInfo := ⟨⟨8⟩, .ofFlags [.pub], [], .primitive .int, none, [], none⟩

def info (name super : Symbol) (methods : List MethodInfo) : ClassInfo :=
  { ClassInfo.plain name (.ofFlags [.pub]) (.named super) with methods := methods }

/-- The class that declares the methods. -/
def top : ClassInfo := info ⟨3⟩ ⟨1⟩ [hidden, shown]

/-- A class below the one in the middle, which declares them again. -/
def low (name : Symbol) : ClassInfo := info name ⟨4⟩ [hidden, shown]

def graph : Graph :=
  [top, info ⟨4⟩ ⟨3⟩ [], low ⟨5⟩, low ⟨6⟩].foldl (fun g c => g.record ⟨9⟩ c) .empty

def view (middle : String) : View := ⟨graph, none, names middle⟩

theorem parent_eq {middle : String} {p n : Symbol}
    (h : n ∈ (view middle).main.directSubclasses p) :
    p = if n = ⟨3⟩ then ⟨1⟩ else if n = ⟨4⟩ then ⟨3⟩ else ⟨4⟩ := by
  obtain ⟨s, hs, hn⟩ := Table.exists_entry h
  have hall : ∀ e ∈ graph.subclasses.entries, ∀ n ∈ e.2.toList,
      e.1 = if n = ⟨3⟩ then ⟨1⟩ else if n = ⟨4⟩ then ⟨3⟩ else (⟨4⟩ : Symbol) := by
    decide
  exact hall _ hs n hn

theorem mem_of_describe? {middle : String} {n : Symbol} {d : ClassInfo}
    (h : (view middle).describe? n = some d) : d ∈ [top, info ⟨4⟩ ⟨3⟩ [], low ⟨5⟩, low ⟨6⟩] := by
  obtain ⟨_, -, hmem, -⟩ := Graph.describe?_eq_some.1 h
  obtain ⟨s, hs, hd⟩ := Table.exists_entry hmem
  have hall : ∀ e ∈ graph.classesIn.entries, ∀ d ∈ e.2.toList,
      d ∈ [top, info ⟨4⟩ ⟨3⟩ [], low ⟨5⟩, low ⟨6⟩] := by
    decide
  exact hall _ hs d hd

theorem named : (view "p/B").Named := by
  intro n d hd
  have hall : ∀ d ∈ [top, info ⟨4⟩ ⟨3⟩ [], low ⟨5⟩, low ⟨6⟩], (names "p/B").Knows d.name := by
    decide
  exact hall d (mem_of_describe? hd)

theorem level : (view "p/B").Level hidden ⟨3⟩ := by
  intro _ p p' n _ _ _ hn hn' _ _
  rw [parent_eq hn, parent_eq hn']

theorem aligned : (view "p/B").Aligned hidden ⟨3⟩ := by
  intro _ p n d _ hmem _ hne hd hdeclares
  obtain rfl := View.name_of_describe? hd
  have hmiddle : ∀ d ∈ [top, info ⟨4⟩ ⟨3⟩ [], low ⟨5⟩, low ⟨6⟩],
      d.declaresMethod hidden.key = true → d.name ≠ ⟨4⟩ := by
    decide
  have hp : p = ⟨4⟩ := by
    rw [parent_eq hmem, if_neg hne, if_neg (hmiddle d (mem_of_describe? hd) hdeclares)]
  obtain ⟨there, hthere⟩ := (named d.name d hd).packageOf
  exact ⟨"p", "p", there, hp ▸ rfl, rfl, hthere, Iff.rfl⟩

theorem straight_found :
    (view "p/B").Named ∧ (view "p/B").names.Knows top.name ∧ (view "p/B").Level hidden top.name ∧
      (view "p/B").FindsOverriding hidden top ∧ (view "p/B").Aligned hidden top.name ∧
      shown.access.isPackageLocal = false ∧ (view "q/B").FindsOverriding shown top := by
  have hknows : (view "p/B").names.Knows top.name := by decide
  have hfinds := (View.overriding_exact_iff (view "p/B") hidden top).2.1 aligned
  have hshown := View.overriding_exact_iff (view "q/B") shown top
  exact ⟨named, hknows, level, hfinds,
    (View.overriding_exact_iff (view "p/B") hidden top).2.2 named hknows level hfinds, rfl,
    hshown.2.1 (hshown.1 rfl)⟩

/-- Past a class of another package the search finds the declaration of that package, and misses
the one that overrides the method. -/
theorem detour_not_found :
    (view "q/B").overriding hidden top .sameKey = .ok (.single ⟨hidden, low ⟨6⟩⟩) ∧
      (view "q/B").Overrides hidden top.name ⟨hidden, low ⟨5⟩⟩ ∧
      ¬ (view "q/B").Overrides hidden top.name ⟨hidden, low ⟨6⟩⟩ ∧
      ¬ (view "q/B").FindsOverriding hidden top := by
  have hopen : (view "q/B").OpenBelow hidden ⟨3⟩ ⟨4⟩ :=
    .single ⟨by decide, info ⟨4⟩ ⟨3⟩ [], rfl, fun h => Bool.false_ne_true h.1⟩
  have hfound : (view "q/B").overriding hidden top .sameKey =
    .ok (.single ⟨hidden, low ⟨6⟩⟩) := rfl
  have hmissed : (view "q/B").Overrides hidden top.name ⟨hidden, low ⟨5⟩⟩ :=
    ⟨⟨rfl, rfl⟩, by decide, by decide, ⟨4⟩, hopen, by decide⟩
  refine ⟨hfound, hmissed, fun h => absurd h.sees (by decide), ?_⟩
  rintro ⟨found, hfound', hexact⟩
  obtain rfl := Except.ok.inj (hfound.symm.trans hfound')
  exact absurd (IdSet.mem_single.1 ((hexact _).2 hmissed)) (by decide)

end Detour

end ClassImpact

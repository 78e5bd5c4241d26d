import ClassImpact.Proofs.Relisted

/-!
# Searches through relisted graphs

A search that succeeds finds the same in two relisted graphs: the searches upwards in the
same order, those downwards in some order.  The search for overriding methods is the one
that looks at the place it comes from, so it needs every way to a class to see the same
of a method that is local to a package.
-/

namespace ClassImpact

open Identified (ident)

/-! ## Results -/

/-- Both results are values, and the values are related. -/
def BothOk {α β : Type} (R : α → β → Prop) (r : Except Fault α) (r' : Except Fault β) : Prop :=
  ∃ a b, r = .ok a ∧ r' = .ok b ∧ R a b

section

variable {α β γ δ : Type} {R : α → β → Prop} {S : γ → δ → Prop}

theorem BothOk.ok {a : α} {b : β} (h : R a b) :
    BothOk R (.ok a : Except Fault α) (.ok b : Except Fault β) := ⟨a, b, rfl, rfl, h⟩

theorem BothOk.map {r : Except Fault α} {r' : Except Fault β} {f : α → γ} {g : β → δ}
    (h : BothOk R r r') (hfg : ∀ a b, R a b → S (f a) (g b)) : BothOk S (r.map f) (r'.map g) := by
  obtain ⟨a, b, rfl, rfl, hR⟩ := h
  exact .ok (hfg a b hR)

theorem BothOk.of_eq {r r' : Except Fault α} {a : α} (h : r = .ok a) (h' : r' = r) :
    BothOk Eq r r' := ⟨a, a, h, h'.trans h, rfl⟩

/-- An answer that is looked for unless it is known already. -/
theorem BothOk.unless {r : Except Fault α} {r' : Except Fault β} {f : α → Bool} {g : β → Bool}
    (h : BothOk R r r') (hfg : ∀ a b, R a b → f a = g b) (known : Bool) :
    BothOk Eq (if known then pure true else r.map f) (if known then pure true else r'.map g) := by
  cases known with
  | true => exact .ok rfl
  | false => exact h.map hfg

theorem mapM_map_ok (l : List α) :
    (l.map Except.ok : List (Except Fault α)).mapM id = .ok l := by
  induction l with
  | nil => rfl
  | cons a l ih =>
    rw [List.map_cons, List.mapM_cons, ih]
    rfl

theorem exists_map_ok {l : List (Except Fault α)} {m : List (Except Fault β)}
    (h : List.Forall₂ (BothOk R) l m) :
    ∃ a b, l = a.map .ok ∧ m = b.map .ok ∧ List.Forall₂ R a b := by
  induction h with
  | nil => exact ⟨[], [], rfl, rfl, .nil⟩
  | cons hxy _ ih =>
    obtain ⟨x, y, rfl, rfl, hR⟩ := hxy
    obtain ⟨a, b, rfl, rfl, hab⟩ := ih
    exact ⟨x :: a, y :: b, rfl, rfl, .cons hR hab⟩

theorem bothOk_mapM {l : List (Except Fault α)} {m : List (Except Fault β)}
    (h : List.Forall₂ (BothOk R) l m) : BothOk (List.Forall₂ R) (l.mapM id) (m.mapM id) := by
  obtain ⟨a, b, rfl, rfl, hab⟩ := exists_map_ok h
  exact ⟨a, b, mapM_map_ok a, mapM_map_ok b, hab⟩

theorem rel_of_map_ok {a : Option α} {b : Option β}
    (h : Option.Rel (BothOk R) (a.map Except.ok) (b.map Except.ok)) : Option.Rel R a b := by
  cases a with
  | none =>
    cases b with
    | none => exact .none
    | some _ => cases h
  | some a =>
    cases b with
    | none => cases h
    | some b =>
      cases h with
      | some hab =>
        obtain ⟨_, _, ha, hb, hR⟩ := hab
        obtain rfl := Except.ok.inj ha
        obtain rfl := Except.ok.inj hb
        exact .some hR

theorem exists_values {l : List (Except Fault α)} (h : ∀ x ∈ l, ∃ a, x = .ok a) :
    ∃ a : List α, l = a.map .ok := by
  induction l with
  | nil => exact ⟨[], rfl⟩
  | cons x l ih =>
    obtain ⟨a, rfl⟩ := h x List.mem_cons_self
    obtain ⟨m, rfl⟩ := ih fun y hy => h y (List.mem_cons_of_mem _ hy)
    exact ⟨a :: m, rfl⟩

end

/-! ## Sets with related values -/

namespace IdSet

variable {α β κ : Type} [Identified α κ] [Identified β κ] [DecidableEq κ] {R : α → β → Prop}

theorem find?_ofList (l : List α) (k : κ) :
    (ofList l).find? k = l.find? fun a => ident a = k := by
  have key : ∀ (l : List α) (s : IdSet α), (l.foldl add s).find? k =
      (s.find? k).or (l.find? fun a => ident a = k) := by
    intro l
    induction l with
    | nil => simp
    | cons a l ih =>
      intro s
      rw [List.foldl_cons, ih, List.find?_cons]
      by_cases hs : s.has (ident a) = true
      · -- a value that is there already stays the first of its identity
        have hadd : s.add a = s := ext (by rw [toList_add, if_pos hs])
        rw [hadd]
        by_cases hk : ident a = k
        · obtain ⟨b, hb, hba⟩ := has_iff_mem.1 hs
          rw [(find?_eq_some (s := s)).2 ⟨hb, hba.trans hk⟩]
          rfl
        · rw [decide_eq_false hk]
      · have hadd : (s.add a).find? k = (s.find? k).or (if ident a = k then some a else none) := by
          unfold find?
          rw [toList_add, if_neg hs, List.find?_append]
          by_cases hk : ident a = k <;> simp [hk]
        rw [hadd, Option.or_assoc]
        by_cases hk : ident a = k
        · simp [hk]
        · simp [hk]
  show (l.foldl add empty).find? k = _
  rw [key]
  rfl

theorem forall₂_ofList (hR : ∀ a b, R a b → ident a = ident b) {l : List α} {m : List β}
    (h : List.Forall₂ R l m) : List.Forall₂ R (ofList l).toList (ofList m).toList := by
  have key : ∀ {l : List α} {m : List β}, List.Forall₂ R l m → ∀ {s : IdSet α} {t : IdSet β},
      List.Forall₂ R s.toList t.toList →
      List.Forall₂ R (l.foldl add s).toList (m.foldl add t).toList := by
    intro l m hlm
    induction hlm with
    | nil => exact fun hst => hst
    | @cons a b l m hab _ ih =>
      intro s t hst
      apply ih
      have hhas : s.has (ident a) = t.has (ident b) := by
        have hfind := forall₂_find? (p := fun x => decide (ident x = ident a))
          (q := fun y => decide (ident y = ident b)) hst
          fun x y hxy => by rw [hR x y hxy, hR a b hab]
        unfold has
        rw [← List.isSome_find?, ← List.isSome_find?]
        generalize s.toList.find? _ = c at hfind
        generalize t.toList.find? _ = d at hfind
        cases hfind <;> rfl
      rw [toList_add, toList_add, hhas]
      by_cases ht : t.has (ident b) = true
      · rw [if_pos ht, if_pos ht]
        exact hst
      · rw [if_neg ht, if_neg ht]
        exact List.rel_append hst (.cons hab .nil)
  exact key h .nil

/-- Two sets that have related values of each identity. -/
def Alike (R : α → β → Prop) (s : IdSet α) (t : IdSet β) : Prop :=
  ∀ k, Option.Rel R (s.find? k) (t.find? k)

theorem Alike.relist {s : IdSet α} {t : IdSet β} (h : s.Alike R t) :
    Relist R s.toList t.toList := by
  constructor
  · intro a ha
    obtain ⟨b, hb, hR⟩ := exists_of_rel_some (h (ident a)) ((find?_eq_some (s := s)).2 ⟨ha, rfl⟩)
    exact ⟨b, ((find?_eq_some (s := t)).1 hb).1, hR⟩
  · intro b hb
    have hrel := h (ident b)
    rw [(find?_eq_some (s := t)).2 ⟨hb, rfl⟩] at hrel
    generalize ha : s.find? (ident b) = c at hrel
    cases hrel with
    | some hR => exact ⟨_, ((find?_eq_some (s := s)).1 ha).1, hR⟩

end IdSet

/-! ## Known names -/

namespace NameTable

/-- The table gives the symbol a name. -/
def Knows (names : NameTable) (s : Symbol) : Prop := ∃ text, names.name s = .ok text

instance (names : NameTable) (s : Symbol) : Decidable (names.Knows s) :=
  decidable_of_iff ((names.name? s).isSome = true) <| by
    unfold Knows NameTable.name
    cases names.name? s <;> simp

theorem Knows.packageOf {names : NameTable} {s : Symbol} (h : names.Knows s) :
    ∃ package, names.packageOf s = .ok package := by
  obtain ⟨text, h⟩ := h
  exact ⟨packageName text, by rw [NameTable.packageOf, h]; rfl⟩

end NameTable

namespace View

/-- Every class that the view describes has a name. -/
def Named (v : View) : Prop := ∀ n c, v.describe? n = some c → v.names.Knows c.name

theorem name_of_describe? {v : View} {n : Symbol} {c : ClassInfo} (h : v.describe? n = some c) :
    c.name = n := by
  have hg : ∀ g : Graph, g.describe? n = some c → c.name = n := by
    intro g hg
    obtain ⟨-, -, -, hname⟩ := Graph.describe?_eq_some.1 hg
    exact hname
  unfold View.describe? at h
  cases hover : v.overlay with
  | none =>
    rw [hover, Option.bind_none, Option.none_or] at h
    exact hg _ h
  | some o =>
    rw [hover, Option.bind_some, Option.or_eq_some_iff] at h
    exact h.elim (hg o) fun hmain => hg _ hmain.2

variable {v v' : View} {c c' : ClassInfo}

theorem isVisibleIn_eq {owner scope : Symbol} {p q : String} (ho : v.names.packageOf owner = .ok p)
    (hs : v.names.packageOf scope = .ok q) (access : Access) :
    v.isVisibleIn owner access scope =
      .ok (!(access.isPrivate && owner != scope) && !(access.isPackageLocal && p != q)) := by
  unfold isVisibleIn
  rw [ho, hs]
  cases access.isPackageLocal <;> rfl

theorem isVisibleIn_ok {owner scope : Symbol} (ho : v.names.Knows owner)
    (hs : v.names.Knows scope) (access : Access) :
    ∃ b, v.isVisibleIn owner access scope = .ok b := by
  obtain ⟨p, hp⟩ := ho.packageOf
  obtain ⟨q, hq⟩ := hs.packageOf
  exact ⟨_, isVisibleIn_eq hp hq access⟩

theorem bne_congr {α : Type} [DecidableEq α] {a b a' b' : α} (h : a = b ↔ a' = b') :
    (a != b) = (a' != b') := by
  rw [Bool.eq_iff_iff, bne_iff_ne, bne_iff_ne]
  exact not_congr h

/-- What is visible depends on whether the two classes are one, and for a package-local member
on whether they share their package. -/
theorem isVisibleIn_congr {owner owner' scope scope' : Symbol} {access : Access}
    (ho : v.names.Knows owner) (hs : v.names.Knows scope) (ho' : v.names.Knows owner')
    (hs' : v.names.Knows scope') (hself : owner = scope ↔ owner' = scope')
    (hpackage : access.isPackageLocal = true →
      (v.names.packageOf owner = v.names.packageOf scope ↔
        v.names.packageOf owner' = v.names.packageOf scope')) :
    BothOk Eq (v.isVisibleIn owner access scope) (v.isVisibleIn owner' access scope') := by
  obtain ⟨p, hp⟩ := ho.packageOf
  obtain ⟨q, hq⟩ := hs.packageOf
  obtain ⟨p', hp'⟩ := ho'.packageOf
  obtain ⟨q', hq'⟩ := hs'.packageOf
  rw [isVisibleIn_eq hp hq, isVisibleIn_eq hp' hq']
  refine .ok ?_
  cases hlocal : access.isPackageLocal with
  | false => rw [bne_congr hself, Bool.false_and, Bool.false_and]
  | true =>
    have hsame := hpackage hlocal
    rw [hp, hq, hp', hq', Except.ok.injEq, Except.ok.injEq] at hsame
    rw [bne_congr hself, bne_congr hsame]

/-! ## Arrivals -/

theorem filterMapM_visible {visible visible' : MethodInfo → Except Fault Bool}
    {found : List MethodInfo} (hv : ∀ m ∈ found, BothOk Eq (visible m) (visible' m)) :
    ∃ seen : List MethodInfo,
      (found.filterMapM fun m => (visible m).map fun b => if b then some m else none) = .ok seen ∧
      (found.filterMapM fun m => (visible' m).map fun b => if b then some m else none) =
        .ok seen := by
  induction found with
  | nil => exact ⟨[], rfl, rfl⟩
  | cons m found ih =>
    obtain ⟨seen, h, h'⟩ := ih fun x hx => hv x (List.mem_cons_of_mem _ hx)
    obtain ⟨b, _, hb, hb', rfl⟩ := hv m List.mem_cons_self
    rw [List.filterMapM_cons, List.filterMapM_cons, hb, hb', h, h']
    cases b with
    | true => exact ⟨m :: seen, rfl, rfl⟩
    | false => exact ⟨seen, rfl, rfl⟩

/-- Two arrivals at one class that see the same of its methods. -/
theorem arrivalAt_alike {β β' : Type} {R : ClassInfo → ClassInfo → Prop} {S : β → β' → Prop}
    {visible visible' : MethodInfo → Except Fault Bool} {found : List MethodInfo}
    {emit : Declaration → β} {emit' : Declaration → β'} (hc : R c c')
    (hv : ∀ m ∈ found, BothOk Eq (visible m) (visible' m))
    (hemit : ∀ m, S (emit ⟨m, c⟩) (emit' ⟨m, c'⟩)) :
    Option.Rel R (arrivalAt c found visible emit).next (arrivalAt c' found visible' emit').next ∧
      List.Forall₂ (BothOk S) (arrivalAt c found visible emit).found
        (arrivalAt c' found visible' emit').found := by
  obtain ⟨seen, h, h'⟩ := filterMapM_visible hv
  unfold arrivalAt
  rw [h, h']
  cases seen with
  | nil => exact ⟨.some hc, .nil⟩
  | cons m seen =>
    refine ⟨.none, ?_⟩
    rw [List.forall₂_map_left_iff, List.forall₂_map_right_iff, List.forall₂_same]
    exact fun x _ => .ok (hemit x)

theorem arrivalAt_congr {β : Type} {visible visible' : MethodInfo → Except Fault Bool}
    {found : List MethodInfo} {emit : Declaration → β}
    (hv : ∀ m ∈ found, BothOk Eq (visible m) (visible' m)) :
    arrivalAt c found visible emit = arrivalAt c found visible' emit := by
  obtain ⟨seen, h, h'⟩ := filterMapM_visible hv
  unfold arrivalAt
  rw [h, h']

theorem next_arrivalAt {β : Type} {found : List MethodInfo}
    {visible : MethodInfo → Except Fault Bool} {emit : Declaration → β} {d : ClassInfo}
    (h : (arrivalAt c found visible emit).next = some d) : d = c := by
  unfold arrivalAt at h
  split at h
  · simp at h
  · exact (Option.some.inj h).symm
  · simp at h

end View

/-! ## Searches upwards -/

/-- The same method of the same class, its usages listed in another order. -/
def Declaration.Relisted (d e : Declaration) : Prop :=
  e.method = d.method ∧ d.owner.Relisted e.owner

theorem Declaration.Relisted.ident_eq {d e : Declaration} (h : d.Relisted e) :
    ident d = ident e := by
  obtain ⟨hm, _, hc, -⟩ := h
  obtain ⟨_, _⟩ := e
  subst hm hc
  rfl

/-- Origins that stand for the same declaration, or are both unknown. -/
inductive Origin.Relisted : Origin → Origin → Prop
  | resolved {d e : Declaration} (h : d.Relisted e) : Relisted (.resolved d) (.resolved e)
  | unknown : Relisted .unknown .unknown

theorem Origin.Relisted.ident_eq {o o' : Origin} (h : o.Relisted o') : ident o = ident o' := by
  cases h with
  | resolved h => exact congrArg some h.ident_eq
  | unknown => rfl

namespace View

variable {v v' : View} {c c' : ClassInfo}

/-- Places of two searches: the same class, which has a name. -/
def SamePlace (v : View) (p p' : ClassInfo) : Prop := p.Relisted p' ∧ v.names.Knows p.name

theorem Relisted.exists_describe? (h : v.Relisted v') {n : Symbol} {d : ClassInfo}
    (hd : v'.describe? n = some d) : ∃ d₀, v.describe? n = some d₀ ∧ d₀.Relisted d := by
  rcases h.cases n with ⟨-, hnone⟩ | ⟨d₀, d', hd₀, hd', hR⟩
  · rw [hnone] at hd
    simp at hd
  · rw [hd'] at hd
    obtain rfl := Option.some.inj hd
    exact ⟨d₀, hd₀, hR⟩

theorem Named.relisted (hn : v.Named) (h : v.Relisted v') : v'.Named := by
  intro n d hd
  obtain ⟨d₀, hd₀, _, rfl, -⟩ := h.exists_describe? hd
  rw [h.names]
  exact hn n d₀ hd₀

/-- What two views say of a class, with the name that a search needs. -/
theorem Relisted.place_cases (h : v.Relisted v') (hn : v.Named) (n : Symbol) :
    v.describe? n = none ∧ v'.describe? n = none ∨
      ∃ d d', v.describe? n = some d ∧ v'.describe? n = some d' ∧ v.SamePlace d d' := by
  rcases h.cases n with h | ⟨d, d', hd, hd', hR⟩
  · exact .inl h
  · exact .inr ⟨d, d', hd, hd', hR, hn n d hd⟩

/-- Arrivals at one class in two views, where both ask for the same visibility. -/
theorem arrivalAt_relisted {β β' : Type} {S : β → β' → Prop} (h : v.Relisted v')
    (hplace : v.SamePlace c c') {how : MethodMatch} {m : MethodInfo} {owner scope : Symbol}
    {access : MethodInfo → Access} {emit : Declaration → β} {emit' : Declaration → β'}
    (ho : v.names.Knows owner) (hs : v.names.Knows scope)
    (hemit : ∀ x, S (emit ⟨x, c⟩) (emit' ⟨x, c'⟩)) :
    let a := arrivalAt c (v.matching c how m) (fun x => v.isVisibleIn owner (access x) scope) emit
    let a' := arrivalAt c' (v'.matching c' how m)
      (fun x => v'.isVisibleIn owner (access x) scope) emit'
    Option.Rel v.SamePlace a.next a'.next ∧ List.Forall₂ (BothOk S) a.found a'.found := by
  have hmatching : v'.matching c' how m = v.matching c how m := by
    obtain ⟨usages, rfl, -⟩ := hplace.1
    exact h.matching _ _ _ _
  dsimp only
  rw [hmatching]
  refine arrivalAt_alike hplace (fun x _ => ?_) hemit
  obtain ⟨b, hb⟩ := isVisibleIn_ok ho hs (access x)
  exact .of_eq hb (h.isVisibleIn _ _ _)

theorem follows_overriddenWalk (h : v.Relisted v') (hn : v.Named) (m : MethodInfo)
    (how : MethodMatch) :
    Walk.Follows v.SamePlace (BothOk Origin.Relisted) (v.overriddenWalk m how)
      (v'.overriddenWalk m how) := by
  have hlook : ∀ {p p'}, v.SamePlace p p' → ∀ n,
      Option.Rel v.SamePlace ((v.overriddenWalk m how).look p n).next
          ((v'.overriddenWalk m how).look p' n).next ∧
        List.Forall₂ (BothOk Origin.Relisted) ((v.overriddenWalk m how).look p n).found
          ((v'.overriddenWalk m how).look p' n).found := by
    rintro p p' ⟨⟨_, rfl, -⟩, hp⟩ n
    simp only [overriddenWalk]
    rcases h.place_cases hn n with ⟨hd, hd'⟩ | ⟨d, d', hd, hd', hplace⟩
    · rw [hd, hd']
      exact ⟨.none, .cons (.ok .unknown) .nil⟩
    · rw [hd, hd']
      obtain ⟨usages, rfl, hu⟩ := hplace.1
      exact arrivalAt_relisted h hplace hplace.2 hp fun x => .resolved ⟨rfl, usages, rfl, hu⟩
  exact
    { neighbours := by
        rintro p p' ⟨⟨_, rfl, -⟩, -⟩
        rfl
      next := fun hR n => (hlook hR n).1
      found := fun hR n => (hlook hR n).2 }

theorem overridden_relisted (h : v.Relisted v') (hn : v.Named) (hc : v.SamePlace c c')
    (m : MethodInfo) (how : MethodMatch) :
    BothOk (fun s t => List.Forall₂ Origin.Relisted s.toList t.toList) (v.overridden m c how)
      (v'.overridden m c' how) := by
  obtain ⟨usages, rfl, hu⟩ := hc.1
  have hfound := (follows_overriddenWalk h hn m how).findFrom hc (v.upBound c.supers) c.name
  have hbound : v'.upBound { c with usages := usages }.supers = v.upBound c.supers := h.upBound _
  unfold View.overridden
  rw [hbound]
  exact (bothOk_mapM hfound).map fun _ _ hl =>
    IdSet.forall₂_ofList (fun _ _ ho => Origin.Relisted.ident_eq ho) hl

/-- A field found above, in a class whose usages are listed in another order. -/
def SameField (a b : FieldInfo × ClassInfo) : Prop := b.1 = a.1 ∧ a.2.Relisted b.2

theorem follows_hiddenWalk (h : v.Relisted v') (hn : v.Named) (name : Symbol) :
    Walk.Follows v.SamePlace (BothOk fun a b => SameField a b ∧ v.names.Knows a.2.name)
      (v.hiddenWalk name) (v'.hiddenWalk name) := by
  have hlook : ∀ {p p'}, v.SamePlace p p' → ∀ n,
      Option.Rel v.SamePlace ((v.hiddenWalk name).look p n).next
          ((v'.hiddenWalk name).look p' n).next ∧
        List.Forall₂ (BothOk fun a b => SameField a b ∧ v.names.Knows a.2.name)
          ((v.hiddenWalk name).look p n).found ((v'.hiddenWalk name).look p' n).found := by
    rintro p p' ⟨⟨_, rfl, -⟩, hp⟩ n
    simp only [hiddenWalk]
    rcases h.place_cases hn n with ⟨hd, hd'⟩ | ⟨d, d', hd, hd', hplace⟩
    · rw [hd, hd']
      exact ⟨.none, .nil⟩
    · rw [hd, hd']
      obtain ⟨usages, rfl, hu⟩ := hplace.1
      have hfield : { d with usages := usages }.findField? name = d.findField? name := rfl
      dsimp only
      rw [hfield]
      cases d.findField? name with
      | none => exact ⟨.some hplace, .nil⟩
      | some f =>
        obtain ⟨b, hb⟩ := isVisibleIn_ok hplace.2 hp f.access
        dsimp only
        rw [h.isVisibleIn, hb]
        cases b with
        | true => exact ⟨.none, .cons (.ok ⟨⟨rfl, usages, rfl, hu⟩, hplace.2⟩) .nil⟩
        | false => exact ⟨.some hplace, .nil⟩
  exact
    { neighbours := by
        rintro p p' ⟨⟨_, rfl, -⟩, -⟩
        rfl
      next := fun hR n => (hlook hR n).1
      found := fun hR n => (hlook hR n).2 }

theorem hidden_relisted (h : v.Relisted v') (hn : v.Named) (hc : v.SamePlace c c')
    (name : Symbol) :
    BothOk (List.Forall₂ fun a b => SameField a b ∧ v.names.Knows a.2.name) (v.hidden name c)
      (v'.hidden name c') := by
  obtain ⟨usages, rfl, hu⟩ := hc.1
  have hfound := (follows_hiddenWalk h hn name).findFrom hc (v.upBound c.supers) c.name
  have hbound : v'.upBound { c with usages := usages }.supers = v.upBound c.supers := h.upBound _
  unfold View.hidden
  rw [hbound]
  exact bothOk_mapM hfound

theorem isEmpty_forall₂ {α β : Type} {R : α → β → Prop} {l : List α} {m : List β}
    (h : List.Forall₂ R l m) : l.isEmpty = m.isEmpty := by
  cases h <;> rfl

theorem seesMethod_relisted (h : v.Relisted v') (hn : v.Named) (n : Symbol) (m : MethodInfo) :
    BothOk Eq (v.seesMethod n m) (v'.seesMethod n m) := by
  unfold View.seesMethod
  rcases h.place_cases hn n with ⟨hd, hd'⟩ | ⟨d, d', hd, hd', hplace⟩
  · rw [hd, hd']
    exact .ok rfl
  · rw [hd, hd']
    have hover := overridden_relisted h hn hplace m .sameKey
    obtain ⟨usages, rfl, -⟩ := hplace.1
    exact hover.unless (fun _ _ hst => congrArg not (isEmpty_forall₂ hst)) (d.declaresMethod m.key)

theorem seesField_relisted (h : v.Relisted v') (hn : v.Named) (n field : Symbol) :
    BothOk Eq (v.seesField n field) (v'.seesField n field) := by
  unfold View.seesField
  rcases h.place_cases hn n with ⟨hd, hd'⟩ | ⟨d, d', hd, hd', hplace⟩
  · rw [hd, hd']
    exact .ok rfl
  · rw [hd, hd']
    have hhidden := hidden_relisted h hn hplace field
    obtain ⟨usages, rfl, -⟩ := hplace.1
    exact hhidden.unless (fun _ _ hst => congrArg not (isEmpty_forall₂ hst)) (d.declaresField field)

end View

/-! ## Searches downwards -/

namespace Graph

/-- The classes that subclass edges lead to. -/
def listedSubclasses (g : Graph) : Finset Symbol :=
  (g.subclasses.entries.flatMap fun e => e.2.toList).toFinset

theorem mem_listedSubclasses {g : Graph} {p n : Symbol} (h : n ∈ g.directSubclasses p) :
    n ∈ g.listedSubclasses := by
  obtain ⟨s, hs, hn⟩ := Table.exists_entry h
  exact List.mem_toFinset.2 (List.mem_flatMap.2 ⟨(p, s), hs, hn⟩)

theorem card_listedSubclasses_lt (g : Graph) : g.listedSubclasses.card < View.downBound g :=
  Nat.lt_succ_of_le (List.toFinset_card_le _)

/-- Walks down two relisted graphs that take the same looks find the same classes. -/
theorem mem_findFrom_down {g g' : Graph} {w w' : Walk Symbol Symbol}
    (hdown : ∀ p n, n ∈ w.neighbours p → n ∈ g.directSubclasses p)
    (hdown' : ∀ p n, n ∈ w'.neighbours p → n ∈ g'.directSubclasses p)
    (hsame : ∀ p n, n ∈ w.neighbours p ↔ n ∈ w'.neighbours p)
    (hlook : ∀ p p' n, w'.look p n = w.look p' n) (hlab : w.Labelled id) (start x : Symbol) :
    x ∈ w.findFrom (View.downBound g) start start ↔
      x ∈ w'.findFrom (View.downBound g') start start := by
  have hlab' : w'.Labelled id := fun p n q hq => hlab p n q (by rwa [← hlook p p n])
  have hmirrors : Walk.Mirrors Eq Eq w w' id id :=
    { labels := fun h => h
      neighbours := fun {p p'} h n => h ▸ hsame p n
      next := fun {p p'} h n => by
        rw [hlook p' p n]
        cases (w.look p n).next
        · exact .none
        · exact .some rfl
      found := fun {p p'} h n => by
        rw [hlook p' p n]
        exact List.forall₂_same.2 fun _ _ => rfl }
  have hrelist := @Walk.Mirrors.relist _ _ w id start _ _ Eq Eq w' id start _ _ _ _ hmirrors rfl
    hlab hlab' (fun p p' n _ _ => (hlook p p n).symm.trans (hlook p p' n))
    (fun p p' n _ _ => (hlook p p n).trans (hlook p' p n).symm)
    (fun p n hn => mem_listedSubclasses (hdown p n hn))
    (fun p n hn => mem_listedSubclasses (hdown' p n hn)) g.card_listedSubclasses_lt
    g'.card_listedSubclasses_lt
  exact hrelist.mem_iff x

theorem mem_allSubclasses {g g' : Graph}
    (h : ∀ n x, x ∈ g.directSubclasses n ↔ x ∈ g'.directSubclasses n) (root x : Symbol) :
    x ∈ g.allSubclasses root ↔ x ∈ g'.allSubclasses root := by
  have hfound := @mem_findFrom_down g g' (.everywhere g.directSubclasses)
    (.everywhere g'.directSubclasses) (fun _ _ hn => hn) (fun _ _ hn => hn) h
    (fun _ _ _ => rfl) (fun _ _ _ hq => (Option.some.inj hq).symm) root x
  unfold allSubclasses
  rw [List.mem_cons, List.mem_cons, hfound]

end Graph

namespace View

variable {v v' : View} {c c' : ClassInfo}

theorem mem_inheriting (h : v.Relisted v') (member : MemberKey) (n x : Symbol) :
    x ∈ v.inheriting member n ↔ x ∈ v'.inheriting member n := by
  have hlook : ∀ p p' n, (v'.inheritingWalk member).look p n =
      (v.inheritingWalk member).look p' n := by
    intro p p' n
    simp only [inheritingWalk]
    rcases h.cases n with ⟨hd, hd'⟩ | ⟨d, _, hd, hd', usages, rfl, -⟩
    · rw [hd, hd']
    · have hdeclares : { d with usages := usages }.declares member = d.declares member := by
        cases member <;> rfl
      rw [hd, hd']
      dsimp only
      rw [hdeclares]
  have hlab : (v.inheritingWalk member).Labelled id := by
    intro p n q hq
    simp only [inheritingWalk] at hq
    split at hq
    · simp at hq
    · split at hq
      · simp at hq
      · exact (Option.some.inj hq).symm
  unfold View.inheriting
  rw [h.isSome_describe?]
  cases (v.describe? n).isSome with
  | true =>
    exact Graph.mem_findFrom_down (fun _ _ hn => hn) (fun _ _ hn => hn) h.subclasses hlook hlab n x
  | false => exact Iff.rfl

/-- Every way down from `c` sees the same of a package-local method: when a class below
declares a method of this name, the classes above it on such ways are all in its package,
or none of them is. -/
def Level (v : View) (method : MethodInfo) (c : Symbol) : Prop :=
  method.access.isPackageLocal = true →
    ∀ p p' n d, Relation.ReflTransGen (fun a b => b ∈ v.main.directSubclasses a) c p →
      Relation.ReflTransGen (fun a b => b ∈ v.main.directSubclasses a) c p' →
      n ∈ v.main.directSubclasses p → n ∈ v.main.directSubclasses p' →
      v.describe? n = some d → (∃ m ∈ d.methods, m.name = method.name) →
      (v.names.packageOf p = v.names.packageOf n ↔ v.names.packageOf p' = v.names.packageOf n)

theorem Level.relisted (h : v.Relisted v') {m : MethodInfo} {n : Symbol} (hl : v.Level m n) :
    v'.Level m n := by
  have hsub : (fun a b => b ∈ v'.main.directSubclasses a) =
      fun a b => b ∈ v.main.directSubclasses a := by
    funext a b
    exact propext (h.subclasses a b).symm
  intro hlocal p p' n d hp hp' hn hn' hd hm
  rw [hsub] at hp hp'
  rw [h.names]
  obtain ⟨d₀, hd₀, _, rfl, -⟩ := h.exists_describe? hd
  exact hl hlocal p p' n d₀ hp hp' ((h.subclasses p n).2 hn) ((h.subclasses p' n).2 hn') hd₀ hm

theorem name_of_matching {how : MethodMatch} {than m : MethodInfo}
    (h : m ∈ v.matching c how than) : m ∈ c.methods ∧ m.name = than.name := by
  unfold matching at h
  obtain ⟨hm, hmatch⟩ := List.mem_filter.1 h
  refine ⟨hm, ?_⟩
  cases how with
  | sameKey => exact congrArg MethodKey.name (of_decide_eq_true hmatch)
  | lessSpecific =>
    simp only [isLessSpecific, Bool.and_eq_true, decide_eq_true_eq] at hmatch
    exact hmatch.1.1.2

theorem labelled_overridingWalk (m : MethodInfo) (how : MethodMatch) :
    (v.overridingWalk m how).Labelled ClassInfo.name := by
  intro p n q hq
  simp only [overridingWalk] at hq
  split at hq
  · simp at hq
  · rename_i d hd
    obtain rfl := next_arrivalAt hq
    exact name_of_describe? hd

theorem below_of_place {m : MethodInfo} {how : MethodMatch} {p : ClassInfo}
    (hp : (v.overridingWalk m how).Place ClassInfo.name c p) :
    Relation.ReflTransGen (fun a b => b ∈ v.main.directSubclasses a) c.name p.name := by
  induction hp with
  | start => exact .refl
  | @step p q n _ hn _ _ hq ih =>
    obtain rfl := labelled_overridingWalk m how p n q hq
    exact ih.tail hn

theorem knows_of_place (hn : v.Named) (hc : v.names.Knows c.name) {m : MethodInfo}
    {how : MethodMatch} {p : ClassInfo} (hp : (v.overridingWalk m how).Place ClassInfo.name c p) :
    v.names.Knows p.name := by
  cases hp with
  | start => exact hc
  | @step p q n _ _ _ _ hq =>
    simp only [overridingWalk] at hq
    split at hq
    · simp at hq
    · rename_i d hd
      obtain rfl := next_arrivalAt hq
      exact hn n _ hd

/-- Where every way sees the same, the look at a class does not depend on the way. -/
theorem steady_overridingWalk (hn : v.Named) (hc : v.names.Knows c.name) {m : MethodInfo}
    (hl : v.Level m c.name) (how : MethodMatch) :
    (v.overridingWalk m how).Steady ClassInfo.name c := by
  intro p p' n hp hp'
  simp only [overridingWalk]
  cases hd : v.describe? n with
  | none => rfl
  | some d =>
    obtain rfl := name_of_describe? hd
    refine arrivalAt_congr fun x hx => ?_
    obtain ⟨hx, hname⟩ := name_of_matching hx
    have hd' := hn d.name d hd
    refine isVisibleIn_congr (knows_of_place hn hc hp.place) hd' (knows_of_place hn hc hp'.place)
      hd' (iff_of_false hp.ne_self.symm hp'.ne_self.symm) fun hlocal => ?_
    exact hl hlocal p.name p'.name d.name d (below_of_place hp.place) (below_of_place hp'.place)
      hp.mem hp'.mem hd ⟨x, hx, hname⟩

theorem mirrors_overridingWalk (h : v.Relisted v') (hn : v.Named) (m : MethodInfo)
    (how : MethodMatch) :
    Walk.Mirrors v.SamePlace (BothOk Declaration.Relisted) (v.overridingWalk m how)
      (v'.overridingWalk m how) ClassInfo.name ClassInfo.name := by
  have hlook : ∀ {p p'}, v.SamePlace p p' → ∀ n,
      Option.Rel v.SamePlace ((v.overridingWalk m how).look p n).next
          ((v'.overridingWalk m how).look p' n).next ∧
        List.Forall₂ (BothOk Declaration.Relisted) ((v.overridingWalk m how).look p n).found
          ((v'.overridingWalk m how).look p' n).found := by
    rintro p p' ⟨⟨_, rfl, -⟩, hp⟩ n
    simp only [overridingWalk]
    rcases h.place_cases hn n with ⟨hd, hd'⟩ | ⟨d, d', hd, hd', hplace⟩
    · rw [hd, hd']
      exact ⟨.none, .nil⟩
    · rw [hd, hd']
      obtain ⟨usages, rfl, hu⟩ := hplace.1
      exact arrivalAt_relisted h hplace hp hplace.2 fun x => ⟨rfl, usages, rfl, hu⟩
  exact
    { labels := by
        rintro p p' ⟨⟨_, rfl, -⟩, -⟩
        rfl
      neighbours := by
        rintro p p' ⟨⟨_, rfl, -⟩, -⟩ n
        exact h.subclasses p.name n
      next := fun hR n => (hlook hR n).1
      found := fun hR n => (hlook hR n).2 }

/-- What the search for overriding methods finds at a class belongs to that class. -/
theorem owner_of_overridingWalk {m : MethodInfo} {how : MethodMatch} {p : ClassInfo} {n : Symbol}
    {d : Declaration} (h : .ok d ∈ ((v.overridingWalk m how).look p n).found) :
    d.owner.name = n := by
  simp only [overridingWalk] at h
  split at h
  · simp at h
  · rename_i c hc
    unfold arrivalAt at h
    split at h
    · simp at h
    · simp at h
    · obtain ⟨x, -, hx⟩ := List.mem_map.1 h
      obtain rfl := Except.ok.inj hx
      exact name_of_describe? hc

/-- Whether a found method is the one of an identity. -/
def isAt (k : MethodKey × Symbol) : Except Fault Declaration → Bool
  | .ok d => ident d = k
  | .error _ => false

/-- A method of a given identity is found at one symbol only. -/
theorem symbol_of_isAt {m : MethodInfo} {how : MethodMatch} {p : ClassInfo} {n : Symbol}
    {k : MethodKey × Symbol} {r : Except Fault Declaration}
    (h : r ∈ ((v.overridingWalk m how).look p n).found) (hk : isAt k r = true) : n = k.2 := by
  cases r with
  | error _ => simp [isAt] at hk
  | ok d =>
    rw [← owner_of_overridingWalk h]
    exact congrArg Prod.snd (of_decide_eq_true hk)

/-- Both searches for the methods that override a method find the same. -/
def FindsAlike (v v' : View) (m : MethodInfo) (c c' : ClassInfo) : Prop :=
  ∀ how, BothOk (IdSet.Alike Declaration.Relisted) (v.overriding m c how) (v'.overriding m c' how)

/-- A search that is made again finds the same again, along whatever ways.  What matters is
that it meets no class without a name. -/
theorem FindsAlike.refl (hn : v.Named) (hc : v.names.Knows c.name) (m : MethodInfo) :
    v.FindsAlike v m c c := by
  intro how
  have hmirrors := mirrors_overridingWalk (.refl v) hn m how
  have hfollows : Walk.Follows v.SamePlace (BothOk Declaration.Relisted)
      (v.overridingWalk m how) (v.overridingWalk m how) :=
    { neighbours := by
        rintro p p' ⟨⟨_, rfl, -⟩, -⟩
        rfl
      next := hmirrors.next
      found := hmirrors.found }
  have hfound := hfollows.findFrom ⟨.refl c, hc⟩ (downBound v.main) c.name
  refine (bothOk_mapM hfound).map fun l l' hl k => ?_
  have hlists := IdSet.forall₂_ofList (fun _ _ hd => Declaration.Relisted.ident_eq hd) hl
  exact forall₂_find? hlists fun d e hde => by rw [hde.ident_eq]

/-- **Overriding methods in relisted views**: where every way down sees the same, both views
find the same methods. -/
theorem overriding_relisted (h : v.Relisted v') (hn : v.Named) (hc : v.SamePlace c c')
    {m : MethodInfo} (hl : v.Level m c.name) : v.FindsAlike v' m c c' := by
  intro how
  have hn' := hn.relisted h
  have hmirrors := mirrors_overridingWalk h hn m how
  have hc' : v'.names.Knows c'.name := by
    rw [h.names, ← hmirrors.labels hc]
    exact hc.2
  have hl' : v'.Level m c'.name := by
    rw [← hmirrors.labels hc]
    exact hl.relisted h
  have hsteady := steady_overridingWalk hn hc.2 hl how
  have hsteady' := steady_overridingWalk hn' hc' hl' how
  have hall : ∀ p, ∀ n ∈ (v.overridingWalk m how).neighbours p, n ∈ v.main.listedSubclasses :=
    fun _ _ hn => Graph.mem_listedSubclasses hn
  have hall' : ∀ p, ∀ n ∈ (v'.overridingWalk m how).neighbours p, n ∈ v'.main.listedSubclasses :=
    fun _ _ hn => Graph.mem_listedSubclasses hn
  have hrelist := hmirrors.relist hc (labelled_overridingWalk m how)
    (labelled_overridingWalk m how) hsteady hsteady' hall hall' v.main.card_listedSubclasses_lt
    v'.main.card_listedSubclasses_lt
  have hfind := fun k : MethodKey × Symbol =>
    @Walk.Mirrors.find? _ _ _ _ _ _ _ _ _ _ _ _ _ _ _ _ hmirrors hc
      (labelled_overridingWalk m how) (labelled_overridingWalk m how) hsteady hsteady' hall hall'
      v.main.card_listedSubclasses_lt v'.main.card_listedSubclasses_lt (isAt k) (isAt k)
      (by
        rintro x y ⟨d, e, rfl, rfl, hde⟩
        simp only [isAt, hde.ident_eq])
      k.2 (fun _ _ _ _ => symbol_of_isAt) (fun _ _ _ _ => symbol_of_isAt)
  unfold View.overriding
  generalize (v.overridingWalk m how).findFrom (downBound v.main) c.name c = F at hrelist hfind
  generalize (v'.overridingWalk m how).findFrom (downBound v'.main) c'.name c' = F'
    at hrelist hfind
  obtain ⟨found, rfl⟩ := exists_values fun x hx => by
    obtain ⟨_, _, d, _, hd, -, -⟩ := hrelist.1 x hx
    exact ⟨d, hd⟩
  obtain ⟨found', rfl⟩ := exists_values fun x hx => by
    obtain ⟨_, _, _, d, -, hd, -⟩ := hrelist.2 x hx
    exact ⟨d, hd⟩
  rw [mapM_map_ok, mapM_map_ok]
  refine .ok fun k => ?_
  rw [IdSet.find?_ofList, IdSet.find?_ofList]
  have hk := hfind k
  rw [List.find?_map, List.find?_map] at hk
  exact rel_of_map_ok hk

theorem forall₂_declarations {l m : List Origin} (h : List.Forall₂ Origin.Relisted l m) :
    List.Forall₂ Declaration.Relisted (l.filterMap Origin.declaration?)
      (m.filterMap Origin.declaration?) := by
  induction h with
  | nil => exact .nil
  | cons ho _ ih =>
    cases ho with
    | resolved hde => exact .cons hde ih
    | unknown => exact ih

theorem lessSpecificAround_relisted (h : v.Relisted v') (hn : v.Named) (hc : v.SamePlace c c')
    {m : MethodInfo} (hfinds : v.FindsAlike v' m c c') :
    BothOk (Relist Declaration.Relisted) (v.lessSpecificAround m c)
      (v'.lessSpecificAround m c') := by
  obtain ⟨above, above', ha, ha', habove⟩ := overridden_relisted h hn hc m .lessSpecific
  obtain ⟨below, below', hb, hb', hbelow⟩ := hfinds .lessSpecific
  unfold View.lessSpecificAround
  rw [ha, ha', hb, hb']
  refine .ok (IdSet.Alike.relist fun k => ?_)
  rw [IdSet.find?_ofList, IdSet.find?_ofList, List.find?_append, List.find?_append]
  -- a declaration above counts before one below
  have hfind := forall₂_find? (p := fun d => decide (ident d = k))
    (q := fun d => decide (ident d = k)) (forall₂_declarations habove)
    fun d e hde => by rw [hde.ident_eq]
  generalize (above.toList.filterMap Origin.declaration?).find? _ = a at hfind
  generalize (above'.toList.filterMap Origin.declaration?).find? _ = b at hfind
  cases hfind with
  | some hde => exact .some hde
  | none => exact hbelow k

end View

end ClassImpact

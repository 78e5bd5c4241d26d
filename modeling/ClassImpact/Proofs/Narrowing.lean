import ClassImpact.Proofs.Hits

/-!
# Members that fewer classes see

A member that is kept may be seen by fewer classes than before.  Its modifiers tell so in one
of three ways: it became private, it became local to its package, or it was public and became
protected.  Which classes lose sight of it is told by packages and by the hierarchy after the
round; a limit put on its usages leaves these classes in.

## Main results

* `Revision.cases_of_narrowsTo`: the three ways to narrow an access
* `Scene.holds_of_apart`: the limits of a round hold for the classes of another package
-/

namespace ClassImpact

open Identified (ident)

/-! ## Narrower access -/

namespace Access

variable {a b : Access}

/-- At most one modifier sets the visibility. -/
def OneVisibility (a : Access) : Prop := (visibilityFlags.filter a.has).length ≤ 1

instance (a : Access) : Decidable a.OneVisibility := inferInstanceAs (Decidable (_ ≤ _))

/-- Where at most one modifier sets the visibility, each level is told by one modifier. -/
theorem OneVisibility.has_iff (h : a.OneVisibility) :
    (a.has .pub = true ↔ a.visibility = .toAll) ∧
      (a.has .prot = true ↔ a.visibility = .toInheritors) ∧
      (a.has .priv = true ↔ a.visibility = .toClass) := by
  unfold OneVisibility visibilityFlags at h
  unfold visibility isPublic isProtected isPrivate
  cases hpub : a.has .pub <;> cases hpriv : a.has .priv <;> cases hprot : a.has .prot <;>
    simp_all

theorem isPackageLocal_iff_visibility : a.isPackageLocal = true ↔ a.visibility = .toPackage := by
  rw [isPackageLocal_iff]
  unfold visibility
  cases a.isPublic <;> cases a.isProtected <;> cases a.isPrivate <;> simp

/-- Both accesses have one visibility, and that of the second is strictly lower. -/
structure NarrowsTo (a b : Access) : Prop where
  past : a.OneVisibility
  now : b.OneVisibility
  lower : b.visibility.rank < a.visibility.rank

instance (a b : Access) : Decidable (a.NarrowsTo b) :=
  decidable_of_iff (a.OneVisibility ∧ b.OneVisibility ∧ b.visibility.rank < a.visibility.rank)
    ⟨fun ⟨ha, hb, hlower⟩ => ⟨ha, hb, hlower⟩, fun h => ⟨h.past, h.now, h.lower⟩⟩

end Access

namespace Revision

variable {r : Revision}

/-- The member became private. -/
structure Hides (r : Revision) : Prop where
  visibility : r.now.visibility = .toClass
  added : r.added.has .priv = true
  notLocal : r.becamePackageLocal = false

/-- The member became local to its package. -/
structure Localizes (r : Revision) : Prop where
  visibility : r.now.visibility = .toPackage
  becameLocal : r.becamePackageLocal = true

/-- The member was public and became protected. -/
structure Protects (r : Revision) : Prop where
  visibility : r.now.visibility = .toInheritors
  added : r.added.has .prot = true
  removedPublic : r.removed.has .pub = true
  notPrivate : r.removed.has .priv = false
  notLocal : r.becamePackageLocal = false

theorem not_becamePackageLocal (h : r.now.visibility ≠ .toPackage) :
    r.becamePackageLocal = false := by
  have hlocal : ¬ r.now.isPackageLocal = true := mt Access.isPackageLocal_iff_visibility.1 h
  simp [becamePackageLocal, hlocal]

theorem hides_of_toClass (h : r.past.NarrowsTo r.now) (hclass : r.now.visibility = .toClass) :
    r.Hides := by
  have hnow : r.now.has .priv = true := h.now.has_iff.2.2.2 hclass
  have hwas : ¬ r.past.has .priv = true := by
    rw [h.past.has_iff.2.2]
    intro hpast
    have hlower := h.lower
    simp [hclass, hpast] at hlower
  exact ⟨hclass, by simp [added, hnow, hwas], not_becamePackageLocal (by simp [hclass])⟩

/-- **The ways to narrow an access**: a member that fewer classes see became private, or local
to its package, or it was public and became protected. -/
theorem cases_of_narrowsTo (h : r.past.NarrowsTo r.now) :
    r.Hides ∨ r.Localizes ∨ r.Protects := by
  obtain ⟨hpub, hprot, hpriv⟩ := h.past.has_iff
  obtain ⟨hpub', hprot', -⟩ := h.now.has_iff
  have hlower := h.lower
  cases hnow : r.now.visibility with
  | toClass => exact .inl (hides_of_toClass h hnow)
  | toPackage =>
    right; left
    have hlocal : r.now.isPackageLocal = true := Access.isPackageLocal_iff_visibility.2 hnow
    have hwas : r.past.hasAny Access.visibilityFlags = true := by
      by_contra hnone
      have hpast : r.past.isPackageLocal = true := by simpa [Access.isPackageLocal] using hnone
      rw [Access.isPackageLocal_iff_visibility.1 hpast, hnow] at hlower
      exact absurd hlower (Nat.lt_irrefl _)
    refine ⟨hnow, ?_⟩
    -- the modifier that was there is gone, as no such modifier is left
    obtain ⟨hno, hno', hno''⟩ := Access.isPackageLocal_iff.1 hlocal
    simp only [Access.isPublic, Access.isPrivate, Access.isProtected] at hno hno' hno''
    simpa [becamePackageLocal, removed, hlocal, Access.hasAny, Access.visibilityFlags, hno, hno',
      hno''] using hwas
  | toInheritors =>
    right; right
    have hpast : r.past.visibility = .toAll := by
      cases hpast : r.past.visibility <;> simp [hnow, hpast, Visibility.rank] at hlower ⊢
    have hlocal : r.becamePackageLocal = false := not_becamePackageLocal (by simp [hnow])
    refine ⟨hnow, ?_, ?_, ?_, hlocal⟩
    · have hwas : ¬ r.past.has .prot = true := by simp [hprot, hpast]
      simp [added, hprot'.2 hnow, hwas]
    · have hgone : ¬ r.now.has .pub = true := by simp [hpub', hnow]
      simp [removed, hpub.2 hpast, hgone]
    · have hwas : ¬ r.past.has .priv = true := by simp [hpriv, hpast]
      simp [removed, hwas]
  | toAll =>
    rw [hnow] at hlower
    cases hpast : r.past.visibility <;> simp [hpast, Visibility.rank] at hlower

theorem access_of_narrowsTo (h : r.past.NarrowsTo r.now) : r.access = true := by
  have hne : r.past ≠ r.now := by
    intro he
    have hlower := h.lower
    rw [he] at hlower
    exact absurd hlower (Nat.lt_irrefl _)
  simpa [access] using hne

end Revision

/-! ## Losing sight -/

/-- Two classes do not lie in one package. -/
def NameTable.Apart (names : NameTable) (c d : Symbol) : Prop :=
  ∀ package, names.packageOf c = .ok package → names.packageOf d ≠ .ok package

theorem NameTable.apart_of_ne {names : NameTable} {c d : Symbol} (package other : String)
    (hc : names.packageOf c = .ok package) (hd : names.packageOf d = .ok other)
    (hne : package ≠ other) : names.Apart c d := by
  intro p hp hother
  have hpackage : package = p := Except.ok.inj (hc.symm.trans hp)
  have hp : other = p := Except.ok.inj (hd.symm.trans hother)
  exact hne (hpackage.trans hp.symm)

/-- A class can no longer see a member of `a` whose access is `now`: a private member is seen by
its class alone, one that is local to its package by no class of another package, and a
protected one by no class of another package that is not known to inherit from `a`. -/
def Scene.LosesSight (s : Scene) (now : Access) (a d : Symbol) : Prop :=
  match now.visibility with
  | .toClass => d ≠ a
  | .toPackage => s.names.Apart a d
  | .toInheritors => s.names.Apart a d ∧ s.updated.inherits d a ≠ .yes
  | .toAll => False

namespace Scene

variable {s : Scene} {now : Access} {a d : Symbol} {r : Residency}

/-- A class that loses sight of a member which is not private lies in another package. -/
theorem LosesSight.apart (h : s.LosesSight now a d) (hnow : now.visibility ≠ .toClass) :
    s.names.Apart a d := by
  unfold LosesSight at h
  cases hv : now.visibility with
  | toClass => exact absurd hv hnow
  | toPackage =>
    rw [hv] at h
    exact h
  | toInheritors =>
    rw [hv] at h
    exact h.1
  | toAll =>
    rw [hv] at h
    exact h.elim

/-- The limits to what lies outside the package hold for classes of another one. -/
theorem holds_of_apart (h : s.names.Apart a d)
    (hr : Residency.noInheritorOf s.names a = .ok r ∨ Residency.outsideOf s.names a = .ok r) :
    r.holds s.updated d ≠ .ok false := by
  intro hfalse
  rcases hr with hr | hr
  · obtain ⟨package, hpackage, rfl⟩ := Residency.noInheritorOf_eq_ok_iff.1 hr
    exact h package hpackage (Residency.noInheritor_eq_false_iff.1 hfalse).2
  · obtain ⟨package, hpackage, rfl⟩ := Residency.outsideOf_eq_ok_iff.1 hr
    exact h package hpackage (Residency.outside_eq_false_iff.1 hfalse)

end Scene

/-! ## Members of a changed class -/

/-- A change of a class that is the only one of a round. -/
structure ClassEvent.OnlyChange (change : Changed ClassInfo ClassChange)
    (events : List ClassEvent) : Prop where
  mem : .changed change ∈ events
  unique : ∀ other, .changed other ∈ events → other = change

namespace Patch

variable {α κ δ : Type} [Identified α κ] [DecidableEq κ] {past now : List α}

/-- The changed values of a patch that leaves empty differences out. -/
theorem mem_changed {diff : α → α → δ} {isEmpty : δ → Bool} {e : Changed α δ} :
    e ∈ (between (fun p n => let d := diff p n; if isEmpty d then none else some d)
        past now).changed ↔
      e.now ∈ now ∧ partner? past e.now = some e.past ∧
        e.diff = diff e.past e.now ∧ isEmpty e.diff = false := by
  rw [mem_changed_iff]
  refine and_congr_right' (and_congr_right' ?_)
  rw [Option.ite_none_left_eq_some, Option.some.injEq, Bool.not_eq_true]
  exact ⟨fun ⟨hfull, he⟩ => ⟨he.symm, he ▸ hfull⟩, fun ⟨he, hfull⟩ => ⟨he ▸ hfull, he.symm⟩⟩

end Patch

/-- A value that stands on both sides of a patch: the first of its identity in the past, and the
only one now. -/
structure Patch.Kept {α κ : Type} [Identified α κ] [DecidableEq κ] (past now : List α)
    (a b : α) : Prop where
  first : partner? past b = some a
  mem : b ∈ now
  only : ∀ c ∈ now, ident c = ident b → c = b

namespace Patch.Kept

variable {α κ δ : Type} [Identified α κ] [DecidableEq κ] {past now : List α} {a b : α}
  {diff : α → α → δ} {isEmpty : δ → Bool}

theorem ident_eq (h : Kept past now a b) : ident a = ident b := (partner?_eq_some h.first).2

theorem mem_past (h : Kept past now a b) : a ∈ past := (partner?_eq_some h.first).1

/-- Where identities are distinct, a value is kept by the one of its identity. -/
theorem of_nodup (hpast : (past.map ident).Nodup) (hnow : (now.map ident).Nodup) (ha : a ∈ past)
    (hb : b ∈ now) (h : ident a = ident b) : Kept past now a b where
  first := (partner?_eq_some_iff hpast).2 ⟨ha, h⟩
  mem := hb
  only _ hc hident := List.inj_on_of_nodup_map hnow hc hb hident

theorem mem_changed (h : Kept past now a b) (hfull : isEmpty (diff a b) = false) :
    ⟨a, b, diff a b⟩ ∈ (between (fun p n => let d := diff p n; if isEmpty d then none else some d)
      past now).changed :=
  Patch.mem_changed.2 ⟨h.mem, h.first, rfl, hfull⟩

/-- The two shapes of a kept value are what its change compares. -/
theorem eq_of_mem_changed (h : Kept past now a b) {e : Changed α δ}
    (he : e ∈ (between (fun p n => let d := diff p n; if isEmpty d then none else some d)
      past now).changed) (hident : ident e.past = ident a) : e = ⟨a, b, diff a b⟩ := by
  obtain ⟨hnow, hpartner, hdiff, -⟩ := Patch.mem_changed.1 he
  have hsame : ident e.past = ident e.now := (partner?_eq_some hpartner).2
  have hsecond : e.now = b := h.only e.now hnow ((hsame.symm.trans hident).trans h.ident_eq)
  have hfirst : e.past = a := by
    rw [hsecond, h.first] at hpartner
    exact (Option.some.inj hpartner).symm
  rw [← hfirst, ← hsecond, ← hdiff]

end Patch.Kept

/-- The difference that a changed class is told with. -/
theorem ClassEvent.diff_of_mem {main round : Graph} {files : List Symbol}
    {change : Changed ClassInfo ClassChange}
    (h : .changed change ∈ ClassEvent.ofFiles main round files) :
    change.diff = .between change.past change.now := by
  obtain ⟨file, -, hmem⟩ := ClassEvent.mem_ofFiles.1 h
  exact (ClassEvent.mem_ofFile_changed.1 hmem).2.2.2.1

namespace Scene

variable {s : Scene} {use : Symbol → Usage} {owner x d : Symbol} {below : List Symbol}

/-- A use through a class is searched for, and below the owner in the users of the class. -/
theorem brings_uses (hx : x ∈ owner :: below) :
    (s.uses use owner below).Brings (.usage (use x)) ∧
      (x ≠ owner → ∀ d ∈ s.main.dependantsOf x, (s.uses use owner below).Brings (.search d)) := by
  have husages : (Impact.ofUsages ((owner :: below).map use)).stop = none := rfl
  constructor
  · exact (Impact.brings_append husages (.usage (use x))).2 (.inl (List.mem_map_of_mem hx))
  · intro hne d hd
    have hx : x ∈ below := (List.mem_cons.1 hx).resolve_left hne
    exact (Impact.brings_append husages (.search d)).2 (.inr (List.mem_flatMap.2 ⟨x, hx, hd⟩))

/-- Uses that a changed class brings about are searched for in the users of the class and of
those below it. -/
theorem brings_changedClass_uses {change : Changed ClassInfo ClassChange}
    (hpart : (s.uses use change.past.name below).PartOf (s.changedClass change))
    (hstop : (s.changedClass change).stop = none) (hx : x ∈ change.past.name :: below)
    (hd : d ∈ s.main.dependantsOf x) :
    (s.changedClass change).Brings (.usage (use x)) ∧
      (s.changedClass change).Brings (.search d) := by
  have huses : (s.uses use change.past.name below).Brings (.usage (use x)) ∧ _ := brings_uses hx
  have husers : (s.users change.past.name).PartOf (s.changedClass change) :=
    Impact.partOf_all (by simp)
  refine ⟨(hpart hstop).2.1 _ huses.1, ?_⟩
  by_cases hne : x = change.past.name
  · subst hne
    exact (husers hstop).2.1 (.search d) hd
  · exact (hpart hstop).2.1 _ (huses.2 hne d hd)

/-- **Users of a member**: a recorded user of a changed class, or of one that inherits a member
which the change searches for, is affected when it uses the member through that class, or it is
left out by the limit on the usage. -/
theorem affected_or_left_out_of_uses {names : NameTable} {main round : Graph} {log : ChangeLog}
    {q : RoundRequest} {files : List Symbol} {affected : PathSet} {path : SourcePath}
    {change : Changed ClassInfo ClassChange}
    (h : (compareInOrder names main round log q files).outcome = .ok (.incremental affected))
    (hevent : .changed change ∈ ClassEvent.ofFiles main round files)
    (hpart : ((Scene.of names main round q).uses use change.past.name below).PartOf
      ((Scene.of names main round q).changedClass change))
    (hx : x ∈ change.past.name :: below) (hdependant : d ∈ main.dependantsOf x)
    (hd : main.HeldBy names (use x) d path) (hcompiled : q.compiled.any path.sameAs = false)
    (hremoved : ∀ gone ∈ q.removed, gone.components ≠ path.components) :
    let s := Scene.of names main round q
    let i := s.impact q.removed (ClassEvent.ofFiles main round files)
    affected.has path.components = true ∨
      ∃ r, i.limitOn? (use x) = some r ∧ r.holds s.updated d = .ok false := by
  intro s i
  obtain ⟨hstop, hbrings, -⟩ :=
    Scene.partOf_event (s := s) hevent q.removed (Scene.stop_of_conclude h)
  obtain ⟨husage, hsearch⟩ := brings_changedClass_uses hpart hstop hx hdependant
  exact affected_or_left_out h hd hcompiled hremoved (hbrings _ hsearch) (hbrings _ husage)

end Scene

end ClassImpact

import ClassImpact.Proofs.Hits

/-!
# Classes that become final or private

A class that becomes final or private affects everybody who mentions it: the rule searches for
the mentions of the class and puts no limit on them.  It lifts no limit either.  When the class
also becomes protected or local to its package, in the same change or in another one of the
round, the limit of that change decides who is affected, and a user that still sees the class
is left out.

## Main results

* `Scene.shielded_iff`: the users whose mentions of a class do not count
* `compareInOrder_tightened`: the users of a class that became final or private are affected,
  but for those
-/

namespace ClassImpact

/-! ## Changes that narrow who sees a class -/

namespace Revision

/-- Fewer classes see a class whose modifiers change so; the others are searched under a limit. -/
def narrows (r : Revision) : Bool := r.becamePackageLocal || r.added.has .prot

theorem not_protected_of_becamePackageLocal {r : Revision} (h : r.becamePackageLocal = true) :
    r.added.has .prot = false := by
  have hlocal := (Bool.and_eq_true_iff.1 h).2
  have hprotected : r.now.has .prot = false := (Access.isPackageLocal_iff.1 hlocal).2.2
  rw [added, Access.has_without, hprotected]
  rfl

end Revision

/-- An event narrows who sees `a`: it is a change of that class. -/
def ClassEvent.Narrows (e : ClassEvent) (a : Symbol) : Prop :=
  ∃ change, e = .changed change ∧ change.past.name = a ∧ change.diff.base.narrows = true

namespace Scene

/-- A class still sees `a`, whose modifiers changed as `base` says: it lies in the package of
`a`, and it inherits from `a` where that became protected. -/
structure StillSees (s : Scene) (base : Revision) (a d : Symbol) : Prop where
  narrowed : base.becamePackageLocal = true ∨
    base.added.has .prot = true ∧ s.updated.inherits d a = .yes
  package : ∃ package, s.names.packageOf a = .ok package ∧ s.names.packageOf d = .ok package

/-- A class still sees `a` after the last event that narrows who does. -/
def Shielded (s : Scene) (events : List ClassEvent) (a d : Symbol) : Prop :=
  ∃ before change after, events = before ++ .changed change :: after ∧ change.past.name = a ∧
    s.StillSees change.diff.base a d ∧ ∀ e ∈ after, ¬ e.Narrows a

end Scene

/-! ## The limits of modifiers -/

namespace Scene

open Impact

variable {s : Scene} {c : ClassInfo} {base : Revision} {a d : Symbol}

/-- One of the two limits on the mentions of a class. -/
theorem limitOn?_limitedMentions {residency : Except Fault Residency}
    (hstop : (limited [c.mentioned] residency ++ mentions c).stop = .none) :
    ∃ r, residency = .ok r ∧
      ∀ a, (limited [c.mentioned] residency ++ mentions c).limitOn? (.mention a) =
        if c.name = a then some r else .none := by
  obtain ⟨hlimited, -⟩ := stop_append.1 hstop
  cases residency with
  | error fault => cases hlimited
  | ok r =>
    refine ⟨r, rfl, fun a => ?_⟩
    have hlimit : (limited [c.mentioned] (.ok r)).limitOn? (.mention a) =
        if c.name = a then some r else .none := by
      rw [limited, ofResult, limitOn?_ofLimit]
      simp [ClassInfo.mentioned, eq_comm]
    rw [limitOn?_append hlimited, limitOn?_mentions, Option.none_or, hlimit]

theorem stillSees_iff_of_local (hlocal : base.becamePackageLocal = true) {r : Residency}
    (hr : Residency.outsideOf s.names a = .ok r) :
    r.holds s.updated d = .ok false ↔ s.StillSees base a d := by
  obtain ⟨package, hpackage, rfl⟩ := Residency.outsideOf_eq_ok_iff.1 hr
  rw [Residency.outside_eq_false_iff]
  constructor
  · intro hd
    exact ⟨.inl hlocal, package, hpackage, hd⟩
  · rintro ⟨-, other, hother, hd⟩
    obtain rfl := Except.ok.inj (hpackage.symm.trans hother)
    exact hd

theorem stillSees_iff_of_protected (hlocal : base.becamePackageLocal = false)
    (hprotected : base.added.has .prot = true) {r : Residency}
    (hr : Residency.noInheritorOf s.names a = .ok r) :
    r.holds s.updated d = .ok false ↔ s.StillSees base a d := by
  obtain ⟨package, hpackage, rfl⟩ := Residency.noInheritorOf_eq_ok_iff.1 hr
  rw [Residency.noInheritor_eq_false_iff]
  constructor
  · rintro ⟨hinherits, hd⟩
    exact ⟨.inr ⟨hprotected, hinherits⟩, package, hpackage, hd⟩
  · rintro ⟨hnarrowed, other, hother, hd⟩
    obtain rfl := Except.ok.inj (hpackage.symm.trans hother)
    exact ⟨(hnarrowed.resolve_left (by simp [hlocal])).2, hd⟩

/-- What a change of modifiers puts on mentions: nothing, or one limit on those of its class
that does not hold for the classes which still see it. -/
theorem limitOn?_changedModifiers (hstop : (s.changedModifiers c base).stop = .none) :
    (base.narrows = false ∧ ∀ a, (s.changedModifiers c base).limitOn? (.mention a) = .none) ∨
      (base.narrows = true ∧ ∃ r, (∀ a, (s.changedModifiers c base).limitOn? (.mention a) =
          if c.name = a then some r else .none) ∧
        ∀ d, r.holds s.updated d = .ok false ↔ s.StillSees base c.name d) := by
  unfold changedModifiers at hstop ⊢
  obtain ⟨hfirst, -⟩ := stop_append.1 hstop
  obtain ⟨hnarrowing, -⟩ := stop_append.1 hfirst
  obtain ⟨hprotecting, hlocalizing⟩ := stop_append.1 hnarrowing
  have hinstances : (ofUsages [.instantiation c.name]).limits = [] := rfl
  simp only [limitOn?_append hfirst, limitOn?_append hnarrowing, limitOn?_append hprotecting,
    limitOn?_onlyIf, limitOn?_of_unlimited hinstances, limitOn?_mentions, ite_self, Option.none_or]
  unfold Revision.narrows
  cases hlocal : base.becamePackageLocal with
  | true =>
    -- a class that is local to its package did not become protected
    have hprotected := Revision.not_protected_of_becamePackageLocal hlocal
    rw [hlocal] at hlocalizing
    obtain ⟨r, hr, hlimit⟩ := limitOn?_limitedMentions hlocalizing
    refine .inr ⟨rfl, r, fun a => ?_, fun d => stillSees_iff_of_local hlocal hr⟩
    simp [hprotected, hlimit]
  | false =>
    cases hprotected : base.added.has .prot with
    | true =>
      rw [hprotected] at hprotecting
      obtain ⟨r, hr, hlimit⟩ := limitOn?_limitedMentions hprotecting
      exact .inr ⟨rfl, r, hlimit, fun d => stillSees_iff_of_protected hlocal hprotected hr⟩
    | false => exact .inl ⟨rfl, fun a => rfl⟩

/-! ## The last limit of a round -/

theorem StillSees.narrows (h : s.StillSees base a d) : base.narrows = true := by
  rw [Revision.narrows, Bool.or_eq_true]
  exact h.narrowed.imp id And.left

theorem partOf_changedModifiers (change : Changed ClassInfo ClassChange) :
    (s.changedModifiers change.past change.diff.base).PartOf (s.changedClass change) :=
  Impact.partOf_all (by simp)

/-- **What an event puts on the mentions of a class**: nothing when it does not narrow the
class, and otherwise a limit that leaves out the classes which still see it. -/
theorem limitOn?_event {e : ClassEvent} (hstop : (s.event e).stop = .none) (a : Symbol) :
    (¬ e.Narrows a ∧ (s.event e).limitOn? (.mention a) = .none) ∨
      (e.Narrows a ∧ ∃ change r, e = .changed change ∧ change.past.name = a ∧
        (s.event e).limitOn? (.mention a) = some r ∧
        ∀ d, r.holds s.updated d = .ok false ↔ s.StillSees change.diff.base a d) := by
  cases e with
  | changed change =>
    have hmodifiers := (partOf_changedModifiers change hstop).1
    rw [event, limitOn?_changedClass hstop]
    rcases limitOn?_changedModifiers hmodifiers with ⟨hopen, hnone⟩ | ⟨hnarrows, r, hlimit, hr⟩
    · refine .inl ⟨?_, hnone a⟩
      rintro ⟨_, he, -, hnarrows⟩
      cases he
      simp [hopen] at hnarrows
    · by_cases hname : change.past.name = a
      · refine .inr ⟨⟨change, rfl, hname, hnarrows⟩, change, r, rfl, hname, ?_, hname ▸ hr⟩
        rw [hlimit, if_pos hname]
      · refine .inl ⟨?_, by rw [hlimit, if_neg hname]⟩
        rintro ⟨_, he, hsame, -⟩
        cases he
        exact hname hsame
  | removed c =>
    refine .inl ⟨?_, limitOn?_removedClass c _⟩
    rintro ⟨_, he, -⟩
    cases he
  | added c =>
    refine .inl ⟨?_, limitOn?_addedClass c _⟩
    rintro ⟨_, he, -⟩
    cases he

/-- **The mentions that do not count**: those of the classes that still see `a`. -/
theorem shielded_iff {removed : List SourcePath} {events : List ClassEvent}
    (hstop : (s.impact removed events).stop = .none) :
    s.Shielded events a d ↔
      ∃ r, (s.impact removed events).limitOn? (.mention a) = some r ∧
        r.holds s.updated d = .ok false := by
  constructor
  · rintro ⟨before, change, after, rfl, hname, hsees, hafter⟩
    have hnarrows : (ClassEvent.changed change).Narrows a := ⟨change, rfl, hname, hsees.narrows⟩
    obtain ⟨_, r, he, -, hlimit, hr⟩ :=
      ((limitOn?_event (stop_event hstop (by simp)) a).resolve_left fun h => h.1 hnarrows).2
    cases he
    refine ⟨r, (limitOn?_impact_eq_some_iff hstop).2
      ⟨before, .changed change, after, rfl, hlimit, fun later hlater => ?_⟩, (hr d).2 hsees⟩
    have hopen := limitOn?_event (stop_event hstop (e := later) (by simp [hlater])) a
    exact (hopen.resolve_right fun h => hafter later hlater h.1).2
  · rintro ⟨r, hlimit, hfalse⟩
    obtain ⟨before, e, after, rfl, he, hafter⟩ := (limitOn?_impact_eq_some_iff hstop).1 hlimit
    rcases limitOn?_event (stop_event hstop (e := e) (by simp)) a with
      ⟨-, hopen⟩ | ⟨-, change, r', rfl, hname, hr⟩
    · simp [hopen] at he
    · obtain rfl := Option.some.inj (hr.1.symm.trans he)
      refine ⟨_, change, _, rfl, hname, (hr.2 d).1 hfalse, fun later hlater hnarrows => ?_⟩
      have hlimited := limitOn?_event (stop_event hstop (e := later) (by simp [hlater])) a
      obtain ⟨_, _, _, _, _, hsome, -⟩ := hlimited.resolve_left fun h => h.1 hnarrows
      rw [hafter later hlater] at hsome
      cases hsome

end Scene

/-! ## Comparisons -/

/-- A class is compiled again from one of the files, and is final or private where it was not. -/
def Tightened (main round : Graph) (files : List Symbol) (a : Symbol) : Prop :=
  ∃ file ∈ files, ∃ past ∈ main.classesIn.valuesOf file, ∃ now ∈ round.classesIn.valuesOf file,
    past.name = a ∧ now.name = a ∧
      (now.access.without past.access).hasAny [.final, .priv] = true

/-- A recorded user of `a`, from the file of a path, that mentions `a`. -/
structure Graph.MentionedBy (main : Graph) (names : NameTable) (a d : Symbol)
    (path : SourcePath) : Prop where
  dependant : d ∈ main.dependantsOf a
  file : ∃ f, main.fileOf.get? d = some f ∧ names.name f = .ok path.text
  mention : ∃ user, main.describe? d = some user ∧ .mention a ∈ user.usages

/-- A class that became final or private has a change that says so. -/
theorem Tightened.exists_changed {main round : Graph} {files : List Symbol} {a : Symbol}
    (h : Tightened main round files a) :
    ∃ change, .changed change ∈ ClassEvent.ofFiles main round files ∧ change.past.name = a ∧
      change.diff.base.added.hasAny [.final, .priv] = true := by
  obtain ⟨file, hfile, past, hpast, now, hnow, rfl, hname, hgained⟩ := h
  refine ⟨⟨past, now, .between past now⟩, ClassEvent.mem_ofFiles.2 ⟨file, hfile,
    ClassEvent.mem_ofFile_changed.2 ⟨hpast, hnow, hname.symm, rfl, ?_⟩⟩, rfl, hgained⟩
  have haccess : past.access ≠ now.access := by
    intro he
    rw [he] at hgained
    simp [Access.hasAny] at hgained
  simp [ClassChange.isEmpty, ClassChange.between, Revision.isEmpty, Revision.access,
    Revision.ofAccess, haccess]

namespace Scene

variable {s : Scene} {c : ClassInfo} {change : Changed ClassInfo ClassChange}

/-- A class that became final or private is searched for by its mentions. -/
theorem partOf_mentions {base : Revision} (hgained : base.added.hasAny [.final, .priv] = true) :
    (mentions c).PartOf (s.changedModifiers c base) := by
  unfold changedModifiers
  rw [hgained]
  show (Impact.onlyIf true (mentions c)).PartOf _
  exact (Impact.partOf_append_right _ _).trans (Impact.partOf_append_left _ _)

/-- The users of a class that became final or private are searched for its mentions. -/
theorem brings_changedClass (hgained : change.diff.base.added.hasAny [.final, .priv] = true)
    (hstop : (s.changedClass change).stop = none) :
    (s.changedClass change).Brings (.usage (.mention change.past.name)) ∧
      ∀ d ∈ s.main.dependantsOf change.past.name, (s.changedClass change).Brings (.search d) := by
  have hmentions := (partOf_mentions hgained).trans (partOf_changedModifiers (s := s) change)
  have husers : (s.users change.past.name).PartOf (s.changedClass change) :=
    Impact.partOf_all (by simp)
  exact ⟨(hmentions hstop).2.1 (.usage _) (List.mem_singleton_self _),
    fun d hd => (husers hstop).2.1 (.search d) hd⟩

end Scene

section

variable {names : NameTable} {main round : Graph} {log : ChangeLog} {q : RoundRequest}
  {files : List Symbol} {affected : PathSet} {a d : Symbol} {path : SourcePath}

/-- **Classes that become final or private**: the file of a recorded user that mentions such a
class is affected, or the user still sees the class after the last event of the round that
narrows it; of such a user the mention does not count. -/
theorem compareInOrder_tightened
    (h : (compareInOrder names main round log q files).outcome = .ok (.incremental affected))
    (ha : Tightened main round files a) (hd : main.MentionedBy names a d path)
    (hcompiled : q.compiled.any path.sameAs = false)
    (hremoved : ∀ gone ∈ q.removed, gone.components ≠ path.components) :
    let s := Scene.of names main round q
    let events := ClassEvent.ofFiles main round files
    (affected.has path.components = true ∨ s.Shielded events a d) ∧
      (s.Shielded events a d →
        s.isAffected (s.impact q.removed events) d (.mention a) = .ok false) := by
  intro s events
  obtain ⟨change, hevent, rfl, hgained⟩ := ha.exists_changed
  obtain ⟨file, hfile, htext⟩ := hd.file
  obtain ⟨user, huser, hmention⟩ := hd.mention
  have hstop : (s.impact q.removed events).stop = none := Scene.stop_of_conclude h
  obtain ⟨hchanged, hbrings, -⟩ := Scene.partOf_event (s := s) hevent q.removed hstop
  obtain ⟨husage, hsearch⟩ := Scene.brings_changedClass hgained hchanged
  have husage : .mention change.past.name ∈ (s.impact q.removed events).usages :=
    hbrings (.usage _) husage
  have hsearched : d ∈ (s.impact q.removed events).dependants :=
    hbrings (.search d) (hsearch d hd.dependant)
  have hiff := (Scene.isAffected_eq_false_iff (d := d) husage).trans
    (Scene.shielded_iff hstop).symm
  refine ⟨?_, hiff.2⟩
  -- the search has found the file, or it has asked about the mention and passed the user over
  obtain ⟨searched, hfound, hkept⟩ := Scene.exists_searched h
  rcases Scene.found_or_not_isHit_of_mem (IdSet.mem_ofList.2 hsearched) hfile
    (NameTable.name_keyNames htext) hcompiled huser hfound with hpath | hhit
  · refine .inl ((hkept _ hpath).resolve_right ?_)
    rintro ⟨gone, hgone, he⟩
    exact hremoved gone hgone he
  · obtain ⟨-, -, -, rfl⟩ := Graph.describe?_eq_some.1 huser
    exact .inr (hiff.1 (Scene.isAffected_of_not_isHit hhit hmention))

end

/-! ## A public class that becomes final

A class of the same package extends a public class.  When that one becomes final it is compiled
again.  When it becomes final and local to its package at once, the limit of the second change
passes it over, and a class that extends a final one is left behind. -/

namespace FinalBase

def names : NameTable :=
  NameTable.new.internAll ["java/lang/Object", "<init>", "p/A", "p/D", "A.java", "D.java"]

def base (flags : List Flag) : ClassInfo := .plain ⟨3⟩ (.ofFlags flags) (.named ⟨1⟩)

def user : ClassInfo :=
  { ClassInfo.plain ⟨4⟩ (.ofFlags []) (.named ⟨3⟩) with usages := .single (.mention ⟨3⟩) }

def past : Graph := (Graph.empty.record ⟨5⟩ (base [.pub])).record ⟨6⟩ user

/-- The class is compiled again with other modifiers. -/
def now (flags : List Flag) : Graph := Graph.empty.record ⟨5⟩ (base flags)

def request : RoundRequest where
  removed := []
  files := [⟨"A.java"⟩]
  compiled := [⟨"A.java"⟩]
  accepts _ := true
  resolver := none
  waiting := .onlyArrived

theorem mentioned : past.MentionedBy names ⟨3⟩ ⟨4⟩ ⟨"D.java"⟩ where
  dependant := by decide
  file := ⟨⟨6⟩, by decide, rfl⟩
  mention := ⟨user, by decide, IdSet.mem_toList.1 (by decide)⟩

theorem tightened {flags : List Flag}
    (h : ((Access.ofFlags flags).without (.ofFlags [.pub])).hasAny [.final, .priv] = true) :
    Tightened past (now flags) [⟨5⟩] ⟨3⟩ :=
  ⟨⟨5⟩, by simp, base [.pub], IdSet.mem_toList.1 (by decide), base flags,
    IdSet.mem_toList.1 (List.mem_singleton_self _), rfl, rfl, h⟩

theorem user_affected :
    (compareInOrder names past (now [.pub, .final]) .empty request [⟨5⟩]).outcome =
        .ok (.incremental (.single ⟨"D.java"⟩)) ∧
      let s := Scene.of names past (now [.pub, .final]) request
      let events := ClassEvent.ofFiles past (now [.pub, .final]) [⟨5⟩]
      ((IdSet.single ⟨"D.java"⟩ : PathSet).has (SourcePath.mk "D.java").components = true ∨
          s.Shielded events ⟨3⟩ ⟨4⟩) ∧
        (s.Shielded events ⟨3⟩ ⟨4⟩ →
          s.isAffected (s.impact request.removed events) ⟨4⟩ (.mention ⟨3⟩) = .ok false) := by
  have houtcome : (compareInOrder names past (now [.pub, .final]) .empty request [⟨5⟩]).outcome =
    .ok (.incremental (.single ⟨"D.java"⟩)) := rfl
  exact ⟨houtcome, compareInOrder_tightened houtcome (tightened (by decide)) mentioned (by decide)
    fun _ hgone => absurd hgone List.not_mem_nil⟩

/-- The user in the package of a class that became final is not affected, when that class
became local to the package as well. -/
theorem user_not_affected :
    (compareInOrder names past (now [.final]) .empty request [⟨5⟩]).outcome =
        .ok (.incremental .empty) ∧
      Tightened past (now [.final]) [⟨5⟩] ⟨3⟩ ∧ past.MentionedBy names ⟨3⟩ ⟨4⟩ ⟨"D.java"⟩ ∧
      request.compiled.any (SourcePath.mk "D.java").sameAs = false ∧ request.removed = [] ∧
      (IdSet.empty : PathSet).has (SourcePath.mk "D.java").components = false :=
  ⟨rfl, tightened (by decide), mentioned, by decide, rfl, rfl⟩

end FinalBase

end ClassImpact

import ClassImpact.Proofs.Callers
import ClassImpact.Proofs.Forward

/-!
# Callers of retyped methods

A method that is kept with another type or generic signature, or with a thrown type more, is
searched for by the calls of it.  Two things keep a caller out of the answer.

* The search looks at the users of the changed class, and of each class that inherits the
  method.  The users of a class are those that an edge leads to, and an edge leads out of a file
  only.  So a caller that stands in the file of the class through which it calls is searched
  only where an edge from elsewhere leads to it.
* The same call may be one of a method that another change of the round confines.  The last
  limit that is put on a call counts for all of its callers.

## Main results

* `Scene.sheltered_iff`: the callers that the last limit on a call leaves out
* `compareInOrder_retypedMethod`: the callers of a retyped method are affected, but for those
-/

namespace ClassImpact

/-! ## The last limit on a call -/

namespace Scene

open Impact

variable {s : Scene} {c : ClassInfo} {change : Changed ClassInfo ClassChange}

theorem limitOn?_limited {usages : List Usage} {residency : Except Fault Residency} {u : Usage}
    (hstop : (limited usages residency).stop = .none) (hu : u ∈ usages) :
    (limited usages residency).limitOn? u ≠ .none := by
  cases residency with
  | error fault => cases hstop
  | ok r =>
    rw [limited, ofResult, limitOn?_ofLimit, if_pos hu]
    exact Option.some_ne_none r

theorem limitOn?_revisedMethod {m : MethodInfo} {d : MethodChange} {u : Usage}
    (hstop : (s.revisedMethod c m d).stop = .none) (h : d.confines = true)
    (hu : u ∈ s.callsOf c m) : (s.revisedMethod c m d).limitOn? u ≠ .none := by
  obtain ⟨a, b, heq⟩ := exists_revisedMethod_of_confines (s := s) (c := c) (m := m) h
  rw [heq] at hstop ⊢
  obtain ⟨hfirst, -⟩ := stop_append.1 hstop
  obtain ⟨ha, hconfined⟩ := stop_append.1 hfirst
  obtain ⟨hcalls, hlimited⟩ := stop_append.1 hconfined
  intro hnone
  rw [limitOn?_append hfirst, limitOn?_append ha, confinedCalls,
    limitOn?_append hcalls] at hnone
  simp only [Option.or_eq_none_iff] at hnone
  exact limitOn?_limited hlimited hu hnone.2.1.1

/-- **What a change puts on a call**: a limit to those that do not inherit within the package
when it confines a method that is called so, and otherwise nothing. -/
theorem limitOn?_changedClass_call {u : Usage} (hu : u.IsCall)
    (hstop : (s.changedClass change).stop = .none) :
    (¬ s.Confines change u ∧ (s.changedClass change).limitOn? u = .none) ∨
      (s.Confines change u ∧ ∃ r, (s.changedClass change).limitOn? u = some r ∧
        Residency.noInheritorOf s.names change.past.name = .ok r) := by
  cases hlimit : (s.changedClass change).limitOn? u with
  | some r =>
    obtain ⟨hconfines, hr⟩ := only_changedClass_calls.of_limitOn? hlimit hu
    exact .inr ⟨hconfines, r, rfl, hr⟩
  | none =>
    refine .inl ⟨?_, rfl⟩
    rintro ⟨hplain, e, he, hconfines, hmem⟩
    have hgoes := stop_all.1 hstop
    have hmethods := (limitOn?_all_eq_none hgoes).1 hlimit
      (s.methods change.past change.diff.methods) (by simp)
    have hstop : (s.methods change.past change.diff.methods).stop = .none := hgoes _ (by simp)
    obtain ⟨hfirst, hchanged⟩ := stop_append.1 hstop
    rw [methods, limitOn?_append hfirst, Option.or_eq_none_iff] at hmethods
    have hgoes := stop_all.1 hchanged
    have hmember := List.mem_map_of_mem (f := s.changedMethod change.past) he
    have hnone := (limitOn?_all_eq_none hgoes).1 hmethods.1 _ hmember
    have hstop := hgoes _ hmember
    rw [changedMethod_eq hplain (MethodChange.looked_at_of_confines hconfines)] at hnone hstop
    exact limitOn?_revisedMethod hstop hconfines hmem hnone

/-- **The last limit on a call**: the last change of a round that confines a method which is
called so leaves a class out, as it inherits from the changed class in one package with it. -/
def Sheltered (s : Scene) (events : List ClassEvent) (u : Usage) (d : Symbol) : Prop :=
  ∃ before change after, events = before ++ .changed change :: after ∧ s.Confines change u ∧
    s.updated.inherits d change.past.name = .yes ∧
    (∃ package, s.names.packageOf change.past.name = .ok package ∧
      s.names.packageOf d = .ok package) ∧
    ∀ later, .changed later ∈ after → ¬ s.Confines later u

theorem holds_eq_false_iff {a d : Symbol} {r : Residency}
    (hr : Residency.noInheritorOf s.names a = .ok r) :
    r.holds s.updated d = .ok false ↔ s.updated.inherits d a = .yes ∧
      ∃ package, s.names.packageOf a = .ok package ∧ s.names.packageOf d = .ok package := by
  obtain ⟨package, hpackage, rfl⟩ := Residency.noInheritorOf_eq_ok_iff.1 hr
  rw [Residency.noInheritor_eq_false_iff]
  refine and_congr_right fun _ => ⟨fun hd => ⟨package, hpackage, hd⟩, ?_⟩
  rintro ⟨other, hother, hd⟩
  obtain rfl := Except.ok.inj (hpackage.symm.trans hother)
  exact hd

/-- A call counts nowhere in the end just where the last limit on it leaves a class out. -/
theorem sheltered_iff {removed : List SourcePath} {events : List ClassEvent} {u : Usage}
    {d : Symbol} (hu : u.IsCall) (hstop : (s.impact removed events).stop = .none) :
    s.Sheltered events u d ↔
      ∃ r, (s.impact removed events).limitOn? u = some r ∧ r.holds s.updated d = .ok false := by
  have hlimit (change : Changed ClassInfo ClassChange) (h : .changed change ∈ events) :=
    limitOn?_changedClass_call (s := s) hu
      (show (s.event (.changed change)).stop = .none from stop_event hstop h)
  constructor
  · rintro ⟨before, change, after, rfl, hconfines, hinherits, hpackage, hafter⟩
    obtain ⟨-, r, hr, hresidency⟩ :=
      (hlimit change (by simp)).resolve_left fun h => h.1 hconfines
    refine ⟨r, (limitOn?_impact_eq_some_iff hstop).2
      ⟨before, .changed change, after, rfl, hr, fun later hlater => ?_⟩,
      (holds_eq_false_iff hresidency).2 ⟨hinherits, hpackage⟩⟩
    cases later with
    | changed later =>
      exact ((hlimit later (by simp [hlater])).resolve_right fun h => hafter later hlater h.1).2
    | removed c => exact limitOn?_removedClass c u
    | added c => exact limitOn?_addedClass c u
  · rintro ⟨r, hr, hfalse⟩
    obtain ⟨before, e, after, rfl, he, hafter⟩ := (limitOn?_impact_eq_some_iff hstop).1 hr
    cases e with
    | removed c => simp [event, limitOn?_removedClass] at he
    | added c => simp [event, limitOn?_addedClass] at he
    | changed change =>
      have he : (s.changedClass change).limitOn? u = some r := he
      obtain ⟨hconfines, hresidency⟩ := only_changedClass_calls.of_limitOn? he hu
      obtain ⟨hinherits, hpackage⟩ := (holds_eq_false_iff hresidency).1 hfalse
      refine ⟨before, change, after, rfl, hconfines, hinherits, hpackage, ?_⟩
      intro later hlater hlimits
      obtain ⟨-, r', hr', -⟩ :=
        (hlimit later (by simp [hlater])).resolve_left fun h => h.1 hlimits
      rw [show (s.changedClass later).limitOn? u = .none from hafter _ hlater] at hr'
      cases hr'

end Scene

/-! ## Retyped methods -/

/-- A method that a change keeps with another type or generic signature, or with a thrown type
more. -/
structure RetypedMethod (change : Changed ClassInfo ClassChange) (m m' : MethodInfo) : Prop where
  plain : change.past.isAnnotationType = false
  past : Patch.partner? change.past.methods m' = some m
  now : m' ∈ change.now.methods
  retyped : m'.returns ≠ m.returns ∨ m'.signature ≠ m.signature ∨ ∃ t ∈ m'.throws, t ∉ m.throws

namespace RetypedMethod

variable {change : Changed ClassInfo ClassChange} {m m' : MethodInfo}

theorem base_or_throws (h : RetypedMethod change m m') :
    (MethodChange.between m m').base.typeOrSignature = true ∨
      (MethodChange.between m m').throwsMore = true := by
  rcases h.retyped with htype | hsignature | ⟨t, ht, hnew⟩
  · exact .inl (by simp [MethodChange.between, MethodInfo.revision, Revision.typeOrSignature,
      Ne.symm htype])
  · exact .inl (by simp [MethodChange.between, MethodInfo.revision, Revision.typeOrSignature,
      Ne.symm hsignature])
  · right
    have hadded : t ∈ (Patch.ofMembers m.throws m'.throws).added :=
      mem_ofMembers_added.2 ⟨ht, hnew⟩
    have hne : (MethodChange.between m m').throws.added ≠ [] := List.ne_nil_of_mem hadded
    simp [MethodChange.throwsMore, hne]

theorem searchesCalls (h : RetypedMethod change m m') :
    (MethodChange.between m m').searchesCalls = true := by
  rcases h.base_or_throws with htype | hthrows <;> simp [MethodChange.searchesCalls, *]

theorem mem_changed (h : RetypedMethod change m m')
    (hdiff : change.diff = .between change.past change.now) :
    ⟨m, m', .between m m'⟩ ∈ change.diff.methods.changed := by
  rw [hdiff]
  refine Patch.mem_changed.2 ⟨h.now, h.past, rfl, ?_⟩
  rcases h.base_or_throws with htype | hthrows
  · rw [Revision.typeOrSignature, Bool.or_eq_true] at htype
    rcases htype with htype | hsignature <;>
      simp [MethodChange.isEmpty, Revision.isEmpty, *]
  · have hthrows : (MethodChange.between m m').throws.isEmpty = false := by
      have hadded : (MethodChange.between m m').throws.added.isEmpty = false := by
        simpa [MethodChange.throwsMore] using hthrows
      simp [Patch.isEmpty, hadded]
    simp [MethodChange.isEmpty, hthrows]

end RetypedMethod

/-- In a rebuilt graph a class is a dependant of each one that it uses, or stands in its file. -/
theorem Graph.dependant_of_rebuilt {t start : NameTable} {before main : Graph} {b : Build}
    {d o : Symbol} {user : ClassInfo} (hone : (Project.empty.after t b).OneFile)
    (hrebuilt : before.integrate (b.round start).1 (b.round start).2.onRebuild = .ok (t, main))
    (huser : main.describe? d = some user) (ho : user.Uses o) :
    main.fileOf.get? o = main.fileOf.get? d ∨ d ∈ main.dependantsOf o := by
  obtain ⟨f, hf, hmem, rfl⟩ := Graph.describe?_eq_some.1 huser
  by_cases hne : o = user.name
  · exact .inl (hne ▸ rfl)
  · by_cases hown : (Project.empty.after t b).Declares f o
    · exact .inl (((Graph.records_rebuilt hone hrebuilt).fileOf o f).2 hown ▸ hf.symm)
    · have hedge := Graph.dependsUnless_rebuilt hone hrebuilt f o user hmem ho hne hown
      exact .inr (IdSet.mem_toList.2 (hedge.2 id))

section

variable {names : NameTable} {main round : Graph} {log : ChangeLog} {q : RoundRequest}
  {files : List Symbol} {affected : PathSet} {change : Changed ClassInfo ClassChange}
  {m m' : MethodInfo} {x d : Symbol} {path : SourcePath}

/-- **Callers of a method with another type**: when a changed class keeps a method with another
type or generic signature, or with a thrown type more, a recorded user that calls it through the
class or through one that inherits it is affected, unless the user is not searched, or the last
limit on the call leaves the user out.  In a rebuilt graph a user that is not searched stands in
the file of the class through which it calls; a call that is left out does not count. -/
theorem compareInOrder_retypedMethod {t start : NameTable} {before : Graph} {b : Build}
    (hone : (Project.empty.after t b).OneFile)
    (hrebuilt : before.integrate (b.round start).1 (b.round start).2.onRebuild = .ok (t, main))
    (h : (compareInOrder names main round log q files).outcome = .ok (.incremental affected))
    (hevent : .changed change ∈ ClassEvent.ofFiles main round files)
    (hm : RetypedMethod change m m')
    (hx : x ∈ change.past.name ::
      (Scene.of names main round q).updated.inheriting (.method m.key) change.past.name)
    (hd : main.HeldBy names (m.callFrom x) d path)
    (hcompiled : q.compiled.any path.sameAs = false)
    (hremoved : ∀ gone ∈ q.removed, gone.components ≠ path.components) :
    let s := Scene.of names main round q
    let events := ClassEvent.ofFiles main round files
    let searched := (s.impact q.removed events).dependants
    (affected.has path.components = true ∨ d ∉ searched ∨ s.Sheltered events (m.callFrom x) d) ∧
      (d ∉ searched → main.fileOf.get? x = main.fileOf.get? d) ∧
      (s.Sheltered events (m.callFrom x) d →
        s.isAffected (s.impact q.removed events) d (m.callFrom x) = .ok false) := by
  intro s events searched
  have hstop : (s.impact q.removed events).stop = none := Scene.stop_of_conclude h
  obtain ⟨hchanged, hbrings, -⟩ := Scene.partOf_event (s := s) hevent q.removed hstop
  have hpart := Scene.partOf_calls (s := s) hm.plain
    (hm.mem_changed (ClassEvent.diff_of_mem hevent)) hm.searchesCalls
  have husage : m.callFrom x ∈ (s.impact q.removed events).usages :=
    hbrings (.usage _) ((hpart hchanged).2.1 _ (Scene.brings_uses hx).1)
  have hsheltered := Scene.sheltered_iff (s := s) (u := m.callFrom x) (d := d) trivial hstop
  refine ⟨?_, ?_, ?_⟩
  · by_cases hsearched : d ∈ searched
    · have hfound := Scene.affected_or_left_out h hd hcompiled hremoved hsearched husage
      exact hfound.imp_right fun hlimit => .inr (hsheltered.2 hlimit)
    · exact .inr (.inl hsearched)
  · intro hsearched
    obtain ⟨user, huser, hcall⟩ := hd.usage
    refine (Graph.dependant_of_rebuilt hone hrebuilt huser ⟨_, hcall, rfl⟩).resolve_right ?_
    intro hdependant
    exact hsearched
      (hbrings (.search d) (Scene.brings_changedClass_uses hpart hchanged hx hdependant).2)
  · intro h
    exact (Scene.isAffected_eq_false_iff husage).2 (hsheltered.1 h)

end

/-! ## A caller beside the class that it calls

A method that is called through an inheriting class returns another type.  The caller is affected
where it stands in a file of its own.  In the file of the class through which it calls, no edge
leads to it, and it keeps calling a method that is no longer there. -/

namespace CalledBelow

/-- What the compiler reports of the project, with the caller in some file. -/
def build (file : String) : Build where
  outputs := [⟨"A.java", "p/A.class", some (base (method .pub .int))⟩,
    ⟨"K.java", "q/K.class", some heir⟩, ⟨file, "q/D.class", some caller⟩]
  imports := []
  files := [⟨"A.java"⟩, ⟨"K.java"⟩, ⟨file⟩]
  removed := []
  covered := by simp

theorem oneFile (t : NameTable) (file : String) : (Project.empty.after t (build file)).OneFile := by
  apply Build.oneFile_fresh
  show ([⟨3⟩, ⟨4⟩, ⟨5⟩] : List Symbol).Nodup
  decide

theorem retyped : RetypedMethod (change (method .pub .long)) (method .pub .int)
    (method .pub .long) where
  plain := rfl
  past := rfl
  now := by simp [change, base, ClassInfo.withMethod]
  retyped := .inl (by decide)

theorem apart_affected :
    (compareInOrder names (past ⟨9⟩) (now (method .pub .long)) .empty request [⟨7⟩]).outcome =
        .ok (.incremental (.single ⟨"D.java"⟩)) ∧
      let s := Scene.of names (past ⟨9⟩) (now (method .pub .long)) request
      let events := ClassEvent.ofFiles (past ⟨9⟩) (now (method .pub .long)) [⟨7⟩]
      let searched := (s.impact [] events).dependants
      let call := (method .pub .int).callFrom ⟨4⟩
      ((IdSet.single ⟨"D.java"⟩ : PathSet).has (SourcePath.mk "D.java").components = true ∨
          ⟨5⟩ ∉ searched ∨ s.Sheltered events call ⟨5⟩) ∧
        (⟨5⟩ ∉ searched → (past ⟨9⟩).fileOf.get? ⟨4⟩ = (past ⟨9⟩).fileOf.get? ⟨5⟩) ∧
        (s.Sheltered events call ⟨5⟩ →
          s.isAffected (s.impact [] events) ⟨5⟩ call = .ok false) := by
  have hrebuilt : Graph.empty.integrate ((build "D.java").round names).1
    ((build "D.java").round names).2.onRebuild = .ok (names, past ⟨9⟩) := rfl
  have houtcome : (compareInOrder names (past ⟨9⟩) (now (method .pub .long)) .empty request
    [⟨7⟩]).outcome = .ok (.incremental (.single ⟨"D.java"⟩)) := rfl
  have hchanged := changed ⟨9⟩ (m := method .pub .long) (IdSet.mem_toList.1 (by decide))
    (by decide)
  exact ⟨houtcome, compareInOrder_retypedMethod (oneFile names _) hrebuilt houtcome hchanged
    retyped (by decide) called (by decide) fun _ hgone => absurd hgone List.not_mem_nil⟩

/-- The caller in the file of the class through which it calls is not affected. -/
theorem beside_not_affected :
    (Project.empty.after names (build "K.java")).OneFile ∧
      Graph.empty.integrate ((build "K.java").round names).1
        ((build "K.java").round names).2.onRebuild = .ok (names, past ⟨8⟩) ∧
      (compareInOrder names (past ⟨8⟩) (now (method .pub .long)) .empty request [⟨7⟩]).outcome =
        .ok (.incremental .empty) ∧
      .changed (change (method .pub .long)) ∈
        ClassEvent.ofFiles (past ⟨8⟩) (now (method .pub .long)) [⟨7⟩] ∧
      RetypedMethod (change (method .pub .long)) (method .pub .int) (method .pub .long) ∧
      (method .pub .long).access = (method .pub .int).access ∧
      ⟨4⟩ ∈ (Scene.of names (past ⟨8⟩) (now (method .pub .long)) request).updated.inheriting
        (.method (method .pub .int).key) ⟨3⟩ ∧
      (past ⟨8⟩).HeldBy names ((method .pub .int).callFrom ⟨4⟩) ⟨5⟩ ⟨"K.java"⟩ ∧
      request.compiled.any (SourcePath.mk "K.java").sameAs = false ∧ request.removed = [] ∧
      (IdSet.empty : PathSet).has (SourcePath.mk "K.java").components = false :=
  ⟨oneFile names _, rfl, rfl, changed ⟨8⟩ (IdSet.mem_toList.1 (by decide)) (by decide), retyped,
    rfl, by decide, ⟨⟨⟨8⟩, by decide, rfl⟩, caller, by decide, IdSet.mem_toList.1 (by decide)⟩,
    by decide, rfl, rfl⟩

end CalledBelow

end ClassImpact

import ClassImpact.Proofs.Narrowing

/-!
# Callers of narrowed methods

A changed method is searched for by the calls of it, through its class and through the classes
that inherit it.  A change that confines the method, because it became local to its package or
protected, also puts a limit on these calls: those of the package do not count where they stand
in a class that inherits.  When the method became private there is no limit.

So whatever way a method is narrowed, the callers that lose sight of it are affected.

## Main results

* `MethodChange.searchesCalls_of_narrowsTo`: a narrowed method is searched for by its calls
* `Scene.only_changedClass_calls`: the limits that a changed class puts on calls
* `compareInOrder_narrowedMethod`: the callers that lose sight of a method are affected
-/

namespace ClassImpact

/-- A usage is the call of a method. -/
def Usage.IsCall : Usage → Prop
  | .call .. => True
  | _ => False

/-! ## Changes that search for calls -/

namespace MethodChange

variable {d : MethodChange}

/-- A change of a method for which the calls of it are searched. -/
def searchesCalls (d : MethodChange) : Bool :=
  d.confines || d.base.typeOrSignature || d.throwsMore ||
    (d.base.access && (d.base.added.hasAny [.static, .priv] || d.base.removed.has .static))

/-- A method that fewer classes see is searched for by its calls, whatever else changed. -/
theorem searchesCalls_of_narrowsTo (h : d.base.past.NarrowsTo d.base.now) :
    d.searchesCalls = true := by
  have haccess := Revision.access_of_narrowsTo h
  rcases Revision.cases_of_narrowsTo h with hhides | hlocalizes | hprotects
  · simp [searchesCalls, haccess, Access.hasAny, hhides.added]
  · simp [searchesCalls, confines, hlocalizes.becameLocal]
  · cases hretyped : d.base.typeOrSignature || d.throwsMore with
    | true =>
      rw [Bool.or_eq_true] at hretyped
      rcases hretyped with htype | hthrows <;> simp [searchesCalls, *]
    | false =>
      cases hflips : d.base.added.hasAny [.static, .priv] || d.base.removed.has .static with
      | true => simp [searchesCalls, haccess, hflips]
      | false =>
        simp [searchesCalls, confines, haccess, hretyped, hflips, hprotects.added,
          hprotects.notPrivate]

/-- What searches for calls is a change that is looked at. -/
theorem looked_at_of_searchesCalls (h : d.searchesCalls = true) :
    (d.base.isEmpty && !d.throwsMore) = false := by
  by_contra hempty
  simp only [Bool.not_eq_false, Bool.and_eq_true, Bool.not_eq_true', Revision.isEmpty,
    Bool.not_eq_true', Bool.or_eq_false_iff] at hempty
  obtain ⟨⟨⟨⟨⟨⟨haccess, htype⟩, -⟩, hsignature⟩, -⟩, -⟩, hthrows⟩ := hempty
  have hsame := Revision.has_of_same_access haccess
  simp [searchesCalls, confines, Revision.becamePackageLocal, Revision.typeOrSignature,
    Access.hasAny, hsame, haccess, htype, hsignature, hthrows] at h

theorem looked_at_of_confines (h : d.confines = true) :
    (d.base.isEmpty && !d.throwsMore) = false :=
  looked_at_of_searchesCalls (by simp [searchesCalls, h])

/-- The calls of a method that became private are searched under no limit. -/
theorem not_toClass_of_confines (h : d.base.past.NarrowsTo d.base.now)
    (hconfines : d.confines = true) : d.base.now.visibility ≠ .toClass := by
  intro hclass
  have hhides := Revision.hides_of_toClass h hclass
  simp [confines, hhides.notLocal, Access.hasAny, hhides.added] at hconfines

end MethodChange

namespace Scene

open Impact

variable {s : Scene} {c : ClassInfo} {change : Changed ClassInfo ClassChange}

/-- The calls of a method, under the limit to those that do not inherit within the package. -/
def confinedCalls (s : Scene) (c : ClassInfo) (m : MethodInfo) : Impact :=
  s.uses m.callFrom c.name (s.updated.inheriting (.method m.key) c.name) ++
    limited (s.callsOf c m) (Residency.noInheritorOf s.names c.name)

theorem exists_revisedMethod_of_confines {m : MethodInfo} {d : MethodChange}
    (h : d.confines = true) :
    ∃ a b, s.revisedMethod c m d = a ++ s.confinedCalls c m ++ b := by
  unfold revisedMethod
  dsimp only
  cases hlocal : d.base.becamePackageLocal with
  | true => exact ⟨none, _, congrArg (· ++ _) (none_append (s.confinedCalls c m)).symm⟩
  | false =>
    simp only [MethodChange.confines, hlocal, Bool.false_or, Bool.and_eq_true, Bool.not_eq_true']
      at h
    obtain ⟨⟨⟨hretyped, haccess⟩, hflips⟩, hprotected, hprivate⟩ := h
    refine ⟨onlyIf (d.base.added.hasAny [.final, .pub, .abstract]) (s.subclasses c.name false),
      none, ?_⟩
    rw [append_none, hretyped, haccess, hflips, hprotected, hprivate]
    exact none_append _

theorem partOf_revisedMethod {m : MethodInfo} {d : MethodChange} (h : d.searchesCalls = true) :
    (s.uses m.callFrom c.name (s.updated.inheriting (.method m.key) c.name)).PartOf
      (s.revisedMethod c m d) := by
  cases hconfines : d.confines with
  | true =>
    obtain ⟨a, b, heq⟩ := exists_revisedMethod_of_confines (s := s) (c := c) (m := m) hconfines
    rw [heq]
    exact ((partOf_append_left _ _).trans (partOf_append_right a (s.confinedCalls c m))).trans
      (partOf_append_left _ b)
  | false =>
    -- no limit: the calls are searched as those of a method that is not local to its package
    have hlocal : d.base.becamePackageLocal = false := by
      simpa using (Bool.or_eq_false_iff.1 hconfines).1
    unfold revisedMethod
    dsimp only
    rw [hlocal]
    refine PartOf.trans ?_ (partOf_append_right _ _)
    cases hretyped : d.base.typeOrSignature || d.throwsMore with
    | true => exact partOf_append_left _ _
    | false =>
      have hflips : (d.base.access && (d.base.added.hasAny [.static, .priv] ||
          d.base.removed.has .static)) = true := by
        simpa [MethodChange.searchesCalls, hconfines, Bool.or_eq_false_iff.1 hretyped] using h
      obtain ⟨haccess, hflips⟩ := Bool.and_eq_true_iff.1 hflips
      rw [haccess, hflips]
      exact partOf_append_left _ _

theorem changedMethod_eq (hplain : c.isAnnotationType = false)
    {e : Changed MethodInfo MethodChange}
    (h : (e.diff.base.isEmpty && !e.diff.throwsMore) = false) :
    s.changedMethod c e = s.revisedMethod c e.past e.diff := by
  rw [changedMethod, hplain, h]
  rfl

/-- The calls of a method whose change searches for them. -/
theorem partOf_calls (hplain : change.past.isAnnotationType = false)
    {e : Changed MethodInfo MethodChange} (he : e ∈ change.diff.methods.changed)
    (h : e.diff.searchesCalls = true) :
    (s.uses e.past.callFrom change.past.name
      (s.updated.inheriting (.method e.past.key) change.past.name)).PartOf
        (s.changedClass change) := by
  have hrevised := changedMethod_eq (s := s) hplain (MethodChange.looked_at_of_searchesCalls h)
  have hmethods : (s.changedMethod change.past e).PartOf
      (s.methods change.past change.diff.methods) :=
    (partOf_loop he _).trans (partOf_append_right _ _)
  have hclass : (s.methods change.past change.diff.methods).PartOf (s.changedClass change) :=
    partOf_all (by simp)
  rw [hrevised] at hmethods
  exact ((partOf_revisedMethod h).trans hmethods).trans hclass

/-! ## Limits on calls -/

/-- A change of a class puts a limit on a call: it confines a method that is called so. -/
def Confines (s : Scene) (change : Changed ClassInfo ClassChange) (u : Usage) : Prop :=
  change.past.isAnnotationType = false ∧
    ∃ e ∈ change.diff.methods.changed, e.diff.confines = true ∧ u ∈ s.callsOf change.past e.past

/-- The limits on calls are those of confined methods. -/
theorem only_changedClass_calls :
    (s.changedClass change).Only (fun _ => True) fun u r =>
      u.IsCall → s.Confines change u ∧
        Residency.noInheritorOf s.names change.past.name = .ok r := by
  have hP : ∀ u : Usage, ¬ u.OfField → True := fun _ _ => trivial
  refine only_changedClass hP (only_changedModifiers hP fun _ hmention => hmention.elim)
    (only_methods hP fun hplain e he hconfines r hr u hu _ => ?_)
    (only_fields (fun _ _ _ _ => ⟨trivial, fun _ hread => hread.elim⟩) (fun _ _ _ => trivial)
      fun e _ => only_changedField (fun _ _ => trivial) fun _ => ?_)
  · exact ⟨⟨hplain, e, he, hconfines, hu⟩, hr⟩
  · exact only_narrowedField (fun _ _ => ⟨trivial, fun _ _ hwrite => hwrite.elim⟩)
      fun _ _ _ => ⟨trivial, fun _ _ hread => hread.elim⟩

end Scene

/-! ## Methods of a changed class -/

/-- A method that a change keeps under a narrower access. -/
structure NarrowedMethod (change : Changed ClassInfo ClassChange) (m m' : MethodInfo) : Prop where
  plain : change.past.isAnnotationType = false
  kept : Patch.Kept change.past.methods change.now.methods m m'
  narrows : m.access.NarrowsTo m'.access

namespace NarrowedMethod

variable {change : Changed ClassInfo ClassChange} {m m' : MethodInfo}

theorem mem_changed (h : NarrowedMethod change m m')
    (hdiff : change.diff = .between change.past change.now) :
    ⟨m, m', .between m m'⟩ ∈ change.diff.methods.changed := by
  have haccess : (MethodChange.between m m').base.access = true :=
    Revision.access_of_narrowsTo h.narrows
  rw [hdiff]
  exact h.kept.mem_changed (by simp [MethodChange.isEmpty, Revision.isEmpty, haccess])

/-- A limit that a round leaves on a call of the method holds where sight of it is lost: it is
the one that the method's own change sets. -/
theorem limit_holds (h : NarrowedMethod change m m')
    (hdiff : change.diff = .between change.past change.now) {s : Scene}
    {removed : List SourcePath} {events : List ClassEvent}
    (honly : ClassEvent.OnlyChange change events) {x d : Symbol} {r : Residency}
    (hlimit : (s.impact removed events).limitOn? (m.callFrom x) = some r)
    (hloses : s.LosesSight m'.access change.past.name d) :
    r.holds s.updated d ≠ .ok false := by
  have hlimits : (s.impact removed events).Only (fun _ => True) fun u r => u.IsCall →
      s.Confines change u ∧ Residency.noInheritorOf s.names change.past.name = .ok r :=
    Scene.only_impact (fun _ _ => trivial) fun other hother =>
      honly.unique other hother ▸ Scene.only_changedClass_calls
  obtain ⟨⟨-, e, he, hconfines, hcall⟩, hr⟩ := hlimits.of_limitOn? hlimit trivial
  -- methods with the same calls have the same key
  obtain ⟨y, -, hcall⟩ := List.mem_map.1 hcall
  simp only [MethodInfo.callFrom, Usage.call.injEq] at hcall
  have hkey : e.past.key = m.key := by
    rw [MethodInfo.key, MethodInfo.key, hcall.1, hcall.2.2.1]
  rw [hdiff] at he
  rw [h.kept.eq_of_mem_changed he hkey] at hconfines
  have hvisible := MethodChange.not_toClass_of_confines h.narrows hconfines
  exact Scene.holds_of_apart (hloses.apart hvisible) (.inl hr)

end NarrowedMethod

/-! ## Comparisons -/

section

variable {names : NameTable} {main round : Graph} {log : ChangeLog} {q : RoundRequest}
  {files : List Symbol} {affected : PathSet} {change : Changed ClassInfo ClassChange}
  {m m' : MethodInfo} {x d : Symbol} {path : SourcePath}

/-- **Callers that lose sight of a method**: when the only changed class of a round narrows the
access of a method, whatever else changes in it, then a recorded user that calls the method
through the class or through one that inherits it, and no longer sees it, is affected. -/
theorem compareInOrder_narrowedMethod
    (h : (compareInOrder names main round log q files).outcome = .ok (.incremental affected))
    (honly : ClassEvent.OnlyChange change (ClassEvent.ofFiles main round files))
    (hm : NarrowedMethod change m m')
    (hx : x ∈ change.past.name ::
      (Scene.of names main round q).updated.inheriting (.method m.key) change.past.name)
    (hdependant : d ∈ main.dependantsOf x) (hd : main.HeldBy names (m.callFrom x) d path)
    (hloses : (Scene.of names main round q).LosesSight m'.access change.past.name d)
    (hcompiled : q.compiled.any path.sameAs = false)
    (hremoved : ∀ gone ∈ q.removed, gone.components ≠ path.components) :
    affected.has path.components = true := by
  have hdiff := ClassEvent.diff_of_mem honly.mem
  have hpart := Scene.partOf_calls (s := Scene.of names main round q) hm.plain
    (hm.mem_changed hdiff) (MethodChange.searchesCalls_of_narrowsTo hm.narrows)
  have hfound := Scene.affected_or_left_out_of_uses h honly.mem hpart hx hdependant hd hcompiled
    hremoved
  apply hfound.resolve_right
  rintro ⟨r, hlimit, hfalse⟩
  exact hm.limit_holds hdiff honly hlimit hloses hfalse

end

/-! ## A method that becomes protected

A class inherits a public method of a base class in another package, and a third class calls the
method through it.  The base class is compiled again, with the method protected. -/

namespace CalledBelow

def names : NameTable :=
  NameTable.new.internAll ["java/lang/Object", "<init>", "p/A", "q/K", "q/D", "m", "A.java",
    "K.java", "D.java", "p/A.class", "q/K.class", "q/D.class"]

def method (access : Flag) (returns : Primitive) : MethodInfo :=
  ⟨⟨6⟩, .ofFlags [access], [], .primitive returns, none, [], none⟩

/-- A class of the example, read from a class file. -/
def info (name classFile super : Symbol) : ClassInfo :=
  { ClassInfo.plain name (.ofFlags [.pub]) (.named super) with classFile := classFile }

def base (m : MethodInfo) : ClassInfo := (info ⟨3⟩ ⟨10⟩ ⟨1⟩).withMethod m

def heir : ClassInfo := { info ⟨4⟩ ⟨11⟩ ⟨3⟩ with usages := .single (.mention ⟨3⟩) }

def caller : ClassInfo :=
  { info ⟨5⟩ ⟨12⟩ ⟨1⟩ with
    usages := .ofList [.mention ⟨4⟩, (method .pub .int).callFrom ⟨4⟩] }

/-- The project, with the caller in some file. -/
def past (file : Symbol) : Graph :=
  ((Graph.empty.record ⟨7⟩ (base (method .pub .int))).record ⟨8⟩ heir).record file caller

/-- The base class is compiled again with another method. -/
def now (m : MethodInfo) : Graph := Graph.empty.record ⟨7⟩ (base m)

def change (m : MethodInfo) : Changed ClassInfo ClassChange :=
  ⟨base (method .pub .int), base m, .between (base (method .pub .int)) (base m)⟩

def request : RoundRequest where
  removed := []
  files := [⟨"A.java"⟩]
  compiled := [⟨"A.java"⟩]
  accepts _ := true
  resolver := none
  waiting := .onlyArrived

theorem changed (file : Symbol) {m : MethodInfo}
    (hpast : base (method .pub .int) ∈ (past file).classesIn.valuesOf ⟨7⟩)
    (hfull : (change m).diff.isEmpty = false) :
    .changed (change m) ∈ ClassEvent.ofFiles (past file) (now m) [⟨7⟩] :=
  ClassEvent.mem_ofFiles.2 ⟨⟨7⟩, List.mem_singleton_self _, ClassEvent.mem_ofFile_changed.2
    ⟨hpast, IdSet.mem_toList.1 (List.mem_singleton_self _), rfl, rfl, hfull⟩⟩

theorem narrowed : NarrowedMethod (change (method .prot .int)) (method .pub .int)
    (method .prot .int) where
  plain := rfl
  kept := .of_nodup (by decide) (by decide) (by simp [change, base, ClassInfo.withMethod])
    (by simp [change, base, ClassInfo.withMethod]) rfl
  narrows := by decide

theorem called : (past ⟨9⟩).HeldBy names ((method .pub .int).callFrom ⟨4⟩) ⟨5⟩
    ⟨"D.java"⟩ where
  file := ⟨⟨9⟩, by decide, rfl⟩
  usage := ⟨caller, by decide, IdSet.mem_toList.1 (by decide)⟩

/-- The caller stands in another package and does not inherit: it no longer sees the method. -/
theorem loses_sight :
    (Scene.of names (past ⟨9⟩) (now (method .prot .int)) request).LosesSight
      (method .prot .int).access ⟨3⟩ ⟨5⟩ :=
  ⟨NameTable.apart_of_ne "p" "q" rfl rfl (by decide), by decide⟩

theorem only_narrowed :
    ClassEvent.OnlyChange (change (method .prot .int))
      (ClassEvent.ofFiles (past ⟨9⟩) (now (method .prot .int)) [⟨7⟩]) where
  mem := changed ⟨9⟩ (IdSet.mem_toList.1 (by decide)) (by decide)
  unique other h := by
    have hevents : ClassEvent.ofFiles (past ⟨9⟩) (now (method .prot .int)) [⟨7⟩] =
      [.changed (change (method .prot .int))] := rfl
    rw [hevents, List.mem_singleton] at h
    exact ClassEvent.changed.inj h

theorem caller_affected :
    (compareInOrder names (past ⟨9⟩) (now (method .prot .int)) .empty request [⟨7⟩]).outcome =
        .ok (.incremental (.single ⟨"D.java"⟩)) ∧
      NarrowedMethod (change (method .prot .int)) (method .pub .int) (method .prot .int) ∧
      (IdSet.single ⟨"D.java"⟩ : PathSet).has (SourcePath.mk "D.java").components = true := by
  have houtcome : (compareInOrder names (past ⟨9⟩) (now (method .prot .int)) .empty request
    [⟨7⟩]).outcome = .ok (.incremental (.single ⟨"D.java"⟩)) := rfl
  refine ⟨houtcome, narrowed, ?_⟩
  exact compareInOrder_narrowedMethod (x := ⟨4⟩) houtcome only_narrowed narrowed (by decide)
    (by decide) called loses_sight (by decide) fun _ hgone => absurd hgone List.not_mem_nil

end CalledBelow

end ClassImpact

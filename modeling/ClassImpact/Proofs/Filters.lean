import ClassImpact.Proofs.Outcomes

/-!
# Filters and compiled files

A request says which files may be drawn in, and which files were compiled already.  The first
is asked about where a change is widened, the second where a class is searched, and neither
is looked at by anything else.

So a wider filter leaves an impact as it is but for more files; its questions, what it
searches for, and the place where it stops are the same.  A file that was not compiled after
all can only be found in the search as well.

## Main results

* `Scene.grows_impact`: the impact of a round under a wider filter
* `compareInOrder_within`: the answer under a wider filter, with fewer compiled files
-/

namespace ClassImpact

/-- An answer within another: everything has to be rebuilt in both, or in neither, and then
what is affected in the one is affected in the other. -/
inductive Propagation.Within : Propagation → Propagation → Prop
  | incremental {p p' : PathSet} (h : ∀ k, p.has k = true → p'.has k = true) :
    Within (.incremental p) (.incremental p')
  | fullRebuild : Within .fullRebuild .fullRebuild

/-! ## Impacts that grow -/

namespace Impact

/-- One impact is another, but for more files that it draws in. -/
structure Grows (a b : Impact) : Prop where
  sought : a.sought = b.sought
  requests : a.requests = b.requests
  files : a.files ⊆ b.files

variable {a b a' b' : Impact}

theorem Grows.refl (a : Impact) : a.Grows a := ⟨rfl, rfl, List.Subset.refl _⟩

theorem Grows.stop (h : a.Grows b) : a.stop = b.stop :=
  show a.sought.stop = b.sought.stop from congrArg Impact.stop h.sought

theorem grows_ofFiles {files files' : List SourcePath} (h : files ⊆ files') :
    (ofFiles files).Grows (ofFiles files') :=
  ⟨rfl, rfl, h⟩

theorem Grows.append (h : a.Grows b) (h' : a'.Grows b') : (a ++ a').Grows (b ++ b') := by
  cases hstop : a.stop with
  | some stop =>
    rw [append_of_stop hstop, append_of_stop (h.stop.symm.trans hstop)]
    exact h
  | none =>
    have hstop' : b.stop = .none := h.stop.symm.trans hstop
    refine ⟨?_, ?_, fun path hpath => ?_⟩
    · rw [sought_append, sought_append, h.sought, h'.sought]
    · rw [requests_append hstop, requests_append hstop', h.requests, h'.requests]
    · have hor := (brings_append (b := a') hstop (.file path)).1 hpath
      exact (brings_append (b := b') hstop' (.file path)).2
        (hor.imp (h.files ·) (h'.files ·))

theorem Grows.onlyIf (condition : Bool) (h : a.Grows b) :
    (onlyIf condition a).Grows (onlyIf condition b) :=
  onlyIf_related (.refl none) fun _ => h

theorem grows_loop {α : Type} {l : List α} {f g : α → Impact} (h : ∀ x ∈ l, (f x).Grows (g x)) :
    (all (l.map f)).Grows (all (l.map g)) := by
  induction l with
  | nil => exact .refl none
  | cons x l ih =>
    obtain ⟨hx, hl⟩ := List.forall_mem_cons.1 h
    exact hx.append (ih hl)

theorem grows_ofResult {α : Type} {r : Except Fault α} {f g : α → Impact}
    (h : ∀ x, (f x).Grows (g x)) : (ofResult r f).Grows (ofResult r g) := by
  cases r with
  | ok x => exact h x
  | error fault => exact .refl (ofFault fault)

end Impact

/-! ## The rules under a wider filter -/

namespace Scene

/-- The same scene, with another filter. -/
def accepting (s : Scene) (accepts : SourcePath → Bool) : Scene := { s with accepts := accepts }

@[simp] theorem main_accepting (s : Scene) (accepts : SourcePath → Bool) :
    (s.accepting accepts).main = s.main := rfl

@[simp] theorem names_accepting (s : Scene) (accepts : SourcePath → Bool) :
    (s.accepting accepts).names = s.names := rfl

section

open Impact

variable {s : Scene} {accepts : SourcePath → Bool}
  (hwider : ∀ path, s.accepts path = true → accepts path = true)

include hwider

theorem grows_acceptedFile (f : Symbol) :
    (s.acceptedFile f).Grows ((s.accepting accepts).acceptedFile f) := by
  refine grows_ofResult fun text => ?_
  show Grows _ (if accepts ⟨text⟩ = true then ofFiles [⟨text⟩] else Impact.none)
  by_cases htext : s.accepts ⟨text⟩ = true
  · rw [if_pos htext, if_pos (hwider _ htext)]
    exact .refl _
  · rw [if_neg htext]
    split
    · exact grows_ofFiles (List.nil_subset _)
    · exact .refl none

omit hwider in
theorem grows_onFileOf {draw draw' : Symbol → Impact} (hdraw : ∀ f, (draw f).Grows (draw' f))
    (c : Symbol) : (s.onFileOf draw c).Grows ((s.accepting accepts).onFileOf draw' c) := by
  unfold onFileOf
  rw [main_accepting]
  cases s.main.fileOf.get? c with
  | none => exact .refl none
  | some f => exact hdraw f

theorem grows_acceptedFileOfClass (c : Symbol) :
    (s.acceptedFileOfClass c).Grows ((s.accepting accepts).acceptedFileOfClass c) :=
  grows_onFileOf (grows_acceptedFile hwider) c

theorem grows_packageFiles (c : Symbol) :
    (s.packageFiles c).Grows ((s.accepting accepts).packageFiles c) := by
  refine grows_ofResult fun package => grows_loop fun e _ => grows_ofResult fun p => ?_
  by_cases hp : p = package
  · rw [if_pos hp, if_pos hp]
    exact grows_acceptedFile hwider e.2
  · rw [if_neg hp, if_neg hp]
    exact .refl none

/-- **A widened change**: whether it is unbounded is a matter of the field's access alone. -/
theorem grows_widen (owner : Symbol) (access : Access) (field : Option Symbol) (c : Symbol) :
    (s.widen owner access field c).Grows ((s.accepting accepts).widen owner access field c) := by
  unfold widen
  cases access.isPublic with
  | true => exact .refl _
  | false =>
    refine .append (.onlyIf _ (grows_loop fun d _ => ?_)) (grows_packageFiles hwider c)
    exact grows_acceptedFileOfClass hwider d

theorem grows_constant (c : ClassInfo) (f : FieldInfo) (removed accessChanged : Bool) :
    (s.constant c f removed accessChanged).Grows
      ((s.accepting accepts).constant c f removed accessChanged) := by
  unfold constant
  show Grows _ (if s.canAsk then _ else _)
  by_cases hask : s.canAsk = true
  · rw [if_pos hask, if_pos hask]
    exact .refl _
  · rw [if_neg hask, if_neg hask]
    exact grows_widen hwider c.name f.access (some f.name) c.name

theorem grows_widenAnnotation (c : ClassInfo) :
    (s.widenAnnotation c).Grows (Scene.widenAnnotation (s.accepting accepts) c) :=
  grows_widen hwider _ c.access none c.name

theorem grows_removedField (c : ClassInfo) (f : FieldInfo) :
    (s.removedField c f).Grows ((s.accepting accepts).removedField c f) :=
  ((grows_constant hwider c f true false).onlyIf _).append (.refl (s.reads c f))

theorem grows_changedField (c : ClassInfo) (change : Changed FieldInfo Revision) :
    (s.changedField c change).Grows ((s.accepting accepts).changedField c change) :=
  ((grows_constant hwider c change.past false _).onlyIf _).append (.refl _)

theorem grows_fields (c : ClassInfo) (p : Patch FieldInfo Revision) :
    (s.fields c p).Grows ((s.accepting accepts).fields c p) :=
  ((Grows.refl (all (p.added.map (s.addedField c)))).append
    (grows_loop fun f _ => grows_removedField hwider c f)).append
      (grows_loop fun change _ => grows_changedField hwider c change)

theorem grows_changedAnnotation (c : ClassInfo) (d : ClassChange) :
    (s.changedAnnotation c d).Grows (Scene.changedAnnotation (s.accepting accepts) c d) := by
  refine .onlyIf _ ?_
  by_cases hretention : d.retention = true
  · rw [if_pos hretention, if_pos hretention]
    exact .refl _
  · rw [if_neg hretention, if_neg hretention]
    have hwiden := grows_widenAnnotation hwider c
    exact ((hwiden.onlyIf _).append (.refl _)).append (.refl _)

/-- What a changed class brings about: only its constants and what is widened about an
annotation type ask the filter. -/
theorem grows_changedClass (change : Changed ClassInfo ClassChange) :
    (s.changedClass change).Grows ((s.accepting accepts).changedClass change) := by
  have hsource : (s.sourceAnnotation change.past change.now).Grows
      (Scene.sourceAnnotation (s.accepting accepts) change.past change.now) := by
    have hwiden := grows_widenAnnotation hwider change.past
    exact hwiden.onlyIf _
  have hannotated := grows_changedAnnotation hwider change.past change.diff
  have hfields := grows_fields hwider change.past change.diff.fields
  exact (Grows.refl _).append ((Grows.refl _).append ((Grows.refl _).append (hsource.append
    ((Grows.refl _).append (hannotated.append ((Grows.refl _).append
      (hfields.append (.refl none))))))))

theorem grows_event (e : ClassEvent) : (s.event e).Grows ((s.accepting accepts).event e) := by
  cases e with
  | changed change => exact grows_changedClass hwider change
  | removed c => exact .refl (s.removedClass c)
  | added c => exact grows_loop fun d _ => grows_acceptedFileOfClass hwider d

theorem grows_disappearedClass (c : Symbol) :
    (s.disappearedClass c).Grows ((s.accepting accepts).disappearedClass c) :=
  grows_onFileOf (fun _ => grows_loop fun d _ =>
    grows_onFileOf (fun other => (grows_acceptedFile hwider other).onlyIf _) d) c

theorem grows_removedFile (file : SourcePath) :
    (s.removedFile file).Grows ((s.accepting accepts).removedFile file) := by
  unfold removedFile
  rw [names_accepting, main_accepting]
  cases s.names.lookup file.text with
  | none => exact .refl none
  | some f => exact grows_loop fun c _ => grows_disappearedClass hwider c.name

/-- **The impact of a round under a wider filter**: the same, but for more files. -/
theorem grows_impact (removed : List SourcePath) (events : List ClassEvent) :
    (s.impact removed events).Grows ((s.accepting accepts).impact removed events) :=
  (grows_loop fun file _ => grows_removedFile hwider file).append
    (grows_loop fun e _ => grows_event hwider e)

end

/-! ## The answer under a wider filter -/

variable {s : Scene} {a b : Impact} {accepts : SourcePath → Bool}
  {compiled compiled' removed : List SourcePath} {answer : ConstantRequest → ConstantAnswer}

theorem Named.accepting (hn : s.Named) (accepts : SourcePath → Bool) :
    (s.accepting accepts).Named :=
  ⟨hn.classes, hn.files, hn.past, hn.round⟩

/-- What is found with more compiled files is found with fewer as well. -/
theorem reaches_fewer (hab : a.sought = b.sought)
    (hfewer : ∀ path : SourcePath, compiled'.any path.sameAs = true →
      compiled.any path.sameAs = true) {k : List Component}
    (h : s.Reaches a compiled a.limitOn? k) :
    (s.accepting accepts).Reaches b compiled' b.limitOn? k := by
  obtain ⟨c, hc, f, text, d, hf, htext, hk, hcompiled, hd, hhit⟩ := (reaches_of_sought hab k).1 h
  refine ⟨c, hc, f, text, d, hf, htext, hk, ?_, hd, hhit⟩
  rw [← Bool.not_eq_true] at hcompiled ⊢
  exact fun hany => hcompiled (hfewer _ hany)

/-- The reply to a question draws in more under a wider filter. -/
theorem draws_wider (hwider : ∀ path, s.accepts path = true → accepts path = true)
    {k : List Component} {r : ConstantRequest} (h : s.Draws answer k r) :
    (s.accepting accepts).Draws answer k r := by
  unfold Draws at h ⊢
  cases hanswer : answer r with
  | known files =>
    rw [hanswer] at h
    exact h
  | unknown =>
    rw [hanswer] at h
    obtain ⟨path, hpath, hk⟩ := h
    exact ⟨path, (grows_widen hwider ..).files hpath, hk⟩

/-- **The answer under a wider filter and with fewer compiled files** stands around the
other one. -/
theorem conclude_within (hn : s.Named)
    (hwider : ∀ path, s.accepts path = true → accepts path = true)
    (hfewer : ∀ path : SourcePath, compiled'.any path.sameAs = true →
      compiled.any path.sameAs = true)
    (hab : a.Grows b) (hfault : a.Faultless)
    (hfaults : a.stop = none → ∀ r ∈ a.requests, (s.widening r).Faultless) :
    BothOk Propagation.Within (s.conclude a compiled removed answer)
      ((s.accepting accepts).conclude b compiled' removed answer) := by
  have hn' := hn.accepting accepts
  -- a question asks the same under every filter, and is widened to the same end
  have hwiden : ∀ r, ((s.accepting accepts).widening r).stop = (s.widening r).stop := fun r =>
    (grows_widen hwider r.owner r.field.access (some r.field.name) r.owner).stop.symm
  have hopens : (s.accepting accepts).OpenEnded b answer ↔ s.OpenEnded a answer := by
    unfold OpenEnded
    rw [hab.stop, hab.requests]
    simp only [hwiden]
  have hfault' : b.Faultless := by
    unfold Impact.Faultless
    rw [← hab.stop]
    exact hfault
  have hfaults' : b.stop = none → ∀ r ∈ b.requests,
      ((s.accepting accepts).widening r).Faultless := by
    rw [← hab.stop, ← hab.requests]
    intro hnone r hr
    rw [Impact.Faultless, hwiden]
    exact hfaults hnone r hr
  by_cases hopen : s.OpenEnded a answer
  · rw [conclude_of_openEnded hn hfaults hopen,
      conclude_of_openEnded hn' hfaults' (hopens.2 hopen)]
    exact .ok .fullRebuild
  · obtain ⟨hstop, hbounded⟩ := settled_of_not_openEnded hfault hfaults hopen
    obtain ⟨hstop', hbounded'⟩ := settled_of_not_openEnded hfault' hfaults' fun h =>
      hopen (hopens.1 h)
    obtain ⟨p, hp, hpk⟩ := conclude_asked hn hstop answer hbounded compiled removed
    obtain ⟨p', hp', hpk'⟩ := conclude_asked hn' hstop' answer hbounded' compiled' removed
    rw [hp, hp']
    refine .ok (.incremental fun k hk => ?_)
    obtain ⟨hdrawn, hkept⟩ := (hpk k).1 hk
    refine (hpk' k).2 ⟨?_, hkept⟩
    rcases hdrawn with (⟨path, hpath, he⟩ | hreached) | ⟨r, hr, hdraws⟩
    · exact .inl (.inl ⟨path, hab.files hpath, he⟩)
    · exact .inl (.inr (reaches_fewer hab.sought hfewer hreached))
    · exact .inr ⟨r, hab.requests ▸ hr, draws_wider hwider hdraws⟩

end Scene

/-! ## Comparisons -/

section

variable {names : NameTable} {main round : Graph} {log : ChangeLog} {q : RoundRequest}

/-- **Filters and compiled files are monotone**: under a wider filter, and with fewer compiled
files, everything has to be rebuilt when it had to be before, and no affected file is lost. -/
theorem compareInOrder_within (hnames : names.Covers main round) (files : List Symbol)
    {accepts : SourcePath → Bool} {compiled : List SourcePath}
    (hwider : ∀ path, q.accepts path = true → accepts path = true)
    (hfewer : ∀ path : SourcePath, compiled.any path.sameAs = true →
      q.compiled.any path.sameAs = true) :
    BothOk Propagation.Within (compareInOrder names main round log q files).outcome
      (compareInOrder names main round log
        { q with accepts := accepts, compiled := compiled } files).outcome := by
  have hcovers : (Scene.of names main round q).names.Covers main round := hnames.keyNames
  obtain ⟨hfault, hfaults⟩ := Scene.faultless_impact (s := Scene.of names main round q) hcovers
    q.removed files
  exact Scene.conclude_within (s := Scene.of names main round q) hcovers.named hwider hfewer
    (Scene.grows_impact hwider q.removed _) hfault hfaults

end

/-! ## A filter that draws nothing in

A class loses a field and the value of a protected constant changes.  The reader of the field
is searched for, the other file of the package is drawn in; a request whose filter accepts
nothing, and for which the reader was compiled already, finds neither of them. -/

namespace NarrowRequest

def names : NameTable :=
  NameTable.new.internAll
    ["java/lang/Object", "<init>", "p/C", "p/D", "q/E", "C.java", "D.java", "E.java", "V", "w"]

def constant (value : Int64) : FieldInfo :=
  ⟨⟨9⟩, .ofFlags [.prot, .static, .final], .primitive .int, none, some (.int value)⟩

def counter : FieldInfo := ⟨⟨10⟩, .ofFlags [.pub], .primitive .int, none, none⟩

def plain (name : Symbol) : ClassInfo := .plain name (.ofFlags [.pub]) (.named ⟨1⟩)

def reader : ClassInfo := { plain ⟨5⟩ with usages := .single (counter.readFrom ⟨3⟩) }

def past : Graph :=
  ((Graph.empty.record ⟨6⟩ (((plain ⟨3⟩).withField (constant 1)).withField counter)).record
    ⟨7⟩ (plain ⟨4⟩)).record ⟨8⟩ reader

def now : Graph := Graph.empty.record ⟨6⟩ ((plain ⟨3⟩).withField (constant 2))

/-- A request with some filter and some compiled files. -/
def request (accepts : SourcePath → Bool) (compiled : List SourcePath) : RoundRequest where
  removed := []
  files := [⟨"C.java"⟩]
  compiled := compiled
  accepts := accepts
  resolver := none
  waiting := .untilAnswered

def narrow : RoundRequest := request (fun _ => false) [⟨"C.java"⟩, ⟨"E.java"⟩]

def wide : RoundRequest := request (fun path => !path.sameAs ⟨"C.java"⟩) [⟨"C.java"⟩]

theorem covers : names.Covers past now := ⟨by decide, by decide, by decide⟩

theorem narrow_affects :
    (compareInOrder names past now .empty narrow [⟨6⟩]).outcome = .ok (.incremental .empty) := rfl

theorem wide_affects :
    (compareInOrder names past now .empty wide [⟨6⟩]).outcome =
      .ok (.incremental (.ofList [⟨"D.java"⟩, ⟨"E.java"⟩])) := rfl

/-- Nothing is affected for the narrow request, and both other files are for the wide one. -/
theorem narrow_within_wide :
    names.Covers past now ∧
      (∀ path, narrow.accepts path = true → wide.accepts path = true) ∧
      (∀ path : SourcePath, wide.compiled.any path.sameAs = true →
        narrow.compiled.any path.sameAs = true) ∧
      (compareInOrder names past now .empty narrow [⟨6⟩]).outcome = .ok (.incremental .empty) ∧
      (compareInOrder names past now .empty wide [⟨6⟩]).outcome =
        .ok (.incremental (.ofList [⟨"D.java"⟩, ⟨"E.java"⟩])) ∧
      BothOk Propagation.Within (compareInOrder names past now .empty narrow [⟨6⟩]).outcome
        (compareInOrder names past now .empty wide [⟨6⟩]).outcome := by
  have hwider : ∀ path, narrow.accepts path = true → wide.accepts path = true := fun _ h => by
    simp [narrow, request] at h
  have hfewer : ∀ path : SourcePath, wide.compiled.any path.sameAs = true →
      narrow.compiled.any path.sameAs = true := fun path h => by
    simp_all [narrow, wide, request]
  exact ⟨covers, hwider, hfewer, narrow_affects, wide_affects,
    compareInOrder_within covers [⟨6⟩] hwider hfewer⟩

end NarrowRequest

end ClassImpact

import ClassImpact.Proofs.RemovedFiles

/-!
# Files that were compiled

The search of a round passes over the files that were compiled already.  It is the only part of
a comparison that looks at them: a rule that draws a file in does not, nor does a reply.

So a compiled file is affected exactly when a rule or a reply draws it in.  A filter that
refuses the compiled files keeps most of the rules from doing so.  It does not keep a changed
class from drawing in its own file, or the files of classes below it.

## Main results

* `Scene.has_search_iff_of_compiled`: the search leaves compiled files as they are
* `compareInOrder_compiled`: the compiled files in an answer
-/

namespace ClassImpact

/-! ## Impacts that draw in accepted files only -/

namespace Impact

variable {P : SourcePath → Prop} {a b : Impact}

/-- Every file that is drawn in has a property. -/
def FilesAll (P : SourcePath → Prop) (a : Impact) : Prop := ∀ path ∈ a.files, P path

theorem filesAll_none : none.FilesAll P := fun _ hpath => absurd hpath List.not_mem_nil

theorem FilesAll.append (ha : a.FilesAll P) (hb : b.FilesAll P) : (a ++ b).FilesAll P := by
  intro path hpath
  cases hstop : a.stop with
  | some stop =>
    rw [append_of_stop hstop] at hpath
    exact ha path hpath
  | none => exact ((brings_append hstop (.file path)).1 hpath).elim (ha path) (hb path)

theorem FilesAll.onlyIf (condition : Bool) (ha : a.FilesAll P) :
    (onlyIf condition a).FilesAll P :=
  onlyIf_induction filesAll_none fun _ => ha

theorem filesAll_loop {α : Type} {l : List α} {f : α → Impact} (h : ∀ x ∈ l, (f x).FilesAll P) :
    (all (l.map f)).FilesAll P :=
  all_induction filesAll_none .append (List.forall_mem_map.2 h)

theorem filesAll_ofResult {α : Type} {r : Except Fault α} {f : α → Impact}
    (h : ∀ x, (f x).FilesAll P) : (ofResult r f).FilesAll P := by
  cases r with
  | ok x => exact h x
  | error fault => exact filesAll_none

/-- The file of a path is drawn in. -/
def DrawsIn (a : Impact) (k : List Component) : Prop := ∃ path ∈ a.files, path.components = k

theorem drawsIn_append {k : List Component} (h : a.stop = .none) :
    (a ++ b).DrawsIn k ↔ a.DrawsIn k ∨ b.DrawsIn k := by
  have happend := fun path => brings_append (b := b) h (.file path)
  simp only [Brings] at happend
  simp only [DrawsIn, happend, or_and_right, exists_or]

theorem drawsIn_loop {α : Type} {l : List α} {f : α → Impact} {k : List Component}
    (h : (all (l.map f)).stop = .none) :
    (all (l.map f)).DrawsIn k ↔ ∃ x ∈ l, (f x).DrawsIn k := by
  induction l with
  | nil => simp [DrawsIn, none]
  | cons x l ih =>
    obtain ⟨hx, hl⟩ := stop_append.1 h
    rw [List.map_cons, all_cons, drawsIn_append hx, ih hl, List.exists_mem_cons_iff]

end Impact

namespace Scene

open Impact

variable {s : Scene} {a : Impact} {compiled removed : List SourcePath} {affected p : PathSet}
  {answer : ConstantRequest → ConstantAnswer} {path : SourcePath} {k : List Component}

/-- Every file that an impact draws in may be drawn in. -/
def Filtered (s : Scene) (a : Impact) : Prop := a.FilesAll fun path => s.accepts path = true

theorem filtered_acceptedFile (f : Symbol) : s.Filtered (s.acceptedFile f) :=
  fun _ hpath => (of_mem_acceptedFile hpath).1

theorem filtered_onFileOf {draw : Symbol → Impact} (hdraw : ∀ f, s.Filtered (draw f))
    (c : Symbol) : s.Filtered (s.onFileOf draw c) := by
  unfold onFileOf
  cases s.main.fileOf.get? c with
  | none => exact filesAll_none
  | some f => exact hdraw f

theorem filtered_acceptedFileOfClass (c : Symbol) : s.Filtered (s.acceptedFileOfClass c) :=
  filtered_onFileOf filtered_acceptedFile c

theorem filtered_packageFiles (c : Symbol) : s.Filtered (s.packageFiles c) := by
  refine filesAll_ofResult fun package => filesAll_loop fun e _ => filesAll_ofResult fun p => ?_
  split
  · exact filtered_acceptedFile e.2
  · exact filesAll_none

theorem filtered_widening (r : ConstantRequest) : s.Filtered (s.widening r) := by
  unfold widening widen
  split
  · exact filesAll_none
  · refine .append (.onlyIf _ (filesAll_loop fun d _ => ?_)) (filtered_packageFiles r.owner)
    exact filtered_acceptedFileOfClass d

/-- The loss of a file draws in accepted files. -/
theorem filtered_removedFile (file : SourcePath) : s.Filtered (s.removedFile file) := by
  unfold removedFile
  cases s.names.lookup file.text with
  | none => exact filesAll_none
  | some f =>
    exact filesAll_loop fun c _ => filtered_onFileOf (fun g => filesAll_loop fun d _ =>
      filtered_onFileOf (fun other => .onlyIf _ (filtered_acceptedFile other)) d) c.name

/-- Of the events, only the change of a class draws in files without asking the filter. -/
theorem filtered_event (e : ClassEvent) (h : ∀ change, e ≠ .changed change) :
    s.Filtered (s.event e) := by
  cases e with
  | changed change => exact absurd rfl (h change)
  | removed c => exact .append filesAll_none filesAll_none
  | added c => exact filesAll_loop fun d _ => filtered_acceptedFileOfClass d

/-! ## The search -/

/-- The search of a class adds no file that was compiled. -/
theorem has_of_searchOne_of_compiled (hpath : path ∈ compiled) {c : Symbol}
    (h : s.searchOne a compiled affected c = .ok p) (hp : p.has path.components = true) :
    affected.has path.components = true := by
  rcases searchOne_cases h with rfl | ⟨found, hfound, rfl⟩
  · exact hp
  · refine ((IdSet.has_add ..).1 hp).resolve_right fun he => ?_
    -- the file that was found is the compiled one
    have hsame : found.sameAs path = true := decide_eq_true he
    have hany : compiled.any found.sameAs = true := List.any_eq_true.2 ⟨path, hpath, hsame⟩
    simp [hfound] at hany

/-- **The search leaves compiled files as they are**: it takes none away and adds none. -/
theorem has_search_iff_of_compiled (hpath : path ∈ compiled) {classes : List Symbol}
    (h : s.search a compiled classes affected = .ok p) :
    p.has path.components = true ↔ affected.has path.components = true := by
  refine ⟨?_, has_of_search h⟩
  exact foldlM_invariant
    (P := fun p : PathSet => p.has path.components = true → affected.has path.components = true)
    (fun _ _ _ hstep ih hp => ih (has_of_searchOne_of_compiled hpath hstep hp)) h id

/-! ## The replies -/

/-- What a reply draws in beyond accepted files is named in it. -/
theorem known_of_draws {r : ConstantRequest} (h : s.Draws answer k r)
    (hrefused : ∀ path : SourcePath, path.components = k → s.accepts path = false) :
    ∃ known, answer r = .known known ∧ known.has k = true := by
  unfold Draws at h
  cases hr : answer r with
  | known known =>
    rw [hr] at h
    exact ⟨known, rfl, h⟩
  | unknown =>
    rw [hr] at h
    obtain ⟨path, hpath, hk⟩ := h
    have haccepts := filtered_widening r path hpath
    simp [hrefused path hk] at haccepts

/-! ## The answer -/

/-- **Compiled files in the answer of an impact**: those that are drawn in, and those of the
replies, without those that were removed. -/
theorem has_conclude_iff_of_compiled (hpath : path ∈ compiled)
    (h : s.conclude a compiled removed answer = .ok (.incremental affected)) :
    affected.has path.components = true ↔
      (a.DrawsIn path.components ∨ ∃ r ∈ a.requests, s.Draws answer path.components r) ∧
        ∀ gone ∈ removed, gone.components ≠ path.components := by
  obtain ⟨searched, hsearched, hsettled⟩ := exists_settled h
  rw [hsettled, has_search_iff_of_compiled hpath hsearched, IdSet.has_ofList]
  rfl

end Scene

/-! ## Comparisons -/

section

variable {names : NameTable} {main round : Graph} {log : ChangeLog} {q : RoundRequest}

/-- **Compiled files in an answer**: one is affected exactly when a removed file, an event or a
reply draws it in, and it was not removed itself.  Where the filter refuses it, a removed file
and a new class do not; the change of a class may, and a reply that names it. -/
theorem compareInOrder_compiled {files : List Symbol} {affected : PathSet} {path : SourcePath}
    (h : (compareInOrder names main round log q files).outcome = .ok (.incremental affected))
    (hpath : path ∈ q.compiled) :
    let s := Scene.of names main round q
    let events := ClassEvent.ofFiles main round files
    let requests := (compareInOrder names main round log q files).requests
    (affected.has path.components = true ↔
      ((∃ gone ∈ q.removed, (s.removedFile gone).DrawsIn path.components) ∨
        (∃ e ∈ events, (s.event e).DrawsIn path.components) ∨
        ∃ r ∈ requests, s.Draws q.answer path.components r) ∧
      ∀ gone ∈ q.removed, gone.components ≠ path.components) ∧
    ((∀ drawn : SourcePath, drawn.components = path.components → q.accepts drawn = false) →
      affected.has path.components = true →
        (∃ change, .changed change ∈ events ∧
          (s.changedClass change).DrawsIn path.components) ∨
        ∃ r ∈ requests, ∃ known, q.answer r = .known known ∧
          known.has path.components = true) := by
  intro s events requests
  have hstop : (s.impact q.removed events).stop = none := Scene.stop_of_conclude h
  obtain ⟨hremoved, hevents⟩ := Impact.stop_append.1 hstop
  have haffected := Scene.has_conclude_iff_of_compiled hpath h
  have hdrawn : (s.impact q.removed events).DrawsIn path.components ↔
      (∃ gone ∈ q.removed, (s.removedFile gone).DrawsIn path.components) ∨
        ∃ e ∈ events, (s.event e).DrawsIn path.components := by
    rw [Scene.impact, Impact.drawsIn_append hremoved, Impact.drawsIn_loop hremoved,
      Impact.drawsIn_loop hevents]
  rw [hdrawn, or_assoc] at haffected
  refine ⟨haffected, fun hrefused hk => ?_⟩
  -- what asks the filter is out
  have hfiltered : ∀ {a : Impact}, s.Filtered a → ¬ a.DrawsIn path.components := by
    intro a ha hdraws
    obtain ⟨drawn, hmem, he⟩ := hdraws
    have haccepts : q.accepts drawn = true := ha drawn hmem
    simp [hrefused drawn he] at haccepts
  rcases (haffected.1 hk).1 with ⟨gone, -, hgone⟩ | ⟨e, he, hevent⟩ | ⟨r, hr, hdraws⟩
  · exact absurd hgone (hfiltered (Scene.filtered_removedFile gone))
  · left
    by_cases hchanged : ∃ change, e = .changed change
    · obtain ⟨change, rfl⟩ := hchanged
      exact ⟨change, he, hevent⟩
    · refine absurd hevent (hfiltered (Scene.filtered_event e fun change hc => ?_))
      exact hchanged ⟨change, hc⟩
  · exact .inr ⟨r, hr, Scene.known_of_draws hdraws hrefused⟩

end

/-! ## A changed class and its user

The class of one file gets another superclass, and the class of another file mentions it.  Both
files were compiled.  The search passes over the user, and the change draws in the file of the
class itself. -/

namespace Rebased

def names : NameTable :=
  NameTable.new.internAll
    ["java/lang/Object", "<init>", "p/A", "p/User", "A.java", "User.java", "p/Base"]

/-- The class of the example, below another one. -/
def info (super : Symbol) : ClassInfo := .plain ⟨3⟩ (.ofFlags [.pub]) (.named super)

def user : ClassInfo :=
  { ClassInfo.plain ⟨4⟩ (.ofFlags [.pub]) (.named ⟨1⟩) with usages := .single (.mention ⟨3⟩) }

def past : Graph := (Graph.empty.record ⟨5⟩ (info ⟨7⟩)).record ⟨6⟩ user

def now : Graph := (Graph.empty.record ⟨5⟩ (info ⟨1⟩)).record ⟨6⟩ user

def request (compiled : List SourcePath) : RoundRequest where
  removed := []
  files := [⟨"A.java"⟩, ⟨"User.java"⟩]
  compiled := compiled
  accepts _ := true
  resolver := none
  waiting := .onlyArrived

def compared (compiled : List SourcePath) : Comparison :=
  compareInOrder names past now .empty (request compiled) [⟨5⟩, ⟨6⟩]

def both : List SourcePath := [⟨"A.java"⟩, ⟨"User.java"⟩]

/-- The only file that the events of the example draw in. -/
theorem drawn_in : ∀ e ∈ ClassEvent.ofFiles past now [⟨5⟩, ⟨6⟩],
    ∀ drawn ∈ ((Scene.of names past now (request both)).event e).files, drawn = ⟨"A.java"⟩ := by
  decide

/-- The user is found when it was not compiled, and passed over when it was. -/
theorem user_spared :
    (compared [⟨"A.java"⟩]).outcome =
      .ok (.incremental ((IdSet.single ⟨"A.java"⟩).add ⟨"User.java"⟩)) ∧
    (compared both).outcome = .ok (.incremental (.single ⟨"A.java"⟩)) ∧
      ⟨"User.java"⟩ ∈ both ∧
      (IdSet.single ⟨"A.java"⟩ : PathSet).has (SourcePath.mk "User.java").components ≠ true := by
  have houtcome : (compared both).outcome = .ok (.incremental (.single ⟨"A.java"⟩)) := rfl
  have huser : ⟨"User.java"⟩ ∈ both := by decide
  refine ⟨rfl, houtcome, huser, fun hk => ?_⟩
  rcases ((compareInOrder_compiled houtcome huser).1.1 hk).1 with
    ⟨gone, hgone, -⟩ | ⟨e, he, drawn, hmem, hdrawn⟩ | ⟨r, hr, -⟩
  · exact absurd hgone List.not_mem_nil
  · rw [drawn_in e he drawn hmem] at hdrawn
    exact absurd hdrawn (by decide)
  · exact absurd hr List.not_mem_nil

/-- The file of the changed class was compiled, and it is affected. -/
theorem changed_reported :
    (compared both).outcome = .ok (.incremental (.single ⟨"A.java"⟩)) ∧
      ⟨"A.java"⟩ ∈ both ∧
      (IdSet.single ⟨"A.java"⟩ : PathSet).has (SourcePath.mk "A.java").components = true :=
  ⟨rfl, by decide, by decide⟩

end Rebased

end ClassImpact

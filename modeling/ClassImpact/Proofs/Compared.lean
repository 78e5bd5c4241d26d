import Mathlib
import ClassImpact.Proofs.Builds
import ClassImpact.Proofs.Noted

/-!
# Comparisons that bound their changes

A comparison that asks for no rebuild has looked at every event of its round, whether
or not anyone asked what the round affects.  So the log that the merge reads is the same
in both modes, and depends on the two graphs alone.
-/

namespace ClassImpact

namespace Impact

theorem stop_append {a b : Impact} : (a ++ b).stop = .none ↔ a.stop = .none ∧ b.stop = .none := by
  rw [append_def, andThen]
  cases h : a.stop <;> simp [h]

theorem stop_all {l : List Impact} : (all l).stop = .none ↔ ∀ a ∈ l, a.stop = .none := by
  induction l with
  | nil => simp [none]
  | cons a l ih => rw [all_cons, stop_append, ih, List.forall_mem_cons]

/-- What impacts keep when they are put together holds of a list of them. -/
theorem all_induction {P : Impact → Prop} (hnone : P none)
    (happend : ∀ {a b}, P a → P b → P (a ++ b)) {l : List Impact} (h : ∀ a ∈ l, P a) :
    P (all l) := by
  induction l with
  | nil => exact hnone
  | cons a l ih =>
    obtain ⟨ha, hl⟩ := List.forall_mem_cons.1 h
    exact happend ha (ih hl)

/-- Impacts under one condition are related when both of them are, and nothing to nothing. -/
theorem onlyIf_related {R : Impact → Impact → Prop} {condition : Bool} {a b : Impact}
    (hnone : R none none) (h : condition = true → R a b) :
    R (onlyIf condition a) (onlyIf condition b) := by
  cases condition with
  | true => exact h rfl
  | false => exact hnone

theorem onlyIf_induction {P : Impact → Prop} {condition : Bool} {a : Impact} (hnone : P none)
    (h : condition = true → P a) : P (onlyIf condition a) :=
  onlyIf_related (R := fun a _ => P a) (b := a) hnone h

end Impact

namespace Scene

variable {s : Scene}

theorem handled_of_stop {events : List ClassEvent} (h : ∀ e ∈ events, (s.event e).stop = none) :
    s.handled events = events := by
  induction events with
  | nil => rfl
  | cons e events ih =>
    obtain ⟨he, h⟩ := List.forall_mem_cons.1 h
    simp [handled, he, ih h]

/-- Where nothing stops, every event is looked at. -/
theorem lookedAt_of_stop {removed : List SourcePath} {events : List ClassEvent}
    (h : (s.impact removed events).stop = none) : s.lookedAt removed events = events := by
  obtain ⟨hr, he⟩ := Impact.stop_append.1 h
  rw [lookedAt, hr]
  simp only [Option.isSome_none, Bool.false_eq_true, if_false]
  refine handled_of_stop fun e hmem => ?_
  exact Impact.stop_all.1 he _ (List.mem_map.2 ⟨e, hmem, rfl⟩)

theorem stop_of_conclude {a : Impact} {compiled removed : List SourcePath}
    {answer : ConstantRequest → ConstantAnswer} {affected : PathSet}
    (h : s.conclude a compiled removed answer = .ok (.incremental affected)) : a.stop = none := by
  cases hs : a.stop with
  | none => rfl
  | some stop => cases stop <;> simp [conclude, hs, Stop.outcome] at h

end Scene

theorem log_compareRound {names : NameTable} {main round : Graph} {log : ChangeLog}
    {q : RoundRequest} {affected : PathSet}
    (h : (compareRound names main round log q).outcome = .ok (.incremental affected)) :
    (compareRound names main round log q).log = noteRound main round log := by
  have hstop := Scene.stop_of_conclude h
  simp only [compareRound, compareInOrder, noteRound, Scene.lookedAt_of_stop hstop]

/-! ## The log of a whole round -/

section

variable {main round : Graph}

theorem mem_events_iff {e : ClassEvent} :
    e ∈ ClassEvent.ofFiles main round round.classesIn.keys ↔
      ∃ f, round.classesIn.has f = true ∧ e ∈ ClassEvent.ofFile main round f := by
  simp only [ClassEvent.mem_ofFiles, Table.mem_keys]

/-- What the log of a round shows is what the events of the compiled files add. -/
theorem shows_noteRound {P : ChangeLog → Prop} {Q : ClassEvent → Prop}
    (hnote : ∀ l e, P (l.note main round e) ↔ P l ∨ Q e) (hempty : ¬ P .empty) :
    P (noteRound main round .empty) ↔
      ∃ f, round.classesIn.has f = true ∧ ∃ e ∈ ClassEvent.ofFile main round f, Q e := by
  rw [noteRound, ChangeLog.shows_noteAll hnote, or_iff_right hempty]
  simp only [mem_events_iff]
  constructor
  · rintro ⟨e, ⟨f, hf, he⟩, hadds⟩
    exact ⟨f, hf, e, he, hadds⟩
  · rintro ⟨f, hf, e, he, hadds⟩
    exact ⟨e, ⟨f, hf, he⟩, hadds⟩

theorem mem_changedClasses_noteRound {n : Symbol} :
    n ∈ (noteRound main round .empty).changedClasses ↔
      ∃ f, round.classesIn.has f = true ∧
        ∃ e ∈ ClassEvent.ofFile main round f, e.restates = true ∧ e.className = n :=
  shows_noteRound (P := fun l => n ∈ l.changedClasses)
    (fun _ _ => ChangeLog.mem_changedClasses_note) (IdSet.notMem_empty n)

theorem mem_changedFiles_noteRound {f : Symbol} :
    f ∈ (noteRound main round .empty).changedFiles ↔
      ∃ file, round.classesIn.has file = true ∧
        ∃ e ∈ ClassEvent.ofFile main round file, e.file? main round = some f :=
  shows_noteRound (P := fun l => f ∈ l.changedFiles)
    (fun _ _ => ChangeLog.mem_changedFiles_note) (IdSet.notMem_empty f)

/-- A class is deleted when a compiled file lost it and no file of the round has it. -/
theorem has_deletedClasses_noteRound {n : Symbol} :
    (noteRound main round .empty).deletedClasses.has n = true ↔
      round.fileOf.has n = false ∧ ∃ f, round.classesIn.has f = true ∧
        (main.classesIn.valuesOf f).has n = true ∧
          (round.classesIn.valuesOf f).has n = false := by
  rw [shows_noteRound (P := fun l => l.deletedClasses.has n = true)
    (fun _ _ => ChangeLog.has_deletedClasses_note) (by simp [ChangeLog.empty])]
  constructor
  · rintro ⟨f, hf, e, he, hn, c, rfl, rfl⟩
    obtain ⟨hc, hr⟩ := ClassEvent.mem_ofFile_removed.1 he
    exact ⟨hn, f, hf, IdSet.has_of_mem hc, hr⟩
  · rintro ⟨hn, f, hf, hlisted, hr⟩
    obtain ⟨c, hc, rfl⟩ := IdSet.has_iff_mem.1 hlisted
    exact ⟨f, hf, .removed c, ClassEvent.mem_ofFile_removed.2 ⟨hc, hr⟩, hn, c, rfl, rfl⟩

theorem of_mem_deletedClasses_noteRound {c : ClassInfo}
    (h : c ∈ (noteRound main round .empty).deletedClasses) :
    ∃ f, round.classesIn.has f = true ∧ c ∈ main.classesIn.valuesOf f ∧
      (round.classesIn.valuesOf f).has c.name = false := by
  rcases ChangeLog.removed_of_mem_deletedClasses h with h | h
  · exact absurd h (IdSet.notMem_empty c)
  · obtain ⟨f, hf, he⟩ := mem_events_iff.1 h
    exact ⟨f, hf, ClassEvent.mem_ofFile_removed.1 he⟩

end

theorem within_internKeyNames (names : NameTable) :
    names.Within (internKeyNames names).2.2 :=
  (NameTable.within_intern _ _).trans (NameTable.within_intern _ _)

namespace Round

/-- What a comparison leaves that succeeds and asks for no rebuild. -/
inductive Bounded (names : NameTable) (main : Graph) (r : Round)
    (removed files : List SourcePath) : NameTable → Round → Prop where
  | easily {names' : NameTable} {r' : Round}
      (h : r.compareEasily names main removed files = (names', r')) :
      Bounded names main r removed files names' r'
  | fully {names' : NameTable} {r' : Round} {c : Comparison} {affected : PathSet}
      (q : RoundRequest) (hremoved : q.removed = removed) (hfiles : q.files = files)
      (h : r.compareFully names main q = (names', r', c))
      (hbounded : c.outcome = .ok (.incremental affected)) :
      Bounded names main r removed files names' r'

variable {names names' : NameTable} {main : Graph} {r r' : Round} {removed files : List SourcePath}

/-- **One log for both modes**: a bounded comparison notes every event of the round. -/
theorem Bounded.eq (h : r.Bounded names main removed files names' r') :
    names' = (internKeyNames (r.prepare names removed files).1).2.2 ∧
      r' = { (r.prepare names removed files).2 with
        log := noteRound main (r.prepare names removed files).2.graph
          (r.prepare names removed files).2.log } := by
  cases h with
  | easily h =>
    cases h
    exact ⟨rfl, rfl⟩
  | fully q hremoved hfiles h hbounded =>
    subst hremoved hfiles
    cases h
    exact ⟨rfl, congrArg (fun log => { (r.prepare names q.removed q.files).2 with log := log })
      (log_compareRound hbounded)⟩

/-- A bounded comparison is followed by a merge of the round. -/
theorem Bounded.integrate {main' : Graph} (h : r.Bounded names main removed files names' r') :
    main'.integrate names' r' = .ok (names', main'.mergeRound names' r') := by
  obtain ⟨rfl, rfl⟩ := h.eq
  rfl

end Round

namespace Build

/-- The round of a build as a comparison leaves it that notes every event. -/
def comparedRound (t : NameTable) (main : Graph) (b : Build) : Round :=
  { Round.new with
    graph := b.graph t
    log := noteRound main (b.graph t) .empty
    removedFiles := b.removed
    differentiated := true }

@[simp] theorem graph_comparedRound (t : NameTable) (main : Graph) (b : Build) :
    (b.comparedRound t main).graph = b.graph t := rfl

/-- The round of a build after a bounded comparison. -/
theorem bounded_round {names names' : NameTable} {main : Graph} {b : Build} {r : Round}
    (h : (b.round names).2.Bounded (b.round names).1 main b.removed b.files names' r) :
    names.Within names' ∧ r =
      { Round.new with
        graph := b.graph names'
        log := noteRound main (b.graph names') .empty
        removedFiles := b.removed
        differentiated := true } := by
  obtain ⟨hnames, hr⟩ := h.eq
  have hw := within_internKeyNames
    ((b.round names).2.prepare (b.round names).1 b.removed b.files).1
  rw [← hnames] at hw
  obtain ⟨hw, hprep⟩ := prepare_round names b hw
  refine ⟨hw, ?_⟩
  rw [hr, hprep]
  rfl

end Build

end ClassImpact

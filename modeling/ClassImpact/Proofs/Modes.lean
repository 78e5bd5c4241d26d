import Mathlib
import ClassImpact.Workspace
import ClassImpact.Proofs.Impacts

/-!
# One log for every mode of comparison

A comparison goes through the events of its round one by one.  Each event is noted in the
log, and then its impact is worked out, unless nobody asked for it.  A stop ends the pass.

The log of a pass is always the notes of the first events, as many as were looked at.
Neither the filter, nor the compiled files, nor the answers about constants decide what an
event notes; all that they could do is to end the pass earlier.  So a comparison that asks
for no rebuild leaves the round, and the workspace, as an easy comparison does.

## Main results

* `compareInOrder_eq_pass`: a comparison against its pass, event by event
* `compareInOrder_log_take`: the log of any comparison
* `Workspace.compareEasily_of_incremental`: an incremental comparison against an easy one
-/

namespace ClassImpact

/-- What a comparison has noted so far, and what the events so far bring about. -/
structure Pass where
  log : ChangeLog
  impact : Impact

namespace Scene

variable {s : Scene}

/-- One event of a pass: it is noted, and its impact comes behind the others. -/
def passEvent (s : Scene) (p : Pass) (e : ClassEvent) : Pass :=
  if p.impact.stop.isSome then p
  else ⟨p.log.note s.main s.round e, p.impact ++ s.event e⟩

/-- A list of events, one after the other. -/
def pass (s : Scene) (p : Pass) (events : List ClassEvent) : Pass := events.foldl s.passEvent p

theorem pass_of_stop {p : Pass} {stop : Stop} (h : p.impact.stop = some stop)
    (events : List ClassEvent) : s.pass p events = p := by
  induction events with
  | nil => rfl
  | cons e events ih =>
    have hstep : s.passEvent p e = p := by simp [passEvent, h]
    rw [pass, List.foldl_cons, hstep, ← pass, ih]

/-- A pass that has not stopped notes the events that are handled, and brings about what
the events bring about together. -/
theorem pass_of_none {p : Pass} (h : p.impact.stop = none) (events : List ClassEvent) :
    s.pass p events =
      ⟨p.log.noteAll s.main s.round (s.handled events),
        p.impact ++ .all (events.map s.event)⟩ := by
  induction events generalizing p with
  | nil => simp [pass, handled, ChangeLog.noteAll]
  | cons e events ih =>
    have hstep : s.passEvent p e = ⟨p.log.note s.main s.round e, p.impact ++ s.event e⟩ := by
      simp [passEvent, h]
    rw [pass, List.foldl_cons, hstep, ← pass, handled, List.map_cons, Impact.all_cons,
      ← Impact.append_assoc]
    have happend := Impact.stop_append_of_none h (s.event e)
    cases he : (s.event e).stop with
    | some stop =>
      -- the event is the last one that is handled
      rw [pass_of_stop (happend.trans he), Impact.append_of_stop (happend.trans he)]
      simp [ChangeLog.noteAll]
    | none =>
      rw [ih (happend.trans he)]
      simp [ChangeLog.noteAll]

/-- **The pass of a comparison**, which starts with what the removed files bring about. -/
theorem pass_eq (removed : List SourcePath) (log : ChangeLog) (events : List ClassEvent) :
    s.pass ⟨log, .all (removed.map s.removedFile)⟩ events =
      ⟨log.noteAll s.main s.round (s.lookedAt removed events), s.impact removed events⟩ := by
  cases h : (Impact.all (removed.map s.removedFile)).stop with
  | some stop =>
    rw [pass_of_stop h, impact, Impact.append_of_stop h, lookedAt, h]
    rfl
  | none =>
    rw [pass_of_none h, impact, lookedAt, h]
    rfl

theorem handled_prefix (events : List ClassEvent) : s.handled events <+: events := by
  induction events with
  | nil => exact List.prefix_refl []
  | cons e events ih =>
    rw [handled, List.prefix_cons_inj]
    split
    · exact List.nil_prefix
    · exact ih

theorem lookedAt_prefix (removed : List SourcePath) (events : List ClassEvent) :
    s.lookedAt removed events <+: events := by
  rw [lookedAt]
  split
  · exact List.nil_prefix
  · exact handled_prefix events

end Scene

/-! ## The log of a comparison -/

section

variable {names : NameTable} {main round : Graph} {log : ChangeLog} {q : RoundRequest}

/-- A comparison is concluded from a single pass over the events of its round. -/
theorem compareInOrder_eq_pass (files : List Symbol) :
    let s := Scene.of names main round q
    let p := s.pass ⟨log, .all (q.removed.map s.removedFile)⟩
      (ClassEvent.ofFiles main round files)
    compareInOrder names main round log q files =
      ⟨s.conclude p.impact q.compiled q.removed q.answer, p.log, p.impact.requests⟩ := by
  dsimp only
  rw [Scene.pass_eq]
  rfl

/-- A comparison notes the first events of its round, whatever is asked of it. -/
theorem compareInOrder_log_take (files : List Symbol) :
    ∃ k, (compareInOrder names main round log q files).log =
      log.noteAll main round ((ClassEvent.ofFiles main round files).take k) :=
  ⟨_, congrArg (log.noteAll main round) (List.prefix_iff_eq_take.1 (Scene.lookedAt_prefix _ _))⟩

/-- A comparison that asks for no rebuild notes every event, in whatever order the files
are visited. -/
theorem log_compareInOrder {files : List Symbol} {affected : PathSet}
    (h : (compareInOrder names main round log q files).outcome = .ok (.incremental affected)) :
    (compareInOrder names main round log q files).log =
      log.noteAll main round (ClassEvent.ofFiles main round files) :=
  congrArg (log.noteAll main round) (Scene.lookedAt_of_stop (Scene.stop_of_conclude h))

end

/-! ## Workspaces -/

/-- A round that reaches no table when it is compared in full reaches none when it is
compared easily. -/
theorem comparisonReaches_none {names names' : NameTable} {removed : List SourcePath}
    {round : Graph} (h : comparisonReaches names removed round = none) :
    comparisonReaches names' [] round = none := by
  simp only [comparisonReaches, ite_eq_left_iff, reduceCtorEq, imp_false, not_not,
    Bool.and_eq_true] at h
  simp [comparisonReaches, Merge.knownFiles, h.2]

namespace Workspace

variable {w w' : Workspace} {o o' : OpenRound} {q : RoundRequest}

/-- Where one operation was not refused, another that reaches a table only if that one
does is not refused either. -/
theorem reach_of_ok {α β : Type} {a : α} {t t' : Option GraphTable} {x : Except Fault α × Workspace}
    (ht : t = none → t' = none) (h : (w.reach t x).1 = .ok a) (y : Except Fault β × Workspace) :
    w.reach t' y = y := by
  cases t with
  | none =>
    rw [ht rfl]
    rfl
  | some t =>
    have hopen : ¬ (w.closed && w.disk.isSome) = true := by
      intro hclosed
      rw [reach, if_pos hclosed] at h
      cases h
    cases t' with
    | none => rfl
    | some t' => rw [reach, if_neg hopen]

/-- What an incremental comparison leaves that succeeds. -/
theorem compareFully_ok {p : Propagation} {requests : List ConstantRequest}
    (h : w.compareFully o q = (.ok (p, requests), o', w')) :
    (o.round.compareFully w.names w.main q).2.2.outcome = .ok p ∧
      o' = { o with round := (o.round.compareFully w.names w.main q).2.1 } ∧
      w' = w.withNames (o.round.compareFully w.names w.main q).1 ∧
      (w'.reach (comparisonReaches w'.names q.removed
        (o.round.prepare w.names q.removed q.files).2.graph) (.ok (), w')).1 = .ok () := by
  simp only [compareFully] at h
  split at h
  · rename_i hreach
    simp only [Prod.mk.injEq] at h
    obtain ⟨hp, rfl, rfl⟩ := h
    refine ⟨?_, rfl, rfl, hreach⟩
    cases hout : (o.round.compareFully w.names w.main q).2.2.outcome with
    | error fault => simp [hout, Except.map] at hp
    | ok p' =>
      simp only [hout, Except.map, Except.ok.injEq, Prod.mk.injEq] at hp
      rw [hp.1]
  · simp at h

/-- **Incremental and easy comparisons lead to the same graph**: an incremental comparison
that asks for no rebuild leaves the round and the workspace that an easy comparison of the
same files leaves, so that both are merged alike.  The log notes every event of the round,
in whatever order the files are visited. -/
theorem compareEasily_of_incremental {affected : PathSet} {requests : List ConstantRequest}
    (h : w.compareFully o q = (.ok (.incremental affected, requests), o', w')) :
    w.compareEasily o q.removed q.files = (.ok (), o', w') ∧
      o'.round.log = noteRound w.main o'.round.graph o.round.log ∧
      ∀ files affected,
        (compareInOrder w'.names w.main o'.round.graph o.round.log q files).outcome =
          .ok (.incremental affected) →
        (compareInOrder w'.names w.main o'.round.graph o.round.log q files).log =
          o.round.log.noteAll w.main o'.round.graph
            (ClassEvent.ofFiles w.main o'.round.graph files) := by
  obtain ⟨houtcome, hround, hspace, hreach⟩ := compareFully_ok h
  have hbounded : o.round.Bounded w.names w.main q.removed q.files
      (o.round.compareFully w.names w.main q).1 (o.round.compareFully w.names w.main q).2.1 :=
    .fully q rfl rfl rfl houtcome
  obtain ⟨hnames, hdone⟩ := hbounded.eq
  have heasy : o.round.compareEasily w.names w.main q.removed q.files =
      ((o.round.compareFully w.names w.main q).1, (o.round.compareFully w.names w.main q).2.1) :=
    Prod.ext hnames.symm hdone.symm
  refine ⟨?_, ?_, fun files affected => log_compareInOrder⟩
  · simp only [compareEasily, heasy]
    rw [← hspace, ← hround, reach_of_ok comparisonReaches_none hreach (.ok (), w')]
  · rw [hround, hdone]
    rfl

end Workspace

/-! ## A constant whose readers are known

A protected constant gets another value.  Its one reader is known to whoever is asked, and
the filter lets no other file be drawn in. -/

namespace KnownReader

def names : NameTable :=
  NameTable.new.internAll ["java/lang/Object", "<init>", "p/C", "C.java", "V"]

/-- The class of the example, with some value of its constant. -/
def info (value : Int64) : ClassInfo :=
  (ClassInfo.plain ⟨3⟩ (.ofFlags [.pub]) (.named ⟨1⟩)).withField
    ⟨⟨5⟩, .ofFlags [.prot, .static, .final], .primitive .int, none, some (.int value)⟩

def space : Workspace :=
  { Workspace.inMemory with names := names, main := Graph.empty.record ⟨4⟩ (info 1) }

/-- The round in which the constant was given its other value. -/
def opened : OpenRound :=
  ⟨{ Round.new with graph := Graph.empty.record ⟨4⟩ (info 2) }, none, false⟩

def request : RoundRequest where
  removed := []
  files := [⟨"C.java"⟩]
  compiled := [⟨"C.java"⟩]
  accepts _ := false
  resolver := some fun _ => .now (.known (.single ⟨"D.java"⟩))
  waiting := .untilAnswered

/-- What an incremental comparison of the round leaves. -/
def compared : Except Fault (Propagation × List ConstantRequest) × OpenRound × Workspace :=
  space.compareFully opened request

theorem compared_eq :
    compared =
      (.ok (.incremental (.single ⟨"D.java"⟩),
        [⟨⟨3⟩, ⟨⟨5⟩, .ofFlags [.prot, .static, .final], .primitive .int, none, some (.int 1)⟩,
          "p.C", "V", false, false⟩]),
        compared.2.1, compared.2.2) := rfl

theorem easily_compared :
    space.compareEasily opened request.removed request.files =
      (.ok (), compared.2.1, compared.2.2) ∧
    compared.2.1.round.log =
      noteRound space.main compared.2.1.round.graph opened.round.log ∧
    ∀ files affected,
      (compareInOrder compared.2.2.names space.main compared.2.1.round.graph opened.round.log
        request files).outcome = .ok (.incremental affected) →
      (compareInOrder compared.2.2.names space.main compared.2.1.round.graph opened.round.log
        request files).log =
        opened.round.log.noteAll space.main compared.2.1.round.graph
          (ClassEvent.ofFiles space.main compared.2.1.round.graph files) :=
  Workspace.compareEasily_of_incremental compared_eq

end KnownReader

end ClassImpact

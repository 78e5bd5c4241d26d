import Mathlib
import ClassImpact.Workspace
import ClassImpact.Proofs.Compared

/-!
# Runs of a workspace

A run is a list of actions on one open workspace: classes and imports reported outside
of any round, flushing, forgetting everything, and whole rounds.  A round starts empty,
takes in reports, is compared in one of three ways, and is merged.  One that fails, or
answers that everything must be rebuilt, is dropped.
-/

namespace ClassImpact

/-- What a compiler reports while a round is open. -/
inductive Report where
  | compiled (output : ClassOutput)
  | imports (note : ImportNote)

/-- How a round is compared. -/
inductive Mode where
  | easily (removed files : List SourcePath)
  | fully (q : RoundRequest)
  | rebuild

/-- An action on a workspace. -/
inductive Action where
  | associate (output : ClassOutput)
  | registerImports (note : ImportNote)
  | flush (memoryOnly : Bool)
  | clean
  | round (reports : List Report) (mode : Mode)

/-- A round in which nothing has been reported, and which is not stored. -/
def OpenRound.fresh : OpenRound := ⟨.new, none, false⟩

namespace Workspace

/-- An open workspace with an empty graph. -/
def fresh (names : NameTable) (disk : Option Disk) : Workspace := ⟨names, .empty, [], false, disk⟩

/-- A round with one report taken in. -/
def report (w : Workspace) (o : OpenRound) : Report → OpenRound × Workspace
  | .compiled x => w.associateIn o x.file x.classFile x.info
  | .imports note => ({ o with round := o.round.registerImports note }, w)

/-- A new round with the given reports. -/
def collect (w : Workspace) (reports : List Report) : OpenRound × Workspace :=
  reports.foldl (fun x report => x.2.report x.1 report) (.fresh, w)

/-- A round that was compared without a fault, unless everything must be rebuilt. -/
def compare? (w : Workspace) (o : OpenRound) : Mode → Option OpenRound × Workspace
  | .easily removed files =>
    match w.compareEasily o removed files with
    | (.ok (), o, w) => (some o, w)
    | (.error _, _, w) => (none, w)
  | .fully q =>
    match w.compareFully o q with
    | (.ok (.incremental _, _), o, w) => (some o, w)
    | (_, _, w) => (none, w)
  | .rebuild => (some { o with round := o.round.onRebuild }, w)

/-- The round of some reports when it is compared and ready to be merged. -/
def compared? (w : Workspace) (reports : List Report) (mode : Mode) :
    Option OpenRound × Workspace :=
  (w.collect reports).2.compare? (w.collect reports).1 mode

/-- The workspace after an action. -/
def act (w : Workspace) : Action → Workspace
  | .associate x => (w.associate x.file x.classFile x.info).2
  | .registerImports note => w.registerImports note
  | .flush memoryOnly => (w.flush memoryOnly).2
  | .clean => w.clean.2
  | .round reports mode =>
    match w.compared? reports mode with
    | (some o, w) => (w.integrate o).2
    | (none, w) => w

/-- The workspace after a run. -/
def run (w : Workspace) (actions : List Action) : Workspace := actions.foldl act w

/-! ## Rounds of a run -/

variable {w w' : Workspace} {o o' : OpenRound}

theorem reach_open {α : Type} (h : w.closed = false) (t : Option GraphTable)
    (x : Except Fault α × Workspace) : w.reach t x = x := by
  cases t <;> simp [reach, h]

theorem reach_withNames {α : Type} (h : w.closed = false) (names : NameTable)
    (t : Option GraphTable) (x : Except Fault α × Workspace) : (w.withNames names).reach t x = x :=
  reach_open (w := w.withNames names) h t x

/-- A workspace with the graph and the openness of another one. -/
structure Alike (w w' : Workspace) : Prop where
  main : w'.main = w.main
  closed : w'.closed = w.closed

theorem Alike.refl (w : Workspace) : w.Alike w := ⟨rfl, rfl⟩

theorem Alike.trans {w₁ w₂ w₃ : Workspace} (h : w₁.Alike w₂) (h' : w₂.Alike w₃) : w₁.Alike w₃ :=
  ⟨h'.main.trans h.main, h'.closed.trans h.closed⟩

theorem alike_withNames (w : Workspace) (names : NameTable) : w.Alike (w.withNames names) :=
  ⟨rfl, rfl⟩

theorem alike_report (w : Workspace) (o : OpenRound) (report : Report) :
    w.Alike (w.report o report).2 := by
  cases report with
  | compiled x => exact ⟨rfl, rfl⟩
  | imports note => exact .refl w

theorem alike_collect (w : Workspace) (reports : List Report) : w.Alike (w.collect reports).2 := by
  have h : ∀ x : OpenRound × Workspace,
      x.2.Alike (reports.foldl (fun x report => x.2.report x.1 report) x).2 := by
    induction reports with
    | nil => exact fun x => .refl _
    | cons report reports ih => exact fun x => (alike_report x.2 x.1 report).trans (ih _)
  exact h (.fresh, w)

/-- An easy comparison in an open workspace. -/
theorem compareEasily_open (h : w.closed = false) (o : OpenRound)
    (removed files : List SourcePath) :
    w.compareEasily o removed files =
      (.ok (), { o with round := (o.round.compareEasily w.names w.main removed files).2 },
        w.withNames (o.round.compareEasily w.names w.main removed files).1) := by
  simp only [compareEasily]
  rw [reach_withNames h]

theorem compareFully_open (h : w.closed = false) (o : OpenRound) (q : RoundRequest) :
    w.compareFully o q =
      ((o.round.compareFully w.names w.main q).2.2.outcome.map fun p =>
          (p, (o.round.compareFully w.names w.main q).2.2.requests),
        { o with round := (o.round.compareFully w.names w.main q).2.1 },
        w.withNames (o.round.compareFully w.names w.main q).1) := by
  simp only [compareFully]
  rw [reach_withNames h]

theorem compare?_easily (h : w.closed = false) (o : OpenRound) (removed files : List SourcePath) :
    w.compare? o (.easily removed files) =
      (some { o with round := (o.round.compareEasily w.names w.main removed files).2 },
        w.withNames (o.round.compareEasily w.names w.main removed files).1) := by
  simp only [compare?, compareEasily_open h]

theorem compare?_fully (h : w.closed = false) (q : RoundRequest) :
    w.compare? o (.fully q) =
      (match (o.round.compareFully w.names w.main q).2.2.outcome with
        | .ok (.incremental _) =>
          some { o with round := (o.round.compareFully w.names w.main q).2.1 }
        | _ => none,
        w.withNames (o.round.compareFully w.names w.main q).1) := by
  simp only [compare?, compareFully_open h]
  cases (o.round.compareFully w.names w.main q).2.2.outcome with
  | error fault => rfl
  | ok p => cases p <;> rfl

theorem alike_compare? (h : w.closed = false) (o : OpenRound) (mode : Mode) :
    w.Alike (w.compare? o mode).2 := by
  cases mode with
  | easily removed files =>
    rw [compare?_easily h]
    exact alike_withNames ..
  | fully q =>
    rw [compare?_fully h]
    exact alike_withNames ..
  | rebuild => exact .refl w

theorem alike_compared? (h : w.closed = false) (reports : List Report) (mode : Mode) :
    w.Alike (w.compared? reports mode).2 := by
  have hc := alike_collect w reports
  exact hc.trans (alike_compare? (hc.closed.trans h) _ mode)

/-- A compared round that replaces the graph, or was compared in a bounded way. -/
theorem compare?_eq_some (h : w.closed = false) {mode : Mode}
    (ho : w.compare? o mode = (some o', w')) :
    o'.round = o.round.onRebuild ∧ w' = w ∨
      ∃ removed files, o.round.Bounded w.names w.main removed files w'.names o'.round := by
  cases mode with
  | easily removed files =>
    rw [compare?_easily h] at ho
    cases ho
    exact .inr ⟨removed, files, .easily rfl⟩
  | fully q =>
    rw [compare?_fully h] at ho
    cases hout : (o.round.compareFully w.names w.main q).2.2.outcome with
    | error fault =>
      rw [hout] at ho
      cases ho
    | ok p =>
      rw [hout] at ho
      cases p with
      | fullRebuild => cases ho
      | incremental affected =>
        cases ho
        exact .inr ⟨q.removed, q.files, .fully q rfl rfl rfl hout⟩
  | rebuild =>
    cases ho
    exact .inl ⟨rfl, rfl⟩

/-- A compared round is merged, with the imports that are left entered. -/
theorem integrate_open (h : w.closed = false) (hd : o.round.differentiated = true) :
    (w.integrate o).2.closed = false ∧ (w.integrate o).2.main =
      w.main.mergeRound (o.round.enterImports w.names).1 (o.round.enterImports w.names).2 := by
  have hi : w.main.integrate w.names o.round =
      .ok ((o.round.enterImports w.names).1,
        w.main.mergeRound (o.round.enterImports w.names).1 (o.round.enterImports w.names).2) := by
    simp [Graph.integrate, hd]
  have hclose : ∀ (w : Workspace) (o : OpenRound), w.Alike (w.closeRound o).2 := by
    intro w o
    unfold closeRound
    split
    · exact .refl w
    · split <;> exact ⟨rfl, rfl⟩
  unfold integrate
  rw [hi]
  dsimp only
  rw [reach_withNames h]
  exact ⟨(hclose _ _).closed.trans h, (hclose _ _).main⟩

end Workspace

end ClassImpact

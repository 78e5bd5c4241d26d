import Mathlib
import ClassImpact.Workspace
import ClassImpact.Proofs.SavedNames
import ClassImpact.Proofs.Snapshots

/-!
# Sessions on one database

The tables of a graph on disk are written at once, and name their classes by symbols.  The names
of the symbols are saved only when somebody flushes to disk, and when the workspace is closed.
Opening the files again therefore finds the tables as they were, and the names of the last save.

* `Session.keepsNames_iff` says when the symbols in the tables keep their meaning over a run:
  exactly when, each time the files are opened again, every name in use has been saved.
* `Session.namesSaved_flush` and `Session.namesSaved_close` are the two ways to get there.
* `Session.keepsSnapshots_of_tidy` carries this over to the snapshots of the graph.
* `LostNames.not_kept` is a run of two operations in which the names are lost.
-/

namespace ClassImpact

/-! ## Operations -/

/-- What can be done with an open round. -/
inductive RoundOperation where
  | record (o : ClassOutput)
  | registerImports (note : ImportNote)
  | compareEasily (removed files : List SourcePath)
  | compareFully (q : RoundRequest)
  | replace
  | integrate
  | close

/-- What can be done with a graph on disk. -/
inductive Operation where
  | intern (names : List String)
  | associate (o : ClassOutput)
  | registerImports (note : ImportNote)
  | flush (memoryOnly : Bool)
  | clean
  | close
  | openRound
  | withRound (i : Nat) (operation : RoundOperation)
  /-- Everything is dropped, and the files are opened again. -/
  | reopen

/-- An operation on an open round; integrating uses the round up. -/
def Workspace.operate (w : Workspace) (o : OpenRound) :
    RoundOperation → Option OpenRound × Workspace
  | .record x =>
    let (o, w) := w.associateIn o x.file x.classFile x.info
    (some o, w)
  | .registerImports note => (some { o with round := o.round.registerImports note }, w)
  | .compareEasily removed files => ((w.compareEasily o removed files).2.map some id)
  | .compareFully q => ((w.compareFully o q).2.map some id)
  | .replace => (some { o with round := o.round.onRebuild }, w)
  | .integrate => (none, (w.integrate o).2)
  | .close => (w.closeRound o).map some id

/-- A workspace and its open rounds. -/
structure Session where
  work : Workspace
  rounds : List OpenRound

namespace Session

/-- The workspace after every round was closed. -/
def dropRounds (s : Session) : Workspace := s.rounds.foldl (fun w o => (w.closeRound o).2) s.work

/-- The session after an operation; the fault of one that is refused is not kept. -/
def perform (s : Session) : Operation → Session
  | .intern names => { s with work := s.work.withNames (s.work.names.internAll names) }
  | .associate o => { s with work := (s.work.associate o.file o.classFile o.info).2 }
  | .registerImports note => { s with work := s.work.registerImports note }
  | .flush memoryOnly => { s with work := (s.work.flush memoryOnly).2 }
  | .clean => { s with work := s.work.clean.2 }
  | .close => { s with work := s.work.close }
  | .openRound =>
    match s.work.createRound with
    | (.ok o, w) => ⟨w, s.rounds ++ [o]⟩
    | (.error _, w) => { s with work := w }
  | .withRound i operation =>
    match s.rounds[i]? with
    | none => s
    | some o =>
      match s.work.operate o operation with
      | (some o, w) => ⟨w, s.rounds.set i o⟩
      | (none, w) => ⟨w, s.rounds.eraseIdx i⟩
  | .reopen => ⟨s.dropRounds.reopen.2, []⟩

/-- The session after a run. -/
def performAll (s : Session) (ops : List Operation) : Session := ops.foldl perform s

/-- Whenever the files are opened again during a run, something holds right before. -/
def AtReopens (P : Session → Prop) : Session → List Operation → Prop
  | _, [] => True
  | s, op :: ops => (op = .reopen → P s) ∧ AtReopens P (s.perform op) ops

end Session

/-! ## Tables that only grow -/

namespace Workspace

variable {w w' w'' : Workspace} {names : NameTable} {l : List String}

/-- What is saved on disk are names of the workspace's own table. -/
def Tidy (w : Workspace) : Prop := ∀ d, w.disk = some d → NameTable.Prefixes d.saved w.names

/-- A workspace some operations later, none of which opened the files again. -/
structure Later (w w' : Workspace) : Prop where
  names : ∃ l, w'.names = w.names.internAll l
  tidy : w.Tidy → w'.Tidy

theorem Later.refl (w : Workspace) : w.Later w := ⟨⟨[], rfl⟩, id⟩

theorem Later.trans (h : w.Later w') (h' : w'.Later w'') : w.Later w'' := by
  obtain ⟨l, hl⟩ := h.names
  obtain ⟨l', hl'⟩ := h'.names
  refine ⟨⟨l ++ l', ?_⟩, h'.tidy ∘ h.tidy⟩
  rw [hl', hl, NameTable.internAll_append]

/-- Names are put in, and the saved ones stay. -/
theorem Later.of_names (hnames : w'.names = w.names.internAll l)
    (hsaved : w'.disk.map Disk.saved = w.disk.map Disk.saved) : w.Later w' := by
  refine ⟨⟨l, hnames⟩, fun htidy d' hd' => ?_⟩
  obtain ⟨d, hd, heq⟩ : ∃ d, w.disk = some d ∧ d.saved = d'.saved := by
    simpa [hd'] using hsaved.symm
  rw [hnames, ← heq]
  exact (htidy d hd).internAll l

/-- The names are saved. -/
theorem Later.of_save (hnames : w'.names = w.names)
    (hdisk : w'.disk = w.disk.map fun d => d.save w.names) : w.Later w' := by
  refine ⟨⟨[], hnames⟩, fun htidy d' hd' => ?_⟩
  obtain ⟨d, hd, rfl⟩ : ∃ d, w.disk = some d ∧ d.save w.names = d' := by
    simpa [hd'] using hdisk.symm
  rw [hnames]
  exact (htidy d hd).save

theorem Later.reach {α : Type} {table : Option GraphTable} {operation : Except Fault α × Workspace}
    (hw : w.Later w') (h : w.Later operation.2) : w.Later (w'.reach table operation).2 := by
  unfold Workspace.reach
  split
  · split
    · exact hw
    · exact h
  · exact h

theorem later_withNames (w : Workspace) (l : List String) :
    w.Later (w.withNames (w.names.internAll l)) := .of_names rfl rfl

/-! ### Operations on the graph -/

theorem later_associate (w : Workspace) (file classFile : String) (c : Option ClassInfo) :
    w.Later (w.associate file classFile c).2 := by
  have hnames := Graph.names_associate w.names w.main file classFile c
  exact .reach (.of_names hnames rfl) (.of_names hnames rfl)

theorem later_registerImports (w : Workspace) (note : ImportNote) :
    w.Later (w.registerImports note) := .of_names (l := []) rfl rfl

theorem later_flush (w : Workspace) (memoryOnly : Bool) : w.Later (w.flush memoryOnly).2 := by
  unfold flush
  dsimp only
  split
  · have hfirst := later_withNames w
      [internalName ((w.imports.head?.map ImportNote.className).getD "")]
    exact hfirst.trans (.of_names (l := []) rfl rfl)
  · have hentered : w.Later
        { w with
          names := (w.main.enterNotes w.names w.imports).1
          main := (w.main.enterNotes w.names w.imports).2
          imports := [] } :=
      .of_names (Graph.names_enterNotes w.names w.main w.imports) rfl
    cases memoryOnly with
    | true => exact hentered
    | false => exact hentered.trans (.of_save rfl rfl)

theorem later_clean (w : Workspace) : w.Later w.clean.2 :=
  .reach (.of_names (l := []) rfl rfl) (.of_names (l := []) rfl rfl)

theorem later_close (w : Workspace) : w.Later w.close := by
  unfold close
  split
  · exact .refl w
  · split
    · rename_i d hd
      exact .of_save rfl (by rw [hd]; rfl)
    · exact .of_names (l := []) rfl rfl

/-! ### Operations on rounds -/

theorem saved_openRoundIn (d : Disk) (directory : String) (databases : Databases) :
    (d.openRoundIn directory databases).2.saved = d.saved := by
  unfold Disk.openRoundIn
  split <;> rfl

theorem saved_openRound (d : Disk) : d.openRound.2.saved = d.saved := by
  unfold Disk.openRound
  dsimp only
  split
  · rw [saved_openRoundIn]
  · rw [saved_openRoundIn]
  · rfl

theorem saved_closeRound (d : Disk) (store : RoundStore) (g : Graph) :
    (d.closeRound store g).saved = d.saved := by
  unfold Disk.closeRound
  dsimp only
  split <;> rfl

theorem later_createRound (w : Workspace) : w.Later w.createRound.2 := by
  unfold createRound
  split
  · rename_i d hd
    split
    · exact .refl w
    · have hsaved := saved_openRound d
      split
      all_goals
        rename_i hopen
        rw [hopen] at hsaved
        exact .of_names (l := []) rfl (by simpa [hd] using hsaved)
  · exact .refl w

theorem later_closeRound (w : Workspace) (o : OpenRound) : w.Later (w.closeRound o).2 := by
  unfold closeRound
  split
  · exact .refl w
  · split
    · rename_i hd
      exact .of_names (l := []) rfl (by simp [hd, saved_closeRound])
    · exact .refl w

theorem names_compared (names : NameTable) (r : Round) (removed files : List SourcePath) :
    (internKeyNames (r.prepare names removed files).1).2.2 =
      names.internAll (r.imports.flatMap ImportNote.names ++ files.map SourcePath.text ++
        [rootClassName, constructorName]) := by
  rw [NameTable.internAll_append, NameTable.internAll_append, ← Round.names_prepare]
  rfl

theorem later_compareEasily (w : Workspace) (o : OpenRound) (removed files : List SourcePath) :
    w.Later (w.compareEasily o removed files).2.2 := by
  have hcompared : w.Later (w.withNames (o.round.compareEasily w.names w.main removed files).1) :=
    .of_names (names_compared w.names o.round removed files) rfl
  unfold Workspace.compareEasily
  dsimp only
  split <;> exact .reach hcompared hcompared

theorem later_compareFully (w : Workspace) (o : OpenRound) (q : RoundRequest) :
    w.Later (w.compareFully o q).2.2 := by
  have hcompared : w.Later (w.withNames (o.round.compareFully w.names w.main q).1) :=
    .of_names (names_compared w.names o.round q.removed q.files) rfl
  unfold Workspace.compareFully
  dsimp only
  split <;> exact hcompared

theorem later_integrate (w : Workspace) (o : OpenRound) : w.Later (w.integrate o).2 := by
  unfold Workspace.integrate
  split
  · exact later_closeRound w o
  · rename_i names g hmerged
    have hnames : names = (o.round.graph.enterNotes w.names o.round.imports).1 := by
      rw [Graph.integrate] at hmerged
      split at hmerged
      · exact (congrArg Prod.fst (Except.ok.inj hmerged)).symm
      · simp at hmerged
    rw [Graph.names_enterNotes] at hnames
    refine Later.trans ?_ (later_closeRound _ _)
    exact .reach (.of_names hnames rfl) (.of_names hnames rfl)

theorem later_operate (w : Workspace) (o : OpenRound) (operation : RoundOperation) :
    w.Later (w.operate o operation).2 := by
  cases operation with
  | record x => exact .of_names (Graph.names_associate ..) rfl
  | registerImports note => exact .refl w
  | compareEasily removed files => exact later_compareEasily w o removed files
  | compareFully q => exact later_compareFully w o q
  | replace => exact .refl w
  | integrate => exact later_integrate w o
  | close => exact later_closeRound w o

end Workspace

/-! ## One operation of a session -/

namespace Session

variable {s : Session} {op : Operation}

theorem later_perform (s : Session) (h : op ≠ .reopen) : s.work.Later (s.perform op).work := by
  cases op with
  | intern names => exact Workspace.later_withNames s.work names
  | associate o => exact Workspace.later_associate ..
  | registerImports note => exact Workspace.later_registerImports ..
  | flush memoryOnly => exact Workspace.later_flush ..
  | clean => exact Workspace.later_clean _
  | close => exact Workspace.later_close _
  | openRound =>
    have hcreated := Workspace.later_createRound s.work
    simp only [perform]
    split
    all_goals
      rename_i hopen
      rw [hopen] at hcreated
      exact hcreated
  | withRound i operation =>
    simp only [perform]
    split
    · exact .refl _
    · rename_i o ho
      have hoperated := Workspace.later_operate s.work o operation
      split
      all_goals
        rename_i hopen
        rw [hopen] at hoperated
        exact hoperated
  | reopen => exact absurd rfl h

/-! ## Opening the files again -/

/-- The database is found again, with everything that was written to it. -/
def Found (s : Session) : Prop :=
  ∀ d, s.dropRounds.disk = some d →
    ∃ d', Disk.mount d.settings (d.unmount s.work.main) = .ok (d', ⟨d.saved, s.work.main⟩)

/-- Every name that the tables use has been saved; the empty one need not be. -/
def NamesSaved (s : Session) : Prop :=
  ∀ x ∈ s.work.main.symbols, ∀ n, s.work.names.name? x = some n →
    x = .empty ∨ ∀ d, s.work.disk = some d → d.saved.get? x = some n

theorem dropRounds_frame (s : Session) :
    s.dropRounds.names = s.work.names ∧ s.dropRounds.main = s.work.main ∧
      s.dropRounds.disk.map Disk.saved = s.work.disk.map Disk.saved := by
  have hclose : ∀ (w : Workspace) (o : OpenRound), (w.closeRound o).2.names = w.names ∧
      (w.closeRound o).2.main = w.main ∧
      (w.closeRound o).2.disk.map Disk.saved = w.disk.map Disk.saved := by
    intro w o
    unfold Workspace.closeRound
    split
    · exact ⟨rfl, rfl, rfl⟩
    · split
      · rename_i hd
        exact ⟨rfl, rfl, by simp [hd, Workspace.saved_closeRound]⟩
      · exact ⟨rfl, rfl, rfl⟩
  obtain ⟨w, rounds⟩ := s
  induction rounds generalizing w with
  | nil => exact ⟨rfl, rfl, rfl⟩
  | cons o rounds ih =>
    obtain ⟨hnames, hmain, hdisk⟩ := ih (w.closeRound o).2
    obtain ⟨hnames', hmain', hdisk'⟩ := hclose w o
    exact ⟨hnames.trans hnames', hmain.trans hmain', hdisk.trans hdisk'⟩

theorem saved_mount {settings : Settings} {databases : Databases} {d : Disk} {found : StoredGraph}
    (h : Disk.mount settings databases = .ok (d, found)) : d.saved = found.names := by
  unfold Disk.mount at h
  split at h
  · obtain ⟨rfl, rfl⟩ := Prod.mk.inj (Except.ok.inj h)
    rfl
  · simp at h

/-- **What is found again** when the files are opened: the tables as they were, and the
names that have been saved. -/
theorem reopened (hfound : s.Found) (htidy : s.work.Tidy) :
    (s.perform .reopen).work.main = s.work.main ∧ (s.perform .reopen).work.Tidy ∧
      ∀ x n, s.work.names.name? x = some n →
        ((s.perform .reopen).work.names.name? x = some n ↔
          x = .empty ∨ ∀ d, s.work.disk = some d → d.saved.get? x = some n) := by
  obtain ⟨hnames, hmain, hsaved⟩ := dropRounds_frame s
  cases hdisk : s.dropRounds.disk with
  | none =>
    have hnone : s.work.disk = none := by simpa [hdisk] using hsaved.symm
    have hperform : (s.perform .reopen).work = s.dropRounds := by
      simp [perform, Workspace.reopen, hdisk]
    rw [hperform, hmain, hnames]
    refine ⟨rfl, fun d hd => ?_, fun x n hn => ?_⟩
    · simp [hdisk] at hd
    · simp [hn, hnone]
  | some d =>
    obtain ⟨d₀, hd₀, heq⟩ : ∃ d₀, s.work.disk = some d₀ ∧ d₀.saved = d.saved := by
      simpa [hdisk] using hsaved.symm
    obtain ⟨d', hmount⟩ := hfound d hdisk
    have hperform : (s.perform .reopen).work = .ofStored d' ⟨d.saved, s.work.main⟩ := by
      simp [perform, Workspace.reopen, hdisk, hmain, hmount]
    have hprefixes : NameTable.Prefixes d.saved s.work.names := heq ▸ htidy d₀ hd₀
    rw [hperform]
    refine ⟨rfl, fun d'' hd'' => ?_, fun x n hn => ?_⟩
    · obtain rfl : d' = d'' := Option.some.inj hd''
      rw [saved_mount hmount]
      exact hprefixes.readBack _
    · have hback := hprefixes.name?_readBack s.work.main x n
      rw [Workspace.ofStored, hback]
      constructor
      · intro h
        refine h.imp And.left fun hget d₁ hd₁ => ?_
        rwa [← Option.some.inj (hd₀.symm.trans hd₁), heq]
      · intro h
        rcases h with rfl | hget
        · exact .inl ⟨rfl, Option.some.inj (hn.symm.trans hprefixes.1)⟩
        · exact .inr (heq ▸ hget d₀ hd₀)

/-- An operation keeps the names of symbols, except that opening the files again needs them
saved. -/
theorem name?_perform (htidy : s.work.Tidy) (hfound : op = .reopen → s.Found)
    (hsaved : op = .reopen → s.NamesSaved) {x : Symbol} (hx : x ∈ s.work.main.symbols) {n : String}
    (hn : s.work.names.name? x = some n) : (s.perform op).work.names.name? x = some n := by
  by_cases hop : op = .reopen
  · subst hop
    exact ((reopened (hfound rfl) htidy).2.2 x n hn).2 (hsaved rfl x hx n hn)
  · obtain ⟨l, hl⟩ := (later_perform s hop).names
    rw [hl]
    exact NameTable.name?_internAll hn l

theorem tidy_perform (htidy : s.work.Tidy) (hfound : op = .reopen → s.Found) :
    (s.perform op).work.Tidy := by
  by_cases hop : op = .reopen
  · subst hop
    exact (reopened (hfound rfl) htidy).2.1
  · exact (later_perform s hop).tidy htidy

/-! ## Runs -/

variable {P : Session → Prop} {ops ops' : List Operation}

theorem performAll_append (s : Session) (ops ops' : List Operation) :
    s.performAll (ops ++ ops') = (s.performAll ops).performAll ops' := List.foldl_append

theorem atReopens_append :
    AtReopens P s (ops ++ ops') ↔ AtReopens P s ops ∧ AtReopens P (s.performAll ops) ops' := by
  induction ops generalizing s with
  | nil => simp [AtReopens, performAll]
  | cons op ops ih =>
    rw [List.cons_append, AtReopens, AtReopens, ih, and_assoc]
    rfl

theorem atReopens_iff :
    AtReopens P s ops ↔
      ∀ past future, ops = past ++ .reopen :: future → P (s.performAll past) := by
  constructor
  · intro h past future hops
    rw [hops, atReopens_append] at h
    exact h.2.1 rfl
  · intro h
    induction ops generalizing s with
    | nil => trivial
    | cons op ops ih =>
      refine ⟨fun hop => h [] ops (by rw [hop]; rfl), ih fun past future hops => ?_⟩
      exact h (op :: past) future (by rw [hops]; rfl)

theorem tidy_performAll (htidy : s.work.Tidy) (hfound : AtReopens Found s ops) :
    (s.performAll ops).work.Tidy := by
  induction ops generalizing s with
  | nil => exact htidy
  | cons op ops ih => exact ih (tidy_perform htidy hfound.1) hfound.2

/-- While a symbol stays in the tables it keeps its name. -/
def KeepsNames (s : Session) (ops : List Operation) : Prop :=
  ∀ past mid future, ops = past ++ (mid ++ future) → ∀ x,
    (∀ l, l <+: mid → x ∈ (s.performAll (past ++ l)).work.main.symbols) →
    ∀ n, (s.performAll past).work.names.name? x = some n →
      (s.performAll (past ++ mid)).work.names.name? x = some n

/-- While the tables stay the same their snapshot does so too, whenever it can be taken. -/
def KeepsSnapshots (s : Session) (ops : List Operation) : Prop :=
  ∀ past mid future, ops = past ++ (mid ++ future) →
    (∀ l, l <+: mid → (s.performAll (past ++ l)).work.main = (s.performAll past).work.main) →
    ∀ x, (s.performAll past).work.snapshot = .ok x →
      (s.performAll (past ++ mid)).work.closed = false →
      (s.performAll (past ++ mid)).work.snapshot = .ok x

/-- While a symbol stays in the tables it keeps its name, over a run that starts anywhere. -/
theorem name?_performAll (htidy : s.work.Tidy) (hfound : AtReopens Found s ops)
    (hsaved : AtReopens NamesSaved s ops) {x : Symbol}
    (hx : ∀ l, l <+: ops → x ∈ (s.performAll l).work.main.symbols) {n : String}
    (hn : s.work.names.name? x = some n) : (s.performAll ops).work.names.name? x = some n := by
  induction ops generalizing s with
  | nil => exact hn
  | cons op ops ih =>
    have hhere : x ∈ s.work.main.symbols := hx [] List.nil_prefix
    refine ih (tidy_perform htidy hfound.1) hfound.2 hsaved.2 (fun l hl => ?_)
      (name?_perform htidy hfound.1 hsaved.1 hhere hn)
    exact hx (op :: l) ((List.prefix_cons_inj op).2 hl)

/-- **Symbols keep their names** over a run exactly when every name in use has been saved
each time that the files are opened again. -/
theorem keepsNames_iff_of_tidy (htidy : s.work.Tidy) (hfound : AtReopens Found s ops) :
    s.KeepsNames ops ↔ AtReopens NamesSaved s ops := by
  constructor
  · intro h
    refine atReopens_iff.2 fun past future hops x hx n hn => ?_
    have hpast : AtReopens Found s past := (atReopens_append.1 (hops ▸ hfound)).1
    have hnow : (s.performAll past).Found := atReopens_iff.1 hfound past future hops
    obtain ⟨hmain, -, hback⟩ := reopened hnow (tidy_performAll htidy hpast)
    have hperform : s.performAll (past ++ [.reopen]) = (s.performAll past).perform .reopen :=
      performAll_append s past [.reopen]
    refine (hback x n hn).1 ?_
    rw [← hperform]
    refine h past [.reopen] future hops x (fun l hl => ?_) n hn
    rcases List.prefix_cons_iff.1 hl with rfl | ⟨l', rfl, hl'⟩
    · rwa [List.append_nil]
    · rw [List.prefix_nil.1 hl', hperform, hmain]
      exact hx
  · intro h past mid future hops x hx n hn
    rw [hops, atReopens_append, atReopens_append] at h hfound
    rw [performAll_append]
    refine name?_performAll (tidy_performAll htidy hfound.1) hfound.2.1 h.2.1 (fun l hl => ?_) hn
    rw [← performAll_append]
    exact hx l hl

/-- **Snapshots are kept** over a run when every name in use has been saved each time that the
files are opened again. -/
theorem keepsSnapshots_of_tidy (htidy : s.work.Tidy) (hfound : AtReopens Found s ops)
    (hsaved : AtReopens NamesSaved s ops) : s.KeepsSnapshots ops := by
  intro past mid future hops hmain x hx hopen
  have hnames := (keepsNames_iff_of_tidy htidy hfound).2 hsaved past mid future hops
  have hgraph : Snapshot.ofGraph (s.performAll past).work.names (s.performAll past).work.main =
      .ok x := by
    unfold Workspace.snapshot Workspace.reach at hx
    dsimp only at hx
    split at hx
    · simp at hx
    · exact hx
  unfold Workspace.snapshot Workspace.reach
  simp only [hopen, Bool.false_and, Bool.false_eq_true, if_false]
  rw [hmain mid (List.prefix_refl mid)]
  refine Snapshot.ofGraph_yields (fun y hy n hn => ?_) x hgraph
  exact hnames y (fun l hl => by rwa [hmain l hl]) n hn

/-! ### Saving in time -/

/-- After the names were flushed to disk all of them are saved. -/
theorem namesSaved_flush (hopen : s.work.closed = false) :
    (s.perform (.flush false)).NamesSaved := by
  intro x _ n hn
  by_cases hx : x = .empty
  · exact .inl hx
  · refine .inr fun d hd => ?_
    have hflushed : (s.perform (.flush false)).work.disk = s.work.disk.map
        (·.save (s.perform (.flush false)).work.names) := by
      simp [perform, Workspace.flush, hopen]
    obtain ⟨d₀, -, rfl⟩ : ∃ d₀, s.work.disk = some d₀ ∧
        d₀.save (s.perform (.flush false)).work.names = d := by
      simpa [hd] using hflushed.symm
    exact NameTable.get?_saveNames_of_name? hx hn

/-- After the graph was closed all names are saved. -/
theorem namesSaved_close (hopen : s.work.closed = false) : (s.perform .close).NamesSaved := by
  intro x _ n hn
  by_cases hx : x = .empty
  · exact .inl hx
  · refine .inr fun d hd => ?_
    cases hdisk : s.work.disk with
    | none => simp [perform, Workspace.close, hopen, hdisk] at hd
    | some d₀ =>
      have hclosed : s.perform .close = { s with work :=
          { s.work with closed := true, disk := some (d₀.save s.work.names) } } := by
        simp [perform, Workspace.close, hopen, hdisk]
      rw [hclosed] at hd hn
      rw [← Option.some.inj hd]
      exact NameTable.get?_saveNames_of_name? hx hn

end Session

/-! ## Sessions that start with an empty directory -/

/-- In an empty directory there is no database yet, so a new one is found. -/
theorem found_of_acquire {path root : FilePath} {file : Nat} {found : StoredGraph} {d : Databases}
    (h : (Databases.inDirectory root).acquire path = (.ok (file, found), d)) : found = .empty := by
  unfold Databases.acquire Databases.inDirectory at h
  dsimp only at h
  split at h
  · simp at h
  · split at h
    · simp at h
    · split at h
      · simp only [Prod.mk.injEq, Except.ok.injEq] at h
        exact h.1.2.symm
      · simp at h

theorem Workspace.tidy_onDisk {settings : Settings} {w : Workspace}
    (h : Workspace.onDisk settings = .ok w) : w.Tidy := by
  unfold Workspace.onDisk at h
  split at h
  · rename_i d found hmount
    obtain rfl := Except.ok.inj h
    have hsaved := Session.saved_mount hmount
    have hempty : found = .empty := by
      unfold Disk.mount at hmount
      split at hmount
      · rename_i hacquire
        obtain ⟨-, rfl⟩ := Prod.mk.inj (Except.ok.inj hmount)
        exact found_of_acquire hacquire
      · simp at hmount
    intro d' hd'
    obtain rfl : d = d' := Option.some.inj hd'
    rw [hsaved, hempty]
    exact NameTable.prefixes_new
  · simp at h

namespace Session

variable {settings : Settings} {w : Workspace} {ops : List Operation}

/-- **Names across sessions**: provided that the database is always found again with what was
written to it, the symbols in the tables keep their names exactly when the names in use have been
saved each time that the files are opened again; and then the snapshots are kept too. -/
theorem keepsNames_iff (hw : Workspace.onDisk settings = .ok w)
    (hfound : AtReopens Found ⟨w, []⟩ ops) :
    (KeepsNames ⟨w, []⟩ ops ↔ AtReopens NamesSaved ⟨w, []⟩ ops) ∧
      (AtReopens NamesSaved ⟨w, []⟩ ops → KeepsSnapshots ⟨w, []⟩ ops) := by
  have htidy : w.Tidy := Workspace.tidy_onDisk hw
  exact ⟨keepsNames_iff_of_tidy htidy hfound, keepsSnapshots_of_tidy htidy hfound⟩

end Session

/-! ### Two runs -/

namespace LostNames

/-- A class without members. -/
def plain : ClassOutput where
  file := "A.java"
  classFile := "p/A.class"
  info := some (.plain ⟨1⟩ .none (.named ⟨2⟩))

/-- A session in which the names of a class have been put in. -/
def start : Workspace :=
  ((Workspace.onDisk (.inDirectory "/work")).toOption.getD .inMemory)

def recording : List Operation := [.intern ["p/A", "java/lang/Object"], .associate plain]

theorem onDisk_start : Workspace.onDisk (.inDirectory "/work") = .ok start := rfl

/-- The names are flushed to disk before the files are opened again. -/
theorem kept_after_flush :
    Session.KeepsNames ⟨start, []⟩ (recording ++ [.flush false, .reopen]) ∧
      Session.KeepsSnapshots ⟨start, []⟩ (recording ++ [.flush false, .reopen]) := by
  have hfound : Session.AtReopens Session.Found ⟨start, []⟩
      (recording ++ [.flush false, .reopen]) := by
    refine ⟨nofun, nofun, nofun, fun _ d hd => ?_, trivial⟩
    obtain rfl := Option.some.inj hd
    exact ⟨_, rfl⟩
  have hsaved : Session.AtReopens Session.NamesSaved ⟨start, []⟩
      (recording ++ [.flush false, .reopen]) :=
    ⟨nofun, nofun, nofun, fun _ => Session.namesSaved_flush rfl, trivial⟩
  have hkeeps := Session.keepsNames_iff onDisk_start hfound
  exact ⟨hkeeps.1.2 hsaved, hkeeps.2 hsaved⟩

/-- The files are opened again while the names are not saved. -/
theorem not_kept :
    Workspace.onDisk (.inDirectory "/work") = .ok start ∧
      Session.AtReopens Session.Found ⟨start, []⟩ (recording ++ [.reopen]) ∧
      ¬ Session.KeepsNames ⟨start, []⟩ (recording ++ [.reopen]) ∧
      ¬ Session.KeepsSnapshots ⟨start, []⟩ (recording ++ [.reopen]) := by
  have hmain : ∀ l, l <+: [Operation.reopen] →
      ((⟨start, []⟩ : Session).performAll (recording ++ l)).work.main =
        ((⟨start, []⟩ : Session).performAll recording).work.main := by
    intro l hl
    rcases List.prefix_cons_iff.1 hl with rfl | ⟨l', rfl, hl'⟩
    · rfl
    · rw [List.prefix_nil.1 hl']
      rfl
  refine ⟨onDisk_start, ?_, fun hkeeps => ?_, fun hkeeps => ?_⟩
  · refine ⟨nofun, nofun, fun _ d hd => ?_, trivial⟩
    obtain rfl := Option.some.inj hd
    exact ⟨_, rfl⟩
  · have hheld : (⟨1⟩ : Symbol) ∈
        ((⟨start, []⟩ : Session).performAll recording).work.main.symbols := by decide
    have hname := hkeeps recording [.reopen] [] rfl ⟨1⟩
      (fun l hl => by rwa [hmain l hl]) "p/A" rfl
    have hlost : ((⟨start, []⟩ : Session).performAll
        (recording ++ [.reopen])).work.names.name? ⟨1⟩ = none := rfl
    rw [hlost] at hname
    simp at hname
  · have hsnapshot := hkeeps recording [.reopen] [] rfl hmain _ rfl rfl
    have hlost : ((⟨start, []⟩ : Session).performAll (recording ++ [.reopen])).work.snapshot =
        .error (.unknownSymbol ⟨1⟩) := rfl
    rw [hlost] at hsnapshot
    simp at hsnapshot

end LostNames

end ClassImpact

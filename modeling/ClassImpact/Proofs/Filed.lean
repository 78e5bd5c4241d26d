import Mathlib
import ClassImpact.Proofs.Merged
import ClassImpact.Proofs.Runs

/-!
# Entries for the files of recorded classes

A graph is filed when every recorded class has an entry for its file.  Recording a class
keeps that, and so do imports and new entries.  A merge need not: it looks up the file
of a class that went away in the graph so far, and takes out the entry of that file when
the round has none for it, although other classes are still recorded under it.

The condition under which a merge keeps a graph filed is exact, and from it the runs are
told in which every state is filed.
-/

namespace ClassImpact

namespace Graph

/-- Every recorded class has an entry for its file, if an empty one. -/
def Filed (g : Graph) : Prop := ∀ c f, g.fileOf.get? c = some f → g.classesIn.has f = true

theorem filed_empty : empty.Filed := by
  intro c f h
  simp [empty] at h

variable {g : Graph}

theorem Filed.record (h : g.Filed) (f : Symbol) (c : ClassInfo) : (g.record f c).Filed := by
  intro n f' hf
  have hf : (if c.name = n then some f else g.fileOf.get? n) = some f' := by
    rw [← Table.get?_insert]
    exact hf
  show (g.classesIn.addValue f c).has f' = true
  rw [Table.has_addValue]
  by_cases hn : c.name = n
  · rw [if_pos hn] at hf
    exact .inl (Option.some.inj hf)
  · rw [if_neg hn] at hf
    exact .inr (h n f' hf)

/-- A graph with the same files of classes, and no fewer entries, is as filed as before. -/
theorem Filed.grow {g' : Graph} (h : g.Filed) (hfile : g'.fileOf = g.fileOf)
    (hkeys : ∀ f, g.classesIn.has f = true → g'.classesIn.has f = true) : g'.Filed := by
  intro c f hf
  rw [hfile] at hf
  exact hkeys f (h c f hf)

theorem Filed.noteImport (h : g.Filed) (root : Symbol) (file : Option Symbol) (s : Symbol) :
    (g.noteImport root file s).Filed := by
  apply h.grow (fileOf_noteImport g root file s)
  intro f hf
  simp only [Graph.noteImport]
  split
  · exact (Table.has_addValue ..).2 (.inr hf)
  · exact hf

theorem Filed.addFile (h : g.Filed) (f : Symbol) : (g.addFile f).Filed := by
  unfold Graph.addFile
  split
  · exact h
  · exact h.grow rfl fun f' hf => (Table.has_insert ..).2 (.inr hf)

theorem Filed.associate (h : g.Filed) (names : NameTable) (file classFile : String)
    (c : Option ClassInfo) : (g.associate names file classFile c).2.Filed := by
  cases c with
  | none => exact h
  | some c => exact h.record _ _

theorem Filed.enterNote (h : g.Filed) (names : NameTable) (note : ImportNote) :
    (g.enterNote names note).2.Filed :=
  List.foldlRecOn (motive := fun x : NameTable × Graph => x.2.Filed) _ _ h
    fun _ hx _ _ => Filed.noteImport hx _ _ _

theorem Filed.enterNotes (h : g.Filed) (names : NameTable) (notes : List ImportNote) :
    (g.enterNotes names notes).2.Filed :=
  List.foldlRecOn (motive := fun x : NameTable × Graph => x.2.Filed) _ _ h
    fun _ hx _ _ => Filed.enterNote hx _ _

theorem Filed.addFiles (h : g.Filed) (names : NameTable) (files : List SourcePath) :
    (g.addFiles names files).2.Filed :=
  List.foldlRecOn (motive := fun x : NameTable × Graph => x.2.Filed) _ _ h
    fun _ hx _ _ => Filed.addFile hx _

end Graph

/-! ## One merge -/

namespace Round

/-- A class whose record a merge leaves as it is. -/
def Spares (names : NameTable) (main : Graph) (r : Round) (c : Symbol) : Prop :=
  ¬ r.Restates c ∧ ¬ r.Drops names main c

/-- A file whose entry a merge takes out. -/
def Unlists (names : NameTable) (r : Round) (f : Symbol) : Prop :=
  f ∈ r.log.changedFiles ∧ r.graph.classesIn.has f = false ∨
    f ∉ r.log.changedFiles ∧ f ∈ Merge.knownFiles names r.removedFiles

/-- No file loses its entry while a class stays recorded under it. -/
def Safe (names : NameTable) (main : Graph) (r : Round) : Prop :=
  r.rebuild = false →
    ∀ c f, main.fileOf.get? c = some f → r.Spares names main c → ¬ r.Unlists names f

variable {names : NameTable} {main : Graph} {r : Round}

theorem has_classesIn_mergeRound (h : r.rebuild = false) {f : Symbol} :
    (main.mergeRound names r).classesIn.has f = true ↔
      f ∈ r.log.changedFiles ∧ r.graph.classesIn.has f = true ∨
        f ∉ r.log.changedFiles ∧ main.classesIn.has f = true ∧
          f ∉ Merge.knownFiles names r.removedFiles := by
  simp only [Table.has_eq_isSome, Option.isSome_iff_exists, Graph.classesIn_mergeRound h]
  constructor
  · rintro ⟨s, ⟨hc, hs⟩ | ⟨hc, hs, hr⟩⟩
    · exact .inl ⟨hc, s, hs⟩
    · exact .inr ⟨hc, ⟨s, hs⟩, hr⟩
  · rintro (⟨hc, s, hs⟩ | ⟨hc, ⟨s, hs⟩, hr⟩)
    · exact ⟨s, .inl ⟨hc, hs⟩⟩
    · exact ⟨s, .inr ⟨hc, hs, hr⟩⟩

/-- **When a merge keeps a graph filed**: exactly when the round is safe. -/
theorem filed_mergeRound_iff (hmain : main.Filed) (hgraph : r.graph.Filed)
    (hlog : ∀ c f, c ∈ r.log.changedClasses → r.graph.fileOf.get? c = some f →
      f ∈ r.log.changedFiles) : (main.mergeRound names r).Filed ↔ r.Safe names main := by
  by_cases hr : r.rebuild = true
  · obtain ⟨hfile, hclasses⟩ := @Graph.mergeRound_rebuild names main r hr
    refine ⟨fun _ h => by simp [hr] at h, fun _ => ?_⟩
    exact hgraph.grow hfile fun f hf => by rwa [hclasses]
  · have hr : r.rebuild = false := by simpa using hr
    constructor
    · intro h _ c f hf hspared hun
      have hhas := h c f ((Graph.fileOf_mergeRound hr).2 (.inr ⟨hspared.1, hf, hspared.2⟩))
      rcases (has_classesIn_mergeRound hr).1 hhas with ⟨hc, hk⟩ | ⟨hc, -, hk⟩
      · rcases hun with ⟨-, hno⟩ | ⟨hno, -⟩
        · rw [hk] at hno
          simp at hno
        · exact hno hc
      · rcases hun with ⟨hno, -⟩ | ⟨-, hno⟩
        · exact hc hno
        · exact hk hno
    · intro h c f hf
      rw [has_classesIn_mergeRound hr]
      rcases (Graph.fileOf_mergeRound hr).1 hf with ⟨hres, hf⟩ | ⟨hres, hf, hd⟩
      · exact .inl ⟨hlog c f hres.1 hf, hgraph c f hf⟩
      · have hun := h hr c f hf ⟨hres, hd⟩
        by_cases hc : f ∈ r.log.changedFiles
        · refine .inl ⟨hc, ?_⟩
          by_contra hk
          exact hun (.inl ⟨hc, by simpa using hk⟩)
        · exact .inr ⟨hc, hmain c f hf, fun hk => hun (.inr ⟨hc, hk⟩)⟩

/-- The file that a round gives a restated class is noted as changed. -/
theorem changedFile_of_changedClass {main round : Graph} {c f : Symbol}
    (hc : c ∈ (noteRound main round .empty).changedClasses)
    (hf : round.fileOf.get? c = some f) : f ∈ (noteRound main round .empty).changedFiles := by
  obtain ⟨file, hfile, e, he, hr, rfl⟩ := mem_changedClasses_noteRound.1 hc
  refine mem_changedFiles_noteRound.2 ⟨file, hfile, e, he, ?_⟩
  cases e with
  | changed change => exact hf
  | removed c => simp [ClassEvent.restates] at hr
  | added c => exact hf

end Round

/-! ## Runs -/

namespace Workspace

/-- Whether an action, if it merges a round, merges a safe one. -/
def Safe (w : Workspace) : Action → Prop
  | .round reports mode => ∀ o w', w.compared? reports mode = (some o, w') →
      (o.round.enterImports w'.names).2.Safe (o.round.enterImports w'.names).1 w'.main
  | _ => True

/-- A round that was only reported to so far. -/
structure Reported (r : Round) : Prop where
  filed : r.graph.Filed
  log : r.log = .empty
  rebuild : r.rebuild = false

variable {w : Workspace}

theorem reported_report {o : OpenRound} (h : Reported o.round) (report : Report) :
    Reported (w.report o report).1.round := by
  cases report with
  | compiled x => exact ⟨h.filed.associate _ _ _ _, h.log, h.rebuild⟩
  | imports note => exact ⟨h.filed, h.log, h.rebuild⟩

theorem reported_collect (w : Workspace) (reports : List Report) :
    Reported (w.collect reports).1.round :=
  List.foldlRecOn (motive := fun x : OpenRound × Workspace => Reported x.1.round) _ _
    ⟨Graph.filed_empty, rfl, rfl⟩ fun _ hx _ _ => reported_report hx _

/-- A compared round leaves the graph filed when it is merged, exactly when it is safe. -/
theorem filed_merged_iff {o o' : OpenRound} {w' : Workspace} {mode : Mode}
    (hopen : w.closed = false) (hmain : w.main.Filed) (h : Reported o.round)
    (ho : w.compare? o mode = (some o', w')) :
    (w.main.mergeRound (o'.round.enterImports w'.names).1
      (o'.round.enterImports w'.names).2).Filed ↔
        (o'.round.enterImports w'.names).2.Safe (o'.round.enterImports w'.names).1 w.main := by
  rcases compare?_eq_some hopen ho with ⟨hr, rfl⟩ | ⟨removed, files, hb⟩
  · rw [hr]
    refine Round.filed_mergeRound_iff hmain (h.filed.enterNotes _ _) fun c f hc => ?_
    have hlog : ((o.round.onRebuild).enterImports w'.names).2.log = .empty := h.log
    rw [hlog] at hc
    exact absurd hc (IdSet.notMem_empty c)
  · obtain ⟨-, hr⟩ := hb.eq
    set ready := (o.round.prepare w.names removed files).2 with hready
    have hlog : ready.log = .empty := h.log
    have hfiled : ready.graph.Filed := (h.filed.enterNotes _ _).addFiles _ _
    have himports : ready.imports = [] := rfl
    rw [hlog] at hr
    have henter : o'.round.enterImports w'.names = (w'.names, o'.round) := by
      rw [hr]
      simp [Round.enterImports, himports, Graph.enterNotes]
    rw [henter, hr]
    exact Round.filed_mergeRound_iff hmain hfiled fun c f => Round.changedFile_of_changedClass

/-- A round on an open workspace with a filed graph. -/
theorem filed_round_iff (hopen : w.closed = false) (hmain : w.main.Filed) (reports : List Report)
    (mode : Mode) : (w.act (.round reports mode)).closed = false ∧
      ((w.act (.round reports mode)).main.Filed ↔ w.Safe (.round reports mode)) := by
  have hcol := alike_collect w reports
  have hcmp := alike_compared? hopen reports mode
  cases hc : w.compared? reports mode with
  | mk o w' =>
    rw [hc] at hcmp
    cases o with
    | none =>
      have h : w.act (.round reports mode) = w' := by simp [act, hc]
      rw [h]
      refine ⟨hcmp.closed.trans hopen, iff_of_true (by rw [hcmp.main]; exact hmain) ?_⟩
      intro o w'' ho
      rw [hc] at ho
      cases ho
    | some o =>
      have h : w.act (.round reports mode) = (w'.integrate o).2 := by simp [act, hc]
      have hd : o.round.differentiated = true := by
        rcases compare?_eq_some (hcol.closed.trans hopen) hc with ⟨hr, -⟩ | ⟨_, _, hb⟩
        · rw [hr]
          rfl
        · rw [hb.eq.2]
          rfl
      obtain ⟨hopen', hmain'⟩ := integrate_open (hcmp.closed.trans hopen) hd
      rw [h, hmain']
      refine ⟨hopen', ?_⟩
      have hsafe : w.Safe (.round reports mode) ↔
          (o.round.enterImports w'.names).2.Safe (o.round.enterImports w'.names).1 w'.main := by
        constructor
        · intro hs
          exact hs o w' hc
        · intro hs o' w'' ho
          rw [hc] at ho
          cases ho
          exact hs
      rw [hsafe, hcmp.main, ← hcol.main]
      exact filed_merged_iff (hcol.closed.trans hopen) (hcol.main ▸ hmain)
        (reported_collect w reports) hc

/-- One action on an open workspace with a filed graph. -/
theorem filed_act_iff (hopen : w.closed = false) (hmain : w.main.Filed) (a : Action) :
    (w.act a).closed = false ∧ ((w.act a).main.Filed ↔ w.Safe a) := by
  cases a with
  | associate x =>
    have h : (w.act (.associate x)).closed = false ∧ (w.act (.associate x)).main =
        (w.main.associate w.names x.file x.classFile x.info).2 := by
      simp only [act, associate]
      rw [reach_withNames hopen]
      exact ⟨hopen, rfl⟩
    exact ⟨h.1, iff_of_true (h.2 ▸ hmain.associate _ _ _ _) trivial⟩
  | registerImports note => exact ⟨hopen, iff_of_true hmain trivial⟩
  | flush memoryOnly =>
    have h : (w.act (.flush memoryOnly)).closed = false ∧ (w.act (.flush memoryOnly)).main =
        (w.main.enterNotes w.names w.imports).2 := by
      simp only [act, flush, hopen, Bool.false_and, Bool.false_eq_true, if_false]
      cases memoryOnly <;> exact ⟨rfl, rfl⟩
    exact ⟨h.1, iff_of_true (h.2 ▸ hmain.enterNotes _ _) trivial⟩
  | clean =>
    have h : w.act .clean = { w with imports := [], main := .empty } := by
      simp only [act, clean]
      rw [reach_open (w := { w with imports := [] }) hopen]
    exact ⟨by rw [h]; exact hopen, iff_of_true (by rw [h]; exact Graph.filed_empty) trivial⟩
  | round reports mode => exact filed_round_iff hopen hmain reports mode

theorem open_run (hopen : w.closed = false) (actions : List Action)
    (hfiled : ∀ past future, actions = past ++ future → (w.run past).main.Filed) :
    (w.run actions).closed = false := by
  induction actions using List.reverseRecOn with
  | nil => exact hopen
  | append_singleton actions a ih =>
    have hpast : ∀ past future, actions = past ++ future → (w.run past).main.Filed := by
      intro past future h
      exact hfiled past (future ++ [a]) (by rw [h, List.append_assoc])
    rw [run, List.foldl_concat]
    exact (filed_act_iff (ih hpast) (hfiled actions [a] rfl) a).1

/-- **Which runs keep the graph filed**: from an empty graph, every state of a run is
filed exactly when every round of the run is safe where it is merged. -/
theorem filed_run_iff (names : NameTable) (disk : Option Disk) (actions : List Action) :
    (∀ past future, actions = past ++ future → ((fresh names disk).run past).main.Filed) ↔
      ∀ past a future, actions = past ++ a :: future → ((fresh names disk).run past).Safe a := by
  have hsnoc : ∀ past a,
      (fresh names disk).run (past ++ [a]) = ((fresh names disk).run past).act a :=
    fun past a => List.foldl_concat ..
  constructor
  · intro h past a future hact
    have hbefore : ∀ p f, past = p ++ f → ((fresh names disk).run p).main.Filed := by
      intro p f hp
      exact h p (f ++ a :: future) (by rw [hact, hp, List.append_assoc])
    have hafter := h (past ++ [a]) future (by rw [hact, List.append_assoc]; rfl)
    rw [hsnoc] at hafter
    exact (filed_act_iff (open_run rfl past hbefore) (hbefore past [] (by simp)) a).2.1 hafter
  · intro h
    -- along the run, the states so far are filed and the workspace is open
    suffices hall : ∀ past future, actions = past ++ future →
        ((fresh names disk).run past).closed = false ∧
          ((fresh names disk).run past).main.Filed from fun past future hact =>
      (hall past future hact).2
    intro past
    induction past using List.reverseRecOn with
    | nil => exact fun _ _ => ⟨rfl, Graph.filed_empty⟩
    | append_singleton past a ih =>
      intro future hact
      rw [List.append_assoc] at hact
      obtain ⟨hopen, hfiled⟩ := ih _ hact
      obtain ⟨hopen', hiff⟩ := filed_act_iff hopen hfiled a
      rw [hsnoc]
      exact ⟨hopen', hiff.2 (h past a future hact)⟩

end Workspace

/-! ## A run that loses an entry

A class is compiled into a new file, and its old file is compiled in the next round,
without it.  The class is deleted then, and the file that the graph gives it is the new
one: that file loses its entry, while another class is still recorded under it. -/

namespace LostEntry

def names : NameTable := NameTable.new.internAll ["p/X", "p/Y", "java/lang/Object"]

/-- A class of the example. -/
def info (name : Symbol) : ClassInfo := .plain name (.ofFlags [.pub]) (.named ⟨3⟩)

def actions : List Action :=
  [.associate ⟨"A.java", "p/X.class", some (info ⟨1⟩)⟩,
    .round [.compiled ⟨"B.java", "p/X.class", some (info ⟨1⟩)⟩,
      .compiled ⟨"B.java", "p/Y.class", some (info ⟨2⟩)⟩] (.easily [] [⟨"B.java"⟩]),
    .round [] (.easily [] [⟨"A.java"⟩])]

theorem not_filed : ¬ ((Workspace.fresh names none).run actions).main.Filed := by
  intro h
  have hfile : ((Workspace.fresh names none).run actions).main.fileOf.get? ⟨2⟩ = some ⟨6⟩ := rfl
  have hno : ((Workspace.fresh names none).run actions).main.classesIn.has ⟨6⟩ = false := rfl
  rw [h _ _ hfile] at hno
  simp at hno

end LostEntry

end ClassImpact

import Mathlib
import ClassImpact.Proofs.Edges
import ClassImpact.Proofs.Filed
import ClassImpact.Proofs.Modes

/-!
# What a merge commits of a round

A merge writes the files that the log notes.  A comparison that stops on its way has noted
the files of the events up to the stop, and is merged all the same: nothing tells the merge
that the log is only a part.  So a round may be committed in some of its files only.

The files that are whole after a merge are told exactly, for every graph so far, every order
of visiting the files of the round, and every answer of the comparison.

## Main results

* `Graph.carries_mergeRound_iff`: the files that a merge commits, read off the log
* `Workspace.carries_integrate_iff`: the files that hold what the round compiled into them
-/

namespace ClassImpact

/-! ## Reports of a round -/

namespace Report

/-- The class that was compiled, if one was. -/
def class? : Report → Option Symbol
  | .compiled x => x.info.map ClassInfo.name
  | .imports _ => none

/-- Every class is reported once, so for one file. -/
def Once (reports : List Report) : Prop := (reports.filterMap class?).Nodup

instance (reports : List Report) : Decidable (Once reports) :=
  inferInstanceAs (Decidable (List.Nodup _))

end Report

namespace Graph

variable {g : Graph}

/-- A graph that knows no file of a class lists the class where it is recorded. -/
theorem Placed.record (h : g.Placed) {c : ClassInfo} (hnew : g.fileOf.has c.name = false)
    (f : Symbol) : (g.record f c).Placed := by
  intro f' d hd
  rw [classesIn_record, Table.valuesOf_addValue] at hd
  rw [fileOf_record]
  by_cases hf : f = f'
  · rw [if_pos hf, IdSet.mem_put] at hd
    rcases hd with rfl | ⟨hd, hne⟩
    · rw [if_pos rfl, hf]
    · have hne : c.name ≠ d.name := Ne.symm hne
      rw [if_neg hne]
      exact hf ▸ h f' d (hf ▸ hd)
  · rw [if_neg hf] at hd
    have hne : c.name ≠ d.name := by
      intro hn
      rw [hn, Table.has_eq_isSome, h f' d hd] at hnew
      simp at hnew
    rw [if_neg hne]
    exact h f' d hd

theorem Placed.enterNotes (h : g.Placed) (names : NameTable) (notes : List ImportNote) :
    (g.enterNotes names notes).2.Placed := by
  rw [(within_enterNotes notes names g (NameTable.Within.refl _)).2]
  exact List.foldlRecOn (motive := Placed) _ _ h fun _ hg m _ => placed_enterMention m hg

theorem Placed.addFiles (h : g.Placed) (names : NameTable) (files : List SourcePath) :
    (g.addFiles names files).2.Placed := by
  intro f c hc
  rw [(within_addFiles files names g (NameTable.Within.refl _)).2, (addFiles_frame _ _).2.2.1] at hc
  rw [(within_addFiles files names g (NameTable.Within.refl _)).2, (addFiles_frame _ _).1]
  exact h f c hc

end Graph

namespace Workspace

/-- A report of a class that the round does not know leaves every class under its file, and makes
no other class known. -/
theorem placed_report (w : Workspace) {o : OpenRound} {report : Report}
    (h : o.round.graph.Placed)
    (hnew : ∀ n, report.class? = some n → o.round.graph.fileOf.has n = false) :
    (w.report o report).1.round.graph.Placed ∧
      ∀ n, (w.report o report).1.round.graph.fileOf.has n = true →
        o.round.graph.fileOf.has n = true ∨ report.class? = some n := by
  cases report with
  | imports note => exact ⟨h, fun n hn => .inl hn⟩
  | compiled x =>
    cases hinfo : x.info with
    | none =>
      have hgraph : (w.report o (.compiled x)).1.round.graph = o.round.graph := by
        simp [report, associateIn, Round.associate, Graph.associate, hinfo]
      rw [hgraph]
      exact ⟨h, fun n hn => .inl hn⟩
    | some c =>
      obtain ⟨f, d, hgraph, hname⟩ : ∃ f d,
          (w.report o (.compiled x)).1.round.graph = o.round.graph.record f d ∧
            d.name = c.name := by
        simp only [report, associateIn, Round.associate, Graph.associate, hinfo]
        exact ⟨_, _, rfl, rfl⟩
      have hclass : (Report.compiled x).class? = some d.name := by
        simp [Report.class?, hinfo, hname]
      rw [hgraph]
      refine ⟨h.record (hnew _ hclass) f, fun n hn => ?_⟩
      rw [Table.has_eq_isSome, Graph.fileOf_record] at hn
      by_cases hd : d.name = n
      · exact .inr (hd ▸ hclass)
      · rw [if_neg hd, ← Table.has_eq_isSome] at hn
        exact .inl hn

/-- A round in which every class was reported once lists it under its file, and knows no
other class. -/
theorem placed_collect (w : Workspace) {reports : List Report} (honce : Report.Once reports) :
    (w.collect reports).1.round.graph.Placed ∧
      ∀ n, (w.collect reports).1.round.graph.fileOf.has n = true →
        n ∈ reports.filterMap Report.class? := by
  induction reports using List.reverseRecOn with
  | nil =>
    constructor
    · intro f c hc
      simp [collect, OpenRound.fresh, Round.new, Graph.empty] at hc
    · intro n hn
      simp [collect, OpenRound.fresh, Round.new, Graph.empty] at hn
  | append_singleton reports report ih =>
    simp only [Report.Once, List.filterMap_append, List.nodup_append] at honce
    obtain ⟨hplaced, hknown⟩ := ih honce.1
    have hsnoc : w.collect (reports ++ [report]) =
        (w.collect reports).2.report (w.collect reports).1 report := List.foldl_concat ..
    have hnew : ∀ n, report.class? = some n →
        (w.collect reports).1.round.graph.fileOf.has n = false := by
      intro n hclass
      by_contra hhas
      exact honce.2.2 n (hknown n (by simpa using hhas)) n (by simp [hclass]) rfl
    obtain ⟨hstays, hadded⟩ := (w.collect reports).2.placed_report hplaced hnew
    rw [hsnoc]
    refine ⟨hstays, fun n hn => ?_⟩
    rw [List.filterMap_append, List.mem_append]
    rcases hadded n hn with hold | hclass
    · exact .inl (hknown n hold)
    · exact .inr (by simp [hclass])

end Workspace

/-! ## The files of a merged round -/

namespace Graph

variable {names : NameTable} {main : Graph} {r : Round}

/-- A file that the log notes has the entry of the round after a merge. -/
theorem get?_mergeRound_of_noted (h : r.rebuild = false) {f : Symbol}
    (hf : f ∈ r.log.changedFiles) :
    (main.mergeRound names r).classesIn.get? f = r.graph.classesIn.get? f := by
  apply Option.ext
  intro s
  rw [classesIn_mergeRound h]
  simp [hf]

/-- Any other file has the entry that it had, or none when it was removed. -/
theorem get?_mergeRound_of_not_noted (h : r.rebuild = false) {f : Symbol}
    (hf : f ∉ r.log.changedFiles) :
    (main.mergeRound names r).classesIn.get? f =
      if f ∈ Merge.knownFiles names r.removedFiles then none else main.classesIn.get? f := by
  apply Option.ext
  intro s
  rw [classesIn_mergeRound h]
  by_cases hk : f ∈ Merge.knownFiles names r.removedFiles <;> simp [hf, hk]

theorem valuesOf_mergeRound_of_noted (h : r.rebuild = false) {f : Symbol}
    (hf : f ∈ r.log.changedFiles) :
    (main.mergeRound names r).classesIn.valuesOf f = r.graph.classesIn.valuesOf f := by
  simp only [Table.valuesOf, get?_mergeRound_of_noted h hf]

theorem valuesOf_mergeRound_of_not_noted (h : r.rebuild = false) {f : Symbol}
    (hf : f ∉ r.log.changedFiles) :
    (main.mergeRound names r).classesIn.valuesOf f =
      if f ∈ Merge.knownFiles names r.removedFiles then .empty else main.classesIn.valuesOf f := by
  simp only [Table.valuesOf, get?_mergeRound_of_not_noted h hf]
  split <;> rfl

/-- A file of `g` holds what a round compiled into it: it lists the classes of the round, and
each class that the round changed or added has the round's descriptor. -/
structure Carries (g main round : Graph) (f : Symbol) : Prop where
  classes : ∀ n, (g.classesIn.valuesOf f).has n = true ↔ (round.classesIn.valuesOf f).has n = true
  content : ∀ e ∈ ClassEvent.ofFile main round f, e.restates = true →
    ∃ c ∈ round.classesIn.valuesOf f, c.name = e.className ∧ c ∈ g.classesIn.valuesOf f

variable {round g : Graph} {f : Symbol}

/-- A file that lists just what the round has for it holds what was compiled. -/
theorem carries_of_eq (h : g.classesIn.valuesOf f = round.classesIn.valuesOf f) :
    g.Carries main round f where
  classes n := by rw [h]
  content e he hr := by
    obtain ⟨c, hc, hn⟩ := IdSet.has_iff_mem.1 (ClassEvent.has_of_restates he hr)
    exact ⟨c, hc, hn, h ▸ hc⟩

/-- Nothing else than the list of the file counts. -/
theorem carries_congr {g' : Graph} (h : g.classesIn.valuesOf f = g'.classesIn.valuesOf f) :
    g.Carries main round f ↔ g'.Carries main round f := by
  constructor
  · rintro ⟨hclasses, hcontent⟩
    exact ⟨h ▸ hclasses, h ▸ hcontent⟩
  · rintro ⟨hclasses, hcontent⟩
    exact ⟨h ▸ hclasses, h ▸ hcontent⟩

/-- A file about which the round has no news holds what was compiled already. -/
theorem carries_of_no_event (h : ∀ e, e ∉ ClassEvent.ofFile main round f) :
    main.Carries main round f where
  classes n := by
    simp only [IdSet.has_iff_mem]
    constructor
    · rintro ⟨c, hc, rfl⟩
      by_contra hno
      refine h (.removed c) (ClassEvent.mem_ofFile_removed.2 ⟨hc, ?_⟩)
      rwa [← IdSet.has_iff_mem, Bool.not_eq_true] at hno
    · rintro ⟨c, hc, rfl⟩
      by_contra hno
      refine h (.added c) (ClassEvent.mem_ofFile_added.2 ⟨hc, ?_⟩)
      rwa [← IdSet.has_iff_mem, Bool.not_eq_true] at hno
  content e he := absurd he (h e)

/-- **Which files a merge commits**: a file that declares a class holds what was compiled
exactly when the log notes it, or when it held that already and was not removed. -/
theorem carries_mergeRound_iff (h : r.rebuild = false) {c : ClassInfo}
    (hc : c ∈ r.graph.classesIn.valuesOf f) :
    (main.mergeRound names r).Carries main r.graph f ↔
      f ∈ r.log.changedFiles ∨
        f ∉ Merge.knownFiles names r.removedFiles ∧ main.Carries main r.graph f := by
  by_cases hnoted : f ∈ r.log.changedFiles
  · exact iff_of_true (carries_of_eq (valuesOf_mergeRound_of_noted h hnoted)) (.inl hnoted)
  · have hvalues : (main.mergeRound names r).classesIn.valuesOf f =
        if f ∈ Merge.knownFiles names r.removedFiles then .empty else main.classesIn.valuesOf f :=
      valuesOf_mergeRound_of_not_noted h hnoted
    by_cases hremoved : f ∈ Merge.knownFiles names r.removedFiles
    · rw [if_pos hremoved] at hvalues
      have hgone : ¬ (main.mergeRound names r).Carries main r.graph f := by
        intro hcarries
        have hhas := (hcarries.classes c.name).2 (IdSet.has_of_mem hc)
        rw [hvalues] at hhas
        simp at hhas
      simp [hgone, hnoted, hremoved]
    · rw [if_neg hremoved] at hvalues
      rw [carries_congr hvalues]
      simp [hnoted, hremoved]

/-- A round that was seen to its end is noted in every file that has news, where every class
is listed under its file. -/
theorem noted_of_event {log : ChangeLog} {files : List Symbol}
    (hlog : log = ChangeLog.empty.noteAll main round (ClassEvent.ofFiles main round files))
    (hf : f ∈ files) (hplaced : round.Placed)
    (hmain : ∀ d ∈ main.classesIn.valuesOf f, main.fileOf.get? d.name = some f)
    {e : ClassEvent} (he : e ∈ ClassEvent.ofFile main round f) : f ∈ log.changedFiles := by
  rw [hlog, ChangeLog.mem_changedFiles_noteAll]
  refine .inr ⟨e, ClassEvent.mem_ofFiles.2 ⟨f, hf, he⟩, ?_⟩
  cases e with
  | changed change =>
    obtain ⟨-, hnow, hname, -⟩ := ClassEvent.mem_ofFile_changed.1 he
    show round.fileOf.get? change.past.name = some f
    rw [hname]
    exact hplaced f _ hnow
  | removed d => exact hmain d (ClassEvent.mem_ofFile_removed.1 he).1
  | added d => exact hplaced f d (ClassEvent.mem_ofFile_added.1 he).1

end Graph

/-! ## Comparisons in any order -/

namespace Round

/-- The round compared with the graph so far, its files being visited in the given order. -/
def compareVisiting (names : NameTable) (main : Graph) (r : Round) (q : RoundRequest)
    (files : List Symbol) : NameTable × Round × Comparison :=
  let (names, r) := r.prepare names q.removed q.files
  let c := compareInOrder names main r.graph r.log q files
  let (_, _, names) := internKeyNames names
  (names, { r with log := c.log }, c)

variable {names : NameTable} {main : Graph} {r : Round} {q : RoundRequest}

/-- A comparison visits the files in the order of their entries. -/
theorem compareVisiting_keys :
    r.compareVisiting names main q (r.prepare names q.removed q.files).2.graph.classesIn.keys =
      r.compareFully names main q := rfl

/-- A compared round is merged, whatever the comparison answered. -/
theorem integrate_compareVisiting (files : List Symbol) :
    main.integrate (r.compareVisiting names main q files).1
        (r.compareVisiting names main q files).2.1 =
      .ok ((r.compareVisiting names main q files).1,
        main.mergeRound (r.compareVisiting names main q files).1
          (r.compareVisiting names main q files).2.1) := rfl

end Round

namespace Workspace

/-- **Which files a round commits**: a round in which every class was reported once, compared
with its files visited in any order, is merged whatever the comparison answered.  A file that
declares a class then holds what was compiled exactly when the comparison looked at an event
that notes the file, or when the file held it before and was not removed.

All files do where the comparison asks for no rebuild, no removed file declares a class, and
the graph so far lists the classes of the compiled files where they are recorded. -/
theorem carries_integrate_iff (w : Workspace) {reports : List Report}
    (honce : Report.Once reports) (q : RoundRequest) (files : List Symbol) :
    let o := (w.collect reports).1
    let c := o.round.compareVisiting (w.collect reports).2.names w.main q files
    let round := c.2.1.graph
    let s := Scene.of (o.round.prepare (w.collect reports).2.names q.removed q.files).1 w.main
      round q
    ∃ main', w.main.integrate c.1 c.2.1 = .ok (c.1, main') ∧
      (∀ f, (∃ d, d ∈ round.classesIn.valuesOf f) →
        (main'.Carries w.main round f ↔
          (∃ e ∈ s.lookedAt q.removed (ClassEvent.ofFiles w.main round files),
              e.file? w.main round = some f) ∨
            f ∉ Merge.knownFiles c.1 q.removed ∧ w.main.Carries w.main round f)) ∧
      (files.Perm round.classesIn.keys →
        (∃ affected, c.2.2.outcome = .ok (.incremental affected)) →
        (∀ f ∈ Merge.knownFiles c.1 q.removed, ∀ d, d ∉ round.classesIn.valuesOf f) →
        (∀ f, round.classesIn.has f = true → ∀ d ∈ w.main.classesIn.valuesOf f,
          w.main.fileOf.get? d.name = some f) →
        ∀ f, (∃ d, d ∈ round.classesIn.valuesOf f) → main'.Carries w.main round f) := by
  intro o c round s
  have hlog : o.round.log = .empty := (reported_collect w reports).log
  have hupdates : c.2.1.rebuild = false := (reported_collect w reports).rebuild
  have hplaced : round.Placed := ((placed_collect w honce).1.enterNotes _ _).addFiles _ _
  have hnoted : c.2.1.log = ChangeLog.empty.noteAll w.main round
      (s.lookedAt q.removed (ClassEvent.ofFiles w.main round files)) :=
    congrArg (fun log : ChangeLog => log.noteAll w.main round _) hlog
  refine ⟨_, Round.integrate_compareVisiting files, ?_, ?_⟩
  · intro f hf
    obtain ⟨d, hd⟩ := hf
    rw [Graph.carries_mergeRound_iff hupdates hd, hnoted, ChangeLog.mem_changedFiles_noteAll]
    simp only [ChangeLog.empty, IdSet.notMem_empty, false_or]
    rfl
  · intro hfiles hout hremoved hmain f hf
    obtain ⟨affected, hout⟩ := hout
    obtain ⟨d, hd⟩ := hf
    have hhas : round.classesIn.has f = true := Table.has_of_mem_valuesOf hd
    have hvisited : f ∈ files := hfiles.mem_iff.2 (Table.mem_keys.2 hhas)
    have hall : c.2.1.log =
        ChangeLog.empty.noteAll w.main round (ClassEvent.ofFiles w.main round files) := by
      rw [← hlog]
      exact log_compareInOrder hout
    rw [Graph.carries_mergeRound_iff hupdates hd]
    by_cases hnews : ∃ e, e ∈ ClassEvent.ofFile w.main round f
    · obtain ⟨e, he⟩ := hnews
      exact .inl (Graph.noted_of_event hall hvisited hplaced (hmain f hhas) he)
    · refine .inr ⟨fun hk => hremoved f hk d hd, ?_⟩
      exact Graph.carries_of_no_event fun e he => hnews ⟨e, he⟩

end Workspace

/-! ## A round that is committed in part

One file loses a constant, so everything must be rebuilt.  The other file, which is visited
later, gets a second class.  The round is merged nevertheless: the first file is written, the
other one is not. -/

namespace PartCommit

def names : NameTable :=
  NameTable.new.internAll ["java/lang/Object", "<init>", "A.java", "B.java", "p/A", "p/B", "p/B2",
    "K"]

/-- A class of the example. -/
def info (name : Symbol) : ClassInfo := .plain name (.ofFlags [.pub]) (.named ⟨1⟩)

/-- The constant that one of the classes declares at first. -/
def constant : FieldInfo :=
  ⟨⟨8⟩, .ofFlags [.pub, .static, .final], .primitive .int, none, some (.int 1)⟩

def space : Workspace :=
  { Workspace.inMemory with
    names := names
    main := (Graph.empty.record ⟨3⟩ ((info ⟨5⟩).withField constant)).record ⟨4⟩ (info ⟨6⟩) }

def reports : List Report :=
  [.compiled ⟨"A.java", "p/A.class", some (info ⟨5⟩)⟩,
    .compiled ⟨"B.java", "p/B.class", some (info ⟨6⟩)⟩,
    .compiled ⟨"B.java", "p/B2.class", some (info ⟨7⟩)⟩]

def request : RoundRequest where
  removed := []
  files := [⟨"A.java"⟩, ⟨"B.java"⟩]
  compiled := [⟨"A.java"⟩, ⟨"B.java"⟩]
  accepts _ := true
  resolver := none
  waiting := .onlyArrived

/-- The request of somebody who knows the readers of every constant. -/
def informed : RoundRequest :=
  { request with resolver := some fun _ => .now (.known (.single ⟨"D.java"⟩)) }

/-- What a comparison of the round leaves. -/
def compared (q : RoundRequest) : NameTable × Round × Comparison :=
  (space.collect reports).1.round.compareVisiting (space.collect reports).2.names space.main q
    [⟨3⟩, ⟨4⟩]

/-- The graph with the round merged into it. -/
def merged (q : RoundRequest) : Graph := space.main.mergeRound (compared q).1 (compared q).2.1

theorem once_reports : Report.Once reports := by decide

/-- With the constant's readers known, the round is committed whole. -/
theorem whole_if_informed :
    ∃ main', space.main.integrate (compared informed).1 (compared informed).2.1 =
        .ok ((compared informed).1, main') ∧
      ∀ f, (∃ d, d ∈ (compared informed).2.1.graph.classesIn.valuesOf f) →
        main'.Carries space.main (compared informed).2.1.graph f := by
  obtain ⟨main', hmerged, -, hwhole⟩ :=
    Workspace.carries_integrate_iff space once_reports informed [⟨3⟩, ⟨4⟩]
  refine ⟨main', hmerged, hwhole ?_ ⟨.single ⟨"D.java"⟩, rfl⟩ ?_ ?_⟩
  · exact .refl _
  · intro f hf
    exact absurd hf List.not_mem_nil
  · intro f _ d hd
    have hkeys : space.main.classesIn.keys = [⟨3⟩, ⟨4⟩] := rfl
    have hf : f ∈ space.main.classesIn.keys := Table.mem_keys.2 (Table.has_of_mem_valuesOf hd)
    have hplaced : ∀ f ∈ space.main.classesIn.keys,
        ∀ d ∈ (space.main.classesIn.valuesOf f).toList, space.main.fileOf.get? d.name = some f := by
      rw [hkeys]
      decide
    exact hplaced f hf d hd

/-- Without, the file that is visited first is written, and the other one is not. -/
theorem not_whole :
    (compared request).2.2.outcome = .ok .fullRebuild ∧
      space.main.integrate (compared request).1 (compared request).2.1 =
        .ok ((compared request).1, merged request) ∧
      merged request ≠ space.main ∧
      ¬ ∀ f, (∃ d, d ∈ (compared request).2.1.graph.classesIn.valuesOf f) →
        (merged request).Carries space.main (compared request).2.1.graph f := by
  refine ⟨rfl, rfl, ?_, ?_⟩
  · intro h
    have hwritten : ((merged request).classesIn.valuesOf ⟨3⟩).toList.map ClassInfo.fields = [[]] :=
      rfl
    rw [h] at hwritten
    exact absurd hwritten (by decide)
  · intro h
    have hlacks : ((merged request).classesIn.valuesOf ⟨4⟩).has ⟨7⟩ = false := rfl
    have hround : ((compared request).2.1.graph.classesIn.valuesOf ⟨4⟩).has ⟨7⟩ = true := rfl
    obtain ⟨d, hd, -⟩ := IdSet.has_iff_mem.1 hround
    rw [((h ⟨4⟩ ⟨d, hd⟩).classes ⟨7⟩).2 hround] at hlacks
    simp at hlacks

end PartCommit

end ClassImpact

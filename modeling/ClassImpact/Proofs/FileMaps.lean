import Mathlib
import ClassImpact.Proofs.Projects

/-!
# The file maps after a merge

A merge writes the two file maps at different moments, from different parts of the log.
Compared with the project that the build leaves, the log is exact: the classes that it
restates are those that a compiled file declares in a new way, the classes that it
deletes are declared nowhere any more, and a compiled file that it passes over declares
what it declared before.
-/

namespace ClassImpact

/-- A class that `p` declares, and `p'` does not any more. -/
def Project.Drops (p p' : Project) (n : Symbol) : Prop :=
  (∃ f, p.Declares f n) ∧ ¬ ∃ f, p'.Declares f n

namespace Round

/-- A round that turns the recorded project `p` into `p'`. -/
structure Turns (names : NameTable) (main : Graph) (r : Round) (p p' : Project) : Prop where
  records : main.Records p
  holds : r.graph.Holds p' (fun f => r.graph.classesIn.has f = true)
  oneFile : p'.OneFile
  noted : r.log = noteRound main r.graph .empty
  updates : r.rebuild = false
  disjoint : ∀ f ∈ Merge.knownFiles names r.removedFiles, r.graph.classesIn.has f = false
  removed : ∀ f ∈ Merge.knownFiles names r.removedFiles, p' f = .empty
  kept : ∀ f, r.graph.classesIn.has f = false → f ∉ Merge.knownFiles names r.removedFiles →
    p' f = p f

namespace Turns

variable {names : NameTable} {main : Graph} {r : Round} {p p' : Project}

theorem declares_kept (h : r.Turns names main p p') {f : Symbol}
    (hc : r.graph.classesIn.has f = false) (hr : f ∉ Merge.knownFiles names r.removedFiles)
    (n : Symbol) : p'.Declares f n ↔ p.Declares f n := by
  rw [Project.Declares, h.kept f hc hr, Project.Declares]

theorem not_declares_removed (h : r.Turns names main p p') {f : Symbol}
    (hr : f ∈ Merge.knownFiles names r.removedFiles) (n : Symbol) : ¬ p'.Declares f n := by
  rw [Project.Declares, h.removed f hr]
  simp

/-! ## The log against the projects -/

/-- A restated class is declared by a compiled file. -/
theorem declares_of_changed (h : r.Turns names main p p') {n : Symbol}
    (hn : n ∈ r.log.changedClasses) :
    ∃ f, r.graph.classesIn.has f = true ∧ p'.Declares f n := by
  rw [h.noted, mem_changedClasses_noteRound] at hn
  obtain ⟨f, hf, e, he, hr, rfl⟩ := hn
  exact ⟨f, hf, ((h.holds.classesIn f _).1 (ClassEvent.has_of_restates he hr)).2⟩

/-- A compiled file restates the classes that are new to it. -/
theorem changed_of_new (h : r.Turns names main p p') {f n : Symbol}
    (hf : r.graph.classesIn.has f = true) (hn : p'.Declares f n) (hold : ¬ p.Declares f n) :
    n ∈ r.log.changedClasses := by
  obtain ⟨c, hc, rfl⟩ := IdSet.has_iff_mem.1 ((h.holds.classesIn f n).2 ⟨hf, hn⟩)
  rw [h.noted, mem_changedClasses_noteRound]
  have hsplit := @ClassEvent.has_or_restated main _ _ _ hc
  rcases hsplit with hm | ⟨e, he, hr, hname⟩
  · exact absurd ((h.records.classesIn f _).1 hm) hold
  · exact ⟨f, hf, e, he, hr, hname⟩

theorem deleted_iff (h : r.Turns names main p p') {n : Symbol} :
    r.log.deletedClasses.has n = true ↔
      (∀ f, r.graph.classesIn.has f = true → ¬ p'.Declares f n) ∧
        ∃ f, r.graph.classesIn.has f = true ∧ p.Declares f n := by
  have hno : r.graph.fileOf.has n = false ↔
      ∀ f, r.graph.classesIn.has f = true → ¬ p'.Declares f n := by
    rw [← Bool.not_eq_true, h.holds.has_fileOf]
    simp only [not_exists, not_and]
  rw [h.noted, has_deletedClasses_noteRound, hno]
  refine and_congr_right fun hn => exists_congr fun f => and_congr_right fun hf => ?_
  rw [h.records.classesIn]
  refine and_iff_left ?_
  rw [← Bool.not_eq_true, h.holds.classesIn]
  exact fun hd => hn f hf hd.2

theorem restates_iff (h : r.Turns names main p p') {n : Symbol} :
    r.Restates n ↔ n ∈ r.log.changedClasses := by
  refine and_iff_left_of_imp fun hn => ?_
  rw [← Bool.not_eq_true, h.deleted_iff]
  rintro ⟨hno, -⟩
  obtain ⟨f, hf, hd⟩ := h.declares_of_changed hn
  exact hno f hf hd

/-- A class leaves with the round when a file that was compiled or removed declared it,
and no compiled file does. -/
theorem drops_iff (h : r.Turns names main p p') {n : Symbol} :
    r.Drops names main n ↔
      (∀ f, r.graph.classesIn.has f = true → ¬ p'.Declares f n) ∧
        ∃ f, (r.graph.classesIn.has f = true ∨ f ∈ Merge.knownFiles names r.removedFiles) ∧
          p.Declares f n := by
  have hno : r.graph.fileOf.has n = false ↔
      ∀ f, r.graph.classesIn.has f = true → ¬ p'.Declares f n := by
    rw [← Bool.not_eq_true, h.holds.has_fileOf]
    simp only [not_exists, not_and]
  rw [Drops, h.deleted_iff, hno, ← and_or_left]
  refine and_congr_right fun _ => ?_
  simp only [h.records.classesIn, ← exists_or, or_and_right]

/-- A class leaves with the round when the new project drops it. -/
theorem drops_iff_dropped (h : r.Turns names main p p') {n : Symbol} :
    r.Drops names main n ↔ p.Drops p' n := by
  rw [h.drops_iff]
  constructor
  · rintro ⟨hno, f, hf, hold⟩
    refine ⟨⟨f, hold⟩, ?_⟩
    rintro ⟨g, hg⟩
    -- declared by a file that stays, so by that file before
    have hc : ¬ r.graph.classesIn.has g = true := fun hc => hno g hc hg
    have hr : g ∉ Merge.knownFiles names r.removedFiles := fun hr =>
      h.not_declares_removed hr n hg
    have hkept := (h.declares_kept (by simpa using hc) hr n).1 hg
    obtain rfl := h.records.oneFile f g n hold hkept
    exact hf.elim hc hr
  · rintro ⟨⟨f, hold⟩, hno⟩
    refine ⟨fun g _ hg => hno ⟨g, hg⟩, f, ?_, hold⟩
    by_contra hleft
    obtain ⟨hc, hr⟩ := not_or.1 hleft
    exact hno ⟨f, (h.declares_kept (by simpa using hc) hr n).2 hold⟩

/-- Only compiled files are noted as changed. -/
theorem compiled_of_changedFile (h : r.Turns names main p p') {f : Symbol}
    (hf : f ∈ r.log.changedFiles) : r.graph.classesIn.has f = true := by
  rw [h.noted, mem_changedFiles_noteRound] at hf
  obtain ⟨file, hfile, e, he, hf⟩ := hf
  cases e with
  | changed change => exact ((h.holds.fileOf _ _).1 hf).1
  | added c => exact ((h.holds.fileOf _ _).1 hf).1
  | removed c =>
    -- the file that the class is recorded under is the one that lists it
    have hc := ClassEvent.mem_ofFile_removed.1 he
    have hlist : p.Declares file c.name := (h.records.classesIn _ _).1 (IdSet.has_of_mem hc.1)
    have hfile' : main.fileOf.get? c.name = some file := (h.records.fileOf _ _).2 hlist
    exact Option.some.inj (hfile'.symm.trans hf) ▸ hfile

/-- A compiled file that is not noted as changed declares what it declared. -/
theorem declares_of_unchanged (h : r.Turns names main p p') {f : Symbol}
    (hf : r.graph.classesIn.has f = true) (hno : f ∉ r.log.changedFiles) (n : Symbol) :
    p'.Declares f n ↔ p.Declares f n := by
  rw [h.noted, mem_changedFiles_noteRound] at hno
  constructor
  · intro hn
    by_contra hold
    have hnow := (h.holds.classesIn f n).2 ⟨hf, hn⟩
    obtain ⟨c, hc, rfl⟩ := IdSet.has_iff_mem.1 hnow
    have hadded : .added c ∈ ClassEvent.ofFile main r.graph f :=
      ClassEvent.mem_ofFile_added.2 ⟨hc, by
        rw [← Bool.not_eq_true, h.records.classesIn]
        exact hold⟩
    exact hno ⟨f, hf, _, hadded, (h.holds.fileOf _ _).2 ⟨hf, hn⟩⟩
  · intro hold
    by_contra hn
    obtain ⟨c, hc, rfl⟩ := IdSet.has_iff_mem.1 ((h.records.classesIn f n).2 hold)
    have hremoved : .removed c ∈ ClassEvent.ofFile main r.graph f :=
      ClassEvent.mem_ofFile_removed.2 ⟨hc, by
        rw [← Bool.not_eq_true]
        exact fun hd => hn ((h.holds.classesIn f _).1 hd).2⟩
    exact hno ⟨f, hf, _, hremoved, (h.records.fileOf _ _).2 hold⟩

/-- A restated class is declared by a file that is noted as changed. -/
theorem noted_of_changed (h : r.Turns names main p p') {n : Symbol}
    (hn : n ∈ r.log.changedClasses) : ∃ f ∈ r.log.changedFiles, p'.Declares f n := by
  rw [h.noted, mem_changedClasses_noteRound] at hn
  obtain ⟨f, hf, e, he, hr, rfl⟩ := hn
  have hdecl := (h.holds.classesIn f _).1 (ClassEvent.has_of_restates he hr)
  refine ⟨f, ?_, hdecl.2⟩
  rw [h.noted, mem_changedFiles_noteRound]
  refine ⟨f, hf, e, he, ?_⟩
  cases e with
  | changed change => exact (h.holds.fileOf _ _).2 hdecl
  | removed c => simp [ClassEvent.restates] at hr
  | added c => exact (h.holds.fileOf _ _).2 hdecl

/-- A file that stays, and is not noted as changed, declares what it declared. -/
theorem declares_not_noted (h : r.Turns names main p p') {f : Symbol}
    (hno : f ∉ r.log.changedFiles) (hr : f ∉ Merge.knownFiles names r.removedFiles) (n : Symbol) :
    p'.Declares f n ↔ p.Declares f n := by
  by_cases hf : r.graph.classesIn.has f = true
  · exact h.declares_of_unchanged hf hno n
  · exact h.declares_kept (by simpa using hf) hr n

/-- A class of such a file takes no usages back. -/
theorem not_former (h : r.Turns names main p p') {f d o : Symbol} (hno : f ∉ r.log.changedFiles)
    (hr : f ∉ Merge.knownFiles names r.removedFiles) (hold : p.Declares f d) :
    ¬ r.Former names main o d := by
  have hnow : p'.Declares f d := (h.declares_not_noted hno hr d).2 hold
  rintro (⟨hk, hc, hd, -⟩ | ⟨hc, hd, -⟩ | ⟨hres, -, -, -, -, -, -⟩)
  · have hdecl := (h.records.classesIn _ _).1 (IdSet.has_of_mem hc)
    rw [ident_classInfo, hd] at hdecl
    exact hr (h.records.oneFile _ _ _ hdecl hold ▸ hk)
  · have hgone := h.deleted_iff.1 (IdSet.has_of_mem hc)
    rw [ident_classInfo, hd] at hgone
    obtain ⟨hgone, g, hg, hgd⟩ := hgone
    exact hgone f (h.records.oneFile g f d hgd hold ▸ hg) hnow
  · obtain ⟨g, hg, hgd⟩ := h.noted_of_changed (h.restates_iff.1 hres)
    exact hno (h.oneFile g f d hgd hnow ▸ hg)

/-! ## The file maps -/

theorem fileOf_merged (h : r.Turns names main p p') (n f : Symbol) :
    (main.mergeRound names r).fileOf.get? n = some f ↔ p'.Declares f n := by
  rw [Graph.fileOf_mergeRound h.updates, h.restates_iff, h.drops_iff, h.holds.fileOf,
    h.records.fileOf]
  constructor
  · rintro (⟨-, -, hn⟩ | ⟨hch, hn, hno⟩)
    · exact hn
    · have hstay : r.graph.classesIn.has f = true ∨ f ∈ Merge.knownFiles names r.removedFiles →
          p'.Declares f n := by
        intro hleft
        by_contra hgone
        refine hno ⟨fun g hg hgn => ?_, f, hleft, hn⟩
        -- declared by another compiled file, so restated there
        refine hch (h.changed_of_new hg hgn fun hp => hgone ?_)
        exact h.records.oneFile g f n hp hn ▸ hgn
      by_cases hf : r.graph.classesIn.has f = true
      · exact hstay (.inl hf)
      · by_cases hr : f ∈ Merge.knownFiles names r.removedFiles
        · exact hstay (.inr hr)
        · exact (h.declares_kept (by simpa using hf) hr n).2 hn
  · intro hn
    by_cases hf : r.graph.classesIn.has f = true
    · by_cases hch : n ∈ r.log.changedClasses
      · exact .inl ⟨hch, hf, hn⟩
      · refine .inr ⟨hch, ?_, fun hd => hd.1 f hf hn⟩
        by_contra hold
        exact hch (h.changed_of_new hf hn hold)
    · have hr : f ∉ Merge.knownFiles names r.removedFiles := fun hr =>
        h.not_declares_removed hr n hn
      have hold := (h.declares_kept (by simpa using hf) hr n).1 hn
      refine .inr ⟨fun hch => ?_, hold, ?_⟩
      · obtain ⟨g, hg, hgn⟩ := h.declares_of_changed hch
        exact hf (h.oneFile f g n hn hgn ▸ hg)
      · rintro ⟨-, g, hg, hgn⟩
        obtain rfl := h.records.oneFile f g n hold hgn
        exact hg.elim hf hr

theorem classesIn_merged (h : r.Turns names main p p') (f n : Symbol) :
    ((main.mergeRound names r).classesIn.valuesOf f).has n = true ↔ p'.Declares f n := by
  have hvalues : ((main.mergeRound names r).classesIn.valuesOf f).has n = true ↔
      f ∈ r.log.changedFiles ∧ (r.graph.classesIn.valuesOf f).has n = true ∨
        f ∉ r.log.changedFiles ∧ (main.classesIn.valuesOf f).has n = true ∧
          f ∉ Merge.knownFiles names r.removedFiles := by
    simp only [IdSet.has_iff_mem]
    exact Graph.exists_mem_classesIn_mergeRound h.updates
  rw [hvalues, h.holds.classesIn, h.records.classesIn]
  constructor
  · rintro (⟨-, -, hn⟩ | ⟨hc, hn, hr⟩)
    · exact hn
    · by_cases hf : r.graph.classesIn.has f = true
      · exact (h.declares_of_unchanged hf hc n).2 hn
      · exact (h.declares_kept (by simpa using hf) hr n).2 hn
  · intro hn
    have hr : f ∉ Merge.knownFiles names r.removedFiles := fun hr =>
      h.not_declares_removed hr n hn
    by_cases hc : f ∈ r.log.changedFiles
    · exact .inl ⟨hc, h.compiled_of_changedFile hc, hn⟩
    · refine .inr ⟨hc, ?_, hr⟩
      by_cases hf : r.graph.classesIn.has f = true
      · exact (h.declares_of_unchanged hf hc n).1 hn
      · exact (h.declares_kept (by simpa using hf) hr n).1 hn

/-- The merged graph records the new project. -/
theorem records_merged (h : r.Turns names main p p') : (main.mergeRound names r).Records p' :=
  ⟨h.fileOf_merged, h.classesIn_merged⟩

end Turns

end Round

/-! ## Builds -/

/-- A compared build turns the project so far into the one after the build. -/
theorem Build.turns_compared {t : NameTable} {main : Graph} {p : Project} {b : Build}
    (hrec : main.Records p)
    (hdisj : ∀ f ∈ Merge.knownFiles t b.files, f ∉ Merge.knownFiles t b.removed)
    (hone : (p.after t b).OneFile) : (b.comparedRound t main).Turns t main p (p.after t b) := by
  have hkeys : ∀ f, (b.graph t).classesIn.has f = false ↔ f ∉ Merge.knownFiles t b.files := by
    intro f
    rw [← Bool.not_eq_true, keys_graph]
  have hholds : (b.graph t).Holds (p.after t b) (fun f => (b.graph t).classesIn.has f = true) := by
    simpa only [keys_graph] using holds_graph hone
  exact
    { records := hrec
      holds := hholds
      oneFile := hone
      noted := rfl
      updates := rfl
      disjoint := fun f hf => (hkeys f).2 fun hc => hdisj f hc hf
      removed := fun f (hf : f ∈ Merge.knownFiles t b.removed) => by
        rw [Project.after, if_neg fun hc => hdisj f hc hf, if_pos hf]
      kept := fun f hf (hr : f ∉ Merge.knownFiles t b.removed) => by
        rw [Project.after, if_neg ((hkeys f).1 hf), if_neg hr] }

/-- The round of a build turns the project so far into the one after the build. -/
theorem Build.turns {names names' : NameTable} {main : Graph} {p : Project} {b : Build} {r : Round}
    (hrec : main.Records p)
    (hdisj : ∀ f ∈ Merge.knownFiles names' b.files, f ∉ Merge.knownFiles names' b.removed)
    (hcmp : (b.round names).2.Bounded (b.round names).1 main b.removed b.files names' r)
    (hone : (p.after names' b).OneFile) : r.Turns names' main p (p.after names' b) := by
  obtain ⟨-, rfl⟩ := bounded_round hcmp
  exact turns_compared hrec hdisj hone

/-- **A merge is a rebuild of the file maps**: where the graph so far records a project,
the graph with a compared round merged into it records the project after the build. -/
theorem Graph.records_integrate {names names' : NameTable} {main : Graph} {p : Project}
    {b : Build} {r : Round} (hrec : main.Records p)
    (hdisj : ∀ f ∈ Merge.knownFiles names' b.files, f ∉ Merge.knownFiles names' b.removed)
    (hcmp : (b.round names).2.Bounded (b.round names).1 main b.removed b.files names' r)
    (hone : (p.after names' b).OneFile) :
    ∃ main', main.integrate names' r = .ok (names', main') ∧ main'.Records (p.after names' b) :=
  ⟨_, hcmp.integrate, (Build.turns hrec hdisj hcmp hone).records_merged⟩

/-! ## A class that moves

A class leaves its file, which is removed, for a new one, and another class uses it. -/

namespace Relocation

/-- The names of the example, with numbers from one on. -/
def names : NameTable :=
  NameTable.new.internAll ["p/X", "A.java", "p/Y", "C.java", "B.java", "p/X.class",
    "java/lang/Object", "<init>"]

/-- The class that moves. -/
def moved : ClassInfo := .plain ⟨1⟩ (.ofFlags [.pub]) (.named ⟨7⟩)
/-- A class that mentions it. -/
def user : ClassInfo :=
  { ClassInfo.plain ⟨3⟩ (.ofFlags [.pub]) (.named ⟨7⟩) with usages := .single (.mention ⟨1⟩) }

/-- Both classes, each in a file of its own. -/
def main : Graph := (Graph.empty.record ⟨2⟩ moved).record ⟨4⟩ user
def project : Project := fun f =>
  if f = ⟨2⟩ then .single moved else if f = ⟨4⟩ then .single user else .empty

/-- The first class is found in a new file, and its old file is gone. -/
def build : Build where
  outputs := [⟨"B.java", "p/X.class", some moved⟩]
  imports := []
  files := [⟨"B.java"⟩]
  removed := [⟨"A.java"⟩]
  covered := by simp

def compared : NameTable × Round :=
  (build.round names).2.compareEasily (build.round names).1 main build.removed build.files


theorem classesIn_main (f : Symbol) : main.classesIn.valuesOf f = project f := by
  simp only [main, Graph.classesIn_record, Table.valuesOf_addValue, project]
  by_cases h₁ : f = ⟨2⟩
  · subst h₁
    rfl
  · by_cases h₂ : f = ⟨4⟩
    · subst h₂
      rfl
    · simp [h₁, h₂, Ne.symm h₁, Ne.symm h₂, Graph.empty]

theorem declares_project {f n : Symbol} :
    project.Declares f n ↔ f = ⟨2⟩ ∧ n = ⟨1⟩ ∨ f = ⟨4⟩ ∧ n = ⟨3⟩ := by
  rw [Project.Declares, project]
  by_cases h₁ : f = ⟨2⟩
  · simpa [h₁, moved, ClassInfo.plain, ident_classInfo] using eq_comm
  · by_cases h₂ : f = ⟨4⟩
    · simpa [h₂, user, ClassInfo.plain, ident_classInfo] using eq_comm
    · simp [h₁, h₂]

theorem records_main : main.Records project where
  fileOf n f := by
    rw [declares_project, main, Graph.fileOf_record, Graph.fileOf_record]
    show (if (⟨3⟩ : Symbol) = n then some ⟨4⟩ else if (⟨1⟩ : Symbol) = n then some ⟨2⟩ else none) =
      some f ↔ _
    by_cases h₁ : (⟨3⟩ : Symbol) = n
    · subst h₁
      simpa using eq_comm
    · by_cases h₂ : (⟨1⟩ : Symbol) = n
      · subst h₂
        simpa using eq_comm
      · simp [h₁, h₂, Ne.symm h₁, Ne.symm h₂]
  classesIn f n := by rw [classesIn_main, Project.Declares]

theorem knownFiles_files : Merge.knownFiles compared.1 build.files = [⟨5⟩] := rfl
theorem knownFiles_removed : Merge.knownFiles compared.1 build.removed = [⟨2⟩] := rfl
theorem classes_build : build.classes compared.1 = [(⟨5⟩, { moved with classFile := ⟨6⟩ })] := rfl

theorem declares_after {f n : Symbol} (h : (project.after compared.1 build).Declares f n) :
    f = ⟨5⟩ ∧ n = ⟨1⟩ ∨ f = ⟨4⟩ ∧ n = ⟨3⟩ := by
  by_cases hf : f ∈ Merge.knownFiles compared.1 build.files
  · rw [Build.declares_after hf, classes_build] at h
    obtain ⟨x, hx, rfl, rfl⟩ := h
    obtain rfl := List.mem_singleton.1 hx
    exact .inl ⟨rfl, rfl⟩
  · rw [Project.Declares, Project.after, if_neg hf, knownFiles_removed] at h
    by_cases h₂ : f = ⟨2⟩
    · simp [h₂] at h
    · rw [if_neg (by simpa using h₂), ← Project.Declares, declares_project] at h
      tauto

theorem oneFile_after : (project.after compared.1 build).OneFile := by
  intro f g n hf hg
  rcases declares_after hf with ⟨rfl, rfl⟩ | ⟨rfl, rfl⟩ <;>
    rcases declares_after hg with ⟨rfl, hn⟩ | ⟨rfl, hn⟩ <;> simp_all

theorem disjoint : ∀ f ∈ Merge.knownFiles compared.1 build.files,
    f ∉ Merge.knownFiles compared.1 build.removed := by
  rw [knownFiles_files, knownFiles_removed]
  decide

theorem bounded :
    (build.round names).2.Bounded (build.round names).1 main build.removed build.files
      compared.1 compared.2 :=
  .easily (rfl : compared = (compared.1, compared.2))

theorem records_relocated :
    ∃ main', main.integrate compared.1 compared.2 = .ok (compared.1, main') ∧
      main'.Records (project.after compared.1 build) :=
  Graph.records_integrate records_main disjoint bounded oneFile_after

end Relocation

end ClassImpact

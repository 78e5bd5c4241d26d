import Mathlib
import ClassImpact.Proofs.Compared
import ClassImpact.Proofs.Merged

/-!
# Projects

A project says which classes each source file declares.  A graph records a project when
its two file maps say the same, a missing entry being counted like an empty one.

A build turns one project into another: compiled files declare what the compiler found
in them, removed files declare nothing, all others are as they were.  When the graph
records the first project, then the graph with the round of the build merged into it
records the second.
-/

namespace ClassImpact

/-- The classes that each source file declares. -/
def Project := Symbol → IdSet ClassInfo

namespace Project

/-- Whether a file declares a class of this name. -/
def Declares (p : Project) (f n : Symbol) : Prop := (p f).has n = true

/-- Every class is declared by one file. -/
def OneFile (p : Project) : Prop := ∀ f g n, p.Declares f n → p.Declares g n → f = g

end Project

namespace ClassInfo

/-- The class with the imports that name it entered as mentions. -/
def withMentions (mentions : List (Symbol × Symbol)) (c : ClassInfo) : ClassInfo :=
  mentions.foldl
    (fun c m => if m.1 = c.name then (c.adding? (.mention m.2)).getD c else c) c

@[simp] theorem name_withMentions (mentions : List (Symbol × Symbol)) (c : ClassInfo) :
    (c.withMentions mentions).name = c.name := by
  induction mentions generalizing c with
  | nil => rfl
  | cons m mentions ih =>
    rw [withMentions, List.foldl_cons, ← withMentions, ih]
    by_cases h : m.1 = c.name
    · by_cases hu : c.usages.contains (.mention m.2) = true <;> simp [h, adding?, hu]
    · simp [h]

end ClassInfo

namespace Build

/-- The classes that a compiled file declares now. -/
def declared (t : NameTable) (b : Build) (f : Symbol) : IdSet ClassInfo :=
  (((b.classes t).filter fun x => x.1 = f).map fun x =>
    x.2.withMentions (b.mentions t)).foldl IdSet.put .empty

theorem has_declared {t : NameTable} {b : Build} {f n : Symbol} :
    (b.declared t f).has n = true ↔ ∃ x ∈ b.classes t, x.1 = f ∧ x.2.name = n := by
  rw [declared, IdSet.has_foldl_put]
  simp only [IdSet.has_empty, Bool.false_eq_true, false_or, List.mem_map, List.mem_filter,
    decide_eq_true_eq, ident_classInfo]
  constructor
  · rintro ⟨_, ⟨x, ⟨hx, hf⟩, rfl⟩, hn⟩
    exact ⟨x, hx, hf, by simpa using hn⟩
  · rintro ⟨x, hx, hf, hn⟩
    exact ⟨_, ⟨x, ⟨hx, hf⟩, rfl⟩, by simpa using hn⟩

end Build

/-- The project after a build. -/
def Project.after (p : Project) (t : NameTable) (b : Build) : Project := fun f =>
  if f ∈ Merge.knownFiles t b.files then b.declared t f
  else if f ∈ Merge.knownFiles t b.removed then .empty
  else p f

namespace Graph

/-- A graph whose file maps are those of a project. -/
structure Records (g : Graph) (p : Project) : Prop where
  fileOf : ∀ n f, g.fileOf.get? n = some f ↔ p.Declares f n
  classesIn : ∀ f n, (g.classesIn.valuesOf f).has n = true ↔ p.Declares f n

/-- A graph recorded from a project has one file for each class. -/
theorem Records.oneFile {g : Graph} {p : Project} (h : g.Records p) : p.OneFile := by
  intro f f' n hf hf'
  rw [← h.fileOf] at hf hf'
  exact Option.some.inj (hf.symm.trans hf')

/-- A graph that holds some files of a project and nothing else. -/
structure Holds (g : Graph) (p : Project) (compiled : Symbol → Prop) : Prop where
  fileOf : ∀ n f, g.fileOf.get? n = some f ↔ compiled f ∧ p.Declares f n
  classesIn : ∀ f n, (g.classesIn.valuesOf f).has n = true ↔ compiled f ∧ p.Declares f n
  keys : ∀ f, g.classesIn.has f = true ↔ compiled f

theorem Holds.has_fileOf {g : Graph} {p : Project} {compiled : Symbol → Prop}
    (h : g.Holds p compiled) {n : Symbol} :
    g.fileOf.has n = true ↔ ∃ f, compiled f ∧ p.Declares f n := by
  rw [Table.has_eq_isSome, Option.isSome_iff_exists]
  exact exists_congr fun f => h.fileOf n f

/-! ## The graph of a build -/

theorem fileOf_record (g : Graph) (f : Symbol) (c : ClassInfo) (n : Symbol) :
    (g.record f c).fileOf.get? n = if c.name = n then some f else g.fileOf.get? n := by
  simp [record]

theorem classesIn_record (g : Graph) (f : Symbol) (c : ClassInfo) :
    (g.record f c).classesIn = g.classesIn.addValue f c := rfl

/-- The file of a class is that of its last record. -/
theorem fileOf_records {l : List (Symbol × ClassInfo)} {n f : Symbol}
    (h : ((l.foldl (fun g x => g.record x.1 x.2) empty).fileOf.get? n = some f)) :
    ∃ x ∈ l, x.1 = f ∧ x.2.name = n := by
  induction l using List.reverseRecOn with
  | nil => simp [empty] at h
  | append_singleton l x ih =>
    rw [List.foldl_concat, fileOf_record] at h
    by_cases hx : x.2.name = n
    · exact ⟨x, by simp, by simpa [hx] using h, hx⟩
    · obtain ⟨y, hy, hf⟩ := ih (by simpa [hx] using h)
      exact ⟨y, List.mem_append_left _ hy, hf⟩

theorem has_fileOf_records {l : List (Symbol × ClassInfo)} {n : Symbol} :
    (l.foldl (fun g x => g.record x.1 x.2) empty).fileOf.has n = true ↔
      ∃ x ∈ l, x.2.name = n := by
  induction l using List.reverseRecOn with
  | nil => simp [empty]
  | append_singleton l x ih =>
    rw [List.foldl_concat]
    show (Table.insert _ _ _).has n = true ↔ _
    rw [Table.has_insert, ih]
    simp only [List.mem_append, List.mem_singleton, or_and_right, exists_or, exists_eq_left]
    exact or_comm

theorem has_classesIn_records {l : List (Symbol × ClassInfo)} {f n : Symbol} :
    ((l.foldl (fun g x => g.record x.1 x.2) empty).classesIn.valuesOf f).has n = true ↔
      ∃ x ∈ l, x.1 = f ∧ x.2.name = n := by
  induction l using List.reverseRecOn with
  | nil => simp [empty]
  | append_singleton l x ih =>
    rw [List.foldl_concat, classesIn_record, Table.valuesOf_addValue]
    simp only [List.mem_append, List.mem_singleton, or_and_right, exists_or, exists_eq_left]
    rw [← ih]
    by_cases hx : x.1 = f
    · simp [hx, ident_classInfo]
    · simp [hx]

/-- Classes are listed as they were recorded. -/
theorem recorded_of_mem_records {l : List (Symbol × ClassInfo)} {f : Symbol} {c : ClassInfo}
    (h : c ∈ (l.foldl (fun g x => g.record x.1 x.2) empty).classesIn.valuesOf f) : (f, c) ∈ l := by
  induction l using List.reverseRecOn with
  | nil => simp [empty] at h
  | append_singleton l x ih =>
    rw [List.foldl_concat, classesIn_record, Table.valuesOf_addValue] at h
    by_cases hx : x.1 = f
    · subst hx
      rw [if_pos rfl, IdSet.mem_put] at h
      rcases h with rfl | ⟨h, -⟩
      · simp
      · exact List.mem_append_left _ (ih h)
    · rw [if_neg hx] at h
      exact List.mem_append_left _ (ih h)

theorem keys_records {l : List (Symbol × ClassInfo)} {f : Symbol} :
    (l.foldl (fun g x => g.record x.1 x.2) empty).classesIn.has f = true ↔ ∃ x ∈ l, x.1 = f := by
  induction l using List.reverseRecOn with
  | nil => simp [empty]
  | append_singleton l x ih =>
    rw [List.foldl_concat, classesIn_record, Table.has_addValue, ih]
    simp only [List.mem_append, List.mem_singleton, or_and_right, exists_or, exists_eq_left]
    exact or_comm

theorem adding?_name {c d : ClassInfo} {u : Usage} (h : c.adding? u = some d) :
    d.name = c.name := by
  rw [ClassInfo.adding?] at h
  split at h
  · simp at h
  · cases h
    rfl

/-- An import changes what a file says about a class that it has already, or nothing. -/
theorem classesIn_enterMention (g : Graph) (m : Symbol × Symbol) :
    ((g.enterMention m).classesIn = g.classesIn ∧
        ∀ c, g.describe? m.1 = some c → c.adding? (.mention m.2) = none) ∨
      ∃ f c, g.fileOf.get? m.1 = some f ∧ c ∈ g.classesIn.valuesOf f ∧ c.name = m.1 ∧
        ∃ d, c.adding? (.mention m.2) = some d ∧
          (g.enterMention m).classesIn = g.classesIn.addValue f d := by
  have hdep : describe? { g with dependants := g.dependants.addValue m.2 m.1 } m.1 =
    g.describe? m.1 := rfl
  simp only [enterMention, noteImport, hdep]
  cases hc : g.describe? m.1 with
  | none => exact .inl ⟨by cases g.fileOf.get? m.1 <;> rfl, by simp⟩
  | some c =>
    obtain ⟨f, hf, hmem, hn⟩ := describe?_eq_some.1 hc
    cases hd : c.adding? (.mention m.2) with
    | none => exact .inl ⟨by simp [hf, hd], by simpa using hd⟩
    | some d => exact .inr ⟨f, c, hf, hmem, hn, d, hd, by simp [hf, hd]⟩

theorem has_classesIn_enterMention (g : Graph) (m : Symbol × Symbol) (f n : Symbol) :
    ((g.enterMention m).classesIn.valuesOf f).has n = true ↔
      (g.classesIn.valuesOf f).has n = true := by
  rcases classesIn_enterMention g m with ⟨h, -⟩ | ⟨f', c, -, hc, -, d, hd, h⟩
  · rw [h]
  · rw [h, Table.valuesOf_addValue]
    by_cases hf : f' = f
    · subst hf
      rw [if_pos rfl, IdSet.has_put, ident_classInfo, adding?_name hd]
      exact ⟨fun hn => hn.elim id fun hn => hn ▸ IdSet.has_of_mem hc, .inl⟩
    · rw [if_neg hf]

theorem keys_enterMention (g : Graph) (m : Symbol × Symbol) (f : Symbol) :
    (g.enterMention m).classesIn.has f = true ↔ g.classesIn.has f = true := by
  rcases classesIn_enterMention g m with ⟨h, -⟩ | ⟨f', c, -, hc, -, d, hd, h⟩
  · rw [h]
  · rw [h, Table.has_addValue]
    exact ⟨fun hn => hn.elim (fun hn => hn ▸ Table.has_of_mem_valuesOf hc) id, .inr⟩

/-- Imports leave the file maps as they are, as far as names go. -/
theorem enterMentions_frame (l : List (Symbol × Symbol)) (g : Graph) :
    (l.foldl enterMention g).fileOf = g.fileOf ∧
      (∀ f n, ((l.foldl enterMention g).classesIn.valuesOf f).has n = true ↔
        (g.classesIn.valuesOf f).has n = true) ∧
      ∀ f, (l.foldl enterMention g).classesIn.has f = true ↔ g.classesIn.has f = true := by
  induction l generalizing g with
  | nil => exact ⟨rfl, fun _ _ => Iff.rfl, fun _ => Iff.rfl⟩
  | cons m l ih =>
    obtain ⟨hfile, hclasses, hkeys⟩ := ih (g.enterMention m)
    exact ⟨hfile.trans (fileOf_enterMention g m),
      fun f n => (hclasses f n).trans (has_classesIn_enterMention g m f n),
      fun f => (hkeys f).trans (keys_enterMention g m f)⟩

/-- New entries are empty. -/
theorem addFiles_frame (l : List Symbol) (g : Graph) :
    (l.foldl addFile g).fileOf = g.fileOf ∧ (l.foldl addFile g).dependants = g.dependants ∧
      (∀ f, (l.foldl addFile g).classesIn.valuesOf f = g.classesIn.valuesOf f) ∧
      ∀ f, (l.foldl addFile g).classesIn.has f = true ↔ f ∈ l ∨ g.classesIn.has f = true := by
  induction l generalizing g with
  | nil => exact ⟨rfl, rfl, fun _ => rfl, fun _ => by simp⟩
  | cons file l ih =>
    obtain ⟨hfile, hdep, hvalues, hkeys⟩ := ih (g.addFile file)
    rw [List.foldl_cons, hfile, hdep]
    have hstep : (g.addFile file).fileOf = g.fileOf ∧
        (g.addFile file).dependants = g.dependants ∧
        (∀ f, (g.addFile file).classesIn.valuesOf f = g.classesIn.valuesOf f) ∧
        ∀ f, (g.addFile file).classesIn.has f = true ↔ file = f ∨ g.classesIn.has f = true := by
      unfold addFile
      by_cases h : g.classesIn.has file = true
      · rw [if_pos h]
        exact ⟨rfl, rfl, fun _ => rfl, fun f => ⟨.inr, fun hf => hf.elim (fun hf => hf ▸ h) id⟩⟩
      · rw [if_neg h]
        refine ⟨rfl, rfl, fun f => ?_, fun f => by simp⟩
        by_cases hf : file = f
        · subst hf
          simp [Table.valuesOf_of_not_has (show g.classesIn.has file = false by simpa using h)]
        · simp [hf]
    refine ⟨hstep.1, hstep.2.1, fun f => (hvalues f).trans (hstep.2.2.1 f), fun f => ?_⟩
    rw [hkeys, hstep.2.2.2, List.mem_cons, eq_comm (a := f)]
    tauto

end Graph

namespace Build

variable {t : NameTable} {b : Build}

theorem mem_knownFiles_of_classes {x : Symbol × ClassInfo} (h : x ∈ b.classes t) :
    x.1 ∈ Merge.knownFiles t b.files := by
  obtain ⟨o, ho, hx⟩ := List.mem_filterMap.1 h
  obtain ⟨p, hp, htext⟩ := b.covered o ho
  simp only [readOutput, Option.bind_eq_bind, Option.bind_eq_some_iff, Option.some.injEq] at hx
  obtain ⟨c, -, classFile, -, file, hfile, rfl⟩ := hx
  exact List.mem_filterMap.2 ⟨p, hp, by rw [htext]; exact hfile⟩

theorem has_classesIn_graph {f n : Symbol} :
    ((b.graph t).classesIn.valuesOf f).has n = true ↔
      ∃ x ∈ b.classes t, x.1 = f ∧ x.2.name = n := by
  rw [graph, (Graph.addFiles_frame _ _).2.2.1, (Graph.enterMentions_frame _ _).2.1,
    Graph.has_classesIn_records]

theorem keys_graph {f : Symbol} :
    (b.graph t).classesIn.has f = true ↔ f ∈ Merge.knownFiles t b.files := by
  rw [graph, (Graph.addFiles_frame _ _).2.2.2, (Graph.enterMentions_frame _ _).2.2,
    Graph.keys_records]
  exact ⟨fun h => h.elim id fun ⟨_, hx, hf⟩ => hf ▸ mem_knownFiles_of_classes hx, .inl⟩

theorem fileOf_graph :
    (b.graph t).fileOf =
      ((b.classes t).foldl (fun g x => g.record x.1 x.2) Graph.empty).fileOf := by
  rw [graph, (Graph.addFiles_frame _ _).1, (Graph.enterMentions_frame _ _).1]

theorem declares_after {p : Project} {f n : Symbol} (hf : f ∈ Merge.knownFiles t b.files) :
    (p.after t b).Declares f n ↔ ∃ x ∈ b.classes t, x.1 = f ∧ x.2.name = n := by
  rw [Project.Declares, Project.after, if_pos hf, has_declared]

/-- The graph of a build holds what the project after it has in the compiled files. -/
theorem holds_graph {p : Project} (hone : (p.after t b).OneFile) :
    (b.graph t).Holds (p.after t b) (· ∈ Merge.knownFiles t b.files) where
  fileOf n f := by
    rw [fileOf_graph]
    have hdeclares : ∀ x ∈ b.classes t, (p.after t b).Declares x.1 x.2.name := fun x hx =>
      (declares_after (mem_knownFiles_of_classes hx)).2 ⟨x, hx, rfl, rfl⟩
    constructor
    · intro h
      obtain ⟨x, hx, rfl, rfl⟩ := Graph.fileOf_records h
      exact ⟨mem_knownFiles_of_classes hx, hdeclares x hx⟩
    · rintro ⟨hf, hn⟩
      obtain ⟨x, hx, rfl, rfl⟩ := (declares_after hf).1 hn
      obtain ⟨g, hg⟩ := Option.isSome_iff_exists.1 (Graph.has_fileOf_records.2 ⟨x, hx, rfl⟩)
      obtain ⟨y, hy, rfl, hyn⟩ := Graph.fileOf_records hg
      rw [hone x.1 y.1 x.2.name hn (hyn ▸ hdeclares y hy)]
      exact hg
  classesIn f n := by
    rw [has_classesIn_graph]
    constructor
    · rintro ⟨x, hx, rfl, rfl⟩
      have hf := mem_knownFiles_of_classes hx
      exact ⟨hf, (declares_after hf).2 ⟨x, hx, rfl, rfl⟩⟩
    · rintro ⟨hf, hn⟩
      exact (declares_after hf).1 hn
  keys _ := keys_graph

end Build

end ClassImpact

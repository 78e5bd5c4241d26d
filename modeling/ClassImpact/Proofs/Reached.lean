import Mathlib
import ClassImpact.Proofs.Committed
import ClassImpact.Proofs.Edges

/-!
# Graphs that rounds lead to

A step of a build is a whole round: the build is recorded, compared in a bounded way, further
imports are reported, and the round is merged, these imports with it.  A graph is reached when
steps lead to it from the empty graph, with rounds among them that replace the graph.

What a reached graph records is known: its file maps are those of the project that the builds
made.  Where no import was reported late, its edges lead to users only.

A step puts names into the table while it goes on.  It is read here through the table that it
ends with, in which a second step of the same build finds all of its names.
-/

namespace ClassImpact

/-- The project without classes. -/
def Project.empty : Project := fun _ => .empty

/-! ## Names of a build -/

/-- The names that a class file puts into the table. -/
def ClassOutput.names (o : ClassOutput) : List String :=
  o.classFile :: (o.info.map fun _ => o.file).toList

namespace Build

/-- The names that a round of the build puts into the table. -/
def names (b : Build) (late : List ImportNote) : List String :=
  b.outputs.flatMap ClassOutput.names ++ (b.imports.flatMap ImportNote.names ++
    (b.files.map SourcePath.text ++ ([rootClassName, constructorName] ++
      late.flatMap ImportNote.names)))

theorem names_round (t : NameTable) (b : Build) :
    (b.round t).1 = t.internAll (b.outputs.flatMap ClassOutput.names) := by
  have key : ∀ (l : List ClassOutput) (x : NameTable × Round),
      (l.foldl (fun (x : NameTable × Round) o => x.2.associate x.1 o.file o.classFile o.info) x).1 =
        x.1.internAll (l.flatMap ClassOutput.names) := by
    intro l
    induction l with
    | nil => exact fun _ => rfl
    | cons o l ih =>
      intro x
      rw [List.foldl_cons, ih, List.flatMap_cons, NameTable.internAll_append]
      refine congrArg (fun t : NameTable => t.internAll _) ?_
      exact Graph.names_associate x.1 x.2.graph o.file o.classFile o.info
  exact key b.outputs (t, .new)

/-! ## Steps -/

/-- The graph of a round with imports entered that were reported late. -/
def lateGraph (t : NameTable) (b : Build) (late : List ImportNote) : Graph :=
  (late.flatMap (readNote t)).foldl Graph.enterMention (b.graph t)

/-- The round of a build as it is merged: compared without the late imports. -/
def mergedRound (t : NameTable) (main : Graph) (b : Build) (late : List ImportNote) : Round :=
  { b.comparedRound t main with graph := b.lateGraph t late }

/-- **A step of a build**: its round is compared in a bounded way, then further imports are
reported, and the round is merged. -/
inductive Step (b : Build) (late : List ImportNote) (names : NameTable) (main : Graph) :
    NameTable → Graph → Prop where
  | intro {names₁ names' : NameTable} {r : Round} {main' : Graph}
      (compared : (b.round names).2.Bounded (b.round names).1 main b.removed b.files names₁ r)
      (merged : main.integrate names₁ (late.foldl Round.registerImports r) = .ok (names', main')) :
      Step b late names main names' main'

/-- The step of a build that is compared without asking what it affects. -/
def easyStep (b : Build) (late : List ImportNote) (names : NameTable) (main : Graph) :
    NameTable × Graph :=
  let compared := (b.round names).2.compareEasily (b.round names).1 main b.removed b.files
  let entered := (late.foldl Round.registerImports compared.2).enterImports compared.1
  (entered.1, main.mergeRound entered.1 entered.2)

variable {b : Build} {late : List ImportNote} {names t : NameTable} {main main' : Graph}

/-- Every build has a step. -/
theorem step_easyStep :
    b.Step late names main (b.easyStep late names main).1 (b.easyStep late names main).2 := by
  set compared := (b.round names).2.compareEasily (b.round names).1 main b.removed b.files with hc
  have hcompared : (b.round names).2.Bounded (b.round names).1 main b.removed b.files compared.1
      compared.2 := .easily rfl
  have hdifferentiated : (late.foldl Round.registerImports compared.2).differentiated = true := by
    rw [registerImports_foldl]
    rfl
  refine .intro hcompared ?_
  rw [Graph.integrate, if_pos hdifferentiated]
  rfl

/-- The names that are in the table when the round of a build has been compared. -/
theorem names_prepare (names : NameTable) (b : Build) :
    (internKeyNames ((b.round names).2.prepare (b.round names).1 b.removed b.files).1).2.2 =
      ((((names.internAll (b.outputs.flatMap ClassOutput.names)).internAll
        (b.imports.flatMap ImportNote.names)).internAll (b.files.map SourcePath.text)).internAll
          [rootClassName, constructorName]) := by
  have himports : (b.round names).2.imports = b.imports := by
    rw [(round_within names b (NameTable.Within.refl _)).2]
  rw [Round.names_prepare, names_round, himports]
  rfl

/-- What a step does, read through the table that it ends with. -/
theorem Step.eq (h : b.Step late names main t main') :
    t = names.internAll (b.names late) ∧
      main' = main.mergeRound t (b.mergedRound t main late) := by
  obtain ⟨hcmp, hmerge⟩ := h
  rename_i names₁ r
  obtain ⟨hnames, hr⟩ := hcmp.eq
  set ready := (b.round names).2.prepare (b.round names).1 b.removed b.files with hready
  -- the merge enters the late imports, so the table that it ends with has them too
  have hlate : late.foldl Round.registerImports r = { r with imports := late } := by
    rw [registerImports_foldl, hr]
    rfl
  have hintegrate : main.integrate names₁ (late.foldl Round.registerImports r) =
      .ok ((r.graph.enterNotes names₁ late).1,
        main.mergeRound (r.graph.enterNotes names₁ late).1
          { r with graph := (r.graph.enterNotes names₁ late).2, imports := [] }) := by
    rw [hlate, hr]
    rfl
  rw [hintegrate, Except.ok.injEq, Prod.mk.injEq] at hmerge
  obtain ⟨ht, hmain⟩ := hmerge
  have hw : names₁.Within t := by
    rw [← ht, Graph.names_enterNotes]
    exact NameTable.within_internAll _ _
  have hready' : ready.1.Within t := by
    rw [hnames] at hw
    exact (within_internKeyNames ready.1).trans hw
  obtain ⟨-, hround⟩ := prepare_round names b hready'
  have hgraph : (r.graph.enterNotes names₁ late).2 = b.lateGraph t late := by
    have hwt : (r.graph.enterNotes names₁ late).1.Within t := ht ▸ NameTable.Within.refl _
    rw [(Graph.within_enterNotes late names₁ r.graph hwt).2, hr, hround]
    rfl
  constructor
  · rw [← ht, Graph.names_enterNotes, hnames, names_prepare, Build.names]
    simp only [NameTable.internAll_append]
  · rw [← hmain, ht, hgraph, hr, hround]
    rfl

/-- A second step of the same build finds its names in the table. -/
theorem Step.settled {names' : NameTable} {main'' : Graph} (h : b.Step late names main t main')
    (h' : b.Step late t main' names' main'') : names' = t := by
  rw [h'.eq.1, h.eq.1, NameTable.internAll_settled]

/-! ## What late imports leave alone -/

theorem fileOf_lateGraph : (b.lateGraph t late).fileOf = (b.graph t).fileOf :=
  (Graph.enterMentions_frame _ _).1

theorem has_classesIn_lateGraph {f n : Symbol} :
    ((b.lateGraph t late).classesIn.valuesOf f).has n = true ↔
      ((b.graph t).classesIn.valuesOf f).has n = true := (Graph.enterMentions_frame _ _).2.1 f n

theorem drops_mergedRound {c : Symbol} :
    (b.mergedRound t main late).Drops t main c ↔ (b.comparedRound t main).Drops t main c := by
  simp only [Round.Drops, mergedRound, fileOf_lateGraph, graph_comparedRound]

theorem former_mergedRound {o d : Symbol} :
    (b.mergedRound t main late).Former t main o d ↔ (b.comparedRound t main).Former t main o d := by
  constructor
  · rintro (⟨hf, hc, hd, ho⟩ | ⟨hc, hd, ho⟩ | ⟨hr, hg, hf, hk, hc, hd, ho⟩)
    · exact .removed hf hc hd ho
    · exact .deleted hc hd ho
    · exact .restated hr (mt drops_mergedRound.2 hg) hf hk hc hd ho
  · rintro (⟨hf, hc, hd, ho⟩ | ⟨hc, hd, ho⟩ | ⟨hr, hg, hf, hk, hc, hd, ho⟩)
    · exact .removed hf hc hd ho
    · exact .deleted hc hd ho
    · exact .restated hr (mt drops_mergedRound.1 hg) hf hk hc hd ho

/-- The imports of a round that come late are no news to the file maps. -/
theorem records_mergedRound {p p' : Project} (h : (b.comparedRound t main).Turns t main p p') :
    (main.mergeRound t (b.mergedRound t main late)).Records p' := by
  have hupdates : (b.mergedRound t main late).rebuild = false := rfl
  constructor
  · intro n f
    rw [← h.fileOf_merged, Graph.fileOf_mergeRound h.updates, Graph.fileOf_mergeRound hupdates,
      drops_mergedRound]
    simp only [mergedRound, fileOf_lateGraph, graph_comparedRound]
    rfl
  · intro f n
    rw [← h.classesIn_merged]
    by_cases hf : f ∈ (b.comparedRound t main).log.changedFiles
    · have hlate : f ∈ (b.mergedRound t main late).log.changedFiles := hf
      rw [Graph.valuesOf_mergeRound_of_noted h.updates hf,
        Graph.valuesOf_mergeRound_of_noted hupdates hlate]
      exact has_classesIn_lateGraph
    · have hlate : f ∉ (b.mergedRound t main late).log.changedFiles := hf
      rw [Graph.valuesOf_mergeRound_of_not_noted h.updates hf,
        Graph.valuesOf_mergeRound_of_not_noted hupdates hlate]
      rfl

/-- A step in which no import comes late merges what was compared. -/
theorem mergedRound_nil : b.mergedRound t main [] = b.comparedRound t main := rfl

/-! ## Rounds that replace the graph -/

/-- The graph of a build whose files were not given entries. -/
def bareGraph (t : NameTable) (b : Build) : Graph :=
  (b.mentions t).foldl Graph.enterMention
    ((b.classes t).foldl (fun g x => g.record x.1 x.2) .empty)

/-- A build merged in place of the graph so far. -/
theorem rebuild_eq
    (h : main.integrate (b.round names).1 (b.round names).2.onRebuild = .ok (t, main')) :
    main'.fileOf = (b.bareGraph t).fileOf ∧ main'.classesIn = (b.bareGraph t).classesIn ∧
      main'.subclasses = (b.bareGraph t).subclasses ∧
      ∀ o d, d ∈ main'.dependants.valuesOf o ↔ d ∈ (b.bareGraph t).dependants.valuesOf o := by
  set entered := (b.round names).2.graph.enterNotes (b.round names).1 (b.round names).2.imports
    with hent
  set r := { (b.round names).2.onRebuild with graph := entered.2, imports := [] } with hr
  have hintegrate : main.integrate (b.round names).1 (b.round names).2.onRebuild =
      .ok (entered.1, main.mergeRound entered.1 r) := rfl
  rw [hintegrate, Except.ok.injEq, Prod.mk.injEq] at h
  obtain ⟨ht, rfl⟩ := h
  have hgraph : r.graph = b.bareGraph t := by
    obtain ⟨hw, himports⟩ := Graph.within_enterNotes _ _ _ (ht ▸ NameTable.Within.refl _ :
      entered.1.Within t)
    show entered.2 = _
    rw [hent, himports, (round_within names b hw).2]
    rfl
  have hreplaces : r.rebuild = true := rfl
  obtain ⟨hfile, hclasses⟩ := @Graph.mergeRound_rebuild entered.1 main r hreplaces
  rw [← hgraph]
  refine ⟨hfile, hclasses, ?_, fun o d => ?_⟩
  · rw [Graph.mergeRound, hreplaces, if_pos rfl]
    rfl
  rw [Graph.mergeRound, hreplaces, if_pos rfl, Merge.mem_mergeDependants]
  simp [Merge.replaced]

/-- A build on its own declares classes in the files that it compiled. -/
theorem compiled_of_declares {f n : Symbol}
    (h : (Project.empty.after t b).Declares f n) : f ∈ Merge.knownFiles t b.files := by
  by_contra hf
  simp [Project.Declares, Project.after, Project.empty, hf] at h

/-- After a build, each class is declared by one file when it was so before, and when the build
reports every class once, and no class of a file that it does not touch. -/
theorem oneFile_after {p : Project} (hp : p.OneFile) (honce : b.Once)
    (hmoved : ∀ x ∈ b.classes t, ∀ f, p.Declares f x.2.name →
      f ∈ Merge.knownFiles t b.files ∨ f ∈ Merge.knownFiles t b.removed) :
    (p.after t b).OneFile := by
  have hsplit : ∀ f n, (p.after t b).Declares f n →
      (∃ x ∈ b.classes t, x.1 = f ∧ x.2.name = n) ∨
        p.Declares f n ∧ f ∉ Merge.knownFiles t b.files ∧ f ∉ Merge.knownFiles t b.removed := by
    intro f n h
    by_cases hf : f ∈ Merge.knownFiles t b.files
    · exact .inl ((declares_after hf).1 h)
    · by_cases hr : f ∈ Merge.knownFiles t b.removed
      · simp [Project.Declares, Project.after, hf, hr] at h
      · refine .inr ⟨?_, hf, hr⟩
        simpa [Project.Declares, Project.after, hf, hr] using h
  -- a class of the build is declared by no file that stays
  have hnew : ∀ x ∈ b.classes t, ∀ f, p.Declares f x.2.name → f ∉ Merge.knownFiles t b.files →
      f ∉ Merge.knownFiles t b.removed → False := by
    intro x hx f hd hf hr
    exact (hmoved x hx f hd).elim hf hr
  intro f g n hf hg
  rcases hsplit f n hf with ⟨x, hx, rfl, rfl⟩ | ⟨hfd, hfc, hfr⟩
  · rcases hsplit g _ hg with ⟨y, hy, rfl, hyx⟩ | ⟨hgd, hgc, hgr⟩
    · rw [List.inj_on_of_nodup_map honce.nodup hy hx hyx]
    · exact (hnew x hx g hgd hgc hgr).elim
  · rcases hsplit g n hg with ⟨y, hy, rfl, rfl⟩ | ⟨hgd, -, -⟩
    · exact (hnew y hy f hfd hfc hfr).elim
    · exact hp f g n hfd hgd

/-- A build on its own declares each class in one file. -/
theorem oneFile_fresh (honce : b.Once) : (Project.empty.after t b).OneFile := by
  have hnone : ∀ f n, ¬ Project.empty.Declares f n := by simp [Project.Declares, Project.empty]
  exact oneFile_after (fun f _ n hf => absurd hf (hnone f n)) honce
    fun x _ f hf => absurd hf (hnone f _)

/-- A build that can follow a project: it reports every class once and imports of its own
classes only, no file is compiled and removed, and afterwards each class is declared by one file. -/
structure Fits (t : NameTable) (p : Project) (b : Build) : Prop where
  once : b.Once
  importsOwn : b.ImportsOwn t
  disjoint : ∀ f ∈ Merge.knownFiles t b.files, f ∉ Merge.knownFiles t b.removed
  oneFile : (p.after t b).OneFile

/-- A build on its own fits when it reports every class once, and neither imports nor removed
files. -/
theorem Fits.fresh (honce : b.Once) (himports : b.imports = []) (hremoved : b.removed = []) :
    b.Fits t .empty where
  once := honce
  importsOwn := by simp [ImportsOwn, mentions, himports]
  disjoint := by simp [Merge.knownFiles, hremoved]
  oneFile := oneFile_fresh honce

end Build

namespace Graph

/-- The graphs that rounds lead to, each with the table of names and the project that the
builds made.  In the `prompt` case all imports are reported before their round is compared. -/
inductive Reached (prompt : Bool) : NameTable → Graph → Project → Prop where
  | start (names : NameTable) : Reached prompt names .empty .empty
  | step {names t : NameTable} {main main' : Graph} {p : Project} {b : Build}
      {late : List ImportNote} (h : Reached prompt names main p) (hfits : b.Fits t p)
      (hlate : prompt = true → late = []) (hstep : b.Step late names main t main') :
      Reached prompt t main' (p.after t b)
  | rebuild {names t : NameTable} {main main' : Graph} {p : Project} {b : Build}
      (h : Reached prompt names main p) (hfits : b.Fits t .empty)
      (hmerge : main.integrate (b.round names).1 (b.round names).2.onRebuild = .ok (t, main')) :
      Reached prompt t main' (Project.empty.after t b)

theorem records_empty : empty.Records .empty where
  fileOf n f := by simp [empty, Project.Declares, Project.empty]
  classesIn f n := by simp [empty, Project.Declares, Project.empty]

theorem stores_empty : empty.Stores .empty := by
  intro f n o
  simp [empty, Project.Uses, Project.empty]

theorem sound_empty (p : Project) : empty.Sound p := by
  intro o d hd
  simp [empty] at hd

variable {names t : NameTable} {main main' : Graph} {p : Project} {b : Build}
  {late : List ImportNote} {prompt : Bool}

/-- A graph that a build has replaced records what the build declares. -/
theorem records_rebuilt (hone : (Project.empty.after t b).OneFile)
    (hmerge : main.integrate (b.round names).1 (b.round names).2.onRebuild = .ok (t, main')) :
    main'.Records (Project.empty.after t b) := by
  obtain ⟨hfile, hclasses, -, -⟩ := Build.rebuild_eq hmerge
  have hframe := addFiles_frame (Merge.knownFiles t b.files) (b.bareGraph t)
  have hholds := Build.holds_graph hone
  constructor
  · intro n f
    rw [hfile, ← hframe.1]
    exact (hholds.fileOf n f).trans
      ⟨And.right, fun hn => ⟨Build.compiled_of_declares hn, hn⟩⟩
  · intro f n
    rw [hclasses, ← hframe.2.2.1]
    exact (hholds.classesIn f n).trans
      ⟨And.right, fun hn => ⟨Build.compiled_of_declares hn, hn⟩⟩

/-- What else a graph holds that a build has replaced. -/
theorem rebuilt (hfits : b.Fits t .empty)
    (hmerge : main.integrate (b.round names).1 (b.round names).2.onRebuild = .ok (t, main')) :
    main'.Stores (Project.empty.after t b) ∧ main'.Sound (Project.empty.after t b) := by
  have hrecords := records_rebuilt hfits.oneFile hmerge
  obtain ⟨-, hclasses, -, hdependants⟩ := Build.rebuild_eq hmerge
  have hframe := addFiles_frame (Merge.knownFiles t b.files) (b.bareGraph t)
  have hrewires := Build.rewires_compared records_empty stores_empty hfits.disjoint hfits.once
    hfits.importsOwn hfits.oneFile
  constructor
  · intro f n o
    rw [hclasses, ← hframe.2.2.1]
    by_cases hf : (b.graph t).classesIn.has f = true
    · exact hrewires.compiled f n o hf
    · refine iff_of_false ?_ fun hu => hf ?_
      · rintro ⟨c, hc, -⟩
        exact hf (Table.has_of_mem_valuesOf hc)
      · exact Build.keys_graph.2 (Build.compiled_of_declares hu.declares)
  · intro o d hd
    rw [hdependants, ← hframe.2.1] at hd
    exact hrewires.sound o d hd

/-- **The file maps of a reached graph** are those of the project that the builds made. -/
theorem Reached.records (h : Reached prompt names main p) : main.Records p := by
  induction h with
  | start => exact records_empty
  | step h hfits hlate hstep ih =>
    rw [hstep.eq.2]
    exact Build.records_mergedRound (Build.turns_compared ih hfits.disjoint hfits.oneFile)
  | rebuild h hfits hmerge ih => exact records_rebuilt hfits.oneFile hmerge

/-- **The edges of a reached graph** lead to users, where no import was reported late. -/
theorem Reached.sound (h : Reached true names main p) : main.Stores p ∧ main.Sound p := by
  induction h with
  | start => exact ⟨stores_empty, sound_empty _⟩
  | step h hfits hlate hstep ih =>
    have hrewires := Build.rewires_compared h.records ih.1 hfits.disjoint hfits.once
      hfits.importsOwn hfits.oneFile
    obtain rfl := hlate rfl
    rw [hstep.eq.2, Build.mergedRound_nil]
    exact ⟨hrewires.stores_merged, hrewires.sound_merged ih.2⟩
  | rebuild h hfits hmerge ih => exact rebuilt hfits hmerge

end Graph

end ClassImpact

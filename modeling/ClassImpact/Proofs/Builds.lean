import Mathlib
import ClassImpact.Merge
import ClassImpact.Proofs.Membership

/-!
# Builds and the rounds made from them

A build is what one run of the compiler reports: class files, imports, and the lists of
files that were compiled and removed.  A round interns names while it records them, so
the build is read here through one table that knows them all: as classes under the
symbols of their files, and as pairs of a class and a class it imports.  Read in this
way the graph of a round is three folds over lists of symbols.
-/

namespace ClassImpact

/-! ## Tables that grow -/

namespace NameTable

/-- Every name of `t` has the same symbol in `t'`. -/
def Within (t t' : NameTable) : Prop :=
  ∀ name s, t.lookup name = some s → t'.lookup name = some s

theorem Within.refl (t : NameTable) : t.Within t := fun _ _ h => h

theorem Within.trans {t t' t'' : NameTable} (h : t.Within t') (h' : t'.Within t'') :
    t.Within t'' := fun name s hs => h' name s (h name s hs)

theorem within_intern (t : NameTable) (name : String) : t.Within (t.intern name).2 := by
  intro n s hn
  cases h : t.lookup name with
  | some s' => rwa [intern_of_lookup h]
  | none =>
    rw [intern_of_lookup_none h]
    have hne : n ≠ name := fun he => by rw [he, h] at hn; simp at hn
    rw [lookup, List.lookup_cons, beq_false_of_ne hne]
    exact hn

/-- A name that was interned on the way. -/
theorem Within.lookup_of_intern {t t' : NameTable} {name : String}
    (h : (t.intern name).2.Within t') : t'.lookup name = some (t.intern name).1 :=
  h _ _ (lookup_intern_self t name)

theorem Within.of_intern {t t' : NameTable} {name : String} (h : (t.intern name).2.Within t') :
    t.Within t' := (within_intern t name).trans h

/-! ### Lists of names -/

theorem internAll_append (t : NameTable) (l l' : List String) :
    t.internAll (l ++ l') = (t.internAll l).internAll l' := List.foldl_append

theorem within_internAll (t : NameTable) (l : List String) : t.Within (t.internAll l) := by
  induction l generalizing t with
  | nil => exact .refl t
  | cons name l ih => exact (within_intern t name).trans (ih _)

/-- A table that has every name of a list stays as it is. -/
theorem internAll_of_known {t : NameTable} {l : List String}
    (h : ∀ name ∈ l, (t.lookup name).isSome = true) : t.internAll l = t := by
  induction l with
  | nil => rfl
  | cons name l ih =>
    obtain ⟨hname, hl⟩ := List.forall_mem_cons.1 h
    obtain ⟨s, hs⟩ := Option.isSome_iff_exists.1 hname
    rw [internAll, List.foldl_cons, intern_of_lookup hs]
    exact ih hl

theorem isSome_lookup_internAll {t : NameTable} {l : List String} {name : String} (h : name ∈ l) :
    ((t.internAll l).lookup name).isSome = true := by
  induction l generalizing t with
  | nil => simp at h
  | cons first l ih =>
    rcases List.mem_cons.1 h with rfl | h
    · exact Option.isSome_iff_exists.2
        ⟨_, within_internAll _ l _ _ (lookup_intern_self t name)⟩
    · exact ih h

/-- The same names put in once more change nothing. -/
theorem internAll_settled (t : NameTable) (l : List String) :
    (t.internAll l).internAll l = t.internAll l :=
  internAll_of_known fun _ h => isSome_lookup_internAll h

end NameTable

/-- The names that a note puts into the table. -/
def ImportNote.names (note : ImportNote) : List String :=
  internalName note.className ::
    (note.imports.filter fun i => !ImportNote.isWildcard i).map internalName

namespace Graph

/-- Recording a class puts in the name of its class file, and of its file if it holds a class. -/
theorem names_associate (names : NameTable) (g : Graph) (file classFile : String)
    (c : Option ClassInfo) :
    (g.associate names file classFile c).1 =
      names.internAll (classFile :: (c.map fun _ => file).toList) := by
  cases c <;> rfl

theorem names_enterNote (names : NameTable) (g : Graph) (note : ImportNote) :
    (g.enterNote names note).1 = names.internAll note.names := by
  have key : ∀ (root : Symbol) (file : Option Symbol) (l : List String) (names : NameTable)
      (g : Graph), (l.foldl (fun (x : NameTable × Graph) i => ((x.1.intern (internalName i)).2,
        x.2.noteImport root file (x.1.intern (internalName i)).1)) (names, g)).1 =
          names.internAll (l.map internalName) := by
    intro root file l
    induction l with
    | nil => exact fun _ _ => rfl
    | cons i l ih => exact fun names g => ih _ _
  exact key _ _ _ _ _

theorem names_enterNotes (names : NameTable) (g : Graph) (notes : List ImportNote) :
    (g.enterNotes names notes).1 = names.internAll (notes.flatMap ImportNote.names) := by
  induction notes generalizing names g with
  | nil => rfl
  | cons note notes ih =>
    rw [List.flatMap_cons, NameTable.internAll_append, ← names_enterNote names g note]
    exact ih _ _

theorem names_addFiles (names : NameTable) (g : Graph) (files : List SourcePath) :
    (g.addFiles names files).1 = names.internAll (files.map SourcePath.text) := by
  induction files generalizing names g with
  | nil => rfl
  | cons p files ih => exact ih _ _

end Graph

theorem Round.names_prepare (names : NameTable) (r : Round) (removed files : List SourcePath) :
    (r.prepare names removed files).1 =
      (names.internAll (r.imports.flatMap ImportNote.names)).internAll
        (files.map SourcePath.text) := by
  rw [← Graph.names_enterNotes names r.graph]
  exact Graph.names_addFiles ..

/-! ## Builds -/

/-- A class file as the compiler wrote it; it may hold no class. -/
structure ClassOutput where
  file : String
  classFile : String
  info : Option ClassInfo
deriving DecidableEq, Repr

/-- What a run of the compiler reports. -/
structure Build where
  outputs : List ClassOutput
  imports : List ImportNote
  /-- The files that were compiled. -/
  files : List SourcePath
  /-- The files that left the project. -/
  removed : List SourcePath
  covered : ∀ o ∈ outputs, ∃ p ∈ files, p.text = o.file

namespace Build

/-- The round that records a build. -/
def round (names : NameTable) (b : Build) : NameTable × Round :=
  let (names, r) := b.outputs.foldl
    (fun (names, r) o => r.associate names o.file o.classFile o.info) (names, .new)
  (names, b.imports.foldl Round.registerImports r)

/-- A compiled class under the symbol of its file. -/
def readOutput (t : NameTable) (o : ClassOutput) : Option (Symbol × ClassInfo) := do
  let c ← o.info
  let classFile ← t.lookup o.classFile
  let file ← t.lookup o.file
  some (file, { c with classFile := classFile })

/-- The compiled classes under the symbols of their files. -/
def classes (t : NameTable) (b : Build) : List (Symbol × ClassInfo) :=
  b.outputs.filterMap (readOutput t)

/-- The classes that a note imports, each with the class that imports it. -/
def readNote (t : NameTable) (note : ImportNote) : List (Symbol × Symbol) :=
  match t.lookup (internalName note.className) with
  | none => []
  | some root =>
    (note.imports.filter fun i => !ImportNote.isWildcard i).filterMap fun i =>
      (t.lookup (internalName i)).map (root, ·)

/-- Every pair of a class and a class it imports. -/
def mentions (t : NameTable) (b : Build) : List (Symbol × Symbol) :=
  b.imports.flatMap (readNote t)

end Build

/-! ## The graph of a round -/

namespace Graph

@[simp] theorem fileOf_noteImport (g : Graph) (root : Symbol) (file : Option Symbol) (s : Symbol) :
    (g.noteImport root file s).fileOf = g.fileOf := by
  simp only [noteImport]
  split <;> rfl

/-- An import read through symbols. -/
def enterMention (g : Graph) (m : Symbol × Symbol) : Graph :=
  g.noteImport m.1 (g.fileOf.get? m.1) m.2

@[simp] theorem fileOf_enterMention (g : Graph) (m : Symbol × Symbol) :
    (g.enterMention m).fileOf = g.fileOf := fileOf_noteImport ..

variable {t : NameTable}

theorem within_associate (names : NameTable) (g : Graph) (o : ClassOutput)
    (h : (g.associate names o.file o.classFile o.info).1.Within t) :
    names.Within t ∧ (g.associate names o.file o.classFile o.info).2 =
      ((Build.readOutput t o).toList.foldl (fun g x => g.record x.1 x.2) g) := by
  unfold associate at h ⊢
  cases hc : o.info with
  | none =>
    simp only [hc] at h ⊢
    exact ⟨h.of_intern, by simp [Build.readOutput, hc]⟩
  | some c =>
    simp only [hc] at h ⊢
    have hfile := h.lookup_of_intern
    have hclass := h.of_intern.lookup_of_intern
    exact ⟨h.of_intern.of_intern, by simp [Build.readOutput, hc, hfile, hclass]⟩

theorem within_enterNote (names : NameTable) (g : Graph) (note : ImportNote)
    (h : (g.enterNote names note).1.Within t) :
    names.Within t ∧ (g.enterNote names note).2 =
      (Build.readNote t note).foldl enterMention g := by
  -- the file is looked up once in front, and stays the same while imports are entered
  have key : ∀ (root : Symbol) (l : List String) (names : NameTable) (g : Graph),
      (l.foldl (fun (x : NameTable × Graph) i => ((x.1.intern (internalName i)).2,
        x.2.noteImport root (g.fileOf.get? root) (x.1.intern (internalName i)).1))
          (names, g)).1.Within t →
      names.Within t ∧
        (l.foldl (fun (x : NameTable × Graph) i => ((x.1.intern (internalName i)).2,
          x.2.noteImport root (g.fileOf.get? root) (x.1.intern (internalName i)).1))
            (names, g)).2 =
          (l.filterMap fun i => (t.lookup (internalName i)).map (root, ·)).foldl
            enterMention g := by
    intro root l
    induction l with
    | nil => exact fun names g h => ⟨h, rfl⟩
    | cons i l ih =>
      intro names g h
      rw [List.foldl_cons] at h ⊢
      have ih' := ih (names.intern (internalName i)).2
        (g.noteImport root (g.fileOf.get? root) (names.intern (internalName i)).1)
      rw [fileOf_noteImport] at ih'
      obtain ⟨hw, hg⟩ := ih' h
      refine ⟨hw.of_intern, hg.trans ?_⟩
      simp [hw.lookup_of_intern, enterMention]
  obtain ⟨hw, hg⟩ := key (names.intern (internalName note.className)).1 _
    (names.intern (internalName note.className)).2 g h
  refine ⟨hw.of_intern, hg.trans ?_⟩
  simp only [Build.readNote, hw.lookup_of_intern]

theorem within_enterNotes (notes : List ImportNote) (names : NameTable) (g : Graph)
    (h : (g.enterNotes names notes).1.Within t) :
    names.Within t ∧ (g.enterNotes names notes).2 =
      (notes.flatMap (Build.readNote t)).foldl enterMention g := by
  induction notes generalizing names g with
  | nil => exact ⟨h, rfl⟩
  | cons note notes ih =>
    have hcons : g.enterNotes names (note :: notes) =
      (g.enterNote names note).2.enterNotes (g.enterNote names note).1 notes := rfl
    rw [hcons] at h ⊢
    obtain ⟨hw, hg⟩ := ih _ _ h
    obtain ⟨hw', hg'⟩ := within_enterNote names g note hw
    refine ⟨hw', hg.trans ?_⟩
    rw [List.flatMap_cons, List.foldl_append, hg']

theorem within_addFiles (files : List SourcePath) (names : NameTable) (g : Graph)
    (h : (g.addFiles names files).1.Within t) :
    names.Within t ∧ (g.addFiles names files).2 =
      (files.filterMap fun p => t.lookup p.text).foldl addFile g := by
  induction files generalizing names g with
  | nil => exact ⟨h, rfl⟩
  | cons p files ih =>
    have hcons : g.addFiles names (p :: files) =
      (g.addFile (names.intern p.text).1).addFiles (names.intern p.text).2 files := rfl
    rw [hcons] at h ⊢
    obtain ⟨hw, hg⟩ := ih _ _ h
    refine ⟨hw.of_intern, hg.trans ?_⟩
    simp [hw.lookup_of_intern]

end Graph

namespace Build

variable {t : NameTable}

/-- The graph of a build: its classes, its imports, and an entry for each of its files. -/
def graph (t : NameTable) (b : Build) : Graph :=
  (Merge.knownFiles t b.files).foldl Graph.addFile
    ((b.mentions t).foldl Graph.enterMention
      ((b.classes t).foldl (fun g x => g.record x.1 x.2) .empty))

theorem within_recordOutputs (l : List ClassOutput) (names : NameTable) (r : Round)
    (h : (l.foldl (fun (x : NameTable × Round) o =>
      x.2.associate x.1 o.file o.classFile o.info) (names, r)).1.Within t) :
    names.Within t ∧ (l.foldl (fun (x : NameTable × Round) o =>
      x.2.associate x.1 o.file o.classFile o.info) (names, r)).2 =
        { r with
          graph := (l.filterMap (readOutput t)).foldl (fun g x => g.record x.1 x.2) r.graph } := by
  induction l generalizing names r with
  | nil => exact ⟨h, rfl⟩
  | cons o l ih =>
    rw [List.foldl_cons] at h ⊢
    obtain ⟨hw, hr⟩ := ih (r.associate names o.file o.classFile o.info).1
      (r.associate names o.file o.classFile o.info).2 h
    obtain ⟨hw', hg⟩ := Graph.within_associate names r.graph o hw
    have hnext : ∀ g, g = (readOutput t o).toList.foldl (fun g x => g.record x.1 x.2) r.graph →
        (l.filterMap (readOutput t)).foldl (fun g x => g.record x.1 x.2) g =
          ((o :: l).filterMap (readOutput t)).foldl (fun g x => g.record x.1 x.2) r.graph := by
      rintro _ rfl
      cases ho : readOutput t o <;> simp [ho]
    exact ⟨hw', hr.trans (congrArg (fun g => { r with graph := g }) (hnext _ hg))⟩

theorem registerImports_foldl (l : List ImportNote) (r : Round) :
    l.foldl Round.registerImports r = { r with imports := r.imports ++ l } := by
  induction l generalizing r with
  | nil => simp
  | cons note l ih => simp [ih, Round.registerImports]

/-- The round of a build holds its classes, with its imports still queued. -/
theorem round_within (names : NameTable) (b : Build) (h : (b.round names).1.Within t) :
    names.Within t ∧ (b.round names).2 =
      { Round.new with
        graph := (b.classes t).foldl (fun g x => g.record x.1 x.2) .empty
        imports := b.imports } := by
  obtain ⟨hw, houtputs⟩ := within_recordOutputs b.outputs names .new h
  refine ⟨hw, ?_⟩
  show b.imports.foldl Round.registerImports _ = _
  rw [registerImports_foldl, houtputs]
  rfl

/-- **A build makes its graph**: the round of a build, when it is ready to be compared,
holds the graph of the build, as any later table of names reads it. -/
theorem prepare_round (names : NameTable) (b : Build)
    (h : ((b.round names).2.prepare (b.round names).1 b.removed b.files).1.Within t) :
    names.Within t ∧ ((b.round names).2.prepare (b.round names).1 b.removed b.files).2 =
      { Round.new with
        graph := b.graph t
        removedFiles := b.removed
        differentiated := true } := by
  set entered := (b.round names).2.graph.enterNotes (b.round names).1 (b.round names).2.imports
    with hent
  have hprep : (b.round names).2.prepare (b.round names).1 b.removed b.files =
      ((entered.2.addFiles entered.1 b.files).1,
        { (b.round names).2 with
          graph := (entered.2.addFiles entered.1 b.files).2
          removedFiles := b.removed
          imports := []
          differentiated := true }) := rfl
  rw [hprep] at h ⊢
  obtain ⟨hw, hfiles⟩ := Graph.within_addFiles b.files entered.1 entered.2 h
  obtain ⟨hw, himports⟩ := Graph.within_enterNotes _ (b.round names).1 (b.round names).2.graph hw
  obtain ⟨hw, hround⟩ := round_within names b hw
  refine ⟨hw, ?_⟩
  rw [hfiles, hent, himports, hround]
  rfl

end Build

end ClassImpact

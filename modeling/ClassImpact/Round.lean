import ClassImpact.Imports
import ClassImpact.Propagation

/-!
# Rounds

A round collects what the compiler produced: the classes of the compiled files, in
a graph of their own, and the imports that were reported.  It is then compared with
the graph so far, in one of three ways, and merged into it.

Comparing a round first enters its imports and gives every compiled file an entry,
so that a file that produced no class is seen to have lost them all.
-/

namespace ClassImpact

namespace Graph

/-- The graph with one compiled class recorded.  A class file that holds no class
only has its name noted. -/
def associate (names : NameTable) (g : Graph) (file classFile : String)
    (c : Option ClassInfo) : NameTable × Graph :=
  let (classFile, names) := names.intern classFile
  match c with
  | none => (names, g)
  | some c =>
    let (file, names) := names.intern file
    (names, g.record file { c with classFile := classFile })

/-- The graph with an entry for each of the given files. -/
def addFiles (names : NameTable) (g : Graph) (files : List SourcePath) : NameTable × Graph :=
  files.foldl
    (fun (names, g) p =>
      let (file, names) := names.intern p.text
      (names, g.addFile file))
    (names, g)

end Graph

/-- The result of compiling some files, and what is known about it. -/
structure Round where
  graph : Graph
  log : ChangeLog
  removedFiles : List SourcePath
  imports : List ImportNote
  /-- The round was compared with the graph so far. -/
  differentiated : Bool
  /-- The round replaces the graph so far. -/
  rebuild : Bool
deriving DecidableEq, Repr

namespace Round

/-- The round in which nothing has been compiled. -/
def new : Round := ⟨.empty, .empty, [], [], false, false⟩

/-- The round with one compiled class recorded. -/
def associate (names : NameTable) (r : Round) (file classFile : String) (c : Option ClassInfo) :
    NameTable × Round :=
  let (names, g) := r.graph.associate names file classFile c
  (names, { r with graph := g })

/-- The round with the imports of a class queued. -/
def registerImports (r : Round) (note : ImportNote) : Round :=
  { r with imports := r.imports ++ [note] }

/-- The round with its queued imports entered. -/
def enterImports (names : NameTable) (r : Round) : NameTable × Round :=
  let (names, g) := r.graph.enterNotes names r.imports
  (names, { r with graph := g, imports := [] })

/-- The round made ready for a comparison. -/
def prepare (names : NameTable) (r : Round) (removed files : List SourcePath) :
    NameTable × Round :=
  let (names, r) := { r with differentiated := true, removedFiles := removed }.enterImports names
  let (names, g) := r.graph.addFiles names files
  (names, { r with graph := g })

/-- The round as one that replaces the graph so far. -/
def onRebuild (r : Round) : Round := { r with rebuild := true, differentiated := true }

/-- The round compared with the graph so far, without asking what it affects. -/
def compareEasily (names : NameTable) (main : Graph) (r : Round) (removed files : List SourcePath) :
    NameTable × Round :=
  let (names, r) := r.prepare names removed files
  let (_, _, names) := internKeyNames names
  (names, { r with log := noteRound main r.graph r.log })

/-- The round compared with the graph so far, and what the comparison found. -/
def compareFully (names : NameTable) (main : Graph) (r : Round) (q : RoundRequest) :
    NameTable × Round × Comparison :=
  let (names, r) := r.prepare names q.removed q.files
  let c := compareRound names main r.graph r.log q
  let (_, _, names) := internKeyNames names
  (names, { r with log := c.log }, c)

end Round

end ClassImpact

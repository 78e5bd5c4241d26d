import ClassImpact.Graph

/-!
# Imports waiting for their class

A compiler reports the imports of a class apart from the class itself, so they are
queued and entered into the graph later.  An import becomes a dependency edge,
and a mention in the descriptor of the importing class when that is known.
A static import stands for the class its member belongs to; an import of a whole
package names no class and is passed over.
-/

namespace ClassImpact

/-- The imports reported for one class, in dotted spelling. -/
structure ImportNote where
  className : String
  imports : List String
deriving DecidableEq, Repr

namespace ImportNote

/-- The class that a static import takes a member from. -/
def staticOwner (imported : String) : String :=
  match beforeLast '.' imported.toList with
  | some owner => String.ofList owner
  | none => imported

/-- The note of a class's imports, the static ones last. -/
def ofImports (className : String) (imports statics : List String) : ImportNote :=
  ⟨className, imports ++ statics.map staticOwner⟩

/-- Whether an import takes in a whole package. -/
def isWildcard (imported : String) : Bool := imported.toList.getLast? = some '*'

end ImportNote

namespace Graph

/-- The graph with an imported class noted for `root`; the file is the one that
`root` was known to come from when its imports began to be entered. -/
def noteImport (g : Graph) (root : Symbol) (file : Option Symbol) (imported : Symbol) : Graph :=
  let g := { g with dependants := g.dependants.addValue imported root }
  match file, (g.describe? root).bind (·.adding? (.mention imported)) with
  | some file, some c => { g with classesIn := g.classesIn.addValue file c }
  | _, _ => g

/-- The graph with the imports of one class entered. -/
def enterNote (names : NameTable) (g : Graph) (note : ImportNote) : NameTable × Graph :=
  let (root, names) := names.intern (internalName note.className)
  let file := g.fileOf.get? root
  (note.imports.filter fun i => !ImportNote.isWildcard i).foldl
    (fun (names, g) i =>
      let (imported, names) := names.intern (internalName i)
      (names, g.noteImport root file imported))
    (names, g)

/-- The graph with a queue of imports entered in order. -/
def enterNotes (names : NameTable) (g : Graph) (notes : List ImportNote) : NameTable × Graph :=
  notes.foldl (fun (names, g) note => g.enterNote names note) (names, g)

end Graph

end ClassImpact

import ClassImpact.Table
import ClassImpact.ClassInfo

/-!
# The dependency graph

A graph is four tables: which classes extend a class, which classes use it, which
classes a source file declares, and which file a class comes from.  The
descriptor of a class is found through its file.

A recorded class is expected to have an entry for its file among `classesIn`;
nothing in the type enforces that, because the tables are written separately.
-/

namespace ClassImpact

/-- The tables of a graph. -/
structure Graph where
  subclasses : SetTable Symbol
  dependants : SetTable Symbol
  classesIn : SetTable ClassInfo
  fileOf : Table Symbol
deriving DecidableEq, Repr

namespace Graph

/-- The graph without classes. -/
def empty : Graph := ⟨.empty, .empty, .empty, .empty⟩

/-- The descriptor recorded for a class, found through its source file. -/
def describe? (g : Graph) (name : Symbol) : Option ClassInfo :=
  (g.fileOf.get? name).bind fun file => (g.classesIn.valuesOf file).find? name

/-- The classes that extend or implement a class directly. -/
def directSubclasses (g : Graph) (name : Symbol) : List Symbol :=
  (g.subclasses.valuesOf name).toList

/-- The classes recorded as users of a class. -/
def dependantsOf (g : Graph) (name : Symbol) : List Symbol := (g.dependants.valuesOf name).toList

/-! ## Recording a class -/

/-- The classes whose usages lead from `c` out of the file `file`. -/
def foreignOwners (fileOf : Table Symbol) (file : Symbol) (c : ClassInfo) : List Symbol :=
  (c.usages.toList.map Usage.owner).filter fun o => o ≠ c.name && fileOf.get? o ≠ some file

/-- The graph with a class recorded under a file: one edge for each supertype, and
one for each class it uses that is not known to come from the same file. -/
def record (g : Graph) (file : Symbol) (c : ClassInfo) : Graph :=
  let fileOf := g.fileOf.insert c.name file
  { subclasses := c.supers.foldl (fun t s => t.addValue s c.name) g.subclasses
    dependants := (foreignOwners fileOf file c).foldl (fun t o => t.addValue o c.name) g.dependants
    classesIn := g.classesIn.addValue file c
    fileOf := fileOf }

/-- The graph with an empty entry for a file that has none. -/
def addFile (g : Graph) (file : Symbol) : Graph :=
  if g.classesIn.has file then g
  else { g with classesIn := g.classesIn.insert file .empty }

end Graph

end ClassImpact

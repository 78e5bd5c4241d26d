import ClassImpact.IdSet

/-!
# Source paths

A source file has a path, written with slashes.  Two spellings are one path when
they have the same components: repeated slashes, a slash at the end and inner `.`
components do not count, while a `.` at the very front does, and `..` is never
resolved.  So a set of paths holds one spelling of each, the one that came first.

Paths are ordered component by component: the root before a leading `.`, that
before `..`, and that before names, which are ordered as texts.
-/

namespace ClassImpact

/-- One step of a path. -/
inductive Component where
  | root | here | up
  | name (text : String)
deriving DecidableEq, Repr

namespace Component

/-- The place of the kinds of component in the order of paths. -/
def rank : Component → Nat
  | .root => 0
  | .here => 1
  | .up => 2
  | .name _ => 3

/-- The order of components: by kind, and names as texts. -/
def lt : Component → Component → Bool
  | .name a, .name b => a < b
  | a, b => a.rank < b.rank

/-- The component that the text between two slashes stands for, if any. -/
def ofSegment? (segment : List Char) : Option Component :=
  match segment with
  | [] => none
  | ['.'] => none
  | ['.', '.'] => some .up
  | text => some (.name (String.ofList text))

/-- The lexicographic order of component lists. -/
def listLt : List Component → List Component → Bool
  | _, [] => false
  | [], _ :: _ => true
  | a :: as, b :: bs => a.lt b || (a = b && listLt as bs)

end Component

/-- The pieces of a text between the slashes; there is always at least one. -/
def segments : List Char → List (List Char)
  | [] => [[]]
  | '/' :: rest => [] :: segments rest
  | c :: rest =>
    match segments rest with
    | first :: more => (c :: first) :: more
    | [] => [[c]]

/-- The path of a source file, as it is spelled. -/
structure SourcePath where
  text : String
deriving DecidableEq, Repr

namespace SourcePath

/-- The components of a path. -/
def components (p : SourcePath) : List Component :=
  let pieces := segments p.text.toList
  let inner := pieces.filterMap Component.ofSegment?
  match pieces with
  | ['.'] :: _ => .here :: inner
  | [] :: _ :: _ => .root :: inner
  | _ => inner

/-- Whether two spellings are the same path. -/
def sameAs (p q : SourcePath) : Bool := p.components = q.components

/-- Whether `p` comes before `q` in the order of paths. -/
def before (p q : SourcePath) : Bool := Component.listLt p.components q.components

end SourcePath

/-- A path is known by its components. -/
instance : Identified SourcePath (List Component) := ⟨SourcePath.components⟩

/-- A set of paths, one spelling of each. -/
abbrev PathSet := IdSet SourcePath

namespace PathSet

/-- A path put before the first one that it comes before. -/
def insertSorted (p : SourcePath) : List SourcePath → List SourcePath
  | [] => [p]
  | q :: rest => if q.before p then q :: insertSorted p rest else p :: q :: rest

/-- The paths of a list in their order; equal ones keep their places. -/
def sortList (paths : List SourcePath) : List SourcePath := paths.foldr insertSorted []

/-- The paths of a set in their order. -/
def sorted (s : PathSet) : List SourcePath := sortList s.toList

/-- The set of a list of paths; of several spellings of one path the last counts. -/
def ofListLast (paths : List SourcePath) : PathSet := IdSet.ofList paths.reverse

/-- The set with the paths of `t` added; a spelling that is there already stays. -/
def extend (s t : PathSet) : PathSet := t.toList.foldl IdSet.add s

/-- The set without the given paths, however they are spelled. -/
def eraseAll (s : PathSet) (paths : List SourcePath) : PathSet :=
  s.filter fun p => !paths.any p.sameAs

end PathSet

/-- A second path read from the first one: an absolute one replaces it, any other
is written behind it, with a slash between when one is missing. -/
def joinPath (base rest : String) : String :=
  if rest.toList.head? = some '/' then rest
  else
    match base.toList.getLast? with
    | none => rest
    | some '/' => base ++ rest
    | some _ => base ++ "/" ++ rest

end ClassImpact

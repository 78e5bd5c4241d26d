import ClassImpact.SourcePath

/-!
# Paths of folders and files

A path on disk is kept as the pieces of its text between the slashes, empty pieces and
all: how long the text is decides whether the path is possible.  For the steps that
it takes, empty pieces do not count.

The paths above a path lead to the folders on its way.  They end in a name or in `..`,
so that an end of slashes and `.` pieces is not a step of its own.
-/

namespace ClassImpact

/-- A path, as the pieces between its slashes. -/
structure FilePath where
  pieces : List String
deriving DecidableEq, Repr

/-- Whether a text can name a folder or file: names have at most 255 bytes. -/
def isFileName (name : String) : Bool := name.utf8ByteSize ≤ 255

namespace FilePath

/-- The path that a text spells. -/
def ofText (text : String) : FilePath := ⟨(segments text.toList).map String.ofList⟩

/-- The bytes of the text, each piece with the slash or the mark that ends it. -/
def byteSize (p : FilePath) : Nat := p.pieces.foldl (fun n piece => n + piece.utf8ByteSize + 1) 0

/-- Whether there can be such a path: it has at most 4096 bytes, and none of them is the
mark that ends it. -/
def isPossible (p : FilePath) : Bool :=
  p.byteSize ≤ 4096 && p.pieces.all fun piece => !piece.toList.contains '\x00'

/-- The steps that a path takes. -/
def steps (p : FilePath) : List String := p.pieces.filter (· ≠ "")

/-- Whether the text ends in a slash. -/
def endsInSlash (p : FilePath) : Bool := p.pieces.getLast? = some ""

/-- The paths that end in a step on the way, from the last one; the pieces are given
from the last. -/
def ends : List String → List FilePath
  | [] => []
  | piece :: before =>
    if piece = "" ∨ piece = "." then ends before
    else ⟨(piece :: before).reverse⟩ :: ends before

/-- The paths to the folders on the way to the end of a path, the last of them first. -/
def above (p : FilePath) : List FilePath := (ends p.pieces.reverse).tail

end FilePath

end ClassImpact

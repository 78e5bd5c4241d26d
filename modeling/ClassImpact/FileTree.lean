import ClassImpact.FilePath

/-!
# Trees of folders and files

`FileTree` says which folders and files there are.  Folders are known by numbers, the
top by zero, and a folder holds its entries by name.  A file is only a number here,
given out once: a file made anew in the place of a removed one is another file.
What a file holds is kept elsewhere, by its number.  A removed folder keeps its number
and its entries, but no entry leads to it any more.

A path is walked step by step from the top.  A step `.` stays and `..` goes up,
and both, like every step that is followed by another, need a folder to stand in.
A walk that does not get through meets an obstacle, and the obstacle says whether
making the folders on the way could help.
-/

namespace ClassImpact

/-- What a name in a folder leads to. -/
inductive Node where
  | folder (number : Nat)
  | file (number : Nat)
deriving DecidableEq, Repr

/-- A folder: the number of the one above it, and what it holds. -/
structure Folder where
  up : Nat
  entries : List (String × Node)
deriving DecidableEq, Repr

/-- Why a path does not lead where it should. -/
inductive Obstacle where
  /-- A folder on the way, or the end itself, is not there. -/
  | missing
  /-- Something stands in the way, or a name is not possible. -/
  | refused
deriving DecidableEq, Repr

/-- Where a path leads. -/
inductive Spot where
  | taken (node : Node)
  /-- Nothing stands there; the name is free in a folder. -/
  | vacant (folder : Nat) (name : String)
deriving DecidableEq, Repr

/-- Folders by number, and the files in them. -/
structure FileTree where
  folders : Array Folder
  /-- The number of the next file. -/
  nextFile : Nat
deriving DecidableEq, Repr

namespace FileTree

/-- The tree of its top alone. -/
def empty : FileTree := ⟨#[⟨0, []⟩], 0⟩

/-- The folder with a number. -/
def folder (t : FileTree) (number : Nat) : Folder := t.folders[number]?.getD ⟨0, []⟩

/-- The tree in which a folder holds other entries. -/
def setEntries (t : FileTree) (number : Nat) (entries : List (String × Node)) : FileTree :=
  { t with folders := t.folders.setIfInBounds number ⟨(t.folder number).up, entries⟩ }

/-- The tree with one more entry in a folder. -/
def addEntry (t : FileTree) (number : Nat) (name : String) (node : Node) : FileTree :=
  t.setEntries number ((t.folder number).entries ++ [(name, node)])

/-! ## Finding -/

/-- Where a name leads in a folder. -/
def spotOf (t : FileTree) (number : Nat) (name : String) : Spot :=
  match (t.folder number).entries.lookup name with
  | some node => .taken node
  | none => .vacant number name

/-- Where steps lead from a spot.  A step is only taken from a folder. -/
def walk (t : FileTree) : Spot → List String → Except Obstacle Spot
  | spot, [] => .ok spot
  | .vacant _ _, _ :: _ => .error .missing
  | .taken (.file _), _ :: _ => .error .refused
  | .taken (.folder number), step :: rest =>
    if step = "." then t.walk (.taken (.folder number)) rest
    else if step = ".." then t.walk (.taken (.folder (t.folder number).up)) rest
    else if isFileName step then t.walk (t.spotOf number step) rest
    else .error .refused

/-- Where a path leads from the top.  An impossible path is refused before its first
step is taken. -/
def locate (t : FileTree) (path : FilePath) : Except Obstacle Spot :=
  if path.isPossible then t.walk (.taken (.folder 0)) path.steps else .error .refused

/-- What stands at the end of a path, if anything does. -/
def find? (t : FileTree) (path : FilePath) : Option Node :=
  match t.locate path with
  | .ok (.taken node) => some node
  | _ => none

def isFolder (t : FileTree) (path : FilePath) : Bool :=
  match t.find? path with
  | some (.folder _) => true
  | _ => false

/-- The names in the folder at the end of a path; none without a folder. -/
def namesIn (t : FileTree) (path : FilePath) : List String :=
  match t.find? path with
  | some (.folder number) => (t.folder number).entries.map (·.1)
  | _ => []

/-! ## Folders -/

/-- Makes one folder, in a folder that is there and where nothing stands yet. -/
def makeFolder (t : FileTree) (path : FilePath) : Except Obstacle FileTree :=
  match t.locate path with
  | .ok (.vacant number name) =>
    let made := t.addEntry number name (.folder t.folders.size)
    .ok { made with folders := made.folders.push ⟨number, []⟩ }
  | .ok (.taken _) => .error .refused
  | .error obstacle => .error obstacle

/-- Makes the folder at the end of the first path unless it is there, after those of the
paths behind it when one is missing; tells whether it is there now.  What could be
made stays, also when the rest is refused. -/
def makeFolders (t : FileTree) : List FilePath → Bool × FileTree
  | [] => (true, t)
  | path :: above =>
    match t.makeFolder path with
    | .ok t => (true, t)
    | .error .refused => (t.isFolder path, t)
    | .error .missing =>
      match t.makeFolders above with
      | (false, t) => (false, t)
      | (true, t) =>
        match t.makeFolder path with
        | .ok t => (true, t)
        | .error _ => (t.isFolder path, t)

/-- Removes a folder with everything below it. -/
def removeFolder (t : FileTree) (path : FilePath) : Except Obstacle FileTree :=
  match t.locate path with
  | .ok (.taken (.folder number)) =>
    let up := (t.folder number).up
    .ok (t.setEntries up ((t.folder up).entries.filter fun e => e.2 ≠ .folder number))
  | .ok (.taken (.file _)) => .error .refused
  | .ok (.vacant _ _) => .error .missing
  | .error obstacle => .error obstacle

/-! ## Files -/

/-- The number of the file at the end of a path, which is made when nothing stands
there: then it has the next number.  A path that ends in a slash leads to no file. -/
def openFile (t : FileTree) (path : FilePath) : Option (Nat × FileTree) :=
  if path.endsInSlash then none
  else
    match t.locate path with
    | .ok (.taken (.file number)) => some (number, t)
    | .ok (.vacant number name) =>
      some (t.nextFile,
        { t.addEntry number name (.file t.nextFile) with nextFile := t.nextFile + 1 })
    | _ => none

end FileTree

end ClassImpact

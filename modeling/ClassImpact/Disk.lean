import ClassImpact.Fault
import ClassImpact.FileTree
import ClassImpact.Graph
import ClassImpact.Settings

/-!
# Databases on disk

A database is a file that holds a graph and the names saved with it.  Whoever opens
it holds the file until it is released, and nobody else can open it meanwhile.  The
file may lose its place in the tree while it is held; what it holds is then out of
reach after the release.

A workspace on disk holds a database of its own.  Rounds may be stored too, each in a
database of its own and in a numbered directory that goes with the round.
-/

namespace ClassImpact

/-! ## Databases -/

/-- What a database holds. -/
structure StoredGraph where
  /-- The names saved last, by symbol. -/
  names : Table String
  graph : Graph
deriving DecidableEq, Repr

namespace StoredGraph

/-- What a new database holds. -/
def empty : StoredGraph := ⟨.empty, .empty⟩

/-- The table of the names saved last. -/
def nameTable (s : StoredGraph) : NameTable :=
  .ofEntries (s.names.entries.map fun e => (e.1.id, e.2))

end StoredGraph

/-- Saved names with those of a table saved over them. -/
def saveNames (saved : Table String) (names : NameTable) : Table String :=
  names.entries.foldl (fun t e => t.insert ⟨e.1⟩ e.2) saved

/-- The files of a tree, with what the databases among them hold. -/
structure Databases where
  tree : FileTree
  /-- What each database held when it was last released. -/
  contents : List (Nat × StoredGraph)
  /-- The databases that somebody holds. -/
  held : List Nat
deriving DecidableEq, Repr

namespace Databases

/-- No databases, in a tree of one directory. -/
def inDirectory (path : FilePath) : Databases :=
  ⟨(FileTree.empty.makeFolders (path :: path.above)).2, [], []⟩

/-- Opens the database of a path, making it and the directories above it where they are
missing.  Directories that could be made stay, also when there can be no database. -/
def acquire (d : Databases) (path : FilePath) :
    Except StorageFault (Nat × StoredGraph) × Databases :=
  match d.tree.makeFolders path.above with
  | (false, tree) => (.error .io, { d with tree := tree })
  | (true, tree) =>
    let d := { d with tree := tree }
    match tree.openFile path with
    | none => (.error .cannotOpen, d)
    | some (file, tree') =>
      if file = tree.nextFile then
        (.ok (file, .empty), ⟨tree', (file, .empty) :: d.contents, file :: d.held⟩)
      else if d.held.contains file then (.error .cannotOpen, d)
      else
        match d.contents.lookup file with
        | some content => (.ok (file, content), { d with held := file :: d.held })
        | none => (.error .cannotOpen, d)

/-- Lets go of a database, with what it holds now. -/
def release (d : Databases) (file : Nat) (content : StoredGraph) : Databases :=
  { d with
    contents := d.contents.map fun e => if e.1 = file then (file, content) else e
    held := d.held.filter (· ≠ file) }

/-- **What is released is found**: a database holds what it was released with. -/
theorem lookup_release (d : Databases) (file : Nat) (content : StoredGraph) :
    (d.release file content).contents.lookup file =
      (d.contents.lookup file).map fun _ => content := by
  simp only [release]
  induction d.contents with
  | nil => rfl
  | cons e rest ih =>
    obtain ⟨k, v⟩ := e
    by_cases h : k = file
    · simp [h]
    · have h' : (file == k) = false := beq_false_of_ne (Ne.symm h)
      simpa [h, h', List.lookup_cons] using ih

@[simp] theorem held_release (d : Databases) (file : Nat) (content : StoredGraph) :
    (d.release file content).held.contains file = false := by simp [release]

/-- Puts a file that is no database at the end of a path, over the file that is there;
nothing happens where there can be no file. -/
def overwrite (d : Databases) (path : FilePath) : Databases :=
  match d.tree.openFile path with
  | none => d
  | some (file, tree) =>
    { d with tree := tree, contents := d.contents.filter fun e => e.1 ≠ file }

end Databases

/-! ## The disk of a workspace -/

/-- Where a stored round is kept. -/
structure RoundStore where
  directory : FilePath
  file : Nat
  /-- The names found in the database; rounds save none. -/
  names : Table String
deriving DecidableEq, Repr

/-- The part of a workspace that outlives it. -/
structure Disk where
  settings : Settings
  databases : Databases
  /-- The workspace's own database. -/
  file : Nat
  /-- The names saved last, by symbol. -/
  saved : Table String
  /-- The number of the next stored round. -/
  nextRound : Nat
deriving DecidableEq, Repr

namespace Disk

/-- Opens the database that the settings name; where that fails, the databases stay. -/
def mount (settings : Settings) (databases : Databases) :
    Except (StorageFault × Databases) (Disk × StoredGraph) :=
  match databases.acquire (.ofText settings.databasePath) with
  | (.ok (file, content), databases) =>
    .ok (⟨settings, databases, file, content.names, 0⟩, content)
  | (.error fault, databases) => .error (fault, databases)

/-- The databases after the workspace let go of its own, with the graph it had. -/
def unmount (d : Disk) (graph : Graph) : Databases := d.databases.release d.file ⟨d.saved, graph⟩

/-- The disk after the names of a table were saved; a saved name is overwritten. -/
def save (d : Disk) (names : NameTable) : Disk := { d with saved := saveNames d.saved names }

/-- The directory of the round with a number. -/
def roundDirectory (d : Disk) (number : Nat) : String :=
  joinPath d.settings.roundsDir (toString number)

/-- Opens a round's database in a directory, with the databases as they are then. -/
def openRoundIn (d : Disk) (directory : String) (databases : Databases) :
    Except Fault (RoundStore × Graph) × Disk :=
  match databases.acquire (.ofText (joinPath directory d.settings.databaseFile)) with
  | (.ok (file, content), databases) =>
    (.ok (⟨.ofText directory, file, content.names⟩, content.graph),
      { d with databases := databases })
  | (.error fault, databases) => (.error (.storage fault), { d with databases := databases })

/-- Opens a database for the next round, in a directory of its own that takes the place
of whatever directory has its name.  The number counts up even when that fails. -/
def openRound (d : Disk) : Except Fault (RoundStore × Graph) × Disk :=
  let directory := d.roundDirectory d.nextRound
  let d := { d with nextRound := d.nextRound + 1 }
  let path := FilePath.ofText directory
  match d.databases.tree.find? path, d.databases.tree.removeFolder path with
  | none, _ => d.openRoundIn directory d.databases
  | some _, .ok tree => d.openRoundIn directory { d.databases with tree := tree }
  | some _, .error _ => (.error .io, d)

/-- Lets go of a round's database, and removes the round's directory if it is there. -/
def closeRound (d : Disk) (store : RoundStore) (graph : Graph) : Disk :=
  let databases := d.databases.release store.file ⟨store.names, graph⟩
  match databases.tree.removeFolder store.directory with
  | .ok tree => { d with databases := { databases with tree := tree } }
  | .error _ => { d with databases := databases }

/-- Puts a directory among those of the rounds, with something in it that is no database. -/
def leaveRoundDirectory (d : Disk) (name : String) : Disk :=
  let directory := joinPath d.settings.roundsDir name
  let path := FilePath.ofText directory
  match d.databases.tree.makeFolders (path :: path.above) with
  | (false, tree) => { d with databases := { d.databases with tree := tree } }
  | (true, tree) =>
    let databases := { d.databases with tree := tree }
    let file := joinPath directory Settings.default.databaseFile
    { d with databases := databases.overwrite (.ofText file) }

/-- Puts a plain file in the place of the directory of rounds, unless that exists. -/
def blockRounds (d : Disk) : Disk :=
  { d with databases := d.databases.overwrite (.ofText d.settings.roundsDir) }

/-- The names in the directory of rounds. -/
def roundDirectories (d : Disk) : List String :=
  d.databases.tree.namesIn (.ofText d.settings.roundsDir)

end Disk

end ClassImpact

import ClassImpact.Disk
import ClassImpact.Merge
import ClassImpact.Snapshot

/-!
# Workspaces

A workspace keeps a graph from round to round, with the names that the graph and
its rounds share.  It lives in memory, or on disk.

On disk, every write to the graph is durable at once, while the names are saved
only on request and when the workspace is closed.  Opening the files again finds
the graph as it was, and the names saved last.  A closed workspace on disk
refuses an operation at the first table of the graph that it would reach.

Rounds may be stored too, each in a directory that goes with the round.
-/

namespace ClassImpact

/-! ## Tables of a graph -/

/-- The tables of a graph. -/
inductive GraphTable where
  | subclasses | dependants | classesIn | fileOf
deriving DecidableEq, Repr

/-- The name that a table is stored under. -/
def GraphTable.label : GraphTable → String
  | .subclasses => "class_to_subclasses"
  | .dependants => "class_to_class"
  | .classesIn => "source_to_classes"
  | .fileOf => "class_to_source"

/-- The fault of reaching a table of a closed graph. -/
def GraphTable.closed (t : GraphTable) : Fault := .storage (.closed t.label)

/-- The first table of the graph so far that the comparison of a round reaches. -/
def comparisonReaches (names : NameTable) (removed : List SourcePath) (round : Graph) :
    Option GraphTable :=
  if (Merge.knownFiles names removed).isEmpty && round.classesIn.isEmpty then none
  else some .classesIn

/-- The first table of the graph so far that the merge of a round reaches. -/
def mergeReaches (names : NameTable) (r : Round) : Option GraphTable :=
  let log := Merge.finalLog r.log
  if !(Merge.knownFiles names r.removedFiles).isEmpty then some .classesIn
  else if r.rebuild then some .subclasses
  else if !log.deletedClasses.isEmpty then some .dependants
  else if !(log.addedSupers.isEmpty && log.removedSupers.isEmpty) then some .subclasses
  else if !log.changedClasses.isEmpty then some .fileOf
  else if !log.changedFiles.isEmpty then some .classesIn
  else if r.graph.dependants.entries.any fun e => !e.2.isEmpty then some .dependants
  else none

/-! ## Workspaces and open rounds -/

/-- A graph kept from round to round. -/
structure Workspace where
  names : NameTable
  main : Graph
  imports : List ImportNote
  closed : Bool
  disk : Option Disk
deriving DecidableEq, Repr

/-- A round and the place that it is stored in, if it is. -/
structure OpenRound where
  round : Round
  store : Option RoundStore
  closed : Bool
deriving DecidableEq, Repr

namespace Workspace

/-- A workspace in memory. -/
def inMemory : Workspace := ⟨.new, .empty, [], false, none⟩

/-- The workspace with what was found on a disk. -/
def ofStored (d : Disk) (found : StoredGraph) : Workspace :=
  ⟨found.nameTable, found.graph, [], false, some d⟩

/-- A workspace on disk, in a directory that is otherwise empty. -/
def onDisk (s : Settings) : Except Fault Workspace :=
  match Disk.mount s (.inDirectory (.ofText s.rootDir)) with
  | .ok (d, found) => .ok (ofStored d found)
  | .error (fault, _) => .error (.storage fault)

/-- An operation that reaches a table first; a closed workspace on disk refuses it. -/
def reach {α : Type} (w : Workspace) (table : Option GraphTable)
    (operation : Except Fault α × Workspace) : Except Fault α × Workspace :=
  match table with
  | some t => if w.closed && w.disk.isSome then (.error t.closed, w) else operation
  | none => operation

/-- The workspace after names were put into its table. -/
def withNames (w : Workspace) (names : NameTable) : Workspace := { w with names := names }

/-! ## The graph itself -/

/-- Records a class that was compiled outside of any round. -/
def associate (w : Workspace) (file classFile : String) (c : Option ClassInfo) :
    Except Fault Unit × Workspace :=
  let (names, g) := w.main.associate w.names file classFile c
  let w := w.withNames names
  w.reach (c.map fun _ => .fileOf) (.ok (), { w with main := g })

/-- Queues the imports of a class that was compiled outside of any round. -/
def registerImports (w : Workspace) (note : ImportNote) : Workspace :=
  { w with imports := w.imports ++ [note] }

/-- Enters the queued imports; unless it is only for memory, the names are saved. -/
def flush (w : Workspace) (memoryOnly : Bool) : Except Fault Unit × Workspace :=
  let queue := w.imports
  let w := { w with imports := [] }
  if w.closed && w.disk.isSome && !queue.isEmpty then
    let first := (queue.head?.map ImportNote.className).getD ""
    (.error GraphTable.fileOf.closed, w.withNames (w.names.intern (internalName first)).2)
  else
    let (names, g) := w.main.enterNotes w.names queue
    let w := { w with names := names, main := g }
    (.ok (), if memoryOnly then w else { w with disk := w.disk.map (·.save names) })

/-- Forgets every class, edge and queued import. -/
def clean (w : Workspace) : Except Fault Unit × Workspace :=
  let w := { w with imports := [] }
  w.reach (some .subclasses) (.ok (), { w with main := .empty })

/-- Closes the workspace, once: on disk the names are saved, in memory the graph is
forgotten. -/
def close (w : Workspace) : Workspace :=
  if w.closed then w
  else
    match w.disk with
    | some d => { w with closed := true, disk := some (d.save w.names) }
    | none => { w with closed := true, main := .empty }

/-- The classes recorded for a file, if it has an entry. -/
def classesOf (w : Workspace) (file : String) : Except Fault (Option (IdSet ClassInfo)) :=
  match w.names.lookup file with
  | none => .ok none
  | some f => (w.reach (some .classesIn) (.ok (w.main.classesIn.get? f), w)).1

/-- The snapshot of the graph. -/
def snapshot (w : Workspace) : Except Fault Snapshot :=
  (w.reach (some .subclasses) (Snapshot.ofGraph w.names w.main, w)).1

/-! ## Rounds -/

/-- Starts a round, which is empty unless its database was there already. -/
def createRound (w : Workspace) : Except Fault OpenRound × Workspace :=
  match w.disk with
  | some d =>
    if d.settings.transientRounds then (.ok ⟨.new, none, false⟩, w)
    else
      match d.openRound with
      | (.ok (store, g), d) =>
        (.ok ⟨{ Round.new with graph := g }, some store, false⟩, { w with disk := some d })
      | (.error fault, d) => (.error fault, { w with disk := some d })
  | none => (.ok ⟨.new, none, false⟩, w)

/-- Closes a round, once: its graph is forgotten and its directory removed. -/
def closeRound (w : Workspace) (o : OpenRound) : OpenRound × Workspace :=
  if o.closed then (o, w)
  else
    let o' := ⟨{ o.round with graph := .empty }, none, true⟩
    match o.store, w.disk with
    | some store, some d => (o', { w with disk := some (d.closeRound store o.round.graph) })
    | _, _ => (o', w)

/-- Records a class compiled in a round. -/
def associateIn (w : Workspace) (o : OpenRound) (file classFile : String) (c : Option ClassInfo) :
    OpenRound × Workspace :=
  let (names, r) := o.round.associate w.names file classFile c
  ({ o with round := r }, w.withNames names)

/-- The classes compiled from a file in a round, if it has an entry. -/
def classesIn (w : Workspace) (o : OpenRound) (file : String) : Option (IdSet ClassInfo) :=
  (w.names.lookup file).bind fun f => o.round.graph.classesIn.get? f

/-- Compares a round without asking what it affects. -/
def compareEasily (w : Workspace) (o : OpenRound) (removed files : List SourcePath) :
    Except Fault Unit × OpenRound × Workspace :=
  let (names, ready) := o.round.prepare w.names removed files
  let (names', done) := o.round.compareEasily w.names w.main removed files
  let result := w.withNames names' |>.reach
    (comparisonReaches names [] ready.graph) (.ok (), w.withNames names')
  match result.1 with
  | .ok () => (.ok (), { o with round := done }, result.2)
  | .error fault => (.error fault, { o with round := ready }, result.2)

/-- Compares a round, and tells what it affects and which questions were put. -/
def compareFully (w : Workspace) (o : OpenRound) (q : RoundRequest) :
    Except Fault (Propagation × List ConstantRequest) × OpenRound × Workspace :=
  let (_, ready) := o.round.prepare w.names q.removed q.files
  let (names, done, c) := o.round.compareFully w.names w.main q
  let w := w.withNames names
  let result := w.reach (comparisonReaches names q.removed ready.graph) (.ok (), w)
  match result.1 with
  | .ok () => (c.outcome.map fun p => (p, c.requests), { o with round := done }, w)
  | .error fault => (.error fault, { o with round := ready }, w)

/-- Merges a round into the graph and closes it, also when the merge is refused. -/
def integrate (w : Workspace) (o : OpenRound) : Except Fault Unit × Workspace :=
  match w.main.integrate w.names o.round with
  | .error fault => (.error fault, (w.closeRound o).2)
  | .ok (names, g) =>
    let w := w.withNames names
    let (_, entered) := o.round.enterImports names
    let merged := w.reach (mergeReaches names entered) (.ok (), { w with main := g })
    (merged.1, (merged.2.closeRound { o with round := entered }).2)

/-! ## Opening again -/

/-- The workspace found when the files are opened again, all rounds having been
dropped; without a database in their place the workspace stays as it was.  In
memory there is nothing to open. -/
def reopen (w : Workspace) : Except Fault Unit × Workspace :=
  match w.disk with
  | some d =>
    match Disk.mount d.settings (d.unmount w.main) with
    | .ok (d, found) => (.ok (), ofStored d found)
    | .error (fault, databases) =>
      (.error (.storage fault), { w with disk := some { d with databases := databases } })
  | none => (.ok (), w)

/-- Puts a directory in place that an earlier run left behind. -/
def leaveRoundDirectory (w : Workspace) (name : String) : Workspace :=
  { w with disk := w.disk.map fun d => d.leaveRoundDirectory name }

/-- Puts a plain file in the place of the directory of rounds, unless that exists. -/
def blockRounds (w : Workspace) : Workspace := { w with disk := w.disk.map Disk.blockRounds }

/-- The names in the directory of rounds, sorted. -/
def roundDirectories (w : Workspace) : List String :=
  sortedTexts ((w.disk.map Disk.roundDirectories).getD [])

end Workspace

end ClassImpact

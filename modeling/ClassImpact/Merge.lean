import ClassImpact.Round

/-!
# Merging a round

A round that was compared is written into the graph so far.  First the classes of
removed files and the deleted classes are purged; what they used is collected in
a *trash* table, from a used class to its former users.  Then the supertype
edges, the files of classes and the classes of files are brought up to date from
the log, and at the end the dependants of every class that lost or gained a user.

A class that only moved out of a removed file keeps its subclasses and its
dependants; just its own edges go stale.  A round that replaces the graph is
copied instead, and its log is not used.
-/

namespace ClassImpact

/-- The graph, the log and the trash in the middle of a merge. -/
structure Merge where
  main : Graph
  log : ChangeLog
  trash : SetTable Symbol
deriving DecidableEq, Repr

namespace Merge

/-! ## Purging -/

/-- The trash with a class as the former user of everything that it used. -/
def discard (trash : SetTable Symbol) (user : Symbol) (usages : IdSet Usage) : SetTable Symbol :=
  usages.toList.foldl (fun t u => t.addValue u.owner user) trash

/-- A class that left its file for another one of the round. -/
def moveOut (m : Merge) (c : ClassInfo) : Merge :=
  { m with
    log := m.log.lost c.name c.supers
    trash := discard m.trash c.name c.usages }

/-- A class that is gone. -/
def purge (m : Merge) (c : ClassInfo) : Merge :=
  let m := m.moveOut c
  { m with
    main :=
      { m.main with
        dependants := m.main.dependants.erase c.name
        subclasses := m.main.subclasses.erase c.name
        fileOf := m.main.fileOf.erase c.name } }

/-- A file that left the project. -/
def purgeFile (round : Graph) (m : Merge) (file : Symbol) : Merge :=
  let m := (m.main.classesIn.valuesOf file).toList.foldl
    (fun m c => if round.fileOf.has c.name then m.moveOut c else m.purge c) m
  { m with main := { m.main with classesIn := m.main.classesIn.erase file } }

/-- The removed files that have a symbol, in order. -/
def knownFiles (names : NameTable) (files : List SourcePath) : List Symbol :=
  files.filterMap fun p => names.lookup p.text

/-! ## Bringing the tables up to date -/

/-- The subclasses of one class after a round. -/
def mergeSubclassesOf (log : ChangeLog) (t : SetTable Symbol) (c : Symbol) : SetTable Symbol :=
  let kept := (t.valuesOf c).sdiff (log.removedSupers.valuesOf c)
  let subclasses := kept.union (log.addedSupers.valuesOf c)
  if subclasses.isEmpty then t.erase c else t.insert c subclasses

/-- Every class that gained or lost a subclass gets its new ones. -/
def mergeSubclasses (m : Merge) : Merge :=
  let supers := (IdSet.ofList (m.log.addedSupers.keys ++ m.log.removedSupers.keys)).toList
  { m with main :=
    { m.main with subclasses := supers.foldl (mergeSubclassesOf m.log) m.main.subclasses } }

/-- A changed class: its old usages go to the trash, and it gets the file of the round. -/
def mergeClass (round : Graph) (m : Merge) (c : Symbol) : Merge :=
  let trash :=
    match m.main.describe? c with
    | some d => discard m.trash c d.usages
    | none => m.trash
  let fileOf :=
    match round.fileOf.get? c with
    | some file => m.main.fileOf.insert c file
    | none => m.main.fileOf.erase c
  { m with main := { m.main with fileOf := fileOf }, trash := trash }

/-- A changed file gets the classes of the round. -/
def mergeFile (round : Graph) (m : Merge) (file : Symbol) : Merge :=
  let classesIn :=
    match round.classesIn.get? file with
    | some classes => m.main.classesIn.insert file classes
    | none => m.main.classesIn.erase file
  { m with main := { m.main with classesIn := classesIn } }

/-- The dependants of one class after a round: without its former users, and with
those of the round. -/
def mergeDependantsOf (round : Graph) (trash t : SetTable Symbol) (c : Symbol) : SetTable Symbol :=
  let now := round.dependants.valuesOf c
  let former := trash.valuesOf c
  let current := t.valuesOf c
  if !former.isEmpty && !current.isEmpty then
    let next := (current.sdiff former).union now
    if next.isEmpty then t.erase c else t.insert c next
  else if now.isEmpty then t
  else t.addValues c now

/-- Every class that lost or gained a user gets its new dependants. -/
def mergeDependants (round : Graph) (m : Merge) : Graph :=
  let used := (IdSet.ofList (m.trash.keys ++ round.dependants.keys)).toList
  { m.main with
    dependants := used.foldl (mergeDependantsOf round m.trash) m.main.dependants }

/-! ## The merge as a whole -/

/-- The log of a round, in which a deleted class does not count as changed. -/
def finalLog (log : ChangeLog) : ChangeLog :=
  { log with changedClasses := log.changedClasses.filter fun c => !log.deletedClasses.has c }

/-- The graph so far replaced by the round, up to the dependants. -/
def replaced (round : Graph) (m : Merge) : Merge :=
  { m with main := { round with dependants := .empty } }

/-- The graph so far brought up to date from the log, up to the dependants. -/
def updated (round : Graph) (m : Merge) : Merge :=
  let m := m.log.deletedClasses.toList.foldl purge m
  let m := m.mergeSubclasses
  let m := m.log.changedClasses.toList.foldl (mergeClass round) m
  m.log.changedFiles.toList.foldl (mergeFile round) m

end Merge

/-- The graph after a round whose imports are entered was merged into it. -/
def Graph.mergeRound (names : NameTable) (main : Graph) (r : Round) : Graph :=
  let m : Merge := ⟨main, Merge.finalLog r.log, .empty⟩
  let m := (Merge.knownFiles names r.removedFiles).foldl (Merge.purgeFile r.graph) m
  let m := if r.rebuild then m.replaced r.graph else m.updated r.graph
  m.mergeDependants r.graph

/-- A round merged into the graph so far; it must have been compared before. -/
def Graph.integrate (names : NameTable) (main : Graph) (r : Round) :
    Except Fault (NameTable × Graph) :=
  if r.differentiated then
    let (names, r) := r.enterImports names
    .ok (names, main.mergeRound names r)
  else .error .notDifferentiated

end ClassImpact

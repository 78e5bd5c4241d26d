import ClassImpact.Change.ClassChange
import ClassImpact.Graph

/-!
# The log of a round

While a round is compared with the graph, a log notes what the merge will have to
write: the classes and files that changed, the classes that were deleted, and the
supertypes that classes gained and lost.

A round is taken apart into events, one for each class that changed, went or
came.  The log only ever grows, and every event notes the same things whether or
not anyone asks for its impact.
-/

namespace ClassImpact

/-- What became of a class in a compiled file. -/
inductive ClassEvent where
  | changed (change : Changed ClassInfo ClassChange)
  | removed (c : ClassInfo)
  | added (c : ClassInfo)
deriving DecidableEq, Repr

namespace ClassEvent

/-- The events of a patch: changes, then removals, then additions. -/
def ofPatch (p : Patch ClassInfo ClassChange) : List ClassEvent :=
  p.changed.map changed ++ p.removed.map removed ++ p.added.map added

/-- The events of one file of the round. -/
def ofFile (main round : Graph) (file : Symbol) : List ClassEvent :=
  ofPatch
    (classPatch ((main.classesIn.get? file).map IdSet.toList)
      (round.classesIn.valuesOf file).toList)

/-- The events of the files of a round, in the order in which they are visited. -/
def ofFiles (main round : Graph) (files : List Symbol) : List ClassEvent :=
  files.flatMap (ofFile main round)

end ClassEvent

/-- What a merge has to write. -/
structure ChangeLog where
  changedClasses : IdSet Symbol
  changedFiles : IdSet Symbol
  deletedClasses : IdSet ClassInfo
  /-- The subclasses that each class gained. -/
  addedSupers : SetTable Symbol
  /-- The subclasses that each class lost. -/
  removedSupers : SetTable Symbol
deriving DecidableEq, Repr

namespace ChangeLog

/-- The log in which nothing is noted. -/
def empty : ChangeLog := ⟨.empty, .empty, .empty, .empty, .empty⟩

/-- Notes that a class gained supertypes. -/
def gained (l : ChangeLog) (c : Symbol) (supers : List Symbol) : ChangeLog :=
  { l with addedSupers := supers.foldl (fun t s => t.addValue s c) l.addedSupers }

/-- Notes that a class lost supertypes. -/
def lost (l : ChangeLog) (c : Symbol) (supers : List Symbol) : ChangeLog :=
  { l with removedSupers := supers.foldl (fun t s => t.addValue s c) l.removedSupers }

/-- Notes that a class has a new descriptor, in the file that the round gives it. -/
def reclassified (l : ChangeLog) (round : Graph) (c : Symbol) : ChangeLog :=
  { l with
    changedClasses := l.changedClasses.add c
    changedFiles := match round.fileOf.get? c with
      | some file => l.changedFiles.add file
      | none => l.changedFiles }

/-- Notes a changed class: supertypes count only where the superclass, or the set of
interfaces, is a different one. -/
def noteChanged (l : ChangeLog) (round : Graph) (change : Changed ClassInfo ClassChange) :
    ChangeLog :=
  let c := change.past.name
  let d := change.diff
  let l := l.reclassified round c
  let l :=
    if d.base.superclass then
      (l.lost c change.past.superclass.className?.toList).gained c
        change.now.superclass.className?.toList
    else l
  (l.lost c (d.interfaces.removed.filterMap TypeRef.className?)).gained c
    (d.interfaces.added.filterMap TypeRef.className?)

/-- Notes a class that its file no longer declares.  It counts as deleted only when
no file of the round declares it. -/
def noteRemoved (l : ChangeLog) (main round : Graph) (c : ClassInfo) : ChangeLog :=
  { l with
    deletedClasses := if round.fileOf.has c.name then l.deletedClasses else l.deletedClasses.add c
    changedFiles := match main.fileOf.get? c.name with
      | some file => l.changedFiles.add file
      | none => l.changedFiles }

/-- Notes a new class. -/
def noteAdded (l : ChangeLog) (round : Graph) (c : ClassInfo) : ChangeLog :=
  (l.reclassified round c.name).gained c.name c.supers

/-- Notes an event. -/
def note (l : ChangeLog) (main round : Graph) : ClassEvent → ChangeLog
  | .changed change => l.noteChanged round change
  | .removed c => l.noteRemoved main round c
  | .added c => l.noteAdded round c

/-- Notes a list of events. -/
def noteAll (l : ChangeLog) (main round : Graph) (events : List ClassEvent) : ChangeLog :=
  events.foldl (fun l e => l.note main round e) l

end ChangeLog

end ClassImpact

import ClassImpact.ChangeLog
import ClassImpact.Constants
import ClassImpact.Impact.Classes

/-!
# Propagation of a round

Which files, besides those that were compiled, have to be compiled again?  The
answer is worked out in four steps.

1. The users of classes that went with a removed file are affected.
2. Every event of the round has its impact; the impacts stand one behind the other.
3. The classes to search are searched for the usages that the impacts name.
4. The answers about constants are taken.

When some change cannot be bounded, the answer is that everything must be rebuilt.
The log notes the events up to and including the one that stopped the comparison.
-/

namespace ClassImpact

/-- The answer of a round. -/
inductive Propagation where
  /-- These files have to be compiled again. -/
  | incremental (affected : PathSet)
  /-- The changes cannot be bounded. -/
  | fullRebuild
deriving DecidableEq, Repr

/-- The answer that a stop amounts to. -/
def Stop.outcome : Stop → Except Fault Propagation
  | .unbounded => .ok .fullRebuild
  | .fault f => .error f

namespace Scene

/-! ## Impacts of a round -/

/-- What an event brings about. -/
def event (s : Scene) : ClassEvent → Impact
  | .changed change => s.changedClass change
  | .removed c => s.removedClass c
  | .added c => s.addedClass c

/-- What the removal of a file from the project brings about. -/
def removedFile (s : Scene) (file : SourcePath) : Impact :=
  match s.names.lookup file.text with
  | none => .none
  | some f => .all ((s.main.classesIn.valuesOf f).toList.map fun c => s.disappearedClass c.name)

/-- What removed files and a list of events bring about. -/
def impact (s : Scene) (removed : List SourcePath) (events : List ClassEvent) : Impact :=
  .all (removed.map s.removedFile) ++ .all (events.map s.event)

/-- The events up to and including the first that stops. -/
def handled (s : Scene) : List ClassEvent → List ClassEvent
  | [] => []
  | e :: rest => e :: if (s.event e).stop.isSome then [] else s.handled rest

/-- The events that are looked at, none of them when a removed file stops. -/
def lookedAt (s : Scene) (removed : List SourcePath) (events : List ClassEvent) :
    List ClassEvent :=
  if (Impact.all (removed.map s.removedFile)).stop.isSome then [] else s.handled events

/-! ## The search for affected classes -/

/-- Whether a usage is searched for, and stands where it counts. -/
def isAffected (s : Scene) (a : Impact) (c : Symbol) (u : Usage) : Except Fault Bool :=
  if a.usages.contains u then
    match a.limitOn? u with
    | none => .ok true
    | some r => r.holds s.updated c
  else .ok false

/-- Whether some query hits a usage. -/
def isQueried (a : Impact) : Usage → Bool
  | .annotated used => a.queries.any fun q => q.hits used
  | _ => false

/-- Whether a class holds a usage that is hit. -/
def isHit (s : Scene) (a : Impact) (c : ClassInfo) : Except Fault Bool :=
  c.usages.toList.anyM fun u => (s.isAffected a c.name u).map (· || isQueried a u)

/-- The search of one class: its file is affected when the class is hit.  Files that
are affected already, or were compiled in this round, are passed over. -/
def searchOne (s : Scene) (a : Impact) (compiled : List SourcePath) (affected : PathSet)
    (c : Symbol) : Except Fault PathSet :=
  match s.main.fileOf.get? c with
  | none => .ok affected
  | some file => do
    let text ← s.names.name file
    let path : SourcePath := ⟨text⟩
    if affected.contains path || compiled.any path.sameAs then pure affected
    else
      match s.main.describe? c with
      | none => pure affected
      | some d => if ← s.isHit a d then pure (affected.add path) else pure affected

/-- The search of a list of classes. -/
def search (s : Scene) (a : Impact) (compiled : List SourcePath) (classes : List Symbol)
    (affected : PathSet) : Except Fault PathSet :=
  classes.foldlM (s.searchOne a compiled) affected

/-! ## The answers about constants -/

/-- The answer to one question: known readers are affected, otherwise the change is
widened. -/
def settle (s : Scene) (answer : ConstantRequest → ConstantAnswer) (affected : PathSet)
    (r : ConstantRequest) : Except Stop PathSet :=
  match answer r with
  | .known files => .ok (affected.extend files)
  | .unknown =>
    let a := s.widen r.owner r.field.access (some r.field.name) r.owner
    match a.stop with
    | some stop => .error stop
    | none => .ok (affected.extend (.ofList a.files))

/-- The answer of a round whose impact is known. -/
def conclude (s : Scene) (a : Impact) (compiled removed : List SourcePath)
    (answer : ConstantRequest → ConstantAnswer) : Except Fault Propagation :=
  match a.stop with
  | some stop => stop.outcome
  | none => do
    let affected ← s.search a compiled (IdSet.ofList a.dependants).toList (.ofList a.files)
    match a.requests.foldlM (s.settle answer) affected with
    | .error stop => stop.outcome
    | .ok affected => pure (.incremental (affected.eraseAll removed))

end Scene

/-! ## A round as a whole -/

/-- What is asked of an incremental comparison. -/
structure RoundRequest where
  /-- The files that left the project. -/
  removed : List SourcePath
  /-- The files that were given to the compiler. -/
  files : List SourcePath
  /-- The files compiled already, which are never searched. -/
  compiled : List SourcePath
  /-- The files that may be drawn in when a change is widened. -/
  accepts : SourcePath → Bool
  resolver : Option Resolver
  waiting : Waiting

/-- The answer to a question under a request. -/
def RoundRequest.answer (q : RoundRequest) (r : ConstantRequest) : ConstantAnswer :=
  match q.resolver with
  | some resolver => (resolver r).take q.waiting
  | none => .unknown

/-- What a comparison leaves: its answer, its log, and the questions it put. -/
structure Comparison where
  outcome : Except Fault Propagation
  log : ChangeLog
  requests : List ConstantRequest

/-- The names that every comparison needs, put into the table. -/
def internKeyNames (names : NameTable) : Symbol × Symbol × NameTable :=
  let (root, names) := names.intern rootClassName
  let (constructor, names) := names.intern constructorName
  (root, constructor, names)

/-- The scene of a comparison, with the table of names that it uses. -/
def Scene.of (names : NameTable) (main round : Graph) (q : RoundRequest) : Scene :=
  let (root, constructor, names) := internKeyNames names
  ⟨main, round, names, root, constructor, q.accepts, q.resolver.isSome⟩

/-- The comparison of a round whose files are visited in the given order. -/
def compareInOrder (names : NameTable) (main round : Graph) (log : ChangeLog) (q : RoundRequest)
    (files : List Symbol) : Comparison :=
  let s := Scene.of names main round q
  let events := ClassEvent.ofFiles main round files
  let a := s.impact q.removed events
  { outcome := s.conclude a q.compiled q.removed q.answer
    log := log.noteAll main round (s.lookedAt q.removed events)
    requests := a.requests }

/-- The comparison of a round. -/
def compareRound (names : NameTable) (main round : Graph) (log : ChangeLog) (q : RoundRequest) :
    Comparison :=
  compareInOrder names main round log q round.classesIn.keys

/-- The log of a round that is compared without asking what it affects. -/
def noteRound (main round : Graph) (log : ChangeLog) : ChangeLog :=
  log.noteAll main round (ClassEvent.ofFiles main round round.classesIn.keys)

end ClassImpact

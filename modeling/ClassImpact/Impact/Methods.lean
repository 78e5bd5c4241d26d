import ClassImpact.Change.ClassChange
import ClassImpact.Impact.Scene

/-!
# What a change of methods brings about

One rule for methods that were added, one for those removed, one for those
changed.  `c` is always the class as it was before; the patch says what became of
its methods.

* An added method may capture calls that meant another one, must be implemented
  below an abstract class, and may be hidden from a nested class.
* A removed method frees its callers unless an equal one is found above, and
  subclasses that lose the implementation they inherited are affected.
* A changed method is looked up by the call that its callers have recorded.
-/

namespace ClassImpact

namespace Scene

/-! ## Added methods -/

/-- A less specific method found elsewhere: an equal one below is affected
outright, of any other the calls are searched. -/
def addedBeside (s : Scene) (c : ClassInfo) (m : MethodInfo) (d : Declaration) : Impact :=
  let below := s.old.inherits d.owner.name c.name == .yes
  if d.method.key = m.key && below then s.fileOfClass d.owner.name
  else
    let reachable := s.old.inheriting (.method d.method.key) c.name
    .onlyIf below (s.users d.owner.name ++ s.uses d.method.callFrom d.owner.name reachable) ++
      s.uses d.method.callFrom c.name reachable

/-- A class at or below `c` that stands inside a class which sees the added method. -/
def addedInside (s : Scene) (m : MethodInfo) (sub : Symbol) : Impact :=
  match s.updated.describe? sub, s.main.fileOf.get? sub with
  | some d, some file =>
    match d.outer with
    | some outer =>
      .ofResult (s.updated.seesMethod outer m) fun sees => .onlyIf sees (s.file file)
    | none => .none
  | _, _ => .none

/-- A new method that overrides nothing and has parameters may capture calls that
choose among its name. -/
def addedOverload (s : Scene) (c : ClassInfo) (m : MethodInfo) : Impact :=
  if m.name ≠ s.constructor then
    .ofResult (s.old.overridden m c .sameKey) fun above =>
      .onlyIf (above.isEmpty && !m.params.isEmpty)
        (s.uses m.overloadsFrom c.name (s.updated.inheriting (.method m.key) c.name))
  else .none

/-- The methods of the class itself that calls of the added one could have meant. -/
def addedLessSpecific (s : Scene) (c : ClassInfo) (m : MethodInfo) : Impact :=
  let inheriting := s.updated.inheriting (.method m.key) c.name
  .all (((s.updated.matching c .lessSpecific m).filter fun l => l.key ≠ m.key).map fun l =>
    s.uses l.callFrom c.name inheriting)

/-- What one added method brings about. -/
def addedMethod (s : Scene) (c : ClassInfo) (m : MethodInfo) : Impact :=
  .onlyIf (c.access.hasAny [.interface, .abstract] || m.access.isAbstract)
    (s.subclasses c.name false) ++
  .onlyIf (!m.access.isPrivate)
    (s.addedOverload c m ++
      .ofResult (s.updated.lessSpecificAround m c) fun around =>
        s.addedLessSpecific c m ++ .all (around.map (s.addedBeside c m)) ++
          .all ((s.main.allSubclasses c.name).map (s.addedInside m)))

/-! ## Removed methods -/

/-- Callers stay bound when a method is found above and all that are found return
the same type, none of them generic. -/
def stillBound (m : MethodInfo) (above : List Origin) : Bool :=
  !above.isEmpty && above.all fun o =>
    match o with
    | .resolved d => d.method.returns = m.returns && d.method.signature.isNone && m.signature.isNone
    | .unknown => false

/-- Of the methods that are left to a class, other than the one of `c`, there is
some and every known one is abstract. -/
def onlyAbstract (c : ClassInfo) (left : List Origin) : Bool :=
  let others := left.filter fun o => (o.declaration?.map fun d => d.owner.name) ≠ some c.name
  !others.isEmpty && others.all fun o =>
    match o with
    | .resolved d => d.method.access.isAbstract || d.owner.isInterface
    | .unknown => true

/-- A class that inherited a removed method is affected when only abstract ones are left. -/
def removedAbove (s : Scene) (c : ClassInfo) (m : MethodInfo) (above : IdSet Origin)
    (sub : Symbol) : Impact :=
  if sub = c.name then .none
  else
    match s.updated.describe? sub with
    | none => .none
    | some d =>
      .ofResult (s.updated.overridden m d .sameKey) fun seen =>
        let left := IdSet.ofList (seen.toList ++ above.toList)
        .onlyIf (onlyAbstract c left.toList) (s.fileOfClass sub)

/-- What one removed method brings about. -/
def removedMethod (s : Scene) (c : ClassInfo) (m : MethodInfo) : Impact :=
  .ofResult (s.updated.overridden m c .sameKey) fun above =>
    let inheriting := s.updated.inheriting (.method m.key) c.name
    .onlyIf (!stillBound m above.toList) (s.uses m.callFrom c.name inheriting) ++
      (.ofResult (s.updated.overriding m c .sameKey) fun below =>
        .all (below.toList.map fun d => s.fileOfClass d.owner.name)) ++
      .onlyIf (!m.access.isAbstract) (.all (inheriting.map (s.removedAbove c m above)))

/-! ## Changed methods -/

/-- A method that overrides a changed one must follow it, and so must its callers. -/
def follower (s : Scene) (d : Declaration) : Impact :=
  s.fileOfClass d.owner.name ++ s.users d.owner.name ++
    s.uses d.method.callFrom d.owner.name
      (s.updated.inheriting (.method d.method.key) d.owner.name)

/-- What one changed method brings about, once it is known to need a search. -/
def revisedMethod (s : Scene) (c : ClassInfo) (m : MethodInfo) (change : MethodChange) : Impact :=
  let base := change.base
  let inheriting := s.updated.inheriting (.method m.key) c.name
  let calls := s.uses m.callFrom c.name inheriting
  let callUsages := (c.name :: inheriting).map m.callFrom
  let toInheritors := limited callUsages (Residency.noInheritorOf s.names c.name)
  let searched := base.becamePackageLocal
  .onlyIf searched (calls ++ toInheritors) ++
  (if base.typeOrSignature || change.throwsMore then
    .onlyIf (!searched) calls ++
      .ofResult (s.updated.overriding m c .sameKey) fun below =>
        .all (below.toList.map s.follower)
  else if base.access then
    if base.added.hasAny [.static, .priv] || base.removed.has .static then
      .onlyIf (!searched) calls ++ .onlyIf (base.added.has .static) (s.subclasses c.name false)
    else
      .onlyIf (base.added.hasAny [.final, .pub, .abstract]) (s.subclasses c.name false) ++
        .onlyIf (base.added.has .prot && !base.removed.has .priv && !searched)
          (calls ++ toInheritors)
  else .none)

/-- What one changed method brings about.  In an annotation type only the loss of a
default counts. -/
def changedMethod (s : Scene) (c : ClassInfo) (m : Changed MethodInfo MethodChange) : Impact :=
  if c.isAnnotationType then
    .onlyIf m.diff.defaultRemoved
      (.ofQuery ⟨c.name, some (.ofList [m.past.name]), none⟩)
  else if m.diff.base.isEmpty && !m.diff.throwsMore then .none
  else s.revisedMethod c m.past m.diff

/-! ## All methods of a class -/

/-- What the changes of a class's methods bring about. -/
def methods (s : Scene) (c : ClassInfo) (p : Patch MethodInfo MethodChange) : Impact :=
  .onlyIf (!c.isAnnotationType) (.all (p.added.map (s.addedMethod c))) ++
    .all (p.removed.map (s.removedMethod c)) ++ .all (p.changed.map (s.changedMethod c))

end Scene

end ClassImpact

import ClassImpact.Change.ClassChange
import ClassImpact.Impact.Scene

/-!
# What a change of fields brings about

One rule for fields that were added, one for those removed, one for those
changed.  An added field may hide one from above, or a name around a local or
nested class.  A constant that is removed or changed leaves no trace in the
classes that copied it, so its readers are asked for or the change is widened.
-/

namespace ClassImpact

namespace Scene

/-! ## Added fields -/

/-- A class at or below `c` where the added field may hide a name from around it. -/
def hidesAround (s : Scene) (f : FieldInfo) (sub : Symbol) : Impact :=
  match s.updated.describe? sub, s.main.fileOf.get? sub with
  | some d, some file =>
    let hidesOuter : Except Fault Bool :=
      match d.outer with
      | some outer => if outer.isEmpty then .ok false else s.updated.seesField outer f.name
      | none => .ok false
    .ofResult hidesOuter fun outer => .onlyIf (d.isLocal || outer) (s.file file)
  | _, _ => .none

/-- A class at or below `c` where the added field is seen. -/
def addedBelow (s : Scene) (f : FieldInfo) (sub : Symbol) : Impact :=
  s.hidesAround f sub ++
    s.uses f.readFrom sub (s.updated.inheriting (.field f.name) sub) ++ s.users sub

/-- Which readers of a field of `owner` are bound to an added one instead, by the
access of both; none means all of them. -/
def hidingLimit (names : NameTable) (added hidden : Access) (owner : Symbol) :
    Except Fault (Option Residency) :=
  let inheritors := (Residency.noInheritorOf names owner).map Residency.not
  match added.visibility, hidden.visibility with
  | .toClass, _ => .ok none
  | .toAll, .toAll => .ok none
  | .toAll, .toPackage => .ok none
  | .toInheritors, .toInheritors => .ok none
  | .toPackage, .toPackage => .ok none
  | .toAll, .toInheritors => inheritors.map some
  | .toInheritors, .toAll => inheritors.map some
  | .toInheritors, .toPackage => inheritors.map some
  | _, _ => do
    let r ← inheritors
    let q ← Residency.outsideOf names owner
    pure (some (.both r (.not q)))

/-- The readers of a field that the added one hides. -/
def hiddenReaders (s : Scene) (f hidden : FieldInfo) (owner : ClassInfo) : Impact :=
  let below := s.old.inheriting (.field hidden.name) owner.name
  s.uses hidden.readFrom owner.name below ++
    .ofResult (hidingLimit s.names f.access hidden.access owner.name) fun limit =>
      match limit with
      | some residency => .ofLimit ((owner.name :: below).map hidden.readFrom) residency
      | none => .none

/-- What one added field brings about. -/
def addedField (s : Scene) (c : ClassInfo) (f : FieldInfo) : Impact :=
  .onlyIf (!f.access.isPrivate) (.all ((s.main.allSubclasses c.name).map (s.addedBelow f))) ++
    .ofResult (s.updated.hidden f.name c) fun found =>
      .all ((found.filter fun h => !h.1.access.isPrivate).map fun h => s.hiddenReaders f h.1 h.2)

/-! ## Removed fields -/

/-- The reads of a field, through its class and through those that inherit it. -/
def reads (s : Scene) (c : ClassInfo) (f : FieldInfo) : Impact :=
  s.uses f.readFrom c.name (s.updated.inheriting (.field f.name) c.name)

/-- What one removed field brings about. -/
def removedField (s : Scene) (c : ClassInfo) (f : FieldInfo) : Impact :=
  .onlyIf (!f.access.isPrivate && f.access.isInlinable && f.hasValue) (s.constant c f true false) ++
    s.reads c f

/-! ## Changed fields -/

/-- A change that the readers of a constant cannot have seen: its modifiers, its
value, or a visibility that did not grow. -/
def changedConstant (s : Scene) (c : ClassInfo) (f : FieldInfo) (base : Revision) : Impact :=
  let accessChanged := base.modifiers.hasAny Access.visibilityFlags
  .onlyIf (!f.access.isPrivate && f.access.isInlinable &&
      (base.modifiers.hasAny [.static, .final] || (base.value && base.hadValue) ||
        (accessChanged && !base.isStronger)))
    (s.constant c f false accessChanged)

/-- The usages to search for after a change of access alone. -/
def narrowedField (s : Scene) (c : ClassInfo) (f : FieldInfo) (base : Revision) : Impact :=
  let below := s.updated.inheriting (.field f.name) c.name
  let added := base.added
  let use := if added.has .final then f.writeFrom else f.readFrom
  let residency :=
    if added.has .prot then Residency.noInheritorOf s.names c.name
    else Residency.outsideOf s.names c.name
  .onlyIf (added.has .final || base.removed.has .pub) (s.uses use c.name below) ++
    .onlyIf (base.removed.has .pub) (limited ((c.name :: below).map use) residency)

/-- What one changed field brings about. -/
def changedField (s : Scene) (c : ClassInfo) (change : Changed FieldInfo Revision) : Impact :=
  let f := change.past
  let base := change.diff
  s.changedConstant c f base ++
    if base.typeOrSignature then s.reads c f
    else if base.access then
      if base.added.hasAny [.static, .priv, .volatile] || base.removed.has .static then s.reads c f
      else s.narrowedField c f base
    else .none

/-! ## All fields of a class -/

/-- What the changes of a class's fields bring about. -/
def fields (s : Scene) (c : ClassInfo) (p : Patch FieldInfo Revision) : Impact :=
  .all (p.added.map (s.addedField c)) ++ .all (p.removed.map (s.removedField c)) ++
    .all (p.changed.map (s.changedField c))

end Scene

end ClassImpact

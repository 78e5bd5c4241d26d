import ClassImpact.Change.Patch
import ClassImpact.ClassInfo

/-!
# What changed in a class

A class, a field and a method each have a few aspects that a new compilation may
change: access, type, value, generic signature, superclass and usages.
`Revision` records which of them did; `MethodChange` and `ClassChange` add the
patches of the collections below.

A class difference does not look at the class file it was read from, nor at the
enclosing class or at whether the class is local.
-/

namespace ClassImpact

/-! ## Aspects -/

/-- Which aspects of a class or member changed between two compilations. -/
structure Revision where
  past : Access
  now : Access
  type : Bool
  value : Bool
  signature : Bool
  superclass : Bool
  usages : Bool
  hadValue : Bool
  hasValue : Bool
deriving DecidableEq, Repr

namespace Revision

/-- The access alone, before any other aspect is looked at. -/
def ofAccess (past now : Access) : Revision :=
  ⟨past, now, false, false, false, false, false, false, false⟩

def access (r : Revision) : Bool := r.past ≠ r.now

/-- The modifiers that were not there before. -/
def added (r : Revision) : Access := r.now.without r.past

/-- The modifiers that are gone. -/
def removed (r : Revision) : Access := r.past.without r.now

/-- The modifiers that were added or removed. -/
def modifiers (r : Revision) : Access := r.added.union r.removed

/-- No aspect changed. -/
def isEmpty (r : Revision) : Bool :=
  !(r.access || r.type || r.value || r.signature || r.superclass || r.usages)

def typeOrSignature (r : Revision) : Bool := r.type || r.signature

/-- Less is visible than before. -/
def isWeaker (r : Revision) : Bool := r.now.isWeakerThan r.past

/-- More is visible than before. -/
def isStronger (r : Revision) : Bool := r.past.isWeakerThan r.now

/-- A visibility modifier went and none is left. -/
def becamePackageLocal (r : Revision) : Bool :=
  r.removed.hasAny Access.visibilityFlags && r.now.isPackageLocal

/-- A constant value was there and is gone. -/
def constantRemoved (r : Revision) : Bool := r.hadValue && !r.hasValue

/-- The changed aspects as one number, an aspect to a bit. -/
def mask (r : Revision) : Nat :=
  (if r.access then 1 else 0) + (if r.type then 2 else 0) + (if r.value then 4 else 0) +
    (if r.signature then 8 else 0) + (if r.superclass then 16 else 0) + (if r.usages then 32 else 0)

end Revision

/-! ## Members -/

/-- What changed in a field. -/
def FieldInfo.revision (past now : FieldInfo) : Revision :=
  { Revision.ofAccess past.access now.access with
    type := past.type ≠ now.type
    value := past.value ≠ now.value
    signature := past.signature ≠ now.signature
    hadValue := past.hasValue
    hasValue := now.hasValue }

/-- What changed in a method; its type is what it returns, its value the default. -/
def MethodInfo.revision (past now : MethodInfo) : Revision :=
  { Revision.ofAccess past.access now.access with
    type := past.returns ≠ now.returns
    value := past.default ≠ now.default
    signature := past.signature ≠ now.signature
    hadValue := past.hasDefault
    hasValue := now.hasDefault }

/-- The difference between two shapes of a method. -/
structure MethodChange where
  base : Revision
  throws : Patch TypeRef Empty
deriving DecidableEq, Repr

namespace MethodChange

def between (past now : MethodInfo) : MethodChange :=
  ⟨past.revision now, Patch.ofMembers past.throws now.throws⟩

def defaultAdded (c : MethodChange) : Bool := !c.base.hadValue && c.base.hasValue

def defaultRemoved (c : MethodChange) : Bool := c.base.constantRemoved

/-- Some thrown type is new. -/
def throwsMore (c : MethodChange) : Bool := !c.throws.added.isEmpty

def isEmpty (c : MethodChange) : Bool := c.base.isEmpty && c.throws.isEmpty

end MethodChange

/-- The patch between two lists of fields. -/
def fieldPatch (past now : List FieldInfo) : Patch FieldInfo Revision :=
  Patch.between
    (fun p n => let r := p.revision n; if r.isEmpty then none else some r) past now

/-- The patch between two lists of methods. -/
def methodPatch (past now : List MethodInfo) : Patch MethodInfo MethodChange :=
  Patch.between
    (fun p n => let c := MethodChange.between p n; if c.isEmpty then none else some c) past now

/-! ## Classes -/

/-- The difference between two shapes of a class. -/
structure ClassChange where
  base : Revision
  interfaces : Patch TypeRef Empty
  fields : Patch FieldInfo Revision
  methods : Patch MethodInfo MethodChange
  targets : Patch ElementKind Empty
  retention : Bool
  pastSuperclass : TypeRef
deriving DecidableEq, Repr

namespace ClassChange

def between (past now : ClassInfo) : ClassChange where
  base :=
    { Revision.ofAccess past.access now.access with
      signature := past.signature ≠ now.signature
      superclass := past.superclass ≠ now.superclass
      usages := !past.usages.sameValues now.usages }
  interfaces := Patch.ofMembers past.interfaces now.interfaces
  fields := fieldPatch past.fields now.fields
  methods := methodPatch past.methods now.methods
  targets := Patch.ofMembers past.targets.toList now.targets.toList
  retention := past.retention ≠ now.retention
  pastSuperclass := past.superclass

def isEmpty (c : ClassChange) : Bool :=
  c.base.isEmpty && c.interfaces.isEmpty && c.fields.isEmpty && c.methods.isEmpty &&
    c.targets.isEmpty && !c.retention

/-- The class extended the root class before and extends another one now. -/
def extendsAdded (c : ClassChange) (root : Symbol) : Bool :=
  c.base.superclass && c.pastSuperclass = .named root

end ClassChange

/-- The patch between the classes of one source file. -/
def classPatch (past : Option (List ClassInfo)) (now : List ClassInfo) :
    Patch ClassInfo ClassChange :=
  Patch.fromRecorded
    (fun p n => let c := ClassChange.between p n; if c.isEmpty then none else some c) past now

end ClassImpact

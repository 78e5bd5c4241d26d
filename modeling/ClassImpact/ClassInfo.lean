import ClassImpact.Access
import ClassImpact.Usage

/-!
# Compiled classes and their members

`ClassInfo` is the shape of one class after compilation.  Everything is known by
its identity and carries content beside it: a field is known by its name, a
method by its name and parameter types, a class by its name.

Fields and methods stand in lists, in the order of the class file; nothing here
rules out that a list repeats an identity.
-/

namespace ClassImpact

/-! ## Members -/

/-- A declared field, with its constant value if it has one. -/
structure FieldInfo where
  name : Symbol
  access : Access
  type : TypeRef
  signature : Option Symbol
  value : Option Constant
deriving DecidableEq, Repr

/-- A field is known by its name. -/
instance : Identified FieldInfo Symbol := ⟨FieldInfo.name⟩

namespace FieldInfo

def hasValue (f : FieldInfo) : Bool := f.value.isSome

/-- A read of the field through `owner`. -/
def readFrom (f : FieldInfo) (owner : Symbol) : Usage := .read f.name owner f.type

/-- A write to the field through `owner`. -/
def writeFrom (f : FieldInfo) (owner : Symbol) : Usage := .write f.name owner f.type

end FieldInfo

/-- The name and parameter types of a method: what an overriding method repeats. -/
structure MethodKey where
  name : Symbol
  params : List TypeRef
deriving DecidableEq, Repr

/-- A declared method, with the default of an annotation member if it has one. -/
structure MethodInfo where
  name : Symbol
  access : Access
  params : List TypeRef
  returns : TypeRef
  signature : Option Symbol
  throws : List TypeRef
  default : Option Constant
deriving DecidableEq, Repr

namespace MethodInfo

def key (m : MethodInfo) : MethodKey := ⟨m.name, m.params⟩

def hasDefault (m : MethodInfo) : Bool := m.default.isSome

/-- A call of the method through `owner`. -/
def callFrom (m : MethodInfo) (owner : Symbol) : Usage := .call m.name owner m.params m.returns

/-- A call through `owner` that chooses among the methods of this name. -/
def overloadsFrom (m : MethodInfo) (owner : Symbol) : Usage := .overloads m.name owner

end MethodInfo

/-- A method is known by its name and parameter types. -/
instance : Identified MethodInfo MethodKey := ⟨MethodInfo.key⟩

/-- A type is its own identity. -/
instance : Identified TypeRef TypeRef := ⟨id⟩

/-- A kind of element is its own identity. -/
instance : Identified ElementKind ElementKind := ⟨id⟩

/-- A member as a subclass may declare it again. -/
inductive MemberKey where
  | field (name : Symbol)
  | method (key : MethodKey)
deriving DecidableEq, Repr

/-! ## Classes -/

/-- How long an annotation is kept. -/
inductive Retention where
  | source | classFile | runtime
deriving DecidableEq, Repr

/-- The shape of a compiled class. -/
structure ClassInfo where
  name : Symbol
  classFile : Symbol
  access : Access
  signature : Option Symbol
  superclass : TypeRef
  interfaces : List TypeRef
  fields : List FieldInfo
  methods : List MethodInfo
  usages : IdSet Usage
  outer : Option Symbol
  isLocal : Bool
  retention : Option Retention
  targets : OrderedSet ElementKind
deriving DecidableEq, Repr

/-- A class is known by its name. -/
instance : Identified ClassInfo Symbol := ⟨ClassInfo.name⟩

namespace ClassInfo

/-- A class without members. -/
def plain (name : Symbol) (access : Access) (superclass : TypeRef) : ClassInfo where
  name := name
  classFile := .empty
  access := access
  signature := none
  superclass := superclass
  interfaces := []
  fields := []
  methods := []
  usages := .empty
  outer := none
  isLocal := false
  retention := none
  targets := .empty

/-- The class with a field declared last, in place of one of the same name. -/
def withField (c : ClassInfo) (f : FieldInfo) : ClassInfo :=
  { c with fields := c.fields.filter (fun g => g.name ≠ f.name) ++ [f] }

/-- The class with a method declared last, in place of one of the same key. -/
def withMethod (c : ClassInfo) (m : MethodInfo) : ClassInfo :=
  { c with methods := c.methods.filter (fun n => n.key ≠ m.key) ++ [m] }

/-- The class as an annotation type. -/
def asAnnotation (c : ClassInfo) (retention : Retention) (targets : OrderedSet ElementKind) :
    ClassInfo :=
  { c with
    access := c.access.union (.ofFlags [.annotationType, .interface, .abstract])
    retention := some retention
    targets := targets }

def isAnnotationType (c : ClassInfo) : Bool := c.access.isAnnotationType
def isInterface (c : ClassInfo) : Bool := c.access.isInterface

/-- The direct supertypes: the superclass, then the interfaces. -/
def supers (c : ClassInfo) : List Symbol :=
  (c.superclass :: c.interfaces).filterMap TypeRef.className?

/-- The first declared field of a name. -/
def findField? (c : ClassInfo) (name : Symbol) : Option FieldInfo :=
  c.fields.find? fun f => f.name = name

def declaresField (c : ClassInfo) (name : Symbol) : Bool := (c.findField? name).isSome

/-- Whether the class declares a method of this name and these parameter types. -/
def declaresMethod (c : ClassInfo) (key : MethodKey) : Bool := c.methods.any fun m => m.key = key

/-- Whether the class declares a member. -/
def declares (c : ClassInfo) : MemberKey → Bool
  | .field name => c.declaresField name
  | .method key => c.declaresMethod key

/-- The usage that stands for any mention of the class. -/
def mentioned (c : ClassInfo) : Usage := .mention c.name

/-- The class with one more usage; nothing when it has that usage already. -/
def adding? (c : ClassInfo) (u : Usage) : Option ClassInfo :=
  if c.usages.contains u then none else some { c with usages := c.usages.add u }

theorem declaresMethod_iff {c : ClassInfo} {key : MethodKey} :
    c.declaresMethod key = true ↔ ∃ m ∈ c.methods, m.key = key := by
  simp [declaresMethod]

end ClassInfo

end ClassImpact

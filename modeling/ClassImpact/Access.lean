/-!
# Access flags

The declared modifiers of classes and members, as the bits of a class file.  All
thirty-two bits are kept, also those without a name here.

Visibility is read off three of the bits, in the order public, protected,
private: an access with none of them is local to its package.
-/

namespace ClassImpact

/-- The modifiers that matter to a change. -/
inductive Flag where
  | pub | priv | prot | static | final | volatile
  | interface | abstract | annotationType | enumeration
deriving DecidableEq, Repr

/-- The bit a modifier is written at. -/
def Flag.position : Flag → Nat
  | .pub => 0
  | .priv => 1
  | .prot => 2
  | .static => 3
  | .final => 4
  | .volatile => 6
  | .interface => 9
  | .abstract => 10
  | .annotationType => 13
  | .enumeration => 14

/-- A set of access flags. -/
structure Access where
  bits : BitVec 32
deriving DecidableEq, Repr

namespace Access

/-- No modifier at all. -/
def none : Access := ⟨0⟩

/-- The access with exactly the given modifiers. -/
def ofFlags (flags : List Flag) : Access :=
  ⟨flags.foldl (fun bits f => bits ||| BitVec.twoPow 32 f.position) 0⟩

/-- Whether a modifier is set. -/
def has (a : Access) (f : Flag) : Bool := a.bits.getLsbD f.position

/-- Whether at least one of the modifiers is set. -/
def hasAny (a : Access) (flags : List Flag) : Bool := flags.any a.has

/-- The modifiers of either access. -/
def union (a b : Access) : Access := ⟨a.bits ||| b.bits⟩

/-- The modifiers of `a` that `b` lacks. -/
def without (a b : Access) : Access := ⟨a.bits &&& ~~~b.bits⟩

/-- The three modifiers that set a visibility. -/
def visibilityFlags : List Flag := [.pub, .priv, .prot]

def isPublic (a : Access) : Bool := a.has .pub
def isPrivate (a : Access) : Bool := a.has .priv
def isProtected (a : Access) : Bool := a.has .prot
def isAbstract (a : Access) : Bool := a.has .abstract
def isInterface (a : Access) : Bool := a.has .interface
def isAnnotationType (a : Access) : Bool := a.has .annotationType

/-- No visibility modifier is set. -/
def isPackageLocal (a : Access) : Bool := !a.hasAny visibilityFlags

/-- A compiler may copy the value of a field with this access to its readers. -/
def isInlinable (a : Access) : Bool := a.has .static && a.has .final

@[simp] theorem has_union (a b : Access) (f : Flag) :
    (a.union b).has f = (a.has f || b.has f) := by
  simp [has, union]

@[simp] theorem has_without (a b : Access) (f : Flag) :
    (a.without b).has f = (a.has f && !b.has f) := by
  have : f.position < 32 := by cases f <;> decide
  simp [has, without, this]

theorem isPackageLocal_iff {a : Access} :
    a.isPackageLocal = true ↔ a.isPublic = false ∧ a.isPrivate = false ∧ a.isProtected = false := by
  simp [isPackageLocal, hasAny, visibilityFlags, isPublic, isPrivate, isProtected]

end Access

/-! ## Visibility -/

/-- How far a class or member can be seen. -/
inductive Visibility where
  | toClass | toPackage | toInheritors | toAll
deriving DecidableEq, Repr

/-- The levels in order, the narrowest first. -/
def Visibility.rank : Visibility → Nat
  | .toClass => 0
  | .toPackage => 1
  | .toInheritors => 2
  | .toAll => 3

namespace Access

/-- The visibility that the modifiers give; where several are set, public counts
before protected and protected before private. -/
def visibility (a : Access) : Visibility :=
  if a.isPublic then .toAll
  else if a.isProtected then .toInheritors
  else if a.isPrivate then .toClass
  else .toPackage

/-- Whether `a` sees to it that less is visible than under `b`: private against
anything else, protected against public, package-local against protected. -/
def isWeakerThan (a b : Access) : Bool :=
  (a.isPrivate && !b.isPrivate) || (a.isProtected && b.isPublic) ||
    (a.isPackageLocal && b.isProtected)

end Access

end ClassImpact

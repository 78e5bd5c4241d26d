import ClassImpact.Hierarchy.View

/-!
# Where a usage has to stand

A usage may be hit only for the classes that lose something: those outside a
package, or those that do not inherit from a class.  A `Residency` is such a
condition on the class that holds the usage.
-/

namespace ClassImpact

/-- A condition on the class that holds a usage. -/
inductive Residency where
  /-- The class lies outside the package. -/
  | outside (package : String)
  /-- The class is not known to inherit from `root`, or lies outside the package. -/
  | noInheritor (root : Symbol) (package : String)
  | not (r : Residency)
  | both (r s : Residency)
deriving DecidableEq, Repr

namespace Residency

/-- Outside the package of a class. -/
def outsideOf (names : NameTable) (c : Symbol) : Except Fault Residency :=
  (names.packageOf c).map .outside

/-- No known inheritor of a class within its package. -/
def noInheritorOf (names : NameTable) (c : Symbol) : Except Fault Residency :=
  (names.packageOf c).map (.noInheritor c)

/-- Whether the condition is true of a class. -/
def holds (v : View) (c : Symbol) : Residency → Except Fault Bool
  | .outside package => (v.names.packageOf c).map (· != package)
  | .noInheritor root package =>
    if v.inherits c root ≠ .yes then .ok true
    else (v.names.packageOf c).map (· != package)
  | .not r => (r.holds v c).map (!·)
  | .both r s => do
    if ← r.holds v c then s.holds v c else pure false

end Residency

end ClassImpact

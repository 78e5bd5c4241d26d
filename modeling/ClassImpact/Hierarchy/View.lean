import ClassImpact.Fault
import ClassImpact.Graph
import ClassImpact.Hierarchy.Walk

/-!
# A hierarchy as seen from a graph

A `View` looks classes up in a graph, or in the graph of a round laid over it:
descriptors come from the overlay first, while the edges between classes, and the
files of classes, always come from the graph below.

Whether one class inherits from another can be confirmed but never denied, because
a supertype without a descriptor may always be the missing link.
-/

namespace ClassImpact

/-- The name of the root of the class hierarchy. -/
def rootClassName : String := "java/lang/Object"

/-- The names of the supertypes of every array type. -/
def arraySupertypeNames : List String :=
  [rootClassName, "java/lang/Cloneable", "java/io/Serializable"]

/-- The name of every constructor. -/
def constructorName : String := "<init>"

/-- An answer that may be out of reach. -/
inductive Verdict where
  | yes | no | unknown
deriving DecidableEq, Repr

/-- A graph to look classes up in, with an optional overlay and the table of names. -/
structure View where
  main : Graph
  overlay : Option Graph
  names : NameTable

namespace View

/-- The descriptor of a class, from the overlay if it has one. -/
def describe? (v : View) (name : Symbol) : Option ClassInfo :=
  ((v.overlay.bind fun g => g.describe? name)).or (v.main.describe? name)

/-! ## Bounds of the walks -/

/-- More than the number of classes that subclass edges lead to. -/
def downBound (g : Graph) : Nat :=
  (g.subclasses.entries.flatMap fun e => e.2.toList).length + 1

/-- The number of supertypes declared by the classes of a graph. -/
def declaredSupers (g : Graph) : Nat :=
  (g.classesIn.entries.flatMap fun e => e.2.toList.flatMap ClassInfo.supers).length

/-- More than the number of classes that a walk towards supertypes from `supers`
leads to. -/
def upBound (v : View) (supers : List Symbol) : Nat :=
  supers.length + declaredSupers v.main + (v.overlay.map declaredSupers).getD 0 + 1

end View

/-- A class and everything below it, along the recorded subclass edges. -/
def Graph.allSubclasses (g : Graph) (root : Symbol) : List Symbol :=
  root :: (Walk.everywhere g.directSubclasses).findFrom (View.downBound g) root root

namespace View

/-! ## Inheritance -/

/-- The declared supertypes of a class, none when it has no descriptor. -/
def supersOf (v : View) (name : Symbol) : List Symbol :=
  ((v.describe? name).map ClassInfo.supers).getD []

/-- The supertypes of a class that its known descriptors lead to. -/
def ancestors (v : View) (name : Symbol) : List Symbol :=
  (Walk.everywhere v.supersOf).findFrom (v.upBound (v.supersOf name)) name name

/-- Whether `who` is `whom` or inherits from it. -/
def inherits (v : View) (who whom : Symbol) : Verdict :=
  if who = whom then .yes
  else if (v.ancestors who).contains whom then .yes
  else .unknown

/-- Whether every value of type `who` is one of type `whom`. -/
def isSubtype (v : View) (who whom : TypeRef) : Verdict :=
  if who = whom then .yes
  else
    match who, whom with
    | .array element, .array element' => isSubtype v element element'
    | .array _, .named name =>
      if arraySupertypeNames.any fun s => v.names.lookup s = some name then .yes else .no
    | .named who, .named whom => v.inherits who whom
    | _, _ => .no

/-! ## Visibility -/

/-- Whether a member of `owner` with some access can be seen in `scope`: it is not
private to another class, nor local to another package. -/
def isVisibleIn (v : View) (owner : Symbol) (access : Access) (scope : Symbol) :
    Except Fault Bool := do
  let elsewhere ←
    if access.isPackageLocal then do
      let here ← v.names.packageOf owner
      let there ← v.names.packageOf scope
      pure (here != there)
    else pure false
  pure (!(access.isPrivate && owner != scope) && !elsewhere)

theorem inherits_ne_no (v : View) (who whom : Symbol) : v.inherits who whom ≠ .no := by
  unfold inherits; split
  · simp
  · split <;> simp

@[simp] theorem inherits_self (v : View) (who : Symbol) : v.inherits who who = .yes := by
  simp [inherits]

end View

end ClassImpact

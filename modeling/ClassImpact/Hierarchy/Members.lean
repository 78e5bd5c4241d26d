import ClassImpact.Hierarchy.View

/-!
# Members along the hierarchy

Four searches start at a class and a member.  Downwards: the subclasses that
inherit the member, and the methods that override it.  Upwards: the methods that
it overrides, and the fields that it hides.

Each search stops on a branch where it finds what it looks for.  A search that
needs a package can meet a class without a name; it then fails with that class.
-/

namespace ClassImpact

/-- How a method is matched against another one. -/
inductive MethodMatch where
  /-- The same name and parameter types. -/
  | sameKey
  /-- The same name, and parameters that take every argument of the other one's. -/
  | lessSpecific
deriving DecidableEq, Repr

/-- A method and the class that declares it. -/
structure Declaration where
  method : MethodInfo
  owner : ClassInfo
deriving DecidableEq, Repr

/-- A declaration is known by its method and its class. -/
instance : Identified Declaration (MethodKey × Symbol) := ⟨fun d => (d.method.key, d.owner.name)⟩

/-- What a search among supertypes comes upon. -/
inductive Origin where
  | resolved (d : Declaration)
  /-- A supertype without a descriptor, which may declare anything. -/
  | unknown
deriving DecidableEq, Repr

/-- The declaration that an origin stands for, if it is resolved. -/
def Origin.declaration? : Origin → Option Declaration
  | .resolved d => some d
  | .unknown => none

/-- An origin is known by its declaration; all unknown ones are the same. -/
instance : Identified Origin (Option (MethodKey × Symbol)) :=
  ⟨fun o => o.declaration?.map fun d => (d.method.key, d.owner.name)⟩

namespace View

/-! ## Inheriting subclasses -/

/-- The walk down to the subclasses that do not declare a member again. -/
def inheritingWalk (v : View) (member : MemberKey) : Walk Symbol Symbol where
  neighbours := v.main.directSubclasses
  look _ sub :=
    match v.describe? sub with
    | none => ⟨[], none⟩
    | some c => if c.declares member then ⟨[], none⟩ else ⟨[sub], some sub⟩

/-- The classes below `name` that inherit a member without declaring it again.  A
branch ends at a class that declares it, and at one without a descriptor. -/
def inheriting (v : View) (member : MemberKey) (name : Symbol) : List Symbol :=
  if (v.describe? name).isSome then
    (v.inheritingWalk member).findFrom (downBound v.main) name name
  else []

/-! ## Matching methods -/

/-- Whether a call that means `than` could choose `candidate`: no argument type is
known to be refused. -/
def isLessSpecific (v : View) (than candidate : MethodInfo) : Bool :=
  v.names.lookup constructorName ≠ some candidate.name && candidate.name = than.name &&
    candidate.params.length = than.params.length &&
    (than.params.zip candidate.params).all fun p => v.isSubtype p.1 p.2 ≠ .no

/-- The methods of a class that match a method. -/
def matching (v : View) (c : ClassInfo) (how : MethodMatch) (than : MethodInfo) : List MethodInfo :=
  c.methods.filter fun m =>
    match how with
    | .sameKey => m.key = than.key
    | .lessSpecific => v.isLessSpecific than m

/-- The arrival at a class whose matching methods are visible as `visible` says: they
are found and the branch ends, or nothing is found and the walk goes on. -/
def arrivalAt {β : Type} (c : ClassInfo) (found : List MethodInfo)
    (visible : MethodInfo → Except Fault Bool) (emit : Declaration → β) :
    Arrival ClassInfo (Except Fault β) :=
  match found.filterMapM fun m => (visible m).map fun b => if b then some m else none with
  | .error fault => ⟨[.error fault], none⟩
  | .ok [] => ⟨[], some c⟩
  | .ok methods => ⟨methods.map fun m => .ok (emit ⟨m, c⟩), none⟩

/-! ## Overriding and overridden methods -/

/-- The walk down to the methods that override `method`. -/
def overridingWalk (v : View) (method : MethodInfo) (how : MethodMatch) :
    Walk ClassInfo (Except Fault Declaration) where
  neighbours c := v.main.directSubclasses c.name
  look here sub :=
    match v.describe? sub with
    | none => ⟨[], none⟩
    | some c =>
      arrivalAt c (v.matching c how method)
        (fun _ => v.isVisibleIn here.name method.access c.name) id

/-- The methods below `c` that match `method` and can see it. -/
def overriding (v : View) (method : MethodInfo) (c : ClassInfo) (how : MethodMatch) :
    Except Fault (IdSet Declaration) :=
  (((v.overridingWalk method how).findFrom (downBound v.main) c.name c).mapM id).map IdSet.ofList

/-- The walk up to the methods that a method matching `method` overrides. -/
def overriddenWalk (v : View) (method : MethodInfo) (how : MethodMatch) :
    Walk ClassInfo (Except Fault Origin) where
  neighbours c := c.supers
  look here sup :=
    match v.describe? sup with
    | none => ⟨[.ok .unknown], none⟩
    | some c =>
      arrivalAt c (v.matching c how method)
        (fun m => v.isVisibleIn c.name m.access here.name) .resolved

/-- The methods above `c` that match `method` and that it can see; a supertype
without a descriptor may hold one. -/
def overridden (v : View) (method : MethodInfo) (c : ClassInfo) (how : MethodMatch) :
    Except Fault (IdSet Origin) :=
  (((v.overriddenWalk method how).findFrom (v.upBound c.supers) c.name c).mapM id).map IdSet.ofList

/-- The less specific methods above and below `c`. -/
def lessSpecificAround (v : View) (method : MethodInfo) (c : ClassInfo) :
    Except Fault (List Declaration) := do
  let above ← v.overridden method c .lessSpecific
  let below ← v.overriding method c .lessSpecific
  let found := IdSet.ofList (above.toList.filterMap Origin.declaration? ++ below.toList)
  pure found.toList

/-- Whether a class declares or inherits a method. -/
def seesMethod (v : View) (name : Symbol) (method : MethodInfo) : Except Fault Bool :=
  match v.describe? name with
  | none => pure false
  | some c =>
    if c.declaresMethod method.key then pure true
    else (v.overridden method c .sameKey).map fun found => !found.isEmpty

/-! ## Hidden fields -/

/-- The walk up to the fields of a name that can be seen from below. -/
def hiddenWalk (v : View) (name : Symbol) :
    Walk ClassInfo (Except Fault (FieldInfo × ClassInfo)) where
  neighbours c := c.supers
  look here sup :=
    match v.describe? sup with
    | none => ⟨[], none⟩
    | some c =>
      match c.findField? name with
      | none => ⟨[], some c⟩
      | some f =>
        match v.isVisibleIn c.name f.access here.name with
        | .error fault => ⟨[.error fault], none⟩
        | .ok true => ⟨[.ok (f, c)], none⟩
        | .ok false => ⟨[], some c⟩

/-- The fields above `c` that a field of this name hides, with their classes. -/
def hidden (v : View) (name : Symbol) (c : ClassInfo) :
    Except Fault (List (FieldInfo × ClassInfo)) :=
  ((v.hiddenWalk name).findFrom (v.upBound c.supers) c.name c).mapM id

/-- Whether a class declares or inherits a field; one without a descriptor may. -/
def seesField (v : View) (name : Symbol) (field : Symbol) : Except Fault Bool :=
  match v.describe? name with
  | none => pure true
  | some c =>
    if c.declaresField field then pure true
    else (v.hidden field c).map fun found => !found.isEmpty

end View

end ClassImpact

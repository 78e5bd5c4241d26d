import ClassImpact.Hierarchy.Members
import ClassImpact.Impact.Basic

/-!
# The scene of a round

Everything that the rules look at: the graph so far, the graph of the round, the
names, which files may be drawn in, and whether somebody can be asked about
constants.  On top of it stand the few steps that the rules are made of.
-/

namespace ClassImpact

/-- What a round is compared against. -/
structure Scene where
  main : Graph
  round : Graph
  names : NameTable
  /-- The root of the class hierarchy. -/
  root : Symbol
  /-- The name of constructors. -/
  constructor : Symbol
  /-- The files that may be drawn in when a change is widened. -/
  accepts : SourcePath → Bool
  /-- Somebody can be asked about the readers of constants. -/
  canAsk : Bool

namespace Scene

/-- The hierarchy before the round. -/
def old (s : Scene) : View := ⟨s.main, none, s.names⟩

/-- The hierarchy with the classes of the round laid over it. -/
def updated (s : Scene) : View := ⟨s.main, some s.round, s.names⟩

/-! ## Files -/

/-- A file is affected. -/
def file (s : Scene) (file : Symbol) : Impact :=
  .ofResult (s.names.name file) fun text => .ofFiles [⟨text⟩]

/-- A file is affected if it may be drawn in. -/
def acceptedFile (s : Scene) (file : Symbol) : Impact :=
  .ofResult (s.names.name file) fun text =>
    if s.accepts ⟨text⟩ then .ofFiles [⟨text⟩] else .none

/-- What the file of a class is drawn in by, if the class has one. -/
def onFileOf (s : Scene) (draw : Symbol → Impact) (c : Symbol) : Impact :=
  match s.main.fileOf.get? c with
  | some f => draw f
  | none => .none

/-- The file of a class is affected, if the class has one. -/
def fileOfClass (s : Scene) (c : Symbol) : Impact := s.onFileOf s.file c

/-- The file of a class is affected if it has one and it may be drawn in. -/
def acceptedFileOfClass (s : Scene) (c : Symbol) : Impact := s.onFileOf s.acceptedFile c

/-- Every file with a class in the package of `c` is affected if it may be drawn in. -/
def packageFiles (s : Scene) (c : Symbol) : Impact :=
  .ofResult (s.names.packageOf c) fun package =>
    .all (s.main.fileOf.entries.map fun e =>
      .ofResult (s.names.packageOf e.1) fun p =>
        if p = package then s.acceptedFile e.2 else .none)

/-! ## Users -/

/-- The recorded users of a class are searched. -/
def users (s : Scene) (c : Symbol) : Impact := .ofDependants (s.main.dependantsOf c)

/-- A use through `owner`, and through each class of `below` whose users are searched. -/
def uses (s : Scene) (use : Symbol → Usage) (owner : Symbol) (below : List Symbol) : Impact :=
  .ofUsages ((owner :: below).map use) ++ .ofDependants (below.flatMap s.main.dependantsOf)

/-- The walk down through the classes that have a source file. -/
def sourcedWalk (s : Scene) : Walk Symbol Symbol :=
  .everywhere fun c => if s.main.fileOf.has c then s.main.directSubclasses c else []

/-- The files of a class and everything below it are affected and their users
searched; a branch ends at a class without a file. -/
def subclasses (s : Scene) (c : Symbol) (mentions : Bool) : Impact :=
  .all ((c :: s.sourcedWalk.findFrom (View.downBound s.main) c c).map fun d =>
    match s.main.fileOf.get? d with
    | none => .none
    | some f =>
      .onlyIf (mentions && (s.updated.describe? d).isSome) (.ofUsages [.mention d]) ++
        s.users d ++ s.file f)

/-! ## Widening -/

/-- A change that no usage leads to.  A public one cannot be bounded; otherwise it
reaches the package of `packageOf`, and for a protected one also the classes that
inherit the field from `owner`. -/
def widen (s : Scene) (owner : Symbol) (access : Access) (field : Option Symbol)
    (packageOf : Symbol) : Impact :=
  if access.isPublic then .ofStop .unbounded
  else
    .onlyIf access.isProtected
      (.all ((s.old.inheriting (.field (field.getD .empty)) owner).map s.acceptedFileOfClass)) ++
    s.packageFiles packageOf

/-- A constant changed: its readers are asked for, or the change is widened when
there is nobody to ask. -/
def constant (s : Scene) (c : ClassInfo) (f : FieldInfo) (removed accessChanged : Bool) : Impact :=
  if s.canAsk then
    .ofResult (s.names.name c.name) fun ownerName =>
      .ofResult (s.names.name f.name) fun fieldName =>
        .ofRequest ⟨c.name, f, dottedName ownerName, fieldName, removed, accessChanged⟩
  else s.widen c.name f.access (some f.name) c.name

/-- A usage counts only where a condition holds. -/
def limited (usages : List Usage) (residency : Except Fault Residency) : Impact :=
  .ofResult residency (.ofLimit usages)

end Scene

end ClassImpact

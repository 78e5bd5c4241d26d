import ClassImpact.Impact.Fields
import ClassImpact.Impact.Methods

/-!
# What a change of classes brings about

A class may be changed, removed or added in a file that was compiled, and it may
disappear together with its file.  The rule for a changed class looks at its
place in the hierarchy, at its modifiers, at what matters to an annotation type,
and then at its members.

The descriptor from before the round decides which rules apply and names what is
searched for.
-/

namespace ClassImpact

namespace Scene

/-! ## Changed classes -/

/-- The superclass, the interfaces or the generic signature changed: everything
below is affected.  Mentions count too, unless a superclass was only introduced
or interfaces only added. -/
def changedPlace (s : Scene) (c : ClassInfo) (d : ClassChange) : Impact :=
  let interfaces := !d.interfaces.isEmpty
  .onlyIf (d.base.superclass || interfaces || d.base.signature)
    (s.subclasses c.name
      ((d.base.superclass && !d.extendsAdded s.root) ||
        (interfaces && !d.interfaces.removed.isEmpty) || d.base.signature))

/-- Every mention of the class is searched for. -/
def mentions (c : ClassInfo) : Impact := .ofUsages [c.mentioned]

/-- The modifiers of the class changed. -/
def changedModifiers (s : Scene) (c : ClassInfo) (base : Revision) : Impact :=
  .onlyIf (base.added.has .prot)
    (limited [c.mentioned] (Residency.noInheritorOf s.names c.name) ++ mentions c) ++
  .onlyIf base.becamePackageLocal
    (limited [c.mentioned] (Residency.outsideOf s.names c.name) ++ mentions c) ++
  .onlyIf (base.added.hasAny [.final, .priv]) (mentions c) ++
  .onlyIf (base.added.hasAny [.abstract, .static]) (.ofUsages [.instantiation c.name])

/-- A change of an annotation type that no usage leads to. -/
def widenAnnotation (s : Scene) (c : ClassInfo) : Impact :=
  s.widen (c.outer.getD .empty) c.access none c.name

/-- An annotation type that is or was kept in source files only. -/
def sourceAnnotation (s : Scene) (past now : ClassInfo) : Impact :=
  .onlyIf (past.isAnnotationType && (past.retention = some .source || now.retention = some .source))
    (s.widenAnnotation past)

/-- What matters to the uses of an annotation type: how long it is kept, where it may
stand, and members that must be given. -/
def changedAnnotation (s : Scene) (c : ClassInfo) (d : ClassChange) : Impact :=
  let lost := d.targets.removed
  .onlyIf c.isAnnotationType
    (if d.retention then mentions c
    else
      .onlyIf (lost.contains .localVariable) (s.widenAnnotation c) ++
        .onlyIf (!lost.isEmpty) (.ofQuery ⟨c.name, none, some (.ofList lost)⟩) ++
        .onlyIf (d.methods.added.any fun m => !m.hasDefault) (mentions c))

/-- What one changed class brings about. -/
def changedClass (s : Scene) (change : Changed ClassInfo ClassChange) : Impact :=
  let c := change.past
  let d := change.diff
  .all
    [ s.users c.name,
      s.changedPlace c d,
      .onlyIf (d.base.modifiers.has .interface) (mentions c),
      s.sourceAnnotation c change.now,
      s.changedModifiers c d.base,
      s.changedAnnotation c d,
      s.methods c d.methods,
      s.fields c d.fields ]

/-! ## Removed, added and disappeared classes -/

/-- What the removal of a class from its file brings about. -/
def removedClass (s : Scene) (c : ClassInfo) : Impact := s.users c.name ++ mentions c

/-- What a new class brings about: whoever used its name before is affected. -/
def addedClass (s : Scene) (c : ClassInfo) : Impact :=
  .all ((s.main.dependantsOf c.name).map s.acceptedFileOfClass)

/-- What the loss of a class with `file` brings about for a user of it: the user's file
is affected, if it is another one. -/
def bereaved (s : Scene) (file user : Symbol) : Impact :=
  s.onFileOf (fun other => .onlyIf (other ≠ file) (s.acceptedFile other)) user

/-- What the loss of a class with its file brings about: the users in other files
are affected. -/
def disappearedClass (s : Scene) (c : Symbol) : Impact :=
  s.onFileOf (fun file => .all ((s.main.dependantsOf c).map (s.bereaved file))) c

end Scene

end ClassImpact

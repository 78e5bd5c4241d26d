import ClassImpact.OrderedSet
import ClassImpact.IdSet
import ClassImpact.TypeRef

/-!
# What a class uses

A compiled class carries the record of everything it refers to.  The same records
serve as the keys that a change is looked up by: a change of a method yields the
call that its callers have recorded, and a class is hit when it holds that record.

A use of an annotation is matched by query rather than by equality, because a
change hits the uses that rely on a default or stand on some kind of element.
-/

namespace ClassImpact

/-- The kinds of program element that an annotation may stand on. -/
inductive ElementKind where
  | type | field | method | parameter | constructor | localVariable | annotationType | package
  | typeParameter | typeUse
deriving DecidableEq, Repr

instance : Ranked ElementKind where
  rank k := k.ctorIdx
  rank_inj {a b} h := by cases a <;> cases b <;> simp_all [ElementKind.ctorIdx]

/-- The name of a kind of element, as it is shown. -/
def ElementKind.label : ElementKind → String
  | .type => "Type"
  | .field => "Field"
  | .method => "Method"
  | .parameter => "Parameter"
  | .constructor => "Constructor"
  | .localVariable => "LocalVariable"
  | .annotationType => "AnnotationType"
  | .package => "Package"
  | .typeParameter => "TypeParameter"
  | .typeUse => "TypeUse"

/-- Every kind of element, in rank order. -/
def ElementKind.all : List ElementKind :=
  [.type, .field, .method, .parameter, .constructor, .localVariable, .annotationType, .package,
    .typeParameter, .typeUse]

/-- The kind of element that a label names. -/
def ElementKind.ofLabel? (label : String) : Option ElementKind :=
  all.find? fun k => k.label == label

/-! ## Annotations in use -/

/-- An annotation that stands somewhere, or a query over such uses.

In a use, `members` are the members given a value and `targets` the elements it
stands on.  In a query, `members` are the members that lost their default, and
`targets` the kinds of element the annotation may no longer stand on. -/
structure AnnotationUse where
  name : Symbol
  members : Option (OrderedSet Symbol)
  targets : Option (OrderedSet ElementKind)
deriving DecidableEq, Repr

namespace AnnotationUse

/-- Some queried member is left to its default by the use. -/
def hitsMembers (query used : AnnotationUse) : Bool :=
  match query.members, used.members with
  | some queried, some given => queried.toList.any fun m => !given.contains m
  | some queried, none => !queried.isEmpty
  | none, _ => false

/-- The use stands on some queried kind of element. -/
def hitsTargets (query used : AnnotationUse) : Bool :=
  match query.targets, used.targets with
  | some queried, some standing => queried.toList.any standing.contains
  | _, _ => false

/-- Whether a query hits a use of the same annotation. -/
def hits (query used : AnnotationUse) : Bool :=
  query.name = used.name && (query.hitsMembers used || query.hitsTargets used)

end AnnotationUse

/-! ## Usages -/

/-- A reference from a class to something else.  `overloads` stands at a call that
is bound by choosing among the methods of one name. -/
inductive Usage where
  | mention (owner : Symbol)
  | instantiation (owner : Symbol)
  | read (name owner : Symbol) (type : TypeRef)
  | write (name owner : Symbol) (type : TypeRef)
  | call (name owner : Symbol) (params : List TypeRef) (returns : TypeRef)
  | overloads (name owner : Symbol)
  | annotated (use : AnnotationUse)
deriving DecidableEq, Repr

namespace Usage

/-- The class that a usage points into. -/
def owner : Usage → Symbol
  | .mention o => o
  | .instantiation o => o
  | .read _ o _ => o
  | .write _ o _ => o
  | .call _ o _ _ => o
  | .overloads _ o => o
  | .annotated use => use.name

end Usage

/-- A usage is its own identity. -/
instance : Identified Usage Usage := ⟨id⟩

/-! ## Written form -/

/-- Texts in ascending order, by code point. -/
def sortTexts (texts : List String) : List String := texts.foldr insertText []
where
  /-- A text put before the first one that is not smaller. -/
  insertText (a : String) : List String → List String
    | [] => [a]
    | b :: rest => if a ≤ b then a :: b :: rest else b :: insertText a rest

/-- A list in brackets, its members separated by commas; nothing is a dash. -/
def bracketed : Option (List String) → String
  | none => "-"
  | some members => "[" ++ ",".intercalate members ++ "]"

/-- The written form of an annotation in use; members are sorted by name. -/
def AnnotationUse.text (names : NameTable) (u : AnnotationUse) : String :=
  let members := u.members.map fun ms => sortTexts (ms.toList.map names.shown)
  let targets := u.targets.map fun ts => ts.toList.map ElementKind.label
  names.shown u.name ++ " members=" ++ bracketed members ++ " targets=" ++ bracketed targets

/-- The written form of a usage. -/
def Usage.text (names : NameTable) : Usage → String
  | .mention o => "class:" ++ names.shown o
  | .instantiation o => "new:" ++ names.shown o
  | .read n o t => "field:" ++ member n o ++ ":" ++ t.descriptor names
  | .write n o t => "assign:" ++ member n o ++ ":" ++ t.descriptor names
  | .call n o ps r =>
    "method:" ++ member n o ++ "(" ++ String.join (ps.map (·.descriptor names)) ++ ")" ++
      r.descriptor names
  | .overloads n o => "meta:" ++ member n o
  | .annotated u => "annotation:" ++ u.text names
where
  /-- A member's name with the class it is reached through. -/
  member (n o : Symbol) : String := names.shown n ++ "@" ++ names.shown o

/-- The written forms of a set of usages, sorted. -/
def usageTexts (names : NameTable) (usages : IdSet Usage) : List String :=
  sortTexts (usages.toList.map (·.text names))

end ClassImpact

import ClassImpact.SourcePath
import ClassImpact.Residency

/-!
# Impacts

What one change brings about: files that are affected outright, and keys for the
later search of the classes that use what changed.  An impact says which classes
to search (`dependants`), for which usages (`usages`) or uses of annotations
(`queries`), and where a usage has to stand to count (`limits`).  A constant that
was copied into its readers leaves no usage; it is asked about (`requests`).

Impacts are put one behind the other with `++`.  One that stops keeps everything
behind it from happening.  Of several limits on a usage the last one counts.
-/

namespace ClassImpact

/-- Why the comparison of a round ends early. -/
inductive Stop where
  /-- The change reaches further than can be told. -/
  | unbounded
  | fault (fault : Fault)
deriving DecidableEq, Repr

/-- A question about the readers of a constant. -/
structure ConstantRequest where
  owner : Symbol
  field : FieldInfo
  /-- The owner's name in dotted spelling. -/
  ownerName : String
  fieldName : String
  /-- The field is gone, rather than changed. -/
  removed : Bool
  accessChanged : Bool
deriving DecidableEq, Repr

/-- What a change brings about. -/
structure Impact where
  files : List SourcePath
  dependants : List Symbol
  usages : List Usage
  queries : List AnnotationUse
  limits : List (Usage × Residency)
  requests : List ConstantRequest
  stop : Option Stop
deriving DecidableEq, Repr

namespace Impact

/-- Nothing is brought about. -/
def none : Impact := ⟨[], [], [], [], [], [], .none⟩

def ofStop (stop : Stop) : Impact := { none with stop := some stop }
def ofFault (fault : Fault) : Impact := ofStop (.fault fault)
def ofFiles (files : List SourcePath) : Impact := { none with files := files }
def ofDependants (dependants : List Symbol) : Impact := { none with dependants := dependants }
def ofUsages (usages : List Usage) : Impact := { none with usages := usages }
def ofQuery (query : AnnotationUse) : Impact := { none with queries := [query] }
def ofRequest (request : ConstantRequest) : Impact := { none with requests := [request] }

/-- Every given usage counts only where `residency` holds. -/
def ofLimit (usages : List Usage) (residency : Residency) : Impact :=
  { none with limits := usages.map fun u => (u, residency) }

/-- One impact and then another, which does not happen after a stop. -/
def andThen (a b : Impact) : Impact :=
  match a.stop with
  | some _ => a
  | .none =>
    { files := a.files ++ b.files
      dependants := a.dependants ++ b.dependants
      usages := a.usages ++ b.usages
      queries := a.queries ++ b.queries
      limits := a.limits ++ b.limits
      requests := a.requests ++ b.requests
      stop := b.stop }

instance : Append Impact := ⟨andThen⟩

/-- Impacts one behind the other. -/
def all (impacts : List Impact) : Impact := impacts.foldr (· ++ ·) none

/-- An impact if a condition holds. -/
def onlyIf (condition : Bool) (a : Impact) : Impact := if condition then a else none

/-- The impact of a result; a fault is a stop. -/
def ofResult {α : Type} (result : Except Fault α) (impact : α → Impact) : Impact :=
  match result with
  | .ok a => impact a
  | .error fault => ofFault fault

/-- The condition on a usage: the last one that was set. -/
def limitOn? (a : Impact) (u : Usage) : Option Residency :=
  (a.limits.reverse.find? fun l => l.1 = u).map (·.2)

theorem append_def (a b : Impact) : a ++ b = a.andThen b := rfl

@[simp] theorem none_append (a : Impact) : none ++ a = a := by
  cases a; simp [append_def, andThen, none]

@[simp] theorem append_none (a : Impact) : a ++ none = a := by
  obtain ⟨_, _, _, _, _, _, stop⟩ := a
  cases stop <;> simp [append_def, andThen, none]

theorem append_assoc (a b c : Impact) : a ++ b ++ c = a ++ (b ++ c) := by
  obtain ⟨_, _, _, _, _, _, s⟩ := a
  obtain ⟨_, _, _, _, _, _, t⟩ := b
  cases s <;> cases t <;> simp [append_def, andThen]

@[simp] theorem all_nil : all [] = none := rfl

@[simp] theorem all_cons (a : Impact) (l : List Impact) : all (a :: l) = a ++ all l := rfl

end Impact

end ClassImpact

import ClassImpact.Json.Scan
import ClassImpact.SourcePath

/-!
# Settings of a stored graph

Where a graph is stored and whether its rounds are stored beside it.  Settings are
written as JSON, either as an object, whose missing members take their defaults
and whose unknown members are passed over, or as an array of the members in
order, whose missing end takes the defaults.
-/

namespace ClassImpact

/-- Where and how a graph is stored. -/
structure Settings where
  /-- The directory of the database and of the rounds. -/
  rootDir : String
  /-- Rounds are kept in memory. -/
  transientRounds : Bool
  /-- The file of the database inside `rootDir`. -/
  databaseFile : String
deriving DecidableEq, Repr

namespace Settings

/-- The settings in which nothing is said. -/
def default : Settings := ⟨".cascade", true, "mappings.redb"⟩

/-- The default settings in another directory. -/
def inDirectory (rootDir : String) : Settings := { default with rootDir := rootDir }

/-- The path of the database. -/
def databasePath (s : Settings) : String := joinPath s.rootDir s.databaseFile

/-- The directory of the stored rounds. -/
def roundsDir (s : Settings) : String := joinPath s.rootDir "delta"

/-! ## Reading -/

/-- The members read so far. -/
structure Draft where
  rootDir : Option String
  transientRounds : Option Bool
  databaseFile : Option String
deriving DecidableEq, Repr

/-- Nothing read yet. -/
def Draft.empty : Draft := ⟨none, none, none⟩

/-- The settings of a draft, with the defaults for what is missing. -/
def Draft.complete (d : Draft) : Settings :=
  ⟨d.rootDir.getD default.rootDir, d.transientRounds.getD default.transientRounds,
    d.databaseFile.getD default.databaseFile⟩

/-- A member's value is read into the draft.  A member may be given once. -/
def Draft.readMember? (d : Draft) (key : String) (s : List Char) : Option (Draft × List Char) :=
  if key = "root_dir" then
    if d.rootDir.isSome then none
    else (Json.text? s).map fun r => ({ d with rootDir := some r.1 }, r.2)
  else if key = "transient_delta" then
    if d.transientRounds.isSome then none
    else (Json.bool? s).map fun r => ({ d with transientRounds := some r.1 }, r.2)
  else if key = "database_file" then
    if d.databaseFile.isSome then none
    else (Json.text? s).map fun r => ({ d with databaseFile := some r.1 }, r.2)
  else (Json.skipValue? s).map fun rest => (d, rest)

/-- The members of an object from its next key on, at most `bound` of them. -/
def readMembers? : Nat → Draft → List Char → Option (Draft × List Char)
  | 0, _, _ => none
  | bound + 1, d, s => do
    let (key, rest) ← Json.text? s
    let rest ← Json.after? [':'] (Json.skipBlanks rest)
    let (d, rest) ← d.readMember? key rest
    match Json.skipBlanks rest with
    | '}' :: rest => some (d, rest)
    | ',' :: rest => readMembers? bound d rest
    | _ => none

/-- The members of an array from the given keys on, after its bracket or a comma. -/
def readItems? : List String → Draft → List Char → Option (Draft × List Char)
  | [], _, _ => none
  | key :: keys, d, s => do
    let (d, rest) ← d.readMember? key s
    match Json.skipBlanks rest with
    | ']' :: rest => some (d, rest)
    | ',' :: rest => readItems? keys d rest
    | _ => none

/-- The members of an object or array. -/
def readDraft? (s : List Char) : Option (Draft × List Char) :=
  match Json.skipBlanks s with
  | '\x7b' :: rest =>
    match Json.skipBlanks rest with
    | '\x7d' :: rest => some (.empty, rest)
    | rest => readMembers? (rest.length + 1) .empty rest
  | '[' :: rest =>
    match Json.skipBlanks rest with
    | ']' :: rest => some (.empty, rest)
    | rest => readItems? ["root_dir", "transient_delta", "database_file"] .empty rest
  | _ => none

/-- The settings that a text gives, when it is well-formed and nothing follows. -/
def ofJson? (text : String) : Option Settings := do
  let (d, rest) ← readDraft? text.toList
  if (Json.skipBlanks rest).isEmpty then some d.complete else none

end Settings

end ClassImpact

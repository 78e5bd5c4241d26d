import ClassImpact.Fault
import ClassImpact.Graph

/-!
# Snapshots

A snapshot is a graph with its names written out: the keys of each table and the
members of each set in ascending order.  Every symbol of the graph must have a
name; a set is named before the key that it stands under.

The written form of a snapshot is JSON, indented by two blanks.
-/

namespace ClassImpact

/-- A table of texts in ascending order of keys. -/
abbrev TextTable (α : Type) := List (String × α)

/-- The table with a key bound to a value. -/
def TextTable.insert {α : Type} (key : String) (value : α) : TextTable α → TextTable α
  | [] => [(key, value)]
  | e :: rest =>
    if key < e.1 then (key, value) :: e :: rest
    else if key = e.1 then (key, value) :: rest
    else e :: TextTable.insert key value rest

/-- The texts of a list in ascending order, each of them once. -/
def sortedTexts (texts : List String) : List String :=
  (texts.foldl (fun (t : TextTable Unit) x => t.insert x ()) []).map (·.1)

/-- The tables of a graph with names for symbols. -/
structure Snapshot where
  subclasses : TextTable (List String)
  dependants : TextTable (List String)
  classesIn : TextTable (List String)
  fileOf : TextTable String
deriving DecidableEq, Repr

namespace Snapshot

/-- A table of sets with its names written out. -/
def nameSets {α κ : Type} [Identified α κ] (names : NameTable) (symbolOf : α → Symbol)
    (t : SetTable α) : Except Fault (TextTable (List String)) :=
  t.entries.foldlM
    (fun named e => do
      let values ← e.2.toList.mapM fun a => names.name (symbolOf a)
      let key ← names.name e.1
      pure (named.insert key (sortedTexts values)))
    []

/-- A table with its names written out. -/
def nameEntries (names : NameTable) (t : Table Symbol) : Except Fault (TextTable String) :=
  t.entries.foldlM
    (fun named e => do
      let key ← names.name e.1
      let value ← names.name e.2
      pure (named.insert key value))
    []

/-- The snapshot of a graph. -/
def ofGraph (names : NameTable) (g : Graph) : Except Fault Snapshot := do
  let subclasses ← nameSets names id g.subclasses
  let dependants ← nameSets names id g.dependants
  let classesIn ← nameSets names ClassInfo.name g.classesIn
  let fileOf ← nameEntries names g.fileOf
  pure ⟨subclasses, dependants, classesIn, fileOf⟩

/-! ## Written form -/

/-- A hexadecimal digit in lower case. -/
def hexDigit (n : Nat) : Char :=
  if n < 10 then Char.ofNat ('0'.toNat + n) else Char.ofNat ('a'.toNat + (n - 10))

/-- A character inside a quoted text. -/
def quotedChar (c : Char) : List Char :=
  if c = '"' then ['\\', '"']
  else if c = '\\' then ['\\', '\\']
  else if c = '\n' then ['\\', 'n']
  else if c = '\t' then ['\\', 't']
  else if c = '\r' then ['\\', 'r']
  else if c = '\x08' then ['\\', 'b']
  else if c = '\x0c' then ['\\', 'f']
  else if c.toNat < 0x20 then
    ['\\', 'u', '0', '0', hexDigit (c.toNat / 16), hexDigit (c.toNat % 16)]
  else [c]

/-- A quoted text. -/
def quoted (text : String) : String :=
  String.ofList ('"' :: text.toList.flatMap quotedChar ++ ['"'])

/-- Items between brackets, one on a line, indented by one step more than `depth`. -/
def block (opening closing : String) (depth : Nat) (items : List String) : String :=
  let indent (n : Nat) : String := String.ofList (List.replicate (2 * n) ' ')
  match items with
  | [] => opening ++ closing
  | items =>
    opening ++ "\n" ++ indent (depth + 1) ++ (",\n" ++ indent (depth + 1)).intercalate items ++
      "\n" ++ indent depth ++ closing

/-- An object, of members written already. -/
def object (depth : Nat) (members : TextTable String) : String :=
  block "\x7b" "\x7d" depth (members.map fun m => quoted m.1 ++ ": " ++ m.2)

/-- A table of lists of texts. -/
def listsText (t : TextTable (List String)) : String :=
  object 1 (t.map fun e => (e.1, block "[" "]" 2 (e.2.map quoted)))

/-- The written form of a snapshot. -/
def text (s : Snapshot) : String :=
  object 0
    [ ("class_to_subclasses", listsText s.subclasses),
      ("class_to_class_dependency", listsText s.dependants),
      ("source_file_to_classes", listsText s.classesIn),
      ("class_to_source_file", object 1 (s.fileOf.map fun e => (e.1, quoted e.2))) ]

end Snapshot

end ClassImpact

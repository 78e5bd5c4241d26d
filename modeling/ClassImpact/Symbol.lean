/-!
# Symbols and the table of their names

Classes, members and source files are known by small numbers, their *symbols*,
and a table gives each symbol its name.  The table only grows: a name keeps the
symbol it was first given.  Saved tables may have gaps, and a table read back
from such a list fills a gap with a nameless placeholder, so that every symbol
keeps its number.

The qualified names are written with slashes (`p/q/A`); a dotted spelling is
turned into that form before a name is looked up.
-/

namespace ClassImpact

/-- The number a name is known by. -/
structure Symbol where
  id : Nat
deriving DecidableEq, Repr

namespace Symbol

/-- The symbol of the empty name, present in every table. -/
def empty : Symbol := ⟨0⟩

def isEmpty (s : Symbol) : Bool := s.id == 0

theorem ext_iff_id {s t : Symbol} : s = t ↔ s.id = t.id := by
  cases s; cases t; simp

end Symbol

/-! ## Parts of a qualified name -/

/-- The text before the last `mark`, if `mark` occurs. -/
def beforeLast (mark : Char) : List Char → Option (List Char)
  | [] => none
  | c :: rest =>
    match beforeLast mark rest with
    | some front => some (c :: front)
    | none => if c = mark then some [] else none

/-- The package of a qualified name: what stands before its last slash. -/
def packageName (name : String) : String :=
  match beforeLast '/' name.toList with
  | some package => String.ofList package
  | none => ""

/-- Every `old` of the text replaced by `new`. -/
def replaceChar (old new : Char) (text : String) : String :=
  String.ofList (text.toList.map fun c => if c = old then new else c)

/-- The qualified name a dotted spelling stands for. -/
def internalName (dotted : String) : String := replaceChar '.' '/' dotted

/-- The dotted spelling of a qualified name. -/
def dottedName (name : String) : String := replaceChar '/' '.' name

/-! ## The table -/

/-- Names by symbol, and symbols by name.

`names` holds the name of each symbol at its number; `symbols` holds the newest
binding of a name first, so that a look-up finds that one. -/
structure NameTable where
  names : Array String
  symbols : List (String × Symbol)
deriving DecidableEq, Repr

namespace NameTable

/-- The table of the empty name alone. -/
def new : NameTable := ⟨#[""], [("", Symbol.empty)]⟩

/-- The symbol of a name already in the table. -/
def lookup (t : NameTable) (name : String) : Option Symbol := t.symbols.lookup name

/-- The name of a symbol, if the table gives it one. -/
def name? (t : NameTable) (s : Symbol) : Option String := t.names[s.id]?

/-- The symbol of a name, which is added under the next free number when it is new. -/
def intern (t : NameTable) (name : String) : Symbol × NameTable :=
  match t.lookup name with
  | some s => (s, t)
  | none =>
    let s : Symbol := ⟨t.names.size⟩
    (s, ⟨t.names.push name, (name, s) :: t.symbols⟩)

/-- The table after interning several names in order. -/
def internAll (t : NameTable) (names : List String) : NameTable :=
  names.foldl (fun t name => (t.intern name).2) t

/-- One saved name put back under its number; the numbers skipped on the way
become nameless placeholders. -/
def restore (t : NameTable) (entry : Nat × String) : NameTable :=
  if entry.1 = 0 then t
  else
    let padded := t.names ++ Array.replicate (entry.1 + 1 - t.names.size) ""
    ⟨padded.setIfInBounds entry.1 entry.2, (entry.2, ⟨entry.1⟩) :: t.symbols⟩

/-- The table that a list of saved names stands for. -/
def ofEntries (saved : List (Nat × String)) : NameTable := saved.foldl restore new

/-- The names to save, by number; the empty name is never saved. -/
def entries (t : NameTable) : List (Nat × String) :=
  (t.names.toList.zipIdx.drop 1).map fun p => (p.2, p.1)

/-- How many symbols the table has given out, the empty name included. -/
def size (t : NameTable) : Nat := t.names.size

/-- Whether the table holds no name but the empty one. -/
def isEmpty (t : NameTable) : Bool := t.size ≤ 1

/-- The package a symbol's name lies in. -/
def packageOf? (t : NameTable) (s : Symbol) : Option String := (t.name? s).map packageName

/-- The name of a symbol as it is shown: a symbol without one shows its number. -/
def shown (t : NameTable) (s : Symbol) : String :=
  match t.name? s with
  | some name => name
  | none => "#" ++ toString s.id

/-! ## Interning and looking up -/

@[simp] theorem lookup_new (name : String) :
    new.lookup name = if name = "" then some Symbol.empty else none := by
  by_cases h : name = ""
  · simp [lookup, new, h]
  · simp [lookup, new, List.lookup_cons, h, beq_false_of_ne h]

theorem intern_of_lookup {t : NameTable} {name : String} {s : Symbol}
    (h : t.lookup name = some s) : t.intern name = (s, t) := by
  simp [intern, h]

theorem intern_of_lookup_none {t : NameTable} {name : String} (h : t.lookup name = none) :
    t.intern name = (⟨t.size⟩, ⟨t.names.push name, (name, ⟨t.size⟩) :: t.symbols⟩) := by
  simp [intern, h, size]

@[simp] theorem lookup_intern_self (t : NameTable) (name : String) :
    (t.intern name).2.lookup name = some (t.intern name).1 := by
  cases h : t.lookup name with
  | some s => simp [intern_of_lookup h, h]
  | none => simp [intern_of_lookup_none h, lookup]

end NameTable

end ClassImpact

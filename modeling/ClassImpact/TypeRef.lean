import ClassImpact.Symbol

/-!
# Types and constants

A type is named the way a class file names it: by a *descriptor*, one letter for
a primitive type, `Lname;` for a class, and a leading `[` for each level of
array.  The class name is everything between the first `L` and the last `;`.
-/

namespace ClassImpact

/-- The primitive types, with `void` for methods that return nothing. -/
inductive Primitive where
  | boolean | byte | char | short | int | long | float | double | void
deriving DecidableEq, Repr

/-- The letter of a primitive type. -/
def Primitive.letter : Primitive → Char
  | .boolean => 'Z'
  | .byte => 'B'
  | .char => 'C'
  | .short => 'S'
  | .int => 'I'
  | .long => 'J'
  | .float => 'F'
  | .double => 'D'
  | .void => 'V'

/-- The primitive type that a letter names. -/
def Primitive.ofLetter? : Char → Option Primitive
  | 'Z' => some .boolean
  | 'B' => some .byte
  | 'C' => some .char
  | 'S' => some .short
  | 'I' => some .int
  | 'J' => some .long
  | 'F' => some .float
  | 'D' => some .double
  | 'V' => some .void
  | _ => none

@[simp] theorem Primitive.ofLetter?_letter (p : Primitive) : ofLetter? p.letter = some p := by
  cases p <;> rfl

/-- A reference to a type. -/
inductive TypeRef where
  | primitive (p : Primitive)
  | array (element : TypeRef)
  | named (name : Symbol)
deriving DecidableEq, Repr

namespace TypeRef

/-- The class that a reference names directly. -/
def className? : TypeRef → Option Symbol
  | .named name => some name
  | _ => none

/-- The descriptor of a type, in the characters that `nameOf` gives a class. -/
def descriptorChars (nameOf : Symbol → String) : TypeRef → List Char
  | .primitive p => [p.letter]
  | .array element => '[' :: descriptorChars nameOf element
  | .named name => 'L' :: (nameOf name).toList ++ [';']

/-- The descriptor of a type. -/
def descriptor (names : NameTable) (type : TypeRef) : String :=
  String.ofList (type.descriptorChars names.shown)

/-- The type of a descriptor, whose class name is added to the table. -/
def ofDescriptorChars? (names : NameTable) : List Char → Option (TypeRef × NameTable)
  | '[' :: rest => (ofDescriptorChars? names rest).map fun r => (.array r.1, r.2)
  | 'L' :: rest =>
    (beforeLast ';' rest).bind fun name =>
      if rest = name ++ [';'] then
        let (symbol, names) := names.intern (String.ofList name)
        some (.named symbol, names)
      else none
  | [letter] => (Primitive.ofLetter? letter).map fun p => (.primitive p, names)
  | _ => none

/-- The type that a descriptor stands for. -/
def ofDescriptor? (names : NameTable) (text : String) : Option (TypeRef × NameTable) :=
  ofDescriptorChars? names text.toList

end TypeRef

/-- A constant known when a class is compiled.  A floating-point value is kept as
its bits, so that two constants are equal exactly when they are the same. -/
inductive Constant where
  | int (value : Int64)
  | floatBits (bits : UInt64)
  | bool (value : Bool)
  | char (value : Char)
  | text (value : String)
deriving DecidableEq, Repr

end ClassImpact

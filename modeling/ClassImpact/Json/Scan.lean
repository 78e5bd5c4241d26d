/-!
# Scanning JSON text

A strict reader of JSON over characters.  A scanner takes what it recognises off
the front of the text and gives back the rest; nothing means that the text is not
of that form.

A string is read in two passes.  The first takes it apart into characters and
16-bit escapes, which is enough to pass over it.  The second joins the escapes:
one half of a surrogate pair must stand beside the other.
-/

namespace ClassImpact.Json

/-- The blanks that may stand between tokens. -/
def isBlank (c : Char) : Bool := c = ' ' || c = '\n' || c = '\t' || c = '\r'

/-- The text after leading blanks. -/
def skipBlanks (s : List Char) : List Char := s.dropWhile isBlank

/-- The text after a given beginning. -/
def after? (front : List Char) (s : List Char) : Option (List Char) :=
  if front.isPrefixOf s then some (s.drop front.length) else none

/-! ## Strings -/

/-- A part of a string: a character, or an escape that gives 16 bits. -/
inductive Piece where
  | char (c : Char)
  | escape (bits : Nat)
deriving DecidableEq, Repr

/-- The value of a hexadecimal digit. -/
def hexValue? (c : Char) : Option Nat :=
  if '0' ≤ c ∧ c ≤ '9' then some (c.toNat - '0'.toNat)
  else if 'a' ≤ c ∧ c ≤ 'f' then some (c.toNat - 'a'.toNat + 10)
  else if 'A' ≤ c ∧ c ≤ 'F' then some (c.toNat - 'A'.toNat + 10)
  else none

/-- The value of four hexadecimal digits. -/
def hexValue4? (a b c d : Char) : Option Nat := do
  let a ← hexValue? a
  let b ← hexValue? b
  let c ← hexValue? c
  let d ← hexValue? d
  return ((a * 16 + b) * 16 + c) * 16 + d

/-- The character that a one-letter escape stands for. -/
def escapeChar? : Char → Option Char
  | '"' => some '"'
  | '\\' => some '\\'
  | '/' => some '/'
  | 'b' => some '\x08'
  | 'f' => some '\x0c'
  | 'n' => some '\n'
  | 'r' => some '\r'
  | 't' => some '\t'
  | _ => none

/-- The pieces of a string up to its closing quote.  Control characters must be
written as escapes. -/
def pieces? : List Char → Option (List Piece × List Char)
  | [] => none
  | '"' :: rest => some ([], rest)
  | '\\' :: 'u' :: a :: b :: c :: d :: rest =>
    (hexValue4? a b c d).bind fun bits => (pieces? rest).map fun r => (.escape bits :: r.1, r.2)
  | '\\' :: c :: rest =>
    (escapeChar? c).bind fun c => (pieces? rest).map fun r => (.char c :: r.1, r.2)
  | c :: rest =>
    if c.toNat < 0x20 || c = '\\' then none
    else (pieces? rest).map fun r => (.char c :: r.1, r.2)

/-- The characters of pieces. -/
def joinPieces? : List Piece → Option (List Char)
  | [] => some []
  | .char c :: rest => (joinPieces? rest).map (c :: ·)
  | .escape high :: .escape low :: rest =>
    if 0xD800 ≤ high ∧ high < 0xDC00 then
      if 0xDC00 ≤ low ∧ low < 0xE000 then
        let code := 0x10000 + (high - 0xD800) * 0x400 + (low - 0xDC00)
        (joinPieces? rest).map (Char.ofNat code :: ·)
      else none
    else if 0xDC00 ≤ high ∧ high < 0xE000 then none
    else (joinPieces? (.escape low :: rest)).map (Char.ofNat high :: ·)
  | .escape bits :: rest =>
    if 0xD800 ≤ bits ∧ bits < 0xE000 then none
    else (joinPieces? rest).map (Char.ofNat bits :: ·)

/-- A string, read in full. -/
def text? (s : List Char) : Option (String × List Char) :=
  match skipBlanks s with
  | '"' :: rest =>
    (pieces? rest).bind fun r => (joinPieces? r.1).map fun cs => (String.ofList cs, r.2)
  | _ => none

/-- A truth value. -/
def bool? (s : List Char) : Option (Bool × List Char) :=
  let s := skipBlanks s
  match after? "true".toList s with
  | some rest => some (true, rest)
  | none => (after? "false".toList s).map fun rest => (false, rest)

/-! ## Numbers -/

/-- The text after at least one digit. -/
def digits? : List Char → Option (List Char)
  | c :: rest => if c.isDigit then some (rest.dropWhile Char.isDigit) else none
  | [] => none

/-- The text after the digits of a whole number, without superfluous zeros. -/
def whole? : List Char → Option (List Char)
  | '0' :: c :: rest => if c.isDigit then none else some (c :: rest)
  | s => digits? s

/-- The text after a fraction, if there is one. -/
def fraction? : List Char → Option (List Char)
  | '.' :: rest => digits? rest
  | s => some s

/-- The text after an exponent, if there is one. -/
def exponent? : List Char → Option (List Char)
  | c :: rest =>
    if c = 'e' || c = 'E' then
      match rest with
      | '+' :: rest => digits? rest
      | '-' :: rest => digits? rest
      | rest => digits? rest
    else some (c :: rest)
  | [] => some []

/-- The text after a number. -/
def number? (s : List Char) : Option (List Char) :=
  let s := match s with
    | '-' :: rest => rest
    | s => s
  ((whole? s).bind fraction?).bind exponent?

/-! ## Whole values -/

/-- What has to come next in the text. -/
inductive Goal where
  | value
  /-- The end of an array, or its first item. -/
  | items
  /-- The end of an array, or a comma and an item. -/
  | moreItems
  /-- The end of an object, or its first member. -/
  | members
  /-- The end of an object, or a comma and a member. -/
  | moreMembers
  | member
deriving DecidableEq, Repr

/-- One goal is met: the goals in its place, and the rest of the text. -/
def Goal.meet? (g : Goal) (s : List Char) : Option (List Goal × List Char) :=
  match g, skipBlanks s with
  | .value, '"' :: rest => (pieces? rest).map fun r => ([], r.2)
  | .value, '[' :: rest => some ([.items], rest)
  | .value, '{' :: rest => some ([.members], rest)
  | .value, s =>
    let rest := ((after? "true".toList s).or (after? "false".toList s)).or (after? "null".toList s)
    (rest.or (number? s)).map fun rest => ([], rest)
  | .items, ']' :: rest => some ([], rest)
  | .items, s => some ([.value, .moreItems], s)
  | .moreItems, ']' :: rest => some ([], rest)
  | .moreItems, ',' :: rest => some ([.value, .moreItems], rest)
  | .moreItems, _ => none
  | .members, '}' :: rest => some ([], rest)
  | .members, s => some ([.member, .moreMembers], s)
  | .moreMembers, '}' :: rest => some ([], rest)
  | .moreMembers, ',' :: rest => some ([.member, .moreMembers], rest)
  | .moreMembers, _ => none
  | .member, '"' :: rest =>
    (pieces? rest).bind fun r =>
      match skipBlanks r.2 with
      | ':' :: rest => some ([.value], rest)
      | _ => none
  | .member, _ => none

/-- The text after goals are met in order, in at most `steps` steps. -/
def meetAll? : Nat → List Goal → List Char → Option (List Char)
  | _, [], s => some s
  | 0, _ :: _, _ => none
  | steps + 1, g :: goals, s =>
    (g.meet? s).bind fun r => meetAll? steps (r.1 ++ goals) r.2

/-- The text after a value of any kind, nested as deep as it may be.  At most every
other step takes nothing off the text. -/
def skipValue? (s : List Char) : Option (List Char) := meetAll? (2 * s.length + 2) [.value] s

end ClassImpact.Json

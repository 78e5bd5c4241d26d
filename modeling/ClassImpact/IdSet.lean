import ClassImpact.Symbol

/-!
# Sets of values told apart by a part of them

A class is the same class after it has been compiled again, whatever its members
are then; a field is known by its name alone.  `Identified` names the part that
tells two values apart, and `IdSet` is a finite set that holds at most one value
of each identity.

The order in which a set lists its values carries no meaning, and the sets do not
hide it: a walk over a set follows `toList`.
-/

namespace ClassImpact

/-- Values known by an identity `ident`, which need not be all of them. -/
class Identified (α : Type) (κ : outParam Type) where
  ident : α → κ

open Identified (ident)

/-- A finite set with at most one value of each identity. -/
structure IdSet (α : Type) {κ : Type} [Identified α κ] where
  toList : List α
  distinct : toList.Pairwise fun a b => ident a ≠ ident b

namespace IdSet

variable {α κ : Type} [Identified α κ]

@[ext] theorem ext {s t : IdSet α} (h : s.toList = t.toList) : s = t := by
  cases s; cases t; simp_all

instance [DecidableEq α] : DecidableEq (IdSet α) := fun s t =>
  decidable_of_iff (s.toList = t.toList) ⟨ext, fun h => h ▸ rfl⟩

instance [Repr α] : Repr (IdSet α) := ⟨fun s n => reprPrec s.toList n⟩

/-- The set without values. -/
def empty : IdSet α := ⟨[], .nil⟩

instance : Inhabited (IdSet α) := ⟨empty⟩

/-- The set of one value. -/
def single (a : α) : IdSet α := ⟨[a], by simp⟩

def isEmpty (s : IdSet α) : Bool := s.toList.isEmpty

def size (s : IdSet α) : Nat := s.toList.length

/-- The values that a test keeps. -/
def filter (p : α → Bool) (s : IdSet α) : IdSet α := ⟨s.toList.filter p, s.distinct.filter p⟩

@[simp] theorem toList_empty : (empty : IdSet α).toList = [] := rfl

@[simp] theorem toList_single (a : α) : (single a).toList = [a] := rfl

@[simp] theorem toList_filter (p : α → Bool) (s : IdSet α) :
    (s.filter p).toList = s.toList.filter p := rfl

variable [DecidableEq κ]

/-- The value with a given identity. -/
def find? (s : IdSet α) (k : κ) : Option α := s.toList.find? fun b => ident b = k

/-- Whether the set has a value with a given identity. -/
def has (s : IdSet α) (k : κ) : Bool := s.toList.any fun b => ident b = k

/-- Whether the set has a value with the identity of `a`. -/
def contains (s : IdSet α) (a : α) : Bool := s.has (ident a)

theorem has_iff {s : IdSet α} {k : κ} : s.has k = true ↔ ∃ b ∈ s.toList, ident b = k := by
  simp [has]

/-- The set with `a` in it; a value of the same identity that is there already stays. -/
def add (s : IdSet α) (a : α) : IdSet α :=
  if h : s.has (ident a) then s
  else ⟨s.toList ++ [a], by
    have := s.distinct
    simp [has] at h
    exact List.pairwise_append.2 ⟨this, by simp, by simpa using h⟩⟩

/-- The set with `a` in it, in the place of a value of the same identity. -/
def put (s : IdSet α) (a : α) : IdSet α :=
  if s.has (ident a) then
    ⟨s.toList.map fun b => if ident b = ident a then a else b, by
      refine List.pairwise_map.2 (s.distinct.imp ?_)
      intro b c h
      split <;> split <;> simp_all⟩
  else s.add a

/-- The set without the value of identity `k`. -/
def erase (s : IdSet α) (k : κ) : IdSet α := s.filter fun b => ident b ≠ k

/-- The set of a list's values; of two with one identity the first counts. -/
def ofList (values : List α) : IdSet α := values.foldl add empty

/-- Both sets together, the values of `t` in the place of equal ones of `s`. -/
def union (s t : IdSet α) : IdSet α := t.toList.foldl put s

/-- The values of `s` whose identity `t` does not have. -/
def sdiff (s t : IdSet α) : IdSet α := s.filter fun b => !t.contains b

/-- Whether both sets have the same values, in whatever order. -/
def sameValues [DecidableEq α] (s t : IdSet α) : Bool :=
  s.size = t.size && s.toList.all fun a => decide (a ∈ t.toList)

/-! ## What each operation does to the values -/

theorem toList_add (s : IdSet α) (a : α) :
    (s.add a).toList = if s.has (ident a) then s.toList else s.toList ++ [a] := by
  unfold add; split <;> simp_all

theorem toList_put (s : IdSet α) (a : α) :
    (s.put a).toList =
      if s.has (ident a) then s.toList.map fun b => if ident b = ident a then a else b
      else s.toList ++ [a] := by
  unfold put; split <;> simp_all [toList_add]

@[simp] theorem toList_erase (s : IdSet α) (k : κ) :
    (s.erase k).toList = s.toList.filter fun b => ident b ≠ k := rfl

end IdSet

/-- A symbol is its own identity. -/
instance : Identified Symbol Symbol := ⟨id⟩

end ClassImpact

import ClassImpact.Symbol

/-!
# Sets in one fixed order

`OrderedSet α` is a finite set listed in the ascending order of its members'
ranks.  Two sets with the same members are equal, so values that carry such sets
can be compared as they stand.
-/

namespace ClassImpact

/-- Values placed in a line by a rank that tells them apart. -/
class Ranked (α : Type) where
  rank : α → Nat
  rank_inj : ∀ {a b}, rank a = rank b → a = b

open Ranked (rank)

/-- A finite set, listed in ascending order of rank. -/
structure OrderedSet (α : Type) [Ranked α] where
  toList : List α
  ordered : toList.Pairwise fun a b => rank a < rank b

namespace OrderedSet

variable {α : Type} [Ranked α]

@[ext] theorem ext {s t : OrderedSet α} (h : s.toList = t.toList) : s = t := by
  cases s; cases t; simp_all

instance [DecidableEq α] : DecidableEq (OrderedSet α) := fun s t =>
  decidable_of_iff (s.toList = t.toList) ⟨ext, fun h => h ▸ rfl⟩

instance [Repr α] : Repr (OrderedSet α) := ⟨fun s n => reprPrec s.toList n⟩

/-- The members with `a` among them, in the place that its rank gives it. -/
def insertIn (a : α) : List α → List α
  | [] => [a]
  | b :: rest =>
    if rank a < rank b then a :: b :: rest
    else if rank a = rank b then b :: rest
    else b :: insertIn a rest

theorem mem_insertIn {a b : α} {l : List α} : b ∈ insertIn a l ↔ b = a ∨ b ∈ l := by
  induction l with
  | nil => simp [insertIn]
  | cons c rest ih =>
    rw [insertIn]
    split
    · simp
    · split
      · rename_i h
        have := Ranked.rank_inj h
        subst this
        simp
      · simp only [List.mem_cons, ih]
        grind

theorem ordered_insertIn {a : α} {l : List α} (h : l.Pairwise fun a b => rank a < rank b) :
    (insertIn a l).Pairwise fun a b => rank a < rank b := by
  induction l with
  | nil => simp [insertIn]
  | cons c rest ih =>
    obtain ⟨hc, hrest⟩ := List.pairwise_cons.1 h
    rw [insertIn]
    split
    · rename_i hlt
      refine List.pairwise_cons.2 ⟨fun b hb => ?_, h⟩
      rcases List.mem_cons.1 hb with hb | hb
      · exact hb ▸ hlt
      · exact Nat.lt_trans hlt (hc b hb)
    · split
      · exact h
      · refine List.pairwise_cons.2 ⟨fun b hb => ?_, ih hrest⟩
        rcases mem_insertIn.1 hb with hb | hb
        · subst hb; omega
        · exact hc b hb

/-- The set without members. -/
def empty : OrderedSet α := ⟨[], .nil⟩

/-- The set with `a` in it. -/
def insert (s : OrderedSet α) (a : α) : OrderedSet α :=
  ⟨insertIn a s.toList, ordered_insertIn s.ordered⟩

/-- The set of a list's members. -/
def ofList (members : List α) : OrderedSet α := members.foldl insert empty

/-- Whether `a` is a member. -/
def contains (s : OrderedSet α) (a : α) : Bool := s.toList.any fun b => rank b = rank a

def isEmpty (s : OrderedSet α) : Bool := s.toList.isEmpty

@[simp] theorem contains_eq_true {s : OrderedSet α} {a : α} :
    s.contains a = true ↔ a ∈ s.toList := by
  simp only [contains, List.any_eq_true, decide_eq_true_eq]
  exact ⟨fun ⟨b, hb, h⟩ => Ranked.rank_inj h ▸ hb, fun h => ⟨a, h, rfl⟩⟩

@[simp] theorem mem_toList_insert {s : OrderedSet α} {a b : α} :
    b ∈ (s.insert a).toList ↔ b = a ∨ b ∈ s.toList := mem_insertIn

end OrderedSet

/-- Symbols are ranked by their numbers. -/
instance : Ranked Symbol := ⟨Symbol.id, Symbol.ext_iff_id.2⟩

end ClassImpact

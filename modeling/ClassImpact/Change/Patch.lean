import ClassImpact.IdSet

/-!
# Patches between two collections

A `Patch` says how a collection `past` became `now`: which values are new, which
are gone, and which are there on both sides with a different content.  Values are
paired by identity; what counts as a different content is up to `compare`, which
answers nothing for two shapes that it takes for equal.

Both sides are lists and may repeat an identity: then the first value of `past`
is the one that is compared with.
-/

namespace ClassImpact

open Identified (ident)

/-- One value on both sides, with the difference found. -/
structure Changed (α δ : Type) where
  past : α
  now : α
  diff : δ
deriving DecidableEq, Repr

/-- What was added, removed and changed from one collection to another. -/
structure Patch (α δ : Type) where
  added : List α
  removed : List α
  changed : List (Changed α δ)
deriving DecidableEq, Repr

namespace Patch

variable {α κ δ : Type}

/-- Nothing was added, removed or changed. -/
def isEmpty (p : Patch α δ) : Bool := p.added.isEmpty && p.removed.isEmpty && p.changed.isEmpty

variable [Identified α κ] [DecidableEq κ]

/-- The first value of `past` with the identity of `a`. -/
def partner? (past : List α) (a : α) : Option α := past.find? fun b => ident b = ident a

/-- A value of `now` that is compared with its partner. -/
def change? (compare : α → α → Option δ) (past : List α) (a : α) : Option (Changed α δ) :=
  (partner? past a).bind fun b => (compare b a).map fun d => ⟨b, a, d⟩

/-- The patch from `past` to `now`: added and changed values in the order of
`now`, removed ones in the order of `past`. -/
def between (compare : α → α → Option δ) (past now : List α) : Patch α δ where
  added := now.filter fun a => (partner? past a).isNone
  removed := past.filter fun b => (partner? now b).isNone
  changed := now.filterMap (change? compare past)

/-- The patch from a collection that may not have been recorded: then every value
of `now` is new. -/
def fromRecorded (compare : α → α → Option δ) : Option (List α) → List α → Patch α δ
  | none, now => ⟨now, [], []⟩
  | some past, now => between compare past now

/-- The patch of membership alone. -/
def ofMembers (past now : List α) : Patch α Empty := between (fun _ _ => none) past now

@[simp] theorem partner?_nil (a : α) : partner? ([] : List α) a = none := rfl

theorem isSome_partner? {l : List α} {a : α} :
    (partner? l a).isSome = true ↔ ∃ b ∈ l, ident b = ident a := by
  simp [partner?, List.find?_isSome]

theorem isNone_partner? {l : List α} {a : α} :
    (partner? l a).isNone = true ↔ ∀ b ∈ l, ident b ≠ ident a := by
  simp [partner?]

theorem partner?_eq_some {l : List α} {a b : α} (h : partner? l a = some b) :
    b ∈ l ∧ ident b = ident a := by
  refine ⟨List.mem_of_find?_eq_some h, ?_⟩
  simpa using List.find?_some h

@[simp] theorem between_nil (compare : α → α → Option δ) (now : List α) :
    between compare [] now = ⟨now, [], []⟩ := by
  have : now.filterMap (change? compare []) = [] := by
    simp [List.filterMap_eq_nil_iff, change?]
  simp [between, this]

end Patch

end ClassImpact

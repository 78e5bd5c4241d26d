import ClassImpact.IdSet

/-!
# Tables keyed by symbols

`Table α` is a finite map from symbols to values, kept in ascending order of its
keys: two tables with the same answers to `get?` are equal, and a walk over the
entries meets the keys in order.  A table of sets (`SetTable`) adds the
operations that put values into the set under a key.

A key with an empty set under it is present; only `erase` takes a key out.
-/

namespace ClassImpact

/-- A finite map from symbols to values, its entries in ascending order of keys. -/
structure Table (α : Type) where
  entries : List (Symbol × α)
  ordered : entries.Pairwise fun a b => a.1.id < b.1.id

namespace Table

variable {α : Type}

@[ext] theorem ext {t u : Table α} (h : t.entries = u.entries) : t = u := by
  cases t; cases u; simp_all

instance [DecidableEq α] : DecidableEq (Table α) := fun t u =>
  decidable_of_iff (t.entries = u.entries) ⟨ext, fun h => h ▸ rfl⟩

instance [Repr α] : Repr (Table α) := ⟨fun t n => reprPrec t.entries n⟩

/-! ## Entries in order -/

/-- The value of `k` in a list of entries. -/
def lookupIn (k : Symbol) : List (Symbol × α) → Option α
  | [] => none
  | e :: rest => if e.1 = k then some e.2 else lookupIn k rest

/-- The entries with `k` bound to `v`, in the place that its number gives it. -/
def insertIn (k : Symbol) (v : α) : List (Symbol × α) → List (Symbol × α)
  | [] => [(k, v)]
  | e :: rest =>
    if k.id < e.1.id then (k, v) :: e :: rest
    else if e.1 = k then (k, v) :: rest
    else e :: insertIn k v rest

theorem mem_insertIn {k : Symbol} {v : α} {e : Symbol × α} {l : List (Symbol × α)}
    (h : e ∈ insertIn k v l) : e = (k, v) ∨ e ∈ l := by
  induction l with
  | nil => simpa [insertIn] using h
  | cons a rest ih =>
    rw [insertIn] at h
    split at h
    · simpa using h
    · split at h
      · rcases List.mem_cons.1 h with h | h
        · exact .inl h
        · exact .inr (List.mem_cons_of_mem _ h)
      · rcases List.mem_cons.1 h with h | h
        · exact .inr (h ▸ List.mem_cons_self)
        · exact (ih h).imp id (List.mem_cons_of_mem _)

theorem ordered_insertIn {k : Symbol} {v : α} {l : List (Symbol × α)}
    (h : l.Pairwise fun a b => a.1.id < b.1.id) :
    (insertIn k v l).Pairwise fun a b => a.1.id < b.1.id := by
  induction l with
  | nil => simp [insertIn]
  | cons a rest ih =>
    have hrest := (List.pairwise_cons.1 h).2
    have hhead := (List.pairwise_cons.1 h).1
    rw [insertIn]
    split
    · rename_i hlt
      refine List.pairwise_cons.2 ⟨fun b hb => ?_, h⟩
      rcases List.mem_cons.1 hb with hb | hb
      · exact hb ▸ hlt
      · exact Nat.lt_trans hlt (hhead b hb)
    · split
      · rename_i heq
        exact List.pairwise_cons.2 ⟨fun b hb => heq ▸ hhead b hb, hrest⟩
      · rename_i hle hne
        refine List.pairwise_cons.2 ⟨fun b hb => ?_, ih hrest⟩
        rcases mem_insertIn hb with hb | hb
        · subst hb
          have : a.1.id ≠ k.id := fun h => hne (Symbol.ext_iff_id.2 h)
          show a.1.id < k.id
          omega
        · exact hhead b hb

theorem lookupIn_insertIn (k j : Symbol) (v : α) (l : List (Symbol × α)) :
    lookupIn j (insertIn k v l) = if k = j then some v else lookupIn j l := by
  induction l with
  | nil => simp [insertIn, lookupIn]
  | cons a rest ih =>
    rw [insertIn]
    split
    · simp [lookupIn]
    · split
      · rename_i h
        by_cases hk : k = j <;> simp [lookupIn, h, hk]
      · rename_i h
        by_cases ha : a.1 = j
        · have hk : k ≠ j := fun hk => h (ha.trans hk.symm)
          simp [lookupIn, ha, hk]
        · simp [lookupIn, ha, ih]

theorem lookupIn_filter_ne (k j : Symbol) (l : List (Symbol × α)) :
    lookupIn j (l.filter fun e => e.1 ≠ k) = if k = j then none else lookupIn j l := by
  induction l with
  | nil => simp [lookupIn]
  | cons a rest ih =>
    by_cases hk : a.1 = k
    · simp only [hk, ne_eq, not_true_eq_false, decide_false, Bool.false_eq_true,
        not_false_eq_true, List.filter_cons_of_neg, lookupIn, ih]
      split <;> simp_all
    · simp only [ne_eq, hk, not_false_eq_true, decide_true, List.filter_cons_of_pos, lookupIn, ih]
      by_cases ha : a.1 = j
      · have : k ≠ j := fun h => hk (ha.trans h.symm)
        simp [ha, this]
      · simp [ha]

theorem lookupIn_eq_none_of_lt {k : Symbol} {l : List (Symbol × α)}
    (h : ∀ e ∈ l, k.id < e.1.id) : lookupIn k l = none := by
  induction l with
  | nil => rfl
  | cons a rest ih =>
    have ha : a.1 ≠ k := fun he => by
      have := h a List.mem_cons_self
      rw [he] at this
      omega
    simp [lookupIn, ha, ih fun e he => h e (List.mem_cons_of_mem _ he)]

/-! ## Operations -/

/-- The table without entries. -/
def empty : Table α := ⟨[], .nil⟩

instance : Inhabited (Table α) := ⟨empty⟩

/-- The value of a key. -/
def get? (t : Table α) (k : Symbol) : Option α := lookupIn k t.entries

/-- Whether the table binds a key. -/
def has (t : Table α) (k : Symbol) : Bool := (t.get? k).isSome

/-- The table with `k` bound to `v`. -/
def insert (t : Table α) (k : Symbol) (v : α) : Table α :=
  ⟨insertIn k v t.entries, ordered_insertIn t.ordered⟩

/-- The table with `k` unbound. -/
def erase (t : Table α) (k : Symbol) : Table α :=
  ⟨t.entries.filter fun e => e.1 ≠ k, t.ordered.filter _⟩

/-- The keys in ascending order. -/
def keys (t : Table α) : List Symbol := t.entries.map (·.1)

def size (t : Table α) : Nat := t.entries.length

def isEmpty (t : Table α) : Bool := t.entries.isEmpty

/-- The table with every entry of `u` put into it. -/
def insertAll (t u : Table α) : Table α := u.entries.foldl (fun t e => t.insert e.1 e.2) t

@[simp] theorem get?_empty (k : Symbol) : (empty : Table α).get? k = none := rfl

@[simp] theorem get?_insert (t : Table α) (k j : Symbol) (v : α) :
    (t.insert k v).get? j = if k = j then some v else t.get? j :=
  lookupIn_insertIn k j v t.entries

@[simp] theorem get?_erase (t : Table α) (k j : Symbol) :
    (t.erase k).get? j = if k = j then none else t.get? j :=
  lookupIn_filter_ne k j t.entries

private theorem entries_eq_of_lookupIn_eq {l m : List (Symbol × α)}
    (hl : l.Pairwise fun a b => a.1.id < b.1.id) (hm : m.Pairwise fun a b => a.1.id < b.1.id)
    (h : ∀ k, lookupIn k l = lookupIn k m) : l = m := by
  induction l generalizing m with
  | nil =>
    cases m with
    | nil => rfl
    | cons b m => have := h b.1; simp [lookupIn] at this
  | cons a l ih =>
    cases m with
    | nil => have := h a.1; simp [lookupIn] at this
    | cons b m =>
      obtain ⟨ha, hl⟩ := List.pairwise_cons.1 hl
      obtain ⟨hb, hm⟩ := List.pairwise_cons.1 hm
      have hab : a.1 = b.1 := by
        rcases Nat.lt_trichotomy a.1.id b.1.id with hlt | heq | hgt
        · have hne : b.1 ≠ a.1 := fun e => by rw [e] at hlt; omega
          have hn : lookupIn a.1 m = none :=
            lookupIn_eq_none_of_lt fun e he => Nat.lt_trans hlt (hb e he)
          have := h a.1
          simp [lookupIn, hne, hn] at this
        · exact Symbol.ext_iff_id.2 heq
        · have hne : a.1 ≠ b.1 := fun e => by rw [e] at hgt; omega
          have hn : lookupIn b.1 l = none :=
            lookupIn_eq_none_of_lt fun e he => Nat.lt_trans hgt (ha e he)
          have := h b.1
          simp [lookupIn, hne, hn] at this
      have hv : a.2 = b.2 := by
        have := h a.1
        simpa [lookupIn, hab] using this
      have hrest : l = m := by
        refine ih hl hm fun k => ?_
        by_cases hk : a.1 = k
        · rw [lookupIn_eq_none_of_lt fun e he => hk ▸ ha e he,
            lookupIn_eq_none_of_lt fun e he => hk ▸ hab ▸ hb e he]
        · have := h k
          have hk' : b.1 ≠ k := fun e => hk (hab.trans e)
          simpa [lookupIn, hk, hk'] using this
      rw [hrest, Prod.ext hab hv]

/-- **A table is its answers**: two tables that give every key the same value are equal. -/
theorem eq_of_get?_eq {t u : Table α} (h : ∀ k, t.get? k = u.get? k) : t = u :=
  ext (entries_eq_of_lookupIn_eq t.ordered u.ordered h)

end Table

/-- A table with a set of values under each key. -/
abbrev SetTable (α : Type) {κ : Type} [Identified α κ] := Table (IdSet α)

namespace Table

/-! ## Tables of sets -/

variable {α κ : Type} [Identified α κ]

/-- The values under a key; none when the key is unbound. -/
def valuesOf (t : SetTable α) (k : Symbol) : IdSet α := (t.get? k).getD IdSet.empty

variable [DecidableEq κ]

/-- The table with the values of `s` added under `k`, each in the place of an equal one. -/
def addValues (t : SetTable α) (k : Symbol) (s : IdSet α) : SetTable α :=
  t.insert k ((t.valuesOf k).union s)

/-- The table with one value added under `k`, in the place of an equal one. -/
def addValue (t : SetTable α) (k : Symbol) (a : α) : SetTable α :=
  t.addValues k (IdSet.single a)

/-- The table with the value of one identity taken out of the set under `k`. -/
def removeValue (t : SetTable α) (k : Symbol) (i : κ) : SetTable α :=
  match t.get? k with
  | some s => t.insert k (s.erase i)
  | none => t

/-- The table with the values of every entry of `u` added to it. -/
def addAll (t u : SetTable α) : SetTable α :=
  u.entries.foldl (fun t e => t.addValues e.1 e.2) t

end Table

end ClassImpact

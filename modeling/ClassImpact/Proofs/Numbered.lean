import Mathlib
import ClassImpact.Proofs.Outcomes
import ClassImpact.Proofs.Restored

/-!
# Names and their numbers

A name that is new to a table is put under the number behind the last one.  So a table that grew
by interning alone has no gap: its names are those that were interned, and the empty one, each
under one of the numbers from zero up to the size of the table.  Putting more names in adds
numbers at the end and changes none.

A symbol's number may be kept in 32 bits, and the number of a new name is then cut to that many.
This comes to the same as long as the table has at most `2 ^ 32` names, and no longer.

## Main results

* `NameTable.keeps_internWords`: a table answers as before after interning more names
* `NameTable.numbers_internAll`: a table that grew by interning numbers its names
* `NameTable.internWords_eq_internAll_iff`: how many names numbers of 32 bits are enough for
* `NameTable.internWords_bijective`: symbols and names correspond, and go on to do so
-/

namespace ClassImpact

namespace NameTable

variable {t : NameTable} {s : Symbol} {n : String} {l : List String} {names : Finset String}

/-! ## Numbers of 32 bits -/

/-- Interning where a symbol's number has 32 bits: the next free number is cut to that many. -/
def internWord (t : NameTable) (name : String) : Symbol × NameTable :=
  match t.lookup name with
  | some s => (s, t)
  | none =>
    let s : Symbol := ⟨t.names.size.toUInt32.toNat⟩
    (s, ⟨t.names.push name, (name, s) :: t.symbols⟩)

/-- The symbols that interning several names in order answers with, and the table after it. -/
def internWords (t : NameTable) : List String → List Symbol × NameTable
  | [] => ([], t)
  | name :: rest =>
    let (s, t) := t.internWord name
    let (given, t) := t.internWords rest
    (s :: given, t)

theorem internWord_of_lookup (h : t.lookup n = some s) : t.internWord n = (s, t) := by
  simp [internWord, h]

theorem internWord_of_lookup_none (h : t.lookup n = none) :
    t.internWord n =
      (⟨t.size % 2 ^ 32⟩, ⟨t.names.push n, (n, ⟨t.size % 2 ^ 32⟩) :: t.symbols⟩) := by
  simp [internWord, h, size]

/-- What is found once a name is bound anew. -/
theorem lookup_push (t : NameTable) (n : String) (s : Symbol) (m : String) :
    NameTable.lookup ⟨t.names.push n, (n, s) :: t.symbols⟩ m =
      if m = n then some s else t.lookup m := by
  rw [lookup, List.lookup_cons]
  by_cases hm : m = n
  · simp [hm]
  · rw [beq_false_of_ne hm, if_neg hm]
    rfl

theorem size_intern_of_new (h : t.lookup n = none) : (t.intern n).2.size = t.size + 1 := by
  simp [intern_of_lookup_none h, size]

/-- A number of 32 bits is the number itself while there are no more names than that. -/
theorem internWord_of_size_le (h : (t.intern n).2.size ≤ 2 ^ 32) :
    t.internWord n = t.intern n := by
  cases hl : t.lookup n with
  | some s => rw [internWord_of_lookup hl, intern_of_lookup hl]
  | none =>
    rw [size_intern_of_new hl] at h
    have hcut : t.size % 2 ^ 32 = t.size := Nat.mod_eq_of_lt h
    rw [internWord_of_lookup_none hl, intern_of_lookup_none hl, hcut]

/-- Call by call: the table is the one that interning leads to, and each answer is the symbol
that the name is found under at the end. -/
theorem internWords_of_size_le (h : (t.internAll l).size ≤ 2 ^ 32) :
    (t.internWords l).2 = t.internAll l ∧
      (t.internWords l).1.map some = l.map (t.internAll l).lookup := by
  induction l generalizing t with
  | nil => exact ⟨rfl, rfl⟩
  | cons n l ih =>
    have hstep : t.internWord n = t.intern n :=
      internWord_of_size_le ((size_le_internAll _ l).trans h)
    obtain ⟨htable, hgiven⟩ := ih h
    have hfound : ((t.intern n).2.internAll l).lookup n = some (t.intern n).1 :=
      (within_internAll _ l).lookup_of_intern
    rw [internWords, hstep]
    refine ⟨htable, ?_⟩
    rw [List.map_cons, List.map_cons, hgiven]
    exact congrArg (· :: _) hfound.symm

theorem lookup_internWord_lt (h : ∀ m s, t.lookup m = some s → s.id < 2 ^ 32) :
    ∀ m s, (t.internWord n).2.lookup m = some s → s.id < 2 ^ 32 := by
  intro m s hs
  cases hl : t.lookup n with
  | some s' =>
    rw [internWord_of_lookup hl] at hs
    exact h m s hs
  | none =>
    rw [internWord_of_lookup_none hl, lookup_push] at hs
    split at hs
    · rw [← Option.some.inj hs]
      exact Nat.mod_lt _ (by decide)
    · exact h m s hs

/-- Whatever is interned, no number is found that has more than 32 bits. -/
theorem lookup_internWords_lt (h : ∀ m s, t.lookup m = some s → s.id < 2 ^ 32) (l : List String) :
    ∀ m s, (t.internWords l).2.lookup m = some s → s.id < 2 ^ 32 := by
  induction l generalizing t with
  | nil => exact h
  | cons n l ih => exact ih (lookup_internWord_lt h)

/-! ## Answers that are kept -/

/-- What `t` answers about the names and symbols it has, `t'` answers as well. -/
structure Keeps (t t' : NameTable) : Prop where
  lookup : t.Within t'
  name : ∀ s n, t.name s = .ok n → t'.name s = .ok n

theorem Keeps.refl (t : NameTable) : t.Keeps t := ⟨.refl t, fun _ _ h => h⟩

theorem Keeps.trans {t' t'' : NameTable} (h : t.Keeps t') (h' : t'.Keeps t'') : t.Keeps t'' :=
  ⟨h.lookup.trans h'.lookup, fun s n hn => h'.name s n (h.name s n hn)⟩

/-- A new name changes no answer, whatever symbol it is put under. -/
theorem keeps_push (h : t.lookup n = none) (s : Symbol) :
    t.Keeps ⟨t.names.push n, (n, s) :: t.symbols⟩ where
  lookup m s' hm := by
    have hne : m ≠ n := fun he => by
      rw [he, h] at hm
      cases hm
    rw [lookup_push, if_neg hne]
    exact hm
  name s' m hm := by
    rw [name_eq_ok_iff] at hm ⊢
    obtain ⟨hlt, hget⟩ := Array.getElem?_eq_some_iff.1 hm
    rw [name?, Array.getElem?_push_lt hlt, hget]

theorem keeps_internWord (t : NameTable) (n : String) : t.Keeps (t.internWord n).2 := by
  cases hl : t.lookup n with
  | some s =>
    rw [internWord_of_lookup hl]
    exact .refl t
  | none =>
    rw [internWord_of_lookup_none hl]
    exact keeps_push hl _

/-- **Answers stay**, also when there are more names than numbers of 32 bits. -/
theorem keeps_internWords (t : NameTable) (l : List String) : t.Keeps (t.internWords l).2 := by
  induction l generalizing t with
  | nil => exact .refl t
  | cons n l ih => exact (keeps_internWord t n).trans (ih _)

theorem keeps_internAll (t : NameTable) (l : List String) : t.Keeps (t.internAll l) where
  lookup := within_internAll t l
  name _ _ h := name_eq_ok_iff.2 (name?_internAll (name_eq_ok_iff.1 h) l)

/-! ## Tables without a gap -/

/-- A table that numbers the names of a set: it has as many symbols as these names, it finds
these names and no others, and look-up and names turn each other around. -/
structure Numbers (t : NameTable) (names : Finset String) : Prop where
  size : t.size = names.card
  found : ∀ n, (t.lookup n).isSome = true ↔ n ∈ names
  inverse : ∀ n s, t.lookup n = some s ↔ t.name? s = some n

theorem numbers_new : NameTable.new.Numbers {""} where
  size := rfl
  found n := by
    rw [lookup_new, Finset.mem_singleton]
    split <;> simp_all
  inverse n s := by
    rw [lookup_new, name?_new_eq_some_iff]
    by_cases hn : n = "" <;> simp [hn, eq_comm]

/-- **Interning a name numbers it** with the others. -/
theorem Numbers.intern (h : t.Numbers names) (n : String) :
    (t.intern n).2.Numbers (insert n names) := by
  cases hl : t.lookup n with
  | some s =>
    have hn : n ∈ names := (h.found n).1 (by simp [hl])
    rw [intern_of_lookup hl, Finset.insert_eq_of_mem hn]
    exact h
  | none =>
    have hn : n ∉ names := by
      rw [← h.found, hl]
      simp
    refine ⟨?_, fun m => ?_, fun m s => ?_⟩
    · rw [size_intern_of_new hl, h.size, Finset.card_insert_of_notMem hn]
    · rw [lookup_intern_of_new hl, Finset.mem_insert, ← h.found]
      by_cases hm : m = n <;> simp [hm]
    · rw [lookup_intern_of_new hl, name?_intern_of_new hl]
      -- the new name belongs to the new number, and to no other
      by_cases hm : m = n
      · subst hm
        have hother : t.name? s ≠ some m := fun hs => by
          rw [← h.inverse, hl] at hs
          cases hs
        by_cases hs : s.id = t.size
        · simp [hs, Symbol.ext_iff_id]
        · simp [hs, hother, Symbol.ext_iff_id, Ne.symm hs]
      · by_cases hs : s.id = t.size
        · have hother : t.lookup m ≠ some s := fun hf => by
            have hlt := name?_eq_some ((h.inverse m s).1 hf)
            omega
          simp [hs, hm, hother, Ne.symm hm]
        · simp [hs, hm, h.inverse]

theorem Numbers.internAll (h : t.Numbers names) (l : List String) :
    (t.internAll l).Numbers (names ∪ l.toFinset) := by
  induction l generalizing t names with
  | nil =>
    rw [List.toFinset_nil, Finset.union_empty]
    exact h
  | cons n l ih =>
    have hrest := ih (h.intern n)
    rwa [Finset.insert_union, ← Finset.union_insert, ← List.toFinset_cons] at hrest

/-- **A table that grew by interning numbers its names.** -/
theorem numbers_internAll (l : List String) :
    (new.internAll l).Numbers (insert "" l.toFinset) :=
  numbers_new.internAll l

/-- The symbols of a table without a gap are the numbers below its size. -/
theorem Numbers.exists_lookup_iff (h : t.Numbers names) :
    (∃ n, t.lookup n = some s) ↔ s.id < t.size := by
  simp only [h.inverse, ← name?_isSome, Option.isSome_iff_exists]

/-- **How far numbers of 32 bits go**: they lead to the same table as long as there are no more
names than such numbers, the empty name among them, and to another one from then on. -/
theorem internWords_eq_internAll_iff :
    (new.internWords l).2 = new.internAll l ↔ (insert "" l.toFinset).card ≤ 2 ^ 32 := by
  have hnumbers := numbers_internAll l
  rw [← hnumbers.size]
  constructor
  · intro h
    by_contra hlt
    -- the first number that needs another bit has a name
    obtain ⟨n, hn⟩ := (hnumbers.exists_lookup_iff (s := ⟨2 ^ 32⟩)).2 (by simpa using hlt)
    have hfits : ∀ m s, NameTable.new.lookup m = some s → s.id < 2 ^ 32 := by
      intro m s hs
      have hlow := (numbers_new.exists_lookup_iff).1 ⟨m, hs⟩
      exact hlow.trans (by decide)
    have hcut := lookup_internWords_lt hfits l n _ (h ▸ hn)
    exact absurd hcut (lt_irrefl _)
  · intro h
    exact (internWords_of_size_le h).1

/-! ## Symbols and names -/

theorem size_internAll_le (h : l.toFinset.card < 2 ^ 32) : (new.internAll l).size ≤ 2 ^ 32 := by
  rw [(numbers_internAll l).size]
  exact (Finset.card_insert_le _ _).trans h

theorem name_eq_error_iff : t.name s = .error (.unknownSymbol s) ↔ t.size ≤ s.id := by
  rw [← not_lt, ← name?_isSome]
  unfold name
  cases t.name? s <;> simp

/-- The symbols that interning answered with, and that of the empty name, are those of the
table. -/
theorem Numbers.mem_given_iff (h : t.Numbers (insert "" l.toFinset))
    (hempty : t.lookup "" = some .empty) {given : List Symbol}
    (hgiven : given.map some = l.map t.lookup) :
    s ∈ Symbol.empty :: given ↔ s.id < t.size := by
  have hmem : s ∈ given ↔ ∃ n ∈ l, t.lookup n = some s := by
    rw [← List.mem_map, ← hgiven, List.mem_map_of_injective (Option.some_injective _)]
  rw [List.mem_cons, hmem, ← h.exists_lookup_iff]
  constructor
  · rintro (rfl | ⟨n, -, hn⟩)
    · exact ⟨"", hempty⟩
    · exact ⟨n, hn⟩
  · intro ⟨n, hn⟩
    have hknown : n ∈ insert "" l.toFinset := (h.found n).1 (by simp [hn])
    rcases Finset.mem_insert.1 hknown with rfl | hl
    · exact .inl (Option.some.inj (hn.symm.trans hempty))
    · exact .inr ⟨n, List.mem_toFinset.1 hl, hn⟩

/-- **Symbols and names correspond, and go on to do so.**  Interning fewer than `2 ^ 32` different
names leads to a table whose symbols are the numbers below its size, as many as there are names
with the empty one; each call was answered with the symbol that its name is found under.  Look-up
and naming turn each other around, the empty name is the first, and whatever is interned later
leaves both answers as they are. -/
theorem internWords_bijective {given : List Symbol} (hfew : l.toFinset.card < 2 ^ 32)
    (hrun : new.internWords l = (given, t)) :
    t = new.internAll l ∧
      ((∀ s, s ∈ Symbol.empty :: given ↔ s.id < t.size) ∧
        t.size = (insert "" l.toFinset).card ∧ given.map some = l.map t.lookup) ∧
      ((∀ n s, t.lookup n = some s ↔ t.name s = .ok n) ∧
        (∀ n, t.lookup n = none ↔ n ∉ "" :: l) ∧
        (∀ s, t.name s = .error (.unknownSymbol s) ↔ t.size ≤ s.id)) ∧
      (t.lookup "" = some .empty ∧ t.name .empty = .ok "") ∧
      ∀ later, t.Keeps (t.internAll later) ∧ t.Keeps (t.internWords later).2 := by
  have hwords := internWords_of_size_le (size_internAll_le hfew)
  rw [hrun] at hwords
  have ht : t = new.internAll l := hwords.1
  have hgiven : given.map some = l.map t.lookup := ht ▸ hwords.2
  have hnumbers : t.Numbers (insert "" l.toFinset) := ht ▸ numbers_internAll l
  have hempty : t.lookup "" = some .empty := ht ▸ within_internAll new l "" .empty (by simp)
  have hinverse : ∀ n s, t.lookup n = some s ↔ t.name s = .ok n := fun n s =>
    (hnumbers.inverse n s).trans name_eq_ok_iff.symm
  refine ⟨ht, ⟨fun s => hnumbers.mem_given_iff hempty hgiven, hnumbers.size, hgiven⟩,
    ⟨hinverse, fun n => ?_, fun s => name_eq_error_iff⟩,
    ⟨hempty, (hinverse _ _).1 hempty⟩,
    fun later => ⟨keeps_internAll t later, keeps_internWords t later⟩⟩
  have hfound := hnumbers.found n
  rw [Finset.mem_insert, List.mem_toFinset, ← List.mem_cons] at hfound
  rw [← hfound, Bool.not_eq_true, Option.isSome_eq_false_iff, Option.isNone_iff_eq_none]

namespace Reinterned

/-- Names of which one comes twice, and one is the empty name. -/
def first : List String := ["p/A", "", "p/B", "p/A"]

/-- The table of these names. -/
def table : NameTable := ⟨#["", "p/A", "p/B"], [("p/B", ⟨2⟩), ("p/A", ⟨1⟩), ("", ⟨0⟩)]⟩

/-- A new name, and one that is known. -/
def later : List String := ["p/C", "p/A"]

/-- The second `p/A` is answered as the first, and `p/B` keeps its symbol when `p/C` comes in. -/
theorem numbered_and_kept :
    first.toFinset.card < 2 ^ 32 ∧ new.internWords first = ([⟨1⟩, ⟨0⟩, ⟨2⟩, ⟨1⟩], table) ∧
      (∀ s, s ∈ [Symbol.empty, ⟨1⟩, ⟨0⟩, ⟨2⟩, ⟨1⟩] ↔ s.id < 3) ∧
      table.lookup "p/B" = some ⟨2⟩ ∧ table.name ⟨3⟩ = .error (.unknownSymbol ⟨3⟩) ∧
      (table.internWords later).2.lookup "p/B" = some ⟨2⟩ ∧
      (table.internWords later).2.name ⟨2⟩ = .ok "p/B" := by
  have hfew : first.toFinset.card < 2 ^ 32 := by decide
  have hrun : new.internWords first = ([⟨1⟩, ⟨0⟩, ⟨2⟩, ⟨1⟩], table) := by decide
  obtain ⟨-, ⟨hsymbols, -, -⟩, ⟨hinverse, -, hunknown⟩, -, hkept⟩ :=
    internWords_bijective hfew hrun
  have hfound : table.lookup "p/B" = some ⟨2⟩ := by decide
  obtain ⟨-, hlookup, hname⟩ := hkept later
  exact ⟨hfew, hrun, hsymbols, hfound, (hunknown ⟨3⟩).2 (by decide), hlookup _ _ hfound,
    hname _ _ ((hinverse _ _).1 hfound)⟩

end Reinterned

end NameTable

end ClassImpact

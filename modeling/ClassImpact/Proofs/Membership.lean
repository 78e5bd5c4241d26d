import Mathlib
import ClassImpact.Usage
import ClassImpact.Table

/-!
# Membership in sets and tables

The view of a set is its membership, together with `has`, which asks for an identity
alone; the view of a table of sets is the membership under each key.  Every operation
gets one law for each view, and later proofs walk over no list of values again.

Symbols and usages are their own identity.  For such faithful values `has` and
membership say the same, and adding a value loses none.
-/

namespace ClassImpact

open Identified (ident)

namespace IdSet

variable {α κ : Type} [Identified α κ]

instance : Membership α (IdSet α) := ⟨fun s a => a ∈ s.toList⟩

@[simp] theorem mem_toList {s : IdSet α} {a : α} : a ∈ s.toList ↔ a ∈ s := Iff.rfl

@[simp] theorem notMem_empty (a : α) : a ∉ (empty : IdSet α) := by
  rw [← mem_toList]; simp

@[simp] theorem mem_single {a b : α} : b ∈ single a ↔ b = a := by
  rw [← mem_toList]; simp

@[simp] theorem mem_filter {p : α → Bool} {s : IdSet α} {a : α} :
    a ∈ s.filter p ↔ a ∈ s ∧ p a = true := by
  rw [← mem_toList]; simp

theorem isEmpty_iff {s : IdSet α} : s.isEmpty = true ↔ ∀ a, a ∉ s := by
  rw [isEmpty, List.isEmpty_iff, List.eq_nil_iff_forall_not_mem]
  rfl

/-- Two values of one identity in a set are the same value. -/
theorem eq_of_ident_eq {s : IdSet α} {a b : α} (ha : a ∈ s) (hb : b ∈ s)
    (h : ident a = ident b) : a = b := by
  have hn : (s.toList.map ident).Nodup := List.pairwise_map.2 s.distinct
  exact List.inj_on_of_nodup_map hn ha hb h

theorem nodup_toList (s : IdSet α) : s.toList.Nodup :=
  s.distinct.imp fun h he => h (congrArg ident he)

/-- Sets compared as sets have the same members. -/
theorem mem_iff_of_sameValues [DecidableEq α] {s t : IdSet α} (h : s.sameValues t = true) (a : α) :
    a ∈ s ↔ a ∈ t := by
  simp only [sameValues, Bool.and_eq_true, decide_eq_true_eq, List.all_eq_true] at h
  have hsize : s.toList.length = t.toList.length := h.1
  have hperm : s.toList.Perm t.toList :=
    (List.subperm_of_subset s.nodup_toList h.2).perm_of_length_le hsize.ge
  exact hperm.mem_iff

variable [DecidableEq κ]

theorem has_iff_mem {s : IdSet α} {k : κ} : s.has k = true ↔ ∃ a ∈ s, ident a = k := has_iff

theorem has_of_mem {s : IdSet α} {a : α} (h : a ∈ s) : s.has (ident a) = true :=
  has_iff_mem.2 ⟨a, h, rfl⟩

@[simp] theorem has_empty (k : κ) : (empty : IdSet α).has k = false := rfl

@[simp] theorem has_single {a : α} {k : κ} : (single a).has k = true ↔ ident a = k := by
  simp [has]

@[simp] theorem mem_erase {s : IdSet α} {k : κ} {a : α} : a ∈ s.erase k ↔ a ∈ s ∧ ident a ≠ k := by
  simp [erase]

@[simp] theorem mem_sdiff {s t : IdSet α} {a : α} :
    a ∈ s.sdiff t ↔ a ∈ s ∧ t.has (ident a) = false := by
  simp [sdiff, contains]

theorem mem_add {s : IdSet α} {a b : α} :
    b ∈ s.add a ↔ b ∈ s ∨ b = a ∧ s.has (ident a) = false := by
  rw [← mem_toList, toList_add]
  cases h : s.has (ident a) <;> simp

theorem mem_put {s : IdSet α} {a b : α} : b ∈ s.put a ↔ b = a ∨ b ∈ s ∧ ident b ≠ ident a := by
  rw [← mem_toList, toList_put]
  by_cases h : s.has (ident a) = true
  · obtain ⟨c, hc, hca⟩ := has_iff_mem.1 h
    simp only [h, if_true, List.mem_map, mem_toList]
    constructor
    · rintro ⟨d, hd, rfl⟩
      by_cases hda : ident d = ident a <;> simp [hda, hd]
    · rintro (rfl | ⟨hb, hne⟩)
      · exact ⟨c, hc, by simp [hca]⟩
      · exact ⟨b, hb, by simp [hne]⟩
  · have hno : ∀ d ∈ s, ident d ≠ ident a := fun d hd hda => h (has_iff_mem.2 ⟨d, hd, hda⟩)
    simp only [h, if_false, Bool.false_eq_true, List.mem_append, mem_toList, List.mem_singleton]
    constructor
    · rintro (hb | rfl)
      · exact .inr ⟨hb, hno b hb⟩
      · exact .inl rfl
    · rintro (rfl | ⟨hb, -⟩)
      · exact .inr rfl
      · exact .inl hb

@[simp] theorem has_add {s : IdSet α} {a : α} {k : κ} :
    (s.add a).has k = true ↔ s.has k = true ∨ ident a = k := by
  simp only [has_iff_mem, mem_add]
  constructor
  · rintro ⟨b, hb | ⟨rfl, -⟩, rfl⟩
    · exact .inl ⟨b, hb, rfl⟩
    · exact .inr rfl
  · rintro (⟨b, hb, rfl⟩ | rfl)
    · exact ⟨b, .inl hb, rfl⟩
    · by_cases h : s.has (ident a) = true
      · obtain ⟨b, hb, hba⟩ := has_iff_mem.1 h
        exact ⟨b, .inl hb, hba⟩
      · exact ⟨a, .inr ⟨rfl, by simpa using h⟩, rfl⟩

@[simp] theorem has_put {s : IdSet α} {a : α} {k : κ} :
    (s.put a).has k = true ↔ s.has k = true ∨ ident a = k := by
  simp only [has_iff_mem, mem_put]
  constructor
  · rintro ⟨b, rfl | ⟨hb, -⟩, rfl⟩
    · exact .inr rfl
    · exact .inl ⟨b, hb, rfl⟩
  · rintro (⟨b, hb, rfl⟩ | rfl)
    · by_cases h : ident b = ident a
      · exact ⟨a, .inl rfl, h.symm⟩
      · exact ⟨b, .inr ⟨hb, h⟩, rfl⟩
    · exact ⟨a, .inl rfl, rfl⟩

@[simp] theorem has_erase {s : IdSet α} {k j : κ} :
    (s.erase k).has j = true ↔ s.has j = true ∧ j ≠ k := by
  simp only [has_iff_mem, mem_erase]
  constructor
  · rintro ⟨b, ⟨hb, hne⟩, rfl⟩
    exact ⟨⟨b, hb, rfl⟩, hne⟩
  · rintro ⟨⟨b, hb, rfl⟩, hne⟩
    exact ⟨b, ⟨hb, hne⟩, rfl⟩

/-! ## Lists of values -/

theorem has_foldl_put (l : List α) (s : IdSet α) (k : κ) :
    (l.foldl put s).has k = true ↔ s.has k = true ∨ ∃ a ∈ l, ident a = k := by
  induction l generalizing s with
  | nil => simp
  | cons a l ih => simp [ih, or_assoc]

/-- Values of different identities are all kept. -/
theorem mem_foldl_put {l : List α} (hl : (l.map ident).Nodup) {a : α} :
    a ∈ l.foldl put empty ↔ a ∈ l := by
  induction l using List.reverseRecOn with
  | nil => simp
  | append_singleton l b ih =>
    rw [List.map_append, List.nodup_append] at hl
    rw [List.foldl_concat, mem_put, ih hl.1, List.mem_append, List.mem_singleton, or_comm]
    refine or_congr (and_iff_left_of_imp fun ha he => ?_) Iff.rfl
    exact hl.2.2 (ident a) (List.mem_map.2 ⟨a, ha, rfl⟩) (ident b) (by simp) he

theorem has_foldl_add (l : List α) (s : IdSet α) (k : κ) :
    (l.foldl add s).has k = true ↔ s.has k = true ∨ ∃ a ∈ l, ident a = k := by
  induction l generalizing s with
  | nil => simp
  | cons a l ih => simp [ih, or_assoc]

theorem has_ofList (l : List α) (k : κ) :
    (ofList l).has k = true ↔ ∃ a ∈ l, ident a = k := by
  simp [ofList, has_foldl_add]

@[simp] theorem has_union {s t : IdSet α} {k : κ} :
    (s.union t).has k = true ↔ s.has k = true ∨ t.has k = true := by
  rw [union, has_foldl_put, has_iff_mem (s := t)]
  rfl

theorem find?_eq_some {s : IdSet α} {k : κ} {a : α} :
    s.find? k = some a ↔ a ∈ s ∧ ident a = k := by
  constructor
  · intro h
    exact ⟨List.mem_of_find?_eq_some h, by simpa using List.find?_some h⟩
  · rintro ⟨ha, rfl⟩
    cases h : s.find? (ident a) with
    | none =>
      have := List.find?_eq_none.1 h a ha
      simp at this
    | some b =>
      have hb : b ∈ s := List.mem_of_find?_eq_some h
      have hba : ident b = ident a := by simpa using List.find?_some h
      rw [eq_of_ident_eq hb ha hba]

theorem find?_eq_none {s : IdSet α} {k : κ} : s.find? k = none ↔ s.has k = false := by
  rw [find?, List.find?_eq_none, has, List.any_eq_false]

end IdSet

/-! ## Values that are their own identity -/

/-- Values that are told apart by their identity completely. -/
class Faithful (α : Type) {κ : Type} [Identified α κ] : Prop where
  ident_inj : ∀ {a b : α}, ident a = ident b → a = b

instance : Faithful Symbol := ⟨id⟩
instance : Faithful Usage := ⟨id⟩

namespace IdSet

variable {α κ : Type} [Identified α κ] [Faithful α] [DecidableEq κ]

@[simp] theorem has_ident {s : IdSet α} {a : α} : s.has (ident a) = true ↔ a ∈ s := by
  rw [has_iff_mem]
  exact ⟨fun ⟨b, hb, h⟩ => Faithful.ident_inj h ▸ hb, fun h => ⟨a, h, rfl⟩⟩

@[simp] theorem contains_iff {s : IdSet α} {a : α} : s.contains a = true ↔ a ∈ s := has_ident

theorem has_ident_false {s : IdSet α} {a : α} : s.has (ident a) = false ↔ a ∉ s := by
  rw [← has_ident, Bool.not_eq_true]

theorem mem_add_iff {s : IdSet α} {a b : α} : b ∈ s.add a ↔ b ∈ s ∨ b = a := by
  simp only [← has_ident (a := b), has_add]
  exact or_congr Iff.rfl ⟨fun h => (Faithful.ident_inj h).symm, fun h => h ▸ rfl⟩

theorem mem_put_iff {s : IdSet α} {a b : α} : b ∈ s.put a ↔ b ∈ s ∨ b = a := by
  simp only [← has_ident (a := b), has_put]
  exact or_congr Iff.rfl ⟨fun h => (Faithful.ident_inj h).symm, fun h => h ▸ rfl⟩

theorem mem_union_iff {s t : IdSet α} {a : α} : a ∈ s.union t ↔ a ∈ s ∨ a ∈ t := by
  simp only [← has_ident (a := a), has_union]

theorem mem_sdiff_iff {s t : IdSet α} {a : α} : a ∈ s.sdiff t ↔ a ∈ s ∧ a ∉ t := by
  rw [mem_sdiff, has_ident_false]

theorem mem_ofList {l : List α} {a : α} : a ∈ ofList l ↔ a ∈ l := by
  rw [← has_ident, has_ofList]
  exact ⟨fun ⟨b, hb, h⟩ => Faithful.ident_inj h ▸ hb, fun h => ⟨a, h, rfl⟩⟩

end IdSet

/-! ## Tables -/

namespace Table

section

variable {α : Type}

theorem has_eq_isSome (t : Table α) (k : Symbol) : t.has k = (t.get? k).isSome := rfl

theorem get?_eq_none_of_not_has {t : Table α} {k : Symbol} (h : t.has k = false) :
    t.get? k = none := by
  simpa [has] using h

@[simp] theorem has_empty (k : Symbol) : (empty : Table α).has k = false := rfl

@[simp] theorem has_insert (t : Table α) (k j : Symbol) (v : α) :
    (t.insert k v).has j = true ↔ k = j ∨ t.has j = true := by
  by_cases h : k = j <;> simp [has, h]

@[simp] theorem has_erase (t : Table α) (k j : Symbol) :
    (t.erase k).has j = true ↔ k ≠ j ∧ t.has j = true := by
  by_cases h : k = j <;> simp [has, h]

theorem isSome_lookupIn {k : Symbol} {l : List (Symbol × α)} :
    (lookupIn k l).isSome = true ↔ k ∈ l.map (·.1) := by
  induction l with
  | nil => simp [lookupIn]
  | cons e l ih =>
    by_cases h : e.1 = k
    · simp [lookupIn, h]
    · simp only [lookupIn, h, if_false, ih, List.map_cons, List.mem_cons, Ne.symm h, false_or]

theorem mem_keys {t : Table α} {k : Symbol} : k ∈ t.keys ↔ t.has k = true :=
  isSome_lookupIn.symm

theorem mem_entries {t : Table α} {e : Symbol × α} : e ∈ t.entries ↔ t.get? e.1 = some e.2 := by
  obtain ⟨l, hl⟩ := t
  show e ∈ l ↔ lookupIn e.1 l = some e.2
  induction l with
  | nil => simp [lookupIn]
  | cons a l ih =>
    obtain ⟨ha, hl⟩ := List.pairwise_cons.1 hl
    by_cases h : a.1 = e.1
    · have hnot : e ∉ l := fun he => by
        have := ha e he
        rw [h] at this
        exact absurd this (lt_irrefl _)
      simp [lookupIn, h, hnot, Prod.ext_iff, eq_comm]
    · have hne : e ≠ a := fun he => h (he ▸ rfl)
      simp [lookupIn, h, hne, ih hl]

end

/-! ## Tables of sets -/

variable {α κ : Type} [Identified α κ]

theorem valuesOf_of_get? {t : SetTable α} {k : Symbol} {s : IdSet α} (h : t.get? k = some s) :
    t.valuesOf k = s := by
  simp [valuesOf, h]

theorem valuesOf_of_not_has {t : SetTable α} {k : Symbol} (h : t.has k = false) :
    t.valuesOf k = .empty := by
  simp [valuesOf, get?_eq_none_of_not_has h]

@[simp] theorem valuesOf_empty (k : Symbol) : (empty : SetTable α).valuesOf k = .empty := rfl

@[simp] theorem valuesOf_insert (t : SetTable α) (k j : Symbol) (s : IdSet α) :
    (t.insert k s).valuesOf j = if k = j then s else t.valuesOf j := by
  by_cases h : k = j <;> simp [valuesOf, h]

@[simp] theorem valuesOf_erase (t : SetTable α) (k j : Symbol) :
    (t.erase k).valuesOf j = if k = j then .empty else t.valuesOf j := by
  by_cases h : k = j <;> simp [valuesOf, h]

theorem has_of_mem_valuesOf {t : SetTable α} {k : Symbol} {a : α} (h : a ∈ t.valuesOf k) :
    t.has k = true := by
  by_contra hno
  rw [valuesOf_of_not_has (by simpa using hno)] at h
  simp at h

/-- A value under a key stands in the entry of that key. -/
theorem exists_entry {t : SetTable α} {k : Symbol} {a : α} (h : a ∈ t.valuesOf k) :
    ∃ s, (k, s) ∈ t.entries ∧ a ∈ s := by
  obtain ⟨s, hs⟩ := Option.isSome_iff_exists.1 (has_of_mem_valuesOf h)
  rw [valuesOf_of_get? hs] at h
  exact ⟨s, mem_entries.2 hs, h⟩

variable [DecidableEq κ]

@[simp] theorem valuesOf_addValues (t : SetTable α) (k j : Symbol) (s : IdSet α) :
    (t.addValues k s).valuesOf j = if k = j then (t.valuesOf k).union s else t.valuesOf j := by
  simp [addValues]

@[simp] theorem valuesOf_addValue (t : SetTable α) (k j : Symbol) (a : α) :
    (t.addValue k a).valuesOf j = if k = j then (t.valuesOf k).put a else t.valuesOf j := by
  simp [addValue, IdSet.union]

@[simp] theorem has_addValue (t : SetTable α) (k j : Symbol) (a : α) :
    (t.addValue k a).has j = true ↔ k = j ∨ t.has j = true := by
  simp [addValue, addValues]

/-- One value added under several keys. -/
theorem mem_foldl_addValue [Faithful α] {l : List Symbol} {t : SetTable α} {k : Symbol} {a b : α} :
    b ∈ (l.foldl (fun t s => t.addValue s a) t).valuesOf k ↔ b ∈ t.valuesOf k ∨ k ∈ l ∧ b = a := by
  induction l generalizing t with
  | nil => simp
  | cons s l ih =>
    rw [List.foldl_cons, ih, valuesOf_addValue]
    by_cases h : s = k
    · subst h
      simp only [if_true, IdSet.mem_put_iff, List.mem_cons, true_or, true_and]
      tauto
    · simp [h, Ne.symm h]

end Table

end ClassImpact

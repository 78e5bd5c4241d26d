import Mathlib
import ClassImpact.Disk
import ClassImpact.Proofs.Builds

/-!
# Names saved and read back

The names of a session are saved under their numbers, and the next session reads them back.
In between a table only grows at its end, so that the saved names are always those up to some
number, and a table read back gives a symbol the name it had, or none.
-/

namespace ClassImpact

namespace NameTable

variable {t : NameTable} {s : Symbol} {n : String}

/-! ## Growing tables -/

theorem name?_eq_some (h : t.name? s = some n) : s.id < t.size :=
  (Array.getElem?_eq_some_iff.1 h).1

theorem name?_isSome : (t.name? s).isSome = true ↔ s.id < t.size := by
  simp [name?, size]

theorem name?_intern (h : t.name? s = some n) (name : String) :
    (t.intern name).2.name? s = some n := by
  cases hl : t.lookup name with
  | some s' => rw [intern_of_lookup hl, h]
  | none =>
    have hlt : s.id < t.names.size := name?_eq_some h
    rw [intern_of_lookup_none hl]
    simp only [name?] at h ⊢
    rw [Array.getElem?_push_lt hlt, ← h, Array.getElem?_eq_getElem hlt]

/-- A symbol keeps its name while names are put in. -/
theorem name?_internAll (h : t.name? s = some n) (l : List String) :
    (t.internAll l).name? s = some n := by
  induction l generalizing t with
  | nil => exact h
  | cons name l ih => exact ih (name?_intern h name)

theorem size_le_internAll (t : NameTable) (l : List String) : t.size ≤ (t.internAll l).size := by
  by_contra hlt
  have hlast : (t.internAll l).size < t.size := by omega
  obtain ⟨n, hn⟩ := Option.isSome_iff_exists.1 (name?_isSome (s := ⟨(t.internAll l).size⟩).2 hlast)
  have hkept := name?_eq_some (name?_internAll hn l)
  simp at hkept

/-! ## Reading names back -/

theorem name?_restore_self (t : NameTable) {e : Nat × String} (he : e.1 ≠ 0) :
    (t.restore e).name? ⟨e.1⟩ = some e.2 := by
  have hlt : e.1 < t.names.size + (e.1 + 1 - t.names.size) := by omega
  simp [restore, he, name?, hlt]

theorem name?_restore_of_ne {e : Nat × String} (hne : s.id ≠ e.1) (h : t.name? s = some n) :
    (t.restore e).name? s = some n := by
  by_cases he : e.1 = 0
  · simpa [restore, he] using h
  · obtain ⟨hlt, hget⟩ := Array.getElem?_eq_some_iff.1 h
    simp [restore, he, name?, Ne.symm hne, Array.getElem?_append, hlt, hget]

theorem size_restore_le {e : Nat × String} {k : Nat} (ht : t.size ≤ k) (he : e.1 < k) :
    (t.restore e).size ≤ k := by
  by_cases h0 : e.1 = 0
  · simpa [restore, h0] using ht
  · simp only [size] at ht
    simp only [restore, h0, if_false, size, Array.size_setIfInBounds, Array.size_append,
      Array.size_replicate]
    omega

section

variable {l : List (Nat × String)}

/-- A saved name is read back under its number. -/
theorem name?_ofEntries (hkeys : (l.map (·.1)).Nodup) (hs : s.id ≠ 0) (h : (s.id, n) ∈ l) :
    (ofEntries l).name? s = some n := by
  induction l using List.reverseRecOn with
  | nil => simp at h
  | append_singleton l e ih =>
    rw [List.map_append, List.nodup_append] at hkeys
    rw [ofEntries, List.foldl_concat, ← ofEntries]
    rcases List.mem_append.1 h with h | h
    · refine name?_restore_of_ne (fun he => ?_) (ih hkeys.1 h)
      exact hkeys.2.2 s.id (List.mem_map.2 ⟨_, h, rfl⟩) e.1 (by simp) he
    · obtain rfl := List.mem_singleton.1 h
      exact name?_restore_self _ hs

theorem name?_ofEntries_empty (l : List (Nat × String)) :
    (ofEntries l).name? .empty = some "" := by
  induction l using List.reverseRecOn with
  | nil => rfl
  | append_singleton l e ih =>
    rw [ofEntries, List.foldl_concat, ← ofEntries]
    by_cases he : e.1 = 0
    · rw [restore, if_pos he]
      exact ih
    · exact name?_restore_of_ne (Ne.symm he) ih

theorem size_ofEntries_le {k : Nat} (h : ∀ e ∈ l, e.1 < k) (hk : 0 < k) :
    (ofEntries l).size ≤ k := by
  induction l using List.reverseRecOn with
  | nil => exact hk
  | append_singleton l e ih =>
    rw [ofEntries, List.foldl_concat, ← ofEntries]
    exact size_restore_le (ih fun e he => h e (by simp [he])) (h e (by simp))

end

/-! ## Saving names -/

theorem mem_entries_iff {e : Nat × String} :
    e ∈ t.entries ↔ e.1 ≠ 0 ∧ t.name? ⟨e.1⟩ = some e.2 := by
  have key : ∀ l : List String, (e.2, e.1) ∈ l.zipIdx.drop 1 ↔ e.1 ≠ 0 ∧ l[e.1]? = some e.2 := by
    intro l
    cases l with
    | nil => simp
    | cons a l =>
      rw [List.zipIdx_cons, List.drop_succ_cons, List.drop_zero,
        List.mem_zipIdx_iff_le_and_getElem?_sub]
      cases h : e.1 with
      | zero => simp
      | succ i => simp
  rw [name?, ← Array.getElem?_toList, ← key, entries, List.mem_map]
  constructor
  · intro h
    obtain ⟨p, hp, rfl⟩ := h
    exact hp
  · intro h
    exact ⟨_, h, rfl⟩

/-- Saving a table puts its names over those saved before. -/
theorem get?_saveNames (saved : Table String) (t : NameTable) (s : Symbol) :
    (saveNames saved t).get? s =
      if s.id ≠ 0 ∧ s.id < t.size then t.name? s else saved.get? s := by
  have key : ∀ (l : List (Nat × String)), (∀ e ∈ l, t.name? ⟨e.1⟩ = some e.2) →
      ∀ saved : Table String, (l.foldl (fun t e => t.insert ⟨e.1⟩ e.2) saved).get? s =
        if ∃ e ∈ l, e.1 = s.id then t.name? s else saved.get? s := by
    intro l
    induction l with
    | nil => simp
    | cons e l ih =>
      intro h saved
      obtain ⟨he, hl⟩ := List.forall_mem_cons.1 h
      rw [List.foldl_cons, ih hl, Table.get?_insert]
      by_cases hlater : ∃ e ∈ l, e.1 = s.id
      · simp [hlater]
      · by_cases hs : e.1 = s.id
        · have hname : t.name? s = some e.2 := by
            rw [← he]
            exact congrArg _ (Symbol.ext_iff_id.2 hs.symm)
          simp [hlater, hs, hname]
        · have hkey : (⟨e.1⟩ : Symbol) ≠ s := fun h => hs (congrArg Symbol.id h)
          simp [hlater, hs, hkey]
  rw [saveNames, key t.entries fun e he => (mem_entries_iff.1 he).2]
  have hiff : (∃ e ∈ t.entries, e.1 = s.id) ↔ s.id ≠ 0 ∧ s.id < t.size := by
    constructor
    · intro h
      obtain ⟨e, he, hs⟩ := h
      obtain ⟨hne, hname⟩ := mem_entries_iff.1 he
      exact ⟨hs ▸ hne, hs ▸ name?_eq_some hname⟩
    · intro h
      obtain ⟨n, hn⟩ := Option.isSome_iff_exists.1 (name?_isSome.2 h.2)
      exact ⟨(s.id, n), mem_entries_iff.2 ⟨h.1, hn⟩, rfl⟩
  simp only [hiff]

theorem get?_saveNames_of_name? {saved : Table String} (hs : s ≠ .empty) (h : t.name? s = some n) :
    (saveNames saved t).get? s = some n := by
  have hne : s.id ≠ 0 := fun h0 => hs (Symbol.ext_iff_id.2 h0)
  rw [get?_saveNames, if_pos ⟨hne, name?_eq_some h⟩, h]

/-! ## What is saved of a table -/

/-- Saved names that are those of a table up to some number. -/
def Prefixes (saved : Table String) (t : NameTable) : Prop :=
  t.name? .empty = some "" ∧ ∃ k, k < t.size ∧
    ∀ s : Symbol, saved.get? s = if s.id ≠ 0 ∧ s.id ≤ k then t.name? s else none

variable {saved : Table String}

theorem prefixes_new : Prefixes .empty .new := by
  refine ⟨rfl, 0, by decide, fun s => ?_⟩
  have hno : ¬ (s.id ≠ 0 ∧ s.id ≤ 0) := by omega
  rw [if_neg hno, Table.get?_empty]

theorem Prefixes.internAll (h : Prefixes saved t) (l : List String) :
    Prefixes saved (t.internAll l) := by
  obtain ⟨hempty, k, hk, hsaved⟩ := h
  refine ⟨name?_internAll hempty l, k, hk.trans_le (size_le_internAll t l), fun s => ?_⟩
  rw [hsaved]
  split
  · rename_i hs
    obtain ⟨n, hn⟩ := Option.isSome_iff_exists.1 (name?_isSome.2 (hs.2.trans_lt hk))
    rw [hn, name?_internAll hn]
  · rfl

theorem Prefixes.save (h : Prefixes saved t) : Prefixes (saveNames saved t) t := by
  obtain ⟨hempty, k, hk, hsaved⟩ := h
  refine ⟨hempty, t.size - 1, by omega, fun s => ?_⟩
  rw [get?_saveNames, hsaved]
  by_cases hs : s.id ≠ 0 ∧ s.id < t.size
  · have hle : s.id ≠ 0 ∧ s.id ≤ t.size - 1 := ⟨hs.1, by omega⟩
    rw [if_pos hs, if_pos hle]
  · have hno : ¬ (s.id ≠ 0 ∧ s.id ≤ k) := by omega
    have hno' : ¬ (s.id ≠ 0 ∧ s.id ≤ t.size - 1) := by omega
    rw [if_neg hs, if_neg hno, if_neg hno']

end NameTable

/-! ## Reading back what was saved -/

namespace StoredGraph

variable {g : StoredGraph} {s : Symbol} {n : String}

private theorem mem_numbered :
    (s.id, n) ∈ g.names.entries.map (fun e => (e.1.id, e.2)) ↔ g.names.get? s = some n := by
  rw [← Table.mem_entries (e := (s, n)), List.mem_map]
  constructor
  · intro h
    obtain ⟨e, he, hsn⟩ := h
    obtain ⟨hid, rfl⟩ := Prod.mk.inj hsn
    rwa [← Symbol.ext_iff_id.2 hid]
  · intro h
    exact ⟨_, h, rfl⟩

/-- A saved name is read back. -/
theorem name?_nameTable (hs : s.id ≠ 0) (h : g.names.get? s = some n) :
    g.nameTable.name? s = some n := by
  refine NameTable.name?_ofEntries ?_ hs (mem_numbered.2 h)
  rw [List.map_map, List.nodup_iff_pairwise_ne, List.pairwise_map]
  exact g.names.ordered.imp fun h => by simpa using h.ne

theorem name?_nameTable_empty (g : StoredGraph) : g.nameTable.name? .empty = some "" :=
  NameTable.name?_ofEntries_empty _

theorem size_nameTable_le {k : Nat} (h : ∀ s n, g.names.get? s = some n → s.id ≤ k) :
    g.nameTable.size ≤ k + 1 :=
  NameTable.size_ofEntries_le
    (fun e he => Nat.lt_succ_of_le (h ⟨e.1⟩ e.2 (mem_numbered.1 he))) k.succ_pos

end StoredGraph

namespace NameTable

variable {t : NameTable} {saved : Table String}

/-- A table read back has the saved names, and none but these. -/
theorem Prefixes.name?_readBack (h : Prefixes saved t) (g : Graph) (s : Symbol) (n : String) :
    (StoredGraph.nameTable ⟨saved, g⟩).name? s = some n ↔
      s = .empty ∧ n = "" ∨ saved.get? s = some n := by
  obtain ⟨-, k, hk, hsaved⟩ := h
  constructor
  · intro hn
    have hsize : (StoredGraph.nameTable ⟨saved, g⟩).size ≤ k + 1 := by
      refine StoredGraph.size_nameTable_le fun s n hget => ?_
      by_contra hle
      simp [hsaved, hle] at hget
    by_cases h0 : s.id = 0
    · obtain rfl : s = .empty := Symbol.ext_iff_id.2 h0
      have hempty := (StoredGraph.name?_nameTable_empty ⟨saved, g⟩).symm.trans hn
      exact .inl ⟨rfl, (Option.some.inj hempty).symm⟩
    · -- up to `k` no number is skipped
      have hle : s.id ≤ k := by
        have hlt := name?_eq_some hn
        omega
      obtain ⟨n', hn'⟩ := Option.isSome_iff_exists.1 (name?_isSome.2 (hle.trans_lt hk))
      have hget : saved.get? s = some n' := by rw [hsaved, if_pos ⟨h0, hle⟩, hn']
      have hback := StoredGraph.name?_nameTable (g := ⟨saved, g⟩) h0 hget
      exact .inr (hget.trans (hback.symm.trans hn))
  · intro hn
    rcases hn with ⟨rfl, rfl⟩ | hn
    · exact StoredGraph.name?_nameTable_empty _
    · have hs : s.id ≠ 0 := by
        intro h0
        simp [hsaved, h0] at hn
      exact StoredGraph.name?_nameTable hs hn

/-- The saved names are those of the table read back, up to the same number. -/
theorem Prefixes.readBack (h : Prefixes saved t) (g : Graph) :
    Prefixes saved (StoredGraph.nameTable ⟨saved, g⟩) := by
  have hback := h.name?_readBack g
  obtain ⟨-, k, hk, hsaved⟩ := h
  have hfull : ∀ s : Symbol, s.id ≠ 0 ∧ s.id ≤ k →
      ∃ n, saved.get? s = some n ∧ (StoredGraph.nameTable ⟨saved, g⟩).name? s = some n := by
    intro s hs
    obtain ⟨n, hn⟩ := Option.isSome_iff_exists.1 (name?_isSome.2 (hs.2.trans_lt hk))
    have hget : saved.get? s = some n := by rw [hsaved, if_pos hs, hn]
    exact ⟨n, hget, (hback s n).2 (.inr hget)⟩
  have hempty := StoredGraph.name?_nameTable_empty ⟨saved, g⟩
  have hlast : k < (StoredGraph.nameTable ⟨saved, g⟩).size := by
    by_cases h0 : k = 0
    · rw [h0]
      exact name?_eq_some hempty
    · obtain ⟨n, -, hn⟩ := hfull ⟨k⟩ ⟨h0, le_rfl⟩
      exact name?_eq_some hn
  refine ⟨hempty, k, hlast, fun s => ?_⟩
  split
  · rename_i hs
    obtain ⟨n, hget, hn⟩ := hfull s hs
    rw [hget, hn]
  · rename_i hs
    rw [hsaved, if_neg hs]

end NameTable

end ClassImpact

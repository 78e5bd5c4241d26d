import Mathlib
import ClassImpact.Proofs.SavedNames

/-!
# Tables exported and read back

A table is exported as the list of its names under their numbers, and a table is read back from
such a list.  What is exported are all names behind the first one, the names of the gaps among
them; so the table read back has the names of the exported one, number by number.

Looking a name up is another matter.  In a table that grew by interning and by reading lists of
distinct names, a name leads to the first symbol that has it, and only the empty name is had by
more than one: by the gaps.  Reading back lets a later entry take a name over from an earlier
one.  There a name leads to the last symbol that has it, and with the first gap the empty name
is lost to it.

## Main results

* `NameTable.Grown.coherent`: look-up and names turn each other around in tables that grew
* `NameTable.lookup_restored_iff`: what a table read back finds
* `NameTable.restored_iff`: where a table read back answers like the exported one
-/

namespace ClassImpact

namespace NameTable

variable {t u : NameTable} {s s' : Symbol} {n : String}

/-! ## Tables that answer alike -/

/-- Two tables that give the same answers. -/
structure Alike (t u : NameTable) : Prop where
  lookup : ∀ n, t.lookup n = u.lookup n
  name? : ∀ s, t.name? s = u.name? s
  size : t.size = u.size
  intern : ∀ n, (t.intern n).1 = (u.intern n).1

theorem fst_intern (t : NameTable) (n : String) :
    (t.intern n).1 = (t.lookup n).getD ⟨t.size⟩ := by
  cases h : t.lookup n with
  | some s => simp [intern_of_lookup h]
  | none => simp [intern_of_lookup_none h]

/-- The size of a table is told by the symbols that have a name. -/
theorem size_eq_of_name? (h : ∀ s, (t.name? s).isSome = (u.name? s).isSome) : t.size = u.size := by
  have hlt : ∀ i, i < t.size ↔ i < u.size := by
    intro i
    rw [← name?_isSome (s := ⟨i⟩), ← name?_isSome (s := ⟨i⟩), h]
  have ht := hlt t.size
  have hu := hlt u.size
  omega

/-- What an answer to `intern` is made of. -/
theorem alike_of_lookup_of_name? (hlookup : ∀ n, t.lookup n = u.lookup n)
    (hname : ∀ s, t.name? s = u.name? s) : t.Alike u := by
  have hsize : t.size = u.size := size_eq_of_name? fun s => by rw [hname]
  exact ⟨hlookup, hname, hsize, fun n => by rw [fst_intern, fst_intern, hlookup, hsize]⟩

/-! ## A name put in -/

/-- A new name is the last one. -/
theorem name?_intern_of_new (h : t.lookup n = none) (s : Symbol) :
    (t.intern n).2.name? s = if s.id = t.size then some n else t.name? s := by
  rw [intern_of_lookup_none h]
  exact Array.getElem?_push

theorem lookup_intern_of_new (h : t.lookup n = none) (m : String) :
    (t.intern n).2.lookup m = if m = n then some ⟨t.size⟩ else t.lookup m := by
  rw [intern_of_lookup_none h, lookup, List.lookup_cons]
  by_cases hm : m = n
  · simp [hm]
  · simp [hm, beq_false_of_ne hm, lookup]

/-- Tables that answer alike do so after interning a name. -/
theorem Alike.interned (h : t.Alike u) (n : String) : (t.intern n).2.Alike (u.intern n).2 := by
  cases ht : t.lookup n with
  | some s =>
    rw [intern_of_lookup ht, intern_of_lookup ((h.lookup n).symm.trans ht)]
    exact h
  | none =>
    have hu : u.lookup n = none := (h.lookup n).symm.trans ht
    apply alike_of_lookup_of_name?
    · intro m
      rw [lookup_intern_of_new ht, lookup_intern_of_new hu, h.size, h.lookup]
    · intro s
      rw [name?_intern_of_new ht, name?_intern_of_new hu, h.size, h.name?]

theorem Alike.internedAll (h : t.Alike u) (l : List String) :
    (t.internAll l).Alike (u.internAll l) := by
  induction l generalizing t u with
  | nil => exact h
  | cons n l ih => exact ih (h.interned n)

/-! ## Tables that grew -/

/-- Saved names with their numbers: none of them empty, none under the number of the empty
name, and nothing twice. -/
structure Distinct (saved : List (Nat × String)) : Prop where
  numbers : (saved.map (·.1)).Nodup
  names : (saved.map (·.2)).Nodup
  numbered : ∀ e ∈ saved, e.1 ≠ 0
  named : ∀ e ∈ saved, e.2 ≠ ""

/-- The tables that interning leads to, and taking in their place tables read back from distinct
names. -/
inductive Grown : NameTable → Prop where
  | new : Grown .new
  | intern {t : NameTable} (h : Grown t) (n : String) : Grown (t.intern n).2
  | readBack {saved : List (Nat × String)} (h : Distinct saved) : Grown (.ofEntries saved)

/-- Look-up and names turn each other around.  Of the symbols that have the empty name, the
first is found. -/
structure Coherent (t : NameTable) : Prop where
  empty : t.name? .empty = some ""
  lookup : ∀ n s, t.lookup n = some s ↔ t.name? s = some n ∧ (n = "" → s = .empty)

theorem name?_new_eq_some_iff : NameTable.new.name? s = some n ↔ s = .empty ∧ n = "" := by
  cases hs : s.id <;> simp [name?, new, hs, Symbol.ext_iff_id, Symbol.empty, eq_comm]

theorem coherent_new : Coherent .new where
  empty := rfl
  lookup n s := by
    rw [lookup_new, name?_new_eq_some_iff]
    by_cases hn : n = "" <;> simp [hn, eq_comm]

theorem Coherent.lookup_empty (h : t.Coherent) : t.lookup "" = some .empty :=
  (h.lookup _ _).2 ⟨h.empty, fun _ => rfl⟩

/-- A name other than the empty one is had by one symbol at most. -/
theorem Coherent.unique (h : t.Coherent) (hn : n ≠ "") (hs : t.name? s = some n)
    (hs' : t.name? s' = some n) : s = s' := by
  have hfound := (h.lookup n s).2 ⟨hs, fun he => absurd he hn⟩
  have hfound' := (h.lookup n s').2 ⟨hs', fun he => absurd he hn⟩
  exact Option.some.inj (hfound.symm.trans hfound')

/-- **Interning keeps a table coherent.** -/
theorem Coherent.intern (h : t.Coherent) (n : String) : (t.intern n).2.Coherent := by
  cases hl : t.lookup n with
  | some s =>
    rw [intern_of_lookup hl]
    exact h
  | none =>
    have hn : n ≠ "" := by
      intro he
      simp [he, h.lookup_empty] at hl
    have hnew : ∀ s, t.name? s ≠ some n := by
      intro s hs
      have hfound := (h.lookup n s).2 ⟨hs, fun he => absurd he hn⟩
      simp [hl] at hfound
    have hlast : t.name? ⟨t.size⟩ = none := by simp [name?, size]
    refine ⟨name?_intern h.empty n, fun m s => ?_⟩
    rw [lookup_intern_of_new hl, name?_intern_of_new hl]
    by_cases hm : m = n
    · by_cases hs : s.id = t.size
      · simp [hm, hs, hn, Symbol.ext_iff_id]
      · simp [hm, hs, hnew, Symbol.ext_iff_id, Ne.symm hs]
    · by_cases hs : s.id = t.size
      · have hnone : t.name? s = none := by rw [← hlast, ← hs]
        simp [hm, hs, h.lookup, hnone, Ne.symm hm]
      · simp [hm, hs, h.lookup]

/-! ## Names read back -/

/-- A symbol of a table to which a saved name was added had its name before, or is a gap, or is the
one whose name was added. -/
theorem name?_of_restore {e : Nat × String} (h : (t.restore e).name? s = some n) :
    t.name? s = some n ∨ n = "" ∨ s.id = e.1 ∧ e.2 = n := by
  by_cases he : e.1 = 0
  · left
    simpa [restore, he] using h
  · by_cases hs : s.id = e.1
    · right; right
      have hself := name?_restore_self t he
      rw [← hs] at hself
      exact ⟨hs, Option.some.inj (hself.symm.trans h)⟩
    · cases hname : t.name? s with
      | some m => exact .inl ((name?_restore_of_ne hs hname).symm.trans h)
      | none =>
        have hge : t.names.size ≤ s.id := by simpa [name?] using hname
        have hgap :
            (Array.replicate (e.1 + 1 - t.names.size) "")[s.id - t.names.size]? = some n := by
          simpa [restore, he, name?, Ne.symm hs, Array.getElem?_append, hge] using h
        rw [Array.getElem?_replicate] at hgap
        split at hgap
        · exact .inr (.inl (Option.some.inj hgap).symm)
        · cases hgap

/-- The bindings of a table read back, the newest first. -/
theorem symbols_ofEntries {l : List (Nat × String)} (h : ∀ e ∈ l, e.1 ≠ 0) :
    (ofEntries l).symbols = (l.map fun e => (e.2, ⟨e.1⟩)).reverse ++ [("", Symbol.empty)] := by
  induction l using List.reverseRecOn with
  | nil => rfl
  | append_singleton l e ih =>
    have he : e.1 ≠ 0 := h e (by simp)
    have hl := ih fun e' he' => h e' (by simp [he'])
    rw [ofEntries, List.foldl_concat, ← ofEntries, restore, if_neg he]
    simp [hl]

theorem mem_symbols_ofEntries {l : List (Nat × String)} (h : ∀ e ∈ l, e.1 ≠ 0) :
    (n, s) ∈ (ofEntries l).symbols ↔ (s.id, n) ∈ l ∨ n = "" ∧ s = .empty := by
  rw [symbols_ofEntries h, List.mem_append, List.mem_reverse, List.mem_map, List.mem_singleton,
    Prod.mk.injEq]
  refine or_congr ⟨?_, fun hmem => ⟨_, hmem, rfl⟩⟩ Iff.rfl
  intro ⟨e, he, hns⟩
  obtain ⟨rfl, rfl⟩ := Prod.mk.inj hns
  exact he

/-- A look-up gives the newest binding of a name. -/
theorem lookup_eq_some_iff :
    t.lookup n = some s ↔ ∃ newer older, t.symbols = newer ++ (n, s) :: older ∧
      ∀ e ∈ newer, e.1 ≠ n := by
  simp only [lookup, List.lookup_eq_some_iff, bne_iff_ne, ne_comm]

theorem mem_symbols_of_lookup (h : t.lookup n = some s) : (n, s) ∈ t.symbols := by
  obtain ⟨newer, older, hsplit, -⟩ := lookup_eq_some_iff.1 h
  simp [hsplit]

/-- A name with a binding is found. -/
theorem exists_lookup_of_mem (h : (n, s) ∈ t.symbols) : ∃ s', t.lookup n = some s' := by
  cases hl : t.lookup n with
  | some s' => exact ⟨s', rfl⟩
  | none =>
    have hno := List.lookup_eq_none_iff.1 hl (n, s) h
    simp at hno

/-- A name other than the empty one was read back under its number. -/
theorem mem_of_name?_ofEntries {l : List (Nat × String)} (hn : n ≠ "")
    (h : (ofEntries l).name? s = some n) : (s.id, n) ∈ l := by
  induction l using List.reverseRecOn with
  | nil => exact absurd (name?_new_eq_some_iff.1 h).2 hn
  | append_singleton l e ih =>
    rw [ofEntries, List.foldl_concat, ← ofEntries] at h
    rcases name?_of_restore h with h | rfl | ⟨hs, rfl⟩
    · simp [ih h]
    · contradiction
    · simp [hs]

/-- **Distinct names make a coherent table.** -/
theorem coherent_ofEntries {saved : List (Nat × String)} (h : Distinct saved) :
    (ofEntries saved).Coherent where
  empty := name?_ofEntries_empty saved
  lookup n s := by
    have hmem := mem_symbols_ofEntries (n := n) (s := s) h.numbered
    constructor
    · intro hfound
      rcases hmem.1 (mem_symbols_of_lookup hfound) with hs | ⟨rfl, rfl⟩
      · exact ⟨name?_ofEntries h.numbers (h.numbered _ hs) hs, fun hn => absurd hn (h.named _ hs)⟩
      · exact ⟨name?_ofEntries_empty saved, fun _ => rfl⟩
    · intro ⟨hname, hempty⟩
      have hs : (n, s) ∈ (ofEntries saved).symbols := by
        by_cases hn : n = ""
        · exact hmem.2 (.inr ⟨hn, hempty hn⟩)
        · exact hmem.2 (.inl (mem_of_name?_ofEntries hn hname))
      obtain ⟨s', hfound⟩ := exists_lookup_of_mem hs
      -- a name has one binding
      have hs' := mem_symbols_of_lookup hfound
      rw [mem_symbols_ofEntries h.numbered] at hs hs'
      rw [hfound]
      rcases hs with hs | ⟨rfl, rfl⟩
      · rcases hs' with hs' | ⟨rfl, rfl⟩
        · have hsame := List.inj_on_of_nodup_map h.names hs' hs rfl
          simpa [Symbol.ext_iff_id] using hsame
        · exact absurd rfl (h.named _ hs)
      · rcases hs' with hs' | ⟨-, rfl⟩
        · exact absurd rfl (h.named _ hs')
        · rfl

/-- **Interning and reading back keep a table coherent**, in any number and order. -/
theorem Grown.coherent (h : t.Grown) : t.Coherent := by
  induction h with
  | new => exact coherent_new
  | intern _ n ih => exact ih.intern n
  | readBack h => exact coherent_ofEntries h

/-! ## A table exported and read back -/

/-- The exported names come by ascending numbers. -/
theorem ascending_entries (t : NameTable) : t.entries.Pairwise fun e e' => e.1 < e'.1 := by
  rw [entries, List.pairwise_map]
  refine List.Pairwise.drop (List.pairwise_iff_getElem.2 fun i j hi hj hij => ?_)
  simpa using hij

theorem numbered_entries (t : NameTable) : ∀ e ∈ t.entries, e.1 ≠ 0 :=
  fun _ he => (mem_entries_iff.1 he).1

/-- **A table read back has the names of the exported one.** -/
theorem name?_restored (h : t.name? .empty = some "") (s : Symbol) :
    (ofEntries t.entries).name? s = t.name? s := by
  cases hname : t.name? s with
  | some n =>
    by_cases h0 : s.id = 0
    · obtain rfl : s = .empty := Symbol.ext_iff_id.2 h0
      rw [name?_ofEntries_empty, ← hname, h]
    · have hnumbers : (t.entries.map (·.1)).Nodup := by
        rw [List.nodup_iff_pairwise_ne, List.pairwise_map]
        exact t.ascending_entries.imp Nat.ne_of_lt
      exact name?_ofEntries hnumbers h0 (mem_entries_iff.2 ⟨h0, hname⟩)
  | none =>
    have hsize : (ofEntries t.entries).size ≤ t.size :=
      size_ofEntries_le (fun e he => name?_eq_some (mem_entries_iff.1 he).2) (name?_eq_some h)
    have hge : t.size ≤ s.id := by
      by_contra hlt
      have hsome := name?_isSome (t := t) (s := s).2 (by omega)
      simp [hname] at hsome
    cases hback : (ofEntries t.entries).name? s with
    | none => rfl
    | some n =>
      have hlt := name?_eq_some hback
      omega

/-- The bindings of a table read back: each symbol under its name. -/
theorem mem_symbols_restored (h : t.name? .empty = some "") :
    (n, s) ∈ (ofEntries t.entries).symbols ↔ t.name? s = some n := by
  rw [mem_symbols_ofEntries t.numbered_entries, mem_entries_iff]
  by_cases h0 : s.id = 0
  · obtain rfl : s = .empty := Symbol.ext_iff_id.2 h0
    simp [h, eq_comm]
  · have hne : s ≠ .empty := fun he => h0 (Symbol.ext_iff_id.1 he)
    simp [h0, hne]

/-- The later a symbol was read back, the larger is its number. -/
theorem descending_symbols_restored (t : NameTable) :
    (ofEntries t.entries).symbols.Pairwise fun b b' => b'.2.id < b.2.id := by
  rw [symbols_ofEntries t.numbered_entries, List.pairwise_append, List.pairwise_reverse,
    List.pairwise_map]
  refine ⟨t.ascending_entries, by simp, ?_⟩
  intro b hb b' hb'
  obtain ⟨e, he, rfl⟩ := List.mem_map.1 (List.mem_reverse.1 hb)
  obtain rfl := List.mem_singleton.1 hb'
  exact Nat.pos_of_ne_zero (t.numbered_entries e he)

/-- **What a table read back finds**: of the symbols that have a name, the last one. -/
theorem lookup_restored_iff (h : t.name? .empty = some "") :
    (ofEntries t.entries).lookup n = some s ↔
      t.name? s = some n ∧ ∀ s', t.name? s' = some n → s'.id ≤ s.id := by
  have hlast : ∀ s, (ofEntries t.entries).lookup n = some s →
      ∀ s', t.name? s' = some n → s'.id ≤ s.id := by
    intro s hs s' hs'
    obtain ⟨newer, older, hsplit, hnewer⟩ := lookup_eq_some_iff.1 hs
    have hdescending := t.descending_symbols_restored
    have hmem := (mem_symbols_restored h).2 hs'
    rw [hsplit] at hdescending hmem
    rcases List.mem_append.1 hmem with hmem | hmem
    · exact absurd rfl (hnewer _ hmem)
    · rcases List.mem_cons.1 hmem with heq | hmem
      · exact (congrArg (fun b => b.2.id) heq).le
      · have hbelow := (List.pairwise_cons.1 (List.pairwise_append.1 hdescending).2.1).1 _ hmem
        exact hbelow.le
  constructor
  · intro hs
    exact ⟨(mem_symbols_restored h).1 (mem_symbols_of_lookup hs), hlast s hs⟩
  · intro ⟨hs, hgreatest⟩
    obtain ⟨s', hfound⟩ := exists_lookup_of_mem ((mem_symbols_restored h).2 hs)
    have hname := (mem_symbols_restored h).1 (mem_symbols_of_lookup hfound)
    have hle := hgreatest s' hname
    have hge := hlast s' hfound s hs
    rw [hfound, Symbol.ext_iff_id.2 (Nat.le_antisymm hle hge)]

theorem Coherent.lookup_restored (h : t.Coherent) (hn : n ≠ "") :
    (ofEntries t.entries).lookup n = t.lookup n := by
  ext s
  rw [lookup_restored_iff h.empty, h.lookup]
  refine and_congr_right fun hs => iff_of_true (fun s' hs' => ?_) fun he => absurd he hn
  rw [h.unique hn hs' hs]

/-- The empty name is found as before where nothing else has it. -/
theorem Coherent.lookup_empty_restored_iff (h : t.Coherent) :
    (ofEntries t.entries).lookup "" = t.lookup "" ↔ ∀ s, t.name? s = some "" → s = .empty := by
  rw [h.lookup_empty, lookup_restored_iff h.empty, and_iff_right h.empty]
  refine forall_congr' fun s => imp_congr_right fun _ => ?_
  rw [Symbol.ext_iff_id]
  exact Nat.le_zero

/-- **Exporting and reading back**: a table read back has the symbols and the names of a table
that grew, and finds every name but the empty one as before.  The empty name leads to the last
symbol that has it.  So the table read back answers in everything like the exported one, then
and after interning more names, exactly when that one has no gap. -/
theorem restored_iff (h : t.Grown) :
    let u := ofEntries t.entries
    (∀ s, u.name? s = t.name? s) ∧ u.size = t.size ∧
      (∀ n, n ≠ "" → u.lookup n = t.lookup n ∧ (u.intern n).1 = (t.intern n).1) ∧
      (∀ s, u.lookup "" = some s ↔
        t.name? s = some "" ∧ ∀ s', t.name? s' = some "" → s'.id ≤ s.id) ∧
      ((∀ l, (u.internAll l).Alike (t.internAll l)) ↔ ∀ s, t.name? s = some "" → s = .empty) := by
  intro u
  have hc := h.coherent
  have hname : ∀ s, u.name? s = t.name? s := name?_restored hc.empty
  have hsize : u.size = t.size := size_eq_of_name? fun s => by rw [hname]
  have hlookup : ∀ n, n ≠ "" → u.lookup n = t.lookup n := fun n hn => hc.lookup_restored hn
  refine ⟨hname, hsize, fun n hn => ⟨hlookup n hn, ?_⟩, fun s => lookup_restored_iff hc.empty, ?_⟩
  · rw [fst_intern, fst_intern, hlookup n hn, hsize]
  · rw [← hc.lookup_empty_restored_iff]
    constructor
    · intro halike
      exact (halike []).lookup ""
    · intro hempty l
      refine (alike_of_lookup_of_name? (fun n => ?_) hname).internedAll l
      by_cases hn : n = ""
      · rw [hn]
        exact hempty
      · exact hlookup n hn

/-! ## Tables with and without a gap -/

namespace Gap

/-- A table of two names, read back in the order of the names, and a third one. -/
def filled : NameTable := ((ofEntries [(2, "p/A"), (1, "p/B")]).intern "p/C").2

theorem grown_filled : filled.Grown :=
  .intern (.readBack ⟨by decide, by decide, by decide, by decide⟩) "p/C"

/-- Whatever names are interned later, the table read back answers like the exported one. -/
theorem filled_restored :
    filled.Grown ∧ ∀ l, ((ofEntries filled.entries).internAll l).Alike (filled.internAll l) := by
  have hfull : ∀ s, filled.name? s = some "" → s = .empty := by
    intro s hs
    have hlt : s.id < 4 := name?_eq_some hs
    have hfour : ∀ i : Fin 4, filled.name? ⟨i⟩ = some "" → i = 0 := by decide
    exact Symbol.ext_iff_id.2 (Fin.val_eq_of_eq (hfour ⟨s.id, hlt⟩ hs))
  exact ⟨grown_filled, (restored_iff grown_filled).2.2.2.2.2 hfull⟩

/-- A table of one name, with a gap before it. -/
def gapped : NameTable := ofEntries [(2, "p/A")]

/-- The empty name leads to the gap in the table read back, and the tables do not answer
alike. -/
theorem gapped_not_restored :
    gapped.Grown ∧ gapped.lookup "" = some .empty ∧
      (ofEntries gapped.entries).lookup "" = some ⟨1⟩ ∧
      ¬ (ofEntries gapped.entries).Alike gapped := by
  have hgap : (ofEntries gapped.entries).lookup "" = some ⟨1⟩ := by decide
  refine ⟨.readBack ⟨by decide, by decide, by decide, by decide⟩, by decide, hgap, fun h => ?_⟩
  have hfound := h.lookup ""
  rw [hgap] at hfound
  exact absurd hfound (by decide)

end Gap

end NameTable

end ClassImpact

import Mathlib
import ClassImpact.Change.ClassChange

/-!
# Laws of patches

A patch pairs the values of two collections by identity.  If neither collection repeats an
identity, then each identity of either one has a single place: among the added values, the
removed or the changed ones, or among those that stay because `compare` takes both shapes for
equal.  Everything else about a patch follows from what these four places hold.

A value that stays is not brought up to date.  A collection that a patch is applied to stands
for the new one only as far as `compare` can tell.

## Main results

* `Patch.accounts_between`: every identity has one place
* `Patch.standsFor_applyTo`: what a patch makes of the collection it starts from
* `Patch.sameEntries_reverse`: the patch that leads back
* `Patch.fromRecorded_exact`: all of this, for a past that may not be recorded
-/

namespace ClassImpact

open Identified (ident)

/-- A change seen from its other side. -/
def Changed.swap {α δ : Type} (e : Changed α δ) : Changed α δ := ⟨e.now, e.past, e.diff⟩

@[simp] theorem Changed.swap_swap {α δ : Type} (e : Changed α δ) : e.swap.swap = e := rfl

namespace Patch

variable {α κ δ : Type}

/-- The patch that leads back. -/
def reverse (p : Patch α δ) : Patch α δ := ⟨p.removed, p.added, p.changed.map Changed.swap⟩

/-- Two patches with the same entries, in whatever order. -/
structure SameEntries (p q : Patch α δ) : Prop where
  added : p.added.Perm q.added
  removed : p.removed.Perm q.removed
  changed : p.changed.Perm q.changed

variable [Identified α κ]

/-- The identities that a patch tells of. -/
def idents (p : Patch α δ) : List κ :=
  p.added.map ident ++ p.removed.map ident ++ p.changed.map fun e => ident e.now

variable [DecidableEq κ]

/-- The values of the past that stay as they are. -/
def untouched (compare : α → α → Option δ) (past now : List α) : List α :=
  past.filter fun b => (partner? now b).any fun a => (compare b a).isNone

/-- A collection after a patch: without the removed values and the past shapes of the changed
ones, with the added values and the new shapes. -/
def applyTo (p : Patch α δ) (past : List α) : List α :=
  past.filter (fun b => ident b ∉ (p.removed ++ p.changed.map Changed.past).map ident) ++
    (p.added ++ p.changed.map Changed.now)

/-- The patch and the values that stay hold every identity of both sides, each of them once. -/
structure Accounts (compare : α → α → Option δ) (past now : List α) (p : Patch α δ) : Prop where
  once : (p.idents ++ (untouched compare past now).map ident).Nodup
  all : ∀ k, k ∈ p.idents ++ (untouched compare past now).map ident ↔
    k ∈ past.map ident ∨ k ∈ now.map ident
  added : ∀ a ∈ p.added, a ∈ now
  removed : ∀ b ∈ p.removed, b ∈ past
  changed : ∀ e ∈ p.changed, e.past ∈ past ∧ e.now ∈ now ∧ ident e.past = ident e.now ∧
    compare e.past e.now = some e.diff

/-- The collection has the identities of `now`, and for each of them a value of `now` or one of
`past` that is taken for equal. -/
structure StandsFor (compare : α → α → Option δ) (past now l : List α) : Prop where
  idents : (l.map ident).Perm (now.map ident)
  values : ∀ b ∈ l, b ∈ now ∨ b ∈ past ∧ ∃ a ∈ now, ident a = ident b ∧ compare b a = none

/-! ## What the parts of a patch hold -/

variable {compare : α → α → Option δ} {past now : List α} {k : κ}

/-- Where identities are distinct, a partner is any value of the same identity. -/
theorem partner?_eq_some_iff (hpast : (past.map ident).Nodup) {a b : α} :
    partner? past a = some b ↔ b ∈ past ∧ ident b = ident a := by
  refine ⟨partner?_eq_some, fun ⟨hb, hident⟩ => ?_⟩
  obtain ⟨c, hc⟩ := Option.isSome_iff_exists.1 (isSome_partner?.2 ⟨b, hb, hident⟩)
  obtain ⟨hmem, hsame⟩ := partner?_eq_some hc
  rw [hc, List.inj_on_of_nodup_map hpast hmem hb (hsame.trans hident.symm)]

/-- The added values of a patch: those with no value of their identity in the past. -/
theorem mem_added {a : α} :
    a ∈ (between compare past now).added ↔ a ∈ now ∧ ∀ b ∈ past, ident b ≠ ident a := by
  simp only [between, List.mem_filter, isNone_partner?]

/-- The removed values of a patch: those with no value of their identity now. -/
theorem mem_removed {b : α} :
    b ∈ (between compare past now).removed ↔ b ∈ past ∧ ∀ a ∈ now, ident a ≠ ident b := by
  simp only [between, List.mem_filter, isNone_partner?]

/-- The changed values of a patch: those that differ from the first one of their identity. -/
theorem mem_changed_iff {e : Changed α δ} :
    e ∈ (between compare past now).changed ↔
      e.now ∈ now ∧ partner? past e.now = some e.past ∧ compare e.past e.now = some e.diff := by
  obtain ⟨p, n, d⟩ := e
  simp only [between, change?, List.mem_filterMap, Option.bind_eq_some_iff,
    Option.map_eq_some_iff]
  constructor
  · rintro ⟨a, ha, b, hb, c, hc, he⟩
    cases he
    exact ⟨ha, hb, hc⟩
  · rintro ⟨hnow, hpast, hdiff⟩
    exact ⟨n, hnow, p, hpast, d, hdiff, rfl⟩

theorem mem_changed_of_nodup (hpast : (past.map ident).Nodup) {e : Changed α δ} :
    e ∈ (between compare past now).changed ↔
      e.past ∈ past ∧ e.now ∈ now ∧ ident e.past = ident e.now ∧
        compare e.past e.now = some e.diff := by
  rw [mem_changed_iff, partner?_eq_some_iff hpast]
  tauto

theorem mem_untouched (hnow : (now.map ident).Nodup) {b : α} :
    b ∈ untouched compare past now ↔
      b ∈ past ∧ ∃ a ∈ now, ident a = ident b ∧ compare b a = none := by
  simp only [untouched, List.mem_filter, Option.any_eq_true, partner?_eq_some_iff hnow,
    Option.isNone_iff_eq_none, and_assoc]

theorem mem_added_idents :
    k ∈ (between compare past now).added.map ident ↔ k ∈ now.map ident ∧ k ∉ past.map ident := by
  simp only [List.mem_map, mem_added, not_exists, not_and]
  constructor
  · rintro ⟨a, ⟨ha, hnew⟩, rfl⟩
    exact ⟨⟨a, ha, rfl⟩, hnew⟩
  · rintro ⟨⟨a, ha, rfl⟩, hnew⟩
    exact ⟨a, ⟨ha, hnew⟩, rfl⟩

/-- What a patch removes is what the way back adds. -/
theorem removed_eq_added : (between compare past now).removed =
    (between (fun a b => compare b a) now past).added := rfl

theorem mem_removed_idents :
    k ∈ (between compare past now).removed.map ident ↔
      k ∈ past.map ident ∧ k ∉ now.map ident := by
  rw [removed_eq_added, mem_added_idents]

variable (compare) in
/-- An identity that is added or removed is not one of both sides. -/
theorem not_shared (h : k ∈ (between compare past now).added.map ident ++
      (between compare past now).removed.map ident) :
    ¬ (k ∈ past.map ident ∧ k ∈ now.map ident) := by
  rintro ⟨hleft, hright⟩
  rcases List.mem_append.1 h with hnew | hgone
  · exact (mem_added_idents.1 hnew).2 hleft
  · exact (mem_removed_idents.1 hgone).2 hright

theorem mem_changed_idents (hpast : (past.map ident).Nodup) :
    k ∈ ((between compare past now).changed.map fun e => ident e.now) ↔
      ∃ b ∈ past, ∃ a ∈ now, ident b = k ∧ ident a = k ∧ compare b a ≠ none := by
  simp only [List.mem_map, mem_changed_of_nodup hpast, Option.ne_none_iff_exists']
  constructor
  · rintro ⟨e, ⟨hp, hn, hident, hdiff⟩, rfl⟩
    exact ⟨e.past, hp, e.now, hn, hident, rfl, e.diff, hdiff⟩
  · rintro ⟨b, hb, a, ha, hbk, rfl, d, hdiff⟩
    exact ⟨⟨b, a, d⟩, ⟨hb, ha, hbk, hdiff⟩, rfl⟩

theorem mem_untouched_idents (hnow : (now.map ident).Nodup) :
    k ∈ (untouched compare past now).map ident ↔
      ∃ b ∈ past, ∃ a ∈ now, ident b = k ∧ ident a = k ∧ compare b a = none := by
  simp only [List.mem_map, mem_untouched hnow]
  constructor
  · rintro ⟨b, ⟨hb, a, ha, hident, hsame⟩, rfl⟩
    exact ⟨b, hb, a, ha, rfl, hident, hsame⟩
  · rintro ⟨b, hb, a, ha, rfl, hident, hsame⟩
    exact ⟨b, ⟨hb, a, ha, hident, hsame⟩, rfl⟩

variable (compare) in
/-- An identity of both sides is that of a changed value or of one that stays. -/
theorem shared_iff (hpast : (past.map ident).Nodup) (hnow : (now.map ident).Nodup) :
    (k ∈ ((between compare past now).changed.map fun e => ident e.now) ∨
        k ∈ (untouched compare past now).map ident) ↔
      k ∈ past.map ident ∧ k ∈ now.map ident := by
  rw [mem_changed_idents hpast, mem_untouched_idents hnow]
  constructor
  · rintro (⟨b, hb, a, ha, hbk, hak, -⟩ | ⟨b, hb, a, ha, hbk, hak, -⟩) <;>
      exact ⟨List.mem_map.2 ⟨b, hb, hbk⟩, List.mem_map.2 ⟨a, ha, hak⟩⟩
  · rintro ⟨hleft, hright⟩
    obtain ⟨b, hb, hbk⟩ := List.mem_map.1 hleft
    obtain ⟨a, ha, hak⟩ := List.mem_map.1 hright
    by_cases hsame : compare b a = none
    · exact .inr ⟨b, hb, a, ha, hbk, hak, hsame⟩
    · exact .inl ⟨b, hb, a, ha, hbk, hak, hsame⟩

variable (compare) in
/-- It is not both: one pair of shapes decides. -/
theorem not_changed_and_untouched (hpast : (past.map ident).Nodup) (hnow : (now.map ident).Nodup)
    (hchanged : k ∈ ((between compare past now).changed.map fun e => ident e.now)) :
    k ∉ (untouched compare past now).map ident := by
  intro hstays
  obtain ⟨b, hb, a, ha, hbk, hak, hdiff⟩ := (mem_changed_idents hpast).1 hchanged
  obtain ⟨b', hb', a', ha', hbk', hak', hsame⟩ := (mem_untouched_idents hnow).1 hstays
  obtain rfl := List.inj_on_of_nodup_map hpast hb hb' (hbk.trans hbk'.symm)
  obtain rfl := List.inj_on_of_nodup_map hnow ha ha' (hak.trans hak'.symm)
  exact hdiff hsame

/-! ## Patches that say nothing -/

theorem isEmpty_between_iff {past now : List α} :
    (between compare past now).isEmpty = true ↔
      (∀ a ∈ now, ∃ b, partner? past a = some b ∧ compare b a = none) ∧
        ∀ b ∈ past, (partner? now b).isSome = true := by
  simp only [isEmpty, between, Bool.and_eq_true, List.isEmpty_iff, List.filter_eq_nil_iff,
    List.filterMap_eq_nil_iff, Option.isNone_iff_eq_none, change?]
  constructor
  · intro h
    obtain ⟨⟨hadded, hremoved⟩, hchanged⟩ := h
    refine ⟨fun a ha => ?_, fun b hb => Option.isSome_iff_ne_none.2 (hremoved b hb)⟩
    obtain ⟨b, hb⟩ := Option.ne_none_iff_exists'.1 (hadded a ha)
    refine ⟨b, hb, ?_⟩
    simpa [hb] using hchanged a ha
  · intro h
    obtain ⟨hnow, hpast⟩ := h
    refine ⟨⟨fun a ha hnone => ?_, fun b hb => Option.isSome_iff_ne_none.1 (hpast b hb)⟩,
      fun a ha => ?_⟩
    · obtain ⟨b, hb, -⟩ := hnow a ha
      simp [hb] at hnone
    · obtain ⟨b, hb, hc⟩ := hnow a ha
      simp [hb, hc]

/-- Where the past repeats no identity, nothing changed if and only if every value of either
side has one on the other side that is taken for equal. -/
theorem isEmpty_between_iff_of_nodup (hpast : (past.map ident).Nodup) :
    (between compare past now).isEmpty = true ↔
      (∀ a ∈ now, ∃ b ∈ past, ident b = ident a ∧ compare b a = none) ∧
        ∀ b ∈ past, ∃ a ∈ now, ident a = ident b ∧ compare b a = none := by
  simp only [isEmpty_between_iff, partner?_eq_some_iff hpast, isSome_partner?, and_assoc]
  refine and_congr_right fun hnow => forall₂_congr fun b hb => ⟨?_, ?_⟩
  · rintro ⟨a, ha, hident⟩
    obtain ⟨c, hc, hca, hsame⟩ := hnow a ha
    obtain rfl := List.inj_on_of_nodup_map hpast hc hb (hca.trans hident)
    exact ⟨a, ha, hident, hsame⟩
  · rintro ⟨a, ha, hident, -⟩
    exact ⟨a, ha, hident⟩

/-- A patch of membership says nothing where both sides have the same identities. -/
theorem isEmpty_ofMembers_iff_idents {past now : List α} :
    (ofMembers past now).isEmpty = true ↔ ∀ k, k ∈ past.map ident ↔ k ∈ now.map ident := by
  have hsome : ∀ (l : List α) a, (partner? l a).isSome = true ↔ ident a ∈ l.map ident :=
    fun l a => isSome_partner?.trans List.mem_map.symm
  simp only [ofMembers, isEmpty_between_iff, and_true, ← Option.isSome_iff_exists, hsome]
  rw [← List.forall_mem_map (P := fun k => k ∈ past.map ident),
    ← List.forall_mem_map (P := fun k => k ∈ now.map ident)]
  exact ⟨fun h k => ⟨h.2 k, h.1 k⟩, fun h => ⟨fun k => (h k).2, fun k => (h k).1⟩⟩

theorem isEmpty_ofMembers_self (l : List α) : (ofMembers l l).isEmpty = true :=
  isEmpty_ofMembers_iff_idents.2 fun _ => Iff.rfl

/-! ## Every identity has one place -/

variable (compare) in
theorem nodup_changed_idents (hpast : (past.map ident).Nodup) (hnow : (now.map ident).Nodup) :
    ((between compare past now).changed.map fun e => ident e.now).Nodup := by
  have hnodup : (between compare past now).changed.Nodup := by
    refine hnow.of_map.filterMap fun a a' e ha ha' => ?_
    simp only [change?, Option.mem_def, Option.bind_eq_some_iff, Option.map_eq_some_iff] at ha ha'
    obtain ⟨b, -, d, -, rfl⟩ := ha
    obtain ⟨b', -, d', -, he⟩ := ha'
    exact (Changed.mk.inj he).2.1.symm
  refine hnodup.map_on fun e he e' he' hident => ?_
  rw [mem_changed_of_nodup hpast] at he he'
  obtain ⟨hp, hn, hsame, hdiff⟩ := he
  obtain ⟨hp', hn', hsame', hdiff'⟩ := he'
  obtain ⟨p, n, d⟩ := e
  obtain ⟨p', n', d'⟩ := e'
  obtain rfl : n = n' := List.inj_on_of_nodup_map hnow hn hn' hident
  obtain rfl : p = p' := List.inj_on_of_nodup_map hpast hp hp' (hsame.trans hsame'.symm)
  obtain rfl : d = d' := Option.some.inj (hdiff.symm.trans hdiff')
  rfl

theorem nodup_changed (hpast : (past.map ident).Nodup) (hnow : (now.map ident).Nodup) :
    (between compare past now).changed.Nodup :=
  (nodup_changed_idents compare hpast hnow).of_map

/-- **Every identity has one place.** -/
theorem accounts_between (hpast : (past.map ident).Nodup) (hnow : (now.map ident).Nodup) :
    Accounts compare past now (between compare past now) where
  once := by
    have hadded : ((between compare past now).added.map ident).Nodup :=
      hnow.sublist (List.filter_sublist.map ident)
    have hremoved : ((between compare past now).removed.map ident).Nodup :=
      hpast.sublist (List.filter_sublist.map ident)
    have hstays : ((untouched compare past now).map ident).Nodup :=
      hpast.sublist (List.filter_sublist.map ident)
    have hchanged := nodup_changed_idents compare hpast hnow
    refine List.nodup_append'.2 ⟨List.nodup_append'.2
      ⟨List.nodup_append'.2 ⟨hadded, hremoved, ?_⟩, hchanged, ?_⟩, hstays, ?_⟩
    · intro k hnew hgone
      exact (mem_added_idents.1 hnew).2 (mem_removed_idents.1 hgone).1
    · intro k hone hk
      exact not_shared compare hone ((shared_iff compare hpast hnow).1 (.inl hk))
    · intro k htold hk
      rcases List.mem_append.1 htold with hone | hdiffers
      · exact not_shared compare hone ((shared_iff compare hpast hnow).1 (.inr hk))
      · exact not_changed_and_untouched compare hpast hnow hdiffers hk
  all k := by
    have hshared := shared_iff compare hpast hnow (k := k)
    simp only [idents, List.mem_append, mem_added_idents, mem_removed_idents]
    tauto
  added _ ha := (mem_added.1 ha).1
  removed _ hb := (mem_removed.1 hb).1
  changed _ he := (mem_changed_of_nodup hpast).1 he

/-! ## A patch applied -/

theorem changed_past_idents :
    ((between compare past now).changed.map Changed.past).map ident =
      (between compare past now).changed.map fun e => ident e.now := by
  rw [List.map_map]
  exact List.map_congr_left fun e he => (partner?_eq_some (mem_changed_iff.1 he).2.1).2

/-- A value of the past that is not taken out is one that stays. -/
theorem not_dropped_iff (hpast : (past.map ident).Nodup) (hnow : (now.map ident).Nodup) {b : α}
    (hb : b ∈ past) :
    ident b ∉ ((between compare past now).removed ++
        (between compare past now).changed.map Changed.past).map ident ↔
      b ∈ untouched compare past now := by
  have hleft : ident b ∈ past.map ident := List.mem_map_of_mem hb
  have hstays : b ∈ untouched compare past now ↔
      ident b ∈ (untouched compare past now).map ident := by
    refine ⟨List.mem_map_of_mem, fun h => ?_⟩
    obtain ⟨c, hc, hident⟩ := List.mem_map.1 h
    rwa [← List.inj_on_of_nodup_map hpast (List.mem_of_mem_filter hc) hb hident]
  have hshared := shared_iff compare hpast hnow (k := ident b)
  have hapart := not_changed_and_untouched compare hpast hnow (k := ident b)
  rw [List.map_append, List.mem_append, mem_removed_idents, changed_past_idents, hstays]
  tauto

/-- A patch takes away what does not stay, and puts in what is new. -/
theorem applyTo_between (hpast : (past.map ident).Nodup) (hnow : (now.map ident).Nodup) :
    (between compare past now).applyTo past = untouched compare past now ++
      ((between compare past now).added ++
        (between compare past now).changed.map Changed.now) := by
  refine congrArg (· ++ _) (List.filter_congr fun b hb => ?_)
  rw [Bool.eq_iff_iff, decide_eq_true_eq, not_dropped_iff hpast hnow hb, untouched,
    List.mem_filter, and_iff_right hb]

/-- **A patch applied** to the collection it starts from gives one that stands for the other. -/
theorem standsFor_applyTo (hpast : (past.map ident).Nodup) (hnow : (now.map ident).Nodup) :
    StandsFor compare past now ((between compare past now).applyTo past) where
  idents := by
    have haccounts : Accounts compare past now (between compare past now) :=
      accounts_between hpast hnow
    have hshown : ((between compare past now).changed.map Changed.now).map ident =
        (between compare past now).changed.map fun e => ident e.now := List.map_map
    rw [applyTo_between hpast hnow, List.map_append, List.map_append, hshown]
    refine (List.perm_ext_iff_of_nodup ?_ hnow).2 fun k => ?_
    · have honce := haccounts.once
      simp only [Patch.idents, List.nodup_append', List.disjoint_append_left,
        List.disjoint_append_right] at honce ⊢
      obtain ⟨⟨⟨hadded, -, -⟩, hchanged, hapart, -⟩, hstays, ⟨hstaysAdded, -⟩, hstaysChanged⟩ :=
        honce
      exact ⟨hstays, ⟨hadded, hchanged, hapart⟩, hstaysAdded.symm, hstaysChanged.symm⟩
    · have hshared := shared_iff compare hpast hnow (k := k)
      simp only [List.mem_append, mem_added_idents]
      tauto
  values b hb := by
    rw [applyTo_between hpast hnow] at hb
    rcases List.mem_append.1 hb with hb | hb
    · exact .inr ((mem_untouched hnow).1 hb)
    · refine .inl ?_
      rcases List.mem_append.1 hb with hb | hb
      · exact (mem_added.1 hb).1
      · obtain ⟨e, he, rfl⟩ := List.mem_map.1 hb
        exact (mem_changed_iff.1 he).1

/-! ## The patch that leads back -/

/-- **The way back**: with the sides exchanged, a patch has its entries from the other side. -/
theorem sameEntries_reverse (hpast : (past.map ident).Nodup) (hnow : (now.map ident).Nodup) :
    SameEntries (between (fun a b => compare b a) now past)
      (between compare past now).reverse where
  added := .of_eq removed_eq_added.symm
  removed := .of_eq removed_eq_added
  changed := by
    have hturned : ((between compare past now).changed.map Changed.swap).Nodup :=
      (nodup_changed hpast hnow).map (Function.LeftInverse.injective Changed.swap_swap)
    refine (List.perm_ext_iff_of_nodup (nodup_changed hnow hpast) hturned).2 fun e => ?_
    have hswap : e ∈ (between compare past now).changed.map Changed.swap ↔
        e.swap ∈ (between compare past now).changed :=
      ⟨fun h => by
        obtain ⟨e', he', rfl⟩ := List.mem_map.1 h
        exact he', fun h => List.mem_map.2 ⟨e.swap, h, rfl⟩⟩
    rw [hswap, mem_changed_of_nodup hnow, mem_changed_of_nodup hpast]
    simp only [Changed.swap]
    constructor
    · rintro ⟨hp, hn, hident, hdiff⟩
      exact ⟨hn, hp, hident.symm, hdiff⟩
    · rintro ⟨hn, hp, hident, hdiff⟩
      exact ⟨hp, hn, hident.symm, hdiff⟩

/-- **Patches are exact.**  A patch accounts for every identity of both sides, brings the past to
a collection that stands for the new one, and is turned around by exchanging the sides.  No past
at all is as good as an empty one. -/
theorem fromRecorded_exact {past now : List α} (hpast : (past.map ident).Nodup)
    (hnow : (now.map ident).Nodup) (compare : α → α → Option δ) :
    (fromRecorded compare (some past) now).Accounts compare past now ∧
      StandsFor compare past now ((fromRecorded compare (some past) now).applyTo past) ∧
      (fromRecorded (fun a b => compare b a) (some now) past).SameEntries
        (fromRecorded compare (some past) now).reverse ∧
      fromRecorded compare none now = fromRecorded compare (some []) now :=
  ⟨accounts_between hpast hnow, standsFor_applyTo hpast hnow, sameEntries_reverse hpast hnow,
    (between_nil compare now).symm⟩

end Patch

/-! ## Values that are lost and values that are found

Fields are compared by whether one lost its value.  The field that got a value is not told of,
and stays without it when the patch is applied. -/

namespace LostValues

def field (name : Symbol) (value : Option Constant) : FieldInfo :=
  ⟨name, .ofFlags [.pub], .primitive .int, none, value⟩

def past : List FieldInfo := [field ⟨1⟩ none, field ⟨2⟩ (some (.int 5)), field ⟨3⟩ none]

def now : List FieldInfo := [field ⟨2⟩ none, field ⟨3⟩ (some (.int 5)), field ⟨4⟩ none]

def loss (p n : FieldInfo) : Option Unit := if p.hasValue && !n.hasValue then some () else none

def patch : Patch FieldInfo Unit where
  added := [field ⟨4⟩ none]
  removed := [field ⟨1⟩ none]
  changed := [⟨field ⟨2⟩ (some (.int 5)), field ⟨2⟩ none, ()⟩]

theorem found_value_left_out :
    Patch.fromRecorded loss (some past) now = patch ∧ patch.Accounts loss past now ∧
      Patch.StandsFor loss past now [field ⟨3⟩ none, field ⟨4⟩ none, field ⟨2⟩ none] ∧
      (Patch.fromRecorded (fun a b => loss b a) (some now) past).SameEntries patch.reverse := by
  have hpatch : Patch.fromRecorded loss (some past) now = patch := by decide
  have happlied : patch.applyTo past = [field ⟨3⟩ none, field ⟨4⟩ none, field ⟨2⟩ none] := by
    decide
  have hpast : (past.map ident).Nodup := by decide
  have hnow : (now.map ident).Nodup := by decide
  obtain ⟨haccounts, hstands, hreverse, -⟩ := Patch.fromRecorded_exact hpast hnow loss
  rw [hpatch] at haccounts hstands hreverse
  rw [happlied] at hstands
  exact ⟨hpatch, haccounts, hstands, hreverse⟩

end LostValues

end ClassImpact

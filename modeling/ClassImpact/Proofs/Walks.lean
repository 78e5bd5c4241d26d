import Mathlib
import ClassImpact.Hierarchy.Walk
import ClassImpact.Proofs.Membership

/-!
# What a walk finds

A walk looks at every symbol once, from the place that happens to reach it first.  Where
the look does not depend on that place, what a walk finds is a matter of reachability
alone: the blocks found at the symbols that some place can reach, in some order.

A walk whose neighbours come in the same order is the same walk, whatever its places
are made of.
-/

namespace ClassImpact

/-! ## Lists that hold the same things -/

/-- Every member of one list is related to one of the other. -/
def Relist {α β : Type} (R : α → β → Prop) (l : List α) (m : List β) : Prop :=
  (∀ x ∈ l, ∃ y ∈ m, R x y) ∧ ∀ y ∈ m, ∃ x ∈ l, R x y

theorem exists_of_rel_some {α β : Type} {R : α → β → Prop} {a : Option α} {b : Option β}
    (h : Option.Rel R a b) {x : α} (hx : a = some x) : ∃ y, b = some y ∧ R x y := by
  subst hx
  cases h with
  | some hR => exact ⟨_, rfl, hR⟩

namespace Relist

variable {α β γ δ : Type} {R : α → β → Prop} {S : γ → δ → Prop}

theorem of_forall₂ {l : List α} {m : List β} (h : List.Forall₂ R l m) : Relist R l m := by
  induction h with
  | nil => exact ⟨by simp, by simp⟩
  | cons hxy _ ih =>
    constructor
    · intro x hx
      rcases List.mem_cons.1 hx with rfl | hx
      · exact ⟨_, List.mem_cons_self, hxy⟩
      · obtain ⟨y, hy, hR⟩ := ih.1 x hx
        exact ⟨y, List.mem_cons_of_mem _ hy, hR⟩
    · intro y hy
      rcases List.mem_cons.1 hy with rfl | hy
      · exact ⟨_, List.mem_cons_self, hxy⟩
      · obtain ⟨x, hx, hR⟩ := ih.2 y hy
        exact ⟨x, List.mem_cons_of_mem _ hx, hR⟩

theorem of_iff {l m : List α} (h : ∀ x, x ∈ l ↔ x ∈ m) : Relist Eq l m :=
  ⟨fun x hx => ⟨x, (h x).1 hx, rfl⟩, fun x hx => ⟨x, (h x).2 hx, rfl⟩⟩

theorem mem_iff {l m : List α} (h : Relist Eq l m) (x : α) : x ∈ l ↔ x ∈ m := by
  constructor
  · intro hx
    obtain ⟨y, hy, rfl⟩ := h.1 x hx
    exact hy
  · intro hx
    obtain ⟨y, hy, rfl⟩ := h.2 x hx
    exact hy

theorem imp {R' : α → β → Prop} {l : List α} {m : List β} (h : Relist R l m)
    (hR : ∀ x y, R x y → R' x y) : Relist R' l m := by
  constructor
  · intro x hx
    obtain ⟨y, hy, hxy⟩ := h.1 x hx
    exact ⟨y, hy, hR x y hxy⟩
  · intro y hy
    obtain ⟨x, hx, hxy⟩ := h.2 y hy
    exact ⟨x, hx, hR x y hxy⟩

theorem refl (l : List α) : Relist Eq l l := of_iff fun _ => Iff.rfl

/-- A list beside itself, where the members are known to be members. -/
theorem diagonal (l : List α) : Relist (fun x y => x = y ∧ x ∈ l) l l :=
  ⟨fun x hx => ⟨x, hx, rfl, hx⟩, fun x hx => ⟨x, hx, rfl, hx⟩⟩

theorem cons {l : List α} {m : List β} {x : α} {y : β} (hxy : R x y) (h : Relist R l m) :
    Relist R (x :: l) (y :: m) := by
  constructor
  · intro z hz
    rcases List.mem_cons.1 hz with rfl | hz
    · exact ⟨y, List.mem_cons_self, hxy⟩
    · obtain ⟨z', hz', hR⟩ := h.1 z hz
      exact ⟨z', List.mem_cons_of_mem _ hz', hR⟩
  · intro z hz
    rcases List.mem_cons.1 hz with rfl | hz
    · exact ⟨x, List.mem_cons_self, hxy⟩
    · obtain ⟨z', hz', hR⟩ := h.2 z hz
      exact ⟨z', List.mem_cons_of_mem _ hz', hR⟩

theorem append {l l' : List α} {m m' : List β} (h : Relist R l m) (h' : Relist R l' m') :
    Relist R (l ++ l') (m ++ m') := by
  constructor
  · intro x hx
    rcases List.mem_append.1 hx with hx | hx
    · obtain ⟨y, hy, hR⟩ := h.1 x hx
      exact ⟨y, List.mem_append_left _ hy, hR⟩
    · obtain ⟨y, hy, hR⟩ := h'.1 x hx
      exact ⟨y, List.mem_append_right _ hy, hR⟩
  · intro y hy
    rcases List.mem_append.1 hy with hy | hy
    · obtain ⟨x, hx, hR⟩ := h.2 y hy
      exact ⟨x, List.mem_append_left _ hx, hR⟩
    · obtain ⟨x, hx, hR⟩ := h'.2 y hy
      exact ⟨x, List.mem_append_right _ hx, hR⟩

theorem map {l : List α} {m : List β} {f : α → γ} {g : β → δ} (h : Relist R l m)
    (hfg : ∀ x y, R x y → S (f x) (g y)) : Relist S (l.map f) (m.map g) := by
  constructor
  · intro z hz
    obtain ⟨x, hx, rfl⟩ := List.mem_map.1 hz
    obtain ⟨y, hy, hR⟩ := h.1 x hx
    exact ⟨g y, List.mem_map.2 ⟨y, hy, rfl⟩, hfg x y hR⟩
  · intro z hz
    obtain ⟨y, hy, rfl⟩ := List.mem_map.1 hz
    obtain ⟨x, hx, hR⟩ := h.2 y hy
    exact ⟨f x, List.mem_map.2 ⟨x, hx, rfl⟩, hfg x y hR⟩

theorem flatMap {l : List α} {m : List β} {f : α → List γ} {g : β → List δ} (h : Relist R l m)
    (hfg : ∀ x y, R x y → Relist S (f x) (g y)) : Relist S (l.flatMap f) (m.flatMap g) := by
  constructor
  · intro z hz
    obtain ⟨x, hx, hz⟩ := List.mem_flatMap.1 hz
    obtain ⟨y, hy, hR⟩ := h.1 x hx
    obtain ⟨z', hz', hS⟩ := (hfg x y hR).1 z hz
    exact ⟨z', List.mem_flatMap.2 ⟨y, hy, hz'⟩, hS⟩
  · intro z hz
    obtain ⟨y, hy, hz⟩ := List.mem_flatMap.1 hz
    obtain ⟨x, hx, hR⟩ := h.2 y hy
    obtain ⟨z', hz', hS⟩ := (hfg x y hR).2 z hz
    exact ⟨z', List.mem_flatMap.2 ⟨x, hx, hz'⟩, hS⟩

theorem filter {l : List α} {m : List β} {p : α → Bool} {q : β → Bool} (h : Relist R l m)
    (hpq : ∀ x y, R x y → p x = q y) : Relist R (l.filter p) (m.filter q) := by
  constructor
  · intro x hx
    obtain ⟨hx, hp⟩ := List.mem_filter.1 hx
    obtain ⟨y, hy, hR⟩ := h.1 x hx
    exact ⟨y, List.mem_filter.2 ⟨hy, hpq x y hR ▸ hp⟩, hR⟩
  · intro y hy
    obtain ⟨hy, hq⟩ := List.mem_filter.1 hy
    obtain ⟨x, hx, hR⟩ := h.2 y hy
    exact ⟨x, List.mem_filter.2 ⟨hx, (hpq x y hR).symm ▸ hq⟩, hR⟩

theorem filterMap {l : List α} {m : List β} {f : α → Option γ} {g : β → Option δ}
    (h : Relist R l m) (hfg : ∀ x y, R x y → Option.Rel S (f x) (g y)) :
    Relist S (l.filterMap f) (m.filterMap g) := by
  constructor
  · intro z hz
    obtain ⟨x, hx, hfx⟩ := List.mem_filterMap.1 hz
    obtain ⟨y, hy, hR⟩ := h.1 x hx
    obtain ⟨w, hw, hS⟩ := exists_of_rel_some (hfg x y hR) hfx
    exact ⟨w, List.mem_filterMap.2 ⟨y, hy, hw⟩, hS⟩
  · intro w hw
    obtain ⟨y, hy, hgy⟩ := List.mem_filterMap.1 hw
    obtain ⟨x, hx, hR⟩ := h.2 y hy
    have hrel := hfg x y hR
    rw [hgy] at hrel
    generalize hfx : f x = a at hrel
    cases hrel with
    | some hS => exact ⟨_, List.mem_filterMap.2 ⟨x, hx, hfx⟩, hS⟩

end Relist

/-- The first of a kind in lists of related things. -/
theorem forall₂_find? {α β : Type} {R : α → β → Prop} {l : List α} {m : List β} {p : α → Bool}
    {q : β → Bool} (h : List.Forall₂ R l m) (hpq : ∀ x y, R x y → p x = q y) :
    Option.Rel R (l.find? p) (m.find? q) := by
  induction h with
  | nil => exact .none
  | @cons x y l m hxy _ ih =>
    rw [List.find?_cons, List.find?_cons, hpq x y hxy]
    cases q y with
    | true => exact .some hxy
    | false => exact ih

namespace Walk

variable {σ β : Type}

section

variable (w : Walk σ β) (label : σ → Symbol) (start : σ)

/-! ## Reachable places -/

/-- The places that a walk from `start` could open; a place is known by its label. -/
inductive Place : σ → Prop where
  | start : Place start
  | step {p q : σ} {n : Symbol} (hp : Place p) (hn : n ∈ w.neighbours p) (hs : n ≠ label start)
      (hl : n ≠ label p) (hq : (w.look p n).next = some q) : Place q

/-- A walk from `start` could look at `n` from the place `p`. -/
structure Arrives (p : σ) (n : Symbol) : Prop where
  place : w.Place label start p
  mem : n ∈ w.neighbours p
  ne_start : n ≠ label start
  ne_self : n ≠ label p

/-- The look at a symbol is the same from every place that reaches it. -/
def Steady : Prop :=
  ∀ p p' n, w.Arrives label start p n → w.Arrives label start p' n → w.look p n = w.look p' n

/-- A place that a look opens is known by the symbol looked at. -/
def Labelled : Prop := ∀ p n q, (w.look p n).next = some q → label q = n

/-! ## The run -/

/-- How far a walk has come: `arrivals` are the looks so far, in order, and `left` the
places that it left or is leaving. -/
structure Trace (st : State σ β) (left : List σ) (arrivals : List (σ × Symbol)) : Prop where
  visited : ∀ n, n ∈ st.visited ↔ n = label start ∨ n ∈ arrivals.map (·.2)
  found : st.found = arrivals.flatMap fun a => (w.look a.1 a.2).found
  arrives : ∀ a ∈ arrivals, w.Arrives label start a.1 a.2
  nodup : (arrivals.map (·.2)).Nodup
  places : ∀ p, p ∈ st.pending ∨ p ∈ left ↔
    p = start ∨ ∃ a ∈ arrivals, (w.look a.1 a.2).next = some p

end

variable {w : Walk σ β} {label : σ → Symbol} {start : σ} {st : State σ β} {left : List σ}
  {arrivals : List (σ × Symbol)}

/-! ## What a walk keeps -/

/-- **Induction along the neighbours of a place**: what each look keeps, the walk keeps when it
leaves the place. -/
theorem leave_induction {P : State σ β → Prop} {here : σ} (hst : P st)
    (harrive : ∀ n ∈ w.neighbours here, ∀ st, P st → P (w.arrive here st n)) :
    P (w.leave here st) :=
  List.foldlRecOn _ _ hst fun st hst n hn => harrive n hn st hst

/-- **Induction along a run**: what the walk keeps when it leaves a place, it keeps to its end. -/
theorem run_induction {P : State σ β → Prop} (hst : P st)
    (hleave : ∀ here visited rest found, P ⟨visited, here :: rest, found⟩ →
      P (w.leave here ⟨visited, rest, found⟩)) (bound : Nat) : P (w.run bound st) := by
  induction bound generalizing st with
  | zero => exact hst
  | succ bound ih =>
    obtain ⟨visited, pending, found⟩ := st
    cases pending with
    | nil =>
      rw [run_done]
      exact hst
    | cons here rest => exact ih (hleave here visited rest found hst)

/-- The places that are open after a look: those that were, and the one that it opens. -/
theorem mem_pending_arrive {here p : σ} {n : Symbol} (hp : p ∈ (w.arrive here st n).pending) :
    p ∈ st.pending ∨ (w.look here n).next = some p := by
  unfold Walk.arrive at hp
  split at hp
  · exact .inl hp
  · rcases List.mem_append.1 hp with hp | hp
    · exact .inr (Option.mem_toList.1 hp)
    · exact .inl hp

theorem mem_found_arrive {here : σ} {n : Symbol} {x : β}
    (hx : x ∈ (w.arrive here st n).found) : x ∈ st.found ∨ x ∈ (w.look here n).found := by
  unfold Walk.arrive at hx
  split at hx
  · exact .inl hx
  · exact List.mem_append.1 hx

theorem mem_found_arrive_of_mem {here : σ} {n : Symbol} {x : β} (hx : x ∈ st.found) :
    x ∈ (w.arrive here st n).found := by
  unfold Walk.arrive
  split
  · exact hx
  · exact List.mem_append_left _ hx

theorem mem_visited_arrive {here : σ} {m n : Symbol} :
    n ∈ (w.arrive here st m).visited ↔ n ∈ st.visited ∨ n = m := by
  unfold Walk.arrive
  split
  · rename_i hm
    exact ⟨.inl, fun h => h.elim id fun h => h ▸ hm⟩
  · rw [List.mem_cons, or_comm]

/-- Leaving a place shows its neighbours, and nothing else. -/
theorem mem_visited_leave {here : σ} {n : Symbol} :
    n ∈ (w.leave here st).visited ↔ n ∈ st.visited ∨ n ∈ w.neighbours here := by
  unfold leave
  induction w.neighbours here generalizing st with
  | nil => simp
  | cons m l ih => rw [List.foldl_cons, ih, mem_visited_arrive, List.mem_cons, or_assoc]

theorem mem_visited_run {n : Symbol} (h : n ∈ st.visited) (bound : Nat) :
    n ∈ (w.run bound st).visited :=
  run_induction (P := fun st => n ∈ st.visited) h
    (fun _ _ _ _ hn => mem_visited_leave.2 (.inl hn)) bound

/-! ## The trace of a run -/

theorem Trace.place (h : w.Trace label start st left arrivals) {p : σ}
    (hp : p ∈ st.pending ∨ p ∈ left) : w.Place label start p := by
  rcases (h.places p).1 hp with rfl | ⟨a, ha, hnext⟩
  · exact .start
  · have harr := h.arrives a ha
    exact .step harr.place harr.mem harr.ne_start harr.ne_self hnext

theorem Trace.label_mem (hlab : w.Labelled label) (h : w.Trace label start st left arrivals)
    {p : σ} (hp : p ∈ st.pending ∨ p ∈ left) : label p ∈ st.visited := by
  rw [h.visited]
  rcases (h.places p).1 hp with rfl | ⟨a, ha, hnext⟩
  · exact .inl rfl
  · rw [hlab _ _ _ hnext]
    exact .inr (List.mem_map.2 ⟨a, ha, rfl⟩)

theorem Trace.arrive (hlab : w.Labelled label) (h : w.Trace label start st left arrivals)
    {here : σ} (hhere : here ∈ left) {n : Symbol} (hn : n ∈ w.neighbours here) :
    ∃ arrivals', w.Trace label start (w.arrive here st n) left arrivals' := by
  unfold Walk.arrive
  by_cases hv : n ∈ st.visited
  · rw [if_pos hv]
    exact ⟨arrivals, h⟩
  · rw [if_neg hv]
    refine ⟨arrivals ++ [(here, n)], ?_⟩
    have hnew : n ∉ arrivals.map (·.2) := fun hm => hv ((h.visited n).2 (.inr hm))
    exact
      { visited := fun m => by
          rw [List.mem_cons, h.visited]
          simp only [List.map_append, List.mem_append, List.map_cons, List.map_nil,
            List.mem_singleton]
          tauto
        found := by simp [h.found]
        arrives := fun a ha => by
          rcases List.mem_append.1 ha with ha | ha
          · exact h.arrives a ha
          · obtain rfl := List.mem_singleton.1 ha
            refine ⟨h.place (.inr hhere), hn, fun hs => ?_, fun hs => ?_⟩
            · exact hv ((h.visited n).2 (.inl hs))
            · have hs : n = label here := hs
              exact hv (hs ▸ h.label_mem hlab (.inr hhere))
        nodup := by
          rw [List.map_append, List.nodup_append]
          refine ⟨h.nodup, by simp, fun a ha b hb hab => ?_⟩
          obtain rfl : b = n := by simpa using hb
          exact hnew (hab ▸ ha)
        places := fun p => by
          have hp := h.places p
          simp only [List.mem_append, List.mem_singleton, Option.mem_toList] at hp ⊢
          rw [or_assoc, hp]
          constructor
          · rintro (hnext | rfl | ⟨a, ha, hnext⟩)
            · exact .inr ⟨(here, n), .inr rfl, hnext⟩
            · exact .inl rfl
            · exact .inr ⟨a, .inl ha, hnext⟩
          · rintro (rfl | ⟨a, ha | rfl, hnext⟩)
            · exact .inr (.inl rfl)
            · exact .inr (.inr ⟨a, ha, hnext⟩)
            · exact .inl hnext }

theorem Trace.leave (hlab : w.Labelled label) (h : w.Trace label start st left arrivals)
    {here : σ} (hhere : here ∈ left) :
    ∃ arrivals', w.Trace label start (w.leave here st) left arrivals' := by
  refine leave_induction (P := fun st => ∃ arrivals, w.Trace label start st left arrivals)
    ⟨arrivals, h⟩ ?_
  rintro n hn st ⟨arrivals, h⟩
  exact h.arrive hlab hhere hn

/-- A run keeps its trace, and every place that it left has had all its neighbours seen. -/
theorem Trace.run (hlab : w.Labelled label) (bound : Nat)
    (h : w.Trace label start st left arrivals)
    (hclosed : ∀ p ∈ left, ∀ n ∈ w.neighbours p, n ∈ st.visited) :
    ∃ left' arrivals', w.Trace label start (w.run bound st) left' arrivals' ∧
      ∀ p ∈ left', ∀ n ∈ w.neighbours p, n ∈ (w.run bound st).visited := by
  refine run_induction (P := fun st => ∃ left arrivals, w.Trace label start st left arrivals ∧
    ∀ p ∈ left, ∀ n ∈ w.neighbours p, n ∈ st.visited) ⟨left, arrivals, h, hclosed⟩ ?_ bound
  rintro here visited rest found ⟨left, arrivals, h, hclosed⟩
  -- the place that is left counts as left while its neighbours are looked at
  have hmoved : w.Trace label start ⟨visited, rest, found⟩ (here :: left) arrivals :=
    { h with
      places := fun p => by
        rw [← h.places p]
        simp only [List.mem_cons]
        tauto }
  obtain ⟨arr, harr⟩ := hmoved.leave hlab List.mem_cons_self
  refine ⟨here :: left, arr, harr, fun p hp n hn => mem_visited_leave.2 ?_⟩
  rcases List.mem_cons.1 hp with rfl | hp
  · exact .inr hn
  · exact .inl (hclosed p hp n hn)

theorem trace_init : w.Trace label start ⟨[label start], [start], []⟩ [] [] where
  visited n := by simp
  found := rfl
  arrives := by simp
  nodup := by simp
  places p := by simp

/-! ## The bound -/

/-- What a walk has before it: open places, and symbols that were not seen yet. -/
def ahead (symbols : Finset Symbol) (st : State σ β) : Nat :=
  st.pending.length + (symbols \ st.visited.toFinset).card

theorem ahead_arrive {symbols : Finset Symbol} {here : σ} {n : Symbol} (hn : n ∈ symbols) :
    ahead symbols (w.arrive here st n) ≤ ahead symbols st := by
  unfold Walk.arrive
  by_cases hv : n ∈ st.visited
  · rw [if_pos hv]
  · rw [if_neg hv]
    have hmem : n ∈ symbols \ st.visited.toFinset := by simp [hn, hv]
    have hcard := Finset.card_erase_of_mem hmem
    have hpos : 0 < (symbols \ st.visited.toFinset).card := Finset.card_pos.2 ⟨n, hmem⟩
    have hnext : (w.look here n).next.toList.length ≤ 1 := by
      cases (w.look here n).next <;> simp
    simp only [ahead, List.toFinset_cons, List.length_append, Finset.sdiff_insert]
    omega

theorem ahead_leave {symbols : Finset Symbol} {here : σ}
    (hall : ∀ n ∈ w.neighbours here, n ∈ symbols) :
    ahead symbols (w.leave here st) ≤ ahead symbols st :=
  leave_induction (P := fun st' => ahead symbols st' ≤ ahead symbols st) (le_refl _)
    fun n hn _ hst => (ahead_arrive (hall n hn)).trans hst

/-- Places that a walk does not leave, and the symbols that it can meet from them. -/
structure Confined (w : Walk σ β) (I : σ → Prop) (symbols : Finset Symbol) : Prop where
  next : ∀ {p n q}, I p → n ∈ w.neighbours p → (w.look p n).next = some q → I q
  mem : ∀ {p n}, I p → n ∈ w.neighbours p → n ∈ symbols

theorem Confined.everywhere {symbols : Finset Symbol}
    (hall : ∀ p, ∀ n ∈ w.neighbours p, n ∈ symbols) : w.Confined (fun _ => True) symbols :=
  ⟨fun _ _ _ => trivial, fun _ hn => hall _ _ hn⟩

theorem pending_leave {I : σ → Prop} {here : σ}
    (hnext : ∀ n ∈ w.neighbours here, ∀ q, (w.look here n).next = some q → I q)
    (hst : ∀ p ∈ st.pending, I p) : ∀ p ∈ (w.leave here st).pending, I p :=
  leave_induction (P := fun st => ∀ p ∈ st.pending, I p) hst fun n hn _ hst p hp =>
    (mem_pending_arrive hp).elim (hst p) (hnext n hn p)

/-- A walk with a bound above what it has before it ends because no place is left. -/
theorem pending_run {I : σ → Prop} {symbols : Finset Symbol} {bound : Nat}
    (hw : w.Confined I symbols) (hst : ∀ p ∈ st.pending, I p)
    (hbound : ahead symbols st ≤ bound) : (w.run bound st).pending = [] := by
  induction bound generalizing st with
  | zero =>
    have : st.pending.length = 0 := by
      unfold ahead at hbound
      omega
    exact List.length_eq_zero_iff.1 this
  | succ bound ih =>
    obtain ⟨visited, pending, found⟩ := st
    cases pending with
    | nil => rw [run_done]
    | cons here rest =>
      obtain ⟨hhere, hrest⟩ := List.forall_mem_cons.1 hst
      have h : ahead symbols (w.leave here ⟨visited, rest, found⟩) ≤
          ahead symbols (⟨visited, rest, found⟩ : State σ β) :=
        ahead_leave fun n hn => hw.mem hhere hn
      have hpop : ahead symbols (⟨visited, here :: rest, found⟩ : State σ β) =
          ahead symbols (⟨visited, rest, found⟩ : State σ β) + 1 := by
        simp only [ahead, List.length_cons]
        omega
      refine ih (pending_leave (fun n hn q hq => hw.next hhere hn hq) hrest) ?_
      show ahead symbols (w.leave here ⟨visited, rest, found⟩) ≤ bound
      omega

/-- From its start a walk ends when it is bounded by more than the symbols that it can meet. -/
theorem pending_findFrom {I : σ → Prop} {symbols : Finset Symbol} {bound : Nat}
    (hw : w.Confined I symbols) (hstart : I start) (hbound : symbols.card < bound)
    (origin : Symbol) : (w.run bound ⟨[origin], [start], []⟩).pending = [] := by
  refine pending_run hw (fun p hp => List.mem_singleton.1 hp ▸ hstart) ?_
  have : (symbols \ [origin].toFinset).card ≤ symbols.card :=
    Finset.card_le_card Finset.sdiff_subset
  simp only [ahead, List.length_singleton]
  omega

theorem run_add (w : Walk σ β) (a b : Nat) (st : State σ β) :
    w.run (a + b) st = w.run b (w.run a st) := by
  induction a generalizing st with
  | zero => rw [Nat.zero_add, run]
  | succ a ih =>
    obtain ⟨visited, pending, found⟩ := st
    cases pending with
    | nil => rw [run_done, run_done, run_done]
    | cons here rest =>
      rw [Nat.succ_add]
      exact ih _

/-- A larger bound than the symbols that it can meet takes a walk no further. -/
theorem findFrom_eq {I : σ → Prop} {symbols : Finset Symbol} {bound : Nat}
    (hw : w.Confined I symbols) (hstart : I start) (hbound : symbols.card < bound) (more : Nat)
    (origin : Symbol) : w.findFrom (bound + more) origin start = w.findFrom bound origin start := by
  have hdone := pending_findFrom hw hstart hbound origin
  unfold findFrom
  rw [run_add]
  generalize w.run bound ⟨[origin], [start], []⟩ = ended at hdone ⊢
  obtain ⟨visited, pending, found⟩ := ended
  dsimp only at hdone
  rw [hdone, run_done]

/-! ## Walks that agree -/

/-- Walks that take the same looks from the places of a set, and do not leave it, go the same
way. -/
theorem run_congr {w' : Walk σ β} {I : σ → Prop}
    (hneighbours : ∀ p, I p → w.neighbours p = w'.neighbours p)
    (hlook : ∀ p, I p → ∀ n ∈ w.neighbours p, w.look p n = w'.look p n)
    (hnext : ∀ p, I p → ∀ n ∈ w.neighbours p, ∀ q, (w.look p n).next = some q → I q)
    (hst : ∀ p ∈ st.pending, I p) (bound : Nat) : w.run bound st = w'.run bound st := by
  induction bound generalizing st with
  | zero => rfl
  | succ bound ih =>
    obtain ⟨visited, pending, found⟩ := st
    cases pending with
    | nil => rw [run_done, run_done]
    | cons here rest =>
      obtain ⟨hhere, hrest⟩ := List.forall_mem_cons.1 hst
      have hleave : w.leave here ⟨visited, rest, found⟩ = w'.leave here ⟨visited, rest, found⟩ := by
        unfold leave
        rw [← hneighbours here hhere]
        refine List.foldl_ext _ _ _ fun st n hn => ?_
        rw [Walk.arrive, Walk.arrive, hlook here hhere n hn]
      show w.run bound (w.leave here ⟨visited, rest, found⟩) =
        w'.run bound (w'.leave here ⟨visited, rest, found⟩)
      rw [← hleave]
      exact ih (pending_leave (hnext here hhere) hrest)

theorem findFrom_congr {w' : Walk σ β} {I : σ → Prop}
    (hneighbours : ∀ p, I p → w.neighbours p = w'.neighbours p)
    (hlook : ∀ p, I p → ∀ n ∈ w.neighbours p, w.look p n = w'.look p n)
    (hnext : ∀ p, I p → ∀ n ∈ w.neighbours p, ∀ q, (w.look p n).next = some q → I q)
    (hstart : I start) (bound : Nat) (origin : Symbol) :
    w.findFrom bound origin start = w'.findFrom bound origin start := by
  have hst : ∀ p ∈ (⟨[origin], [start], []⟩ : State σ β).pending, I p := fun p hp =>
    List.mem_singleton.1 hp ▸ hstart
  exact congrArg State.found (run_congr hneighbours hlook hnext hst bound)

theorem mem_found_leave {x : β} {here : σ} (hx : x ∈ st.found) : x ∈ (w.leave here st).found :=
  leave_induction (P := fun st => x ∈ st.found) hx fun _ _ _ => mem_found_arrive_of_mem

/-- What is found stays found. -/
theorem mem_found_run {x : β} (hx : x ∈ st.found) (bound : Nat) : x ∈ (w.run bound st).found :=
  run_induction (P := fun st => x ∈ st.found) hx
    (fun _ _ _ _ hx => mem_found_leave hx) bound

/-- What is found from the places of a set, when the walk does not leave it. -/
theorem forall_findFrom {I : σ → Prop} {P : β → Prop}
    (hnext : ∀ p, I p → ∀ n ∈ w.neighbours p, ∀ q, (w.look p n).next = some q → I q)
    (hfound : ∀ p, I p → ∀ n ∈ w.neighbours p, ∀ x ∈ (w.look p n).found, P x) (hstart : I start)
    (bound : Nat) (origin : Symbol) : ∀ x ∈ w.findFrom bound origin start, P x := by
  have hrun : (∀ p ∈ (w.run bound ⟨[origin], [start], []⟩).pending, I p) ∧
      ∀ x ∈ (w.run bound ⟨[origin], [start], []⟩).found, P x := by
    refine run_induction (P := fun st => (∀ p ∈ st.pending, I p) ∧ ∀ x ∈ st.found, P x)
      ⟨by simpa using hstart, by simp⟩ ?_ bound
    rintro here visited rest found ⟨hpending, hst⟩
    obtain ⟨hhere, hrest⟩ := List.forall_mem_cons.1 hpending
    refine ⟨pending_leave (hnext here hhere) hrest, ?_⟩
    exact leave_induction (P := fun st => ∀ x ∈ st.found, P x) hst fun n hn _ hst x hx =>
      (mem_found_arrive hx).elim (hst x) (hfound here hhere n hn x)
  exact hrun.2

section

variable {w' : Walk σ β} {x : β} (hneighbours : ∀ p, w.neighbours p = w'.neighbours p)
  (hlook : ∀ p n, w.look p n = w'.look p n ∨ x ∈ (w'.look p n).found)

include hlook in
theorem arrive_eq_or_found (here : σ) (st : State σ β) (n : Symbol) :
    w.arrive here st n = w'.arrive here st n ∨ x ∈ (w'.arrive here st n).found := by
  unfold Walk.arrive
  split
  · exact .inl rfl
  · rcases hlook here n with hlook | hx
    · rw [hlook]
      exact .inl rfl
    · exact .inr (List.mem_append_right _ hx)

include hneighbours hlook

theorem leave_eq_or_found (here : σ) (st : State σ β) :
    w.leave here st = w'.leave here st ∨ x ∈ (w'.leave here st).found := by
  unfold leave
  rw [hneighbours here]
  induction w'.neighbours here using List.reverseRecOn with
  | nil => exact .inl rfl
  | append_singleton l n ih =>
    rw [List.foldl_concat, List.foldl_concat]
    rcases ih with heq | hx
    · rw [heq]
      exact arrive_eq_or_found hlook here _ n
    · exact .inr (mem_found_arrive_of_mem hx)

/-- Walks whose looks agree, but where the second one finds a certain thing, go the same way
unless the second one finds that thing. -/
theorem run_eq_or_found (bound : Nat) (st : State σ β) :
    w.run bound st = w'.run bound st ∨ x ∈ (w'.run bound st).found := by
  induction bound generalizing st with
  | zero => exact .inl rfl
  | succ bound ih =>
    obtain ⟨visited, pending, found⟩ := st
    cases pending with
    | nil =>
      rw [run_done, run_done]
      exact .inl rfl
    | cons here rest =>
      show w.run bound (w.leave here ⟨visited, rest, found⟩) =
          w'.run bound (w'.leave here ⟨visited, rest, found⟩) ∨
        x ∈ (w'.run bound (w'.leave here ⟨visited, rest, found⟩)).found
      rcases leave_eq_or_found hneighbours hlook here ⟨visited, rest, found⟩ with heq | hx
      · rw [heq]
        exact ih _
      · exact .inr (mem_found_run hx bound)

end

/-! ## What is found -/

/-- **What a steady walk finds**: the blocks of the symbols that some place can reach, each
once. -/
theorem exists_arrivals {I : σ → Prop} {symbols : Finset Symbol} {bound : Nat}
    (hlab : w.Labelled label) (hsteady : w.Steady label start) (hw : w.Confined I symbols)
    (hstart : I start) (hbound : symbols.card < bound) :
    ∃ arrivals : List (σ × Symbol), (arrivals.map (·.2)).Nodup ∧
      (∀ a ∈ arrivals, w.Arrives label start a.1 a.2) ∧
      (∀ p n, w.Arrives label start p n → n ∈ arrivals.map (·.2)) ∧
      w.findFrom bound (label start) start = arrivals.flatMap fun a => (w.look a.1 a.2).found := by
  have hinit : (∀ p ∈ ([] : List σ), ∀ n ∈ w.neighbours p,
    n ∈ (⟨[label start], [start], []⟩ : State σ β).visited) := by simp
  obtain ⟨left, arrivals, h, hclosed⟩ := trace_init.run hlab bound hinit
  have hdone := pending_findFrom hw hstart hbound (label start)
  have hplaces : ∀ p, p ∈ left ↔
      p = start ∨ ∃ a ∈ arrivals, (w.look a.1 a.2).next = some p := by
    intro p
    rw [← h.places p, hdone]
    simp
  -- every symbol that a place on the way reaches was seen, from some place or other
  have hseen : ∀ p n, w.Arrives label start p n → p ∈ left → n ∈ arrivals.map (·.2) := by
    intro p n harr hp
    exact ((h.visited n).1 (hclosed p hp n harr.mem)).resolve_left harr.ne_start
  have hleft : ∀ p, w.Place label start p → p ∈ left := by
    intro p hp
    induction hp with
    | start => exact (hplaces _).2 (.inl rfl)
    | step hp hn hs hl hq ih =>
      have harr : w.Arrives label start _ _ := ⟨hp, hn, hs, hl⟩
      obtain ⟨a, ha, han⟩ := List.mem_map.1 (hseen _ _ harr ih)
      have hsame := hsteady _ _ _ (han ▸ h.arrives a ha) harr
      refine (hplaces _).2 (.inr ⟨a, ha, ?_⟩)
      rw [han, hsame]
      exact hq
  exact ⟨arrivals, h.nodup, h.arrives, fun p n harr => hseen p n harr (hleft p harr.place), h.found⟩

/-- Membership in what a steady walk finds. -/
theorem mem_findFrom {I : σ → Prop} {symbols : Finset Symbol} {bound : Nat}
    (hlab : w.Labelled label) (hsteady : w.Steady label start) (hw : w.Confined I symbols)
    (hstart : I start) (hbound : symbols.card < bound) {x : β} :
    x ∈ w.findFrom bound (label start) start ↔
      ∃ p n, w.Arrives label start p n ∧ x ∈ (w.look p n).found := by
  obtain ⟨arrivals, -, harr, hseen, hfound⟩ := exists_arrivals hlab hsteady hw hstart hbound
  rw [hfound, List.mem_flatMap]
  constructor
  · rintro ⟨a, ha, hx⟩
    exact ⟨a.1, a.2, harr a ha, hx⟩
  · rintro ⟨p, n, hpn, hx⟩
    obtain ⟨a, ha, rfl⟩ := List.mem_map.1 (hseen p n hpn)
    exact ⟨a, ha, by rwa [hsteady _ _ _ (harr a ha) hpn]⟩

/-- The walk that goes on everywhere finds what can be reached. -/
theorem mem_findFrom_everywhere {f : Symbol → List Symbol} {symbols : Finset Symbol} {bound : Nat}
    (hall : ∀ p, ∀ n ∈ f p, n ∈ symbols) (hbound : symbols.card < bound) {a b : Symbol}
    (hne : b ≠ a) :
    b ∈ (everywhere f).findFrom bound a a ↔ Relation.ReflTransGen (fun p q => q ∈ f p) a b := by
  have hlab : (everywhere f).Labelled id := fun _ _ _ hq => (Option.some.inj hq).symm
  have hplace : ∀ p, (everywhere f).Place id a p ↔
      Relation.ReflTransGen (fun p q => q ∈ f p) a p := by
    intro p
    constructor
    · intro hp
      induction hp with
      | start => exact .refl
      | step _ hn _ _ hq ih => exact Option.some.inj hq ▸ ih.tail hn
    · intro hp
      induction hp with
      | refl => exact .start
      | @tail p q _ hq ih =>
        by_cases hqa : q = a
        · exact hqa ▸ .start
        · by_cases hqp : q = p
          · exact hqp ▸ ih
          · exact .step ih hq hqa hqp rfl
  have harrives : (∃ p n, (everywhere f).Arrives id a p n ∧
      b ∈ ((everywhere f).look p n).found) ↔ Relation.ReflTransGen (fun p q => q ∈ f p) a b := by
    constructor
    · intro ⟨p, n, ha, hb⟩
      obtain rfl := List.mem_singleton.1 hb
      exact ((hplace p).1 ha.place).tail ha.mem
    · intro h
      induction h with
      | refl => exact absurd rfl hne
      | @tail p q hp hq ih =>
        by_cases hqp : q = p
        · exact hqp ▸ ih (hqp ▸ hne)
        · exact ⟨p, q, ⟨(hplace p).2 hp, hq, hne, hqp⟩, List.mem_singleton.2 rfl⟩
  rw [← harrives]
  have hsteady : (everywhere f).Steady id a := fun _ _ _ _ _ => rfl
  exact mem_findFrom hlab hsteady (.everywhere hall) trivial hbound

/-- The first thing of a kind that a steady walk finds, where things of that kind are found
at one symbol only. -/
theorem find?_findFrom {I : σ → Prop} {symbols : Finset Symbol} {bound : Nat}
    (hlab : w.Labelled label) (hsteady : w.Steady label start) (hw : w.Confined I symbols)
    (hstart : I start) (hbound : symbols.card < bound) {kind : β → Bool} {o : Symbol}
    (ho : ∀ p n x, w.Arrives label start p n → x ∈ (w.look p n).found → kind x = true → n = o)
    {x : β} :
    (w.findFrom bound (label start) start).find? kind = some x ↔
      ∃ p, w.Arrives label start p o ∧ (w.look p o).found.find? kind = some x := by
  obtain ⟨arrivals, hnodup, harr, hseen, hfound⟩ := exists_arrivals hlab hsteady hw hstart hbound
  have hat : ∀ a ∈ arrivals, ∀ y, (w.look a.1 a.2).found.find? kind = some y → a.2 = o :=
    fun a ha y hy =>
      ho a.1 a.2 y (harr a ha) (List.mem_of_find?_eq_some hy) (List.find?_some hy)
  rw [hfound, List.find?_flatMap]
  constructor
  · intro hx
    obtain ⟨a, ha, hax⟩ := List.exists_of_findSome?_eq_some hx
    obtain rfl := hat a ha x hax
    exact ⟨a.1, harr a ha, hax⟩
  · rintro ⟨p, hp, hx⟩
    obtain ⟨a, ha, hao⟩ := List.mem_map.1 (hseen p o hp)
    have hax : (w.look a.1 a.2).found.find? kind = some x := by
      rw [hsteady a.1 p a.2 (harr a ha) (hao ▸ hp), hao]
      exact hx
    have hsome : (arrivals.findSome? fun a => (w.look a.1 a.2).found.find? kind).isSome := by
      rw [List.isSome_findSome?, List.any_eq_true]
      exact ⟨a, ha, by rw [hax]; rfl⟩
    obtain ⟨y, hy⟩ := Option.isSome_iff_exists.1 hsome
    obtain ⟨b, hb, hby⟩ := List.exists_of_findSome?_eq_some hy
    -- both finds are made at the same symbol, which is looked at once
    have hba : b = a :=
      List.inj_on_of_nodup_map hnodup hb ha ((hat b hb y hby).trans hao.symm)
    rw [hy, ← hby, hba, hax]

/-! ## Two walks over one hierarchy -/

section

variable {σ' β' : Type} {R : σ → σ' → Prop} {Q : β → β' → Prop}

/-- From related places two walks reach the same symbols, and find related things there. -/
structure Mirrors (R : σ → σ' → Prop) (Q : β → β' → Prop) (w : Walk σ β) (w' : Walk σ' β')
    (label : σ → Symbol) (label' : σ' → Symbol) : Prop where
  labels : ∀ {p p'}, R p p' → label p = label' p'
  neighbours : ∀ {p p'}, R p p' → ∀ n, n ∈ w.neighbours p ↔ n ∈ w'.neighbours p'
  next : ∀ {p p'}, R p p' → ∀ n, Option.Rel R (w.look p n).next (w'.look p' n).next
  found : ∀ {p p'}, R p p' → ∀ n, List.Forall₂ Q (w.look p n).found (w'.look p' n).found

variable {w' : Walk σ' β'} {label' : σ' → Symbol} {start' : σ'}

theorem Mirrors.symm (h : Mirrors R Q w w' label label') :
    Mirrors (flip R) (flip Q) w' w label' label where
  labels hR := (h.labels hR).symm
  neighbours hR n := (h.neighbours hR n).symm
  next {p' p} hR n := by
    have hnext := h.next (show R p p' from hR) n
    revert hnext
    generalize (w.look p n).next = a
    generalize (w'.look p' n).next = b
    rintro (_ | _)
    · exact .some ‹_›
    · exact .none
  found hR n := (h.found hR n).flip

theorem Mirrors.place (h : Mirrors R Q w w' label label') (hs : R start start') {p : σ}
    (hp : w.Place label start p) : ∃ p', w'.Place label' start' p' ∧ R p p' := by
  induction hp with
  | start => exact ⟨start', .start, hs⟩
  | @step p q n hp hn hne hl hq ih =>
    obtain ⟨p', hp', hR⟩ := ih
    have hnext := h.next hR n
    rw [hq] at hnext
    generalize hq' : (w'.look p' n).next = o at hnext
    cases hnext with
    | @some _ q' hRq =>
      rw [h.labels hs] at hne
      rw [h.labels hR] at hl
      exact ⟨q', .step hp' ((h.neighbours hR n).1 hn) hne hl hq', hRq⟩

theorem Mirrors.arrives (h : Mirrors R Q w w' label label') (hs : R start start') {p : σ}
    {n : Symbol} (ha : w.Arrives label start p n) :
    ∃ p', w'.Arrives label' start' p' n ∧ R p p' := by
  obtain ⟨p', hp', hR⟩ := h.place hs ha.place
  exact ⟨p', ⟨hp', (h.neighbours hR n).1 ha.mem, h.labels hs ▸ ha.ne_start,
    h.labels hR ▸ ha.ne_self⟩, hR⟩

/-- Both walks find related things. -/
theorem Mirrors.relist {symbols symbols' : Finset Symbol} {bound bound' : Nat}
    (h : Mirrors R Q w w' label label') (hs : R start start')
    (hlab : w.Labelled label) (hlab' : w'.Labelled label')
    (hsteady : w.Steady label start) (hsteady' : w'.Steady label' start')
    (hall : ∀ p, ∀ n ∈ w.neighbours p, n ∈ symbols)
    (hall' : ∀ p, ∀ n ∈ w'.neighbours p, n ∈ symbols')
    (hbound : symbols.card < bound) (hbound' : symbols'.card < bound') :
    Relist Q (w.findFrom bound (label start) start)
      (w'.findFrom bound' (label' start') start') := by
  have hfound := fun x =>
    mem_findFrom (x := x) hlab hsteady (.everywhere hall) trivial hbound
  have hfound' := fun y =>
    mem_findFrom (x := y) hlab' hsteady' (.everywhere hall') trivial hbound'
  constructor
  · intro x hx
    obtain ⟨p, n, ha, hx⟩ := (hfound x).1 hx
    obtain ⟨p', ha', hR⟩ := h.arrives hs ha
    obtain ⟨y, hy, hQ⟩ := (Relist.of_forall₂ (h.found hR n)).1 x hx
    exact ⟨y, (hfound' y).2 ⟨p', n, ha', hy⟩, hQ⟩
  · intro y hy
    obtain ⟨p', n, ha', hy⟩ := (hfound' y).1 hy
    obtain ⟨p, ha, hR⟩ := h.symm.arrives (show flip R start' start from hs) ha'
    obtain ⟨x, hx, hQ⟩ := (Relist.of_forall₂ (h.found (show R p p' from hR) n)).2 y hy
    exact ⟨x, (hfound x).2 ⟨p, n, ha, hx⟩, hQ⟩

/-- The first things of a kind that both walks find are related. -/
theorem Mirrors.find? {symbols symbols' : Finset Symbol} {bound bound' : Nat}
    (h : Mirrors R Q w w' label label') (hs : R start start')
    (hlab : w.Labelled label) (hlab' : w'.Labelled label')
    (hsteady : w.Steady label start) (hsteady' : w'.Steady label' start')
    (hall : ∀ p, ∀ n ∈ w.neighbours p, n ∈ symbols)
    (hall' : ∀ p, ∀ n ∈ w'.neighbours p, n ∈ symbols')
    (hbound : symbols.card < bound) (hbound' : symbols'.card < bound')
    {kind : β → Bool} {kind' : β' → Bool} (hkind : ∀ x y, Q x y → kind x = kind' y) {o : Symbol}
    (ho : ∀ p n x, w.Arrives label start p n → x ∈ (w.look p n).found → kind x = true → n = o)
    (ho' : ∀ p n x, w'.Arrives label' start' p n → x ∈ (w'.look p n).found → kind' x = true →
      n = o) :
    Option.Rel Q ((w.findFrom bound (label start) start).find? kind)
      ((w'.findFrom bound' (label' start') start').find? kind') := by
  have hiff := @find?_findFrom _ _ w label start _ symbols bound hlab hsteady (.everywhere hall)
    trivial hbound kind o ho
  have hiff' :=
    @find?_findFrom _ _ w' label' start' _ symbols' bound' hlab' hsteady' (.everywhere hall')
      trivial hbound' kind' o ho'
  generalize (w.findFrom bound (label start) start).find? kind = a at hiff
  generalize (w'.findFrom bound' (label' start') start').find? kind' = b at hiff'
  cases a with
  | some x =>
    obtain ⟨p, hp, hx⟩ := hiff.1 rfl
    obtain ⟨p', hp', hR⟩ := h.arrives hs hp
    obtain ⟨y, hy, hQ⟩ := exists_of_rel_some (forall₂_find? (h.found hR o) hkind) hx
    rw [hiff'.2 ⟨p', hp', hy⟩]
    exact .some hQ
  | none =>
    cases b with
    | none => exact .none
    | some y =>
      obtain ⟨p', hp', hy⟩ := hiff'.1 rfl
      obtain ⟨p, hp, hR⟩ := h.symm.arrives (show flip R start' start from hs) hp'
      have hrel := forall₂_find? (h.found (show R p p' from hR) o) hkind
      rw [hy] at hrel
      generalize hx : (w.look p o).found.find? kind = c at hrel
      cases hrel with
      | some _ => exact absurd (hiff.2 ⟨p, hp, hx⟩) (by simp)

theorem forall₂_toList {a : Option σ} {b : Option σ'} (h : Option.Rel R a b) :
    List.Forall₂ R a.toList b.toList := by
  cases h with
  | some hR => exact .cons hR .nil
  | none => exact .nil

/-- From related places two walks take the same way. -/
structure Follows (R : σ → σ' → Prop) (Q : β → β' → Prop) (w : Walk σ β) (w' : Walk σ' β') :
    Prop where
  neighbours : ∀ {p p'}, R p p' → w.neighbours p = w'.neighbours p'
  next : ∀ {p p'}, R p p' → ∀ n, Option.Rel R (w.look p n).next (w'.look p' n).next
  found : ∀ {p p'}, R p p' → ∀ n, List.Forall₂ Q (w.look p n).found (w'.look p' n).found

/-- States of two walks that took the same way. -/
structure State.Follows (R : σ → σ' → Prop) (Q : β → β' → Prop) (st : State σ β)
    (st' : State σ' β') : Prop where
  visited : st.visited = st'.visited
  pending : List.Forall₂ R st.pending st'.pending
  found : List.Forall₂ Q st.found st'.found

theorem Follows.arrive {st' : State σ' β'} (h : Follows R Q w w') {here : σ} {here' : σ'}
    (hR : R here here') (hst : st.Follows R Q st') (n : Symbol) :
    (w.arrive here st n).Follows R Q (w'.arrive here' st' n) := by
  unfold Walk.arrive
  rw [hst.visited]
  by_cases hv : n ∈ st'.visited
  · rw [if_pos hv, if_pos hv]
    exact hst
  · rw [if_neg hv, if_neg hv]
    exact ⟨rfl, List.rel_append (forall₂_toList (h.next hR n)) hst.pending,
      List.rel_append hst.found (h.found hR n)⟩

theorem Follows.leave {st' : State σ' β'} (h : Follows R Q w w') {here : σ} {here' : σ'}
    (hR : R here here') (hst : st.Follows R Q st') :
    (w.leave here st).Follows R Q (w'.leave here' st') := by
  unfold Walk.leave
  rw [h.neighbours hR]
  induction w'.neighbours here' generalizing st st' with
  | nil => exact hst
  | cons n l ih => exact ih (h.arrive hR hst n)

theorem Follows.run {st' : State σ' β'} (h : Follows R Q w w') (bound : Nat)
    (hst : st.Follows R Q st') : (w.run bound st).Follows R Q (w'.run bound st') := by
  induction bound generalizing st st' with
  | zero => exact hst
  | succ bound ih =>
    obtain ⟨visited, pending, found⟩ := st
    obtain ⟨visited', pending', found'⟩ := st'
    obtain ⟨hvisited, hpending, hfound⟩ := hst
    dsimp only at hvisited hpending hfound
    cases hpending with
    | nil =>
      rw [run_done, run_done]
      exact ⟨hvisited, .nil, hfound⟩
    | @cons here here' rest rest' hR hrest =>
      exact ih (h.leave hR ⟨hvisited, hrest, hfound⟩)

/-- Walks that take the same way find related things in the same order. -/
theorem Follows.findFrom (h : Follows R Q w w') (hs : R start start') (bound : Nat)
    (origin : Symbol) :
    List.Forall₂ Q (w.findFrom bound origin start) (w'.findFrom bound origin start') :=
  (h.run bound ⟨rfl, .cons hs .nil, .nil⟩).found

end

end Walk

end ClassImpact

import ClassImpact.Proofs.Compared
import ClassImpact.Proofs.Searches

/-!
# Impacts that bring about the same

Two impacts match when they draw in the same files and search for the same things in the
same classes, in whatever order, and put the same limit on every usage.  The order of an
impact shows only where limits meet: the last one counts.  So impacts put one behind the
other match part by part, but a loop over a set has to set no limits at all.
-/

namespace ClassImpact

namespace Impact

/-! ## Parts of an impact -/

/-- One thing that an impact can bring about. -/
inductive Effect where
  | file (path : SourcePath)
  | search (c : Symbol)
  | usage (u : Usage)
  | query (q : AnnotationUse)

/-- The impact brings a thing about. -/
def Brings (a : Impact) : Effect → Prop
  | .file path => path ∈ a.files
  | .search c => c ∈ a.dependants
  | .usage u => u ∈ a.usages
  | .query q => q ∈ a.queries

variable {a b a' b' : Impact}

theorem brings_append (h : a.stop = .none) (e : Effect) :
    (a ++ b).Brings e ↔ a.Brings e ∨ b.Brings e := by
  rw [append_def, andThen, h]
  cases e <;> exact List.mem_append

theorem requests_append (h : a.stop = .none) : (a ++ b).requests = a.requests ++ b.requests := by
  rw [append_def, andThen, h]

theorem limits_append (h : a.stop = .none) : (a ++ b).limits = a.limits ++ b.limits := by
  rw [append_def, andThen, h]

theorem stop_append_of_none (h : a.stop = .none) (b : Impact) : (a ++ b).stop = b.stop := by
  rw [append_def, andThen, h]

theorem append_of_stop {stop : Stop} (h : a.stop = some stop) : a ++ b = a := by
  rw [append_def, andThen, h]

/-- Impacts that stop at something unbounded only are unbounded together when one is. -/
theorem stop_all_of_mem {l : List Impact}
    (h : ∀ a ∈ l, a.stop = .none ∨ a.stop = some .unbounded) (ha : a ∈ l)
    (hstop : a.stop = some .unbounded) : (all l).stop = some .unbounded := by
  induction l with
  | nil => simp at ha
  | cons b l ih =>
    obtain ⟨hb, hl⟩ := List.forall_mem_cons.1 h
    rw [all_cons]
    rcases hb with hb | hb
    · have hal : a ∈ l := by
        rcases List.mem_cons.1 ha with rfl | ha
        · rw [hb] at hstop
          simp at hstop
        · exact ha
      rw [append_def, andThen, hb]
      exact ih hl hal
    · rw [append_of_stop hb, hb]

theorem not_brings_none (e : Effect) : ¬ none.Brings e := by
  cases e <;> simp [Brings, none]

theorem brings_all {l : List Impact} (h : ∀ a ∈ l, a.stop = .none) (e : Effect) :
    (all l).Brings e ↔ ∃ a ∈ l, a.Brings e := by
  induction l with
  | nil => simpa using not_brings_none e
  | cons a l ih =>
    obtain ⟨ha, hl⟩ := List.forall_mem_cons.1 h
    rw [all_cons, brings_append ha, ih hl, List.exists_mem_cons_iff]

/-- Impacts that do not stop lack together what each of them lacks. -/
theorem part_all_eq_nil {α : Type} {part : Impact → List α} (hnone : part none = [])
    (happend : ∀ {a b : Impact}, a.stop = .none → part (a ++ b) = part a ++ part b)
    {l : List Impact} (h : ∀ a ∈ l, a.stop = .none ∧ part a = []) : part (all l) = [] := by
  refine (all_induction (P := fun a => a.stop = .none ∧ part a = []) ⟨rfl, hnone⟩ ?_ h).2
  intro a b ha hb
  refine ⟨stop_append.2 ⟨ha.1, hb.1⟩, ?_⟩
  rw [happend ha.1, ha.2, hb.2]
  rfl

/-- The last limit on a usage is one of the later impact, if that sets any. -/
theorem limitOn?_append (h : a.stop = .none) (u : Usage) :
    (a ++ b).limitOn? u = (b.limitOn? u).or (a.limitOn? u) := by
  unfold limitOn?
  rw [limits_append h, List.reverse_append, List.find?_append, Option.map_or]

/-- A limit that counts at the end was set by some impact. -/
theorem exists_of_limitOn?_all {l : List Impact} (h : ∀ a ∈ l, a.stop = .none) {u : Usage}
    {r : Residency} (hr : (all l).limitOn? u = some r) : ∃ a ∈ l, a.limitOn? u = some r := by
  induction l with
  | nil => simp [limitOn?, none] at hr
  | cons a l ih =>
    obtain ⟨ha, hl⟩ := List.forall_mem_cons.1 h
    rw [all_cons, limitOn?_append ha, Option.or_eq_some_iff] at hr
    rcases hr with hr | ⟨-, hr⟩
    · obtain ⟨b, hb, hbr⟩ := ih hl hr
      exact ⟨b, List.mem_cons_of_mem _ hb, hbr⟩
    · exact ⟨a, List.mem_cons_self, hr⟩

theorem limitOn?_all_eq_none {l : List Impact} (h : ∀ a ∈ l, a.stop = .none) {u : Usage} :
    (all l).limitOn? u = .none ↔ ∀ a ∈ l, a.limitOn? u = .none := by
  induction l with
  | nil => simp [limitOn?, none]
  | cons a l ih =>
    obtain ⟨ha, hl⟩ := List.forall_mem_cons.1 h
    rw [all_cons, limitOn?_append ha, Option.or_eq_none_iff, ih hl, List.forall_mem_cons, and_comm]

theorem limitOn?_ofLimit (usages : List Usage) (r : Residency) (u : Usage) :
    (ofLimit usages r).limitOn? u = if u ∈ usages then some r else .none := by
  have hfind : (usages.map fun v => (v, r)).reverse.find? (fun l => l.1 = u) =
      if u ∈ usages then some (u, r) else .none := by
    rw [← List.map_reverse, List.find?_map]
    by_cases hu : u ∈ usages
    · have hsome : (usages.reverse.find? ((fun l : Usage × Residency => decide (l.1 = u)) ∘
          fun v => (v, r))).isSome := by
        rw [List.find?_isSome]
        exact ⟨u, by simpa using hu, by simp⟩
      obtain ⟨v, hv⟩ := Option.isSome_iff_exists.1 hsome
      have hvu : v = u := by simpa using List.find?_some hv
      rw [hv, hvu, if_pos hu]
      rfl
    · have hnone : usages.reverse.find? ((fun l : Usage × Residency => decide (l.1 = u)) ∘
          fun v => (v, r)) = .none := by
        rw [List.find?_eq_none]
        intro v hv
        have hvu : v ≠ u := fun hvu => hu (hvu ▸ List.mem_reverse.1 hv)
        simpa using hvu
      rw [hnone, if_neg hu]
      rfl
  unfold limitOn? ofLimit
  dsimp only
  rw [hfind]
  by_cases hu : u ∈ usages
  · rw [if_pos hu, if_pos hu]
    rfl
  · rw [if_neg hu, if_neg hu]
    rfl

/-! ## Matching impacts -/

/-- Neither impact stops or asks, and both bring about the same. -/
structure Likewise (a b : Impact) : Prop where
  goesOn : a.stop = .none ∧ b.stop = .none
  silent : a.requests = [] ∧ b.requests = []
  brings : ∀ e, a.Brings e ↔ b.Brings e

/-- Both impacts also put the same limit on every usage. -/
structure Matches (a b : Impact) : Prop extends a.Likewise b where
  limits : ∀ u, a.limitOn? u = b.limitOn? u

/-- Matching impacts without limits. -/
structure Plain (a b : Impact) : Prop extends a.Matches b where
  unlimited : a.limits = [] ∧ b.limits = []

/-- Impacts that match, or reach further than can be told, both of them. -/
def Alike (a b : Impact) : Prop :=
  (a.stop = some .unbounded ∧ b.stop = some .unbounded) ∨ a.Matches b

theorem Matches.alike (h : a.Matches b) : a.Alike b := .inr h

theorem Plain.alike (h : a.Plain b) : a.Alike b := h.toMatches.alike

theorem plain_none : none.Plain none where
  goesOn := ⟨rfl, rfl⟩
  silent := ⟨rfl, rfl⟩
  brings _ := Iff.rfl
  limits _ := rfl
  unlimited := ⟨rfl, rfl⟩

theorem limitOn?_of_unlimited (h : a.limits = []) (u : Usage) : a.limitOn? u = .none := by
  simp [limitOn?, h]

/-- Impacts without stops, questions and limits match when they bring about the same. -/
theorem Plain.of_brings (hstop : a.stop = .none ∧ b.stop = .none)
    (hask : a.requests = [] ∧ b.requests = []) (hlimits : a.limits = [] ∧ b.limits = [])
    (h : ∀ e, a.Brings e ↔ b.Brings e) : a.Plain b where
  goesOn := hstop
  silent := hask
  brings := h
  limits u := by rw [limitOn?_of_unlimited hlimits.1, limitOn?_of_unlimited hlimits.2]
  unlimited := hlimits

theorem plain_ofFiles (files : List SourcePath) : (ofFiles files).Plain (ofFiles files) :=
  .of_brings ⟨rfl, rfl⟩ ⟨rfl, rfl⟩ ⟨rfl, rfl⟩ fun _ => Iff.rfl

theorem plain_ofDependants {l m : List Symbol} (h : ∀ c, c ∈ l ↔ c ∈ m) :
    (ofDependants l).Plain (ofDependants m) :=
  .of_brings ⟨rfl, rfl⟩ ⟨rfl, rfl⟩ ⟨rfl, rfl⟩ fun e => by
    cases e with
    | search c => exact h c
    | _ => exact Iff.rfl

theorem plain_ofUsages {l m : List Usage} (h : ∀ u, u ∈ l ↔ u ∈ m) :
    (ofUsages l).Plain (ofUsages m) :=
  .of_brings ⟨rfl, rfl⟩ ⟨rfl, rfl⟩ ⟨rfl, rfl⟩ fun e => by
    cases e with
    | usage u => exact h u
    | _ => exact Iff.rfl

theorem plain_ofQuery (q : AnnotationUse) : (ofQuery q).Plain (ofQuery q) :=
  .of_brings ⟨rfl, rfl⟩ ⟨rfl, rfl⟩ ⟨rfl, rfl⟩ fun _ => Iff.rfl

theorem matches_ofLimit {l m : List Usage} (h : ∀ u, u ∈ l ↔ u ∈ m) (r : Residency) :
    (ofLimit l r).Matches (ofLimit m r) where
  goesOn := ⟨rfl, rfl⟩
  silent := ⟨rfl, rfl⟩
  brings e := by cases e <;> exact Iff.rfl
  limits u := by simp only [limitOn?_ofLimit, h]

/-! ## Putting impacts together -/

theorem Likewise.append (h : a.Likewise b) (h' : a'.Likewise b') :
    (a ++ a').Likewise (b ++ b') where
  goesOn := ⟨stop_append.2 ⟨h.goesOn.1, h'.goesOn.1⟩, stop_append.2 ⟨h.goesOn.2, h'.goesOn.2⟩⟩
  silent := by
    rw [requests_append h.goesOn.1, requests_append h.goesOn.2, h.silent.1, h.silent.2,
      h'.silent.1, h'.silent.2]
    exact ⟨rfl, rfl⟩
  brings e := by
    rw [brings_append h.goesOn.1, brings_append h.goesOn.2, h.brings, h'.brings]

theorem Matches.append (h : a.Matches b) (h' : a'.Matches b') : (a ++ a').Matches (b ++ b') where
  toLikewise := h.toLikewise.append h'.toLikewise
  limits u := by
    rw [limitOn?_append h.goesOn.1, limitOn?_append h.goesOn.2, h.limits, h'.limits]

theorem Plain.append (h : a.Plain b) (h' : a'.Plain b') : (a ++ a').Plain (b ++ b') where
  toMatches := h.toMatches.append h'.toMatches
  unlimited := by
    rw [limits_append h.goesOn.1, limits_append h.goesOn.2, h.unlimited.1, h.unlimited.2,
      h'.unlimited.1, h'.unlimited.2]
    exact ⟨rfl, rfl⟩

theorem Alike.append (h : a.Alike b) (h' : a'.Alike b') : (a ++ a').Alike (b ++ b') := by
  rcases h with ⟨ha, hb⟩ | h
  · refine .inl ⟨?_, ?_⟩
    · rw [append_of_stop ha, ha]
    · rw [append_of_stop hb, hb]
  · rcases h' with ⟨ha', hb'⟩ | h'
    · exact .inl ⟨(stop_append_of_none h.goesOn.1 a').trans ha',
        (stop_append_of_none h.goesOn.2 b').trans hb'⟩
    · exact (h.append h').alike

/-- Impacts in the same order. -/
theorem Alike.all {l m : List Impact} (h : List.Forall₂ Alike l m) :
    (all l).Alike (all m) := by
  induction h with
  | nil => exact plain_none.alike
  | cons hab _ ih => exact hab.append ih

/-- Impacts in any order bring about the same together. -/
theorem Likewise.all {l m : List Impact} (h : Relist Likewise l m) :
    (all l).Likewise (all m) := by
  have hl : ∀ a ∈ l, a.stop = .none ∧ a.requests = [] := fun a ha => by
    obtain ⟨b, -, hab⟩ := h.1 a ha
    exact ⟨hab.goesOn.1, hab.silent.1⟩
  have hm : ∀ b ∈ m, b.stop = .none ∧ b.requests = [] := fun b hb => by
    obtain ⟨a, -, hab⟩ := h.2 b hb
    exact ⟨hab.goesOn.2, hab.silent.2⟩
  have hlstop := fun a ha => (hl a ha).1
  have hmstop := fun b hb => (hm b hb).1
  refine ⟨⟨stop_all.2 hlstop, stop_all.2 hmstop⟩,
    ⟨part_all_eq_nil rfl requests_append hl, part_all_eq_nil rfl requests_append hm⟩,
    fun e => ?_⟩
  rw [brings_all hlstop, brings_all hmstop]
  constructor
  · intro ⟨a, ha, he⟩
    obtain ⟨b, hb, hab⟩ := h.1 a ha
    exact ⟨b, hb, (hab.brings e).1 he⟩
  · intro ⟨b, hb, he⟩
    obtain ⟨a, ha, hab⟩ := h.2 b hb
    exact ⟨a, ha, (hab.brings e).2 he⟩

/-- Impacts without limits, in any order. -/
theorem Plain.all {l m : List Impact} (h : Relist Plain l m) : (all l).Plain (all m) := by
  have hall := Likewise.all (h.imp fun _ _ hab => hab.toLikewise)
  have hl : (Impact.all l).limits = [] := by
    refine part_all_eq_nil rfl limits_append fun a ha => ?_
    obtain ⟨b, -, hab⟩ := h.1 a ha
    exact ⟨hab.goesOn.1, hab.unlimited.1⟩
  have hm : (Impact.all m).limits = [] := by
    refine part_all_eq_nil rfl limits_append fun b hb => ?_
    obtain ⟨a, -, hab⟩ := h.2 b hb
    exact ⟨hab.goesOn.2, hab.unlimited.2⟩
  exact .of_brings hall.goesOn hall.silent ⟨hl, hm⟩ hall.brings

/-- Impacts in any order: together they are unbounded, or bring about the same. -/
theorem likewise_all {l m : List Impact} (h : Relist Alike l m) :
    ((all l).stop = some .unbounded ∧ (all m).stop = some .unbounded) ∨
      (all l).Likewise (all m) := by
  by_cases hstop : ∃ a ∈ l, a.stop = some .unbounded
  · obtain ⟨a, ha, hastop⟩ := hstop
    obtain ⟨b, hb, hab⟩ := h.1 a ha
    have hbstop : b.stop = some .unbounded := by
      rcases hab with hab | hab
      · exact hab.2
      · rw [hab.goesOn.1] at hastop
        simp at hastop
    refine .inl ⟨stop_all_of_mem (fun x hx => ?_) ha hastop,
      stop_all_of_mem (fun y hy => ?_) hb hbstop⟩
    · obtain ⟨y, -, hxy⟩ := h.1 x hx
      exact hxy.elim (fun hxy => .inr hxy.1) fun hxy => .inl hxy.goesOn.1
    · obtain ⟨x, -, hxy⟩ := h.2 y hy
      exact hxy.elim (fun hxy => .inr hxy.2) fun hxy => .inl hxy.goesOn.2
  · refine .inr (.all ⟨fun a ha => ?_, fun b hb => ?_⟩)
    · obtain ⟨b, hb, hab⟩ := h.1 a ha
      exact ⟨b, hb, (hab.resolve_left fun hab => hstop ⟨a, ha, hab.1⟩).toLikewise⟩
    · obtain ⟨a, ha, hab⟩ := h.2 b hb
      exact ⟨a, ha, (hab.resolve_left fun hab => hstop ⟨a, ha, hab.1⟩).toLikewise⟩

/-- A loop over a set whose members do without limits. -/
theorem plain_loop {α β : Type} {R : α → β → Prop} {l : List α} {m : List β} {f : α → Impact}
    {g : β → Impact} (h : Relist R l m) (hfg : ∀ x y, R x y → (f x).Plain (g y)) :
    (all (l.map f)).Plain (all (m.map g)) :=
  .all (h.map hfg)

/-- A loop over a list. -/
theorem alike_loop {α β : Type} {R : α → β → Prop} {l : List α} {m : List β} {f : α → Impact}
    {g : β → Impact} (h : List.Forall₂ R l m) (hfg : ∀ x y, R x y → (f x).Alike (g y)) :
    (all (l.map f)).Alike (all (m.map g)) := by
  refine .all ?_
  rw [List.forall₂_map_left_iff, List.forall₂_map_right_iff]
  exact h.imp fun x y => hfg x y

theorem Plain.onlyIf (condition : Bool) (h : a.Plain b) :
    (onlyIf condition a).Plain (onlyIf condition b) :=
  onlyIf_related plain_none fun _ => h

theorem Alike.onlyIf (condition : Bool) (h : a.Alike b) :
    (onlyIf condition a).Alike (onlyIf condition b) :=
  onlyIf_related plain_none.alike fun _ => h

/-- Impacts of related results are related when those of related values are. -/
theorem ofResult_both {α β : Type} {R : α → β → Prop} {P : Impact → Impact → Prop}
    {r : Except Fault α} {r' : Except Fault β} {f : α → Impact} {g : β → Impact}
    (h : BothOk R r r') (hfg : ∀ x y, R x y → P (f x) (g y)) :
    P (ofResult r f) (ofResult r' g) := by
  obtain ⟨x, y, rfl, rfl, hR⟩ := h
  exact hfg x y hR

end Impact

end ClassImpact

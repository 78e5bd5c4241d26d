import ClassImpact.Proofs.SavedNames
import ClassImpact.Proofs.Widening

/-!
# Answers of all rounds

A comparison has an answer when everything that it may have to name has a name.  It asks for a
full rebuild when a change has no bound, on the spot or because the question about it stays
open.

An impact is put together from many parts, and the answer of a round from many impacts.  What
one part draws in stands in the whole, unless the whole stops; and a file that the whole draws
in is affected at the end, unless it was removed.  So a fact about a whole answer follows
from the one rule that brings it about.

## Main results

* `exists_answer`: a comparison has an answer
* `Impact.PartOf`: what an impact brings about, another brings about as well
* `Scene.affected_of_drawn`: a file that is drawn in is affected or removed
-/

namespace ClassImpact

theorem exists_of_bind_ok {ε α β : Type} {r : Except ε α} {f : α → Except ε β} {b : β}
    (h : r >>= f = .ok b) : ∃ a, r = .ok a ∧ f a = .ok b := by
  cases r with
  | ok a => exact ⟨a, rfl, h⟩
  | error e => cases h

/-- What every step of a run keeps, the run keeps. -/
theorem foldlM_invariant {ε α β : Type} {f : β → α → Except ε β} {P : β → Prop}
    (hstep : ∀ b a b', f b a = .ok b' → P b → P b') {l : List α} {b b' : β}
    (h : l.foldlM f b = .ok b') (hb : P b) : P b' := by
  induction l generalizing b with
  | nil =>
    cases h
    exact hb
  | cons a l ih =>
    rw [List.foldlM_cons] at h
    obtain ⟨b₁, hb₁, h⟩ := exists_of_bind_ok h
    exact ih h (hstep b a b₁ hb₁ hb)

/-! ## Names in the table of a comparison -/

namespace NameTable

variable {names : NameTable} {s : Symbol} {text : String}

theorem name_eq_ok_iff : names.name s = .ok text ↔ names.name? s = some text := by
  unfold name
  cases names.name? s <;> simp

theorem name_keyNames {main round : Graph} {q : RoundRequest} (h : names.name s = .ok text) :
    (Scene.of names main round q).names.name s = .ok text :=
  name_eq_ok_iff.2 (name?_intern (name?_intern (name_eq_ok_iff.1 h) _) _)

theorem packageOf_keyNames {main round : Graph} {q : RoundRequest}
    (h : names.packageOf s = .ok text) :
    (Scene.of names main round q).names.packageOf s = .ok text := by
  unfold packageOf at h ⊢
  cases hs : names.name s with
  | error e =>
    rw [hs] at h
    cases h
  | ok full =>
    rw [hs] at h
    rw [name_keyNames hs]
    exact h

end NameTable

/-! ## Rounds without a bound -/

namespace Scene

variable {s : Scene} {a : Impact} {answer : ConstantRequest → ConstantAnswer}

/-- A change reaches further than can be told, on the spot or because the question about it
stays open. -/
def OpenEnded (s : Scene) (a : Impact) (answer : ConstantRequest → ConstantAnswer) : Prop :=
  a.stop = some .unbounded ∨
    a.stop = none ∧ ∃ r ∈ a.requests, answer r = .unknown ∧ (s.widening r).stop = some .unbounded

theorem conclude_of_openEnded (hn : s.Named)
    (hfaults : a.stop = none → ∀ r ∈ a.requests, (s.widening r).Faultless)
    (h : s.OpenEnded a answer) (compiled removed : List SourcePath) :
    s.conclude a compiled removed answer = .ok .fullRebuild := by
  rcases h with hstop | ⟨hstop, hopen⟩
  · rw [conclude, hstop]
    rfl
  · obtain ⟨p, hp, -⟩ := searched_ok hn a compiled
    rw [conclude_of_search hstop hp, settleAll_unbounded (hfaults hstop) hopen]
    rfl

/-- An impact that is not open-ended has an answer for each of its questions. -/
theorem settled_of_not_openEnded (hfault : a.Faultless)
    (hfaults : a.stop = none → ∀ r ∈ a.requests, (s.widening r).Faultless)
    (h : ¬ s.OpenEnded a answer) :
    a.stop = none ∧ ∀ r ∈ a.requests, answer r = .unknown → (s.widening r).stop = none := by
  have hstop : a.stop = none := hfault.resolve_right fun hstop => h (.inl hstop)
  refine ⟨hstop, fun r hr hanswer => ?_⟩
  exact (hfaults hstop r hr).resolve_right fun hwide => h (.inr ⟨hstop, r, hr, hanswer, hwide⟩)

theorem exists_conclude (hn : s.Named) (hfault : a.Faultless)
    (hfaults : a.stop = none → ∀ r ∈ a.requests, (s.widening r).Faultless)
    (compiled removed : List SourcePath) (answer : ConstantRequest → ConstantAnswer) :
    ∃ outcome, s.conclude a compiled removed answer = .ok outcome := by
  by_cases hopen : s.OpenEnded a answer
  · exact ⟨_, conclude_of_openEnded hn hfaults hopen compiled removed⟩
  · obtain ⟨hstop, hbounded⟩ := settled_of_not_openEnded hfault hfaults hopen
    obtain ⟨p, hp, -⟩ := conclude_asked hn hstop answer hbounded compiled removed
    exact ⟨_, hp⟩

/-- The impact of a round is faultless, and so is what its questions are widened to. -/
theorem faultless_impact (hnames : s.names.Covers s.main s.round) (removed : List SourcePath)
    (files : List Symbol) :
    let a := s.impact removed (ClassEvent.ofFiles s.main s.round files)
    a.Faultless ∧ (a.stop = none → ∀ r ∈ a.requests, (s.widening r).Faultless) := by
  have hdefers := defers_impact (s := { s with canAsk := false }) hnames rfl removed files
  cases hask : s.canAsk with
  | true =>
    have hs : ({ s with canAsk := false } : Scene).asking = s := by
      unfold asking
      rw [← hask]
    rw [hs] at hdefers
    exact ⟨hdefers.faultless_stop, hdefers.faultless⟩
  | false =>
    have hs : ({ s with canAsk := false } : Scene) = s := by rw [← hask]
    rw [hs] at hdefers
    rcases hdefers.together with ⟨hstop, -⟩ | hpost
    · exact ⟨.inr hstop, fun hnone => by simp [hstop] at hnone⟩
    · exact ⟨.inl hpost.goesOn, fun _ r hr => by simp [hpost.silent] at hr⟩

end Scene

/-- A comparison has an answer when everything that it may have to name has a name. -/
theorem exists_answer {names : NameTable} {main round : Graph}
    (hnames : names.Covers main round) (log : ChangeLog) (q : RoundRequest)
    (files : List Symbol) :
    ∃ answer, (compareInOrder names main round log q files).outcome = .ok answer := by
  have hcovers : (Scene.of names main round q).names.Covers main round := hnames.keyNames
  obtain ⟨hfault, hfaults⟩ := Scene.faultless_impact (s := Scene.of names main round q) hcovers
    q.removed files
  exact Scene.exists_conclude hcovers.named hfault hfaults q.compiled q.removed q.answer

/-! ## Parts of impacts -/

namespace Impact

/-- What an impact brings about, another brings about as well, unless that one stops. -/
def PartOf (a b : Impact) : Prop :=
  b.stop = .none → a.stop = .none ∧ (∀ e, a.Brings e → b.Brings e) ∧ a.requests ⊆ b.requests

variable {a b c : Impact}

theorem PartOf.refl (a : Impact) : a.PartOf a :=
  fun hstop => ⟨hstop, fun _ he => he, List.Subset.refl _⟩

theorem PartOf.trans (h : a.PartOf b) (h' : b.PartOf c) : a.PartOf c := by
  intro hc
  obtain ⟨hb, hbrings', hrequests'⟩ := h' hc
  obtain ⟨ha, hbrings, hrequests⟩ := h hb
  exact ⟨ha, fun e he => hbrings' e (hbrings e he), List.Subset.trans hrequests hrequests'⟩

theorem partOf_append_left (a b : Impact) : a.PartOf (a ++ b) := by
  intro hstop
  obtain ⟨ha, -⟩ := stop_append.1 hstop
  refine ⟨ha, fun e he => (brings_append ha e).2 (.inl he), ?_⟩
  rw [requests_append ha]
  exact List.subset_append_left _ _

theorem partOf_append_right (a b : Impact) : b.PartOf (a ++ b) := by
  intro hstop
  obtain ⟨ha, hb⟩ := stop_append.1 hstop
  refine ⟨hb, fun e he => (brings_append ha e).2 (.inr he), ?_⟩
  rw [requests_append ha]
  exact List.subset_append_right _ _

theorem partOf_all {l : List Impact} (h : a ∈ l) : a.PartOf (all l) := by
  induction l with
  | nil => simp at h
  | cons b l ih =>
    rw [all_cons]
    rcases List.mem_cons.1 h with rfl | h
    · exact partOf_append_left a (all l)
    · exact (ih h).trans (partOf_append_right b (all l))

theorem partOf_loop {α : Type} {l : List α} {x : α} (h : x ∈ l) (f : α → Impact) :
    (f x).PartOf (all (l.map f)) :=
  partOf_all (List.mem_map_of_mem h)

end Impact

/-! ## From what is drawn in to the answer -/

namespace Scene

variable {s : Scene} {a : Impact} {compiled removed : List SourcePath} {affected p : PathSet}
  {answer : ConstantRequest → ConstantAnswer} {k : List Component}

/-- A file that has a name and is accepted is drawn in. -/
theorem mem_acceptedFile {file : Symbol} {text : String} (htext : s.names.name file = .ok text)
    (haccepts : s.accepts ⟨text⟩ = true) : ⟨text⟩ ∈ (s.acceptedFile file).files := by
  unfold acceptedFile
  rw [htext]
  dsimp only [Impact.ofResult]
  rw [if_pos haccepts]
  exact List.mem_singleton_self _

theorem partOf_event {events : List ClassEvent} {e : ClassEvent} (h : e ∈ events)
    (removed : List SourcePath) : (s.event e).PartOf (s.impact removed events) :=
  (Impact.partOf_loop h s.event).trans (Impact.partOf_append_right _ _)

/-- The search of a class leaves the affected files as they are, or adds a file that was not
compiled. -/
theorem searchOne_cases {c : Symbol} (h : s.searchOne a compiled affected c = .ok p) :
    p = affected ∨
      ∃ path : SourcePath, compiled.any path.sameAs = false ∧ p = affected.add path := by
  unfold searchOne at h
  cases hf : s.main.fileOf.get? c with
  | none =>
    simp only [hf, Except.ok.injEq] at h
    exact .inl h.symm
  | some file =>
    simp only [hf] at h
    obtain ⟨text, -, h⟩ := exists_of_bind_ok h
    split at h
    · cases h
      exact .inl rfl
    · rename_i hsearched
      split at h
      · cases h
        exact .inl rfl
      · obtain ⟨hit, -, h⟩ := exists_of_bind_ok h
        cases hit with
        | true =>
          cases h
          simp only [Bool.or_eq_true, not_or, Bool.not_eq_true] at hsearched
          exact .inr ⟨_, hsearched.2, rfl⟩
        | false =>
          cases h
          exact .inl rfl

/-- The search of a class takes no file away. -/
theorem has_of_searchOne {c : Symbol} (h : s.searchOne a compiled affected c = .ok p)
    (hk : affected.has k = true) : p.has k = true := by
  rcases searchOne_cases h with rfl | ⟨path, -, rfl⟩
  · exact hk
  · exact (IdSet.has_add ..).2 (.inl hk)

theorem has_of_search {classes : List Symbol}
    (h : s.search a compiled classes affected = .ok p) (hk : affected.has k = true) :
    p.has k = true :=
  foldlM_invariant (P := fun p : PathSet => p.has k = true)
    (fun _ _ _ => has_of_searchOne) h hk

/-- A question that a round got over is answered, or has a bound. -/
theorem bounded_of_settle {r : ConstantRequest} (h : s.settle answer affected r = .ok p)
    (hanswer : answer r = .unknown) : (s.widening r).stop = none := by
  rw [settle_of_unknown hanswer] at h
  cases hstop : (s.widening r).stop with
  | none => rfl
  | some stop =>
    rw [hstop] at h
    cases h

theorem bounded_of_settleAll {requests : List ConstantRequest}
    (h : requests.foldlM (s.settle answer) affected = .ok p) :
    ∀ r ∈ requests, answer r = .unknown → (s.widening r).stop = none := by
  induction requests generalizing affected with
  | nil => simp
  | cons r requests ih =>
    rw [List.foldlM_cons] at h
    obtain ⟨p', hp', h⟩ := exists_of_bind_ok h
    exact List.forall_mem_cons.2 ⟨bounded_of_settle hp', ih h⟩

/-- What taking the replies comes to, if it comes to something. -/
theorem has_settleAll_iff {requests : List ConstantRequest}
    (h : requests.foldlM (s.settle answer) affected = .ok p) (k : List Component) :
    p.has k = true ↔ affected.has k = true ∨ ∃ r ∈ requests, s.Draws answer k r := by
  obtain ⟨p', hp', hk⟩ := settleAll_ok (bounded_of_settleAll h) affected
  obtain rfl := Except.ok.inj (h.symm.trans hp')
  exact hk k

/-- **What a bounded answer is made of**: the files that the search left and those of the
replies, without those that were removed. -/
theorem exists_settled (h : s.conclude a compiled removed answer = .ok (.incremental p)) :
    ∃ searched, s.search a compiled (IdSet.ofList a.dependants).toList (.ofList a.files) =
        .ok searched ∧
      ∀ k, p.has k = true ↔
        (searched.has k = true ∨ ∃ r ∈ a.requests, s.Draws answer k r) ∧
          ∀ gone ∈ removed, gone.components ≠ k := by
  have hstop := stop_of_conclude h
  unfold conclude at h
  rw [hstop] at h
  obtain ⟨searched, hsearched, h⟩ := exists_of_bind_ok h
  refine ⟨searched, hsearched, fun k => ?_⟩
  cases hsettled : a.requests.foldlM (s.settle answer) searched with
  | error stop =>
    rw [hsettled] at h
    cases stop <;> cases h
  | ok settled =>
    rw [hsettled] at h
    cases h
    rw [has_eraseAll, has_settleAll_iff hsettled]

/-- **What the search finds** is affected in the end, but for the files that were removed. -/
theorem exists_searched (h : s.conclude a compiled removed answer = .ok (.incremental p)) :
    ∃ searched, s.search a compiled (IdSet.ofList a.dependants).toList (.ofList a.files) =
        .ok searched ∧
      ∀ k, searched.has k = true → p.has k = true ∨ ∃ gone ∈ removed, gone.components = k := by
  obtain ⟨searched, hsearched, hsettled⟩ := exists_settled h
  refine ⟨searched, hsearched, fun k hk => ?_⟩
  by_cases hgone : ∃ gone ∈ removed, gone.components = k
  · exact .inr hgone
  · exact .inl ((hsettled k).2 ⟨.inl hk, fun gone hmem he => hgone ⟨gone, hmem, he⟩⟩)

/-- **A file that is drawn in** is affected in the end, unless it was removed. -/
theorem affected_of_drawn (h : s.conclude a compiled removed answer = .ok (.incremental p))
    {path : SourcePath} (hpath : path ∈ a.files) :
    p.has path.components = true ∨ ∃ gone ∈ removed, gone.components = path.components := by
  obtain ⟨searched, hsearched, hkept⟩ := exists_searched h
  have hdrawn : (IdSet.ofList a.files : PathSet).has path.components = true :=
    (IdSet.has_ofList ..).2 ⟨path, hpath, rfl⟩
  exact hkept _ (has_of_search hsearched hdrawn)

end Scene

end ClassImpact

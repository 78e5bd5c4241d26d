import ClassImpact.Proofs.Deferred

/-!
# Widened constants and asked ones

Asking about a constant can only make the answer of a round smaller, but for the files that
are named in reply.  When nobody knows anything, the answer is the one without questions;
and a round that can be bounded without questions can be bounded with them.

The two runs come to their answers in different orders.  One draws in the files of a widened
change before the classes are searched, and so the search passes over them; the other takes
its replies when the search is done.  It is the same set in the end, since the search adds
the file of a class whether or not another file was drawn in.

## Main results

* `Scene.conclude_asked`: the answer of a round with questions
* `compareInOrder_asking`: comparisons of one round, with and without somebody to ask
-/

namespace ClassImpact

open Identified (ident)

/-! ## Taking the replies -/

theorem has_extend (p t : PathSet) (k : List Component) :
    (p.extend t).has k = true ↔ p.has k = true ∨ t.has k = true := by
  rw [PathSet.extend, IdSet.has_foldl_add, IdSet.has_iff_mem (s := t)]
  rfl

namespace Scene

/-- The reply to a question draws in the file of a path. -/
def Draws (s : Scene) (answer : ConstantRequest → ConstantAnswer) (k : List Component)
    (r : ConstantRequest) : Prop :=
  match answer r with
  | .known files => files.has k = true
  | .unknown => ∃ path ∈ (s.widening r).files, path.components = k

variable {s : Scene} {answer : ConstantRequest → ConstantAnswer} {r : ConstantRequest}
  {requests : List ConstantRequest}

theorem settle_of_unknown (h : answer r = .unknown) (affected : PathSet) :
    s.settle answer affected r =
      match (s.widening r).stop with
      | some stop => .error stop
      | none => .ok (affected.extend (.ofList (s.widening r).files)) := by
  rw [settle, h]
  rfl

theorem settle_ok (h : answer r = .unknown → (s.widening r).stop = none) (affected : PathSet) :
    ∃ p, s.settle answer affected r = .ok p ∧
      ∀ k, p.has k = true ↔ affected.has k = true ∨ s.Draws answer k r := by
  cases hr : answer r with
  | known files =>
    refine ⟨affected.extend files, ?_, fun k => ?_⟩
    · rw [settle, hr]
    · rw [has_extend, Draws, hr]
  | unknown =>
    refine ⟨affected.extend (.ofList (s.widening r).files), ?_, fun k => ?_⟩
    · rw [settle_of_unknown hr, h hr]
    · rw [has_extend, IdSet.has_ofList, Draws, hr]
      rfl

/-- All replies are taken, when no question has to be widened beyond all bounds. -/
theorem settleAll_ok (h : ∀ r ∈ requests, answer r = .unknown → (s.widening r).stop = none)
    (affected : PathSet) :
    ∃ p, requests.foldlM (s.settle answer) affected = .ok p ∧
      ∀ k, p.has k = true ↔ affected.has k = true ∨ ∃ r ∈ requests, s.Draws answer k r :=
  foldlM_adds (fun r hr => settle_ok (h r hr)) affected

theorem settle_unbounded (h : answer r = .unknown)
    (hstop : (s.widening r).stop = some .unbounded) (affected : PathSet) :
    s.settle answer affected r = .error .unbounded := by
  rw [settle_of_unknown h, hstop]

/-- A question that nobody answers, and that is unbounded, is the end of all replies. -/
theorem settleAll_unbounded (hf : ∀ r ∈ requests, (s.widening r).Faultless)
    (h : ∃ r ∈ requests, answer r = .unknown ∧ (s.widening r).stop = some .unbounded)
    (affected : PathSet) :
    requests.foldlM (s.settle answer) affected = .error .unbounded := by
  induction requests generalizing affected with
  | nil => simp at h
  | cons r requests ih =>
    obtain ⟨hr, hf⟩ := List.forall_mem_cons.1 hf
    rw [List.foldlM_cons]
    by_cases hreach : answer r = .unknown ∧ (s.widening r).stop = some .unbounded
    · rw [settle_unbounded hreach.1 hreach.2]
      rfl
    · have hbounded : answer r = .unknown → (s.widening r).stop = none := fun hunknown =>
        hr.resolve_right fun hstop => hreach ⟨hunknown, hstop⟩
      obtain ⟨p, hp, -⟩ := settle_ok hbounded affected
      rw [hp]
      exact ih hf ((List.exists_mem_cons_iff ..).1 h |>.resolve_left hreach) p

/-! ## Answers with questions -/

variable {a b : Impact} {compiled removed : List SourcePath}

theorem conclude_of_search {p : PathSet} (hstop : a.stop = none)
    (hp : s.search a compiled (IdSet.ofList a.dependants).toList (.ofList a.files) = .ok p) :
    s.conclude a compiled removed answer =
      match a.requests.foldlM (s.settle answer) p with
      | .error stop => stop.outcome
      | .ok affected => pure (.incremental (affected.eraseAll removed)) := by
  rw [conclude, hstop]
  dsimp only
  rw [hp]
  rfl

/-- **The answer of a round with questions**: the files drawn in, the files reached, and the
files of the replies, without those that were removed. -/
theorem conclude_asked (hn : s.Named) (hstop : a.stop = none)
    (answer : ConstantRequest → ConstantAnswer)
    (h : ∀ r ∈ a.requests, answer r = .unknown → (s.widening r).stop = none)
    (compiled removed : List SourcePath) :
    ∃ p, s.conclude a compiled removed answer = .ok (.incremental p) ∧
      ∀ k, p.has k = true ↔
        (((∃ path ∈ a.files, path.components = k) ∨ s.Reaches a compiled a.limitOn? k) ∨
          ∃ r ∈ a.requests, s.Draws answer k r) ∧ ∀ path ∈ removed, path.components ≠ k := by
  obtain ⟨p, hp, hpk⟩ := searched_ok hn a compiled
  obtain ⟨p', hp', hpk'⟩ := settleAll_ok h p
  refine ⟨p'.eraseAll removed, ?_, fun k => ?_⟩
  · rw [conclude_of_search hstop hp, hp']
    rfl
  · rw [has_eraseAll, hpk', hpk]

/-- An impact that overreaches asks for a full rebuild, when its questions stay open. -/
theorem conclude_unbounded (hn : s.Named)
    (hf : a.stop = none → ∀ r ∈ a.requests, (s.widening r).Faultless)
    (hover : a.Overreaches s.widening) (hanswer : ∀ r ∈ a.requests, answer r = .unknown)
    (compiled removed : List SourcePath) :
    s.conclude a compiled removed answer = .ok .fullRebuild := by
  rcases hover with hstop | ⟨hstop, r, hr, hwide⟩
  · rw [conclude, hstop]
    rfl
  · obtain ⟨p, hp, -⟩ := searched_ok hn a compiled
    rw [conclude_of_search hstop hp,
      settleAll_unbounded (hf hstop) ⟨r, hr, hanswer r hr, hwide⟩]
    rfl

/-! ## With and without questions -/

theorem Named.asking (hn : s.Named) : s.asking.Named := ⟨hn.classes, hn.files, hn.past, hn.round⟩

/-- The search of a class depends on what is sought alone. -/
theorem reaches_of_sought (h : a.sought = b.sought) (k : List Component) :
    s.Reaches a compiled a.limitOn? k ↔ s.Reaches b compiled b.limitOn? k := by
  show s.Reaches a.sought compiled a.sought.limitOn? k ↔
    s.Reaches b.sought compiled b.sought.limitOn? k
  rw [h]

/-- **Questions that stay open**: the answer is the one of a round without questions. -/
theorem same_of_unknown (hn : s.Named) (h : a.Defers s.widening b)
    (compiled removed : List SourcePath) (silent : ConstantRequest → ConstantAnswer)
    {answer : ConstantRequest → ConstantAnswer}
    (hanswer : ∀ r ∈ b.requests, answer r = .unknown) :
    BothOk Propagation.Same (s.conclude a compiled removed silent)
      (s.asking.conclude b compiled removed answer) := by
  rcases h.together with ⟨hstop, hover⟩ | hpost
  · rw [conclude_unbounded hn.asking h.faultless hover hanswer, conclude, hstop]
    exact .ok .fullRebuild
  · obtain ⟨p, hp, hpk⟩ := conclude_ok hn hpost.goesOn hpost.silent compiled removed silent
    obtain ⟨p', hp', hpk'⟩ := conclude_asked hn.asking hpost.stop answer
      (fun r hr _ => hpost.bounded r hr) compiled removed
    rw [hp, hp', Propagation.bothOk_incremental_iff]
    intro k
    rw [hpk, hpk']
    refine and_congr_left fun _ => ?_
    have hdraws : (∃ r ∈ b.requests, s.asking.Draws answer k r) ↔
        ∃ r ∈ b.requests, ∃ path ∈ (s.widening r).files, path.components = k := by
      refine exists_congr fun r => and_congr_right fun hr => ?_
      rw [Draws, hanswer r hr]
      rfl
    rw [hdraws, hpost.exists_files, reaches_of_sought hpost.sought]
    exact or_right_comm

variable {silent : ConstantRequest → ConstantAnswer}

/-- **Questions that are answered**, where the round without questions is bounded: whatever
the replies are, the round with questions is bounded as well. -/
theorem conclude_asked_of_widened (hn : s.Named) (h : a.Defers s.widening b) {widened : PathSet}
    (hwidened : s.conclude a compiled removed silent = .ok (.incremental widened))
    (answer : ConstantRequest → ConstantAnswer) :
    ∃ p, s.asking.conclude b compiled removed answer = .ok (.incremental p) ∧
      ∀ k, p.has k = true ↔
        (((∃ path ∈ b.files, path.components = k) ∨ s.Reaches b compiled b.limitOn? k) ∨
          ∃ r ∈ b.requests, s.Draws answer k r) ∧ ∀ path ∈ removed, path.components ≠ k := by
  have hstop := stop_of_conclude hwidened
  have hpost : a.Postpones s.widening b := h.together.resolve_left fun hover => by
    simp [hstop] at hover
  exact conclude_asked hn.asking hpost.stop answer (fun r hr _ => hpost.bounded r hr) compiled
    removed

/-- **Widening is monotone**: an answer with questions stays within the answer without them,
but for the files of the replies, and it keeps what is affected when no constant has a
reader. -/
theorem asked_between (hn : s.Named) (h : a.Defers s.widening b) {widened : PathSet}
    (hwidened : s.conclude a compiled removed silent = .ok (.incremental widened))
    (answer : ConstantRequest → ConstantAnswer) :
    ∃ affected least : PathSet,
      s.asking.conclude b compiled removed answer = .ok (.incremental affected) ∧
      s.asking.conclude b compiled removed (fun _ => .known .empty) =
        .ok (.incremental least) ∧
      (∀ k, affected.has k = true → widened.has k = true ∨
        ∃ r ∈ b.requests, ∃ known, answer r = .known known ∧ known.has k = true) ∧
      ∀ k, least.has k = true → affected.has k = true := by
  have hasked := conclude_asked_of_widened hn h hwidened
  obtain ⟨affected, haffected, hk⟩ := hasked answer
  obtain ⟨least, hleast, hleastk⟩ := hasked fun _ => .known .empty
  -- the answer without questions is the one that leaves all of them open
  obtain ⟨unanswered, hunanswered, hopenk⟩ := hasked fun _ => .unknown
  have hsame := same_of_unknown hn h compiled removed silent fun r _ =>
    (rfl : (fun _ => ConstantAnswer.unknown) r = .unknown)
  rw [hwidened, hunanswered, Propagation.bothOk_incremental_iff] at hsame
  refine ⟨affected, least, haffected, hleast, fun k => ?_, fun k => ?_⟩
  · rw [hsame, hopenk, hk]
    intro ⟨hdrawn, hkept⟩
    rcases hdrawn with hdrawn | ⟨r, hr, hdraws⟩
    · exact .inl ⟨.inl hdrawn, hkept⟩
    · cases hanswer : answer r with
      | known known =>
        rw [Draws, hanswer] at hdraws
        exact .inr ⟨r, hr, known, hanswer, hdraws⟩
      | unknown =>
        rw [Draws, hanswer] at hdraws
        exact .inl ⟨.inr ⟨r, hr, hdraws⟩, hkept⟩
  · rw [hleastk, hk]
    intro ⟨hdrawn, hkept⟩
    refine ⟨.inl (hdrawn.resolve_right ?_), hkept⟩
    rintro ⟨r, -, hdraws⟩
    simp [Draws] at hdraws

end Scene

/-! ## Comparisons -/

section

variable {names : NameTable} {main round : Graph} {log : ChangeLog} {q : RoundRequest}

/-- **Asking about constants** instead of widening their changes.  When every question stays
open, the answer is the one without questions.  When the answer without questions is bounded,
so is every other: it stays within that answer but for the files of the replies, and it
keeps what is affected when no constant has a reader. -/
theorem compareInOrder_asking (hnames : names.Covers main round) (files : List Symbol) :
    let compared := fun resolver : Option Resolver =>
      compareInOrder names main round log { q with resolver := resolver } files
    (∀ resolver : Resolver,
      (∀ r ∈ (compared (some resolver)).requests, (resolver r).take q.waiting = .unknown) →
        BothOk Propagation.Same (compared none).outcome (compared (some resolver)).outcome) ∧
    ∀ (resolver : Resolver) (widened : PathSet),
      (compared none).outcome = .ok (.incremental widened) →
        ∃ affected least : PathSet,
          (compared (some resolver)).outcome = .ok (.incremental affected) ∧
          (compared (some fun _ => .now (.known .empty))).outcome = .ok (.incremental least) ∧
          (∀ k, affected.has k = true → widened.has k = true ∨
            ∃ r ∈ (compared (some resolver)).requests, ∃ known,
              (resolver r).take q.waiting = .known known ∧ known.has k = true) ∧
          ∀ k, least.has k = true → affected.has k = true := by
  intro compared
  have hn : (Scene.of names main round { q with resolver := none }).Named := hnames.keyNames.named
  have hdefers := Scene.defers_impact
    (s := Scene.of names main round { q with resolver := none }) hnames.keyNames rfl q.removed files
  constructor
  · intro resolver hopen
    exact Scene.same_of_unknown hn hdefers q.compiled q.removed _ hopen
  · intro resolver widened hwidened
    have hbetween := Scene.asked_between hn hdefers hwidened fun r => (resolver r).take q.waiting
    have hnow : (fun r : ConstantRequest =>
        (PendingAnswer.now (.known .empty)).take q.waiting) = fun _ => .known .empty := by simp
    rw [← hnow] at hbetween
    exact hbetween

end

/-! ## A constant of a package

A protected constant gets another value.  Widening the change draws in the other file of the
package; whoever is asked names a reader in another package instead. -/

namespace PackageConstant

def names : NameTable :=
  NameTable.new.internAll
    ["java/lang/Object", "<init>", "p/C", "p/D", "C.java", "D.java", "V"]

/-- The class of the constant, with some value of it. -/
def owner (value : Int64) : ClassInfo :=
  (ClassInfo.plain ⟨3⟩ (.ofFlags [.pub]) (.named ⟨1⟩)).withField
    ⟨⟨7⟩, .ofFlags [.prot, .static, .final], .primitive .int, none, some (.int value)⟩

def past : Graph :=
  (Graph.empty.record ⟨5⟩ (owner 1)).record ⟨6⟩
    (.plain ⟨4⟩ (.ofFlags [.pub]) (.named ⟨1⟩))

def now : Graph := Graph.empty.record ⟨5⟩ (owner 2)

/-- The request with somebody to ask, or with nobody. -/
def request (resolver : Option Resolver) : RoundRequest where
  removed := []
  files := [⟨"C.java"⟩]
  compiled := [⟨"C.java"⟩]
  accepts p := !p.sameAs ⟨"C.java"⟩
  resolver := resolver
  waiting := .untilAnswered

def compared (resolver : Option Resolver) : Comparison :=
  compareInOrder names past now .empty (request resolver) [⟨5⟩]

def reader : Resolver := fun _ => .now (.known (.single ⟨"E.java"⟩))

theorem covers : names.Covers past now := ⟨by decide, by decide, by decide⟩

theorem compared_none : (compared none).outcome = .ok (.incremental (.single ⟨"D.java"⟩)) := rfl

theorem asked_or_widened :
    names.Covers past now ∧
    BothOk Propagation.Same (compared none).outcome (compared (some fun _ => .dropped)).outcome ∧
    ∃ affected least : PathSet,
      (compared (some reader)).outcome = .ok (.incremental affected) ∧
      (compared (some fun _ => .now (.known .empty))).outcome = .ok (.incremental least) ∧
      (∀ k, affected.has k = true → IdSet.has (.single ⟨"D.java"⟩ : PathSet) k = true ∨
        ∃ r ∈ (compared (some reader)).requests, ∃ known,
          (reader r).take .untilAnswered = .known known ∧ known.has k = true) ∧
      ∀ k, least.has k = true → affected.has k = true :=
  have h := @compareInOrder_asking names past now .empty (request none) covers [⟨5⟩]
  ⟨covers, h.1 (fun _ => .dropped) fun _ _ => rfl, h.2 reader _ compared_none⟩

end PackageConstant

end ClassImpact

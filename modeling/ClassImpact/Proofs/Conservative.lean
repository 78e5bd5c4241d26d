import ClassImpact.Proofs.RetainedRules
import ClassImpact.Proofs.Widening

/-!
# Answers of a graph that forgot a class

A graph may miss the source file and the descriptor of a class while it still has the edges
to it.  The answer of a round is then no smaller, but for the file of that class: as long as
the class is not below one that changed, and no added member is seen past it, every file that
was affected before is affected without it.

Searches downwards do end at a class that is forgotten.  A member that a class loses is read
through a forgotten subclass, and the reader is missed.

## Main results

* `Scene.conclude_retained`: the answer of an impact that retains another one
* `compareInOrder_forget`: rounds against a graph that forgot a class
-/

namespace ClassImpact

/-! ## Impacts of a round -/

namespace ClassEvent

/-- The events of files that are still listed. -/
theorem ofFiles_forget {main round : Graph} {u file : Symbol} {files : List Symbol}
    (hfile : file ∉ files) :
    ofFiles (main.forget u file) round files = ofFiles main round files := by
  unfold ofFiles
  refine List.flatMap_congr fun f hf => ?_
  have hne : file ≠ f := fun heq => hfile (heq ▸ hf)
  unfold ofFile
  show ofPatch (classPatch (((main.classesIn.erase file).get? f).map IdSet.toList) _) = _
  rw [Table.get?_erase, if_neg hne]

end ClassEvent

namespace Scene

open Impact

variable {s : Scene} {u file : Symbol} {a b : Impact} {compiled removed : List SourcePath}
  {answer : ConstantRequest → ConstantAnswer}

/-- No removed file declares `u` or is the file that `u` is in. -/
def Outlives (s : Scene) (u file : Symbol) (removed : List SourcePath) : Prop :=
  ∀ path ∈ removed, ∀ f, s.names.lookup path.text = some f →
    f ≠ file ∧ ∀ c ∈ s.main.classesIn.valuesOf f, c.name ≠ u

theorem knows_of_event (hn : s.Named) {files : List Symbol} {change : Changed ClassInfo ClassChange}
    (he : ClassEvent.changed change ∈ ClassEvent.ofFiles s.main s.round files) :
    s.names.Knows change.past.name := by
  obtain ⟨f, -, he⟩ := ClassEvent.mem_ofFiles.1 he
  obtain ⟨hpast, -⟩ := ClassEvent.mem_ofFile_changed.1 he
  exact hn.past hpast

/-- **The impact of a round** is retained in a graph that forgot a class. -/
theorem retains_impact (h : s.Spares u file) (hn : s.Named)
    (hkey : s.names.lookup constructorName = some s.constructor)
    (houtlives : s.Outlives u file removed) {files : List Symbol}
    (hclear : ∀ e ∈ ClassEvent.ofFiles s.main s.round files, s.ClearAt u e) :
    Retains (s.terms u file) (s.impact removed (ClassEvent.ofFiles s.main s.round files))
      ((s.forget u file).impact removed (ClassEvent.ofFiles s.main s.round files)) := by
  refine .append (retains_loop fun path hpath => ?_) (retains_loop fun e he => ?_)
  · exact retains_removedFile h hn (houtlives path hpath)
  · refine retains_event h hn hkey (fun change heq => ?_) (hclear e he)
    exact knows_of_event hn (heq ▸ he)

/-! ## The search and the answers -/

theorem isQueried_keeps {t : Terms} (hab : Keeps t a b) {x : Usage} (hx : isQueried a x = true) :
    isQueried b x = true := by
  cases x with
  | annotated used =>
    obtain ⟨q, hq, hhits⟩ := List.any_eq_true.1 hx
    exact List.any_eq_true.2 ⟨q, hab.brings (.query q) hq trivial, hhits⟩
  | _ => simp [isQueried] at hx

/-- The search reaches the same files, but for the file of the forgotten class. -/
theorem reaches_forget (h : s.Spares u file) (hab : Keeps (s.terms u file) a b)
    {k : List Component} (hk : k ≠ (s.terms u file).lost)
    (hreaches : s.Reaches a compiled a.limitOn? k) :
    (s.forget u file).Reaches b compiled b.limitOn? k := by
  obtain ⟨c, hc, f, text, d, hf, htext, hpath, hcompiled, hd, x, hx, hhit⟩ := hreaches
  have hcu : c ≠ u := by
    rintro rfl
    obtain rfl := Option.some.inj (h.source.symm.trans hf)
    exact hk (hpath.symm.trans (lost_terms htext c).symm)
  have hlimit : b.limitOn? x = a.limitOn? x := by
    unfold Impact.limitOn?
    rw [hab.limits]
  refine ⟨c, hab.brings (.search c) hc trivial, f, text, d, ?_, htext, hpath, hcompiled, ?_,
    x, hx, ?_⟩
  · rw [fileOf_forget s file hcu]
    exact hf
  · rw [describe?_forget h, if_neg hcu]
    exact hd
  · refine hhit.imp (fun hused => ⟨hab.brings (.usage x) hused.1 trivial, fun r hr => ?_⟩)
      (isQueried_keeps hab)
    rw [hlimit] at hr
    obtain ⟨l, hl, rfl⟩ := Option.map_eq_some_iff.1 hr
    have hmem : l ∈ a.limits := List.mem_reverse.1 (List.mem_of_find?_eq_some hl)
    exact hab.limit l hmem d.name (hused.2 l.2 hr)

/-- A question that was settled by a bounded answer can be settled in the graph that forgot a
class, and draws in the same files, but for the file of that class. -/
theorem draws_forget (h : s.Spares u file) (hn : s.Named) {r : ConstantRequest}
    (hr : (s.terms u file).question r) (hstop : answer r = .unknown → (s.widening r).stop = .none) :
    (answer r = .unknown → ((s.forget u file).widening r).stop = .none) ∧
      ∀ k, k ≠ (s.terms u file).lost → s.Draws answer k r →
        (s.forget u file).Draws answer k r := by
  have hwiden : Retains (s.terms u file) (s.widening r) ((s.forget u file).widening r) :=
    retains_widen h hn hr.2 _ _ _
  refine ⟨fun hunknown => (hwiden (hstop hunknown)).goesOn, fun k hk hdraws => ?_⟩
  unfold Draws at hdraws ⊢
  cases hanswer : answer r with
  | known files =>
    rw [hanswer] at hdraws
    exact hdraws
  | unknown =>
    rw [hanswer] at hdraws
    obtain ⟨path, hpath, rfl⟩ := hdraws
    exact ⟨path, (hwiden (hstop hanswer)).brings (.file path) hpath hk, rfl⟩

/-- The questions of a bounded answer were bounded. -/
theorem bounded_of_conclude (hn : s.Named) (hknows : ∀ r ∈ a.requests, s.names.Knows r.owner)
    {affected : PathSet}
    (ha : s.conclude a compiled removed answer = .ok (.incremental affected)) :
    ∀ r ∈ a.requests, answer r = .unknown → (s.widening r).stop = .none := by
  have hstop := stop_of_conclude ha
  have hfaultless : ∀ r ∈ a.requests, (s.widening r).Faultless := by
    intro r hr
    rcases widen_cases hn r.owner r.field.access (some r.field.name) (hknows r hr) with hw | hw
    · exact .inr (congrArg Impact.stop hw)
    · obtain ⟨files, hw⟩ := hw
      exact .inl (congrArg Impact.stop hw)
  intro r hr hunknown
  refine (hfaultless r hr).resolve_right fun hover => ?_
  obtain ⟨p, hp, -⟩ := searched_ok hn a compiled
  rw [conclude_of_search hstop hp, settleAll_unbounded hfaultless ⟨r, hr, hunknown, hover⟩] at ha
  simp [Stop.outcome] at ha

/-- **The answer of an impact that retains another one**: every file of the bounded answer is
there, but for the file of the forgotten class. -/
theorem conclude_retained (h : s.Spares u file) (hn : s.Named)
    (hab : Retains (s.terms u file) a b) {affected : PathSet}
    (ha : s.conclude a compiled removed answer = .ok (.incremental affected)) :
    ∃ affected', (s.forget u file).conclude b compiled removed answer =
        .ok (.incremental affected') ∧
      ∀ k, k ≠ (s.terms u file).lost → affected.has k = true → affected'.has k = true := by
  have hstop := stop_of_conclude ha
  have hkeeps := hab hstop
  have hbounded := bounded_of_conclude hn (fun r hr => (hkeeps.question r hr).1) ha
  have hdraws := fun r hr => draws_forget h hn (hkeeps.question r hr) (hbounded r hr)
  obtain ⟨p, hp, hpk⟩ := conclude_asked hn hstop answer hbounded compiled removed
  obtain rfl : p = affected := by
    rw [ha] at hp
    exact (Propagation.incremental.inj (Except.ok.inj hp)).symm
  obtain ⟨p', hp', hpk'⟩ := conclude_asked (hn.forget u file) hkeeps.goesOn answer
    (fun r hr => (hdraws r (hkeeps.requests ▸ hr)).1) compiled removed
  refine ⟨p', hp', fun k hk hhas => ?_⟩
  rw [hpk] at hhas
  rw [hpk']
  refine ⟨hhas.1.imp (Or.imp ?_ (reaches_forget h hkeeps hk)) ?_, hhas.2⟩
  · intro ⟨path, hpath, hcomponents⟩
    subst hcomponents
    exact ⟨path, hkeeps.brings (.file path) hpath hk, rfl⟩
  · intro ⟨r, hr, hdrawn⟩
    exact ⟨r, hkeeps.requests.symm ▸ hr, (hdraws r hr).2 k hk hdrawn⟩

end Scene

/-! ## Comparisons -/

section

variable {names : NameTable} {main round : Graph} {log : ChangeLog} {q : RoundRequest}

/-- **A class that is not known**: when it is alone in its file, is neither compiled nor removed,
and the searches for the changed classes do not come by it where they would lose something, a
graph without its descriptor gives a bounded answer where the graph gave one, and every
affected file but its own is still affected. -/
theorem compareInOrder_forget (hnames : names.Covers main round) {files : List Symbol}
    (hfiles : ∀ f ∈ files, round.classesIn.has f = true) {u file : Symbol} {text : String}
    (htext : (Scene.of names main round q).names.name file = .ok text)
    (hspares : (Scene.of names main round q).Spares u file)
    (houtlives : (Scene.of names main round q).Outlives u file q.removed)
    (hclear : ∀ e ∈ ClassEvent.ofFiles main round files,
      (Scene.of names main round q).ClearAt u e)
    {affected : PathSet}
    (haffected : (compareInOrder names main round log q files).outcome =
      .ok (.incremental affected)) :
    ∃ affected', (compareInOrder names (main.forget u file) round log q files).outcome =
        .ok (.incremental affected') ∧
      ∀ k, k ≠ (SourcePath.mk text).components → affected.has k = true →
        affected'.has k = true := by
  have hn : (Scene.of names main round q).Named := hnames.keyNames.named
  have hfile : file ∉ files := fun hmem => by
    have huncompiled : round.classesIn.has file = false := hspares.uncompiled
    rw [hfiles file hmem] at huncompiled
    simp at huncompiled
  have hkey : (Scene.of names main round q).names.lookup constructorName =
      some (Scene.of names main round q).constructor := NameTable.lookup_intern_self _ _
  have hscene : Scene.of names (main.forget u file) round q =
      (Scene.of names main round q).forget u file := rfl
  have himpact := Scene.retains_impact hspares hn hkey houtlives hclear
  rw [← Scene.lost_terms htext u]
  unfold compareInOrder
  dsimp only
  rw [ClassEvent.ofFiles_forget hfile, hscene]
  exact Scene.conclude_retained hspares hn himpact haffected

end

/-! ## An unknown superclass

The superclass of a class is alone in its file, and declares nothing.  The class loses one
method and gains another of a name that a reader chooses among.  Without the superclass the
caller of the lost method is still affected.  The reader is not: a superclass that is not known
counts as one that declares the new method already. -/

namespace UnknownParent

def names : NameTable :=
  NameTable.new.internAll
    ["java/lang/Object", "<init>", "p/C", "q/E", "Object.java", "C.java", "E.java", "m", "k"]

/-- The superclass, which extends nothing. -/
def parent : ClassInfo := .plain ⟨1⟩ (.ofFlags [.pub]) (.primitive .void)

def gained : MethodInfo :=
  ⟨⟨8⟩, .ofFlags [.pub], [.primitive .int], .primitive .void, none, [], none⟩

def lost : MethodInfo :=
  ⟨⟨9⟩, .ofFlags [.pub, .abstract], [], .primitive .void, none, [], none⟩

def child : ClassInfo := .plain ⟨3⟩ (.ofFlags [.pub]) (.named ⟨1⟩)

def reader (usage : Usage) : ClassInfo :=
  { ClassInfo.plain ⟨4⟩ (.ofFlags [.pub]) (.named ⟨1⟩) with usages := .single usage }

/-- The superclass, the class, and a class with one usage of it. -/
def past (c : ClassInfo) (usage : Usage) : Graph :=
  ((Graph.empty.record ⟨5⟩ parent).record ⟨6⟩ c).record ⟨7⟩ (reader usage)

def now (c : ClassInfo) : Graph := Graph.empty.record ⟨6⟩ c

def request : RoundRequest where
  removed := []
  files := [⟨"C.java"⟩]
  compiled := [⟨"C.java"⟩]
  accepts _ := true
  resolver := none
  waiting := .untilAnswered

/-- The round in which the class loses a method. -/
def losing (main : Graph) : Comparison :=
  compareInOrder names main (now child) .empty request [⟨6⟩]

/-- The round in which the class gains a method. -/
def gaining (main : Graph) : Comparison :=
  compareInOrder names main (now (child.withMethod gained)) .empty request [⟨6⟩]

def beforeLoss : Graph := past (child.withMethod lost) (lost.callFrom ⟨3⟩)

def beforeGain : Graph := past child (gained.overloadsFrom ⟨3⟩)

theorem covers : names.Covers beforeLoss (now child) := ⟨by decide, by decide, by decide⟩

theorem losing_affects :
    (losing beforeLoss).outcome = .ok (.incremental (.single ⟨"E.java"⟩)) := rfl

theorem spares : (Scene.of names beforeLoss (now child) request).Spares ⟨1⟩ ⟨5⟩ where
  source := rfl
  alone := by decide
  uncompiled := rfl
  unmade {_ d} hd := by
    have hmade : ∀ e ∈ (now child).classesIn.entries, ∀ d ∈ e.2.toList, d.name ≠ ⟨1⟩ := by decide
    obtain ⟨_, hentry, hd⟩ := Table.exists_entry hd
    exact hmade _ hentry d hd

/-- The only event of the round. -/
def loss : Changed ClassInfo ClassChange :=
  ⟨child.withMethod lost, child, .between (child.withMethod lost) child⟩

theorem clear : (Scene.of names beforeLoss (now child) request).Clear ⟨1⟩ loss where
  below _ := by decide
  nested h := absurd h (by decide)
  addedMethods := by simp [loss, ClassChange.between, methodPatch, Patch.between, child,
    ClassInfo.plain]
  addedFields := by simp [loss, ClassChange.between, fieldPatch, Patch.between, child,
    ClassInfo.plain]
  removedMethods m hm habstract := by
    have hall : ∀ m ∈ loss.diff.methods.removed, m.access.isAbstract = true := by decide
    rw [hall m hm] at habstract
    cases habstract

theorem still_affected :
    names.Covers beforeLoss (now child) ∧
      ∃ affected', (losing (beforeLoss.forget ⟨1⟩ ⟨5⟩)).outcome = .ok (.incremental affected') ∧
        ∀ k, k ≠ (SourcePath.mk "Object.java").components →
          IdSet.has (.single ⟨"E.java"⟩ : PathSet) k = true → affected'.has k = true := by
  have hfiles : ∀ f ∈ [(⟨6⟩ : Symbol)], (now child).classesIn.has f = true := by decide
  have hevents : ClassEvent.ofFiles beforeLoss (now child) [⟨6⟩] = [.changed loss] := rfl
  have hclear : ∀ e ∈ ClassEvent.ofFiles beforeLoss (now child) [⟨6⟩],
      (Scene.of names beforeLoss (now child) request).ClearAt ⟨1⟩ e := by
    rw [hevents]
    intro e he
    obtain rfl := List.mem_singleton.1 he
    exact clear
  have hkept : (Scene.of names beforeLoss (now child) request).Outlives ⟨1⟩ ⟨5⟩ request.removed :=
    fun _ hpath => absurd hpath List.not_mem_nil
  exact ⟨covers, compareInOrder_forget covers hfiles rfl spares hkept hclear losing_affects⟩

/-- Without the superclass the reader of the overloaded name is missed. -/
theorem not_conservative :
    beforeGain.fileOf.get? ⟨1⟩ = some ⟨5⟩ ∧
      beforeGain.classesIn.valuesOf ⟨5⟩ = .single parent ∧
      parent.fields = [] ∧ parent.methods = [] ∧ parent.usages = .empty ∧
      names.Covers beforeGain (now (child.withMethod gained)) ∧
      (gaining beforeGain).outcome = .ok (.incremental (.single ⟨"E.java"⟩)) ∧
      (gaining (beforeGain.forget ⟨1⟩ ⟨5⟩)).outcome = .ok (.incremental .empty) :=
  ⟨rfl, rfl, rfl, rfl, rfl, ⟨by decide, by decide, by decide⟩, rfl, rfl⟩

end UnknownParent

end ClassImpact

import ClassImpact.Proofs.Visits

/-!
# The answer of a round in another order

The answer of a round without questions is a set of files: those that its impact draws in,
and those that the search reaches.  A file is reached when a searched class in it holds a
usage that counts under its limit, or a use of an annotation that a query hits.

So the order of a visit can change the answer in one way: two changes limit the same
usage, and the limit that comes last decides whether a file is reached.
-/

namespace ClassImpact

open Identified (ident)

/-! ## What the search reaches -/

theorem Residency.holds_ok {v : View} {c : Symbol} (hc : v.names.Knows c) (r : Residency) :
    ∃ b, r.holds v c = .ok b := by
  obtain ⟨package, hpackage⟩ := hc.packageOf
  induction r with
  | outside p => exact ⟨_, by rw [holds, hpackage]; rfl⟩
  | noInheritor root p =>
    rw [holds, hpackage]
    by_cases h : v.inherits c root ≠ .yes
    · exact ⟨true, if_pos h⟩
    · exact ⟨package != p, if_neg h⟩
  | not r ih =>
    obtain ⟨b, hb⟩ := ih
    exact ⟨!b, by rw [holds, hb]; rfl⟩
  | both r r' ih ih' =>
    obtain ⟨b, hb⟩ := ih
    obtain ⟨b', hb'⟩ := ih'
    rw [holds, hb]
    cases b with
    | true => exact ⟨b', hb'⟩
    | false => exact ⟨false, rfl⟩

theorem Residency.holds_relisted {v v' : View} (h : v.Relisted v') (c : Symbol) (r : Residency) :
    r.holds v' c = r.holds v c := by
  induction r with
  | outside p => rw [holds, holds, h.names]
  | noInheritor root p => rw [holds, holds, h.names, h.inherits]
  | not r ih => rw [holds, holds, ih]
  | both r r' ih ih' => rw [holds, holds, ih, ih']

theorem anyM_ok {α : Type} {f : α → Except Fault Bool} {l : List α}
    (h : ∀ x ∈ l, ∃ b, f x = .ok b) :
    ∃ b, l.anyM f = .ok b ∧ (b = true ↔ ∃ x ∈ l, f x = .ok true) := by
  induction l with
  | nil => exact ⟨false, rfl, by simp⟩
  | cons x l ih =>
    obtain ⟨hx, hl⟩ := List.forall_mem_cons.1 h
    obtain ⟨b, hb⟩ := hx
    obtain ⟨b', hb', hiff⟩ := ih hl
    rw [List.anyM, hb]
    cases b with
    | true => exact ⟨true, rfl, by simp [hb]⟩
    | false => exact ⟨b', hb', by simp [hb, hiff]⟩

namespace Scene

/-- A class holds a usage that counts under the limits, or one that is queried. -/
def Hit (s : Scene) (a : Impact) (limit : Usage → Option Residency) (d : ClassInfo) : Prop :=
  ∃ u ∈ d.usages,
    (u ∈ a.usages ∧ ∀ r, limit u = some r → r.holds s.updated d.name = .ok true) ∨
      isQueried a u = true

/-- The search of a class reaches the file of a path: it is the file of the class, it was not
compiled, and the class is hit. -/
def Finds (s : Scene) (a : Impact) (compiled : List SourcePath)
    (limit : Usage → Option Residency) (c : Symbol) (k : List Component) : Prop :=
  ∃ f text d, s.main.fileOf.get? c = some f ∧ s.names.name f = .ok text ∧
    (SourcePath.mk text).components = k ∧ compiled.any (SourcePath.mk text).sameAs = false ∧
    s.main.describe? c = some d ∧ s.Hit a limit d

/-- The search of all classes reaches the file of a path. -/
def Reaches (s : Scene) (a : Impact) (compiled : List SourcePath)
    (limit : Usage → Option Residency) (k : List Component) : Prop :=
  ∃ c ∈ a.dependants, s.Finds a compiled limit c k

variable {s t : Scene} {a b : Impact}

theorem isAffected_ok {c : Symbol} (hc : s.names.Knows c) (a : Impact) (u : Usage) :
    ∃ b, s.isAffected a c u = .ok b ∧
      (b = true ↔ u ∈ a.usages ∧
        ∀ r, a.limitOn? u = some r → r.holds s.updated c = .ok true) := by
  unfold isAffected
  by_cases hu : u ∈ a.usages
  · rw [if_pos (List.contains_iff_mem.2 hu)]
    cases hr : a.limitOn? u with
    | none => exact ⟨true, rfl, by simp [hu]⟩
    | some r =>
      obtain ⟨b, hb⟩ := Residency.holds_ok (v := s.updated) hc r
      exact ⟨b, hb, by simp [hu, hb]⟩
  · rw [if_neg fun h => hu (List.contains_iff_mem.1 h)]
    exact ⟨false, rfl, by simp [hu]⟩

theorem isHit_ok {d : ClassInfo} (hd : s.names.Knows d.name) (a : Impact) :
    ∃ b, s.isHit a d = .ok b ∧ (b = true ↔ s.Hit a a.limitOn? d) := by
  obtain ⟨b, hb, hiff⟩ := anyM_ok (f := fun u =>
      (s.isAffected a d.name u).map (· || isQueried a u)) (l := d.usages.toList) fun u _ => by
    obtain ⟨b, hb, -⟩ := isAffected_ok hd a u
    exact ⟨_, by rw [hb]; rfl⟩
  refine ⟨b, hb, hiff.trans (exists_congr fun u => and_congr Iff.rfl ?_)⟩
  obtain ⟨b', hb', hiff'⟩ := isAffected_ok hd a u
  rw [hb', ← hiff']
  show Except.ok (b' || isQueried a u) = Except.ok true ↔ _
  rw [Except.ok.injEq, Bool.or_eq_true]

/-- What the search of a class can find is the file of that class. -/
theorem finds_iff {c f : Symbol} {text : String} (hf : s.main.fileOf.get? c = some f)
    (htext : s.names.name f = .ok text) (a : Impact) (compiled : List SourcePath)
    (limit : Usage → Option Residency) (k : List Component) :
    s.Finds a compiled limit c k ↔
      (SourcePath.mk text).components = k ∧ compiled.any (SourcePath.mk text).sameAs = false ∧
        ∃ d, s.main.describe? c = some d ∧ s.Hit a limit d := by
  constructor
  · intro ⟨f', text', d, hf', htext', hk, hcompiled, hd, hhit⟩
    obtain rfl := Option.some.inj (hf.symm.trans hf')
    obtain rfl := Except.ok.inj (htext.symm.trans htext')
    exact ⟨hk, hcompiled, d, hd, hhit⟩
  · intro ⟨hk, hcompiled, d, hd, hhit⟩
    exact ⟨f, text, d, hf, htext, hk, hcompiled, hd, hhit⟩

/-- One class is searched without a fault, and adds the file that it reaches. -/
theorem searchOne_ok (hn : s.Named) (a : Impact) (compiled : List SourcePath)
    (affected : PathSet) (c : Symbol) :
    ∃ p, s.searchOne a compiled affected c = .ok p ∧
      ∀ k, p.has k = true ↔ affected.has k = true ∨ s.Finds a compiled a.limitOn? c k := by
  unfold searchOne
  cases hf : s.main.fileOf.get? c with
  | none => exact ⟨affected, rfl, fun k => by simp [Finds, hf]⟩
  | some f =>
    obtain ⟨text, htext⟩ := hn.files hf
    have hfinds := finds_iff hf htext a compiled a.limitOn?
    dsimp only
    rw [htext]
    show ∃ p, (if affected.contains ⟨text⟩ || compiled.any (SourcePath.mk text).sameAs then _
      else _) = Except.ok p ∧ _
    by_cases hpass : (affected.contains ⟨text⟩ || compiled.any (SourcePath.mk text).sameAs) = true
    · rw [if_pos hpass]
      refine ⟨affected, rfl, fun k => ⟨.inl, fun h => h.elim id fun hk => ?_⟩⟩
      obtain ⟨rfl, hcompiled, -⟩ := (hfinds k).1 hk
      rw [hcompiled, Bool.or_false] at hpass
      exact hpass
    · rw [if_neg hpass]
      have hcompiled : compiled.any (SourcePath.mk text).sameAs = false := by
        simp only [Bool.or_eq_true, not_or, Bool.not_eq_true] at hpass
        exact hpass.2
      cases hd : s.main.describe? c with
      | none =>
        refine ⟨affected, rfl, fun k => ?_⟩
        rw [hfinds, hd]
        simp
      | some d =>
        obtain ⟨f', -, hmem, -⟩ := Graph.describe?_eq_some.1 hd
        obtain ⟨b, hb, hiff⟩ := isHit_ok (hn.past hmem) a
        dsimp only
        rw [hb]
        cases b with
        | true =>
          refine ⟨affected.add ⟨text⟩, rfl, fun k => ?_⟩
          rw [IdSet.has_add, hfinds]
          exact or_congr Iff.rfl ⟨fun hk => ⟨hk, hcompiled, d, hd, hiff.1 rfl⟩, fun hk => hk.1⟩
        | false =>
          refine ⟨affected, rfl, fun k => ?_⟩
          rw [hfinds]
          refine ⟨.inl, fun h => h.elim id ?_⟩
          rintro ⟨-, -, d', hd', hhit⟩
          obtain rfl := Option.some.inj (hd.symm.trans hd')
          simpa using hiff.2 hhit

/-- A run of steps that each succeed and add their files to a set. -/
theorem foldlM_adds {α ε : Type} {step : PathSet → α → Except ε PathSet}
    {adds : α → List Component → Prop} {l : List α}
    (hstep : ∀ x ∈ l, ∀ affected, ∃ p, step affected x = .ok p ∧
      ∀ k, p.has k = true ↔ affected.has k = true ∨ adds x k) (affected : PathSet) :
    ∃ p, l.foldlM step affected = .ok p ∧
      ∀ k, p.has k = true ↔ affected.has k = true ∨ ∃ x ∈ l, adds x k := by
  induction l generalizing affected with
  | nil => exact ⟨affected, rfl, by simp⟩
  | cons x l ih =>
    obtain ⟨hx, hl⟩ := List.forall_mem_cons.1 hstep
    obtain ⟨p, hp, hpk⟩ := hx affected
    obtain ⟨p', hp', hpk'⟩ := ih hl p
    refine ⟨p', ?_, fun k => ?_⟩
    · rw [List.foldlM_cons, hp]
      exact hp'
    · rw [hpk', hpk, List.exists_mem_cons_iff, or_assoc]

theorem search_ok (hn : s.Named) (a : Impact) (compiled : List SourcePath)
    (classes : List Symbol) (affected : PathSet) :
    ∃ p, s.search a compiled classes affected = .ok p ∧
      ∀ k, p.has k = true ↔
        affected.has k = true ∨ ∃ c ∈ classes, s.Finds a compiled a.limitOn? c k :=
  foldlM_adds (fun c _ affected => searchOne_ok hn a compiled affected c) affected

/-- The search of a round adds what it reaches to the files that are drawn in. -/
theorem searched_ok (hn : s.Named) (a : Impact) (compiled : List SourcePath) :
    ∃ p, s.search a compiled (IdSet.ofList a.dependants).toList (.ofList a.files) = .ok p ∧
      ∀ k, p.has k = true ↔
        (∃ path ∈ a.files, path.components = k) ∨ s.Reaches a compiled a.limitOn? k := by
  obtain ⟨p, hp, hpk⟩ := search_ok hn a compiled (IdSet.ofList a.dependants).toList
    (.ofList a.files)
  refine ⟨p, hp, fun k => ?_⟩
  have hmem : ∀ c, c ∈ (IdSet.ofList a.dependants).toList ↔ c ∈ a.dependants := fun c =>
    IdSet.mem_ofList
  rw [hpk, IdSet.has_ofList]
  simp only [hmem]
  rfl

theorem has_eraseAll (p : PathSet) (removed : List SourcePath) (k : List Component) :
    (p.eraseAll removed).has k = true ↔
      p.has k = true ∧ ∀ path ∈ removed, path.components ≠ k := by
  rw [IdSet.has_iff_mem, IdSet.has_iff_mem]
  unfold PathSet.eraseAll
  simp only [IdSet.mem_filter, Bool.not_eq_true', List.any_eq_false, SourcePath.sameAs,
    decide_eq_true_eq]
  constructor
  · intro h
    obtain ⟨path, ⟨hpath, hnot⟩, hk⟩ := h
    exact ⟨⟨path, hpath, hk⟩, fun q hq he => hnot q hq (hk.trans he.symm)⟩
  · intro h
    obtain ⟨⟨path, hpath, hk⟩, hnot⟩ := h
    exact ⟨path, ⟨hpath, fun q hq he => hnot q hq (he.symm.trans hk)⟩, hk⟩

/-- **The answer of a round without questions**: the files drawn in and the files reached,
without those that were removed. -/
theorem conclude_ok (hn : s.Named) (hstop : a.stop = none) (hask : a.requests = [])
    (compiled removed : List SourcePath) (answer : ConstantRequest → ConstantAnswer) :
    ∃ p, s.conclude a compiled removed answer = .ok (.incremental p) ∧
      ∀ k, p.has k = true ↔
        ((∃ path ∈ a.files, path.components = k) ∨ s.Reaches a compiled a.limitOn? k) ∧
          ∀ path ∈ removed, path.components ≠ k := by
  obtain ⟨p, hp, hpk⟩ := searched_ok hn a compiled
  refine ⟨p.eraseAll removed, ?_, fun k => ?_⟩
  · unfold conclude
    rw [hstop, hask]
    dsimp only
    rw [hp]
    rfl
  · rw [has_eraseAll, hpk]

/-! ## What two scenes reach -/

variable (hab : ∀ e, a.Brings e ↔ b.Brings e)

include hab

theorem isQueried_congr (u : Usage) : isQueried a u = isQueried b u := by
  cases u with
  | annotated used =>
    have hquery : ∀ q, q ∈ a.queries ↔ q ∈ b.queries := fun q => hab (.query q)
    rw [Bool.eq_iff_iff]
    simp only [isQueried, List.any_eq_true, hquery]
  | _ => rfl

theorem hit_relisted (h : s.Relisted t) {d d' : ClassInfo} (hd : d.Relisted d')
    (limit : Usage → Option Residency) : s.Hit a limit d ↔ t.Hit b limit d' := by
  obtain ⟨usages, rfl, hu⟩ := hd
  have husage : ∀ u, u ∈ a.usages ↔ u ∈ b.usages := fun u => hab (.usage u)
  unfold Hit
  simp only [hu, husage, isQueried_congr hab, Residency.holds_relisted h.updated]

theorem finds_relisted (h : s.Relisted t) (compiled : List SourcePath)
    (limit : Usage → Option Residency) (c : Symbol) (k : List Component) :
    s.Finds a compiled limit c k ↔ t.Finds b compiled limit c k := by
  have hdescribe := h.main.describe? c
  unfold Finds
  rw [h.fileOf, h.names]
  generalize s.main.describe? c = x at hdescribe
  generalize t.main.describe? c = y at hdescribe
  cases hdescribe with
  | none => simp
  | some hd => simp [hit_relisted hab h hd limit]

/-- The search reaches the same files in relisted scenes, under the same limits. -/
theorem reaches_relisted (h : s.Relisted t) (compiled : List SourcePath)
    (limit : Usage → Option Residency) (k : List Component) :
    s.Reaches a compiled limit k ↔ t.Reaches b compiled limit k := by
  have hdependant : ∀ c, c ∈ a.dependants ↔ c ∈ b.dependants := fun c => hab (.search c)
  unfold Reaches
  simp only [hdependant, finds_relisted hab h]

end Scene

/-! ## Answers of visits -/

/-- The same answer: the affected files are those of the same paths. -/
inductive Propagation.Same : Propagation → Propagation → Prop
  | incremental {p p' : PathSet} (h : ∀ k, p.has k = true ↔ p'.has k = true) :
    Same (.incremental p) (.incremental p')
  | fullRebuild : Same .fullRebuild .fullRebuild

theorem Propagation.bothOk_incremental_iff {p p' : PathSet} :
    BothOk Propagation.Same (.ok (.incremental p)) (.ok (.incremental p')) ↔
      ∀ k, p.has k = true ↔ p'.has k = true := by
  constructor
  · intro ⟨_, _, h, h', hsame⟩
    obtain rfl := Except.ok.inj h
    obtain rfl := Except.ok.inj h'
    cases hsame with
    | incremental hk => exact hk
  · exact fun hk => .ok (.incremental hk)

namespace Visit

variable {main round : Graph} {names : NameTable} {log : ChangeLog} {q : RoundRequest}

/-- The limits that a visit leaves decide nothing: a file that is neither drawn in nor removed
is reached under them when it is reached under the limits of the lists' own order. -/
def LimitsAgree (o : Visit main round) (names : NameTable) (q : RoundRequest) : Prop :=
  let s := (own main round).scene names q
  let a := (own main round).impact names q
  ∀ k, (∀ path ∈ a.files, path.components ≠ k) → (∀ path ∈ q.removed, path.components ≠ k) →
    (s.Reaches a q.compiled a.limitOn? k ↔ s.Reaches a q.compiled (o.impact names q).limitOn? k)

/-- **The answer and the order of a visit**: a visit has the answer of any other exactly when
everything has to be rebuilt anyway, or the limits that it leaves decide nothing. -/
theorem same_answer_iff (h : Regular main round names q) (o : Visit main round) :
    BothOk Propagation.Same ((own main round).compare names log q).outcome
        (o.compare names log q).outcome ↔
      (((own main round).impact names q).stop = none → o.LimitsAgree names q) := by
  have hown : ((own main round).compare names log q).outcome =
    ((own main round).scene names q).conclude ((own main round).impact names q) q.compiled
      q.removed q.answer := rfl
  have ho : (o.compare names log q).outcome =
    (o.scene names q).conclude (o.impact names q) q.compiled q.removed q.answer := rfl
  rw [hown, ho]
  rcases h.likewise o with ⟨hs, ht⟩ | hlike
  · unfold Scene.conclude
    rw [hs, ht]
    exact ⟨fun _ hstop => by simp at hstop, fun _ => .ok .fullRebuild⟩
  · obtain ⟨p, hp, hpk⟩ := Scene.conclude_ok h.named hlike.goesOn.1 hlike.silent.1 q.compiled
      q.removed q.answer
    have hnamed : (o.scene names q).Named := h.named.relisted (o.relisted_scene names q)
    obtain ⟨p', hp', hpk'⟩ := Scene.conclude_ok hnamed hlike.goesOn.2 hlike.silent.2 q.compiled
      q.removed q.answer
    have hfiles : ∀ k, (∃ path ∈ (o.impact names q).files, path.components = k) ↔
        ∃ path ∈ ((own main round).impact names q).files, path.components = k := fun k =>
      exists_congr fun path => and_congr (hlike.brings (.file path)).symm Iff.rfl
    have hreaches := fun limit k =>
      Scene.reaches_relisted hlike.brings (o.relisted_scene names q) q.compiled limit k
    rw [hp, hp']
    rw [Propagation.bothOk_incremental_iff]
    simp only [hpk, hpk', hfiles, ← hreaches]
    constructor
    · intro hk _ k hnot hkept
      have hdrawn : ¬ ∃ path ∈ ((own main round).impact names q).files, path.components = k := by
        rintro ⟨path, hpath, he⟩
        exact hnot path hpath he
      have := hk k
      simp only [hdrawn, false_or] at this
      exact ⟨fun hr => (this.1 ⟨hr, hkept⟩).1, fun hr => (this.2 ⟨hr, hkept⟩).1⟩
    · intro hlimits k
      refine and_congr_left fun hkept => ?_
      by_cases hdrawn : ∃ path ∈ ((own main round).impact names q).files, path.components = k
      · simp only [hdrawn, true_or]
      · simp only [hdrawn, false_or]
        exact hlimits hlike.goesOn.1 k (fun path hpath he => hdrawn ⟨path, hpath, he⟩) hkept

/-- **Order independence**: all visits of a round have one answer exactly when everything has
to be rebuilt anyway, or no visit leaves limits that decide whether a file is reached. -/
theorem order_free_iff (h : Regular main round names q) :
    (∀ o : Visit main round, BothOk Propagation.Same
        (compareRound names main round log q).outcome (o.compare names log q).outcome) ↔
      (((own main round).impact names q).stop = none →
        ∀ o : Visit main round, o.LimitsAgree names q) := by
  constructor
  · intro hsame hstop o
    exact (same_answer_iff h o).1 (hsame o) hstop
  · intro hlimits o
    exact (same_answer_iff h o).2 fun hstop => hlimits hstop o

/-! ## Limits that agree -/

/-- Where nothing stops, the events of a visit match event by event. -/
theorem Regular.matches_events (h : Regular main round names q)
    (hstop : ((own main round).impact names q).stop = none) (o : Visit main round) :
    Relist Impact.Matches ((own main round).events.map ((own main round).scene names q).event)
      (o.events.map (o.scene names q).event) := by
  have hown := Impact.stop_all.1 (Impact.stop_append.1 hstop).2
  have halike := h.alike_events o
  have hgoes : ∀ a ∈ (own main round).events.map ((own main round).scene names q).event,
      ∀ b, a.Alike b → a.Matches b := by
    intro a ha b hab
    refine hab.resolve_left fun hstopped => ?_
    rw [hown a ha] at hstopped
    simp at hstopped
  constructor
  · intro a ha
    obtain ⟨b, hb, hab⟩ := halike.1 a ha
    exact ⟨b, hb, hgoes a ha b hab⟩
  · intro b hb
    obtain ⟨a, ha, hab⟩ := halike.2 b hb
    exact ⟨a, ha, hgoes a ha b hab⟩

/-- The limits that a visit leaves are limits of single events, and it leaves none on a usage
only when no event limits it. -/
theorem Regular.limits (h : Regular main round names q)
    (hstop : ((own main round).impact names q).stop = none) (o : Visit main round) (u : Usage) :
    (∀ r, (o.impact names q).limitOn? u = some r → ∃ e ∈ (own main round).events,
        (((own main round).scene names q).event e).limitOn? u = some r) ∧
      ((o.impact names q).limitOn? u = none ↔ ∀ e ∈ (own main round).events,
        (((own main round).scene names q).event e).limitOn? u = none) := by
  have hremoved := h.plain_removed o
  have hmatch := h.matches_events hstop o
  have hevents : ∀ b ∈ o.events.map (o.scene names q).event, b.stop = none := by
    intro b hb
    obtain ⟨a, -, hab⟩ := hmatch.2 b hb
    exact hab.goesOn.2
  have hlimit : (o.impact names q).limitOn? u =
      (Impact.all (o.events.map (o.scene names q).event)).limitOn? u := by
    unfold impact Scene.impact
    rw [Impact.limitOn?_append hremoved.goesOn.2,
      Impact.limitOn?_of_unlimited hremoved.unlimited.2, Option.or_none]
  rw [hlimit, Impact.limitOn?_all_eq_none hevents]
  constructor
  · intro r hr
    obtain ⟨b, hb, hbr⟩ := Impact.exists_of_limitOn?_all hevents hr
    obtain ⟨a, ha, hab⟩ := hmatch.2 b hb
    obtain ⟨e, he, rfl⟩ := List.mem_map.1 ha
    exact ⟨e, he, (hab.limits u).trans hbr⟩
  · constructor
    · intro hnone e he
      obtain ⟨b, hb, hab⟩ := hmatch.1 _ (List.mem_map.2 ⟨e, he, rfl⟩)
      exact (hab.limits u).trans (hnone b hb)
    · intro hnone b hb
      obtain ⟨a, ha, hab⟩ := hmatch.2 b hb
      obtain ⟨e, he, rfl⟩ := List.mem_map.1 ha
      exact (hab.limits u).symm.trans (hnone e he)

/-- **One answer for all visits**, where any two events that limit the same usage agree about
every searched class that holds it. -/
theorem same_answer (h : Regular main round names q)
    (hagree : ∀ e ∈ (own main round).events, ∀ e' ∈ (own main round).events, ∀ u r r',
      (((own main round).scene names q).event e).limitOn? u = some r →
      (((own main round).scene names q).event e').limitOn? u = some r' →
      ∀ c ∈ ((own main round).impact names q).dependants, ∀ d, main.describe? c = some d →
        u ∈ d.usages → (r.holds ((own main round).scene names q).updated d.name = .ok true ↔
          r'.holds ((own main round).scene names q).updated d.name = .ok true))
    (o : Visit main round) :
    BothOk Propagation.Same (compareRound names main round log q).outcome
      (o.compare names log q).outcome := by
  refine (same_answer_iff h o).2 fun hstop k _ _ => ?_
  have hcounts : ∀ c ∈ ((own main round).impact names q).dependants, ∀ d,
      main.describe? c = some d → ∀ u ∈ d.usages,
      ((∀ r, ((own main round).impact names q).limitOn? u = some r →
          r.holds ((own main round).scene names q).updated d.name = .ok true) ↔
        ∀ r, (o.impact names q).limitOn? u = some r →
          r.holds ((own main round).scene names q).updated d.name = .ok true) := by
    intro c hc d hd u hu
    obtain ⟨hsome, hnone⟩ := h.limits hstop (own main round) u
    obtain ⟨hsome', hnone'⟩ := h.limits hstop o u
    cases hr : ((own main round).impact names q).limitOn? u with
    | none =>
      rw [hnone'.2 (hnone.1 hr)]
    | some r =>
      cases hr' : (o.impact names q).limitOn? u with
      | none =>
        rw [hnone.2 (hnone'.1 hr')] at hr
        simp at hr
      | some r' =>
        obtain ⟨e, he, her⟩ := hsome r hr
        obtain ⟨e', he', her'⟩ := hsome' r' hr'
        simpa using hagree e he e' he' u r r' her her' c hc d hd hu
  unfold Scene.Reaches Scene.Finds Scene.Hit
  refine exists_congr fun c => and_congr_right fun hc => exists_congr fun f =>
    exists_congr fun text => exists_congr fun d => ?_
  refine and_congr_right fun _ => and_congr_right fun _ => and_congr_right fun _ =>
    and_congr_right fun _ => and_congr_right fun hd => exists_congr fun u =>
    and_congr_right fun hu => or_congr (and_congr_right fun _ => ?_) Iff.rfl
  exact hcounts c hc d hd u hu

end Visit

/-! ## Two limits on one usage

A field loses access in one file, and a subclass in another file starts to hide it.  The
first change searches the readers that do not inherit, the second those that do, by a
limit on the same usage.  A reader elsewhere is affected when the first change comes last. -/

namespace TwoLimits

def names : NameTable :=
  NameTable.new.internAll
    ["java/lang/Object", "<init>", "p/C", "p/E", "q/D", "C.java", "E.java", "D.java", "f"]

/-- The field of the example, with some access. -/
def field (access : Flag) : FieldInfo := ⟨⟨9⟩, .ofFlags [access], .primitive .int, none, none⟩

/-- A class of the example. -/
def info (name super : Symbol) : ClassInfo := .plain name (.ofFlags [.pub]) (.named super)

/-- A class that reads the field. -/
def reader : ClassInfo := { info ⟨5⟩ ⟨1⟩ with usages := .single ((field .pub).readFrom ⟨3⟩) }

def past : Graph :=
  ((Graph.empty.record ⟨6⟩ ((info ⟨3⟩ ⟨1⟩).withField (field .pub))).record ⟨7⟩
    (info ⟨4⟩ ⟨3⟩)).record ⟨8⟩ reader

def now : Graph :=
  (Graph.empty.record ⟨6⟩ ((info ⟨3⟩ ⟨1⟩).withField (field .prot))).record ⟨7⟩
    ((info ⟨4⟩ ⟨3⟩).withField (field .pub))

def request : RoundRequest where
  removed := []
  files := [⟨"C.java"⟩, ⟨"E.java"⟩]
  compiled := [⟨"C.java"⟩, ⟨"E.java"⟩]
  accepts _ := true
  resolver := none
  waiting := .onlyArrived

/-- The visit that takes the second file first. -/
def swapped : Visit past now :=
  ⟨past, now, [⟨7⟩, ⟨6⟩], .refl past, .refl now, .swap _ _ []⟩

theorem regular : Visit.Regular past now names request where
  silent := rfl
  named := .of_entries (by decide) (by decide) (by decide)
  level := by
    intro e he
    -- no event of the example changes a method
    have hfields : ((Visit.own past now).events.all fun e => match e with
        | .changed change => (Scene.followed change.diff.methods).isEmpty
        | _ => true) = true := rfl
    have hnone := List.all_eq_true.1 hfields e he
    cases e with
    | changed change =>
      intro m hm
      rw [List.isEmpty_iff.1 hnone] at hm
      simp at hm
    | removed _ => trivial
    | added _ => trivial

theorem swapped_differs :
    ¬ BothOk Propagation.Same (compareRound names past now .empty request).outcome
      (swapped.compare names .empty request).outcome := by
  have hown : (compareRound names past now .empty request).outcome =
    .ok (.incremental .empty) := rfl
  have hswapped : (swapped.compare names .empty request).outcome =
    .ok (.incremental (.single ⟨"D.java"⟩)) := rfl
  rw [hown, hswapped, Propagation.bothOk_incremental_iff]
  intro hk
  have hreader := (hk [.name "D.java"]).2 rfl
  simp at hreader

/-- The two limits decide whether the reader's file is reached. -/
theorem limits_decide :
    ¬ (((Visit.own past now).impact names request).stop = none →
      ∀ o : Visit past now, o.LimitsAgree names request) :=
  fun h => swapped_differs ((Visit.order_free_iff regular).2 h swapped)

theorem order_decides :
    request.resolver = none ∧ ((Visit.own past now).scene names request).Named ∧
      ¬ ∀ o : Visit past now, BothOk Propagation.Same
        (compareRound names past now .empty request).outcome
        (o.compare names .empty request).outcome :=
  ⟨rfl, regular.named, fun h => swapped_differs (h swapped)⟩

end TwoLimits

end ClassImpact

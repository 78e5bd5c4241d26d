import ClassImpact.Proofs.Deferred
import ClassImpact.Proofs.Forgotten

/-!
# Impacts in a graph that forgot a class

A graph forgets a class when the class loses its source file and the file its classes; the
edges stay.  Where the descriptor of the class is not come by, a rule has the impact that it
had before, but for the file of the forgotten class.

An impact is retained by another one when all of it is still there, apart from one file.  The
limits on usages and the questions about constants have to be the same in both: a limit takes
something away, and more questions can make the answer smaller.

## Main results

* `Scene.retains_subclasses`, `Scene.retains_widen`, `Scene.retains_constant`: the steps that
  the rules are made of
-/

namespace ClassImpact

namespace Impact

/-! ## Impacts that retain another one -/

/-- What an impact may lose, and what its limits and its questions have to satisfy. -/
structure Terms where
  lost : List Component
  limit : Residency → Prop
  question : ConstantRequest → Prop

/-- Anything but drawing in the file of a path. -/
def Effect.Elsewhere (k : List Component) : Effect → Prop
  | .file path => path.components ≠ k
  | _ => True

/-- An impact that goes on retains all that another one brings about, apart from one file,
under the same limits and with the same questions. -/
structure Keeps (t : Terms) (a b : Impact) : Prop where
  goesOn : b.stop = .none
  brings : ∀ e, a.Brings e → e.Elsewhere t.lost → b.Brings e
  limits : b.limits = a.limits
  requests : b.requests = a.requests
  limit : ∀ l ∈ a.limits, t.limit l.2
  question : ∀ r ∈ a.requests, t.question r

/-- An impact that does not stop is retained by another one. -/
def Retains (t : Terms) (a b : Impact) : Prop := a.stop = .none → Keeps t a b

variable {t : Terms} {a b a' b' : Impact}

theorem Plain.retains (h : a.Plain b) (t : Terms) : Retains t a a := by
  intro hstop
  exact
    { goesOn := hstop
      brings := fun _ he _ => he
      limits := rfl
      requests := rfl
      limit := by simp [h.unlimited.1]
      question := by simp [h.silent.1] }

/-- Nothing is retained by any impact without limits and questions. -/
theorem Plain.retains_none (h : b.Plain b) (t : Terms) : Retains t none b := by
  intro _
  exact
    { goesOn := h.goesOn.1
      brings := fun e he _ => absurd he (not_brings_none e)
      limits := h.unlimited.1
      requests := h.silent.1
      limit := by simp [none]
      question := by simp [none] }

/-- The file that may be lost. -/
theorem retains_lost {path : SourcePath} (h : path.components = t.lost) :
    Retains t (ofFiles [path]) none := by
  intro _
  refine ⟨rfl, fun e he helse => ?_, rfl, rfl, by simp [ofFiles, none], by simp [ofFiles, none]⟩
  cases e with
  | file path' =>
    obtain rfl := List.mem_singleton.1 he
    exact absurd h helse
  | _ => exact he

theorem retains_ofLimit {r : Residency} (h : t.limit r) (usages : List Usage) :
    Retains t (ofLimit usages r) (ofLimit usages r) := by
  intro _
  refine ⟨rfl, fun e he _ => he, rfl, rfl, fun l hl => ?_, by simp [ofLimit, none]⟩
  obtain ⟨u, -, rfl⟩ := List.mem_map.1 hl
  exact h

theorem retains_ofRequest {r : ConstantRequest} (h : t.question r) :
    Retains t (ofRequest r) (ofRequest r) := by
  intro _
  refine ⟨rfl, fun e he _ => he, rfl, rfl, by simp [ofRequest, none], fun r' hr => ?_⟩
  obtain rfl := List.mem_singleton.1 hr
  exact h

/-- Nothing is retained of an impact that stops. -/
theorem retains_ofStop (stop : Stop) (b : Impact) : Retains t (ofStop stop) b := by
  intro hstop
  simp [ofStop] at hstop

theorem Retains.append (h : Retains t a b) (h' : Retains t a' b') :
    Retains t (a ++ a') (b ++ b') := by
  intro hstop
  obtain ⟨ha, ha'⟩ := stop_append.1 hstop
  have hab := h ha
  have hab' := h' ha'
  exact
    { goesOn := stop_append.2 ⟨hab.goesOn, hab'.goesOn⟩
      brings := fun e he helse => by
        rw [brings_append ha] at he
        rw [brings_append hab.goesOn]
        exact he.imp (hab.brings e · helse) (hab'.brings e · helse)
      limits := by
        rw [limits_append ha, limits_append hab.goesOn, hab.limits, hab'.limits]
      requests := by
        rw [requests_append ha, requests_append hab.goesOn, hab.requests, hab'.requests]
      limit := fun l hl => by
        rw [limits_append ha] at hl
        exact (List.mem_append.1 hl).elim (hab.limit l) (hab'.limit l)
      question := fun r hr => by
        rw [requests_append ha] at hr
        exact (List.mem_append.1 hr).elim (hab.question r) (hab'.question r) }

theorem Retains.all {l m : List Impact} (h : List.Forall₂ (Retains t) l m) :
    Retains t (all l) (all m) := by
  induction h with
  | nil => exact plain_none.retains t
  | cons hab _ ih => exact hab.append ih

theorem retains_loop {α : Type} {l : List α} {f g : α → Impact}
    (h : ∀ x ∈ l, Retains t (f x) (g x)) :
    Retains t (Impact.all (l.map f)) (Impact.all (l.map g)) := by
  refine .all ?_
  rw [List.forall₂_map_left_iff, List.forall₂_map_right_iff, List.forall₂_same]
  exact h

theorem Retains.onlyIf (condition : Bool) (h : condition = true → Retains t a b) :
    Retains t (onlyIf condition a) (onlyIf condition b) :=
  onlyIf_related (plain_none.retains t) h

theorem all_map_filter {α : Type} (l : List α) (p : α → Bool) (f : α → Impact) :
    Impact.all ((l.filter p).map f) = Impact.all (l.map fun x => Impact.onlyIf (p x) (f x)) := by
  induction l with
  | nil => rfl
  | cons x l ih =>
    rw [List.map_cons, all_cons, ← ih]
    cases hx : p x with
    | true =>
      rw [List.filter_cons_of_pos hx]
      rfl
    | false =>
      rw [List.filter_cons_of_neg (by simp [hx])]
      exact (none_append _).symm

/-- A condition that holds more often. -/
theorem Retains.onlyIf_of_imp {p q : Bool} (hpq : p = true → q = true) (h : Retains t a b)
    (hb : b.Plain b) : Retains t (Impact.onlyIf p a) (Impact.onlyIf q b) := by
  cases p with
  | true =>
    rw [hpq rfl]
    exact h
  | false => exact (hb.onlyIf q).retains_none t

/-- A result whose value is worked on. -/
theorem retains_ofResult {α : Type} {r : Except Fault α} {f g : α → Impact}
    (h : ∀ x, r = .ok x → Retains t (f x) (g x)) : Retains t (ofResult r f) (ofResult r g) := by
  cases r with
  | ok x => exact h x rfl
  | error fault => exact retains_ofStop _ _

end Impact

/-! ## A scene that forgot a class -/

/-- The graph without the source file of a class and without the classes of that file. -/
def Graph.forget (g : Graph) (u file : Symbol) : Graph :=
  { g with classesIn := g.classesIn.erase file, fileOf := g.fileOf.erase u }

namespace Scene

/-- The scene with a class forgotten in the graph so far. -/
def forget (s : Scene) (u file : Symbol) : Scene := { s with main := s.main.forget u file }

/-- A class that is alone in its file, which the round does not compile. -/
structure Spares (s : Scene) (u file : Symbol) : Prop where
  source : s.main.fileOf.get? u = some file
  alone : ∀ c ∈ s.main.classesIn.valuesOf file, c.name = u
  uncompiled : s.round.classesIn.has file = false
  unmade : ∀ {f c}, c ∈ s.round.classesIn.valuesOf f → c.name ≠ u

variable {s : Scene} {u file : Symbol}

theorem valuesOf_forget (s : Scene) (u : Symbol) {file f : Symbol} (hf : f ≠ file) :
    (s.forget u file).main.classesIn.valuesOf f = s.main.classesIn.valuesOf f := by
  show ((s.main.classesIn.erase file).get? f).getD .empty = _
  rw [Table.get?_erase, if_neg hf.symm]
  rfl

theorem fileOf_forget (s : Scene) (file : Symbol) {u n : Symbol} (hn : n ≠ u) :
    (s.forget u file).main.fileOf.get? n = s.main.fileOf.get? n := by
  show (s.main.fileOf.erase u).get? n = _
  rw [Table.get?_erase, if_neg hn.symm]

theorem fileOf_forget_self (s : Scene) (u file : Symbol) :
    (s.forget u file).main.fileOf.get? u = none := by
  show (s.main.fileOf.erase u).get? u = none
  rw [Table.get?_erase, if_pos rfl]

theorem mem_of_mem_forget {f : Symbol} {c : ClassInfo}
    (hc : c ∈ (s.forget u file).main.classesIn.valuesOf f) : c ∈ s.main.classesIn.valuesOf f := by
  by_cases hf : f = file
  · have hget : (s.main.classesIn.erase file).get? f = none := by
      rw [Table.get?_erase, if_pos hf.symm]
    have hempty : (s.forget u file).main.classesIn.valuesOf f = .empty := by
      show ((s.main.classesIn.erase file).get? f).getD .empty = _
      rw [hget]
      rfl
    rw [hempty] at hc
    simp at hc
  · rwa [valuesOf_forget s u hf] at hc

theorem of_fileOf_forget {n f : Symbol} (hf : (s.forget u file).main.fileOf.get? n = some f) :
    n ≠ u ∧ s.main.fileOf.get? n = some f := by
  have hn : n ≠ u := by
    rintro rfl
    rw [fileOf_forget_self] at hf
    simp at hf
  exact ⟨hn, fileOf_forget s file hn ▸ hf⟩

theorem Named.forget (hn : s.Named) (u file : Symbol) : (s.forget u file).Named where
  classes hf := hn.classes (of_fileOf_forget hf).2
  files hf := hn.files (of_fileOf_forget hf).2
  past hc := hn.past (mem_of_mem_forget hc)
  round hc := hn.round hc

/-! ### Descriptors -/

section

variable (h : s.Spares u file)

include h

/-- The descriptors of other classes stay, the one of the forgotten class is gone. -/
theorem describe?_forget (n : Symbol) :
    (s.forget u file).main.describe? n = if n = u then none else s.main.describe? n := by
  unfold Graph.describe?
  by_cases hn : n = u
  · rw [if_pos hn, hn, fileOf_forget_self]
    rfl
  · rw [if_neg hn, fileOf_forget s file hn]
    cases hf : s.main.fileOf.get? n with
    | none => rfl
    | some f =>
      by_cases hfile : f = file
      · -- the file of the forgotten class holds no other class
        have hnone : ∀ {g : IdSet ClassInfo}, (∀ c ∈ g, c.name = u) → g.find? n = none := by
          intro g hg
          cases hfind : g.find? n with
          | none => rfl
          | some c =>
            obtain ⟨hc, hname⟩ := IdSet.find?_eq_some.1 hfind
            exact absurd (hname.symm.trans (hg c hc)) hn
        show ((s.forget u file).main.classesIn.valuesOf f).find? n =
          (s.main.classesIn.valuesOf f).find? n
        rw [hfile, hnone h.alone, hnone fun c hc => h.alone c (mem_of_mem_forget hc)]
      · show ((s.forget u file).main.classesIn.valuesOf f).find? n = _
        rw [valuesOf_forget s u hfile]
        rfl

theorem Spares.old : s.old.Loses u (s.forget u file).old where
  describe n hn := (describe?_forget h n).trans (if_neg hn)
  unknown := (describe?_forget h u).trans (if_pos rfl)
  subclasses := rfl
  names := rfl

theorem Spares.updated : s.updated.Loses u (s.forget u file).updated := by
  have hround : s.round.describe? u = none := by
    cases hd : s.round.describe? u with
    | none => rfl
    | some d =>
      obtain ⟨f, -, hmem, hname⟩ := Graph.describe?_eq_some.1 hd
      exact absurd hname (h.unmade hmem)
  exact
    { describe := fun n hn => by
        show (s.round.describe? n).or ((s.forget u file).main.describe? n) = _
        rw [describe?_forget h n, if_neg hn]
        rfl
      unknown := by
        show (s.round.describe? u).or ((s.forget u file).main.describe? u) = _
        rw [describe?_forget h u, if_pos rfl, hround]
        rfl
      subclasses := rfl
      names := rfl }

end

/-! ## Steps of the rules -/

open Impact

/-- What the impacts in a scene that forgot a class may lose: the file of that class.  A limit
may only become weaker, and a question is about a class that has a name and that the forgotten
class is not below. -/
def terms (s : Scene) (u file : Symbol) : Terms where
  lost := ((s.names.name file).toOption.map fun text => (SourcePath.mk text).components).getD []
  limit r := ∀ c, r.holds s.updated c = .ok true → r.holds (s.forget u file).updated c = .ok true
  question r := s.names.Knows r.owner ∧ ¬ s.main.Below r.owner u

section

variable (h : s.Spares u file) (hn : s.Named)

/-! ### Files and users -/

theorem lost_terms {text : String} (htext : s.names.name file = .ok text) (u : Symbol) :
    (s.terms u file).lost = (SourcePath.mk text).components := by
  unfold terms
  rw [htext]
  rfl

include h hn

theorem retains_file_lost : Retains (s.terms u file) (s.file file) Impact.none := by
  obtain ⟨text, htext⟩ := hn.files h.source
  unfold Scene.file
  rw [htext]
  exact retains_lost (lost_terms htext u).symm

theorem retains_acceptedFile_lost :
    Retains (s.terms u file) (s.acceptedFile file) Impact.none := by
  obtain ⟨text, htext⟩ := hn.files h.source
  unfold Scene.acceptedFile
  rw [htext]
  dsimp only [ofResult]
  split
  · exact retains_lost (lost_terms htext u).symm
  · exact plain_none.retains _

/-- The file of a class, which may be the lost one. -/
theorem retains_onFileOf {draw : Symbol → Impact}
    (hlost : Retains (s.terms u file) (draw file) Impact.none)
    (hdraw : ∀ f, s.names.Knows f → (draw f).Plain (draw f)) (n : Symbol) :
    Retains (s.terms u file) (s.onFileOf draw n) ((s.forget u file).onFileOf draw n) := by
  by_cases hnu : n = u
  · rw [hnu]
    simp only [onFileOf, h.source, fileOf_forget_self]
    exact hlost
  · have heq : (s.forget u file).onFileOf draw n = s.onFileOf draw n := by
      unfold onFileOf
      rw [fileOf_forget s file hnu]
    rw [heq]
    exact (plain_onFileOf (.refl s) hn hdraw n).retains _

theorem retains_fileOfClass (n : Symbol) :
    Retains (s.terms u file) (s.fileOfClass n) ((s.forget u file).fileOfClass n) :=
  retains_onFileOf h hn (retains_file_lost h hn) (fun _ => plain_file (.refl s)) n

theorem retains_acceptedFileOfClass (n : Symbol) :
    Retains (s.terms u file) (s.acceptedFileOfClass n)
      ((s.forget u file).acceptedFileOfClass n) :=
  retains_onFileOf h hn (retains_acceptedFile_lost h hn) (fun _ => plain_acceptedFile (.refl s)) n

theorem retains_packageFiles (n : Symbol) :
    Retains (s.terms u file) (s.packageFiles n) ((s.forget u file).packageFiles n) := by
  have hentries : (s.forget u file).main.fileOf.entries =
      s.main.fileOf.entries.filter fun e => e.1 ≠ u := rfl
  unfold packageFiles
  refine retains_ofResult fun package _ => ?_
  rw [hentries, all_map_filter]
  refine retains_loop fun e he => ?_
  have hget := Table.mem_entries.1 he
  by_cases heu : e.1 = u
  · have hfile : e.2 = file := by
      rw [heu, h.source] at hget
      exact (Option.some.inj hget).symm
    rw [heu, hfile, decide_eq_false (not_not_intro rfl)]
    cases s.names.packageOf u with
    | error fault => exact retains_ofStop _ _
    | ok p =>
      dsimp only [ofResult]
      split
      · exact retains_acceptedFile_lost h hn
      · exact plain_none.retains _
  · rw [decide_eq_true heu]
    refine retains_ofResult fun p _ => ?_
    split
    · exact (plain_acceptedFile (.refl s) (hn.files hget)).retains _
    · exact plain_none.retains _

/-! ### Classes below -/

omit hn in
/-- The files below a class that `u` is not below. -/
theorem subclasses_forget {c : Symbol} (hu : ¬ s.main.Below c u) (mentions : Bool) :
    (s.forget u file).subclasses c mentions = s.subclasses c mentions := by
  have hdown : ∀ {p q}, q ∈ s.sourcedWalk.neighbours p → q ∈ s.main.directSubclasses p := by
    intro p q hq
    have hq : q ∈ if s.main.fileOf.has p then s.main.directSubclasses p else [] := hq
    split at hq
    · exact hq
    · simp at hq
  have hfound : ∀ d ∈ s.sourcedWalk.findFrom (View.downBound s.main) c c, s.main.Below c d :=
    Walk.forall_findFrom (w := s.sourcedWalk) (I := s.main.Below c)
      (fun p hp q hq r hr => Option.some.inj hr ▸ hp.tail (hdown hq))
      (fun p hp q hq x hx => List.mem_singleton.1 hx ▸ hp.tail (hdown hq)) .refl
      (View.downBound s.main) c
  have hwalk : ∀ bound, s.sourcedWalk.findFrom bound c c =
      (s.forget u file).sourcedWalk.findFrom bound c c := by
    intro bound
    refine Walk.findFrom_congr (I := fun p => ¬ s.main.Below p u) (fun p hp => ?_)
      (fun p _ q _ => ?_) (fun p hp q hq r hr hbelow => ?_) hu bound c
    · have hpu : p ≠ u := fun hpu => hp (hpu ▸ .refl)
      have hhas : (s.forget u file).main.fileOf.has p = s.main.fileOf.has p := by
        unfold Table.has
        rw [fileOf_forget s file hpu]
      show (if s.main.fileOf.has p then _ else _) =
        if (s.forget u file).main.fileOf.has p then _ else _
      rw [hhas]
      rfl
    · rfl
    · exact hp (.head (hdown hq) (Option.some.inj hr ▸ hbelow))
  unfold subclasses
  rw [← hwalk]
  show Impact.all _ = Impact.all _
  refine congrArg Impact.all (List.map_congr_left fun d hd => ?_)
  have hbelow : s.main.Below c d := by
    rcases List.mem_cons.1 hd with rfl | hd
    · exact .refl
    · exact hfound d hd
  have hdu : d ≠ u := fun hdu => hu (hdu ▸ hbelow)
  rw [fileOf_forget s file hdu, h.updated.describe d hdu]
  rfl

theorem retains_subclasses {c : Symbol} (hu : ¬ s.main.Below c u) (mentions : Bool) :
    Retains (s.terms u file) (s.subclasses c mentions)
      ((s.forget u file).subclasses c mentions) := by
  rw [subclasses_forget h hu]
  exact (plain_subclasses (.refl s) hn c mentions).retains _

/-! ### Widening -/

/-- A widened change, where `u` is not below the class that it starts from. -/
theorem retains_widen {owner : Symbol} (hu : ¬ s.main.Below owner u) (access : Access)
    (field : Option Symbol) (n : Symbol) :
    Retains (s.terms u file) (s.widen owner access field n)
      ((s.forget u file).widen owner access field n) := by
  unfold widen
  cases access.isPublic with
  | true => exact retains_ofStop _ _
  | false =>
    rw [h.old.inheriting_eq hu]
    refine .append (.onlyIf _ fun _ => retains_loop fun d _ => ?_) (retains_packageFiles h hn n)
    exact retains_acceptedFileOfClass h hn d

theorem retains_constant {c : ClassInfo} (hu : ¬ s.main.Below c.name u) (f : FieldInfo)
    (removed accessChanged : Bool) :
    Retains (s.terms u file) (s.constant c f removed accessChanged)
      ((s.forget u file).constant c f removed accessChanged) := by
  have hask' : (s.forget u file).canAsk = s.canAsk := rfl
  unfold constant
  rw [hask']
  cases s.canAsk with
  | true =>
    rw [if_pos rfl, if_pos rfl]
    refine retains_ofResult fun ownerName hname => retains_ofResult fun fieldName _ => ?_
    exact retains_ofRequest ⟨⟨ownerName, hname⟩, hu⟩
  | false =>
    rw [if_neg Bool.false_ne_true, if_neg Bool.false_ne_true]
    exact retains_widen h hn hu _ _ _

/-! ### Limits -/

omit hn in
/-- What a class does not inherit from, it does not inherit from with less descriptors. -/
theorem limit_noInheritorOf {c : Symbol} {r : Residency}
    (hr : Residency.noInheritorOf s.names c = .ok r) : (s.terms u file).limit r := by
  obtain ⟨package, -, rfl⟩ := exists_of_map_ok hr
  intro n hholds
  rw [Residency.holds] at hholds ⊢
  by_cases hyes : (s.forget u file).updated.inherits n c = .yes
  · rw [if_neg (not_not_intro (h.updated.inherits_eq_yes hyes))] at hholds
    rw [if_neg (not_not_intro hyes)]
    exact hholds
  · rw [if_pos hyes]

omit hn in
/-- What a class inherits from, it still inherits from when the forgotten class is not between. -/
theorem limit_inheritorOf {c : Symbol} (hu : ¬ s.updated.Above u c) {r : Residency}
    (hr : (Residency.noInheritorOf s.names c).map .not = .ok r) : (s.terms u file).limit r := by
  obtain ⟨_, hinheritor, rfl⟩ := exists_of_map_ok hr
  obtain ⟨package, -, rfl⟩ := exists_of_map_ok hinheritor
  intro n hholds
  have hyes := h.updated.inherits_eq_yes_iff hu n
  simp only [Residency.holds, ne_eq, hyes] at hholds ⊢
  exact hholds

omit h hn in
/-- The package of a class has nothing to do with descriptors. -/
theorem limit_outsideOf {c : Symbol} {r : Residency}
    (hr : Residency.outsideOf s.names c = .ok r) :
    (s.terms u file).limit r ∧ (s.terms u file).limit r.not := by
  obtain ⟨package, -, rfl⟩ := exists_of_map_ok hr
  exact ⟨fun n hholds => hholds, fun n hholds => hholds⟩

omit h hn in
theorem limit_both {r q : Residency} (hr : (s.terms u file).limit r)
    (hq : (s.terms u file).limit q) : (s.terms u file).limit (.both r q) := by
  intro n hholds
  rw [Residency.holds] at hholds ⊢
  cases hrn : r.holds s.updated n with
  | error fault => simp [hrn, Bind.bind, Except.bind] at hholds
  | ok b =>
    rw [hrn] at hholds
    cases b with
    | true =>
      rw [hr n hrn]
      exact hq n hholds
    | false => simp [Bind.bind, Except.bind, pure, Except.pure] at hholds

omit h hn in
theorem retains_limited {residency : Except Fault Residency}
    (hlimit : ∀ r, residency = .ok r → (s.terms u file).limit r) (usages : List Usage) :
    Retains (s.terms u file) (limited usages residency) (limited usages residency) :=
  retains_ofResult fun r hr => retains_ofLimit (hlimit r hr) usages

end

end Scene

end ClassImpact

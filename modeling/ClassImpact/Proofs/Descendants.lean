import ClassImpact.Proofs.Narrowing
import ClassImpact.Proofs.Subclasses

/-!
# Everything below a class

A class changes its shape when its superclass, its interfaces or its generic signature are other
ones, or when it gains a method that a class below may have to implement.  Such a change draws in
the file of the class and of everything below it.

The walk down passes through the classes that have a source file.  It comes to every class that
recorded edges lead to through such classes, whatever cycles they form, because it ends only
where no place is left.

## Main results

* `Scene.sourcedWalk_ends`, `Scene.mem_sourcedWalk_iff`: the walk ends, and where it has been
* `compareInOrder_reshaped`: the file of everything below a class that changed its shape is
  affected
-/

namespace ClassImpact

/-! ## Changes of shape -/

/-- What becomes of a class that draws in everything below it. -/
inductive ClassInfo.Reshaped (past now : ClassInfo) : Prop where
  | superclass (h : past.superclass ≠ now.superclass)
  | interfaces (h : ¬ ∀ t, t ∈ past.interfaces ↔ t ∈ now.interfaces)
  | signature (h : past.signature ≠ now.signature)
  | gained {m : MethodInfo} (plain : past.isAnnotationType = false) (mem : m ∈ now.methods)
      (new : ∀ m' ∈ past.methods, m'.key ≠ m.key)
      (unimplemented : past.access.hasAny [.interface, .abstract] = true ∨
        m.access.isAbstract = true)

namespace ClassInfo.Reshaped

variable {past now : ClassInfo}

/-- A change of shape shows in the place of the class, or in a method that it gains. -/
theorem cases_change (h : past.Reshaped now) :
    (ClassChange.between past now).base.superclass = true ∨
      (ClassChange.between past now).interfaces.isEmpty = false ∨
      (ClassChange.between past now).base.signature = true ∨
      past.isAnnotationType = false ∧ ∃ m ∈ (ClassChange.between past now).methods.added,
        (past.access.hasAny [.interface, .abstract] || m.access.isAbstract) = true := by
  cases h with
  | superclass h => exact .inl (by simpa [ClassChange.between] using h)
  | interfaces h =>
    rw [← isEmpty_ofMembers_iff, Bool.not_eq_true] at h
    exact .inr (.inl h)
  | signature h => exact .inr (.inr (.inl (by simpa [ClassChange.between] using h)))
  | gained plain mem new unimplemented =>
    refine .inr (.inr (.inr ⟨plain, _, Patch.mem_added.2 ⟨mem, new⟩, ?_⟩))
    rw [Bool.or_eq_true]
    exact unimplemented

theorem isEmpty_between (h : past.Reshaped now) :
    (ClassChange.between past now).isEmpty = false := by
  rw [ClassChange.isEmpty, Revision.isEmpty]
  rcases h.cases_change with hplace | hplace | hplace | ⟨-, m, hm, -⟩
  · simp [hplace]
  · simp [hplace]
  · simp [hplace]
  · have hadded : (ClassChange.between past now).methods.isEmpty = false := by
      rw [Patch.isEmpty, List.isEmpty_eq_false_iff.2 (List.ne_nil_of_mem hm)]
      rfl
    simp [hadded]

end ClassInfo.Reshaped

/-! ## The walk down -/

/-- `b` is `a` or below it, along recorded subclass edges that leave classes with a source
file. -/
def Graph.SourcedBelow (g : Graph) (a b : Symbol) : Prop :=
  Relation.ReflTransGen (fun p q => g.fileOf.has p = true ∧ q ∈ g.directSubclasses p) a b

namespace Scene

open Impact

variable {s : Scene} {c d f : Symbol} {mentions : Bool}

theorem mem_neighbours_sourcedWalk {p q : Symbol} :
    q ∈ s.sourcedWalk.neighbours p ↔
      s.main.fileOf.has p = true ∧ q ∈ s.main.directSubclasses p := by
  show q ∈ (if s.main.fileOf.has p then s.main.directSubclasses p else []) ↔ _
  by_cases hp : s.main.fileOf.has p = true
  · rw [if_pos hp, and_iff_right hp]
  · simp [hp]

theorem mem_listed_of_sourcedWalk {p q : Symbol} (h : q ∈ s.sourcedWalk.neighbours p) :
    q ∈ s.main.listedSubclasses :=
  Graph.mem_listedSubclasses (mem_neighbours_sourcedWalk.1 h).2

/-- **The walk ends** because no place is left, in a cyclic hierarchy too. -/
theorem sourcedWalk_ends (s : Scene) (c : Symbol) :
    (s.sourcedWalk.run (View.downBound s.main) ⟨[c], [c], []⟩).pending = [] :=
  Walk.pending_findFrom (.everywhere fun _ _ => mem_listed_of_sourcedWalk) trivial
    s.main.card_listedSubclasses_lt c

/-- Where the walk has been. -/
theorem mem_sourcedWalk_iff :
    d ∈ c :: s.sourcedWalk.findFrom (View.downBound s.main) c c ↔ s.main.SourcedBelow c d := by
  rw [List.mem_cons]
  by_cases hd : d = c
  · exact ⟨fun _ => hd ▸ .refl, fun _ => .inl hd⟩
  · have hwalk := Walk.mem_findFrom_everywhere (f := s.sourcedWalk.neighbours)
      (fun _ _ => mem_listed_of_sourcedWalk) s.main.card_listedSubclasses_lt hd
    simp only [mem_neighbours_sourcedWalk] at hwalk
    exact (or_iff_right hd).trans hwalk

/-- The file of everything below a class has a name, and is drawn in. -/
theorem drawn_of_subclasses (hstop : (s.subclasses c mentions).stop = .none)
    (hbelow : s.main.SourcedBelow c d) (hf : s.main.fileOf.get? d = some f) :
    ∃ text, s.names.name f = .ok text ∧ ⟨text⟩ ∈ (s.subclasses c mentions).files := by
  have hpart : (s.file f).PartOf (s.subclasses c mentions) := by
    refine PartOf.trans ?_ (partOf_loop (mem_sourcedWalk_iff.2 hbelow) _)
    rw [hf]
    exact partOf_append_right _ _
  obtain ⟨hfile, hbrings, -⟩ := hpart hstop
  cases htext : s.names.name f with
  | error fault =>
    rw [file, htext] at hfile
    cases hfile
  | ok text =>
    have hdrawn : (s.file f).Brings (.file ⟨text⟩) := by
      rw [file, htext]
      exact List.mem_singleton_self _
    exact ⟨text, rfl, hbrings _ hdrawn⟩

/-! ## The rules -/

theorem partOf_changedPlace (past : ClassInfo) {diff : ClassChange}
    (h : diff.base.superclass = true ∨ diff.interfaces.isEmpty = false ∨
      diff.base.signature = true) :
    ∃ mentions, (s.subclasses past.name mentions).PartOf (s.changedPlace past diff) := by
  have hplace : (diff.base.superclass || !diff.interfaces.isEmpty || diff.base.signature) =
      true := by
    rcases h with h | h | h <;> simp [h]
  unfold changedPlace
  dsimp only
  rw [hplace]
  exact ⟨_, PartOf.refl _⟩

theorem partOf_addedMethods {past : ClassInfo} {p : Patch MethodInfo MethodChange}
    {m : MethodInfo} (hplain : past.isAnnotationType = false) (hm : m ∈ p.added)
    (h : (past.access.hasAny [.interface, .abstract] || m.access.isAbstract) = true) :
    (s.subclasses past.name false).PartOf (s.methods past p) := by
  have hadded : (s.subclasses past.name false).PartOf (s.addedMethod past m) := by
    unfold addedMethod
    rw [h]
    exact partOf_append_left _ _
  refine (hadded.trans (partOf_loop hm _)).trans ?_
  unfold methods
  rw [hplain]
  exact (partOf_append_left _ _).trans (partOf_append_left _ _)

/-- Everything below a class that changed its shape is a part of what the change brings
about. -/
theorem partOf_changedClass_reshaped (change : Changed ClassInfo ClassChange)
    (h : change.past.Reshaped change.now)
    (hdiff : change.diff = .between change.past change.now) :
    ∃ mentions, (s.subclasses change.past.name mentions).PartOf (s.changedClass change) := by
  have hcases := h.cases_change
  rw [← hdiff, ← or_assoc, ← or_assoc, or_assoc (c := _ = true)] at hcases
  rcases hcases with hplace | ⟨hplain, m, hm, hunimplemented⟩
  · obtain ⟨mentions, hpart⟩ := partOf_changedPlace (s := s) change.past hplace
    exact ⟨mentions, hpart.trans (partOf_all (by simp))⟩
  · exact ⟨false, (partOf_addedMethods hplain hm hunimplemented).trans (partOf_all (by simp))⟩

/-- A removed file is not affected. -/
theorem not_removed_of_affected {a : Impact} {compiled removed : List SourcePath}
    {answer : ConstantRequest → ConstantAnswer} {p : PathSet} {k : List Component}
    (h : s.conclude a compiled removed answer = .ok (.incremental p)) (hk : p.has k = true) :
    ∀ gone ∈ removed, gone.components ≠ k := by
  obtain ⟨searched, -, hsettled⟩ := exists_settled h
  exact ((hsettled k).1 hk).2

end Scene

/-! ## Comparisons -/

/-- **Changes of shape reach everything below**: when a class that changed its shape is compiled
again, the walk down from it ends, and the file of every class below it has a name and is
affected, unless it was removed. -/
theorem compareInOrder_reshaped {names : NameTable} {main round : Graph} {log : ChangeLog}
    {q : RoundRequest} {files : List Symbol} {affected : PathSet} {file : Symbol}
    {past now : ClassInfo}
    (h : (compareInOrder names main round log q files).outcome = .ok (.incremental affected))
    (hfile : file ∈ files) (hpast : past ∈ main.classesIn.valuesOf file)
    (hnow : now ∈ round.classesIn.valuesOf file) (hname : past.name = now.name)
    (hshape : past.Reshaped now) :
    let s := Scene.of names main round q
    (s.sourcedWalk.run (View.downBound main) ⟨[past.name], [past.name], []⟩).pending = [] ∧
      ∀ d f, main.SourcedBelow past.name d → main.fileOf.get? d = some f →
        ∃ text, s.names.name f = .ok text ∧
          (affected.has (SourcePath.mk text).components = true ↔
            ∀ gone ∈ q.removed, gone.components ≠ (SourcePath.mk text).components) := by
  intro s
  refine ⟨s.sourcedWalk_ends past.name, fun d f hbelow hf => ?_⟩
  have hevent : .changed ⟨past, now, .between past now⟩ ∈ ClassEvent.ofFiles main round files :=
    ClassEvent.mem_ofFiles.2 ⟨file, hfile, ClassEvent.mem_ofFile_changed.2
      ⟨hpast, hnow, hname, rfl, hshape.isEmpty_between⟩⟩
  obtain ⟨hchanged, hround, -⟩ :=
    Scene.partOf_event (s := s) hevent q.removed (Scene.stop_of_conclude h)
  obtain ⟨mentions, hpart⟩ := Scene.partOf_changedClass_reshaped (s := s)
    ⟨past, now, .between past now⟩ hshape rfl
  obtain ⟨hstop, hbrings, -⟩ := hpart hchanged
  obtain ⟨text, htext, hdrawn⟩ := Scene.drawn_of_subclasses hstop hbelow hf
  refine ⟨text, htext, Scene.not_removed_of_affected h, fun hstays => ?_⟩
  have hfound := Scene.affected_of_drawn h (hround (.file ⟨text⟩) (hbrings (.file _) hdrawn))
  refine hfound.resolve_right ?_
  rintro ⟨gone, hgone, he⟩
  exact hstays gone hgone he

/-! ## A cycle that is broken

Three classes extend one another in a circle.  One of them is compiled again with another
superclass: all three files are affected, its own among them. -/

namespace Circle

def names : NameTable :=
  NameTable.new.internAll ["java/lang/Object", "<init>", "p/A", "p/B", "p/C", "A.java", "B.java",
    "C.java"]

/-- A class of the example, with some superclass. -/
def info (name super : Symbol) : ClassInfo := .plain name (.ofFlags [.pub]) (.named super)

def past : Graph :=
  ((Graph.empty.record ⟨6⟩ (info ⟨3⟩ ⟨5⟩)).record ⟨7⟩ (info ⟨4⟩ ⟨3⟩)).record ⟨8⟩ (info ⟨5⟩ ⟨4⟩)

def now : Graph := Graph.empty.record ⟨6⟩ (info ⟨3⟩ ⟨1⟩)

def request : RoundRequest where
  removed := []
  files := [⟨"A.java"⟩]
  compiled := [⟨"A.java"⟩]
  accepts _ := true
  resolver := none
  waiting := .onlyArrived

def affected : PathSet := .ofList [⟨"A.java"⟩, ⟨"B.java"⟩, ⟨"C.java"⟩]

theorem below : past.SourcedBelow ⟨3⟩ ⟨5⟩ :=
  .head (b := ⟨4⟩) ⟨by decide, by decide⟩ (.single ⟨by decide, by decide⟩)

theorem circle_affected :
    (compareInOrder names past now .empty request [⟨6⟩]).outcome =
        .ok (.incremental affected) ∧
      (info ⟨3⟩ ⟨5⟩).Reshaped (info ⟨3⟩ ⟨1⟩) ∧ past.SourcedBelow ⟨3⟩ ⟨5⟩ ∧
      let s := Scene.of names past now request
      (s.sourcedWalk.run (View.downBound past) ⟨[⟨3⟩], [⟨3⟩], []⟩).pending = [] ∧
        ∀ d f, past.SourcedBelow ⟨3⟩ d → past.fileOf.get? d = some f →
          ∃ text, s.names.name f = .ok text ∧
            (affected.has (SourcePath.mk text).components = true ↔
              ∀ gone ∈ request.removed, gone.components ≠ (SourcePath.mk text).components) := by
  have houtcome : (compareInOrder names past now .empty request [⟨6⟩]).outcome =
    .ok (.incremental affected) := rfl
  have hshape : (info ⟨3⟩ ⟨5⟩).Reshaped (info ⟨3⟩ ⟨1⟩) := .superclass (by decide)
  have hpast : info ⟨3⟩ ⟨5⟩ ∈ past.classesIn.valuesOf ⟨6⟩ := IdSet.mem_toList.1 (by decide)
  have hnow : info ⟨3⟩ ⟨1⟩ ∈ now.classesIn.valuesOf ⟨6⟩ := IdSet.mem_toList.1 (by decide)
  exact ⟨houtcome, hshape, below, compareInOrder_reshaped houtcome (List.mem_singleton_self _)
    hpast hnow rfl hshape⟩

end Circle

end ClassImpact

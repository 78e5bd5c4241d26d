import Mathlib
import ClassImpact.Proofs.Committed
import ClassImpact.Proofs.Contents
import ClassImpact.Proofs.Recorded

/-!
# Rounds in which nothing changed

A file is often compiled again without need, and a new class may come with it that nobody has
asked for.  Such a round brings no event but the arrival of new classes: it affects nothing,
asks nothing, and its merge writes the new classes and what belongs to them.

Whether a class is new is decided by the list of its file.  A class that is listed there counts
as an earlier shape of itself even if no file is recorded for it any more.

## Main results

* `Graph.AddsOnly.event`: the events of a round in which nothing changed
* `Round.compareFully_addsOnly`: the answer of such a round, and what its merge leaves
-/

namespace ClassImpact

open Identified (ident)

/-! ## Rounds that only add classes -/

/-- What holds of the classes under each key holds of all classes that are listed. -/
theorem Table.forall_mem_valuesOf {t : SetTable ClassInfo} {P : Symbol → ClassInfo → Prop}
    (h : ∀ f ∈ t.keys, ∀ c ∈ (t.valuesOf f).toList, P f c) : ∀ f, ∀ c ∈ t.valuesOf f, P f c :=
  fun f c hc => h f (mem_keys.2 (has_of_mem_valuesOf hc)) c hc

namespace Graph

/-- No file is recorded for the class, and no user. -/
def Unknown (g : Graph) (n : Symbol) : Prop := g.fileOf.get? n = none ∧ g.dependantsOf n = []

instance (g : Graph) (n : Symbol) : Decidable (g.Unknown n) :=
  inferInstanceAs (Decidable (_ ∧ _))

/-- The round lists a class under a file that did not list it before. -/
def Brings (main round : Graph) (f : Symbol) (c : ClassInfo) : Prop :=
  c ∈ round.classesIn.valuesOf f ∧ (main.classesIn.valuesOf f).has c.name = false

/-- A round in which nothing changed but that unknown classes came. -/
structure AddsOnly (main round : Graph) : Prop where
  distinct : ∀ f, ∀ d ∈ main.classesIn.valuesOf f, d.DistinctMembers
  content : ∀ f, ∀ c ∈ round.classesIn.valuesOf f,
    (∃ d ∈ main.classesIn.valuesOf f, d.SameContent c) ∨
      main.Unknown c.name ∧ (main.classesIn.valuesOf f).has c.name = false
  kept : ∀ f, round.classesIn.has f = true →
    ∀ d ∈ main.classesIn.valuesOf f, (round.classesIn.valuesOf f).has d.name = true

variable {main round : Graph}

/-- The only events are those of new classes, which nobody knows. -/
theorem AddsOnly.event (h : main.AddsOnly round) {f : Symbol} (hf : round.classesIn.has f = true)
    {e : ClassEvent} (he : e ∈ ClassEvent.ofFile main round f) :
    ∃ c, e = .added c ∧ main.Brings round f c ∧ main.Unknown c.name := by
  cases e with
  | changed change =>
    obtain ⟨hpast, hnow, hname, hdiff, hne⟩ := ClassEvent.mem_ofFile_changed.1 he
    rcases h.content f change.now hnow with ⟨d, hd, hsame⟩ | ⟨-, hnew⟩
    · have hsamePast : d = change.past :=
        IdSet.eq_of_ident_eq hd hpast (hsame.name.trans hname.symm)
      subst hsamePast
      rw [hdiff, (ClassChange.isEmpty_between_iff hsame.name (h.distinct f _ hd)).2 hsame] at hne
      simp at hne
    · have hlisted : (main.classesIn.valuesOf f).has change.past.name = true :=
        IdSet.has_of_mem hpast
      rw [hname, hnew] at hlisted
      simp at hlisted
  | removed d =>
    obtain ⟨hd, hgone⟩ := ClassEvent.mem_ofFile_removed.1 he
    rw [h.kept f hf d hd] at hgone
    simp at hgone
  | added c =>
    obtain ⟨hc, hnew⟩ := ClassEvent.mem_ofFile_added.1 he
    refine ⟨c, rfl, ⟨hc, hnew⟩, ?_⟩
    rcases h.content f c hc with ⟨d, hd, hsame⟩ | ⟨hunknown, -⟩
    · have hlisted : (main.classesIn.valuesOf f).has d.name = true := IdSet.has_of_mem hd
      rw [hsame.name, hnew] at hlisted
      simp at hlisted
    · exact hunknown

/-- Each class of the round is brought by it, or repeats a class of its file. -/
theorem AddsOnly.brings_or_repeats (h : main.AddsOnly round) {f : Symbol} {c : ClassInfo}
    (hc : c ∈ round.classesIn.valuesOf f) :
    main.Brings round f c ∨ ∃ d ∈ main.classesIn.valuesOf f, d.SameContent c :=
  (h.content f c hc).symm.imp_left fun hnew => ⟨hc, hnew.2⟩

/-- Each class of a compiled file is repeated. -/
theorem AddsOnly.repeated (h : main.AddsOnly round) {f : Symbol} (hf : round.classesIn.has f = true)
    {d : ClassInfo} (hd : d ∈ main.classesIn.valuesOf f) :
    ∃ c ∈ round.classesIn.valuesOf f, d.SameContent c := by
  obtain ⟨c, hc, hname⟩ := IdSet.has_iff_mem.1 (h.kept f hf d hd)
  refine ⟨c, hc, ?_⟩
  rcases h.brings_or_repeats hc with ⟨-, hnew⟩ | ⟨d', hd', hsame⟩
  · have hlisted : (main.classesIn.valuesOf f).has d.name = true := IdSet.has_of_mem hd
    rw [← hname, ident_classInfo, hnew] at hlisted
    simp at hlisted
  · rwa [IdSet.eq_of_ident_eq hd hd' (hname.symm.trans hsame.name.symm)]

/-- Some event of the round has a property when a class that the round brings has it. -/
theorem AddsOnly.exists_event_iff (h : main.AddsOnly round) {P : ClassEvent → Prop} :
    (∃ f, round.classesIn.has f = true ∧ ∃ e ∈ ClassEvent.ofFile main round f, P e) ↔
      ∃ f c, main.Brings round f c ∧ P (.added c) := by
  constructor
  · rintro ⟨f, hf, e, he, hP⟩
    obtain ⟨c, rfl, hbrings, -⟩ := h.event hf he
    exact ⟨f, c, hbrings, hP⟩
  · rintro ⟨f, c, hbrings, hP⟩
    exact ⟨f, Table.has_of_mem_valuesOf hbrings.1, .added c,
      ClassEvent.mem_ofFile_added.2 hbrings, hP⟩

end Graph

/-! ## The answer -/

/-- Impacts that bring nothing about bring nothing about together. -/
theorem Impact.all_eq_none {l : List Impact} (h : ∀ a ∈ l, a = none) : all l = none :=
  all_induction (P := (· = none)) rfl (fun ha hb => by rw [ha, hb, none_append]) h

namespace Scene

variable {s : Scene}

/-- Nobody used the name of an unknown class. -/
theorem addedClass_of_unknown {c : ClassInfo} (h : s.main.Unknown c.name) :
    s.addedClass c = .none := by
  rw [addedClass, h.2]
  rfl

theorem impact_of_addsOnly (h : s.main.AddsOnly s.round) {files : List Symbol}
    (hfiles : ∀ f ∈ files, s.round.classesIn.has f = true) :
    s.impact [] (ClassEvent.ofFiles s.main s.round files) = .none := by
  have hevents : Impact.all ((ClassEvent.ofFiles s.main s.round files).map s.event) = .none := by
    refine Impact.all_eq_none fun a ha => ?_
    obtain ⟨e, he, rfl⟩ := List.mem_map.1 ha
    obtain ⟨f, hf, he⟩ := ClassEvent.mem_ofFiles.1 he
    obtain ⟨c, rfl, -, hunknown⟩ := h.event (hfiles f hf) he
    exact addedClass_of_unknown hunknown
  rw [impact, hevents]
  rfl

/-- Where nothing is brought about, nothing is affected. -/
theorem conclude_none (compiled : List SourcePath) (answer : ConstantRequest → ConstantAnswer) :
    s.conclude .none compiled [] answer = .ok (.incremental .empty) := rfl

end Scene

/-- A round that only adds classes affects nothing and asks nothing, in whatever order its files
are visited. -/
theorem compareInOrder_addsOnly (names : NameTable) (log : ChangeLog) {main round : Graph}
    {q : RoundRequest} {files : List Symbol} (h : main.AddsOnly round) (hremoved : q.removed = [])
    (hfiles : ∀ f ∈ files, round.classesIn.has f = true) :
    (compareInOrder names main round log q files).outcome = .ok (.incremental .empty) ∧
      (compareInOrder names main round log q files).requests = [] := by
  have himpact : (Scene.of names main round q).impact q.removed
      (ClassEvent.ofFiles main round files) = .none := by
    rw [hremoved]
    exact Scene.impact_of_addsOnly (s := Scene.of names main round q) h hfiles
  rw [compareInOrder]
  dsimp only
  rw [himpact, hremoved]
  exact ⟨Scene.conclude_none _ _, rfl⟩

/-! ## The log -/

namespace ChangeLog

/-- No class is noted with an empty set of gained or lost subclasses. -/
structure Populated (l : ChangeLog) : Prop where
  added : l.addedSupers.Populated
  removed : l.removedSupers.Populated

variable {main round : Graph} {l : ChangeLog}

theorem populated_empty : empty.Populated := ⟨Table.populated_empty, Table.populated_empty⟩

theorem Populated.gained (h : l.Populated) (c : Symbol) (supers : List Symbol) :
    (l.gained c supers).Populated :=
  ⟨List.foldlRecOn (motive := Table.Populated) _ _ h.added fun _ ht t _ => ht.addValue t c,
    h.removed⟩

theorem Populated.lost (h : l.Populated) (c : Symbol) (supers : List Symbol) :
    (l.lost c supers).Populated :=
  ⟨h.added,
    List.foldlRecOn (motive := Table.Populated) _ _ h.removed fun _ ht t _ => ht.addValue t c⟩

theorem Populated.reclassified (h : l.Populated) (round : Graph) (c : Symbol) :
    (l.reclassified round c).Populated := ⟨h.added, h.removed⟩

theorem Populated.note (h : l.Populated) (e : ClassEvent) : (l.note main round e).Populated := by
  cases e with
  | changed change =>
    have hclass := h.reclassified round change.past.name
    simp only [ChangeLog.note, noteChanged]
    split
    · exact (((hclass.lost _ _).gained _ _).lost _ _).gained _ _
    · exact (hclass.lost _ _).gained _ _
  | removed c => exact ⟨h.added, h.removed⟩
  | added c => exact (h.reclassified _ _).gained _ _

theorem Populated.noteAll (h : l.Populated) (events : List ClassEvent) :
    (l.noteAll main round events).Populated :=
  List.foldlRecOn (motive := Populated) _ _ h fun _ hl e _ => hl.note e

end ChangeLog

namespace Graph

variable {main round : Graph}

/-- Supertypes are noted for the classes that the round brings, and for no other one. -/
theorem AddsOnly.mem_addedSupers (h : main.AddsOnly round) {s t : Symbol} :
    s ∈ (noteRound main round .empty).addedSupers.valuesOf t ↔
      ∃ f c, main.Brings round f c ∧ c.name = s ∧ t ∈ c.supers := by
  rw [mem_addedSupers_noteRound, h.exists_event_iff]
  exact exists₂_congr fun f c => and_congr_right' and_comm

theorem AddsOnly.not_mem_removedSupers (h : main.AddsOnly round) {s t : Symbol} :
    s ∉ (noteRound main round .empty).removedSupers.valuesOf t := by
  rw [mem_removedSupers_noteRound, h.exists_event_iff]
  rintro ⟨f, c, -, hloses, -⟩
  exact hloses

theorem populated_noteRound : (noteRound main round .empty).Populated :=
  ChangeLog.populated_empty.noteAll _

/-- A class without a new subclass has no entry among the noted supertypes. -/
theorem AddsOnly.has_addedSupers (h : main.AddsOnly round) {t : Symbol}
    (ht : ∀ f c, main.Brings round f c → t ∉ c.supers) :
    (noteRound main round .empty).addedSupers.has t = false := by
  rw [← Bool.not_eq_true, populated_noteRound.added.has_iff]
  rintro ⟨s, hs⟩
  obtain ⟨f, c, hbrings, -, hsuper⟩ := h.mem_addedSupers.1 hs
  exact ht f c hbrings hsuper

theorem AddsOnly.has_removedSupers (h : main.AddsOnly round) (t : Symbol) :
    (noteRound main round .empty).removedSupers.has t = false := by
  rw [← Bool.not_eq_true, populated_noteRound.removed.has_iff]
  rintro ⟨s, hs⟩
  exact h.not_mem_removedSupers hs

theorem AddsOnly.mem_changedClasses (h : main.AddsOnly round) {n : Symbol} :
    n ∈ (noteRound main round .empty).changedClasses ↔
      ∃ f c, main.Brings round f c ∧ c.name = n := by
  rw [mem_changedClasses_noteRound, h.exists_event_iff]
  exact exists₂_congr fun f c => and_congr_right' (and_iff_right rfl)

theorem AddsOnly.mem_changedFiles (h : main.AddsOnly round) {f : Symbol} :
    f ∈ (noteRound main round .empty).changedFiles ↔
      ∃ g c, main.Brings round g c ∧ round.fileOf.get? c.name = some f := by
  rw [mem_changedFiles_noteRound, h.exists_event_iff]
  rfl

theorem AddsOnly.deletedClasses (h : main.AddsOnly round) :
    (noteRound main round .empty).deletedClasses = .empty := by
  apply IdSet.ext
  refine List.eq_nil_iff_forall_not_mem.2 fun c hc => ?_
  obtain ⟨f, hf, hlisted, hgone⟩ := of_mem_deletedClasses_noteRound hc
  rw [h.kept f hf c hlisted] at hgone
  simp at hgone

end Graph

/-! ## The merge -/

namespace Graph

/-- The graph `main'` is `main` with the classes that a round brings. -/
structure Gains (main round main' : Graph) : Prop where
  fileOf_brought : ∀ f c, main.Brings round f c →
    main'.fileOf.get? c.name = round.fileOf.get? c.name
  fileOf_kept : ∀ n, (∀ f c, main.Brings round f c → c.name ≠ n) →
    main'.fileOf.get? n = main.fileOf.get? n
  classesIn_brought : ∀ f g c, main.Brings round g c → round.fileOf.get? c.name = some f →
    main'.classesIn.get? f = round.classesIn.get? f
  classesIn_kept : ∀ f, (∀ g c, main.Brings round g c → round.fileOf.get? c.name ≠ some f) →
    main'.classesIn.get? f = main.classesIn.get? f
  listed : ∀ f, ∀ c ∈ main'.classesIn.valuesOf f,
    main.Brings round f c ∨ ∃ d ∈ main.classesIn.valuesOf f, d.SameContent c
  stillListed : ∀ f, ∀ d ∈ main.classesIn.valuesOf f,
    ∃ c ∈ main'.classesIn.valuesOf f, d.SameContent c
  subclasses : ∀ t s, s ∈ main'.subclasses.valuesOf t ↔ s ∈ main.subclasses.valuesOf t ∨
    ∃ f c, main.Brings round f c ∧ c.name = s ∧ t ∈ c.supers
  subclasses_kept : ∀ t, (∀ f c, main.Brings round f c → t ∉ c.supers) →
    main'.subclasses.get? t = main.subclasses.get? t

section

variable {names : NameTable} {main : Graph} {r : Round} (h : main.AddsOnly r.graph)
  (hlog : r.log = noteRound main r.graph .empty)

include h hlog

theorem AddsOnly.restates_iff (n : Symbol) :
    r.Restates n ↔ ∃ f c, main.Brings r.graph f c ∧ c.name = n := by
  rw [Round.Restates, hlog, h.deletedClasses, h.mem_changedClasses]
  simp

theorem AddsOnly.mem_loggedFiles (f : Symbol) :
    f ∈ r.log.changedFiles ↔ ∃ g c, main.Brings r.graph g c ∧
      r.graph.fileOf.get? c.name = some f := by
  rw [hlog, h.mem_changedFiles]

/-- No class is dropped. -/
theorem AddsOnly.not_drops (hremoved : r.removedFiles = []) (n : Symbol) :
    ¬ r.Drops names main n := by
  rintro (hn | ⟨-, f, hf, -⟩)
  · rw [hlog, h.deletedClasses] at hn
    simp at hn
  · rw [hremoved] at hf
    exact absurd hf List.not_mem_nil

/-- No class is parted from a supertype. -/
theorem AddsOnly.not_parted (hremoved : r.removedFiles = []) (t s : Symbol) :
    ¬ r.Parted names main t s := by
  rintro (hs | ⟨hf, -, -, -⟩ | ⟨hc, -, -⟩)
  · rw [hlog] at hs
    exact h.not_mem_removedSupers hs
  · rw [hremoved] at hf
    exact absurd hf List.not_mem_nil
  · rw [hlog, h.deletedClasses] at hc
    simp at hc

/-- A merge of a round that only adds classes writes what belongs to these. -/
theorem AddsOnly.gains_mergeRound (hfiled : r.graph.Filed) (hupdates : r.rebuild = false)
    (hremoved : r.removedFiles = []) : main.Gains r.graph (main.mergeRound names r) := by
  have hnofiles : Merge.knownFiles names r.removedFiles = [] := by rw [hremoved]; rfl
  have hrestates := h.restates_iff hlog
  have hnoted := h.mem_loggedFiles hlog
  have hdrops : ∀ n, ¬ r.Drops names main n := h.not_drops hlog hremoved
  have hparted : ∀ t s, ¬ r.Parted names main t s := h.not_parted hlog hremoved
  exact
    { fileOf_brought := by
        intro f c hbrings
        have hc : r.Restates c.name := (hrestates _).2 ⟨f, c, hbrings, rfl⟩
        apply Option.ext
        intro g
        rw [fileOf_mergeRound hupdates]
        simp [hc]
      fileOf_kept := by
        intro n hn
        have hno : ¬ r.Restates n := by
          rw [hrestates]
          rintro ⟨f, c, hbrings, hname⟩
          exact hn f c hbrings hname
        apply Option.ext
        intro g
        rw [fileOf_mergeRound hupdates]
        simp [hno, hdrops n]
      classesIn_brought := fun f g c hbrings hfile =>
        get?_mergeRound_of_noted hupdates ((hnoted f).2 ⟨g, c, hbrings, hfile⟩)
      classesIn_kept := by
        intro f hf
        have hno : f ∉ r.log.changedFiles := by
          rw [hnoted]
          rintro ⟨g, c, hbrings, hfile⟩
          exact hf g c hbrings hfile
        rw [get?_mergeRound_of_not_noted hupdates hno, hnofiles, if_neg List.not_mem_nil]
      listed := by
        intro f c hc
        by_cases hf : f ∈ r.log.changedFiles
        · rw [valuesOf_mergeRound_of_noted hupdates hf] at hc
          exact h.brings_or_repeats hc
        · rw [valuesOf_mergeRound_of_not_noted hupdates hf, hnofiles,
            if_neg List.not_mem_nil] at hc
          exact .inr ⟨c, hc, .refl c⟩
      stillListed := by
        intro f d hd
        by_cases hf : f ∈ r.log.changedFiles
        · rw [valuesOf_mergeRound_of_noted hupdates hf]
          obtain ⟨_, _, -, hfile⟩ := (hnoted f).1 hf
          exact h.repeated (hfiled _ _ hfile) hd
        · rw [valuesOf_mergeRound_of_not_noted hupdates hf, hnofiles, if_neg List.not_mem_nil]
          exact ⟨d, hd, .refl d⟩
      subclasses := by
        intro t s
        rw [mem_subclasses_mergeRound hupdates, hlog, h.mem_addedSupers]
        simp [hdrops t, hparted t s]
      subclasses_kept := by
        intro t ht
        refine get?_subclasses_mergeRound hupdates (by simp [hnofiles])
          (hlog ▸ h.deletedClasses) ?_ ?_
        · rw [hlog, h.has_addedSupers ht]
        · rw [hlog, h.has_removedSupers] }

end

end Graph

namespace Round

variable {names : NameTable} {main : Graph} {r : Round} {q : RoundRequest}

/-- **A round in which nothing changed affects nothing**: a round removes no file, and each of
its classes either has the content of the class that is listed in the same file so far, or is
listed there for the first time and has neither a file nor users; and no compiled file lacks a
class that it had.  Then the answer is that nothing is affected, whatever may be drawn in and
whoever answers, and no question is put.  The merge writes the new classes, the lists of the
files that they came with, and the links from their supertypes. -/
theorem compareFully_addsOnly (hr : Workspace.Reported r) (hremoved : q.removed = [])
    (h : main.AddsOnly (r.prepare names q.removed q.files).2.graph) :
    let x := r.compareFully names main q
    x.2.2.outcome = .ok (.incremental .empty) ∧ x.2.2.requests = [] ∧
      ∃ main', main.integrate x.1 x.2.1 = .ok (x.1, main') ∧ main.Gains x.2.1.graph main' := by
  intro x
  obtain ⟨houtcome, hrequests⟩ := compareInOrder_addsOnly
    (r.prepare names q.removed q.files).1 (r.prepare names q.removed q.files).2.log h hremoved
    fun f hf => Table.mem_keys.1 hf
  have hbounded : r.Bounded names main q.removed q.files x.1 x.2.1 :=
    .fully q rfl rfl rfl houtcome
  refine ⟨houtcome, hrequests, _, hbounded.integrate, ?_⟩
  refine Graph.AddsOnly.gains_mergeRound h ?_ ?_ hr.rebuild hremoved
  · rw [hbounded.eq.2]
    exact congrArg (noteRound main _) hr.log
  · exact (hr.filed.enterNotes _ _).addFiles _ _

end Round

/-! ## A class that its file still lists

A class moves to another file, and is deleted there.  Its first file, which was not compiled
again, still lists it.  When the class comes back in this file without a constant that it had,
it counts as changed, although no file and no user of it is recorded. -/

namespace StaleList

def names : NameTable :=
  NameTable.new.internAll ["java/lang/Object", "A.java", "B.java", "p/X", "p/Y", "K", "L"]

/-- A class of the example. -/
def info (name : Symbol) : ClassInfo := .plain name (.ofFlags [.pub]) (.named ⟨1⟩)

/-- A constant that a class of the example declares. -/
def constant (name : Symbol) : FieldInfo :=
  ⟨name, .ofFlags [.pub, .static, .final], .primitive .int, none, some (.int 1)⟩

/-- The class with its constants, in some order. -/
def withConstants (fields : List FieldInfo) : ClassInfo := { info ⟨4⟩ with fields := fields }

/-- What the class moves to another file and is deleted there by. -/
def actions : List Action :=
  [.associate ⟨"A.java", "p/X.class", some (withConstants [constant ⟨6⟩])⟩,
    .round [.compiled ⟨"B.java", "p/X.class", some (withConstants [constant ⟨6⟩])⟩]
      (.easily [] [⟨"B.java"⟩]),
    .round [] (.easily [] [⟨"B.java"⟩])]

/-- The workspace in which the class is listed but has no file. -/
def stale : Workspace := (Workspace.fresh names none).run actions

/-- A workspace in which the class stands in its file. -/
def settled : Workspace :=
  { Workspace.fresh names none with
    main := Graph.empty.record ⟨2⟩ (withConstants [constant ⟨6⟩, constant ⟨7⟩]) }

def request : RoundRequest where
  removed := []
  files := [⟨"A.java"⟩, ⟨"B.java"⟩]
  compiled := [⟨"A.java"⟩, ⟨"B.java"⟩]
  accepts _ := true
  resolver := none
  waiting := .onlyArrived

/-- The round of some reports, and the names after them. -/
def roundOf (w : Workspace) (reports : List Report) : Round × NameTable :=
  ((w.collect reports).1.round, (w.collect reports).2.names)

/-- The class as it was, and a new one that extends it. -/
def again : List Report :=
  [.compiled ⟨"A.java", "p/X.class", some (withConstants [constant ⟨7⟩, constant ⟨6⟩])⟩,
    .compiled ⟨"B.java", "p/Y.class", some { info ⟨5⟩ with superclass := .named ⟨4⟩ }⟩]

/-- The class without its constant. -/
def bare : List Report := [.compiled ⟨"A.java", "p/X.class", some (info ⟨4⟩)⟩]

/-- The graph of a round when it is compared. -/
def graphOf (x : Round × NameTable) : Graph := (x.1.prepare x.2 [] request.files).2.graph

theorem keys_settled : settled.main.classesIn.keys = [⟨2⟩] := rfl

theorem keys_again : (graphOf (roundOf settled again)).classesIn.keys = [⟨2⟩, ⟨3⟩] := rfl

theorem settled_addsOnly : settled.main.AddsOnly (graphOf (roundOf settled again)) where
  distinct := by
    apply Table.forall_mem_valuesOf
    rw [keys_settled]
    decide
  content := by
    apply Table.forall_mem_valuesOf
    rw [keys_again]
    intro f hf
    simp only [List.mem_cons, List.not_mem_nil, or_false] at hf
    rcases hf with rfl | rfl
    · intro c hc
      obtain rfl := List.mem_singleton.1 hc
      refine .inl ⟨withConstants [constant ⟨6⟩, constant ⟨7⟩], List.mem_singleton.2 rfl, ?_⟩
      exact
        { name := rfl
          access := rfl
          signature := rfl
          superclass := rfl
          interfaces := fun _ => Iff.rfl
          fields := fun _ => (List.Perm.swap _ _ _).mem_iff
          methods :=
            ⟨fun _ hm => absurd hm List.not_mem_nil, fun _ hm => absurd hm List.not_mem_nil⟩
          usages := fun _ => Iff.rfl
          retention := rfl
          targets := rfl }
    · intro c hc
      obtain rfl := List.mem_singleton.1 hc
      exact .inr (by decide)
  kept := by
    have hkept : ∀ f, ∀ d ∈ settled.main.classesIn.valuesOf f,
        ((graphOf (roundOf settled again)).classesIn.valuesOf f).has d.name = true := by
      apply Table.forall_mem_valuesOf
      rw [keys_settled]
      decide
    exact fun f _ => hkept f

/-- A round that repeats the class and brings another one affects nothing. -/
theorem nothing_affected :
    let x := (roundOf settled again).1.compareFully (roundOf settled again).2 settled.main request
    x.2.2.outcome = .ok (.incremental .empty) ∧ x.2.2.requests = [] ∧
      ∃ main', settled.main.integrate x.1 x.2.1 = .ok (x.1, main') ∧
        settled.main.Gains x.2.1.graph main' :=
  Round.compareFully_addsOnly (Workspace.reported_collect settled again) rfl settled_addsOnly

/-- A class without a file and without users, which its file still lists, can make everything be
rebuilt. -/
theorem rebuilt_for_stale :
    (∀ f, ∀ d ∈ stale.main.classesIn.valuesOf f, d.DistinctMembers) ∧
      (∀ f, ∀ c ∈ (graphOf (roundOf stale bare)).classesIn.valuesOf f,
        stale.main.Unknown c.name) ∧
      (∀ f, (graphOf (roundOf stale bare)).classesIn.has f = true →
        ∀ d ∈ stale.main.classesIn.valuesOf f,
          ((graphOf (roundOf stale bare)).classesIn.valuesOf f).has d.name = true) ∧
      ((roundOf stale bare).1.compareFully (roundOf stale bare).2 stale.main
        request).2.2.outcome = .ok .fullRebuild := by
  have hmain : stale.main.classesIn.keys = [⟨2⟩, ⟨3⟩] := rfl
  have hround : (graphOf (roundOf stale bare)).classesIn.keys = [⟨2⟩, ⟨3⟩] := rfl
  refine ⟨?_, ?_, ?_, rfl⟩
  · apply Table.forall_mem_valuesOf
    rw [hmain]
    decide
  · apply Table.forall_mem_valuesOf
    rw [hround]
    decide
  · have hkept : ∀ f, ∀ d ∈ stale.main.classesIn.valuesOf f,
        ((graphOf (roundOf stale bare)).classesIn.valuesOf f).has d.name = true := by
      apply Table.forall_mem_valuesOf
      rw [hmain]
      decide
    exact fun f _ => hkept f

end StaleList

end ClassImpact

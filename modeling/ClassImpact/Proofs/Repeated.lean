import Mathlib
import ClassImpact.Proofs.Reached
import ClassImpact.Proofs.Supertypes

/-!
# The same round twice

A round that is compared and merged a second time finds what it wrote the first time.  Its
classes are those of the graph, file by file, so that nothing is added, removed or moved, and
no supertype changes.

A class may still be compared anew.  What the graph holds of it has the imports that were
reported after the comparison, and the round has them again only after its own comparison.
The merge then takes back the edges of the class that the round does not bring itself: those
which an earlier round made when the class they lead from stood in another file.

## Main results

* `ClassChange.isEmpty_self`: a class that stays as it was is no news to itself
* `Graph.repeated_iff`: when a repetition leaves all tables as they are
-/

namespace ClassImpact

open Identified (ident)

/-! ## Classes compared with themselves -/

namespace Patch

variable {α κ δ : Type} [Identified α κ] [DecidableEq κ] {compare : α → α → Option δ}

/-- Where two values that a third one equals are equal to one another, a list that equals some
list equals itself, even if it repeats identities. -/
theorem isEmpty_between_self {past now : List α}
    (hcompare : ∀ p a b, compare p a = none → compare p b = none → compare a b = none)
    (h : (between compare past now).isEmpty = true) :
    (between compare now now).isEmpty = true := by
  obtain ⟨hnow, -⟩ := isEmpty_between_iff.1 h
  have hself : ∀ a ∈ now, (partner? now a).isSome = true := fun a ha =>
    isSome_partner?.2 ⟨a, ha, rfl⟩
  refine isEmpty_between_iff.2 ⟨fun a ha => ?_, hself⟩
  obtain ⟨b, hb⟩ := Option.isSome_iff_exists.1 (hself a ha)
  obtain ⟨hmem, hident⟩ := partner?_eq_some hb
  obtain ⟨p, hp, hpa⟩ := hnow a ha
  obtain ⟨q, hq, hqb⟩ := hnow b hmem
  have hpq : partner? past b = partner? past a := by simp only [partner?, hident]
  rw [hpq, hp, Option.some.injEq] at hq
  subst hq
  exact ⟨b, hb, hcompare p b a hqb hpa⟩

end Patch

theorem FieldInfo.isEmpty_revision_iff {past now : FieldInfo} :
    (past.revision now).isEmpty = true ↔
      past.access = now.access ∧ past.type = now.type ∧ past.value = now.value ∧
        past.signature = now.signature := by
  simp [revision, Revision.isEmpty, Revision.access, Revision.ofAccess, and_assoc]

theorem MethodChange.isEmpty_between_iff {past now : MethodInfo} :
    (between past now).isEmpty = true ↔
      (past.access = now.access ∧ past.returns = now.returns ∧ past.default = now.default ∧
        past.signature = now.signature) ∧ ∀ r, r ∈ past.throws ↔ r ∈ now.throws := by
  simp only [between, isEmpty, Bool.and_eq_true, isEmpty_ofMembers_iff]
  simp [MethodInfo.revision, Revision.isEmpty, Revision.access, Revision.ofAccess, and_assoc]

theorem isEmpty_fieldPatch_self {past now : List FieldInfo}
    (h : (fieldPatch past now).isEmpty = true) : (fieldPatch now now).isEmpty = true := by
  refine Patch.isEmpty_between_self (fun p a b ha hb => ?_) h
  simp only [ite_eq_left_iff, reduceCtorEq, imp_false, not_not,
    FieldInfo.isEmpty_revision_iff] at ha hb ⊢
  obtain ⟨h₁, h₂, h₃, h₄⟩ := ha
  obtain ⟨k₁, k₂, k₃, k₄⟩ := hb
  exact ⟨h₁ ▸ k₁, h₂ ▸ k₂, h₃ ▸ k₃, h₄ ▸ k₄⟩

theorem isEmpty_methodPatch_self {past now : List MethodInfo}
    (h : (methodPatch past now).isEmpty = true) : (methodPatch now now).isEmpty = true := by
  refine Patch.isEmpty_between_self (fun p a b ha hb => ?_) h
  simp only [ite_eq_left_iff, reduceCtorEq, imp_false, not_not,
    MethodChange.isEmpty_between_iff] at ha hb ⊢
  obtain ⟨⟨h₁, h₂, h₃, h₄⟩, hthrows⟩ := ha
  obtain ⟨⟨k₁, k₂, k₃, k₄⟩, kthrows⟩ := hb
  exact ⟨⟨h₁ ▸ k₁, h₂ ▸ k₂, h₃ ▸ k₃, h₄ ▸ k₄⟩, fun r => (hthrows r).symm.trans (kthrows r)⟩

/-- **A class that stays as it was is no news to itself.** -/
theorem ClassChange.isEmpty_self {past now : ClassInfo}
    (h : (between past now).isEmpty = true) : (between now now).isEmpty = true := by
  simp only [isEmpty, between, Bool.and_eq_true] at h ⊢
  obtain ⟨⟨⟨⟨⟨-, -⟩, hfields⟩, hmethods⟩, -⟩, -⟩ := h
  have husages : now.usages.sameValues now.usages = true := by
    simp [IdSet.sameValues]
  refine ⟨⟨⟨⟨⟨?_, ?_⟩, ?_⟩, ?_⟩, ?_⟩, ?_⟩
  · simp [Revision.isEmpty, Revision.access, Revision.ofAccess, husages]
  · exact Patch.isEmpty_ofMembers_self _
  · exact isEmpty_fieldPatch_self hfields
  · exact isEmpty_methodPatch_self hmethods
  · exact Patch.isEmpty_ofMembers_self _
  · simp

/-! ## Merges that take nothing away -/

namespace Merge

variable {round : Graph} {m : Merge} {l : List Symbol}

/-- Files without classes leave nothing behind but their entries. -/
theorem purgeFiles_of_no_class (h : ∀ f ∈ l, ∀ c, c ∉ m.main.classesIn.valuesOf f) :
    (l.foldl (purgeFile round) m).main.subclasses = m.main.subclasses ∧
      (l.foldl (purgeFile round) m).main.dependants = m.main.dependants ∧
      (l.foldl (purgeFile round) m).log = m.log := by
  induction l generalizing m with
  | nil => exact ⟨rfl, rfl, rfl⟩
  | cons f l ih =>
    obtain ⟨hf, hl⟩ := List.forall_mem_cons.1 h
    have hstep : purgeFile round m f =
        { m with main := { m.main with classesIn := m.main.classesIn.erase f } } := by
      have hnil : (m.main.classesIn.valuesOf f).toList = [] := List.eq_nil_iff_forall_not_mem.2 hf
      simp [purgeFile, hnil]
    rw [List.foldl_cons, hstep]
    refine ih fun g hg c hc => hl g hg c ?_
    rw [Table.valuesOf_erase] at hc
    split at hc
    · simp at hc
    · exact hc

/-- A merge of dependants that leaves the users of a class as they are leaves its key. -/
theorem has_mergeDependantsOf {trash t : SetTable Symbol} {c o : Symbol}
    (h : ∀ d, d ∈ (mergeDependantsOf round trash t c).valuesOf o ↔ d ∈ t.valuesOf o) :
    (mergeDependantsOf round trash t c).has o = t.has o := by
  by_cases hc : c = o
  · subst hc
    by_cases hold : ∃ d, d ∈ t.valuesOf c
    · -- the class has users before and after
      obtain ⟨d, hd⟩ := hold
      rw [Table.has_of_mem_valuesOf hd, Table.has_of_mem_valuesOf ((h d).2 hd)]
    · -- it has none, so that there is nothing to take out or put in
      have hnone : ∀ d, d ∉ t.valuesOf c := fun d hd => hold ⟨d, hd⟩
      have hcurrent : (t.valuesOf c).isEmpty = true := IdSet.isEmpty_iff.2 hnone
      have hnow : (round.dependants.valuesOf c).isEmpty = true := by
        refine IdSet.isEmpty_iff.2 fun d hd => hnone d ((h d).1 ?_)
        exact (mem_mergeDependantsOf_self c d).2 (.inr hd)
      simp [mergeDependantsOf, hcurrent, hnow]
  · simp only [mergeDependantsOf, Table.has_eq_isSome, Table.addValues]
    split
    · split <;> simp [hc]
    · split <;> simp [hc]

/-- Dependants that lose no user which the round does not have, and gain none, stay with
their key. -/
theorem kept_foldl_mergeDependantsOf {trash t : SetTable Symbol} {o : Symbol}
    (hlost : ∀ d ∈ t.valuesOf o, d ∈ trash.valuesOf o → d ∈ round.dependants.valuesOf o)
    (hgained : ∀ d ∈ round.dependants.valuesOf o, d ∈ t.valuesOf o) :
    (l.foldl (mergeDependantsOf round trash) t).has o = t.has o ∧
      ∀ d, d ∈ (l.foldl (mergeDependantsOf round trash) t).valuesOf o ↔ d ∈ t.valuesOf o := by
  have hsame : ∀ d, d ∈ t.valuesOf o ∧ d ∉ trash.valuesOf o ∨ d ∈ round.dependants.valuesOf o ↔
      d ∈ t.valuesOf o := by
    intro d
    have h₁ := hlost d
    have h₂ := hgained d
    tauto
  have hmem : ∀ l : List Symbol, ∀ d,
      d ∈ (l.foldl (mergeDependantsOf round trash) t).valuesOf o ↔ d ∈ t.valuesOf o := by
    intro l d
    rw [exchanges_mergeDependantsOf.mem_foldl]
    split
    · exact hsame d
    · rfl
  refine ⟨?_, hmem l⟩
  induction l using List.reverseRecOn with
  | nil => rfl
  | append_singleton l c ih =>
    rw [List.foldl_concat, has_mergeDependantsOf, ih]
    intro d
    rw [← List.foldl_concat (f := mergeDependantsOf round trash), hmem, hmem]

end Merge

namespace Graph

variable {names : NameTable} {main : Graph} {r : Round}

/-- A round that deletes nothing, and whose removed files list nothing, purges nothing. -/
theorem purged_of_no_loss
    (hremoved : ∀ f ∈ Merge.knownFiles names r.removedFiles, ∀ c, c ∉ main.classesIn.valuesOf f)
    (hdeleted : r.log.deletedClasses = .empty) :
    (Merge.purged names main r).main.subclasses = main.subclasses ∧
      (Merge.purged names main r).main.dependants = main.dependants ∧
      (Merge.purged names main r).log = Merge.finalLog r.log := by
  have hnil : (Merge.finalLog r.log).deletedClasses.toList = [] := congrArg IdSet.toList hdeleted
  rw [Merge.purged, hnil]
  exact Merge.purgeFiles_of_no_class hremoved

/-- A class of which the round notes no new and no lost subclass keeps its entry, where nothing
is purged. -/
theorem get?_subclasses_mergeRound (h : r.rebuild = false)
    (hremoved : ∀ f ∈ Merge.knownFiles names r.removedFiles, ∀ c, c ∉ main.classesIn.valuesOf f)
    (hdeleted : r.log.deletedClasses = .empty) {t : Symbol}
    (hgained : r.log.addedSupers.has t = false) (hlost : r.log.removedSupers.has t = false) :
    (main.mergeRound names r).subclasses.get? t = main.subclasses.get? t := by
  obtain ⟨hsubclasses, -, hlog⟩ := purged_of_no_loss hremoved hdeleted
  rw [Merge.mergeRound_eq names main r h]
  show (Merge.written names main r).main.subclasses.get? t = _
  rw [Merge.subclasses_written, ← hsubclasses]
  refine Merge.foldl_frame _ (fun table : SetTable Symbol => table.get? t) (fun table c hc => ?_) _
  have hne : c ≠ t := by
    rintro rfl
    rw [hlog, Merge.mem_keysOf] at hc
    simp [Merge.finalLog, hgained, hlost] at hc
  simp only [Merge.mergeSubclassesOf]
  split <;> simp [hne]

/-- A round that purges nothing and notes no supertypes leaves the subclasses as they are. -/
theorem subclasses_mergeRound_eq (h : r.rebuild = false)
    (hremoved : ∀ f ∈ Merge.knownFiles names r.removedFiles, ∀ c, c ∉ main.classesIn.valuesOf f)
    (hdeleted : r.log.deletedClasses = .empty) (hgained : r.log.addedSupers = .empty)
    (hlost : r.log.removedSupers = .empty) :
    (main.mergeRound names r).subclasses = main.subclasses :=
  Table.eq_of_get?_eq fun _ =>
    get?_subclasses_mergeRound h hremoved hdeleted (by rw [hgained]; rfl) (by rw [hlost]; rfl)

/-- A round that purges nothing leaves the dependants of a class, and their key, as they are
when it takes back no edge that it does not bring, and brings none that is not there. -/
theorem dependants_mergeRound_eq (h : r.rebuild = false)
    (hremoved : ∀ f ∈ Merge.knownFiles names r.removedFiles, ∀ c, c ∉ main.classesIn.valuesOf f)
    (hdeleted : r.log.deletedClasses = .empty) {o : Symbol}
    (hlost : ∀ d ∈ main.dependants.valuesOf o, r.Former names main o d →
      d ∈ r.graph.dependants.valuesOf o)
    (hgained : ∀ d ∈ r.graph.dependants.valuesOf o, d ∈ main.dependants.valuesOf o) :
    (main.mergeRound names r).dependants.has o = main.dependants.has o ∧
      ∀ d, d ∈ (main.mergeRound names r).dependants.valuesOf o ↔
        d ∈ main.dependants.valuesOf o := by
  obtain ⟨-, hdependants, -⟩ := purged_of_no_loss hremoved hdeleted
  have hwritten : (Merge.written names main r).main.dependants = main.dependants := by
    rw [Merge.dependants_written, hdependants]
  rw [Merge.mergeRound_eq names main r h]
  show (List.foldl _ _ _ : SetTable Symbol).has o = _ ∧
    ∀ d, d ∈ (List.foldl _ _ _ : SetTable Symbol).valuesOf o ↔ _
  rw [hwritten]
  refine Merge.kept_foldl_mergeDependantsOf (fun d hd htrash => hlost d hd ?_) hgained
  exact (Merge.mem_trash_written names main r).1 htrash

end Graph

/-! ## Logs that note no place -/

namespace ChangeLog

variable {main round : Graph} {l : ChangeLog}

theorem note_samePlace {change : Changed ClassInfo ClassChange}
    (hdiff : change.diff = .between change.past change.now)
    (hplace : change.past.SamePlace change.now) :
    l.note main round (.changed change) = l.reclassified round change.past.name := by
  have hsuper : change.diff.base.superclass = false := by
    simp [hdiff, ClassChange.between, hplace.superclass]
  have hremoved : change.diff.interfaces.removed = [] := by
    rw [hdiff]
    refine List.eq_nil_iff_forall_not_mem.2 fun r hr => ?_
    obtain ⟨hpast, hnow⟩ := mem_ofMembers_removed.1 hr
    exact hnow ((hplace.interfaces r).1 hpast)
  have hadded : change.diff.interfaces.added = [] := by
    rw [hdiff]
    refine List.eq_nil_iff_forall_not_mem.2 fun r hr => ?_
    obtain ⟨hnow, hpast⟩ := mem_ofMembers_added.1 hr
    exact hpast ((hplace.interfaces r).2 hnow)
  simp [note, noteChanged, hsuper, hremoved, hadded, lost, gained]
  rfl

/-- Changes that leave every class in its place delete none, and note no supertypes. -/
theorem noteAll_samePlace {events : List ClassEvent}
    (h : ∀ e ∈ events, ∃ change, e = .changed change ∧
      change.diff = .between change.past change.now ∧ change.past.SamePlace change.now) :
    (l.noteAll main round events).deletedClasses = l.deletedClasses ∧
      (l.noteAll main round events).addedSupers = l.addedSupers ∧
      (l.noteAll main round events).removedSupers = l.removedSupers := by
  induction events generalizing l with
  | nil => exact ⟨rfl, rfl, rfl⟩
  | cons e events ih =>
    obtain ⟨he, hevents⟩ := List.forall_mem_cons.1 h
    obtain ⟨change, rfl, hdiff, hplace⟩ := he
    rw [noteAll, List.foldl_cons, note_samePlace hdiff hplace, ← noteAll]
    exact ih hevents

end ChangeLog

/-! ## The second round -/

/-- A class that is news to itself is noted, whatever it is compared with. -/
theorem Graph.mem_changedClasses_of_news {main round : Graph} {f : Symbol} {c : ClassInfo}
    (hc : c ∈ round.classesIn.valuesOf f) (hnews : (ClassChange.between c c).isEmpty = false) :
    c.name ∈ (noteRound main round .empty).changedClasses := by
  refine mem_changedClasses_noteRound.2 ⟨f, Table.has_of_mem_valuesOf hc, ?_⟩
  have hcases : (main.classesIn.valuesOf f).has c.name = true ∨
      ∃ e ∈ ClassEvent.ofFile main round f, e.restates = true ∧ e.className = c.name :=
    ClassEvent.has_or_restated hc
  rcases hcases with hold | hevent
  · obtain ⟨old, hold, hname⟩ := IdSet.has_iff_mem.1 hold
    refine ⟨.changed ⟨old, c, .between old c⟩, ?_, rfl, hname⟩
    refine ClassEvent.mem_ofFile_changed.2 ⟨hold, hc, hname, rfl, ?_⟩
    rw [← Bool.not_eq_true]
    intro hempty
    rw [ClassChange.isEmpty_self hempty] at hnews
    simp at hnews
  · exact hevent

/-- A build after which a project is repeated changes it no more. -/
theorem Project.after_after (p : Project) (t : NameTable) (b : Build) :
    (p.after t b).after t b = p.after t b := by
  funext f
  simp only [after]
  split
  · rfl
  · split <;> rfl

theorem Graph.Holds.placed {g : Graph} {p : Project} {compiled : Symbol → Prop}
    (h : g.Holds p compiled) : g.Placed := by
  intro f c hc
  exact (h.fileOf _ _).2 ((h.classesIn f _).1 (IdSet.has_of_mem hc))

/-- The file that an event of a compiled file notes is that file. -/
theorem Round.Turns.file?_of_event {names : NameTable} {main : Graph} {r : Round} {p p' : Project}
    (h : r.Turns names main p p') {f : Symbol} {e : ClassEvent}
    (he : e ∈ ClassEvent.ofFile main r.graph f) : e.file? main r.graph = some f := by
  cases e with
  | changed change =>
    obtain ⟨-, hnow, hname, -⟩ := ClassEvent.mem_ofFile_changed.1 he
    show r.graph.fileOf.get? change.past.name = some f
    rw [hname]
    exact h.holds.placed f _ hnow
  | removed c =>
    have hc := (ClassEvent.mem_ofFile_removed.1 he).1
    exact (h.records.fileOf _ _).2 ((h.records.classesIn _ _).1 (IdSet.has_of_mem hc))
  | added c => exact h.holds.placed f c (ClassEvent.mem_ofFile_added.1 he).1

/-- A compiled file is noted as changed when there is news about one of its classes. -/
theorem Round.Turns.changedFile_iff {names : NameTable} {main : Graph} {r : Round} {p p' : Project}
    (h : r.Turns names main p p') {f : Symbol} :
    f ∈ r.log.changedFiles ↔
      r.graph.classesIn.has f = true ∧ ∃ e, e ∈ ClassEvent.ofFile main r.graph f := by
  rw [h.noted, mem_changedFiles_noteRound]
  constructor
  · intro hf
    obtain ⟨g, hg, e, he, hfile⟩ := hf
    obtain rfl : g = f := Option.some.inj ((h.file?_of_event he).symm.trans hfile)
    exact ⟨hg, e, he⟩
  · intro hf
    obtain ⟨hf, e, he⟩ := hf
    exact ⟨f, hf, e, he, h.file?_of_event he⟩

namespace Build

/-- A graph after a round of a build, ready for a second one. -/
structure Repeats (t : NameTable) (main main₁ : Graph) (p : Project) (b : Build)
    (late : List ImportNote) : Prop where
  first : (b.comparedRound t main).Turns t main p (p.after t b)
  again : (b.comparedRound t main₁).Turns t main₁ (p.after t b) (p.after t b)
  merged : main₁ = main.mergeRound t (b.mergedRound t main late)

namespace Repeats

variable {t : NameTable} {main main₁ : Graph} {p : Project} {b : Build} {late : List ImportNote}
  {f : Symbol}

theorem of_step {names : NameTable} (hrecords : main.Records p) (hfits : b.Fits t p)
    (hstep : b.Step late names main t main₁) : Repeats t main main₁ p b late := by
  have hfirst := turns_compared hrecords hfits.disjoint hfits.oneFile
  have hrecords₁ : main₁.Records (p.after t b) := by
    rw [hstep.eq.2]
    exact records_mergedRound hfirst
  have hagain := turns_compared hrecords₁ hfits.disjoint
    ((Project.after_after p t b).symm ▸ hfits.oneFile)
  rw [Project.after_after] at hagain
  exact ⟨hfirst, hagain, hstep.eq.2⟩

/-- A file that was noted in the first round lists what was merged. -/
theorem valuesOf_of_noted (h : Repeats t main main₁ p b late)
    (hf : f ∈ (b.comparedRound t main).log.changedFiles) :
    main₁.classesIn.valuesOf f = (b.lateGraph t late).classesIn.valuesOf f := by
  have hupdates : (b.mergedRound t main late).rebuild = false := rfl
  have hnoted : f ∈ (b.mergedRound t main late).log.changedFiles := hf
  rw [h.merged, Graph.valuesOf_mergeRound_of_noted hupdates hnoted]
  rfl

/-- A compiled file that was not noted lists what it listed before. -/
theorem valuesOf_of_not_noted (h : Repeats t main main₁ p b late)
    (hcompiled : (b.graph t).classesIn.has f = true)
    (hf : f ∉ (b.comparedRound t main).log.changedFiles) :
    main₁.classesIn.valuesOf f = main.classesIn.valuesOf f := by
  have hupdates : (b.mergedRound t main late).rebuild = false := rfl
  have hnoted : f ∉ (b.mergedRound t main late).log.changedFiles := hf
  have hstays : f ∉ Merge.knownFiles t (b.mergedRound t main late).removedFiles := by
    intro hk
    have hnot := h.first.disjoint f hk
    rw [graph_comparedRound, hcompiled] at hnot
    simp at hnot
  rw [h.merged, Graph.valuesOf_mergeRound_of_not_noted hupdates hnoted, if_neg hstays]

/-- A descriptor that was merged and the one that is compared are those of one class, but for
the imports that came late. -/
theorem withMentions_of_mem (h : Repeats t main main₁ p b late) {past now : ClassInfo}
    (hpast : past ∈ (b.lateGraph t late).classesIn.valuesOf f)
    (hnow : now ∈ (b.graph t).classesIn.valuesOf f) (hname : past.name = now.name) :
    past = now.withMentions (late.flatMap (readNote t)) := by
  obtain ⟨d, hd, rfl⟩ := (Graph.mem_classesIn_enterMentions _ h.first.holds.placed).1 hpast
  rw [ClassInfo.name_withMentions] at hname
  rw [IdSet.eq_of_ident_eq hd hnow hname]

/-- **The events of a repeated round**: each is about a class of a file that the first round
noted, as that round merged it, and the class is where it was. -/
theorem of_event (h : Repeats t main main₁ p b late)
    (hcompiled : (b.graph t).classesIn.has f = true) {e : ClassEvent}
    (he : e ∈ ClassEvent.ofFile main₁ (b.graph t) f) :
    f ∈ (b.comparedRound t main).log.changedFiles ∧
      ∃ change, e = .changed change ∧ change.diff = .between change.past change.now ∧
        change.past.SamePlace change.now := by
  have hnoted : f ∈ (b.comparedRound t main).log.changedFiles := by
    by_contra hf
    have hsame : ClassEvent.ofFile main₁ (b.graph t) f = ClassEvent.ofFile main (b.graph t) f := by
      rw [ClassEvent.ofFile_eq, ClassEvent.ofFile_eq, h.valuesOf_of_not_noted hcompiled hf]
    rw [hsame] at he
    exact hf (h.first.changedFile_iff.2 ⟨hcompiled, e, he⟩)
  have hvalues := h.valuesOf_of_noted hnoted
  refine ⟨hnoted, ?_⟩
  cases e with
  | changed change =>
    obtain ⟨hpast, hnow, hname, hdiff, -⟩ := ClassEvent.mem_ofFile_changed.1 he
    rw [hvalues] at hpast
    refine ⟨change, rfl, hdiff, ?_⟩
    rw [h.withMentions_of_mem hpast hnow hname]
    exact ClassInfo.samePlace_withMentions _ _
  | removed c =>
    obtain ⟨hc, hno⟩ := ClassEvent.mem_ofFile_removed.1 he
    rw [hvalues] at hc
    have hhas : ((b.graph t).classesIn.valuesOf f).has c.name = true :=
      has_classesIn_lateGraph.1 (IdSet.has_of_mem hc)
    rw [hhas] at hno
    simp at hno
  | added c =>
    obtain ⟨hc, hno⟩ := ClassEvent.mem_ofFile_added.1 he
    have hhas : ((b.lateGraph t late).classesIn.valuesOf f).has c.name = true :=
      has_classesIn_lateGraph.2 (IdSet.has_of_mem hc)
    rw [hvalues, hhas] at hno
    simp at hno

/-- The second round deletes nothing, and notes no supertypes. -/
theorem log_again (h : Repeats t main main₁ p b late) :
    (b.comparedRound t main₁).log.deletedClasses = .empty ∧
      (b.comparedRound t main₁).log.addedSupers = .empty ∧
      (b.comparedRound t main₁).log.removedSupers = .empty := by
  refine ChangeLog.noteAll_samePlace fun e he => ?_
  obtain ⟨f, hcompiled, he⟩ := mem_events_iff.1 he
  exact (h.of_event hcompiled he).2

/-- The second round notes files that the first one noted. -/
theorem noted_of_noted_again (h : Repeats t main main₁ p b late)
    (hf : f ∈ (b.comparedRound t main₁).log.changedFiles) :
    f ∈ (b.comparedRound t main).log.changedFiles := by
  obtain ⟨hcompiled, e, he⟩ := h.again.changedFile_iff.1 hf
  exact (h.of_event hcompiled he).1

/-- What a removed file listed is gone after the first round. -/
theorem notMem_of_removed (h : Repeats t main main₁ p b late)
    (hf : f ∈ Merge.knownFiles t b.removed) (c : ClassInfo) : c ∉ main₁.classesIn.valuesOf f := by
  intro hc
  have hdeclares := (h.again.records.classesIn f c.name).1 (IdSet.has_of_mem hc)
  exact h.again.not_declares_removed hf c.name hdeclares

theorem fileOf_again (h : Repeats t main main₁ p b late) :
    (main₁.mergeRound t (b.mergedRound t main₁ late)).fileOf = main₁.fileOf := by
  refine Table.eq_of_get?_eq fun n => Option.ext fun f => ?_
  rw [(records_mergedRound h.again).fileOf, h.again.records.fileOf]

theorem classesIn_again (h : Repeats t main main₁ p b late) :
    (main₁.mergeRound t (b.mergedRound t main₁ late)).classesIn = main₁.classesIn := by
  refine Table.eq_of_get?_eq fun f => ?_
  have hupdates : ∀ main, (b.mergedRound t main late).rebuild = false := fun _ => rfl
  by_cases hf : f ∈ (b.mergedRound t main₁ late).log.changedFiles
  · have hfirst : f ∈ (b.mergedRound t main late).log.changedFiles := h.noted_of_noted_again hf
    rw [Graph.get?_mergeRound_of_noted (hupdates main₁) hf, h.merged,
      Graph.get?_mergeRound_of_noted (hupdates main) hfirst]
    rfl
  · rw [Graph.get?_mergeRound_of_not_noted (hupdates main₁) hf]
    split
    · -- the entry of a removed file is gone after the first round
      rename_i hk
      have hnot : f ∉ (b.mergedRound t main late).log.changedFiles := by
        intro hfirst
        have hhas := h.first.compiled_of_changedFile hfirst
        rw [h.first.disjoint f hk] at hhas
        simp at hhas
      rw [h.merged, Graph.get?_mergeRound_of_not_noted (hupdates main) hnot]
      exact (if_pos hk).symm
    · rfl

theorem subclasses_again (h : Repeats t main main₁ p b late) :
    (main₁.mergeRound t (b.mergedRound t main₁ late)).subclasses = main₁.subclasses := by
  obtain ⟨hdeleted, hgained, hlost⟩ := h.log_again
  exact Graph.subclasses_mergeRound_eq rfl (fun f hf => h.notMem_of_removed hf) hdeleted hgained
    hlost

end Repeats

/-! ## Edges that a repetition takes back -/

/-- An edge of the graph that a repeated round takes back: its user is compared anew, although
it is the class that the round has, and the round does not bring the edge again. -/
structure TakesBack (t : NameTable) (main : Graph) (b : Build) (late : List ImportNote)
    (o d : Symbol) : Prop where
  edge : d ∈ main.dependants.valuesOf o
  dropped : d ∉ (b.lateGraph t late).dependants.valuesOf o
  news : ∃ f, ∃ past ∈ main.classesIn.valuesOf f, ∃ now ∈ (b.graph t).classesIn.valuesOf f,
    past.name = d ∧ now.name = d ∧ (ClassChange.between past now).isEmpty = false ∧ past.Uses o

namespace Repeats

variable {t : NameTable} {main main₁ : Graph} {p : Project} {b : Build} {late : List ImportNote}
  {o d : Symbol}

/-- The former users of the second round are the classes that it compares anew. -/
theorem former_again (h : Repeats t main main₁ p b late) :
    (b.mergedRound t main₁ late).Former t main₁ o d ↔
      ∃ f, ∃ past ∈ main₁.classesIn.valuesOf f, ∃ now ∈ (b.graph t).classesIn.valuesOf f,
        past.name = d ∧ now.name = d ∧ (ClassChange.between past now).isEmpty = false ∧
          past.Uses o := by
  constructor
  · intro hformer
    cases hformer with
    | removed hf hc => exact absurd hc (h.notMem_of_removed hf _)
    | deleted hc =>
      have hdeleted : _ ∈ (b.comparedRound t main₁).log.deletedClasses := hc
      rw [h.log_again.1] at hdeleted
      simp at hdeleted
    | restated hr _ hfile _ hc hname hu =>
      obtain ⟨g, hcompiled, e, he, -, hen⟩ := mem_changedClasses_noteRound.1 hr.1
      obtain ⟨-, change, rfl, hdiff, -⟩ := h.of_event hcompiled he
      obtain ⟨hpast, hnow, hpn, -, hnews⟩ := ClassEvent.mem_ofFile_changed.1 he
      have hd : change.past.name = d := hen
      -- the class is listed in one file only
      have hg : main₁.fileOf.get? d = some g := by
        rw [h.again.records.fileOf, ← h.again.records.classesIn, ← hd]
        exact IdSet.has_of_mem hpast
      obtain rfl := Option.some.inj (hfile.symm.trans hg)
      obtain rfl := IdSet.eq_of_ident_eq hc hpast (hname.trans hd.symm)
      exact ⟨_, _, hpast, _, hnow, hd, hpn.symm.trans hd, hdiff ▸ hnews, hu⟩
  · intro hnews
    obtain ⟨f, past, hpast, now, hnow, rfl, hname, hnews, hu⟩ := hnews
    have hcompiled : (b.graph t).classesIn.has f = true := Table.has_of_mem_valuesOf hnow
    have hevent : .changed ⟨past, now, .between past now⟩ ∈ ClassEvent.ofFile main₁ (b.graph t) f :=
      ClassEvent.mem_ofFile_changed.2 ⟨hpast, hnow, hname.symm, rfl, hnews⟩
    have hdeclares : (p.after t b).Declares f past.name :=
      (h.again.records.classesIn _ _).1 (IdSet.has_of_mem hpast)
    have hchanged : past.name ∈ (b.comparedRound t main₁).log.changedClasses :=
      mem_changedClasses_noteRound.2 ⟨f, hcompiled, _, hevent, rfl, rfl⟩
    refine .restated (h.again.restates_iff.2 hchanged) ?_ ((h.again.records.fileOf _ _).2 hdeclares)
      ?_ hpast rfl hu
    · rw [drops_mergedRound, h.again.drops_iff]
      intro hdrops
      exact hdrops.1 f hcompiled hdeclares
    · intro hk
      exact h.again.not_declares_removed hk _ hdeclares

/-- What a round brings is there after the first time. -/
theorem brought (h : Repeats t main main₁ p b late)
    (hd : d ∈ (b.lateGraph t late).dependants.valuesOf o) : d ∈ main₁.dependants.valuesOf o := by
  rw [h.merged]
  exact (Graph.mem_dependants_mergeRound rfl).2 (.inr hd)

/-- Edges stay where the second round takes none back. -/
theorem dependants_again (h : Repeats t main main₁ p b late)
    (hno : ∀ d, ¬ b.TakesBack t main₁ late o d) :
    (main₁.mergeRound t (b.mergedRound t main₁ late)).dependants.has o = main₁.dependants.has o ∧
      ∀ d, d ∈ (main₁.mergeRound t (b.mergedRound t main₁ late)).dependants.valuesOf o ↔
        d ∈ main₁.dependants.valuesOf o := by
  have hupdates : (b.mergedRound t main₁ late).rebuild = false := rfl
  have hlost : ∀ d ∈ main₁.dependants.valuesOf o, (b.mergedRound t main₁ late).Former t main₁ o d →
      d ∈ (b.lateGraph t late).dependants.valuesOf o := by
    intro d hd hformer
    by_contra hdropped
    exact hno d ⟨hd, hdropped, h.former_again.1 hformer⟩
  exact Graph.dependants_mergeRound_eq hupdates (fun f hf => h.notMem_of_removed hf) h.log_again.1
    hlost fun d hd => h.brought hd

/-- Where no import comes late, and the edges so far lead to users, nothing is taken back: a
class that the second round compares anew was compared anew in the first round. -/
theorem not_takesBack (h : Repeats t main main₁ p b [])
    (hrewires : (b.comparedRound t main).Rewires t main p (p.after t b)) (hsound : main.Sound p) :
    ¬ b.TakesBack t main₁ [] o d := by
  intro hback
  obtain ⟨f, past, hpast, now, hnow, hpn, hnn, hnews, hu⟩ := hback.news
  have hcompiled : (b.graph t).classesIn.has f = true := Table.has_of_mem_valuesOf hnow
  have hname : past.name = now.name := hpn.trans hnn.symm
  have hevent : .changed ⟨past, now, .between past now⟩ ∈ ClassEvent.ofFile main₁ (b.graph t) f :=
    ClassEvent.mem_ofFile_changed.2 ⟨hpast, hnow, hname, rfl, hnews⟩
  have hnoted := (h.of_event hcompiled hevent).1
  -- what is compared is what was merged
  rw [h.valuesOf_of_noted hnoted] at hpast
  obtain rfl : past = now := h.withMentions_of_mem hpast hnow hname
  have hrestated : d ∈ (b.comparedRound t main).log.changedClasses :=
    hpn ▸ Graph.mem_changedClasses_of_news hnow hnews
  -- so that the edges it had were taken back then
  have hedge := hback.edge
  rw [h.merged, mergedRound_nil, Graph.mem_dependants_mergeRound rfl] at hedge
  rcases hedge with ⟨⟨hmain, -⟩, hformer⟩ | hround
  · obtain ⟨g, huses⟩ := hsound o d hmain
    by_cases hg : (b.graph t).classesIn.has g = true
    · exact hformer (hrewires.former_of_restated hg hrestated huses)
    · by_cases hk : g ∈ Merge.knownFiles t b.removed
      · obtain ⟨c, hc, hcn, hcu⟩ := (hrewires.stores g d o).2 huses
        exact hformer (.removed hk hc hcn hcu)
      · -- a class of a file that stays is not restated
        have hg : (b.comparedRound t main).graph.classesIn.has g = false := by simpa using hg
        have hstays := (h.first.declares_kept hg hk d).2 huses.declares
        obtain ⟨f', hf', hdeclares⟩ := h.first.declares_of_changed hrestated
        rw [h.first.oneFile f' g d hdeclares hstays, hg] at hf'
        simp at hf'
  · exact hback.dropped hround

end Repeats

end Build

namespace Graph

/-- The same tables; the users of a class are a set, so that their order does not count. -/
structure SameTables (g g' : Graph) : Prop where
  subclasses : g'.subclasses = g.subclasses
  classesIn : g'.classesIn = g.classesIn
  fileOf : g'.fileOf = g.fileOf
  keys : ∀ o, g'.dependants.has o = g.dependants.has o
  dependants : ∀ o d, d ∈ g'.dependants.valuesOf o ↔ d ∈ g.dependants.valuesOf o

/-- **When a repeated round changes nothing**: a build whose round is compared and merged twice,
the second time into what the first time left, leaves all tables as they are the second time
exactly when no edge is taken back.  None is when all imports are reported in time, in this
round as in those that led to the graph. -/
theorem repeated_iff {prompt : Bool} {names t t' : NameTable} {main main₁ main₂ : Graph}
    {p : Project} {b : Build} {late : List ImportNote} (hmain : Reached prompt names main p)
    (hfits : b.Fits t p) (hfirst : b.Step late names main t main₁)
    (hagain : b.Step late t main₁ t' main₂) :
    (main₁.SameTables main₂ ↔ ∀ o d, ¬ b.TakesBack t main₁ late o d) ∧
      (prompt = true → late = [] → main₁.SameTables main₂) := by
  obtain rfl := hfirst.settled hagain
  have hrepeats := Build.Repeats.of_step hmain.records hfits hfirst
  have hmain₂ := hagain.eq.2
  have hiff : main₁.SameTables main₂ ↔ ∀ o d, ¬ b.TakesBack t' main₁ late o d := by
    constructor
    · intro hsame o d hback
      have hedge := (hsame.dependants o d).2 hback.edge
      rw [hmain₂, Graph.mem_dependants_mergeRound rfl] at hedge
      rcases hedge with ⟨-, hformer⟩ | hround
      · exact hformer (hrepeats.former_again.2 hback.news)
      · exact hback.dropped hround
    · intro hno
      rw [hmain₂]
      exact
        { subclasses := hrepeats.subclasses_again
          classesIn := hrepeats.classesIn_again
          fileOf := hrepeats.fileOf_again
          keys := fun o => (hrepeats.dependants_again (hno o)).1
          dependants := fun o => (hrepeats.dependants_again (hno o)).2 }
  refine ⟨hiff, fun hprompt hlate => hiff.2 fun o d => ?_⟩
  subst hprompt hlate
  obtain ⟨hstores, hsound⟩ := hmain.sound
  exact hrepeats.not_takesBack (Build.rewires_compared hmain.records hstores hfits.disjoint
    hfits.once hfits.importsOwn hfits.oneFile) hsound

end Graph

/-! ## An import that comes late

A class is used from another file, and then moves into the file of its user.  The user is
the same as before, so that its edge stays, which is no longer needed.  When an import of the
user is reported after the comparison, the second round finds the user changed, and takes the
edge back. -/

namespace LateImport

def names : NameTable :=
  NameTable.new.internAll ["p/C", "p/X", "F.java", "G.java", "p/C.class", "p/X.class",
    "java/lang/Object", "<init>", "q/M"]

/-- The class that moves. -/
def moved : ClassInfo := .plain ⟨2⟩ (.ofFlags [.pub]) (.named ⟨7⟩)

/-- Its user. -/
def user : ClassInfo :=
  { ClassInfo.plain ⟨1⟩ (.ofFlags [.pub]) (.named ⟨7⟩) with usages := .single (.mention ⟨2⟩) }

/-- Each class in a file of its own. -/
def apart : Build where
  outputs := [⟨"F.java", "p/C.class", some user⟩, ⟨"G.java", "p/X.class", some moved⟩]
  imports := []
  files := [⟨"F.java"⟩, ⟨"G.java"⟩]
  removed := []
  covered := by simp

/-- Both classes in one file, with some imports reported in time. -/
def together (imports : List ImportNote) : Build where
  outputs := [⟨"F.java", "p/X.class", some moved⟩, ⟨"F.java", "p/C.class", some user⟩]
  imports := imports
  files := [⟨"F.java"⟩, ⟨"G.java"⟩]
  removed := []
  covered := by simp

/-- The import of the user. -/
def note : ImportNote := ⟨"p.C", ["q.M"]⟩

/-- The graph of the first build. -/
def past : Graph := (apart.easyStep [] names .empty).2
/-- The project that it made. -/
def project : Project := Project.empty.after names apart

theorem fits_apart : apart.Fits names .empty := .fresh (by decide) rfl rfl

theorem reached : Graph.Reached true names past project :=
  .step (.start names) fits_apart (fun _ => rfl) Build.step_easyStep

theorem fits_together {imports : List ImportNote} (h : (together imports).ImportsOwn names) :
    (together imports).Fits names project := by
  have honce : (together imports).Once := by
    simp [Build.Once, together, moved, user, ClassInfo.plain]
  refine ⟨honce, h, fun f _ hr => absurd hr List.not_mem_nil, ?_⟩
  refine Build.oneFile_after fits_apart.oneFile honce fun x _ f hf => .inl ?_
  have hcompiled : f ∈ Merge.knownFiles names apart.files := Build.compiled_of_declares hf
  exact hcompiled

/-- The graph after one round with both classes in one file. -/
def once (imports late : List ImportNote) : Graph := ((together imports).easyStep late names past).2

/-- The graph after two of them. -/
def twice (imports late : List ImportNote) : Graph :=
  ((together imports).easyStep late names (once imports late)).2

/-- The import reported in time. -/
theorem same_in_time : (once [note] []).SameTables (twice [note] []) := by
  have hown : (together [note]).ImportsOwn names := by
    have hmentions : (together [note]).mentions names = [(⟨1⟩, ⟨9⟩)] := rfl
    intro m hm
    rw [hmentions] at hm
    obtain rfl := List.mem_singleton.1 hm
    have hclasses : (together [note]).classes names =
        [(⟨3⟩, { moved with classFile := ⟨6⟩ }), (⟨3⟩, { user with classFile := ⟨5⟩ })] := rfl
    rw [hclasses]
    exact ⟨_, List.mem_cons_of_mem _ List.mem_cons_self, rfl⟩
  exact (Graph.repeated_iff reached (fits_together hown) Build.step_easyStep
    Build.step_easyStep).2 rfl rfl

/-- The import reported late. -/
theorem not_same :
    Graph.Reached true names past project ∧ (together []).Fits names project ∧
      (together []).Step [note] names past names (once [] [note]) ∧
      (together []).Step [note] names (once [] [note]) names (twice [] [note]) ∧
      ¬ (once [] [note]).SameTables (twice [] [note]) := by
  refine ⟨reached, fits_together ?_, Build.step_easyStep, Build.step_easyStep, ?_⟩
  · intro m hm
    exact absurd hm List.not_mem_nil
  · intro h
    have honce : (once [] [note]).dependants.has ⟨2⟩ = true := rfl
    have htwice : (twice [] [note]).dependants.has ⟨2⟩ = false := rfl
    rw [h.keys, honce] at htwice
    simp at htwice

end LateImport

end ClassImpact

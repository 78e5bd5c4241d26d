import Mathlib
import ClassImpact.ChangeLog
import ClassImpact.Proofs.Membership

/-!
# What a round notes

The events of a compiled file are determined by two sets: the classes recorded for the
file and the classes compiled from it.  The log is determined by the events, whatever
their order.  Everything that a merge writes is read off from the laws stated here.
-/

namespace ClassImpact

open Identified (ident)

theorem ident_classInfo (c : ClassInfo) : ident c = c.name := rfl

namespace ClassEvent

/-! ## Events of a file -/

/-- The class that an event is about. -/
def className : ClassEvent → Symbol
  | .changed change => change.past.name
  | .removed c => c.name
  | .added c => c.name

/-- Whether an event gives its class a new descriptor. -/
def restates : ClassEvent → Bool
  | .removed _ => false
  | _ => true

/-- The file that an event notes as changed: the one that the round gives the class, or
for a removed class the one recorded so far. -/
def file? (main round : Graph) : ClassEvent → Option Symbol
  | .changed change => round.fileOf.get? change.past.name
  | .removed c => main.fileOf.get? c.name
  | .added c => round.fileOf.get? c.name

/-- A missing entry is compared like an empty one. -/
theorem classPatch_recorded (past : Option (List ClassInfo)) (now : List ClassInfo) :
    classPatch past now = classPatch (some (past.getD [])) now := by
  cases past with
  | none => simp [classPatch, Patch.fromRecorded]
  | some past => rfl

theorem ofFile_eq (main round : Graph) (file : Symbol) :
    ofFile main round file =
      ofPatch (classPatch (some (main.classesIn.valuesOf file).toList)
        (round.classesIn.valuesOf file).toList) := by
  rw [ofFile, classPatch_recorded]
  cases h : main.classesIn.get? file <;> simp [Table.valuesOf, h]

theorem partner?_eq_none_iff {s : IdSet ClassInfo} {c : ClassInfo} :
    Patch.partner? s.toList c = none ↔ s.has c.name = false := IdSet.find?_eq_none

variable {main round : Graph} {file : Symbol}

theorem mem_ofFile_added {c : ClassInfo} :
    added c ∈ ofFile main round file ↔
      c ∈ round.classesIn.valuesOf file ∧ (main.classesIn.valuesOf file).has c.name = false := by
  simp [ofFile_eq, ofPatch, classPatch, Patch.fromRecorded, Patch.between, partner?_eq_none_iff]

theorem mem_ofFile_removed {c : ClassInfo} :
    removed c ∈ ofFile main round file ↔
      c ∈ main.classesIn.valuesOf file ∧ (round.classesIn.valuesOf file).has c.name = false := by
  simp [ofFile_eq, ofPatch, classPatch, Patch.fromRecorded, Patch.between, partner?_eq_none_iff]

theorem mem_ofFile_changed {change : Changed ClassInfo ClassChange} :
    changed change ∈ ofFile main round file ↔
      change.past ∈ main.classesIn.valuesOf file ∧ change.now ∈ round.classesIn.valuesOf file ∧
        change.past.name = change.now.name ∧
        change.diff = .between change.past change.now ∧ change.diff.isEmpty = false := by
  simp only [ofFile_eq, ofPatch, classPatch, Patch.fromRecorded, Patch.between, Patch.change?,
    List.mem_append, List.mem_map, List.mem_filterMap, reduceCtorEq, and_false, exists_false,
    or_false, changed.injEq, exists_eq_right, Option.bind_eq_some_iff, Option.map_eq_some_iff]
  constructor
  · rintro ⟨now, hnow, past, hpast, d, hd, rfl⟩
    obtain ⟨hpast, hname⟩ := IdSet.find?_eq_some.1 hpast
    by_cases he : (ClassChange.between past now).isEmpty = true
    · simp [he] at hd
    · simp only [he, Bool.false_eq_true, if_false, Option.some.injEq] at hd
      exact ⟨hpast, hnow, hname, hd.symm, by simpa [← hd] using he⟩
  · obtain ⟨past, now, d⟩ := change
    rintro ⟨hpast, hnow, hname, hd, he⟩
    dsimp only at hpast hnow hname hd he
    subst hd
    have hfind : Patch.partner? (main.classesIn.valuesOf file).toList now = some past :=
      IdSet.find?_eq_some.2 ⟨hpast, hname⟩
    exact ⟨now, hnow, past, hfind, _, by simp [he], rfl⟩

/-- A class that is recorded and compiled, and of which no change is told, has the same
usages as before. -/
theorem usages_of_not_changed {past now : ClassInfo} (hpast : past ∈ main.classesIn.valuesOf file)
    (hnow : now ∈ round.classesIn.valuesOf file) (hname : past.name = now.name)
    (hno : ¬ ∃ e ∈ ofFile main round file, e.restates = true ∧ e.className = past.name)
    (u : Usage) : u ∈ past.usages ↔ u ∈ now.usages := by
  have he : (ClassChange.between past now).isEmpty = true := by
    by_contra hne
    have hmem : changed ⟨past, now, .between past now⟩ ∈ ofFile main round file :=
      mem_ofFile_changed.2 ⟨hpast, hnow, hname, rfl, by simpa using hne⟩
    exact hno ⟨_, hmem, rfl, rfl⟩
  apply IdSet.mem_iff_of_sameValues
  simp only [ClassChange.isEmpty, Revision.isEmpty, ClassChange.between, Bool.and_eq_true,
    Bool.not_eq_true', Bool.or_eq_false_iff, Bool.not_eq_false'] at he
  exact he.1.1.1.1.1.2

/-- The descriptors that a file of the round restates are among its compiled classes. -/
theorem has_of_restates {e : ClassEvent} (h : e ∈ ofFile main round file)
    (hr : e.restates = true) : (round.classesIn.valuesOf file).has e.className = true := by
  cases e with
  | changed change =>
    obtain ⟨-, hnow, hname, -⟩ := mem_ofFile_changed.1 h
    exact IdSet.has_iff_mem.2 ⟨_, hnow, hname.symm⟩
  | removed c => simp [restates] at hr
  | added c => exact IdSet.has_of_mem (mem_ofFile_added.1 h).1

/-- A compiled class that its file does not restate is recorded there already. -/
theorem has_or_restated {c : ClassInfo} (h : c ∈ round.classesIn.valuesOf file) :
    (main.classesIn.valuesOf file).has c.name = true ∨
      ∃ e ∈ ofFile main round file, e.restates = true ∧ e.className = c.name := by
  by_cases hm : (main.classesIn.valuesOf file).has c.name = true
  · exact .inl hm
  · exact .inr ⟨added c, mem_ofFile_added.2 ⟨h, by simpa using hm⟩, rfl, rfl⟩

theorem mem_ofFiles {files : List Symbol} {e : ClassEvent} :
    e ∈ ofFiles main round files ↔ ∃ file ∈ files, e ∈ ofFile main round file := by
  simp [ofFiles]

end ClassEvent

/-! ## The log -/

namespace ChangeLog

variable {main round : Graph}

@[simp] theorem changedClasses_gained (l : ChangeLog) (c : Symbol) (supers : List Symbol) :
    (l.gained c supers).changedClasses = l.changedClasses := rfl
@[simp] theorem changedFiles_gained (l : ChangeLog) (c : Symbol) (supers : List Symbol) :
    (l.gained c supers).changedFiles = l.changedFiles := rfl
@[simp] theorem deletedClasses_gained (l : ChangeLog) (c : Symbol) (supers : List Symbol) :
    (l.gained c supers).deletedClasses = l.deletedClasses := rfl
@[simp] theorem changedClasses_lost (l : ChangeLog) (c : Symbol) (supers : List Symbol) :
    (l.lost c supers).changedClasses = l.changedClasses := rfl
@[simp] theorem changedFiles_lost (l : ChangeLog) (c : Symbol) (supers : List Symbol) :
    (l.lost c supers).changedFiles = l.changedFiles := rfl
@[simp] theorem deletedClasses_lost (l : ChangeLog) (c : Symbol) (supers : List Symbol) :
    (l.lost c supers).deletedClasses = l.deletedClasses := rfl

theorem mem_addedSupers_gained {l : ChangeLog} {c s t : Symbol} {supers : List Symbol} :
    s ∈ (l.gained c supers).addedSupers.valuesOf t ↔
      s ∈ l.addedSupers.valuesOf t ∨ t ∈ supers ∧ s = c := Table.mem_foldl_addValue

theorem mem_removedSupers_lost {l : ChangeLog} {c s t : Symbol} {supers : List Symbol} :
    s ∈ (l.lost c supers).removedSupers.valuesOf t ↔
      s ∈ l.removedSupers.valuesOf t ∨ t ∈ supers ∧ s = c := Table.mem_foldl_addValue

theorem mem_changedClasses_note {l : ChangeLog} {e : ClassEvent} {c : Symbol} :
    c ∈ (l.note main round e).changedClasses ↔
      c ∈ l.changedClasses ∨ e.restates = true ∧ e.className = c := by
  cases e with
  | changed change =>
    by_cases h : change.diff.base.superclass = true <;>
      simp [note, noteChanged, reclassified, ClassEvent.restates, ClassEvent.className, h,
        IdSet.mem_add_iff, eq_comm (a := c)]
  | removed d => simp [note, noteRemoved, ClassEvent.restates]
  | added d =>
    simp [note, noteAdded, reclassified, ClassEvent.restates, ClassEvent.className,
      IdSet.mem_add_iff, eq_comm (a := c)]

/-- The files noted so far, and the one that an event names if it names one. -/
theorem mem_addFile {s : IdSet Symbol} {file? : Option Symbol} {f : Symbol} :
    f ∈ (match file? with
      | some file => s.add file
      | none => s) ↔ f ∈ s ∨ file? = some f := by
  cases file? with
  | none => simp
  | some g => simp [IdSet.mem_add_iff, eq_comm (a := f)]

theorem mem_changedFiles_note {l : ChangeLog} {e : ClassEvent} {f : Symbol} :
    f ∈ (l.note main round e).changedFiles ↔
      f ∈ l.changedFiles ∨ e.file? main round = some f := by
  cases e with
  | changed change =>
    by_cases h : change.diff.base.superclass = true
    · simp only [note, noteChanged, reclassified, h, if_true, changedFiles_gained,
        changedFiles_lost]
      exact mem_addFile
    · simp only [note, noteChanged, reclassified, h, Bool.false_eq_true, if_false,
        changedFiles_gained, changedFiles_lost]
      exact mem_addFile
  | removed c => exact mem_addFile
  | added c => exact mem_addFile

theorem deletedClasses_note (l : ChangeLog) (e : ClassEvent) :
    (l.note main round e).deletedClasses =
      match e with
      | .removed c =>
        if round.fileOf.has c.name then l.deletedClasses else l.deletedClasses.add c
      | _ => l.deletedClasses := by
  cases e with
  | changed change =>
    by_cases h : change.diff.base.superclass = true <;>
      simp [note, noteChanged, reclassified, h]
  | removed c => rfl
  | added c => rfl

theorem has_deletedClasses_note {l : ChangeLog} {e : ClassEvent} {n : Symbol} :
    (l.note main round e).deletedClasses.has n = true ↔
      l.deletedClasses.has n = true ∨
        round.fileOf.has n = false ∧ ∃ c, e = .removed c ∧ c.name = n := by
  rw [deletedClasses_note]
  cases e with
  | changed change => simp
  | added c => simp
  | removed c =>
    simp only [ClassEvent.removed.injEq, exists_eq_left']
    by_cases h : round.fileOf.has c.name = true
    · rw [if_pos h]
      refine (or_iff_left ?_).symm
      rintro ⟨hn, rfl⟩
      simp [h] at hn
    · rw [if_neg h, IdSet.has_add, ident_classInfo]
      refine or_congr Iff.rfl ⟨?_, And.right⟩
      rintro rfl
      exact ⟨by simpa using h, rfl⟩

/-- What a log shows after a list of events, of which each one adds its part. -/
theorem shows_noteAll {P : ChangeLog → Prop} {Q : ClassEvent → Prop}
    (hnote : ∀ l e, P (l.note main round e) ↔ P l ∨ Q e) (l : ChangeLog)
    (events : List ClassEvent) : P (l.noteAll main round events) ↔ P l ∨ ∃ e ∈ events, Q e := by
  induction events generalizing l with
  | nil => simp [noteAll]
  | cons e events ih =>
    rw [noteAll, List.foldl_cons, ← noteAll, ih, hnote, List.exists_mem_cons_iff, or_assoc]

theorem mem_changedFiles_noteAll {l : ChangeLog} {events : List ClassEvent} {f : Symbol} :
    f ∈ (l.noteAll main round events).changedFiles ↔
      f ∈ l.changedFiles ∨ ∃ e ∈ events, e.file? main round = some f :=
  shows_noteAll (P := fun l => f ∈ l.changedFiles) (fun _ _ => mem_changedFiles_note) l events

theorem removed_of_mem_deletedClasses {l : ChangeLog} {events : List ClassEvent} {c : ClassInfo}
    (h : c ∈ (l.noteAll main round events).deletedClasses) :
    c ∈ l.deletedClasses ∨ .removed c ∈ events := by
  induction events generalizing l with
  | nil => exact .inl h
  | cons e events ih =>
    rw [noteAll, List.foldl_cons, ← noteAll] at h
    rcases ih h with h | h
    · rw [deletedClasses_note] at h
      cases e with
      | changed change => exact .inl h
      | added d => exact .inl h
      | removed d =>
        by_cases hd : round.fileOf.has d.name = true
        · simp only [hd, if_true] at h
          exact .inl h
        · simp only [hd, Bool.false_eq_true, if_false, IdSet.mem_add] at h
          rcases h with h | ⟨rfl, -⟩
          · exact .inl h
          · exact .inr List.mem_cons_self
    · exact .inr (List.mem_cons_of_mem _ h)

end ChangeLog

end ClassImpact

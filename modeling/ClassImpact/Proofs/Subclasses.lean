import Mathlib
import ClassImpact.Proofs.Compared
import ClassImpact.Proofs.Merged
import ClassImpact.Proofs.Patches

/-!
# The subclass table after a merge

The log of a round notes the supertypes that classes gain and lose.  A merge adds to the
losses what the classes lose that leave with their files, drops the entries of classes
that are gone, and then takes out the losses and puts in the gains, in this order.  What
all of this leaves in the subclass table is said here once, in terms of the table so far
and of the events of the round.

An event that takes a class out of a compiled file notes no loss at all.
-/

namespace ClassImpact

open Identified (ident)

/-! ## Supertypes of a class -/

theorem TypeRef.mem_className?_toList_if {b : Bool} {r : TypeRef} {t : Symbol} :
    t ∈ (if b then r.className?.toList else []) ↔ b = true ∧ r = .named t := by
  cases b <;> cases r <;> simp [className?, eq_comm]

theorem TypeRef.mem_filterMap_className? {rs : List TypeRef} {t : Symbol} :
    t ∈ rs.filterMap className? ↔ .named t ∈ rs := by
  rw [List.mem_filterMap]
  constructor
  · rintro ⟨r, hr, ht⟩
    cases r <;> simp_all [className?]
  · intro h
    exact ⟨_, h, rfl⟩

theorem ClassInfo.mem_supers {c : ClassInfo} {t : Symbol} :
    t ∈ c.supers ↔ c.superclass = .named t ∨ .named t ∈ c.interfaces := by
  rw [supers, TypeRef.mem_filterMap_className?, List.mem_cons, eq_comm]

theorem mem_ofMembers_added {past now : List TypeRef} {r : TypeRef} :
    r ∈ (Patch.ofMembers past now).added ↔ r ∈ now ∧ r ∉ past := by
  rw [Patch.ofMembers, Patch.mem_added]
  exact and_congr_right' ⟨fun h hr => h r hr rfl, fun h b hb (hbr : b = r) => h (hbr ▸ hb)⟩

theorem mem_ofMembers_removed {past now : List TypeRef} {r : TypeRef} :
    r ∈ (Patch.ofMembers past now).removed ↔ r ∈ past ∧ r ∉ now := by
  rw [Patch.ofMembers, Patch.mem_removed]
  exact and_congr_right' ⟨fun h hr => h r hr rfl, fun h b hb (hbr : b = r) => h (hbr ▸ hb)⟩

theorem isEmpty_ofMembers_iff {past now : List TypeRef} :
    (Patch.ofMembers past now).isEmpty = true ↔ ∀ r, r ∈ past ↔ r ∈ now := by
  rw [Patch.isEmpty_ofMembers_iff_idents, show (ident : TypeRef → TypeRef) = id from rfl,
    List.map_id, List.map_id]

/-! ## The log -/

namespace ClassEvent

/-- An event that notes a new supertype. -/
def Gains (t : Symbol) : ClassEvent → Prop
  | .changed change =>
    change.diff.base.superclass = true ∧ change.now.superclass = .named t ∨
      .named t ∈ change.diff.interfaces.added
  | .removed _ => False
  | .added c => t ∈ c.supers

/-- An event that notes the loss of a supertype. -/
def Loses (t : Symbol) : ClassEvent → Prop
  | .changed change =>
    change.diff.base.superclass = true ∧ change.past.superclass = .named t ∨
      .named t ∈ change.diff.interfaces.removed
  | .removed _ => False
  | .added _ => False

end ClassEvent

namespace ChangeLog

variable {main round : Graph} {l : ChangeLog}

@[simp] theorem addedSupers_lost (l : ChangeLog) (c : Symbol) (supers : List Symbol) :
    (l.lost c supers).addedSupers = l.addedSupers := rfl
@[simp] theorem removedSupers_gained (l : ChangeLog) (c : Symbol) (supers : List Symbol) :
    (l.gained c supers).removedSupers = l.removedSupers := rfl
@[simp] theorem addedSupers_reclassified (l : ChangeLog) (round : Graph) (c : Symbol) :
    (l.reclassified round c).addedSupers = l.addedSupers := rfl
@[simp] theorem removedSupers_reclassified (l : ChangeLog) (round : Graph) (c : Symbol) :
    (l.reclassified round c).removedSupers = l.removedSupers := rfl

/-- A change of the superclass is noted with the changes of the interfaces, as edges of one
kind. -/
theorem noteChanged_eq (l : ChangeLog) (change : Changed ClassInfo ClassChange) :
    l.noteChanged round change =
      ((((l.reclassified round change.past.name).lost change.past.name
        (if change.diff.base.superclass then change.past.superclass.className?.toList
          else [])).gained change.past.name
        (if change.diff.base.superclass then change.now.superclass.className?.toList
          else [])).lost change.past.name
        (change.diff.interfaces.removed.filterMap TypeRef.className?)).gained change.past.name
        (change.diff.interfaces.added.filterMap TypeRef.className?) := by
  by_cases h : change.diff.base.superclass = true
  · simp only [noteChanged, h, if_true]
  · simp only [noteChanged, h, Bool.false_eq_true, if_false]
    rfl

theorem mem_addedSupers_note {e : ClassEvent} {s t : Symbol} :
    s ∈ (l.note main round e).addedSupers.valuesOf t ↔
      s ∈ l.addedSupers.valuesOf t ∨ e.Gains t ∧ e.className = s := by
  cases e with
  | changed change =>
    rw [note, noteChanged_eq, mem_addedSupers_gained, addedSupers_lost, mem_addedSupers_gained,
      addedSupers_lost, addedSupers_reclassified, TypeRef.mem_className?_toList_if,
      TypeRef.mem_filterMap_className?, or_assoc, ← or_and_right, eq_comm (a := s)]
    rfl
  | removed c => simp [note, noteRemoved, ClassEvent.Gains]
  | added c =>
    simp only [note, noteAdded, mem_addedSupers_gained, addedSupers_reclassified,
      ClassEvent.Gains, ClassEvent.className, eq_comm (a := s)]

theorem mem_removedSupers_note {e : ClassEvent} {s t : Symbol} :
    s ∈ (l.note main round e).removedSupers.valuesOf t ↔
      s ∈ l.removedSupers.valuesOf t ∨ e.Loses t ∧ e.className = s := by
  cases e with
  | changed change =>
    rw [note, noteChanged_eq, removedSupers_gained, mem_removedSupers_lost, removedSupers_gained,
      mem_removedSupers_lost, removedSupers_reclassified, TypeRef.mem_className?_toList_if,
      TypeRef.mem_filterMap_className?, or_assoc, ← or_and_right, eq_comm (a := s)]
    rfl
  | removed c => simp [note, noteRemoved, ClassEvent.Loses]
  | added c => simp [note, noteAdded, ClassEvent.Loses]

end ChangeLog

section

variable {main round : Graph} {s t : Symbol}

theorem mem_addedSupers_noteRound :
    s ∈ (noteRound main round .empty).addedSupers.valuesOf t ↔
      ∃ f, round.classesIn.has f = true ∧
        ∃ e ∈ ClassEvent.ofFile main round f, e.Gains t ∧ e.className = s :=
  shows_noteRound (P := fun l => s ∈ l.addedSupers.valuesOf t)
    (fun _ _ => ChangeLog.mem_addedSupers_note) (IdSet.notMem_empty s)

theorem mem_removedSupers_noteRound :
    s ∈ (noteRound main round .empty).removedSupers.valuesOf t ↔
      ∃ f, round.classesIn.has f = true ∧
        ∃ e ∈ ClassEvent.ofFile main round f, e.Loses t ∧ e.className = s :=
  shows_noteRound (P := fun l => s ∈ l.removedSupers.valuesOf t)
    (fun _ _ => ChangeLog.mem_removedSupers_note) (IdSet.notMem_empty s)

end

/-! ## The merge -/

namespace Merge

section

variable {log : ChangeLog} {table : SetTable Symbol} {t : Symbol}

theorem valuesOf_mergeSubclassesOf (c : Symbol) :
    (mergeSubclassesOf log table c).valuesOf t =
      if c = t then
        ((table.valuesOf t).sdiff (log.removedSupers.valuesOf t)).union (log.addedSupers.valuesOf t)
      else table.valuesOf t := by
  by_cases h : c = t
  · subst h
    rw [if_pos rfl, mergeSubclassesOf]
    split
    · rename_i hempty
      rw [Table.valuesOf_erase, if_pos rfl]
      apply IdSet.ext
      exact (List.isEmpty_iff.1 hempty).symm
    · rw [Table.valuesOf_insert, if_pos rfl]
  · rw [if_neg h, mergeSubclassesOf]
    split
    · rw [Table.valuesOf_erase, if_neg h]
    · rw [Table.valuesOf_insert, if_neg h]

theorem exchanges_mergeSubclassesOf :
    Exchanges (mergeSubclassesOf log) log.removedSupers log.addedSupers := by
  intro table c t s
  rw [valuesOf_mergeSubclassesOf]
  split
  · rw [IdSet.mem_union_iff, IdSet.mem_sdiff_iff]
  · rfl

/-- The subclasses of a class after the edges are merged: without the losses, and with the
gains. -/
theorem mem_mergeSubclasses {m : Merge} {s : Symbol} :
    s ∈ m.mergeSubclasses.main.subclasses.valuesOf t ↔
      s ∈ m.main.subclasses.valuesOf t ∧ s ∉ m.log.removedSupers.valuesOf t ∨
        s ∈ m.log.addedSupers.valuesOf t :=
  exchanges_mergeSubclassesOf.mem_foldl_all _ fun h => mem_keysOf.2 h.symm

end

end Merge

namespace Round

/-- A class that the round takes from a supertype: by a change, or because it leaves its
file, which is removed, or because it is deleted. -/
inductive Parted (names : NameTable) (main : Graph) (r : Round) (t s : Symbol) : Prop where
  | changed (h : s ∈ r.log.removedSupers.valuesOf t)
  | removed {f : Symbol} {c : ClassInfo} (hf : f ∈ Merge.knownFiles names r.removedFiles)
      (hc : c ∈ main.classesIn.valuesOf f) (hs : c.name = s) (ht : t ∈ c.supers)
  | deleted {c : ClassInfo} (hc : c ∈ r.log.deletedClasses) (hs : c.name = s) (ht : t ∈ c.supers)

end Round

/-- The subclasses of classes after a merge. -/
theorem Graph.mem_subclasses_mergeRound {names : NameTable} {main : Graph} {r : Round}
    (h : r.rebuild = false) {s t : Symbol} :
    s ∈ (main.mergeRound names r).subclasses.valuesOf t ↔
      (s ∈ main.subclasses.valuesOf t ∧ ¬ r.Drops names main t) ∧ ¬ r.Parted names main t s ∨
        s ∈ r.log.addedSupers.valuesOf t := by
  have hpurged := Merge.purges_purged names main r
  have hlost : s ∈ (Merge.purged names main r).log.removedSupers.valuesOf t ↔
      r.Parted names main t s := by
    rw [hpurged.lost]
    constructor
    · rintro (h | ⟨c, ⟨f, hf, hc⟩ | hc, hs, ht⟩)
      · exact .changed h
      · exact .removed hf hc hs ht
      · exact .deleted hc hs ht
    · rintro (h | ⟨hf, hc, hs, ht⟩ | ⟨hc, hs, ht⟩)
      · exact .inl h
      · exact .inr ⟨_, .inl ⟨_, hf, hc⟩, hs, ht⟩
      · exact .inr ⟨_, .inr hc, hs, ht⟩
  rw [Merge.mergeRound_eq names main r h]
  show s ∈ (Merge.written names main r).main.subclasses.valuesOf t ↔ _
  rw [Merge.subclasses_written, Merge.mem_mergeSubclasses, hlost, hpurged.subclasses,
    hpurged.gained]
  rfl

end ClassImpact

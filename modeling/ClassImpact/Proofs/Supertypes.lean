import Mathlib
import ClassImpact.Proofs.FileMaps
import ClassImpact.Proofs.Subclasses

/-!
# Subclass edges against a project

The subclass table of a graph transposes a project when a class stands under another one
exactly when it is declared with that one among its supertypes.  A merge keeps this for
classes that a round adds, deletes, changes, moves out of a removed file or leaves alone.

It does not keep it for a class that moves from one compiled file to another.  There the
log has a removal, which notes no loss of supertypes, and an addition, which notes the new
ones only: the class stays under the supertypes it had.  So the merged table is known in
every round, and it transposes the project after the round exactly when no such class
loses a supertype that stays.

A class may name one supertype as its superclass and as an interface.  The log notes a role
that a class takes, and one that it gives up while it stays in its file.

## Main results

* `Round.Situates.mem_addedSupers_iff`, `Round.Situates.mem_removedSupers_iff`: what the log
  notes of supertypes, against the projects
* `Round.Rehangs.mem_subclasses_merged`: the table after any round
* `Graph.subclasses_integrate`: the same for the round of a build
-/

namespace ClassImpact

/-! ## The place of a class -/

namespace ClassInfo

/-- Descriptors of one class with the same superclass and the same interfaces. -/
structure SamePlace (c d : ClassInfo) : Prop where
  name : c.name = d.name
  superclass : c.superclass = d.superclass
  interfaces : ∀ r, r ∈ c.interfaces ↔ r ∈ d.interfaces

namespace SamePlace

variable {c d e : ClassInfo}

theorem refl (c : ClassInfo) : c.SamePlace c := ⟨rfl, rfl, fun _ => Iff.rfl⟩

theorem symm (h : c.SamePlace d) : d.SamePlace c :=
  ⟨h.name.symm, h.superclass.symm, fun r => (h.interfaces r).symm⟩

theorem trans (h : c.SamePlace d) (h' : d.SamePlace e) : c.SamePlace e :=
  ⟨h.name.trans h'.name, h.superclass.trans h'.superclass,
    fun r => (h.interfaces r).trans (h'.interfaces r)⟩

theorem mem_supers (h : c.SamePlace d) (t : Symbol) : t ∈ c.supers ↔ t ∈ d.supers := by
  rw [ClassInfo.mem_supers, ClassInfo.mem_supers, h.superclass, h.interfaces]

end SamePlace

theorem samePlace_adding? {c d : ClassInfo} {u : Usage} (h : c.adding? u = some d) :
    d.SamePlace c := by
  rw [adding?] at h
  split at h
  · simp at h
  · cases h
    exact ⟨rfl, rfl, fun _ => Iff.rfl⟩

theorem samePlace_withMentions (mentions : List (Symbol × Symbol)) (c : ClassInfo) :
    (c.withMentions mentions).SamePlace c := by
  induction mentions generalizing c with
  | nil => exact .refl c
  | cons m mentions ih =>
    rw [withMentions, List.foldl_cons, ← withMentions]
    apply (ih _).trans
    split
    · cases h : c.adding? (.mention m.2) with
      | none => exact .refl c
      | some d => exact samePlace_adding? h
    · exact .refl c

/-- A set holds one class under a name. -/
theorem exists_named_iff {classes : IdSet ClassInfo} {c : ClassInfo} (hc : c ∈ classes)
    {P : ClassInfo → Prop} : (∃ d ∈ classes, d.name = c.name ∧ P d) ↔ P c := by
  constructor
  · intro h
    obtain ⟨d, hd, hname, hP⟩ := h
    obtain rfl : d = c := IdSet.eq_of_ident_eq hd hc hname
    exact hP
  · exact fun hP => ⟨c, hc, rfl, hP⟩

end ClassInfo

/-- The ways to name a supertype. -/
inductive Role where
  | superclass
  | interface

/-- The class names `t` in a role. -/
def ClassInfo.HasRole (c : ClassInfo) (t : Symbol) : Role → Prop
  | .superclass => c.superclass = .named t
  | .interface => .named t ∈ c.interfaces

theorem ClassInfo.mem_supers_iff {c : ClassInfo} {t : Symbol} :
    t ∈ c.supers ↔ ∃ role, c.HasRole t role := by
  rw [mem_supers]
  constructor
  · rintro (h | h)
    · exact ⟨.superclass, h⟩
    · exact ⟨.interface, h⟩
  · rintro ⟨_ | _, h⟩
    · exact .inl h
    · exact .inr h

theorem ClassInfo.SamePlace.hasRole {c d : ClassInfo} (h : c.SamePlace d) {t : Symbol}
    {role : Role} : c.HasRole t role ↔ d.HasRole t role := by
  cases role with
  | superclass => rw [HasRole, HasRole, h.superclass]
  | interface => exact h.interfaces _

/-- Two sets that place the same classes alike. -/
def PlacedAlike (s t : IdSet ClassInfo) : Prop :=
  ∀ x : ClassInfo, (∃ c ∈ s, c.SamePlace x) ↔ ∃ c ∈ t, c.SamePlace x

namespace PlacedAlike

variable {s t u : IdSet ClassInfo}

theorem refl (s : IdSet ClassInfo) : PlacedAlike s s := fun _ => Iff.rfl

theorem trans (h : PlacedAlike s t) (h' : PlacedAlike t u) : PlacedAlike s u :=
  fun x => (h x).trans (h' x)

theorem symm (h : PlacedAlike s t) : PlacedAlike t s := fun x => (h x).symm

theorem exists_samePlace (h : PlacedAlike s t) {c : ClassInfo} (hc : c ∈ s) :
    ∃ d ∈ t, d.SamePlace c := (h c).1 ⟨c, hc, .refl c⟩

/-- What is said of the place of a class is said in both sets. -/
theorem exists_iff (h : PlacedAlike s t) {P : ClassInfo → Prop}
    (hP : ∀ c d : ClassInfo, c.SamePlace d → P c → P d) : (∃ c ∈ s, P c) ↔ ∃ c ∈ t, P c := by
  have half : ∀ {s t : IdSet ClassInfo}, PlacedAlike s t → (∃ c ∈ s, P c) → ∃ c ∈ t, P c := by
    rintro s t h ⟨c, hc, hPc⟩
    obtain ⟨d, hd, hdc⟩ := h.exists_samePlace hc
    exact ⟨d, hd, hP c d hdc.symm hPc⟩
  exact ⟨half h, half h.symm⟩

theorem exists_supers (h : PlacedAlike s t) (n k : Symbol) :
    (∃ c ∈ s, c.name = n ∧ k ∈ c.supers) ↔ ∃ c ∈ t, c.name = n ∧ k ∈ c.supers :=
  h.exists_iff fun _ _ hcd hc => ⟨hcd.name.symm.trans hc.1, (hcd.mem_supers k).1 hc.2⟩

end PlacedAlike

theorem exists_mem_put_samePlace {s : IdSet ClassInfo} {a x : ClassInfo} :
    (∃ c ∈ s.put a, c.SamePlace x) ↔
      a.SamePlace x ∨ a.name ≠ x.name ∧ ∃ c ∈ s, c.SamePlace x := by
  simp only [IdSet.mem_put, ident_classInfo, or_and_right, exists_or, exists_eq_left]
  refine or_congr Iff.rfl ?_
  constructor
  · rintro ⟨c, ⟨hc, hne⟩, hx⟩
    exact ⟨fun h => hne (hx.name.trans h.symm), c, hc, hx⟩
  · rintro ⟨hne, c, hc, hx⟩
    exact ⟨c, ⟨hc, fun h => hne (h.symm.trans hx.name)⟩, hx⟩

/-- Sets of values put in one after the other are placed alike when the values are. -/
theorem placedAlike_foldl_put (g : ClassInfo → ClassInfo) (hg : ∀ c, (g c).SamePlace c)
    (l : List ClassInfo) :
    PlacedAlike ((l.map g).foldl IdSet.put .empty) (l.foldl IdSet.put .empty) := by
  induction l using List.reverseRecOn with
  | nil => exact .refl _
  | append_singleton l a ih =>
    intro x
    rw [List.map_append, List.map_singleton, List.foldl_concat, List.foldl_concat,
      exists_mem_put_samePlace, exists_mem_put_samePlace, ih x, (hg a).name]
    exact or_congr ⟨(hg a).symm.trans, (hg a).trans⟩ Iff.rfl

/-! ## Projects and graphs -/

namespace Project

/-- A declaration of `n` in the file `f` names `t` as a supertype. -/
def Extends (p : Project) (f n t : Symbol) : Prop := ∃ c ∈ p f, c.name = n ∧ t ∈ c.supers

/-- The superclass of a class is none of its interfaces. -/
def SupersApart (p : Project) : Prop := ∀ f, ∀ c ∈ p f, c.superclass ∉ c.interfaces

/-- A declaration of `s` in the file `f` names `t` in a role. -/
def HasRole (p : Project) (f s t : Symbol) (role : Role) : Prop :=
  ∃ c ∈ p f, c.name = s ∧ c.HasRole t role

/-- The class `s` names `t` in a role in which its file did not name it before. -/
def Takes (p p' : Project) (t s : Symbol) : Prop :=
  ∃ f role, p'.HasRole f s t role ∧ ¬ p.HasRole f s t role

/-- The class `s` stays in its file, and `t` has a role there no more. -/
def GivesUp (p p' : Project) (t s : Symbol) : Prop :=
  ∃ f role, p'.Declares f s ∧ p.HasRole f s t role ∧ ¬ p'.HasRole f s t role

variable {p p' : Project} {f s t : Symbol} {role role' : Role}

theorem Extends.declares (h : p.Extends f s t) : p.Declares f s := by
  obtain ⟨c, hc, rfl, -⟩ := h
  exact IdSet.has_of_mem hc

theorem extends_iff : p.Extends f s t ↔ ∃ role, p.HasRole f s t role := by
  simp only [Extends, HasRole, ClassInfo.mem_supers_iff]
  constructor
  · rintro ⟨c, hc, hname, role, hrole⟩
    exact ⟨role, c, hc, hname, hrole⟩
  · rintro ⟨role, c, hc, hname, hrole⟩
    exact ⟨c, hc, hname, role, hrole⟩

theorem HasRole.declares (h : p.HasRole f s t role) : p.Declares f s :=
  (extends_iff.2 ⟨role, h⟩).declares

/-- A role that is not taken is one that the file of the class had. -/
theorem HasRole.of_not_takes (h : p'.HasRole f s t role) (hkeeps : ¬ p.Takes p' t s) :
    p.HasRole f s t role := by
  by_contra hnew
  exact hkeeps ⟨f, role, h, hnew⟩

theorem Extends.of_not_takes (h : p'.Extends f s t) (hkeeps : ¬ p.Takes p' t s) :
    p.Extends f s t := by
  obtain ⟨role, hrole⟩ := extends_iff.1 h
  exact extends_iff.2 ⟨role, hrole.of_not_takes hkeeps⟩

theorem Takes.extends (h : p.Takes p' t s) : ∃ f, p'.Extends f s t := by
  obtain ⟨f, role, hnow, -⟩ := h
  exact ⟨f, extends_iff.2 ⟨role, hnow⟩⟩

theorem SupersApart.role_unique (h : p.SupersApart) (hrole : p.HasRole f s t role)
    (hrole' : p.HasRole f s t role') : role = role' := by
  obtain ⟨c, hc, rfl, ht⟩ := hrole
  obtain ⟨d, hd, hname, ht'⟩ := hrole'
  obtain rfl : d = c := IdSet.eq_of_ident_eq hd hc hname
  have hapart := h f d hd
  cases role <;> cases role'
  case superclass.superclass => rfl
  case interface.interface => rfl
  case superclass.interface => exact absurd (ht.symm ▸ ht') hapart
  case interface.superclass => exact absurd (ht'.symm ▸ ht) hapart

end Project

namespace Graph

/-- The recorded descriptors have the places of those of a project. -/
def Places (g : Graph) (p : Project) : Prop :=
  ∀ f, PlacedAlike (g.classesIn.valuesOf f) (p f)

/-- The subclasses of a class are the classes declared with it as a supertype. -/
def Transposes (g : Graph) (p : Project) : Prop :=
  ∀ s t, s ∈ g.subclasses.valuesOf t ↔ ∃ f, p.Extends f s t

end Graph

/-! ## The classes of a build -/

namespace Graph

theorem classesIn_records (l : List (Symbol × ClassInfo)) (f : Symbol) :
    (l.foldl (fun g x => g.record x.1 x.2) empty).classesIn.valuesOf f =
      ((l.filter fun x => x.1 = f).map (·.2)).foldl IdSet.put .empty := by
  induction l using List.reverseRecOn with
  | nil => rfl
  | append_singleton l x ih =>
    rw [List.foldl_concat, classesIn_record, Table.valuesOf_addValue, List.filter_append,
      List.map_append, List.foldl_append, ← ih]
    by_cases h : x.1 = f
    · subst h
      simp
    · simp [h]

theorem placedAlike_enterMention (g : Graph) (m : Symbol × Symbol) (f : Symbol) :
    PlacedAlike ((g.enterMention m).classesIn.valuesOf f) (g.classesIn.valuesOf f) := by
  rcases classesIn_enterMention g m with ⟨h, -⟩ | ⟨f', c, -, hc, -, d, hd, h⟩
  · rw [h]
    exact .refl _
  · rw [h, Table.valuesOf_addValue]
    by_cases hf : f' = f
    · subst hf
      rw [if_pos rfl]
      have hdc := ClassInfo.samePlace_adding? hd
      intro x
      rw [exists_mem_put_samePlace, hdc.name]
      constructor
      · rintro (hx | ⟨-, hx⟩)
        · exact ⟨c, hc, hdc.symm.trans hx⟩
        · exact hx
      · rintro ⟨e, he, hx⟩
        by_cases hname : c.name = x.name
        · obtain rfl : e = c := IdSet.eq_of_ident_eq he hc (hx.name.trans hname.symm)
          exact .inl (hdc.trans hx)
        · exact .inr ⟨hname, e, he, hx⟩
    · rw [if_neg hf]
      exact .refl _

theorem placedAlike_enterMentions (ms : List (Symbol × Symbol)) (g : Graph) (f : Symbol) :
    PlacedAlike ((ms.foldl enterMention g).classesIn.valuesOf f) (g.classesIn.valuesOf f) := by
  induction ms generalizing g with
  | nil => exact .refl _
  | cons m ms ih => exact (ih (g.enterMention m)).trans (placedAlike_enterMention g m f)

end Graph

/-- The graph of a build places its classes as the build declares them. -/
theorem Build.placedAlike_graph (t : NameTable) (b : Build) (f : Symbol) :
    PlacedAlike ((b.graph t).classesIn.valuesOf f) (b.declared t f) := by
  rw [graph, (Graph.addFiles_frame _ _).2.2.1]
  apply (Graph.placedAlike_enterMentions _ _ f).trans
  rw [Graph.classesIn_records, declared]
  have h := placedAlike_foldl_put (·.withMentions (b.mentions t))
    (ClassInfo.samePlace_withMentions _) (((b.classes t).filter fun x => x.1 = f).map (·.2))
  rw [List.map_map] at h
  exact h.symm

/-! ## A class that stays in its file -/

namespace ClassEvent

variable {main round : Graph} {file : Symbol}

/-- A class that is recorded and compiled, and of which no change is told, has the same
place as before. -/
theorem samePlace_of_not_changed {past now : ClassInfo}
    (hpast : past ∈ main.classesIn.valuesOf file) (hnow : now ∈ round.classesIn.valuesOf file)
    (hname : past.name = now.name)
    (hno : .changed ⟨past, now, .between past now⟩ ∉ ofFile main round file) :
    past.SamePlace now := by
  have he : (ClassChange.between past now).isEmpty = true := by
    by_contra hne
    exact hno (mem_ofFile_changed.2 ⟨hpast, hnow, hname, rfl, by simpa using hne⟩)
  simp only [ClassChange.isEmpty, Revision.isEmpty, ClassChange.between, Bool.and_eq_true,
    Bool.not_eq_true', Bool.or_eq_false_iff, decide_eq_false_iff_not, not_not] at he
  have hsame : (Patch.ofMembers past.interfaces now.interfaces).isEmpty = true := he.1.1.1.1.2
  simp only [Patch.isEmpty, Bool.and_eq_true, List.isEmpty_iff] at hsame
  refine ⟨hname, he.1.1.1.1.1.1.2, fun r => ⟨fun hr => ?_, fun hr => ?_⟩⟩
  · by_contra hgone
    have hmem := mem_ofMembers_removed.2 ⟨hr, hgone⟩
    rw [hsame.1.2] at hmem
    simp at hmem
  · by_contra hnew
    have hmem := mem_ofMembers_added.2 ⟨hr, hnew⟩
    rw [hsame.1.1] at hmem
    simp at hmem

variable {past now : ClassInfo} {t : Symbol}

/-- A change gains the supertypes that have a new role. -/
theorem gains_changed_iff : (changed ⟨past, now, .between past now⟩).Gains t ↔
    ∃ role, now.HasRole t role ∧ ¬ past.HasRole t role := by
  simp only [Gains, ClassChange.between, mem_ofMembers_added, decide_eq_true_eq]
  constructor
  · rintro (⟨hne, hnow⟩ | h)
    · exact ⟨.superclass, hnow, fun hpast => hne (hpast.trans hnow.symm)⟩
    · exact ⟨.interface, h⟩
  · rintro ⟨_ | _, hnow, hpast⟩
    · exact .inl ⟨fun h => hpast (h.trans hnow), hnow⟩
    · exact .inr ⟨hnow, hpast⟩

/-- A change loses what the change back gains: the supertypes that have a role no more. -/
theorem loses_changed_iff : (changed ⟨past, now, .between past now⟩).Loses t ↔
    ∃ role, past.HasRole t role ∧ ¬ now.HasRole t role := by
  rw [← gains_changed_iff]
  simp only [Loses, Gains, ClassChange.between, mem_ofMembers_added, mem_ofMembers_removed,
    decide_eq_true_eq, ne_comm]

end ClassEvent

/-! ## The subclass table -/

namespace Round

/-- A round that turns the recorded project `p`, with the places of its classes, into
`p'`. -/
structure Situates (names : NameTable) (main : Graph) (r : Round) (p p' : Project) : Prop
    extends r.Turns names main p p' where
  places : main.Places p
  compiled : ∀ f, r.graph.classesIn.has f = true →
    PlacedAlike (r.graph.classesIn.valuesOf f) (p' f)

/-- Such a round of a project in which no superclass is an interface of its class. -/
structure Rehangs (names : NameTable) (main : Graph) (r : Round) (p p' : Project) : Prop
    extends r.Situates names main p p' where
  apart : p.SupersApart

/-- A class that moved out of a compiled file into another one, and was under `t` before,
which is still declared if it was. -/
def StaysBehind (compiled : Symbol → Prop) (p p' : Project) (s t : Symbol) : Prop :=
  ∃ f g, f ≠ g ∧ compiled f ∧ p.Extends f s t ∧ p'.Declares g s ∧
    ((∃ h, p.Declares h t) → ∃ h, p'.Declares h t)

namespace Situates

variable {names : NameTable} {main : Graph} {r : Round} {p p' : Project} {f s t : Symbol}
  {role : Role}

theorem extends_recorded (h : r.Situates names main p p') :
    p.Extends f s t ↔ ∃ c ∈ main.classesIn.valuesOf f, c.name = s ∧ t ∈ c.supers :=
  ((h.places f).exists_supers s t).symm

theorem declares_recorded (h : r.Situates names main p p') {c : ClassInfo}
    (hc : c ∈ main.classesIn.valuesOf f) : p.Declares f c.name :=
  (h.records.classesIn f c.name).1 (IdSet.has_of_mem hc)

theorem declares_compiled (h : r.Situates names main p p') {c : ClassInfo}
    (hc : c ∈ r.graph.classesIn.valuesOf f) : p'.Declares f c.name :=
  ((h.holds.classesIn f c.name).1 (IdSet.has_of_mem hc)).2

theorem hasRole_recorded (h : r.Situates names main p p') {c : ClassInfo}
    (hc : c ∈ main.classesIn.valuesOf f) : p.HasRole f c.name t role ↔ c.HasRole t role := by
  rw [Project.HasRole, ← (h.places f).exists_iff fun _ _ hcd hd =>
    ⟨hcd.name.symm.trans hd.1, hcd.hasRole.1 hd.2⟩]
  exact ClassInfo.exists_named_iff hc

theorem hasRole_compiled (h : r.Situates names main p p') (hf : r.graph.classesIn.has f = true)
    {c : ClassInfo} (hc : c ∈ r.graph.classesIn.valuesOf f) :
    p'.HasRole f c.name t role ↔ c.HasRole t role := by
  rw [Project.HasRole, ← (h.compiled f hf).exists_iff fun _ _ hcd hd =>
    ⟨hcd.name.symm.trans hd.1, hcd.hasRole.1 hd.2⟩]
  exact ClassInfo.exists_named_iff hc

/-- A file that declares a class, and gives some supertype of it another role, was compiled. -/
theorem compiled_of_roles (h : r.Situates names main p p') (hs : p'.Declares f s)
    (hne : ¬ (p'.HasRole f s t role ↔ p.HasRole f s t role)) :
    r.graph.classesIn.has f = true := by
  by_contra hf
  have hr : f ∉ Merge.knownFiles names r.removedFiles := fun hr => h.not_declares_removed hr s hs
  refine hne ?_
  rw [Project.HasRole, h.kept f (by simpa using hf) hr, Project.HasRole]

/-! ### What the log notes -/

/-- A change that is told of a class is between the two declarations in its file. -/
theorem roles_of_changed (h : r.Situates names main p p') (hf : r.graph.classesIn.has f = true)
    {past now : ClassInfo} {diff : ClassChange}
    (he : .changed ⟨past, now, diff⟩ ∈ ClassEvent.ofFile main r.graph f) :
    diff = .between past now ∧ p'.Declares f past.name ∧
      (∀ t role, p.HasRole f past.name t role ↔ past.HasRole t role) ∧
      ∀ t role, p'.HasRole f past.name t role ↔ now.HasRole t role := by
  obtain ⟨hpast, hnow, hsame, hdiff, -⟩ := ClassEvent.mem_ofFile_changed.1 he
  have hsame : past.name = now.name := hsame
  refine ⟨hdiff, ?_, fun t role => h.hasRole_recorded hpast, fun t role => ?_⟩
  · rw [hsame]
    exact h.declares_compiled hnow
  · rw [hsame]
    exact h.hasRole_compiled hf hnow

/-- A change is told of a class that stays in its file and has a supertype in another role. -/
theorem changed_of_roles (h : r.Situates names main p p') (hold : p.Declares f s)
    (hnew : p'.Declares f s) (hne : ¬ (p'.HasRole f s t role ↔ p.HasRole f s t role)) :
    ∃ past now, .changed ⟨past, now, .between past now⟩ ∈ ClassEvent.ofFile main r.graph f ∧
      past.name = s := by
  have hf := h.compiled_of_roles hnew hne
  obtain ⟨past, hpast, hpastName⟩ := IdSet.has_iff_mem.1 ((h.records.classesIn f s).2 hold)
  obtain ⟨now, hnow, hnowName⟩ := IdSet.has_iff_mem.1 ((h.holds.classesIn f s).2 ⟨hf, hnew⟩)
  have hpastName : past.name = s := hpastName
  have hnowName : now.name = s := hnowName
  refine ⟨past, now, ?_, hpastName⟩
  by_contra hno
  have hplace := ClassEvent.samePlace_of_not_changed hpast hnow
    (hpastName.trans hnowName.symm) hno
  have hpastRole : p.HasRole f s t role ↔ past.HasRole t role :=
    hpastName ▸ h.hasRole_recorded hpast
  have hnowRole : p'.HasRole f s t role ↔ now.HasRole t role :=
    hnowName ▸ h.hasRole_compiled hf hnow
  exact hne (hnowRole.trans (hplace.hasRole.symm.trans hpastRole.symm))

/-- **The gains in the log** are the supertypes that classes take. -/
theorem mem_addedSupers_iff (h : r.Situates names main p p') :
    s ∈ r.log.addedSupers.valuesOf t ↔ p.Takes p' t s := by
  rw [h.noted, mem_addedSupers_noteRound]
  constructor
  · rintro ⟨f, hf, e, he, hgain, rfl⟩
    cases e with
    | changed change =>
      obtain ⟨past, now, diff⟩ := change
      obtain ⟨rfl, -, hpast, hnow⟩ := h.roles_of_changed hf he
      obtain ⟨role, hrole, hold⟩ := ClassEvent.gains_changed_iff.1 hgain
      exact ⟨f, role, (hnow t role).2 hrole, mt (hpast t role).1 hold⟩
    | removed c => exact hgain.elim
    | added c =>
      obtain ⟨hc, hnew⟩ := ClassEvent.mem_ofFile_added.1 he
      obtain ⟨role, hrole⟩ := ClassInfo.mem_supers_iff.1 hgain
      refine ⟨f, role, (h.hasRole_compiled hf hc).2 hrole, fun hold => ?_⟩
      rw [← Bool.not_eq_true, h.records.classesIn] at hnew
      exact hnew hold.declares
  · rintro ⟨f, role, hrole, hold⟩
    have hne := fun hiff => hold (Iff.mp hiff hrole)
    have hf := h.compiled_of_roles hrole.declares hne
    by_cases hdeclared : p.Declares f s
    · obtain ⟨past, now, he, rfl⟩ := h.changed_of_roles hdeclared hrole.declares hne
      obtain ⟨-, -, hpast, hnow⟩ := h.roles_of_changed hf he
      have hgain := ClassEvent.gains_changed_iff.2
        ⟨role, (hnow t role).1 hrole, mt (hpast t role).2 hold⟩
      exact ⟨f, hf, _, he, hgain, rfl⟩
    · obtain ⟨now, hnow, rfl⟩ :=
        IdSet.has_iff_mem.1 ((h.holds.classesIn f s).2 ⟨hf, hrole.declares⟩)
      refine ⟨f, hf, .added now, ClassEvent.mem_ofFile_added.2 ⟨hnow, ?_⟩,
        ClassInfo.mem_supers_iff.2 ⟨role, (h.hasRole_compiled hf hnow).1 hrole⟩, rfl⟩
      rw [← Bool.not_eq_true, h.records.classesIn]
      exact hdeclared

/-- **The losses in the log** are the supertypes that classes give up. -/
theorem mem_removedSupers_iff (h : r.Situates names main p p') :
    s ∈ r.log.removedSupers.valuesOf t ↔ p.GivesUp p' t s := by
  rw [h.noted, mem_removedSupers_noteRound]
  constructor
  · rintro ⟨f, hf, e, he, hlose, rfl⟩
    cases e with
    | changed change =>
      obtain ⟨past, now, diff⟩ := change
      obtain ⟨rfl, hdeclared, hpast, hnow⟩ := h.roles_of_changed hf he
      obtain ⟨role, hold, hrole⟩ := ClassEvent.loses_changed_iff.1 hlose
      exact ⟨f, role, hdeclared, (hpast t role).2 hold, mt (hnow t role).1 hrole⟩
    | removed c => exact hlose.elim
    | added c => exact hlose.elim
  · rintro ⟨f, role, hdeclared, hold, hno⟩
    have hne := fun hiff => hno (Iff.mpr hiff hold)
    have hf := h.compiled_of_roles hdeclared hne
    obtain ⟨past, now, he, rfl⟩ := h.changed_of_roles hold.declares hdeclared hne
    obtain ⟨-, -, hpast, hnow⟩ := h.roles_of_changed hf he
    have hlose := ClassEvent.loses_changed_iff.2
      ⟨role, (hpast t role).1 hold, mt (hnow t role).2 hno⟩
    exact ⟨f, hf, _, he, hlose, rfl⟩

/-- The losses of a class that was declared in a file. -/
theorem parted_iff (h : r.Situates names main p p') (hold : p.Declares f s) :
    r.Parted names main t s ↔
      p.GivesUp p' t s ∨
        p.Extends f s t ∧ (f ∈ Merge.knownFiles names r.removedFiles ∨
          r.graph.classesIn.has f = true ∧ ∀ g, r.graph.classesIn.has g = true →
            ¬ p'.Declares g s) := by
  rw [← h.mem_removedSupers_iff]
  constructor
  · rintro (hs | ⟨hg, hc, rfl, ht⟩ | ⟨hc, rfl, ht⟩)
    · exact .inl hs
    · rename_i g c
      obtain rfl := h.records.oneFile g f c.name (h.declares_recorded hc) hold
      exact .inr ⟨h.extends_recorded.2 ⟨c, hc, rfl, ht⟩, .inl hg⟩
    · rename_i c
      have hgone := h.deleted_iff.1 (IdSet.has_of_mem hc)
      rw [h.noted] at hc
      obtain ⟨g, hg, hcg, -⟩ := of_mem_deletedClasses_noteRound hc
      obtain rfl := h.records.oneFile g f c.name (h.declares_recorded hcg) hold
      exact .inr ⟨h.extends_recorded.2 ⟨c, hcg, rfl, ht⟩, .inr ⟨hg, hgone.1⟩⟩
  · rintro (hs | ⟨ht, hf | ⟨hf, hgone⟩⟩)
    · exact .changed hs
    · obtain ⟨c, hc, rfl, hsuper⟩ := h.extends_recorded.1 ht
      exact .removed hf hc rfl hsuper
    · obtain ⟨c, hc, rfl, hsuper⟩ := h.extends_recorded.1 ht
      have hdeleted := h.deleted_iff.2 ⟨hgone, f, hf, hold⟩
      obtain ⟨d, hd, hname⟩ := IdSet.has_iff_mem.1 hdeleted
      -- the deleted descriptor is the one recorded for the class
      have hnoted := hd
      rw [h.noted] at hnoted
      obtain ⟨g, -, hdg, -⟩ := of_mem_deletedClasses_noteRound hnoted
      obtain rfl : g = f :=
        h.records.oneFile g f c.name (hname ▸ h.declares_recorded hdg) hold
      obtain rfl : d = c := IdSet.eq_of_ident_eq hdg hc hname
      exact .deleted hd rfl hsuper

/-- A class that a round leaves under a supertype, or puts there. -/
theorem mem_subclasses_iff (h : r.Situates names main p p') (hext : p'.Extends f s t) :
    s ∈ (main.mergeRound names r).subclasses.valuesOf t ↔
      p.Takes p' t s ∨
        s ∈ main.subclasses.valuesOf t ∧ ¬ (p.Drops p' t ∨ p.GivesUp p' t s) := by
  rw [Graph.mem_subclasses_mergeRound h.updates, h.drops_iff_dropped, h.mem_addedSupers_iff,
    or_comm]
  by_cases htakes : p.Takes p' t s
  · simp [htakes]
  · -- what the class has now it had in the same file, so it parts by giving up only
    have hold := hext.of_not_takes htakes
    have hparted : r.Parted names main t s ↔ p.GivesUp p' t s := by
      rw [h.parted_iff hold.declares]
      refine or_iff_left ?_
      rintro ⟨-, hr | ⟨hf, hgone⟩⟩
      · exact h.not_declares_removed hr s hext.declares
      · exact hgone f hf hext.declares
    rw [hparted]
    tauto

/-- Nothing parts a class that moves between compiled files from what it was under. -/
theorem not_parted_of_moved (h : r.Situates names main p p') {g : Symbol} (hfg : f ≠ g)
    (hc : r.graph.classesIn.has f = true) (hf : p.Extends f s t) (hg : p'.Declares g s) :
    ¬ r.Parted names main t s := by
  have hcg : r.graph.classesIn.has g = true := by
    by_contra hcg
    have hr : g ∉ Merge.knownFiles names r.removedFiles := fun hr =>
      h.not_declares_removed hr s hg
    have hpg := (h.declares_kept (by simpa using hcg) hr s).1 hg
    exact hfg (h.records.oneFile f g s hf.declares hpg)
  rw [h.parted_iff hf.declares]
  rintro (hs | ⟨-, hr | ⟨-, hgone⟩⟩)
  · obtain ⟨k, role, hnow, hold, -⟩ := hs
    have hkf := h.records.oneFile k f s hold.declares hf.declares
    exact hfg (hkf.symm.trans (h.oneFile k g s hnow hg))
  · exact absurd hc (by simp [h.disjoint f hr])
  · exact hgone g hcg hg

/-- A class that keeps a supertype as it was gives up none of its roles, if no superclass was
an interface. -/
theorem not_givesUp_of_extends (h : r.Situates names main p p') (hapart : p.SupersApart)
    (hf : p'.Extends f s t) (hkeeps : ¬ p.Takes p' t s) : ¬ p.GivesUp p' t s := by
  rintro ⟨g, role, hdeclares, hold, hno⟩
  obtain rfl := h.oneFile g f s hdeclares hf.declares
  obtain ⟨role', hnow⟩ := Project.extends_iff.1 hf
  obtain rfl := hapart.role_unique hold (hnow.of_not_takes hkeeps)
  exact hno hnow

/-- A class that nothing parts from a supertype is declared with it, or was left behind when
it moved. -/
theorem extends_or_staysBehind (h : r.Situates names main p p') (hf : p.Extends f s t)
    (hstay : ¬ r.Drops names main t) (hkept : ¬ r.Parted names main t s) :
    (∃ g, p'.Extends g s t) ∨ StaysBehind (r.graph.classesIn.has · = true) p p' s t := by
  rw [h.parted_iff hf.declares] at hkept
  push Not at hkept
  obtain ⟨hkeeps, hleft⟩ := hkept
  obtain ⟨hr, hdeleted⟩ := hleft hf
  by_cases hnew : p'.Declares f s
  · obtain ⟨role, hrole⟩ := Project.extends_iff.1 hf
    refine .inl ⟨f, Project.extends_iff.2 ⟨role, ?_⟩⟩
    by_contra hno
    exact hkeeps ⟨f, role, hnew, hrole, hno⟩
  · have hc : r.graph.classesIn.has f = true := by
      by_contra hc
      exact hnew ((h.declares_kept (by simpa using hc) hr s).2 hf.declares)
    -- not deleted, so another compiled file has it
    obtain ⟨g, -, hg⟩ := hdeleted hc
    refine .inr ⟨f, g, fun hfg => hnew (hfg ▸ hg), hc, hf, hg, fun hold => ?_⟩
    by_contra hno
    exact hstay (h.drops_iff_dropped.2 ⟨hold, hno⟩)

/-! ### The places -/

/-- A compiled file that is not noted as changed places its classes as before. -/
theorem placedAlike_of_unchanged (h : r.Situates names main p p')
    (hc : r.graph.classesIn.has f = true) (hf : f ∉ r.log.changedFiles) :
    PlacedAlike (main.classesIn.valuesOf f) (r.graph.classesIn.valuesOf f) := by
  have hsame : ∀ past ∈ main.classesIn.valuesOf f, ∀ now ∈ r.graph.classesIn.valuesOf f,
      past.name = now.name → past.SamePlace now := by
    intro past hpast now hnow hname
    refine ClassEvent.samePlace_of_not_changed hpast hnow hname fun hmem => hf ?_
    rw [h.noted, mem_changedFiles_noteRound]
    have hfile : r.graph.fileOf.get? past.name = some f :=
      (h.holds.fileOf _ _).2 ⟨hc, hname ▸ h.declares_compiled hnow⟩
    exact ⟨f, hc, _, hmem, hfile⟩
  intro x
  constructor
  · rintro ⟨past, hpast, hx⟩
    have hdeclares := (h.declares_of_unchanged hc hf past.name).2 (h.declares_recorded hpast)
    obtain ⟨now, hnow, hname⟩ := IdSet.has_iff_mem.1
      ((h.holds.classesIn f past.name).2 ⟨hc, hdeclares⟩)
    exact ⟨now, hnow, (hsame past hpast now hnow hname.symm).symm.trans hx⟩
  · rintro ⟨now, hnow, hx⟩
    have hdeclares := (h.declares_of_unchanged hc hf now.name).1 (h.declares_compiled hnow)
    obtain ⟨past, hpast, hname⟩ := IdSet.has_iff_mem.1
      ((h.records.classesIn f now.name).2 hdeclares)
    exact ⟨past, hpast, (hsame past hpast now hnow hname).trans hx⟩

/-- The merged graph has the places of the project after the round. -/
theorem places_merged (h : r.Situates names main p p') : (main.mergeRound names r).Places p' := by
  intro f x
  rw [Graph.exists_mem_classesIn_mergeRound h.updates]
  by_cases hf : f ∈ r.log.changedFiles
  · simpa [hf] using h.compiled f (h.compiled_of_changedFile hf) x
  · simp only [hf, false_and, not_false_eq_true, true_and, false_or]
    by_cases hc : r.graph.classesIn.has f = true
    · have hr : f ∉ Merge.knownFiles names r.removedFiles := fun hr => by
        simp [h.disjoint f hr] at hc
      rw [and_iff_left hr, ← h.compiled f hc x]
      exact h.placedAlike_of_unchanged hc hf x
    · by_cases hr : f ∈ Merge.knownFiles names r.removedFiles
      · simp [hr, h.removed f hr]
      · rw [and_iff_left hr, h.kept f (by simpa using hc) hr]
        exact h.places f x

end Situates

namespace Rehangs

variable {names : NameTable} {main : Graph} {r : Round} {p p' : Project} {f s t : Symbol}

/-- **The subclass table after a round**: the classes declared with a supertype, and those
that stay behind under one when they move between compiled files. -/
theorem mem_subclasses_merged (h : r.Rehangs names main p p') (htrans : main.Transposes p)
    (hnamed : ∀ f s t, p'.Extends f s t → (∃ g, p.Declares g t) → ∃ g, p'.Declares g t) :
    s ∈ (main.mergeRound names r).subclasses.valuesOf t ↔
      (∃ f, p'.Extends f s t) ∨ StaysBehind (r.graph.classesIn.has · = true) p p' s t := by
  -- a class that was declared is dropped unless it is declared still
  have hdrops : ((∃ g, p.Declares g t) → ∃ g, p'.Declares g t) → ¬ p.Drops p' t :=
    fun hstill hdropped => hdropped.2 (hstill hdropped.1)
  constructor
  · rw [Graph.mem_subclasses_mergeRound h.updates, htrans, h.mem_addedSupers_iff]
    rintro (⟨⟨⟨f, hf⟩, hstay⟩, hkept⟩ | htakes)
    · exact h.extends_or_staysBehind hf hstay hkept
    · exact .inl htakes.extends
  · rintro (⟨f, hf⟩ | ⟨f, g, hfg, hc, hf, hg, hstill⟩)
    · rw [h.mem_subclasses_iff hf, or_iff_not_imp_left]
      intro hkeeps
      refine ⟨(htrans s t).2 ⟨f, hf.of_not_takes hkeeps⟩, not_or.2 ⟨?_, ?_⟩⟩
      · exact hdrops (hnamed f s t hf)
      · exact h.not_givesUp_of_extends h.apart hf hkeeps
    · rw [Graph.mem_subclasses_mergeRound h.updates, htrans, h.drops_iff_dropped]
      exact .inl ⟨⟨⟨f, hf⟩, hdrops hstill⟩, h.not_parted_of_moved hfg hc hf hg⟩

end Rehangs

end Round

/-! ## Builds -/

/-- A compared build carries the places of what it declares. -/
theorem Build.situates_compared {t : NameTable} {main : Graph} {p : Project} {b : Build}
    (hrec : main.Records p) (hplaces : main.Places p)
    (hdisj : ∀ f ∈ Merge.knownFiles t b.files, f ∉ Merge.knownFiles t b.removed)
    (hone : (p.after t b).OneFile) :
    (b.comparedRound t main).Situates t main p (p.after t b) := by
  refine { turns_compared hrec hdisj hone with places := hplaces, compiled := ?_ }
  intro f hf
  have hf : f ∈ Merge.knownFiles t b.files := keys_graph.1 hf
  rw [Project.after, if_pos hf]
  exact placedAlike_graph t b f

/-- The round of a build with the places of what it declares. -/
theorem Build.rehangs {names names' : NameTable} {main : Graph} {p : Project} {b : Build}
    {r : Round} (hrec : main.Records p) (hplaces : main.Places p) (hapart : p.SupersApart)
    (hdisj : ∀ f ∈ Merge.knownFiles names' b.files, f ∉ Merge.knownFiles names' b.removed)
    (hcmp : (b.round names).2.Bounded (b.round names).1 main b.removed b.files names' r)
    (hone : (p.after names' b).OneFile) : r.Rehangs names' main p (p.after names' b) := by
  obtain ⟨-, rfl⟩ := bounded_round hcmp
  exact { situates_compared hrec hplaces hdisj hone with apart := hapart }

/-- **Subclass edges after a merge**: where the subclass table transposes the recorded
project, the merged one holds the edges of the project after the build, and those of classes
that stay behind when they move from one compiled file to another.  It transposes that
project exactly when every class that stays behind still has the supertype. -/
theorem Graph.subclasses_integrate {names names' : NameTable} {main : Graph} {p : Project}
    {b : Build} {r : Round} (hrec : main.Records p) (hplaces : main.Places p)
    (hapart : p.SupersApart) (htrans : main.Transposes p)
    (hdisj : ∀ f ∈ Merge.knownFiles names' b.files, f ∉ Merge.knownFiles names' b.removed)
    (hcmp : (b.round names).2.Bounded (b.round names).1 main b.removed b.files names' r)
    (hone : (p.after names' b).OneFile)
    (hnamed : ∀ f s t, (p.after names' b).Extends f s t → (∃ g, p.Declares g t) →
      ∃ g, (p.after names' b).Declares g t) :
    ∃ main', main.integrate names' r = .ok (names', main') ∧
      main'.Records (p.after names' b) ∧ main'.Places (p.after names' b) ∧
      (∀ s t, s ∈ main'.subclasses.valuesOf t ↔ (∃ f, (p.after names' b).Extends f s t) ∨
        Round.StaysBehind (· ∈ Merge.knownFiles names' b.files) p (p.after names' b) s t) ∧
      (main'.Transposes (p.after names' b) ↔ ∀ s t,
        Round.StaysBehind (· ∈ Merge.knownFiles names' b.files) p (p.after names' b) s t →
          ∃ f, (p.after names' b).Extends f s t) := by
  have h := Build.rehangs hrec hplaces hapart hdisj hcmp hone
  have hcompiled : (fun f => r.graph.classesIn.has f = true) =
      (· ∈ Merge.knownFiles names' b.files) := by
    obtain ⟨-, rfl⟩ := Build.bounded_round hcmp
    exact funext fun f => propext Build.keys_graph
  have htable := fun s t => h.mem_subclasses_merged (s := s) (t := t) htrans hnamed
  rw [hcompiled] at htable
  refine ⟨_, hcmp.integrate, h.records_merged, h.places_merged, htable, ?_⟩
  rw [Graph.Transposes]
  exact forall₂_congr fun s t => by rw [htable s t, or_iff_left_iff_imp]

/-! ## A class that moves and gets another superclass

A class leaves its file for another one, and extends another class from then on.  Both
files are compiled in one round.  The class is found under both superclasses afterwards. -/

namespace Reparented

/-- The names of the example, with numbers from one on. -/
def names : NameTable :=
  NameTable.new.internAll ["p/X", "A.java", "B.java", "p/X.class", "p/Base", "p/Other",
    "java/lang/Object", "<init>"]

/-- The class of the example, with some superclass. -/
def info (superclass : Symbol) : ClassInfo :=
  .plain ⟨1⟩ (.ofFlags [.pub]) (.named superclass)

def main : Graph := Graph.empty.record ⟨2⟩ (info ⟨5⟩)
def project : Project := fun f => if f = ⟨2⟩ then .single (info ⟨5⟩) else .empty

/-- The class is found in the second file, and the first one is empty. -/
def build : Build where
  outputs := [⟨"B.java", "p/X.class", some (info ⟨6⟩)⟩]
  imports := []
  files := [⟨"A.java"⟩, ⟨"B.java"⟩]
  removed := []
  covered := by simp

def compared : NameTable × Round :=
  (build.round names).2.compareEasily (build.round names).1 main build.removed build.files

theorem classesIn_main (f : Symbol) : main.classesIn.valuesOf f = project f := by
  simp only [main, Graph.classesIn_record, Table.valuesOf_addValue, project]
  by_cases h : f = ⟨2⟩
  · subst h
    rfl
  · simp [h, Ne.symm h, Graph.empty]

theorem mem_project {f : Symbol} {c : ClassInfo} (h : c ∈ project f) : f = ⟨2⟩ ∧ c = info ⟨5⟩ := by
  rw [project] at h
  split at h
  · rename_i hf
    exact ⟨hf, IdSet.mem_single.1 h⟩
  · simp at h

theorem declares_project {f n : Symbol} : project.Declares f n ↔ f = ⟨2⟩ ∧ n = ⟨1⟩ := by
  rw [Project.Declares, project]
  by_cases h : f = ⟨2⟩
  · simpa [h, info, ClassInfo.plain, ident_classInfo] using eq_comm
  · simp [h]

theorem records_main : main.Records project where
  fileOf n f := by
    rw [declares_project, main, Graph.fileOf_record]
    by_cases h : n = ⟨1⟩
    · subst h
      simpa [info, ClassInfo.plain] using eq_comm
    · simp [info, ClassInfo.plain, h, Ne.symm h, Graph.empty]
  classesIn f n := by rw [classesIn_main, Project.Declares]

theorem places_main : main.Places project := fun f => classesIn_main f ▸ .refl _

theorem apart_project : project.SupersApart := by
  intro f c hc
  obtain ⟨-, rfl⟩ := mem_project hc
  simp [info, ClassInfo.plain]

theorem extends_project {f s t : Symbol} : project.Extends f s t ↔ f = ⟨2⟩ ∧ s = ⟨1⟩ ∧ t = ⟨5⟩ := by
  constructor
  · rintro ⟨c, hc, rfl, ht⟩
    obtain ⟨rfl, rfl⟩ := mem_project hc
    exact ⟨rfl, rfl, List.mem_singleton.1 ht⟩
  · rintro ⟨rfl, rfl, rfl⟩
    exact ⟨info ⟨5⟩, IdSet.mem_single.2 rfl, rfl, List.mem_singleton.2 rfl⟩

theorem transposes_main : main.Transposes project := by
  intro s t
  simp only [extends_project, exists_eq_left]
  show s ∈ (List.foldl _ _ _ : SetTable Symbol).valuesOf t ↔ _
  rw [Table.mem_foldl_addValue, ClassInfo.mem_supers]
  simp [Graph.empty, info, ClassInfo.plain, and_comm, eq_comm]

theorem files_known : Merge.knownFiles compared.1 build.files = [⟨2⟩, ⟨3⟩] := rfl
theorem removed_known : Merge.knownFiles compared.1 build.removed = [] := rfl

theorem mem_after {f : Symbol} {c : ClassInfo} (h : c ∈ project.after compared.1 build f) :
    f = ⟨3⟩ ∧ c = { info ⟨6⟩ with classFile := ⟨4⟩ } := by
  have hclasses : build.classes compared.1 = [(⟨3⟩, { info ⟨6⟩ with classFile := ⟨4⟩ })] := rfl
  rw [Project.after, files_known, removed_known] at h
  by_cases h₃ : f = ⟨3⟩
  · subst h₃
    exact ⟨rfl, IdSet.mem_single.1 h⟩
  · by_cases h₂ : f = ⟨2⟩
    · subst h₂
      exact absurd h (by simp [Build.declared, hclasses])
    · simp [project, h₂, h₃] at h

theorem oneFile_after : (project.after compared.1 build).OneFile := by
  intro f g n hf hg
  obtain ⟨c, hc, -⟩ := IdSet.has_iff_mem.1 hf
  obtain ⟨d, hd, -⟩ := IdSet.has_iff_mem.1 hg
  rw [(mem_after hc).1, (mem_after hd).1]

theorem extends_after {f s t : Symbol} (h : (project.after compared.1 build).Extends f s t) :
    f = ⟨3⟩ ∧ s = ⟨1⟩ ∧ t = ⟨6⟩ := by
  obtain ⟨c, hc, rfl, ht⟩ := h
  obtain ⟨rfl, rfl⟩ := mem_after hc
  exact ⟨rfl, rfl, List.mem_singleton.1 ht⟩

theorem named_after {f s t : Symbol} (h : (project.after compared.1 build).Extends f s t)
    (ht : ∃ g, project.Declares g t) : ∃ g, (project.after compared.1 build).Declares g t := by
  obtain ⟨g, hg⟩ := ht
  obtain ⟨-, -, rfl⟩ := extends_after h
  simp [declares_project] at hg

theorem disjoint : ∀ f ∈ Merge.knownFiles compared.1 build.files,
    f ∉ Merge.knownFiles compared.1 build.removed := by
  simp [removed_known]

theorem bounded :
    (build.round names).2.Bounded (build.round names).1 main build.removed build.files
      compared.1 compared.2 :=
  .easily (rfl : compared = (compared.1, compared.2))

/-- The edges of the example after the merge. -/
theorem subclasses_reparented :
    ∃ main', main.integrate compared.1 compared.2 = .ok (compared.1, main') ∧
      main'.Records (project.after compared.1 build) ∧
      main'.Places (project.after compared.1 build) ∧
      (∀ s t, s ∈ main'.subclasses.valuesOf t ↔
        (∃ f, (project.after compared.1 build).Extends f s t) ∨
        Round.StaysBehind (· ∈ Merge.knownFiles compared.1 build.files) project
          (project.after compared.1 build) s t) ∧
      (main'.Transposes (project.after compared.1 build) ↔ ∀ s t,
        Round.StaysBehind (· ∈ Merge.knownFiles compared.1 build.files) project
          (project.after compared.1 build) s t →
          ∃ f, (project.after compared.1 build).Extends f s t) :=
  Graph.subclasses_integrate records_main places_main apart_project transposes_main disjoint
    bounded oneFile_after fun _ _ _ => named_after

/-- The class is still found under the superclass that it no longer has. -/
theorem not_transposed :
    (main.Records project ∧ main.Places project ∧ project.SupersApart ∧
      main.Transposes project) ∧
    (∀ f ∈ Merge.knownFiles compared.1 build.files,
      f ∉ Merge.knownFiles compared.1 build.removed) ∧
    (build.round names).2.Bounded (build.round names).1 main build.removed build.files
      compared.1 compared.2 ∧
    (project.after compared.1 build).OneFile ∧
    (∀ f s t, (project.after compared.1 build).Extends f s t → (∃ g, project.Declares g t) →
      ∃ g, (project.after compared.1 build).Declares g t) ∧
    ∃ main', main.integrate compared.1 compared.2 = .ok (compared.1, main') ∧
      ¬ main'.Transposes (project.after compared.1 build) := by
  refine ⟨⟨records_main, places_main, apart_project, transposes_main⟩, disjoint, bounded,
    oneFile_after, fun _ _ _ => named_after, _, rfl, fun h => ?_⟩
  have hstale : (⟨1⟩ : Symbol) ∈
      (main.mergeRound compared.1 compared.2).subclasses.valuesOf ⟨5⟩ :=
    IdSet.contains_iff.1 (by decide)
  obtain ⟨f, hf⟩ := (h ⟨1⟩ ⟨5⟩).1 hstale
  have hsuper := (extends_after hf).2.2
  simp at hsuper

end Reparented

end ClassImpact

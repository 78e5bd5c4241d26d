import Mathlib
import ClassImpact.Proofs.Histories

/-!
# Links to supertypes

A class is found under its supertypes through the subclass table.  A compiled class has all of
its links in the graph of its round; they come into the table through the log, which notes
the supertypes that a class takes in a role it did not have them in.

So a class that is compiled as it was before brings no link.  Where the supertype was deleted
in between, its links were erased with it, and the class stays unhung: compiled again or not,
it is not found under the supertype until it takes that one anew.

## Main results

* `Graph.Led.linksUnless`: the links of a graph along its history
* `Graph.linked_integrate`: the links of a round after its merge
-/

namespace ClassImpact

/-! ## The links of a build -/

namespace Graph

variable {l : List (Symbol × ClassInfo)} {s u : Symbol}

theorem mem_subclasses_records :
    s ∈ (l.foldl (fun g x => g.record x.1 x.2) empty).subclasses.valuesOf u ↔
      ∃ x ∈ l, x.2.name = s ∧ u ∈ x.2.supers := by
  induction l using List.reverseRecOn with
  | nil => simp [empty]
  | append_singleton l x ih =>
    rw [List.foldl_concat]
    show s ∈ (List.foldl _ _ _ : SetTable Symbol).valuesOf u ↔ _
    rw [Table.mem_foldl_addValue, ih]
    simp only [List.mem_append, List.mem_singleton, or_and_right, exists_or, exists_eq_left,
      and_comm (a := u ∈ x.2.supers), eq_comm (a := s)]

theorem subclasses_enterMentions (ms : List (Symbol × Symbol)) (g : Graph) :
    (ms.foldl enterMention g).subclasses = g.subclasses := by
  induction ms generalizing g with
  | nil => rfl
  | cons m ms ih =>
    rw [List.foldl_cons, ih]
    simp only [enterMention, noteImport]
    split <;> rfl

theorem subclasses_addFiles (files : List Symbol) (g : Graph) :
    (files.foldl addFile g).subclasses = g.subclasses := by
  induction files generalizing g with
  | nil => rfl
  | cons file files ih =>
    rw [List.foldl_cons, ih, addFile]
    split <;> rfl

end Graph

namespace Build

variable {t : NameTable} {b : Build} {f s u : Symbol}

theorem mem_subclasses_bareGraph : s ∈ (b.bareGraph t).subclasses.valuesOf u ↔
    ∃ x ∈ b.classes t, x.2.name = s ∧ u ∈ x.2.supers := by
  rw [bareGraph, Graph.subclasses_enterMentions, Graph.mem_subclasses_records]

theorem subclasses_graph : (b.graph t).subclasses = (b.bareGraph t).subclasses :=
  Graph.subclasses_addFiles _ _

/-- A class that a build declares has links to its supertypes. -/
theorem linked_of_extends (h : (Project.empty.after t b).Extends f s u) :
    s ∈ (b.bareGraph t).subclasses.valuesOf u := by
  obtain ⟨c, hc, rfl, hu⟩ := h
  rw [after_empty] at hc
  obtain ⟨d, hd, hdc⟩ := (placedAlike_graph t b f).symm.exists_samePlace hc
  rw [graph, (Graph.addFiles_frame _ _).2.2.1] at hd
  obtain ⟨e, he, hed⟩ := (Graph.placedAlike_enterMentions _ _ f).exists_samePlace hd
  have hplace := hed.trans hdc
  exact mem_subclasses_bareGraph.2
    ⟨_, Graph.recorded_of_mem_records he, hplace.name, (hplace.mem_supers u).2 hu⟩

/-- A link of a build is one of a class that it declares. -/
theorem extends_of_linked (honce : b.Once) {p : Project}
    (h : s ∈ (b.graph t).subclasses.valuesOf u) : ∃ f, (p.after t b).Extends f s u := by
  rw [subclasses_graph, mem_subclasses_bareGraph] at h
  obtain ⟨x, hx, rfl, hu⟩ := h
  have hplace := ClassInfo.samePlace_withMentions (b.mentions t) x.2
  refine ⟨x.1, x.2.withMentions (b.mentions t), ?_, hplace.name, (hplace.mem_supers u).2 hu⟩
  rw [Project.after, if_pos (mem_knownFiles_of_classes hx)]
  exact (mem_declared honce).2 ⟨x.2, hx, rfl⟩

variable {main : Graph} {late : List ImportNote}

theorem parted_mergedRound : (b.mergedRound t main late).Parted t main u s ↔
    (b.comparedRound t main).Parted t main u s := by
  constructor
  · rintro (h | ⟨hf, hc, hs, ht⟩ | ⟨hc, hs, ht⟩)
    · exact .changed h
    · exact .removed hf hc hs ht
    · exact .deleted hc hs ht
  · rintro (h | ⟨hf, hc, hs, ht⟩ | ⟨hc, hs, ht⟩)
    · exact .changed h
    · exact .removed hf hc hs ht
    · exact .deleted hc hs ht

/-- Imports that come late are no news to the subclass table. -/
theorem mem_subclasses_mergedRound :
    s ∈ (main.mergeRound t (b.mergedRound t main late)).subclasses.valuesOf u ↔
      s ∈ (main.mergeRound t (b.comparedRound t main)).subclasses.valuesOf u := by
  rw [Graph.mem_subclasses_mergeRound rfl, Graph.mem_subclasses_mergeRound rfl,
    drops_mergedRound, parted_mergedRound]
  rfl

end Build

/-! ## Links along a history -/

/-- A class is found under each of its supertypes, unless it is left out there. -/
def Graph.LinksUnless (g : Graph) (p : Project) (out : Symbol → Symbol → Prop) : Prop :=
  ∀ f s t, p.Extends f s t → (s ∈ g.subclasses.valuesOf t ↔ ¬ out t s)

/-- Since `s` last took `t` as a supertype, `t` was deleted, or lost one of two roles. -/
def History.Unhung : History → Symbol → Symbol → Prop
  | .start, _, _ => False
  | .round past t b _, u, s =>
    ¬ past.project.Takes (past.project.after t b) u s ∧
      (past.Unhung u s ∨ past.project.Drops (past.project.after t b) u ∨
        past.project.GivesUp (past.project.after t b) u s)
  | .rebuild _ _ _, _, _ => False

namespace Graph

variable {past : History} {names t : NameTable} {main main' : Graph} {b : Build}
  {late : List ImportNote} {p p' : Project} {r : Round}

/-- What a round does to links: a class that takes no supertype stays under those that it was
under, except where it gives them up or they are deleted. -/
theorem LinksUnless.merged {out : Symbol → Symbol → Prop} (hmain : main.LinksUnless p out)
    (h : r.Situates t main p p') :
    (main.mergeRound t r).LinksUnless p' fun u s =>
      ¬ p.Takes p' u s ∧ (out u s ∨ p.Drops p' u ∨ p.GivesUp p' u s) := by
  intro f s u hext
  rw [h.mem_subclasses_iff hext]
  by_cases htakes : p.Takes p' u s
  · simp [htakes]
  · rw [hmain f s u (hext.of_not_takes htakes)]
    tauto

/-- **The links along a history**: a class is found under a supertype, unless the history has
left it unhung. -/
theorem Led.linksUnless (h : Led past names main) :
    main.LinksUnless past.project past.Unhung := by
  induction h with
  | start =>
    intro f s t hext
    obtain ⟨c, hc, -⟩ := hext
    simp [History.project, Project.empty] at hc
  | round h hdisj hone hstep ih =>
    have hmerged := ih.merged (Build.situates_compared h.records h.places hdisj hone)
    intro f s u hext
    rw [hstep.eq.2, Build.mem_subclasses_mergedRound]
    exact hmerged f s u hext
  | rebuild h hone hmerge ih =>
    intro f s u hext
    refine iff_of_true ?_ not_false
    rw [(Build.rebuild_eq hmerge).2.2.1]
    exact Build.linked_of_extends hext

/-- **The links of a round after its merge**: after any history, a round that is compared in a
bounded way is merged, and each link that it holds is in the subclass table then, unless the
history and this round have left the class unhung. -/
theorem linked_integrate (hled : Led past names main)
    (hdisj : ∀ f ∈ Merge.knownFiles t b.files, f ∉ Merge.knownFiles t b.removed)
    (hone : (past.project.after t b).OneFile) (honce : b.Once)
    (hcmp : (b.round names).2.Bounded (b.round names).1 main b.removed b.files t r) :
    ∃ main', main.integrate t r = .ok (t, main') ∧
      ∀ s u, s ∈ r.graph.subclasses.valuesOf u →
        (s ∈ main'.subclasses.valuesOf u ↔ ¬ (past.round t b []).Unhung u s) := by
  refine ⟨_, hcmp.integrate, fun s u hlinked => ?_⟩
  have hnext : Led (past.round t b []) t (main.mergeRound t r) :=
    .round hled hdisj hone (.intro hcmp hcmp.integrate)
  have hgraph : r.graph = b.graph t := by
    obtain ⟨-, rfl⟩ := Build.bounded_round hcmp
    rfl
  rw [hgraph] at hlinked
  obtain ⟨f, hext⟩ := Build.extends_of_linked (p := past.project) honce hlinked
  exact hnext.linksUnless f s u hext

end Graph

/-! ## A superclass that comes back

A class and its superclass are compiled, and compiled again without a change.  When this is all
that happens, the class stays under its superclass.  When the file of the superclass was removed
in between, the class is under it in the graph of the last round only. -/

namespace LostBase

def names : NameTable :=
  NameTable.new.internAll ["java/lang/Object", "<init>", "p/Base", "Base.java", "p/Base.class",
    "p/Sub", "Sub.java", "p/Sub.class"]

def base : ClassInfo := .plain ⟨3⟩ (.ofFlags [.pub]) (.named ⟨1⟩)
def sub : ClassInfo := .plain ⟨6⟩ (.ofFlags [.pub]) (.named ⟨3⟩)

def both : Build where
  outputs := [⟨"Base.java", "p/Base.class", some base⟩, ⟨"Sub.java", "p/Sub.class", some sub⟩]
  imports := []
  files := [⟨"Base.java"⟩, ⟨"Sub.java"⟩]
  removed := []
  covered := by simp

/-- The file of the superclass is removed. -/
def deletion : Build := .deletion [⟨"Base.java"⟩]

def past : Graph := (both.easyStep [] names .empty).2
/-- The graph after the superclass was deleted. -/
def after : Graph := (deletion.easyStep [] names past).2

def history : History := .round .start names both []

/-- Both classes are compiled once more. -/
def again (main : Graph) : Round :=
  ((both.round names).2.compareEasily (both.round names).1 main both.removed both.files).2

theorem once_both : both.Once := by decide

theorem disjoint : ∀ f ∈ Merge.knownFiles names both.files,
    f ∉ Merge.knownFiles names both.removed := fun _ _ hr => absurd hr List.not_mem_nil

theorem led_past : Graph.Led history names past :=
  .round (.start names) disjoint (Build.oneFile_fresh once_both) Build.step_easyStep

theorem led_after : Graph.Led (.round history names deletion []) names after :=
  led_past.deletion [⟨"Base.java"⟩]

theorem bounded_again (main : Graph) :
    (both.round names).2.Bounded (both.round names).1 main both.removed both.files names
      (again main) := .easily rfl

/-- The class is found under the superclass that was there all the time. -/
theorem linked_again :
    Graph.Led history names past ∧ (history.project.after names both).OneFile ∧
      (⟨6⟩ : Symbol) ∈ (again past).graph.subclasses.valuesOf ⟨3⟩ ∧
      ∃ main', past.integrate names (again past) = .ok (names, main') ∧
        (⟨6⟩ : Symbol) ∈ main'.subclasses.valuesOf ⟨3⟩ ∧
        ¬ (history.round names both []).Unhung ⟨3⟩ ⟨6⟩ := by
  have hone : (history.project.after names both).OneFile := by
    refine Build.oneFile_after led_past.records.oneFile once_both fun x _ f hf => .inl ?_
    exact Build.compiled_of_declares hf
  have hround : (⟨6⟩ : Symbol) ∈ (again past).graph.subclasses.valuesOf ⟨3⟩ :=
    IdSet.mem_toList.1 (by decide)
  obtain ⟨main', hmerged, hlinks⟩ :=
    Graph.linked_integrate led_past disjoint hone once_both (bounded_again past)
  have hmain : (⟨6⟩ : Symbol) ∈ main'.subclasses.valuesOf ⟨3⟩ := by
    cases hmerged
    exact IdSet.mem_toList.1 (by decide)
  exact ⟨led_past, hone, hround, main', hmerged, hmain, (hlinks ⟨6⟩ ⟨3⟩ hround).1 hmain⟩

/-- The class is not found under the superclass that came back. -/
theorem not_linked_again :
    Graph.Led (.round history names deletion []) names after ∧
      ((History.round history names deletion []).project.after names both).OneFile ∧
      (both.round names).2.Bounded (both.round names).1 after both.removed both.files names
        (again after) ∧
      (⟨6⟩ : Symbol) ∈ (again after).graph.subclasses.valuesOf ⟨3⟩ ∧
      ∃ main', after.integrate names (again after) = .ok (names, main') ∧
        (⟨6⟩ : Symbol) ∉ main'.subclasses.valuesOf ⟨3⟩ := by
  have hone : ((History.round history names deletion []).project.after names both).OneFile := by
    refine Build.oneFile_after led_after.records.oneFile once_both fun x hx f hf => .inl ?_
    rw [← led_after.records.fileOf] at hf
    have hclasses : both.classes names = [(⟨4⟩, { base with classFile := ⟨5⟩ }),
        (⟨7⟩, { sub with classFile := ⟨8⟩ })] := rfl
    rw [hclasses] at hx
    simp only [List.mem_cons, List.not_mem_nil, or_false] at hx
    rcases hx with rfl | rfl
    · have hnone : after.fileOf.get? ⟨3⟩ = none := rfl
      cases hnone.symm.trans hf
    · obtain rfl : ⟨7⟩ = f := Option.some.inj hf
      decide
  refine ⟨led_after, hone, bounded_again after, IdSet.mem_toList.1 (by decide), _, rfl, ?_⟩
  intro h
  exact absurd (IdSet.mem_toList.2 h) (by decide)

end LostBase

end ClassImpact

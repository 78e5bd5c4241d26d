import Mathlib
import ClassImpact.Proofs.Reached
import ClassImpact.Proofs.Supertypes

/-!
# Histories of builds

A graph is told by the builds that led to it only with their order: what a round takes out of
a table, a later round puts back in some cases and not in others.  A history keeps the builds,
so that what is missing in a table can be said of the builds alone.

The file maps, and the places of classes, are those of the project that the history leaves,
whatever was deleted and added again on the way.
-/

namespace ClassImpact

/-- What was built so far.  A round brings a build, with the imports that it reports late; a
build may also replace everything before it.  The names of a build are read through the table
that its round ends with. -/
inductive History where
  | start
  | round (past : History) (t : NameTable) (b : Build) (late : List ImportNote)
  | rebuild (past : History) (t : NameTable) (b : Build)

/-- The project that a history leaves. -/
def History.project : History → Project
  | .start => .empty
  | .round past t b _ => past.project.after t b
  | .rebuild _ t b => Project.empty.after t b

namespace Graph

/-- The graphs that a history leads to.  No file is compiled and removed at once, and each
class is declared by one file throughout. -/
inductive Led : History → NameTable → Graph → Prop where
  | start (names : NameTable) : Led .start names .empty
  | round {past : History} {names t : NameTable} {main main' : Graph} {b : Build}
      {late : List ImportNote} (h : Led past names main)
      (hdisj : ∀ f ∈ Merge.knownFiles t b.files, f ∉ Merge.knownFiles t b.removed)
      (hone : (past.project.after t b).OneFile) (hstep : b.Step late names main t main') :
      Led (.round past t b late) t main'
  | rebuild {past : History} {names t : NameTable} {main main' : Graph} {b : Build}
      (h : Led past names main) (hone : (Project.empty.after t b).OneFile)
      (hmerge : main.integrate (b.round names).1 (b.round names).2.onRebuild = .ok (t, main')) :
      Led (.rebuild past t b) t main'

end Graph

/-! ## The file maps -/

variable {past : History} {names t : NameTable} {main main' : Graph} {b : Build}

/-- **The file maps along a history** are those of the project that it leaves. -/
theorem Graph.Led.records (h : Graph.Led past names main) : main.Records past.project := by
  induction h with
  | start => exact records_empty
  | round h hdisj hone hstep ih =>
    rw [hstep.eq.2]
    exact Build.records_mergedRound (Build.turns_compared ih hdisj hone)
  | rebuild h hone hmerge ih => exact records_rebuilt hone hmerge

/-- A build that compiles nothing, while files leave the project. -/
def Build.deletion (removed : List SourcePath) : Build where
  outputs := []
  imports := []
  files := []
  removed := removed
  covered := by simp

/-- Files can leave the project after any history. -/
theorem Graph.Led.deletion (h : Graph.Led past names main) (removed : List SourcePath) :
    Graph.Led
      (.round past ((Build.deletion removed).easyStep [] names main).1 (.deletion removed) [])
      ((Build.deletion removed).easyStep [] names main).1
      ((Build.deletion removed).easyStep [] names main).2 := by
  refine .round h (fun f hf => absurd hf List.not_mem_nil) ?_ Build.step_easyStep
  refine Build.oneFile_after h.records.oneFile ?_ fun x hx => absurd hx List.not_mem_nil
  exact List.nodup_nil

/-- A class is declared no more when the graph has no file for it. -/
theorem Graph.Led.not_declares (h : Graph.Led past names main) {n : Symbol}
    (hn : main.fileOf.get? n = none) (f : Symbol) : ¬ past.project.Declares f n := by
  rw [← h.records.fileOf, hn]
  simp

/-! ## The places of classes -/

namespace Build

/-- A build on its own declares what it compiled. -/
theorem after_empty (t : NameTable) (b : Build) (f : Symbol) :
    Project.empty.after t b f = b.declared t f := by
  rw [Project.after]
  split
  · rfl
  · rename_i hf
    have hnone : ((b.classes t).filter fun x => x.1 = f) = [] := by
      rw [List.filter_eq_nil_iff]
      intro x hx hxf
      exact hf (of_decide_eq_true hxf ▸ mem_knownFiles_of_classes hx)
    rw [declared, hnone]
    split <;> rfl

theorem placedAlike_lateGraph (t : NameTable) (b : Build) (late : List ImportNote) (f : Symbol) :
    PlacedAlike ((b.lateGraph t late).classesIn.valuesOf f) (b.declared t f) :=
  (Graph.placedAlike_enterMentions _ _ f).trans (placedAlike_graph t b f)

/-- Imports that come late are no news to the places of classes. -/
theorem places_mergedRound {p : Project} {late : List ImportNote}
    (h : (b.comparedRound t main).Situates t main p (p.after t b)) :
    (main.mergeRound t (b.mergedRound t main late)).Places (p.after t b) := by
  intro f
  by_cases hf : f ∈ (b.comparedRound t main).log.changedFiles
  · have hc : f ∈ Merge.knownFiles t b.files := keys_graph.1 (h.compiled_of_changedFile hf)
    rw [Graph.valuesOf_mergeRound_of_noted (r := b.mergedRound t main late) rfl hf,
      Project.after, if_pos hc]
    exact placedAlike_lateGraph t b late f
  · have hplaces := h.places_merged f
    rw [Graph.valuesOf_mergeRound_of_not_noted h.updates hf] at hplaces
    rw [Graph.valuesOf_mergeRound_of_not_noted (r := b.mergedRound t main late) rfl hf]
    exact hplaces

end Build

namespace Graph

/-- A graph that a build has replaced places the classes as the build declares them. -/
theorem places_rebuilt
    (hmerge : main.integrate (b.round names).1 (b.round names).2.onRebuild = .ok (t, main')) :
    main'.Places (Project.empty.after t b) := by
  intro f
  rw [(Build.rebuild_eq hmerge).2.1, Build.after_empty,
    ← (addFiles_frame (Merge.knownFiles t b.files) (b.bareGraph t)).2.2.1]
  exact Build.placedAlike_graph t b f

/-- **The places along a history** are those of the project that it leaves. -/
theorem Led.places (h : Led past names main) : main.Places past.project := by
  induction h with
  | start => exact fun _ => .refl _
  | round h hdisj hone hstep ih =>
    rw [hstep.eq.2]
    exact Build.places_mergedRound (Build.situates_compared h.records ih hdisj hone)
  | rebuild h hone hmerge ih => exact places_rebuilt hmerge

end Graph

end ClassImpact

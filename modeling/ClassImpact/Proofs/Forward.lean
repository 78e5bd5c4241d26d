import Mathlib
import ClassImpact.Proofs.Histories
import ClassImpact.Proofs.Outcomes

/-!
# Forward references

A class may use one that does not exist.  The use is recorded with the class, and as an edge
from the missing class; when that class is added, the edges from it tell which files are
affected.

A round that deletes a class erases the edges from it, and leaves the uses of it with the
classes that have them.  Where a user is not compiled again, its edge is cut off: the class may
be added again and its user is not affected.  A round that compiles the user, or reports that
it imports the class, puts the edge back.  So the history alone tells which edges are missing.

## Main results

* `Graph.Led.dependsUnless`: the edges of a graph along its history
* `compareInOrder_forward`: the users of a class that is added are affected, unless their edges
  are cut off
-/

namespace ClassImpact

/-! ## Uses that a round brings -/

namespace Graph

/-- A class uses what it used before an import was entered, or is the one that imports it. -/
theorem uses_of_enterMention {g : Graph} {m : Symbol × Symbol} {f o : Symbol} {c : ClassInfo}
    (hc : c ∈ (g.enterMention m).classesIn.valuesOf f) (ho : c.Uses o) :
    (∃ d ∈ g.classesIn.valuesOf f, d.name = c.name ∧ d.Uses o) ∨ (c.name, o) = m := by
  rcases classesIn_enterMention g m with ⟨h, -⟩ | ⟨f', d, -, hd, hn, d', hd', h⟩
  · exact .inl ⟨c, h ▸ hc, rfl, ho⟩
  · rw [h, Table.valuesOf_addValue] at hc
    by_cases hf : f' = f
    · subst hf
      rw [if_pos rfl, IdSet.mem_put] at hc
      rcases hc with rfl | ⟨hc, -⟩
      · have hname : c.name = d.name := adding?_name hd'
        rcases (ClassInfo.uses_adding? hd' o).1 ho with hdo | rfl
        · exact .inl ⟨d, hd, hname.symm, hdo⟩
        · exact .inr (Prod.ext (hname.trans hn) rfl)
      · exact .inl ⟨c, hc, rfl, ho⟩
    · rw [if_neg hf] at hc
      exact .inl ⟨c, hc, rfl, ho⟩

theorem uses_of_enterMentions (ms : List (Symbol × Symbol)) {g : Graph} {f o : Symbol}
    {c : ClassInfo} (hc : c ∈ (ms.foldl enterMention g).classesIn.valuesOf f) (ho : c.Uses o) :
    (∃ d ∈ g.classesIn.valuesOf f, d.name = c.name ∧ d.Uses o) ∨ (c.name, o) ∈ ms := by
  induction ms generalizing g with
  | nil => exact .inl ⟨c, hc, rfl, ho⟩
  | cons m ms ih =>
    rcases ih hc with ⟨d, hd, hname, hdo⟩ | hmem
    · rw [← hname]
      exact (uses_of_enterMention hd hdo).imp_right fun (h : (d.name, o) = m) =>
        h ▸ List.mem_cons_self
    · exact .inr (List.mem_cons_of_mem _ hmem)

end Graph

namespace Build

/-- The round of a build puts down that `d` uses `o`: it compiles `d` with such a use, or it
reports that `d` imports `o`. -/
def Renews (t : NameTable) (b : Build) (late : List ImportNote) (o d : Symbol) : Prop :=
  (∃ x ∈ b.classes t, x.2.name = d ∧ x.2.Uses o) ∨ (d, o) ∈ b.mentions t ∨
    (d, o) ∈ late.flatMap (readNote t)

variable {t : NameTable} {b : Build} {late : List ImportNote} {f o d : Symbol}

/-- What the classes of a round use was put down in it. -/
theorem renews_of_uses {c : ClassInfo} (hc : c ∈ (b.lateGraph t late).classesIn.valuesOf f)
    (ho : c.Uses o) : b.Renews t late o c.name := by
  rcases Graph.uses_of_enterMentions _ hc ho with ⟨d, hd, hname, hdo⟩ | hmem
  · rw [graph, (Graph.addFiles_frame _ _).2.2.1] at hd
    rw [← hname]
    rcases Graph.uses_of_enterMentions _ hd hdo with ⟨e, he, hname', heo⟩ | hmem
    · exact .inl ⟨_, Graph.recorded_of_mem_records he, hname', heo⟩
    · exact .inr (.inl hmem)
  · exact .inr (.inr hmem)

/-- The edges of a round that lead out of the file of a user are those that it puts down. -/
theorem mem_dependants_lateGraph {p : Project} (hone : (p.after t b).OneFile)
    (hd : (p.after t b).Declares f d) (ho : ¬ (p.after t b).Declares f o) (hne : o ≠ d) :
    d ∈ (b.lateGraph t late).dependants.valuesOf o ↔ b.Renews t late o d := by
  rw [lateGraph, Graph.mem_dependants_enterMentions, mem_dependants_graph, Renews, or_assoc]
  refine or_congr ⟨Graph.uses_of_mem_dependants_records, ?_⟩ Iff.rfl
  rintro ⟨x, hx, rfl, hu⟩
  refine Graph.mem_dependants_records hx hu hne fun y hy hyo hyx => ho ?_
  have hxf : x.1 = f := by
    refine hone x.1 f x.2.name ?_ hd
    exact (declares_after (mem_knownFiles_of_classes hx)).2 ⟨x, hx, rfl, rfl⟩
  exact (declares_after (hxf ▸ mem_knownFiles_of_classes hx)).2 ⟨y, hy, hyx.trans hxf, hyo⟩

end Build

/-! ## Edges along a history -/

/-- A recorded class that uses another one outside of its file is a dependant of it, unless the
edge is cut off. -/
def Graph.DependsUnless (g : Graph) (p : Project) (cut : Symbol → Symbol → Prop) : Prop :=
  ∀ f o, ∀ c ∈ g.classesIn.valuesOf f, c.Uses o → o ≠ c.name → ¬ p.Declares f o →
    (c.name ∈ g.dependants.valuesOf o ↔ ¬ cut o c.name)

/-- The class `o` was deleted since it was last put down that `d` uses it. -/
def History.CutOff : History → Symbol → Symbol → Prop
  | .start, _, _ => False
  | .round past t b late, o, d =>
    ¬ b.Renews t late o d ∧
      (past.CutOff o d ∨ past.project.Drops (past.project.after t b) o)
  | .rebuild _ _ _, _, _ => False

section

variable {past : History} {names t : NameTable} {main main' : Graph} {b : Build} {p : Project}

/-- What a round does to edges: those that it does not put down stay as they were, except that
the edges from a class that it deletes are cut off. -/
theorem Build.dependsUnless_mergedRound {late : List ImportNote}
    {cut : Symbol → Symbol → Prop} (h : (b.comparedRound t main).Turns t main p (p.after t b))
    (hmain : main.DependsUnless p cut) :
    (main.mergeRound t (b.mergedRound t main late)).DependsUnless (p.after t b) fun o d =>
      ¬ b.Renews t late o d ∧ (cut o d ∨ p.Drops (p.after t b) o) := by
  intro f o c hc hu hne hout
  have hdeclares : (p.after t b).Declares f c.name :=
    ((records_mergedRound h).classesIn f c.name).1 (IdSet.has_of_mem hc)
  have hround : c.name ∈ (b.mergedRound t main late).graph.dependants.valuesOf o ↔
      b.Renews t late o c.name := mem_dependants_lateGraph h.oneFile hdeclares hout hne
  rw [Graph.mem_dependants_mergeRound rfl, drops_mergedRound, former_mergedRound,
    h.drops_iff_dropped, hround]
  by_cases hnoted : f ∈ (b.comparedRound t main).log.changedFiles
  · -- the descriptor is the one that the round compiled
    rw [Graph.valuesOf_mergeRound_of_noted (r := b.mergedRound t main late) rfl hnoted] at hc
    have hrenews : b.Renews t late o c.name := renews_of_uses hc hu
    simp [hrenews]
  · rw [Graph.valuesOf_mergeRound_of_not_noted (r := b.mergedRound t main late) rfl hnoted] at hc
    split at hc
    · simp at hc
    · rename_i hr
      have hold := h.declares_not_noted hnoted hr
      have hkept := hmain f o c hc hu hne (mt (hold o).2 hout)
      have hnotFormer := h.not_former (o := o) hnoted hr ((hold c.name).1 hdeclares)
      rw [hkept]
      tauto

/-- A graph that a build has replaced has all edges. -/
theorem Graph.dependsUnless_rebuilt (hone : (Project.empty.after t b).OneFile)
    (hmerge : main.integrate (b.round names).1 (b.round names).2.onRebuild = .ok (t, main')) :
    main'.DependsUnless (Project.empty.after t b) fun _ _ => False := by
  intro f o c hc hu hne hout
  have hdeclares : (Project.empty.after t b).Declares f c.name :=
    ((records_rebuilt hone hmerge).classesIn f c.name).1 (IdSet.has_of_mem hc)
  obtain ⟨-, hclasses, -, hdependants⟩ := Build.rebuild_eq hmerge
  have hframe := addFiles_frame (Merge.knownFiles t b.files) (b.bareGraph t)
  have hrenews : b.Renews t [] o c.name := by
    rw [hclasses, ← hframe.2.2.1] at hc
    exact Build.renews_of_uses hc hu
  have hedge : c.name ∈ (b.lateGraph t []).dependants.valuesOf o :=
    (Build.mem_dependants_lateGraph hone hdeclares hout hne).2 hrenews
  refine iff_of_true ?_ not_false
  rw [hdependants, ← hframe.2.1]
  exact hedge

/-- **The edges along a history**: a recorded use that leads out of its file has an edge,
unless the history has cut it off. -/
theorem Graph.Led.dependsUnless (h : Graph.Led past names main) :
    main.DependsUnless past.project past.CutOff := by
  induction h with
  | start =>
    intro f o c hc
    simp [Graph.empty] at hc
  | round h hdisj hone hstep ih =>
    rw [hstep.eq.2]
    exact Build.dependsUnless_mergedRound (Build.turns_compared h.records hdisj hone) ih
  | rebuild h hone hmerge ih => exact Graph.dependsUnless_rebuilt hone hmerge

end

/-! ## The users of an added class -/

/-- The file of a dependant of an added class is drawn in. -/
theorem Scene.drawn_of_addedClass {s : Scene} {z : ClassInfo} {d f : Symbol} {text : String}
    (hd : d ∈ s.main.dependants.valuesOf z.name) (hf : s.main.fileOf.get? d = some f)
    (htext : s.names.name f = .ok text) (haccepts : s.accepts ⟨text⟩ = true)
    (hstop : (s.addedClass z).stop = none) : ⟨text⟩ ∈ (s.addedClass z).files := by
  have hmem : d ∈ s.main.dependantsOf z.name := hd
  have hpart := Impact.partOf_loop hmem s.acceptedFileOfClass
  refine (hpart hstop).2.1 (.file ⟨text⟩) ?_
  unfold acceptedFileOfClass onFileOf
  rw [hf]
  exact mem_acceptedFile htext haccepts

/-- **Forward references**: after any history, a class that is not declared leads to a recorded
user by an edge exactly when the history has not cut it off.  When it has not, a round that
adds the class and has a bounded answer affects the file of the user, if that file is not
removed and may be drawn in. -/
theorem compareInOrder_forward {past : History} {names : NameTable} {main : Graph}
    (hled : Graph.Led past names main) {f o : Symbol} {c : ClassInfo}
    (hc : c ∈ main.classesIn.valuesOf f) (hu : c.Uses o)
    (habsent : ∀ g, ¬ past.project.Declares g o) :
    (c.name ∈ main.dependants.valuesOf o ↔ ¬ past.CutOff o c.name) ∧
      (¬ past.CutOff o c.name →
        ∀ (names' : NameTable) (round : Graph) (log : ChangeLog) (q : RoundRequest)
          (files : List Symbol) (affected : PathSet) (text : String),
          (∃ g ∈ files, (round.classesIn.valuesOf g).has o = true) →
          (compareInOrder names' main round log q files).outcome = .ok (.incremental affected) →
          names'.name f = .ok text → q.accepts ⟨text⟩ = true →
          (∀ gone ∈ q.removed, gone.components ≠ (SourcePath.mk text).components) →
          affected.has (SourcePath.mk text).components = true) := by
  have hdeclares : past.project.Declares f c.name :=
    (hled.records.classesIn f c.name).1 (IdSet.has_of_mem hc)
  have hne : o ≠ c.name := fun h => habsent f (h ▸ hdeclares)
  have hedge := hled.dependsUnless f o c hc hu hne (habsent f)
  refine ⟨hedge, ?_⟩
  intro hkept names' round log q files affected text hadded h htext haccepts hstay
  obtain ⟨g, hg, hhas⟩ := hadded
  obtain ⟨z, hz, rfl⟩ := IdSet.has_iff_mem.1 hhas
  have hnew : (main.classesIn.valuesOf g).has z.name = false := by
    rw [← Bool.not_eq_true, hled.records.classesIn]
    exact habsent g
  have hevent : .added z ∈ ClassEvent.ofFiles main round files :=
    ClassEvent.mem_ofFiles.2 ⟨g, hg, ClassEvent.mem_ofFile_added.2 ⟨hz, hnew⟩⟩
  obtain ⟨hstop, hbrings, -⟩ :=
    Scene.partOf_event (s := Scene.of names' main round q) hevent q.removed
      (Scene.stop_of_conclude h)
  have hdrawn := Scene.drawn_of_addedClass (s := Scene.of names' main round q) (hedge.2 hkept)
    ((hled.records.fileOf c.name f).2 hdeclares) (NameTable.name_keyNames htext) haccepts hstop
  rcases Scene.affected_of_drawn h (hbrings (.file ⟨text⟩) hdrawn) with haffected | hgone
  · exact haffected
  · obtain ⟨gone, hmem, he⟩ := hgone
    exact absurd he (hstay gone hmem)

/-! ## A class that comes back

A class uses another one.  In one history it is all that was compiled, and the class that it
uses was never there.  In the other both were compiled, and the used class is gone with its
file.  Both graphs record the same user.  Then the used class is compiled: its user is affected
in the first history only. -/

namespace Revived

def names : NameTable :=
  NameTable.new.internAll ["java/lang/Object", "<init>", "p/Z", "Z.java", "p/Z.class", "p/U",
    "U.java", "p/U.class"]

def used : ClassInfo := .plain ⟨3⟩ (.ofFlags [.pub]) (.named ⟨1⟩)

def user : ClassInfo :=
  { ClassInfo.plain ⟨6⟩ (.ofFlags [.pub]) (.named ⟨1⟩) with
    usages := .single (.mention ⟨3⟩)
    classFile := ⟨8⟩ }

/-- The user is compiled, alone or with the class that it uses. -/
def compiled (together : Bool) : Build where
  outputs := ⟨"U.java", "p/U.class", some user⟩ ::
    if together then [⟨"Z.java", "p/Z.class", some used⟩] else []
  imports := []
  files := [⟨"U.java"⟩, ⟨"Z.java"⟩]
  removed := []
  covered := by
    cases together <;> simp

/-- The file of the used class is removed. -/
def deletion : Build := .deletion [⟨"Z.java"⟩]

/-- The graph after the user was compiled. -/
def past (together : Bool) : Graph := ((compiled together).easyStep [] names .empty).2

/-- The graph after the used class was deleted. -/
def after : Graph := (deletion.easyStep [] names (past true)).2

def history (together : Bool) : History := .round .start names (compiled together) []

theorem led_past (together : Bool) : Graph.Led (history together) names (past together) := by
  have honce : (compiled together).Once := by
    cases together <;> decide
  have hstep : (compiled together).Step [] names .empty names (past together) := by
    cases together <;> exact Build.step_easyStep
  exact .round (.start names) (fun f _ hr => absurd hr List.not_mem_nil)
    (Build.oneFile_fresh honce) hstep

theorem led_after : Graph.Led (.round (history true) names deletion []) names after :=
  (led_past true).deletion [⟨"Z.java"⟩]

theorem uses_used : user.Uses ⟨3⟩ := ⟨.mention ⟨3⟩, IdSet.mem_toList.1 (by decide), rfl⟩

/-- The used class, as it is compiled in the end. -/
def revived : Graph := Graph.empty.record ⟨4⟩ used

def request : RoundRequest where
  removed := []
  files := [⟨"Z.java"⟩]
  compiled := [⟨"Z.java"⟩]
  accepts _ := true
  resolver := none
  waiting := .untilAnswered

/-- The user of a class that was never there is affected. -/
theorem affected_once_added :
    Graph.Led (history false) names (past false) ∧
      user ∈ (past false).classesIn.valuesOf ⟨7⟩ ∧ user.Uses ⟨3⟩ ∧
      (∀ g, ¬ (history false).project.Declares g ⟨3⟩) ∧
      ((⟨6⟩ : Symbol) ∈ (past false).dependants.valuesOf ⟨3⟩ ↔
        ¬ (history false).CutOff ⟨3⟩ ⟨6⟩) ∧
      (compareInOrder names (past false) revived .empty request [⟨4⟩]).outcome =
        .ok (.incremental (.single ⟨"U.java"⟩)) ∧
      (IdSet.single (SourcePath.mk "U.java")).has (SourcePath.mk "U.java").components = true := by
  have hmem : user ∈ (past false).classesIn.valuesOf ⟨7⟩ := IdSet.mem_toList.1 (by decide)
  have habsent := (led_past false).not_declares (n := ⟨3⟩) rfl
  have h := compareInOrder_forward (led_past false) hmem uses_used habsent
  have hedge : (⟨6⟩ : Symbol) ∈ (past false).dependants.valuesOf ⟨3⟩ :=
    IdSet.mem_toList.1 (by decide)
  refine ⟨led_past false, hmem, uses_used, habsent, h.1, rfl, ?_⟩
  exact h.2 (h.1.1 hedge) names revived .empty request [⟨4⟩] _ "U.java"
    ⟨⟨4⟩, by decide, by decide⟩ rfl rfl rfl (by simp [request])

/-- The user of a class that was there, and was deleted, is not affected when it comes back. -/
theorem not_affected_once_revived :
    Graph.Led (.round (history true) names deletion []) names after ∧
      user ∈ after.classesIn.valuesOf ⟨7⟩ ∧ user.Uses ⟨3⟩ ∧
      (∀ g, ¬ (History.round (history true) names deletion []).project.Declares g ⟨3⟩) ∧
      (revived.classesIn.valuesOf ⟨4⟩).has ⟨3⟩ = true ∧
      names.name ⟨7⟩ = .ok "U.java" ∧ request.accepts ⟨"U.java"⟩ = true ∧
      (∀ p ∈ request.compiled ++ request.removed,
        p.components ≠ (SourcePath.mk "U.java").components) ∧
      ∃ affected,
        (compareInOrder names after revived .empty request [⟨4⟩]).outcome =
          .ok (.incremental affected) ∧
        ¬ affected.has (SourcePath.mk "U.java").components = true := by
  refine ⟨led_after, IdSet.mem_toList.1 (by decide), uses_used, led_after.not_declares rfl,
    by decide, rfl, rfl, by decide, .empty, rfl, by decide⟩

end Revived

end ClassImpact

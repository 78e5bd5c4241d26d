import Mathlib
import ClassImpact.Proofs.FileMaps

/-!
# Dependency edges after a merge

An edge leads from a class to a user of it.  The edges of a graph fit a project when
every user has an edge, unless it stands in the file of the class it uses, and every
edge has a user.  A merge takes edges away through the trash, which collects old usages
at three moments, and adds those of the round.  Both together leave edges that fit the
project after the build.  A class that was deleted is the one exception: what uses it
is told to be compiled again, and has no edge until then.
-/

namespace ClassImpact

namespace Project

/-- A declaration of `n` in the file `f` has a usage owned by `o`. -/
def Uses (p : Project) (f n o : Symbol) : Prop := ∃ c ∈ p f, c.name = n ∧ c.Uses o

theorem Uses.declares {p : Project} {f n o : Symbol} (h : p.Uses f n o) : p.Declares f n := by
  obtain ⟨c, hc, rfl, -⟩ := h
  exact IdSet.has_of_mem hc

end Project

namespace Graph

/-- The recorded descriptors have the usages of those of a project. -/
def Stores (g : Graph) (p : Project) : Prop :=
  ∀ f n o, (∃ c ∈ g.classesIn.valuesOf f, c.name = n ∧ c.Uses o) ↔ p.Uses f n o

/-- Every edge leads to a user. -/
def Sound (g : Graph) (p : Project) : Prop :=
  ∀ o d, d ∈ g.dependants.valuesOf o → ∃ f, p.Uses f d o

/-- Every user of a class outside of its file has an edge. -/
def CompleteAt (g : Graph) (p : Project) (o : Symbol) : Prop :=
  ∀ f d, p.Uses f d o → o ≠ d → ¬ p.Declares f o → d ∈ g.dependants.valuesOf o

end Graph

/-! ## Usages of a compiled class -/

/-- A usage that is added names one more class. -/
theorem ClassInfo.uses_adding? {c d : ClassInfo} {u : Usage} (h : c.adding? u = some d)
    (o : Symbol) : d.Uses o ↔ c.Uses o ∨ u.owner = o := by
  rw [adding?] at h
  split at h
  · cases h
  · cases h
    simp only [Uses, IdSet.mem_add_iff, or_and_right, exists_or, exists_eq_left]

theorem ClassInfo.uses_withMentions (l : List (Symbol × Symbol)) (c : ClassInfo) (o : Symbol) :
    (c.withMentions l).Uses o ↔ c.Uses o ∨ (c.name, o) ∈ l := by
  induction l generalizing c with
  | nil => simp [withMentions]
  | cons m l ih =>
    rw [withMentions, List.foldl_cons, ← withMentions]
    by_cases hm : m.1 = c.name
    · have hpair : (c.name, o) = m ↔ m.2 = o := by
        rw [← hm]
        exact ⟨fun h => (congrArg Prod.snd h).symm, fun h => h ▸ rfl⟩
      rw [if_pos hm, List.mem_cons, hpair]
      cases hadd : c.adding? (.mention m.2) with
      | none =>
        -- the import is a usage already
        have hold : m.2 = o → c.Uses o := by
          rintro rfl
          refine ⟨.mention m.2, IdSet.contains_iff.1 ?_, rfl⟩
          by_contra hno
          rw [adding?, if_neg hno] at hadd
          cases hadd
        rw [Option.getD_none, ih]
        tauto
      | some d =>
        rw [Option.getD_some, ih, uses_adding? hadd, Graph.adding?_name hadd, or_assoc]
        rfl
    · have hne : (c.name, o) ≠ m := fun h => hm (by rw [← h])
      rw [if_neg hm, ih, List.mem_cons]
      tauto

namespace Graph

/-! ## Edges of a round -/

theorem mem_foreignOwners {fileOf : Table Symbol} {f : Symbol} {c : ClassInfo} {o : Symbol} :
    o ∈ foreignOwners fileOf f c ↔ c.Uses o ∧ o ≠ c.name ∧ fileOf.get? o ≠ some f := by
  simp [foreignOwners, ClassInfo.Uses]

theorem mem_dependants_record {g : Graph} {f : Symbol} {c : ClassInfo} {o d : Symbol} :
    d ∈ (g.record f c).dependants.valuesOf o ↔
      d ∈ g.dependants.valuesOf o ∨
        (c.Uses o ∧ o ≠ c.name ∧ (g.record f c).fileOf.get? o ≠ some f) ∧ d = c.name := by
  show d ∈ ((foreignOwners _ f c).foldl _ g.dependants).valuesOf o ↔ _
  rw [Table.mem_foldl_addValue, mem_foreignOwners]
  rfl

variable {l : List (Symbol × ClassInfo)}

theorem uses_of_mem_dependants_records {o d : Symbol}
    (h : d ∈ (l.foldl (fun g x => g.record x.1 x.2) empty).dependants.valuesOf o) :
    ∃ x ∈ l, x.2.name = d ∧ x.2.Uses o := by
  induction l using List.reverseRecOn with
  | nil => simp [empty] at h
  | append_singleton l x ih =>
    rw [List.foldl_concat, mem_dependants_record] at h
    rcases h with h | ⟨⟨hu, -⟩, rfl⟩
    · obtain ⟨y, hy, hd⟩ := ih h
      exact ⟨y, List.mem_append_left _ hy, hd⟩
    · exact ⟨x, by simp, rfl, hu⟩

/-- A class has an edge from everything that it uses outside of its file. -/
theorem mem_dependants_records {x : Symbol × ClassInfo} {o : Symbol} (hx : x ∈ l)
    (hu : x.2.Uses o) (hne : o ≠ x.2.name) (hout : ∀ y ∈ l, y.2.name = o → y.1 ≠ x.1) :
    x.2.name ∈ (l.foldl (fun g x => g.record x.1 x.2) empty).dependants.valuesOf o := by
  induction l using List.reverseRecOn with
  | nil => simp at hx
  | append_singleton l y ih =>
    rw [List.foldl_concat, mem_dependants_record]
    rcases List.mem_append.1 hx with hx | hx
    · exact .inl (ih hx fun y hy => hout y (List.mem_append_left _ hy))
    · obtain rfl := List.mem_singleton.1 hx
      refine .inr ⟨⟨hu, hne, fun hf => ?_⟩, rfl⟩
      -- the files known by now are those of the classes recorded so far
      rw [← List.foldl_concat (f := fun (g : Graph) (x : Symbol × ClassInfo) => g.record x.1 x.2)]
        at hf
      obtain ⟨z, hz, hzf, hzo⟩ := fileOf_records hf
      exact hout z hz hzo hzf

theorem mem_dependants_enterMentions (ms : List (Symbol × Symbol)) (g : Graph) (o d : Symbol) :
    d ∈ (ms.foldl enterMention g).dependants.valuesOf o ↔
      d ∈ g.dependants.valuesOf o ∨ (d, o) ∈ ms := by
  induction ms generalizing g with
  | nil => simp
  | cons m ms ih =>
    have hstep : (g.enterMention m).dependants = g.dependants.addValue m.2 m.1 := by
      simp only [enterMention, noteImport]
      split <;> rfl
    rw [List.foldl_cons, ih, hstep, Table.valuesOf_addValue, List.mem_cons]
    by_cases h : m.2 = o
    · rw [if_pos h, IdSet.mem_put_iff, Prod.ext_iff, or_assoc]
      simp [h]
    · rw [if_neg h, Prod.ext_iff]
      simp [Ne.symm h]

/-! ## Descriptors of a round -/

/-- A graph that lists every class under the file it is known to come from. -/
def Placed (g : Graph) : Prop :=
  ∀ f c, c ∈ g.classesIn.valuesOf f → g.fileOf.get? c.name = some f

theorem withMentions_of_ne {m : Symbol × Symbol} {c : ClassInfo} (h : m.1 ≠ c.name) :
    c.withMentions [m] = c := by
  simp [ClassInfo.withMentions, h]

/-- An import is entered into the one descriptor of its class. -/
theorem mem_classesIn_enterMention {g : Graph} {m : Symbol × Symbol} (hplace : g.Placed)
    {f : Symbol} {c : ClassInfo} :
    c ∈ (g.enterMention m).classesIn.valuesOf f ↔
      ∃ d ∈ g.classesIn.valuesOf f, d.withMentions [m] = c := by
  -- where no listed class gains the import, the lists stay as they are
  have hsame : (∀ d ∈ g.classesIn.valuesOf f, d.withMentions [m] = d) →
      (c ∈ g.classesIn.valuesOf f ↔ ∃ d ∈ g.classesIn.valuesOf f, d.withMentions [m] = c) := by
    intro h
    constructor
    · intro hc
      exact ⟨c, hc, h c hc⟩
    · rintro ⟨d, hd, rfl⟩
      rwa [h d hd]
  rcases classesIn_enterMention g m with ⟨h, hno⟩ | ⟨f', c', hf', hc', hn', d', hd', h⟩
  · rw [h]
    refine hsame fun d hd => ?_
    by_cases hm : m.1 = d.name
    · have hdesc : g.describe? m.1 = some d :=
        describe?_eq_some.2 ⟨f, hm ▸ hplace f d hd, hd, hm.symm⟩
      simp [ClassInfo.withMentions, hm, hno d hdesc]
    · exact withMentions_of_ne hm
  · rw [h, Table.valuesOf_addValue]
    by_cases hf : f' = f
    · subst hf
      rw [if_pos rfl, IdSet.mem_put, ident_classInfo, ident_classInfo, adding?_name hd', hn']
      have hgain : c'.withMentions [m] = d' := by simp [ClassInfo.withMentions, hn', hd']
      constructor
      · rintro (rfl | ⟨hc, hne⟩)
        · exact ⟨c', hc', hgain⟩
        · exact ⟨c, hc, withMentions_of_ne (Ne.symm hne)⟩
      · rintro ⟨d, hd, rfl⟩
        by_cases hm : m.1 = d.name
        · obtain rfl : d = c' := IdSet.eq_of_ident_eq hd hc' (hm.symm.trans hn'.symm)
          exact .inl hgain
        · rw [withMentions_of_ne hm]
          exact .inr ⟨hd, Ne.symm hm⟩
    · rw [if_neg hf]
      refine hsame fun d hd => withMentions_of_ne fun hm => hf ?_
      exact Option.some.inj (hf'.symm.trans (hm ▸ hplace f d hd))

theorem placed_enterMention {g : Graph} (m : Symbol × Symbol) (hplace : g.Placed) :
    (g.enterMention m).Placed := by
  intro f c hc
  obtain ⟨d, hd, rfl⟩ := (mem_classesIn_enterMention hplace).1 hc
  rw [fileOf_enterMention, ClassInfo.name_withMentions]
  exact hplace f d hd

/-- All imports are entered into the descriptors of their classes. -/
theorem mem_classesIn_enterMentions (ms : List (Symbol × Symbol)) {g : Graph} (hplace : g.Placed)
    {f : Symbol} {c : ClassInfo} :
    c ∈ (ms.foldl enterMention g).classesIn.valuesOf f ↔
      ∃ d ∈ g.classesIn.valuesOf f, d.withMentions ms = c := by
  induction ms generalizing g with
  | nil => simp [ClassInfo.withMentions]
  | cons m ms ih =>
    rw [List.foldl_cons, ih (placed_enterMention m hplace)]
    constructor
    · rintro ⟨e, he, rfl⟩
      obtain ⟨d, hd, rfl⟩ := (mem_classesIn_enterMention hplace).1 he
      exact ⟨d, hd, rfl⟩
    · rintro ⟨d, hd, rfl⟩
      exact ⟨_, (mem_classesIn_enterMention hplace).2 ⟨d, hd, rfl⟩, rfl⟩

/-- Classes recorded once each are listed as they were recorded. -/
theorem mem_classesIn_records (hl : (l.map fun x => x.2.name).Nodup) {f : Symbol} {c : ClassInfo} :
    c ∈ (l.foldl (fun g x => g.record x.1 x.2) empty).classesIn.valuesOf f ↔ (f, c) ∈ l := by
  induction l using List.reverseRecOn with
  | nil => simp [empty]
  | append_singleton l x ih =>
    rw [List.map_append, List.nodup_append] at hl
    rw [List.foldl_concat, classesIn_record, Table.valuesOf_addValue, List.mem_append,
      List.mem_singleton]
    have hx : (f, c) = x ↔ x.1 = f ∧ c = x.2 := by
      rw [Prod.ext_iff, eq_comm (a := f)]
    rw [hx, ← ih hl.1]
    by_cases hf : x.1 = f
    · subst hf
      rw [if_pos rfl, IdSet.mem_put, or_comm, ident_classInfo, ident_classInfo]
      refine or_congr (and_iff_left_of_imp fun hc hn => ?_) (by simp)
      refine hl.2.2 c.name ?_ x.2.name (by simp) hn
      exact List.mem_map.2 ⟨_, (ih hl.1).1 hc, rfl⟩
    · simp [hf]

end Graph

/-! ## Edges of a merged graph -/

namespace Round

/-- A round that turns `p` into `p'`, with the usages and the edges of its classes. -/
structure Rewires (names : NameTable) (main : Graph) (r : Round) (p p' : Project) : Prop
    extends r.Turns names main p p' where
  stores : main.Stores p
  compiled : ∀ f n o, r.graph.classesIn.has f = true →
    ((∃ c ∈ r.graph.classesIn.valuesOf f, c.name = n ∧ c.Uses o) ↔ p'.Uses f n o)
  sound : r.graph.Sound p'
  complete : ∀ f n o, r.graph.classesIn.has f = true → p'.Uses f n o → o ≠ n →
    ¬ p'.Declares f o → n ∈ r.graph.dependants.valuesOf o

namespace Rewires

variable {names : NameTable} {main : Graph} {r : Round} {p p' : Project}

/-- A restated class takes its old usages back. -/
theorem former_of_restated (h : r.Rewires names main p p') {f n o : Symbol}
    (hf : r.graph.classesIn.has f = true) (hn : n ∈ r.log.changedClasses) (hu : p.Uses f n o) :
    r.Former names main o n := by
  obtain ⟨c, hc, hname, ho⟩ := (h.stores f n o).2 hu
  refine .restated (h.restates_iff.2 hn) ?_ ((h.records.fileOf n f).2 hu.declares) ?_ hc hname ho
  · rw [h.drops_iff]
    rintro ⟨hno, -⟩
    obtain ⟨g, hg, hgn⟩ := h.declares_of_changed hn
    exact hno g hg hgn
  · intro hr
    rw [h.disjoint f hr] at hf
    simp at hf

/-- A class that went with its compiled file takes its old usages back. -/
theorem former_of_deleted (h : r.Rewires names main p p') {f n o : Symbol}
    (hf : r.graph.classesIn.has f = true)
    (hgone : ∀ g, r.graph.classesIn.has g = true → ¬ p'.Declares g n) (hu : p.Uses f n o) :
    r.Former names main o n := by
  obtain ⟨c, hc, hname, ho⟩ := (h.stores f n o).2 hu
  obtain ⟨e, he, hen⟩ := IdSet.has_iff_mem.1 (h.deleted_iff.2 ⟨hgone, f, hf, hu.declares⟩)
  have hnoted := he
  rw [h.noted] at hnoted
  obtain ⟨g, -, heg, -⟩ := of_mem_deletedClasses_noteRound hnoted
  have hdecl : p.Declares g n := (h.records.classesIn g n).1 (hen ▸ IdSet.has_of_mem heg)
  obtain rfl := h.records.oneFile g f n hdecl hu.declares
  obtain rfl : e = c := IdSet.eq_of_ident_eq heg hc (hen.trans hname.symm)
  exact .deleted he hname ho

/-- A user of a compiled file that keeps its old usages is compiled with them. -/
theorem uses_of_not_former (h : r.Rewires names main p p') {f n o : Symbol}
    (hf : r.graph.classesIn.has f = true) (hu : p.Uses f n o)
    (hno : ¬ r.Former names main o n) : p'.Uses f n o := by
  have hch : n ∉ r.log.changedClasses := fun hn => hno (h.former_of_restated hf hn hu)
  by_cases hdecl : p'.Declares f n
  · obtain ⟨past, hpast, hpn, u, hmem, ho⟩ := (h.stores f n o).2 hu
    obtain ⟨now, hnow, hnn⟩ := IdSet.has_iff_mem.1 ((h.holds.classesIn f n).2 ⟨hf, hdecl⟩)
    have hsame := ClassEvent.usages_of_not_changed hpast hnow (hpn.trans hnn.symm) (by
      rintro ⟨e, he, hr, hname⟩
      apply hch
      rw [h.noted, mem_changedClasses_noteRound]
      exact ⟨f, hf, e, he, hr, hname.trans hpn⟩) u
    exact (h.compiled f n o hf).1 ⟨now, hnow, hnn, u, hsame.1 hmem, ho⟩
  · refine absurd (h.former_of_deleted hf (fun g hg hgn => hch ?_) hu) hno
    refine h.changed_of_new hg hgn fun hgp => hdecl ?_
    exact h.records.oneFile g f n hgp hu.declares ▸ hgn

/-- An edge that a merge keeps leads to a user. -/
theorem uses_of_kept (h : r.Rewires names main p p') {o d : Symbol} (hmain : ∃ f, p.Uses f d o)
    (hno : ¬ r.Former names main o d) : ∃ f, p'.Uses f d o := by
  obtain ⟨f, hu⟩ := hmain
  by_cases hf : r.graph.classesIn.has f = true
  · exact ⟨f, h.uses_of_not_former hf hu hno⟩
  · have hr : f ∉ Merge.knownFiles names r.removedFiles := by
      intro hr
      obtain ⟨c, hc, hn, ho⟩ := (h.stores f d o).2 hu
      exact hno (.removed hr hc hn ho)
    refine ⟨f, ?_⟩
    rw [Project.Uses, h.kept f (by simpa using hf) hr]
    exact hu

/-- A compiled file that is not noted as changed has the usages that it had. -/
theorem uses_of_unchanged (h : r.Rewires names main p p') {f : Symbol}
    (hf : r.graph.classesIn.has f = true) (hno : f ∉ r.log.changedFiles) (n o : Symbol) :
    p'.Uses f n o ↔ p.Uses f n o := by
  have hsame : ∀ past ∈ main.classesIn.valuesOf f, ∀ now ∈ r.graph.classesIn.valuesOf f,
      past.name = now.name → ∀ u, u ∈ past.usages ↔ u ∈ now.usages := by
    intro past hpast now hnow hname
    refine ClassEvent.usages_of_not_changed hpast hnow hname ?_
    rintro ⟨e, he, hr, hen⟩
    rw [h.noted, mem_changedFiles_noteRound] at hno
    refine hno ⟨f, hf, e, he, ?_⟩
    -- the file that an event notes is the one that the round gives its class
    have hfile : r.graph.fileOf.get? e.className = some f := by
      rw [h.holds.fileOf, hen, hname]
      exact (h.holds.classesIn f _).1 (IdSet.has_of_mem hnow)
    cases e with
    | changed change => exact hfile
    | removed c => simp [ClassEvent.restates] at hr
    | added c => exact hfile
  rw [← h.compiled f n o hf, ← h.stores f n o]
  constructor
  · rintro ⟨now, hnow, hn, u, hu, ho⟩
    have hdecl := (h.declares_of_unchanged hf hno n).1
      ((h.holds.classesIn f n).1 (hn ▸ IdSet.has_of_mem hnow)).2
    obtain ⟨past, hpast, hpn⟩ := IdSet.has_iff_mem.1 ((h.records.classesIn f n).2 hdecl)
    exact ⟨past, hpast, hpn, u, (hsame past hpast now hnow (hpn.trans hn.symm) u).2 hu, ho⟩
  · rintro ⟨past, hpast, hn, u, hu, ho⟩
    have hdecl := (h.declares_of_unchanged hf hno n).2
      ((h.records.classesIn f n).1 (hn ▸ IdSet.has_of_mem hpast))
    obtain ⟨now, hnow, hnn⟩ := IdSet.has_iff_mem.1 ((h.holds.classesIn f n).2 ⟨hf, hdecl⟩)
    exact ⟨now, hnow, hnn, u, (hsame past hpast now hnow (hn.trans hnn.symm) u).1 hu, ho⟩

/-- The merged graph stores the usages of the new project. -/
theorem stores_merged (h : r.Rewires names main p p') : (main.mergeRound names r).Stores p' := by
  intro f n o
  rw [Graph.exists_mem_classesIn_mergeRound h.updates]
  by_cases hc : f ∈ r.log.changedFiles
  · have hf := h.compiled_of_changedFile hc
    simp only [hc, true_and, not_true_eq_false, false_and, or_false]
    exact h.compiled f n o hf
  · simp only [hc, false_and, not_false_eq_true, true_and, false_or, h.stores f n o]
    by_cases hr : f ∈ Merge.knownFiles names r.removedFiles
    · exact ⟨fun hu => absurd hr hu.2, fun hu => absurd hu.declares (h.not_declares_removed hr n)⟩
    · rw [and_iff_left hr]
      by_cases hf : r.graph.classesIn.has f = true
      · exact (h.uses_of_unchanged hf hc n o).symm
      · rw [Project.Uses, Project.Uses, h.kept f (by simpa using hf) hr]

theorem sound_merged (h : r.Rewires names main p p') (hsound : main.Sound p) :
    (main.mergeRound names r).Sound p' := by
  intro o d hd
  rcases (Graph.mem_dependants_mergeRound h.updates).1 hd with ⟨⟨hmain, -⟩, hno⟩ | hround
  · exact h.uses_of_kept (hsound o d hmain) hno
  · exact h.sound o d hround

theorem completeAt_merged (h : r.Rewires names main p p') {o : Symbol}
    (hcomplete : main.CompleteAt p o)
    (hstay : (∃ f, p.Declares f o) → ∃ f, p'.Declares f o) :
    (main.mergeRound names r).CompleteAt p' o := by
  intro f d hu hne hout
  rw [Graph.mem_dependants_mergeRound h.updates]
  by_cases hf : r.graph.classesIn.has f = true
  · exact .inr (h.complete f d o hf hu hne hout)
  · have hf : r.graph.classesIn.has f = false := by simpa using hf
    have hr : f ∉ Merge.knownFiles names r.removedFiles := fun hr =>
      h.not_declares_removed hr d hu.declares
    have hold : p.Uses f d o := by rwa [Project.Uses, h.kept f hf hr] at hu
    have houtold : ¬ p.Declares f o := fun hdecl => hout ((h.declares_kept hf hr o).2 hdecl)
    have hno : f ∉ r.log.changedFiles := fun hc => by
      simpa [hf] using h.compiled_of_changedFile hc
    refine .inl ⟨⟨hcomplete f d hold hne houtold, ?_⟩, h.not_former hno hr hold.declares⟩
    rw [h.drops_iff_dropped]
    exact fun hdropped => hdropped.2 (hstay hdropped.1)

end Rewires

end Round

/-! ## Edges of a build -/

namespace Build

/-- Every class is reported once. -/
def Once (b : Build) : Prop := ((b.outputs.filterMap ClassOutput.info).map ClassInfo.name).Nodup

instance (b : Build) : Decidable b.Once := inferInstanceAs (Decidable (List.Nodup _))

/-- Imports are reported for compiled classes only. -/
def ImportsOwn (t : NameTable) (b : Build) : Prop :=
  ∀ m ∈ b.mentions t, ∃ x ∈ b.classes t, x.2.name = m.1

variable {t : NameTable} {b : Build}

theorem Once.nodup (h : b.Once) : ((b.classes t).map fun x => x.2.name).Nodup := by
  have hsub : ∀ l : List ClassOutput, ((l.filterMap (readOutput t)).map fun x => x.2.name).Sublist
      ((l.filterMap ClassOutput.info).map ClassInfo.name) := by
    intro l
    induction l with
    | nil => simp
    | cons o l ih =>
      cases hc : o.info with
      | none => simpa [readOutput, hc] using ih
      | some c =>
        cases hx : readOutput t o with
        | none => simpa [hx, hc] using ih.cons _
        | some x =>
          have hname : x.2.name = c.name := by
            simp only [readOutput, hc, Option.bind_eq_bind, Option.bind_some,
              Option.bind_eq_some_iff, Option.some.injEq] at hx
            obtain ⟨_, -, _, -, rfl⟩ := hx
            rfl
          rw [List.filterMap_cons_some hx, List.filterMap_cons_some hc, List.map_cons,
            List.map_cons, hname]
          exact ih.cons_cons _
  exact h.sublist (hsub b.outputs)

theorem mem_declared (h : b.Once) {f : Symbol} {c : ClassInfo} :
    c ∈ b.declared t f ↔ ∃ d, (f, d) ∈ b.classes t ∧ d.withMentions (b.mentions t) = c := by
  have hl : ((((b.classes t).filter fun x => x.1 = f).map fun x =>
      x.2.withMentions (b.mentions t)).map Identified.ident).Nodup := by
    rw [List.map_map]
    have hsub := (List.filter_sublist (p := fun x => decide (x.1 = f)) (l := b.classes t)).map
      fun x => x.2.name
    convert h.nodup.sublist hsub using 2
    funext x
    exact ClassInfo.name_withMentions _ _
  rw [declared, IdSet.mem_foldl_put hl]
  simp only [List.mem_map, List.mem_filter, decide_eq_true_eq, Prod.exists]
  constructor
  · rintro ⟨f', d, ⟨hd, rfl⟩, hc⟩
    exact ⟨d, hd, hc⟩
  · rintro ⟨d, hd, hc⟩
    exact ⟨f, d, ⟨hd, rfl⟩, hc⟩

theorem placed_records (h : b.Once) :
    ((b.classes t).foldl (fun g x => g.record x.1 x.2) Graph.empty).Placed := by
  intro f c hc
  rw [Graph.mem_classesIn_records h.nodup] at hc
  obtain ⟨g, hg⟩ := Option.isSome_iff_exists.1 (Graph.has_fileOf_records.2 ⟨_, hc, rfl⟩)
  obtain ⟨y, hy, rfl, hyn⟩ := Graph.fileOf_records hg
  rw [show y = (f, c) from List.inj_on_of_nodup_map h.nodup hy hc hyn] at hg
  exact hg

/-- The graph of a build lists the descriptors that the build declares. -/
theorem mem_classesIn_graph (h : b.Once) {f : Symbol} {c : ClassInfo} :
    c ∈ (b.graph t).classesIn.valuesOf f ↔ c ∈ b.declared t f := by
  rw [graph, (Graph.addFiles_frame _ _).2.2.1,
    Graph.mem_classesIn_enterMentions _ (placed_records h), mem_declared h]
  simp only [Graph.mem_classesIn_records h.nodup]

theorem mem_dependants_graph {o d : Symbol} :
    d ∈ (b.graph t).dependants.valuesOf o ↔
      d ∈ ((b.classes t).foldl (fun g x => g.record x.1 x.2) Graph.empty).dependants.valuesOf o ∨
        (d, o) ∈ b.mentions t := by
  rw [graph, (Graph.addFiles_frame _ _).2.1, Graph.mem_dependants_enterMentions]

/-- A compiled class uses what its descriptor uses and what it imports. -/
theorem uses_after (h : b.Once) {p : Project} {x : Symbol × ClassInfo} (hx : x ∈ b.classes t)
    {o : Symbol} (ho : x.2.Uses o ∨ (x.2.name, o) ∈ b.mentions t) :
    (p.after t b).Uses x.1 x.2.name o := by
  rw [Project.Uses, Project.after, if_pos (mem_knownFiles_of_classes hx)]
  exact ⟨_, (mem_declared h).2 ⟨x.2, hx, rfl⟩, ClassInfo.name_withMentions _ _,
    (ClassInfo.uses_withMentions _ _ o).2 ho⟩

/-- A compared build carries the usages and the edges of what it declares. -/
theorem rewires_compared {main : Graph} {p : Project} (hrec : main.Records p)
    (hstores : main.Stores p)
    (hdisj : ∀ f ∈ Merge.knownFiles t b.files, f ∉ Merge.knownFiles t b.removed)
    (honce : b.Once) (himports : b.ImportsOwn t) (hone : (p.after t b).OneFile) :
    (b.comparedRound t main).Rewires t main p (p.after t b) := by
  have hturns := turns_compared hrec hdisj hone
  refine { hturns with stores := hstores, compiled := ?_, sound := ?_, complete := ?_ }
  · intro f n o hf
    have hf : f ∈ Merge.knownFiles t b.files := keys_graph.1 hf
    simp only [graph_comparedRound, Project.Uses, Project.after, if_pos hf,
      mem_classesIn_graph honce]
  · intro o d hd
    rcases mem_dependants_graph.1 hd with hd | hd
    · obtain ⟨x, hx, rfl, ho⟩ := Graph.uses_of_mem_dependants_records hd
      exact ⟨x.1, uses_after honce hx (.inl ho)⟩
    · obtain ⟨x, hx, hxd⟩ := himports _ hd
      obtain rfl : x.2.name = d := hxd
      exact ⟨x.1, uses_after honce hx (.inr hd)⟩
  · intro f n o hf hu hne hout
    have hf : f ∈ Merge.knownFiles t b.files := keys_graph.1 hf
    obtain ⟨c, hc, rfl, ho⟩ := hu
    rw [Project.after, if_pos hf] at hc
    obtain ⟨d, hd, rfl⟩ := (mem_declared honce).1 hc
    rw [ClassInfo.name_withMentions] at hne ⊢
    rw [ClassInfo.uses_withMentions] at ho
    refine mem_dependants_graph.2 (ho.imp (fun ho => ?_) id)
    refine Graph.mem_dependants_records (x := (f, d)) hd ho hne fun y hy hyo hyf => hout ?_
    exact (declares_after hf).2 ⟨y, hy, hyf, hyo⟩

/-- The round of a build carries the usages and the edges of what it declares. -/
theorem rewires {names names' : NameTable} {main : Graph} {p : Project} {r : Round}
    (hrec : main.Records p) (hstores : main.Stores p)
    (hdisj : ∀ f ∈ Merge.knownFiles names' b.files, f ∉ Merge.knownFiles names' b.removed)
    (honce : b.Once) (himports : b.ImportsOwn names')
    (hcmp : (b.round names).2.Bounded (b.round names).1 main b.removed b.files names' r)
    (hone : (p.after names' b).OneFile) : r.Rewires names' main p (p.after names' b) := by
  obtain ⟨-, rfl⟩ := bounded_round hcmp
  exact rewires_compared hrec hstores hdisj honce himports hone

end Build

/-- **Edges stay exact under a merge**: where the edges of the graph so far fit the
recorded project, those of the merged graph lead to users only, and none is missing from
a class that the round did not delete. -/
theorem Graph.edges_integrate {names names' : NameTable} {main : Graph} {p : Project} {b : Build}
    {r : Round} (hrec : main.Records p) (hstores : main.Stores p) (hsound : main.Sound p)
    (hcomplete : ∀ o, main.CompleteAt p o)
    (hdisj : ∀ f ∈ Merge.knownFiles names' b.files, f ∉ Merge.knownFiles names' b.removed)
    (honce : b.Once) (himports : b.ImportsOwn names')
    (hcmp : (b.round names).2.Bounded (b.round names).1 main b.removed b.files names' r)
    (hone : (p.after names' b).OneFile) :
    ∃ main', main.integrate names' r = .ok (names', main') ∧
      main'.Records (p.after names' b) ∧ main'.Stores (p.after names' b) ∧
      main'.Sound (p.after names' b) ∧
      ∀ o, ((∃ f, p.Declares f o) → ∃ f, (p.after names' b).Declares f o) →
        main'.CompleteAt (p.after names' b) o := by
  have h := Build.rewires hrec hstores hdisj honce himports hcmp hone
  exact ⟨_, hcmp.integrate, h.records_merged, h.stores_merged, h.sound_merged hsound,
    fun o hstay => h.completeAt_merged (hcomplete o) hstay⟩

namespace Relocation

theorem uses_project {f n o : Symbol} (h : project.Uses f n o) :
    f = ⟨4⟩ ∧ n = ⟨3⟩ ∧ o = ⟨1⟩ := by
  obtain ⟨c, hc, rfl, u, hu, rfl⟩ := h
  rw [project] at hc
  split at hc
  · obtain rfl := IdSet.mem_single.1 hc
    simp [moved, ClassInfo.plain] at hu
  · split at hc
    · obtain rfl := IdSet.mem_single.1 hc
      obtain rfl : u = .mention ⟨1⟩ := IdSet.mem_single.1 hu
      rename_i hf
      exact ⟨hf, rfl, rfl⟩
    · simp at hc

theorem edges_relocated :
    ∃ main', main.integrate compared.1 compared.2 = .ok (compared.1, main') ∧
      main'.Records (project.after compared.1 build) ∧
      main'.Stores (project.after compared.1 build) ∧
      main'.Sound (project.after compared.1 build) ∧
      ∀ o, ((∃ f, project.Declares f o) → ∃ f, (project.after compared.1 build).Declares f o) →
        main'.CompleteAt (project.after compared.1 build) o := by
  refine Graph.edges_integrate records_main ?_ ?_ ?_ disjoint ?_ ?_ bounded oneFile_after
  · intro f n o
    rw [classesIn_main, Project.Uses]
  · intro o d hd
    rw [main, Graph.mem_dependants_record, Graph.mem_dependants_record] at hd
    rcases hd with (hd | ⟨⟨⟨u, hu, -⟩, -⟩, -⟩) | ⟨⟨hu, -⟩, rfl⟩
    · simp [Graph.empty] at hd
    · simp [moved, ClassInfo.plain] at hu
    · exact ⟨⟨4⟩, user, by simp [project], rfl, hu⟩
  · intro o f d hu _ _
    obtain ⟨rfl, rfl, rfl⟩ := uses_project hu
    exact IdSet.contains_iff.1 (by decide)
  · simp [Build.Once, build]
  · intro m hm
    simp [Build.mentions, build] at hm

end Relocation

end ClassImpact

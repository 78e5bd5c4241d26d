import Mathlib
import ClassImpact.Proofs.Edges
import ClassImpact.Proofs.Runs
import ClassImpact.Proofs.Sessions

/-!
# Rounds that replace the graph

A round that replaces the graph so far is merged by the same code as any other one: the
removed files of an earlier comparison are purged first, which fills the trash from the graph
so far, and the dependants go through the trash at the end.  None of it is left in the result:
the graph becomes the round, table for table.

Before it is merged, a round may be filled and compared in any order.  What it holds does not
depend on the graph that it is compared with, so two graphs that have one table of names are
equal after equal rounds replaced them.

## Main results

* `Graph.mergeRound_replaced`: a merge that replaces the graph leaves the graph of the round
* `Workspace.held_advanceAll`: what a round holds after any steps, read in a later table of names
* `Workspace.main_integrate_replaced`: a round that replaces the graph forgets the past
-/

namespace ClassImpact

open Identified (ident)

/-! ## Tables without empty sets -/

namespace IdSet

variable {α κ : Type} [Identified α κ] [DecidableEq κ]

theorem toList_foldl_put {l : List α} (hl : l.Pairwise fun a b => ident a ≠ ident b)
    {s : IdSet α} (hs : ∀ a ∈ l, s.has (ident a) = false) :
    (l.foldl put s).toList = s.toList ++ l := by
  induction l generalizing s with
  | nil => simp
  | cons a l ih =>
    obtain ⟨ha, hl⟩ := List.pairwise_cons.1 hl
    obtain ⟨hsa, hs⟩ := List.forall_mem_cons.1 hs
    have hnext : ∀ b ∈ l, (s.put a).has (ident b) = false := by
      intro b hb
      rw [← Bool.not_eq_true, has_put, not_or, Bool.not_eq_true]
      exact ⟨hs b hb, fun h => ha b hb h⟩
    rw [List.foldl_cons, ih hl hnext, toList_put, if_neg (by simp [hsa])]
    simp

@[simp] theorem empty_union (s : IdSet α) : empty.union s = s := by
  apply ext
  rw [union, toList_foldl_put s.distinct fun a _ => has_empty _]
  rfl

end IdSet

namespace Table

variable {α κ : Type} [Identified α κ]

/-- No key has an empty set under it. -/
def Populated (t : SetTable α) : Prop := ∀ k s, t.get? k = some s → s.isEmpty = false

theorem populated_empty : Populated (empty : SetTable α) := by
  intro k s h
  simp at h

variable [DecidableEq κ]

theorem Populated.addValue {t : SetTable α} (h : t.Populated) (k : Symbol) (a : α) :
    (t.addValue k a).Populated := by
  intro j s hs
  rw [Table.addValue, addValues, get?_insert] at hs
  by_cases hk : k = j
  · rw [if_pos hk, Option.some.injEq] at hs
    have hhas : s.has (ident a) = true := by
      rw [← hs, IdSet.has_union]
      exact .inr (IdSet.has_single.2 rfl)
    obtain ⟨b, hb, -⟩ := IdSet.has_iff_mem.1 hhas
    rw [← Bool.not_eq_true, IdSet.isEmpty_iff]
    exact fun hnone => hnone b hb
  · rw [if_neg hk] at hs
    exact h j s hs

end Table

/-! ## The merge -/

namespace Merge

variable {round : Graph} {trash t : SetTable Symbol} {l : List Symbol}

/-- A class without dependants gets those of the round, whatever the trash has. -/
theorem mergeDependantsOf_of_none {c : Symbol} (h : t.get? c = none) :
    mergeDependantsOf round trash t c =
      if (round.dependants.valuesOf c).isEmpty then t
      else t.insert c (round.dependants.valuesOf c) := by
  have hcurrent : t.valuesOf c = .empty := by simp [Table.valuesOf, h]
  have hempty : (IdSet.empty : IdSet Symbol).isEmpty = true := rfl
  simp [mergeDependantsOf, hcurrent, hempty, Table.addValues]

theorem get?_foldl_mergeDependantsOf_of_none (hl : l.Nodup) (h : ∀ c ∈ l, t.get? c = none)
    (k : Symbol) :
    (l.foldl (mergeDependantsOf round trash) t).get? k =
      if k ∈ l ∧ (round.dependants.valuesOf k).isEmpty = false then
        some (round.dependants.valuesOf k)
      else t.get? k := by
  induction l generalizing t with
  | nil => simp
  | cons c l ih =>
    obtain ⟨hc, hl⟩ := List.nodup_cons.1 hl
    obtain ⟨hnone, h⟩ := List.forall_mem_cons.1 h
    have hnext : ∀ j, (mergeDependantsOf round trash t c).get? j =
        if c = j ∧ (round.dependants.valuesOf j).isEmpty = false then
          some (round.dependants.valuesOf j)
        else t.get? j := by
      intro j
      rw [mergeDependantsOf_of_none hnone]
      by_cases hj : c = j
      · subst hj
        cases he : (round.dependants.valuesOf c).isEmpty <;> simp
      · split <;> simp [hj]
    rw [List.foldl_cons, ih hl, hnext]
    · by_cases hk : c = k
      · subst hk
        simp [hc]
      · have hk' : k ≠ c := Ne.symm hk
        simp [hk, hk']
    · intro j hj
      have hne : c ≠ j := fun he => hc (he ▸ hj)
      rw [hnext, if_neg (by simp [hne])]
      exact h j hj

/-- The dependants put onto an empty table are those of the round. -/
theorem mergeDependants_replaced (m : Merge) (h : round.dependants.Populated) :
    (m.replaced round).mergeDependants round = round := by
  have hsame : ((m.replaced round).mergeDependants round).dependants = round.dependants := by
    apply Table.eq_of_get?_eq
    intro k
    show (List.foldl _ (Table.empty : SetTable Symbol) _).get? k = _
    rw [get?_foldl_mergeDependantsOf_of_none (IdSet.nodup_toList _) fun _ _ => rfl]
    cases hk : round.dependants.get? k with
    | none => simp [Table.valuesOf, hk, IdSet.isEmpty]
    | some s =>
      have hmem : k ∈ (IdSet.ofList (m.trash.keys ++ round.dependants.keys)).toList := by
        rw [IdSet.mem_toList, IdSet.mem_ofList, List.mem_append, Table.mem_keys, Table.mem_keys]
        exact .inr (by simp [Table.has, hk])
      rw [Table.valuesOf_of_get? hk, if_pos ⟨hmem, h k s hk⟩]
  exact congrArg (fun dependants => { round with dependants := dependants }) hsame

end Merge

/-- **A merge that replaces the graph leaves the graph of the round**, whatever the graph so
far, the removed files and the log. -/
theorem Graph.mergeRound_replaced {names : NameTable} {main : Graph} {r : Round}
    (hreplaces : r.rebuild = true) (h : r.graph.dependants.Populated) :
    main.mergeRound names r = r.graph := by
  simp only [mergeRound, hreplaces, if_true]
  exact Merge.mergeDependants_replaced _ h

/-! ## Steps of a round -/

/-- What happens to a round before it is merged: a report, or a comparison. -/
inductive RoundStep where
  | report (report : Report)
  | compare (mode : Mode)

/-- What a round holds: the graph of its classes, and the imports still queued. -/
structure Held where
  graph : Graph
  imports : List ImportNote

/-- What a round holds. -/
def Round.held (r : Round) : Held := ⟨r.graph, r.imports⟩

namespace Held

/-- The queued imports entered, read through a table of names. -/
def drained (t : NameTable) (h : Held) : Held :=
  ⟨(h.imports.flatMap (Build.readNote t)).foldl Graph.enterMention h.graph, []⟩

/-- Made ready for a comparison of files. -/
def readied (t : NameTable) (files : List SourcePath) (h : Held) : Held :=
  { h.drained t with
    graph := (Merge.knownFiles t files).foldl Graph.addFile (h.drained t).graph }

/-- What is held after a step, read through a table of names. -/
def after (t : NameTable) (h : Held) : RoundStep → Held
  | .report (.compiled x) =>
    { h with
      graph := (Build.readOutput t x).toList.foldl (fun g x => g.record x.1 x.2) h.graph }
  | .report (.imports note) => { h with imports := h.imports ++ [note] }
  | .compare (.easily _ files) => h.readied t files
  | .compare (.fully q) => h.readied t q.files
  | .compare .rebuild => h

/-! ### No class without dependants is a key -/

variable {t : NameTable} {h : Held}

theorem populated_record {g : Graph} (hg : g.dependants.Populated) (f : Symbol) (c : ClassInfo) :
    (g.record f c).dependants.Populated :=
  List.foldlRecOn (motive := Table.Populated) _ _ hg fun _ ht o _ => ht.addValue o c.name

theorem populated_enterMention {g : Graph} (hg : g.dependants.Populated) (m : Symbol × Symbol) :
    (g.enterMention m).dependants.Populated := by
  simp only [Graph.enterMention, Graph.noteImport]
  split <;> exact hg.addValue m.2 m.1

theorem populated_drained (hh : h.graph.dependants.Populated) :
    (h.drained t).graph.dependants.Populated :=
  List.foldlRecOn (motive := fun g : Graph => g.dependants.Populated) _ _ hh
    fun _ hg m _ => populated_enterMention hg m

theorem populated_readied (hh : h.graph.dependants.Populated) (files : List SourcePath) :
    (h.readied t files).graph.dependants.Populated := by
  refine List.foldlRecOn (motive := fun g : Graph => g.dependants.Populated) _ _
    (populated_drained (t := t) hh) fun g hg f _ => ?_
  simp only [Graph.addFile]
  split <;> exact hg

theorem populated_after (hh : h.graph.dependants.Populated) (s : RoundStep) :
    (h.after t s).graph.dependants.Populated := by
  cases s with
  | report report =>
    cases report with
    | compiled x =>
      exact List.foldlRecOn (motive := fun g : Graph => g.dependants.Populated) _ _ hh
        fun _ hg x _ => populated_record hg x.1 x.2
    | imports note => exact hh
  | compare mode =>
    cases mode with
    | easily removed files => exact populated_readied hh files
    | fully q => exact populated_readied hh q.files
    | rebuild => exact hh

theorem populated_foldl_after (hh : h.graph.dependants.Populated) (steps : List RoundStep) :
    (steps.foldl (after t) h).graph.dependants.Populated :=
  List.foldlRecOn (motive := fun h : Held => h.graph.dependants.Populated) _ _ hh
    fun _ hh s _ => populated_after hh s

end Held

namespace Workspace

/-- A round compared, whatever the comparison answers. -/
def compareBy (w : Workspace) (o : OpenRound) : Mode → OpenRound × Workspace
  | .easily removed files => (w.compareEasily o removed files).2
  | .fully q => (w.compareFully o q).2
  | .rebuild => ({ o with round := o.round.onRebuild }, w)

/-- A round after one step. -/
def advance (w : Workspace) (o : OpenRound) : RoundStep → OpenRound × Workspace
  | .report report => w.report o report
  | .compare mode => w.compareBy o mode

/-- A round after a list of steps. -/
def advanceAll (w : Workspace) (o : OpenRound) (steps : List RoundStep) : OpenRound × Workspace :=
  steps.foldl (fun x s => x.2.advance x.1 s) (o, w)

variable {w u : Workspace} {o p : OpenRound} {t : NameTable}

theorem compareBy_easily (h : w.closed = false) (removed files : List SourcePath) :
    w.compareBy o (.easily removed files) =
      ({ o with round := (o.round.compareEasily w.names w.main removed files).2 },
        w.withNames (o.round.compareEasily w.names w.main removed files).1) := by
  simp only [compareBy, compareEasily_open h]

theorem compareBy_fully (h : w.closed = false) (q : RoundRequest) :
    w.compareBy o (.fully q) =
      ({ o with round := (o.round.compareFully w.names w.main q).2.1 },
        w.withNames (o.round.compareFully w.names w.main q).1) := by
  simp only [compareBy, compareFully_open h]

theorem alike_advance (h : w.closed = false) (s : RoundStep) : w.Alike (w.advance o s).2 := by
  cases s with
  | report report => exact alike_report w o report
  | compare mode =>
    cases mode with
    | easily removed files =>
      rw [advance, compareBy_easily h]
      exact alike_withNames ..
    | fully q =>
      rw [advance, compareBy_fully h]
      exact alike_withNames ..
    | rebuild => exact .refl w

/-! ### What a round holds after its steps -/

/-- Making a round ready reads its imports and its files. -/
theorem held_prepare {names : NameTable} {r : Round} {removed files : List SourcePath}
    (h : (internKeyNames (r.prepare names removed files).1).2.2.Within t) :
    names.Within t ∧ (r.prepare names removed files).2.held = r.held.readied t files := by
  have hfiles : ((r.graph.enterNotes names r.imports).2.addFiles
      (r.graph.enterNotes names r.imports).1 files).1.Within t :=
    ((NameTable.within_intern _ _).trans (NameTable.within_intern _ _)).trans h
  obtain ⟨hw, hgraph⟩ := Graph.within_addFiles files _ _ hfiles
  obtain ⟨hw, hnotes⟩ := Graph.within_enterNotes r.imports names r.graph hw
  refine ⟨hw, ?_⟩
  have hready : (r.prepare names removed files).2.graph = (r.held.readied t files).graph :=
    hgraph.trans (congrArg ((Merge.knownFiles t files).foldl Graph.addFile) hnotes)
  exact congrArg (fun g : Graph => Held.mk g []) hready

/-- One step changes what a round holds as the table of names read at the end has it. -/
theorem held_advance (hopen : w.closed = false) {s : RoundStep}
    (h : (w.advance o s).2.names.Within t) :
    w.names.Within t ∧ (w.advance o s).1.round.held = o.round.held.after t s := by
  cases s with
  | report report =>
    cases report with
    | compiled x =>
      obtain ⟨hw, hgraph⟩ := Graph.within_associate w.names o.round.graph x h
      exact ⟨hw, congrArg (fun g : Graph => Held.mk g o.round.imports) hgraph⟩
    | imports note => exact ⟨h, rfl⟩
  | compare mode =>
    cases mode with
    | easily removed files =>
      rw [advance, compareBy_easily hopen] at h ⊢
      exact held_prepare h
    | fully q =>
      rw [advance, compareBy_fully hopen] at h ⊢
      exact held_prepare h
    | rebuild => exact ⟨h, rfl⟩

/-- **What a round holds** after a list of steps depends on what it held at first, on the steps,
and on the names in the end. -/
theorem held_advanceAll (hopen : w.closed = false) {steps : List RoundStep}
    (h : (w.advanceAll o steps).2.names.Within t) :
    w.names.Within t ∧
      (w.advanceAll o steps).1.round.held = steps.foldl (Held.after t) o.round.held := by
  induction steps generalizing w o with
  | nil => exact ⟨h, rfl⟩
  | cons s steps ih =>
    obtain ⟨hw, hheld⟩ := ih ((alike_advance hopen s).closed.trans hopen) h
    obtain ⟨hw, hstep⟩ := held_advance hopen hw
    exact ⟨hw, hheld.trans (congrArg (steps.foldl (Held.after t)) hstep)⟩

theorem alike_advanceAll (hopen : w.closed = false) (steps : List RoundStep) :
    w.Alike (w.advanceAll o steps).2 := by
  induction steps generalizing w o with
  | nil => exact .refl w
  | cons s steps ih =>
    have hs := alike_advance (o := o) hopen s
    exact hs.trans (ih (hs.closed.trans hopen))

/-! ### Names -/

/-- Rounds with the same queued imports put the same names into the table. -/
theorem names_advance (hopen : w.closed = false) (hopen' : u.closed = false)
    (hnames : u.names = w.names) (himports : p.round.imports = o.round.imports) (s : RoundStep) :
    (u.advance p s).2.names = (w.advance o s).2.names ∧
      (u.advance p s).1.round.imports = (w.advance o s).1.round.imports := by
  cases s with
  | report report =>
    cases report with
    | compiled x =>
      refine ⟨?_, himports⟩
      show (p.round.graph.associate u.names ..).1 = (o.round.graph.associate w.names ..).1
      rw [Graph.names_associate, Graph.names_associate, hnames]
    | imports note => exact ⟨hnames, congrArg (· ++ [note]) himports⟩
  | compare mode =>
    cases mode with
    | easily removed files =>
      rw [advance, advance, compareBy_easily hopen, compareBy_easily hopen']
      refine ⟨?_, rfl⟩
      show (internKeyNames (p.round.prepare ..).1).2.2 = (internKeyNames (o.round.prepare ..).1).2.2
      rw [names_compared, names_compared, hnames, himports]
    | fully q =>
      rw [advance, advance, compareBy_fully hopen, compareBy_fully hopen']
      refine ⟨?_, rfl⟩
      show (internKeyNames (p.round.prepare ..).1).2.2 = (internKeyNames (o.round.prepare ..).1).2.2
      rw [names_compared, names_compared, hnames, himports]
    | rebuild => exact ⟨hnames, himports⟩

theorem names_advanceAll (hopen : w.closed = false) (hopen' : u.closed = false)
    (hnames : u.names = w.names) (himports : p.round.imports = o.round.imports)
    (steps : List RoundStep) :
    (u.advanceAll p steps).2.names = (w.advanceAll o steps).2.names ∧
      (u.advanceAll p steps).1.round.imports = (w.advanceAll o steps).1.round.imports := by
  induction steps generalizing w u o p with
  | nil => exact ⟨hnames, himports⟩
  | cons s steps ih =>
    obtain ⟨hnames', himports'⟩ := names_advance hopen hopen' hnames himports s
    exact ih ((alike_advance hopen s).closed.trans hopen)
      ((alike_advance hopen' s).closed.trans hopen') hnames' himports'

/-! ### Rounds that are to replace the graph -/

/-- A round that is to replace the graph stays one that may be merged so. -/
theorem replaces_advance (hopen : w.closed = false) {s : RoundStep}
    (h : o.round.rebuild = true ∧ o.round.differentiated = true ∨ s = .compare .rebuild) :
    (w.advance o s).1.round.rebuild = true ∧
      (w.advance o s).1.round.differentiated = true := by
  cases s with
  | report report =>
    have hround := h.resolve_right (by simp)
    cases report <;> exact hround
  | compare mode =>
    cases mode with
    | easily removed files =>
      have hround := h.resolve_right (by simp)
      rw [advance, compareBy_easily hopen]
      exact ⟨hround.1, rfl⟩
    | fully q =>
      have hround := h.resolve_right (by simp)
      rw [advance, compareBy_fully hopen]
      exact ⟨hround.1, rfl⟩
    | rebuild => exact ⟨rfl, rfl⟩

theorem replaces_advanceAll (hopen : w.closed = false) {steps : List RoundStep}
    (h : o.round.rebuild = true ∧ o.round.differentiated = true ∨ .compare .rebuild ∈ steps) :
    (w.advanceAll o steps).1.round.rebuild = true ∧
      (w.advanceAll o steps).1.round.differentiated = true := by
  induction steps generalizing w o with
  | nil => exact h.resolve_right (by simp)
  | cons s steps ih =>
    refine ih ((alike_advance hopen s).closed.trans hopen) ?_
    rcases h with h | h
    · exact .inl (replaces_advance hopen (.inl h))
    · rcases List.mem_cons.1 h with rfl | h
      · exact .inl (replaces_advance hopen (.inr rfl))
      · exact .inr h

/-- A round that replaces the graph is merged into what it holds when its imports are entered. -/
theorem integrate_replaced (hopen : w.closed = false)
    (h : o.round.rebuild = true ∧ o.round.differentiated = true)
    (hpopulated : (o.round.enterImports w.names).2.graph.dependants.Populated) :
    (w.integrate o).1 = .ok () ∧
      (w.integrate o).2.main = (o.round.enterImports w.names).2.graph := by
  refine ⟨?_, ?_⟩
  · have hmerged : w.main.integrate w.names o.round =
        .ok ((o.round.enterImports w.names).1,
          w.main.mergeRound (o.round.enterImports w.names).1 (o.round.enterImports w.names).2) := by
      simp [Graph.integrate, h.2]
    unfold integrate
    rw [hmerged]
    dsimp only
    rw [reach_withNames hopen]
  · rw [(integrate_open hopen h.2).2]
    exact Graph.mergeRound_replaced h.1 hpopulated

/-- What a round that starts empty holds in the end, its imports entered, can be told from the
steps and any table that has all the names. -/
theorem graph_drained_advanceAll {steps : List RoundStep} {t : NameTable}
    (hopen : w.closed = false) (hempty : o.round.graph = .empty)
    (ht : ((w.advanceAll o steps).1.round.enterImports
      (w.advanceAll o steps).2.names).1.Within t) :
    ((w.advanceAll o steps).1.round.enterImports (w.advanceAll o steps).2.names).2.graph =
      ((steps.foldl (Held.after t) ⟨.empty, o.round.imports⟩).drained t).graph := by
  obtain ⟨hw, hgraph⟩ := Graph.within_enterNotes _ _ _ ht
  obtain ⟨-, hheld⟩ := held_advanceAll hopen hw
  have hfirst : o.round.held = ⟨.empty, o.round.imports⟩ := by rw [Round.held, hempty]
  rw [hfirst] at hheld
  rw [← hheld]
  exact hgraph

/-- A round that starts empty and is to replace the graph is merged into what it holds. -/
theorem integrate_advanceAll {steps : List RoundStep} (hopen : w.closed = false)
    (hempty : o.round.graph = .empty) (hreplace : .compare .rebuild ∈ steps) :
    let x := w.advanceAll o steps
    (x.2.integrate x.1).1 = .ok () ∧
      (x.2.integrate x.1).2.main = (x.1.round.enterImports x.2.names).2.graph := by
  intro x
  refine integrate_replaced ((alike_advanceAll hopen steps).closed.trans hopen)
    (replaces_advanceAll hopen (.inr hreplace)) ?_
  rw [graph_drained_advanceAll hopen hempty (.refl _)]
  exact Held.populated_drained (Held.populated_foldl_after Table.populated_empty steps)

/-- The names after a round with its imports entered depend on those before it and on the
steps. -/
theorem names_drained_advanceAll (hopen : w.closed = false) (hopen' : u.closed = false)
    (hnames : u.names = w.names) (himports : p.round.imports = o.round.imports)
    (steps : List RoundStep) :
    let x := w.advanceAll o steps
    let y := u.advanceAll p steps
    (y.1.round.enterImports y.2.names).1 = (x.1.round.enterImports x.2.names).1 := by
  intro x y
  obtain ⟨hsame, hleft⟩ := names_advanceAll hopen hopen' hnames himports steps
  show (y.1.round.graph.enterNotes ..).1 = (x.1.round.graph.enterNotes ..).1
  rw [Graph.names_enterNotes, Graph.names_enterNotes]
  exact congrArg₂ (fun names imports => names.internAll (imports.flatMap ImportNote.names))
    hsame hleft

/-- **A round that replaces the graph forgets the past**: a round that starts empty is filled and
compared by any steps, one of which says that it replaces the graph.  Its merge goes through, and
every table of the graph is then that of the round with its imports entered.

So it is whatever graph the round was merged into: another graph ends up the same after the same
steps, when both started with the same names or keep them in one table. -/
theorem main_integrate_replaced (hopen : w.closed = false) (hempty : o.round.graph = .empty)
    {steps : List RoundStep} (hreplace : .compare .rebuild ∈ steps) :
    let x := w.advanceAll o steps
    (x.2.integrate x.1).1 = .ok () ∧
      (x.2.integrate x.1).2.main = (x.1.round.enterImports x.2.names).2.graph ∧
      ∀ (u : Workspace) (p : OpenRound), u.closed = false → p.round.graph = .empty →
        p.round.imports = o.round.imports →
        let y := u.advanceAll p steps
        (u.names = w.names ∨
          ∃ t, (x.1.round.enterImports x.2.names).1.Within t ∧
            (y.1.round.enterImports y.2.names).1.Within t) →
          (y.2.integrate y.1).2.main = (x.2.integrate x.1).2.main := by
  intro x
  obtain ⟨hok, hmain⟩ := integrate_advanceAll hopen hempty hreplace
  refine ⟨hok, hmain, ?_⟩
  intro u p hopen' hempty' himports y hshare
  obtain ⟨t, hx, hy⟩ : ∃ t, (x.1.round.enterImports x.2.names).1.Within t ∧
      (y.1.round.enterImports y.2.names).1.Within t := by
    rcases hshare with hnames | hshare
    · have hend := names_drained_advanceAll hopen hopen' hnames himports steps
      exact ⟨_, .refl _, hend ▸ .refl _⟩
    · exact hshare
  have hx' := graph_drained_advanceAll hopen hempty hx
  have hy' := graph_drained_advanceAll hopen' hempty' hy
  rw [himports] at hy'
  rw [(integrate_advanceAll hopen' hempty' hreplace).2, hmain, hy', hx']

end Workspace

/-! ## A round that was compared as a part at first

One of two files is compiled, and the round is compared as if the other one had been removed.
Then it replaces the graph after all. -/

namespace SecondThoughts

def names : NameTable :=
  NameTable.new.internAll ["java/lang/Object", "A.java", "B.java", "p/A", "p/B"]

/-- A class of the example. -/
def info (name : Symbol) : ClassInfo := .plain name (.ofFlags [.pub]) (.named ⟨1⟩)

/-- A graph in which the class of the other file uses the one that is compiled. -/
def old : Graph :=
  (Graph.empty.record ⟨2⟩ (info ⟨4⟩)).record ⟨3⟩
    { info ⟨5⟩ with usages := .single (.mention ⟨4⟩) }

/-- A workspace with a graph. -/
def space (main : Graph) : Workspace := { Workspace.inMemory with names := names, main := main }

def steps : List RoundStep :=
  [.report (.compiled ⟨"A.java", "p/A.class", some (info ⟨4⟩)⟩),
    .report (.imports ⟨"p.A", ["p.B"]⟩),
    .compare (.easily [⟨"B.java"⟩] [⟨"A.java"⟩]),
    .compare .rebuild]

/-- The graph after the steps, merged into a given one. -/
def merged (main : Graph) : Except Fault Unit × Workspace :=
  ((space main).advanceAll .fresh steps).2.integrate ((space main).advanceAll .fresh steps).1

/-- The round ends in the same graph from the old one and from none. -/
theorem merged_old :
    (merged old).1 = .ok () ∧ (merged old).2.main = (merged .empty).2.main ∧
      (merged old).2.main.fileOf.has ⟨5⟩ = false ∧
      (merged old).2.main.dependantsOf ⟨5⟩ = [⟨4⟩] := by
  have hreplace : .compare .rebuild ∈ steps := by simp [steps]
  obtain ⟨hok, -, hsame⟩ :=
    Workspace.main_integrate_replaced (w := space old) (o := .fresh) rfl rfl hreplace
  exact ⟨hok, (hsame (space .empty) .fresh rfl rfl rfl (.inl rfl)).symm, rfl, rfl⟩

end SecondThoughts

end ClassImpact

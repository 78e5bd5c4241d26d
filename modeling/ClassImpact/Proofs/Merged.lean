import Mathlib
import ClassImpact.Merge
import ClassImpact.Proofs.Noted

/-!
# What a merge leaves in the tables

A merge writes in stages: removed files, deleted classes, supertype edges, changed
classes, changed files, dependants.  What the stages together leave in each table is
said once here, in terms of the graph so far, the round and its log, so that later
proofs do not follow the stages.

A purge takes classes out, drops the entries of files, marks former users and notes lost
supertypes.  `Purges` says which ones; two purges one after the other are one purge.

The other stages go through lists of keys and rewrite one entry at a time.  What such a run
leaves is read off from one step by `foldl_frame` and `foldl_rewrites`.
-/

namespace ClassImpact

namespace ClassInfo

/-- Whether a class has a usage that points into another one. -/
def Uses (c : ClassInfo) (owner : Symbol) : Prop := ∃ u ∈ c.usages, u.owner = owner

end ClassInfo

namespace Merge

/-! ## Purging -/

theorem mem_discard {trash : SetTable Symbol} {user d o : Symbol} {usages : IdSet Usage} :
    d ∈ (discard trash user usages).valuesOf o ↔
      d ∈ trash.valuesOf o ∨ d = user ∧ ∃ u ∈ usages, u.owner = o := by
  have h : discard trash user usages =
      (usages.toList.map Usage.owner).foldl (fun t s => t.addValue s user) trash := by
    rw [discard, List.foldl_map]
  rw [h, Table.mem_foldl_addValue, and_comm, List.mem_map]
  rfl

/-- `m'` is `m` after the classes for which `left` holds have left their files: without the
`gone` classes and the entries of `dropped` files, with the former users in the trash and the
former subclasses among the losses. -/
structure Purges (m m' : Merge) (gone dropped : Symbol → Prop) (left : ClassInfo → Prop) :
    Prop where
  fileOf : ∀ c f, m'.main.fileOf.get? c = some f ↔ m.main.fileOf.get? c = some f ∧ ¬ gone c
  classesIn : ∀ f s, m'.main.classesIn.get? f = some s ↔
    m.main.classesIn.get? f = some s ∧ ¬ dropped f
  dependants : ∀ o d, d ∈ m'.main.dependants.valuesOf o ↔
    d ∈ m.main.dependants.valuesOf o ∧ ¬ gone o
  subclasses : ∀ t s, s ∈ m'.main.subclasses.valuesOf t ↔
    s ∈ m.main.subclasses.valuesOf t ∧ ¬ gone t
  trash : ∀ o d, d ∈ m'.trash.valuesOf o ↔
    d ∈ m.trash.valuesOf o ∨ ∃ c, left c ∧ c.name = d ∧ c.Uses o
  lost : ∀ t s, s ∈ m'.log.removedSupers.valuesOf t ↔
    s ∈ m.log.removedSupers.valuesOf t ∨ ∃ c, left c ∧ c.name = s ∧ t ∈ c.supers
  gained : m'.log.addedSupers = m.log.addedSupers
  changedClasses : m'.log.changedClasses = m.log.changedClasses
  changedFiles : m'.log.changedFiles = m.log.changedFiles
  deletedClasses : m'.log.deletedClasses = m.log.deletedClasses

namespace Purges

variable {m m₁ m₂ : Merge} {gone gone' dropped dropped' : Symbol → Prop}
  {left left' : ClassInfo → Prop}

theorem refl (m : Merge) : Purges m m (fun _ => False) (fun _ => False) fun _ => False :=
  ⟨by simp, by simp, by simp, by simp, by simp, by simp, rfl, rfl, rfl, rfl⟩

theorem trans (h : Purges m m₁ gone dropped left) (h' : Purges m₁ m₂ gone' dropped' left') :
    Purges m m₂ (fun c => gone c ∨ gone' c) (fun f => dropped f ∨ dropped' f)
      fun c => left c ∨ left' c where
  fileOf c f := by rw [h'.fileOf, h.fileOf, not_or, and_assoc]
  classesIn f s := by rw [h'.classesIn, h.classesIn, not_or, and_assoc]
  dependants o d := by rw [h'.dependants, h.dependants, not_or, and_assoc]
  subclasses t s := by rw [h'.subclasses, h.subclasses, not_or, and_assoc]
  trash o d := by simp only [h'.trash, h.trash, or_and_right, exists_or, or_assoc]
  lost t s := by simp only [h'.lost, h.lost, or_and_right, exists_or, or_assoc]
  gained := h'.gained.trans h.gained
  changedClasses := h'.changedClasses.trans h.changedClasses
  changedFiles := h'.changedFiles.trans h.changedFiles
  deletedClasses := h'.deletedClasses.trans h.deletedClasses

theorem congr (h : Purges m m₁ gone dropped left) (hg : ∀ c, gone c ↔ gone' c)
    (hd : ∀ f, dropped f ↔ dropped' f) (hl : ∀ c, left c ↔ left' c) :
    Purges m m₁ gone' dropped' left' := by
  obtain rfl : gone = gone' := funext fun c => propext (hg c)
  obtain rfl : dropped = dropped' := funext fun f => propext (hd f)
  obtain rfl : left = left' := funext fun c => propext (hl c)
  exact h

/-- The entries left by a purge, an absent one counted like an empty one. -/
theorem mem_classesIn (h : Purges m m₁ gone dropped left) (f : Symbol) (c : ClassInfo) :
    c ∈ m₁.main.classesIn.valuesOf f ↔ c ∈ m.main.classesIn.valuesOf f ∧ ¬ dropped f := by
  have hmem : ∀ (t : SetTable ClassInfo), c ∈ t.valuesOf f ↔ ∃ s, t.get? f = some s ∧ c ∈ s := by
    intro t
    cases ht : t.get? f <;> simp [Table.valuesOf, ht]
  rw [hmem, hmem]
  simp only [h.classesIn]
  constructor
  · rintro ⟨s, hs, hc⟩
    exact ⟨⟨s, hs.1, hc⟩, hs.2⟩
  · rintro ⟨⟨s, hs, hc⟩, hf⟩
    exact ⟨s, ⟨hs, hf⟩, hc⟩

end Purges

theorem purges_moveOut (m : Merge) (c : ClassInfo) :
    Purges m (m.moveOut c) (fun _ => False) (fun _ => False) (· = c) where
  fileOf := by simp [moveOut]
  classesIn := by simp [moveOut]
  dependants := by simp [moveOut]
  subclasses := by simp [moveOut]
  trash o d := by
    rw [exists_eq_left, eq_comm (a := c.name)]
    exact mem_discard
  lost t s := by
    rw [exists_eq_left, eq_comm (a := c.name), and_comm]
    exact ChangeLog.mem_removedSupers_lost
  gained := rfl
  changedClasses := rfl
  changedFiles := rfl
  deletedClasses := rfl

theorem purges_purge (m : Merge) (c : ClassInfo) :
    Purges m (m.purge c) (· = c.name) (fun _ => False) (· = c) :=
  { purges_moveOut m c with
    fileOf := fun n f => by
      by_cases h : n = c.name <;> simp [purge, moveOut, h, eq_comm (a := c.name)]
    dependants := fun o d => by
      by_cases h : o = c.name <;> simp [purge, moveOut, h, eq_comm (a := c.name)]
    subclasses := fun t s => by
      by_cases h : t = c.name <;> simp [purge, moveOut, h, eq_comm (a := c.name)] }

/-- Classes that leave one after the other; those for which `gone` holds leave for good. -/
theorem purges_foldl (step : Merge → ClassInfo → Merge) (gone : ClassInfo → Bool)
    (hgone : ∀ m c, gone c = true → step m c = m.purge c)
    (hmoved : ∀ m c, gone c = false → step m c = m.moveOut c) (l : List ClassInfo) (m : Merge) :
    Purges m (l.foldl step m) (fun n => ∃ c ∈ l, c.name = n ∧ gone c = true) (fun _ => False)
      (· ∈ l) := by
  induction l generalizing m with
  | nil => exact (Purges.refl m).congr (by simp) (by simp) (by simp)
  | cons c l ih =>
    have hleft : ∀ e, (e = c ∨ e ∈ l) ↔ e ∈ c :: l := fun _ => List.mem_cons.symm
    cases h : gone c with
    | true =>
      rw [List.foldl_cons, hgone m c h]
      refine ((purges_purge m c).trans (ih _)).congr (fun n => ?_) (by simp) hleft
      rw [List.exists_mem_cons_iff, eq_comm (a := n)]
      simp [h]
    | false =>
      rw [List.foldl_cons, hmoved m c h]
      exact ((purges_moveOut m c).trans (ih _)).congr (by simp [h]) (by simp) hleft

/-- The classes of a removed file leave: for good, unless the round has them elsewhere. -/
theorem purges_purgeFile (round : Graph) (m : Merge) (file : Symbol) :
    Purges m (purgeFile round m file)
      (fun n => (m.main.classesIn.valuesOf file).has n = true ∧ round.fileOf.has n = false)
      (· = file) (· ∈ m.main.classesIn.valuesOf file) := by
  have h := purges_foldl (fun m c => if round.fileOf.has c.name then m.moveOut c else m.purge c)
    (fun c => !round.fileOf.has c.name) (fun m c hc => by simp at hc; simp [hc])
    (fun m c hc => by simp at hc; simp [hc]) (m.main.classesIn.valuesOf file).toList m
  have hgone : ∀ n, (∃ c ∈ (m.main.classesIn.valuesOf file).toList,
      c.name = n ∧ (!round.fileOf.has c.name) = true) ↔
        (m.main.classesIn.valuesOf file).has n = true ∧ round.fileOf.has n = false := by
    intro n
    rw [IdSet.has_iff_mem]
    constructor
    · rintro ⟨c, hc, rfl, hr⟩
      exact ⟨⟨c, hc, rfl⟩, by simpa using hr⟩
    · rintro ⟨⟨c, hc, rfl⟩, hr⟩
      exact ⟨c, hc, rfl, by simp [show round.fileOf.has c.name = false from hr]⟩
  exact
    { h.congr hgone (fun _ => Iff.rfl) (fun _ => Iff.rfl) with
      classesIn := fun f s => by
        by_cases hf : file = f
        · simp [purgeFile, hf]
        · simp [purgeFile, hf, h.classesIn, Ne.symm hf] }

/-- All removed files leave. -/
theorem purges_removed (round : Graph) (files : List Symbol) (m : Merge) :
    Purges m (files.foldl (purgeFile round) m)
      (fun n => round.fileOf.has n = false ∧
        ∃ f ∈ files, (m.main.classesIn.valuesOf f).has n = true)
      (· ∈ files) fun c => ∃ f ∈ files, c ∈ m.main.classesIn.valuesOf f := by
  induction files generalizing m with
  | nil => exact (Purges.refl m).congr (by simp) (by simp) (by simp)
  | cons file files ih =>
    have h := purges_purgeFile round m file
    -- the file's own entry is empty by then, so a second removal of it finds nothing
    have hmem : ∀ f c, c ∈ (purgeFile round m file).main.classesIn.valuesOf f ↔
        c ∈ m.main.classesIn.valuesOf f ∧ f ≠ file := h.mem_classesIn
    have hhas : ∀ f n, ((purgeFile round m file).main.classesIn.valuesOf f).has n = true ↔
        (m.main.classesIn.valuesOf f).has n = true ∧ f ≠ file := by
      intro f n
      rw [IdSet.has_iff_mem, IdSet.has_iff_mem, ← exists_and_right]
      exact exists_congr fun c => by rw [hmem, and_right_comm]
    have hsplit : ∀ P : Symbol → Prop,
        (P file ∨ ∃ f ∈ files, P f ∧ f ≠ file) ↔ ∃ f ∈ file :: files, P f := by
      intro P
      rw [List.exists_mem_cons_iff]
      constructor
      · rintro (hP | ⟨f, hf, hP, -⟩)
        · exact .inl hP
        · exact .inr ⟨f, hf, hP⟩
      · rintro (hP | ⟨f, hf, hP⟩)
        · exact .inl hP
        · by_cases hff : f = file
          · exact .inl (hff ▸ hP)
          · exact .inr ⟨f, hf, hP, hff⟩
    refine (h.trans (ih _)).congr (fun n => ?_) (by simp) (fun c => ?_)
    · simp only [hhas]
      rw [← hsplit, and_comm (b := round.fileOf.has n = false), ← and_or_left]
    · simp only [hmem]
      exact hsplit fun f => c ∈ m.main.classesIn.valuesOf f

/-- All deleted classes leave. -/
theorem purges_deleted (s : IdSet ClassInfo) (m : Merge) :
    Purges m (s.toList.foldl purge m) (fun n => s.has n = true) (fun _ => False) (· ∈ s) := by
  refine (purges_foldl purge (fun _ => true) (fun _ _ _ => rfl) (fun _ _ h => by simp at h)
    s.toList m).congr (fun n => ?_) (fun _ => Iff.rfl) fun _ => Iff.rfl
  simp [IdSet.has_iff_mem, ident_classInfo]

/-! ## Runs through the keys of a table -/

section

variable {σ β : Type} {step : σ → Symbol → σ} {l : List Symbol}

/-- What no step touches, a run leaves as it is. -/
theorem foldl_frame (step : σ → Symbol → σ) (view : σ → β)
    (h : ∀ st, ∀ c ∈ l, view (step st c) = view st) (st : σ) : view (l.foldl step st) = view st :=
  List.foldlRecOn (motive := fun st' => view st' = view st) l step rfl
    fun st' hst c hc => (h st' c hc).trans hst

/-- What the step of one key rewrites, to the same each time, a run rewrites when it comes to
this key. -/
theorem foldl_rewrites (view : σ → β) (rewrite : β → β) {key : Symbol}
    (hstep : ∀ st c, view (step st c) = if c = key then rewrite (view st) else view st)
    (htwice : ∀ v, rewrite (rewrite v) = rewrite v) (st : σ) :
    view (l.foldl step st) = if key ∈ l then rewrite (view st) else view st := by
  induction l generalizing st with
  | nil => simp
  | cons c l ih =>
    rw [List.foldl_cons, ih, hstep]
    by_cases h : c = key
    · by_cases hl : key ∈ l <;> simp [h, hl, htwice]
    · simp [h, Ne.symm h]

/-- A table with one entry copied from another one, or erased where that has none. -/
theorem get?_copied {α : Type} {t t' u : Table α} {k : Symbol}
    (hsome : ∀ v, u.get? k = some v → t' = t.insert k v) (hnone : u.get? k = none → t' = t.erase k)
    (n : Symbol) : t'.get? n = if k = n then u.get? n else t.get? n := by
  cases hk : u.get? k with
  | none =>
    rw [hnone hk, Table.get?_erase, ← hk]
    exact ite_congr rfl (congrArg u.get?) fun _ => rfl
  | some v =>
    rw [hsome v hk, Table.get?_insert, ← hk]
    exact ite_congr rfl (congrArg u.get?) fun _ => rfl

/-- A step that exchanges, in the entry of its key, the `lost` values for the `gained` ones. -/
def Exchanges (step : SetTable Symbol → Symbol → SetTable Symbol) (lost gained : SetTable Symbol) :
    Prop :=
  ∀ t k key v, v ∈ (step t k).valuesOf key ↔
    if k = key then
      v ∈ t.valuesOf key ∧ v ∉ lost.valuesOf key ∨ v ∈ gained.valuesOf key
    else v ∈ t.valuesOf key

theorem Exchanges.mem_foldl {step : SetTable Symbol → Symbol → SetTable Symbol}
    {lost gained : SetTable Symbol} (h : Exchanges step lost gained) (t : SetTable Symbol)
    (key v : Symbol) :
    v ∈ (l.foldl step t).valuesOf key ↔
      if key ∈ l then
        v ∈ t.valuesOf key ∧ v ∉ lost.valuesOf key ∨ v ∈ gained.valuesOf key
      else v ∈ t.valuesOf key :=
  iff_of_eq <| foldl_rewrites (fun t : SetTable Symbol => v ∈ t.valuesOf key)
    (fun p => p ∧ v ∉ lost.valuesOf key ∨ v ∈ gained.valuesOf key)
    (fun t c => propext (h t c key v)) (fun p => propext (by tauto)) t

/-- A run through all keys that lose or gain exchanges the values everywhere. -/
theorem Exchanges.mem_foldl_all {step : SetTable Symbol → Symbol → SetTable Symbol}
    {lost gained : SetTable Symbol} (h : Exchanges step lost gained) (t : SetTable Symbol)
    {key v : Symbol} (hl : lost.has key = true ∨ gained.has key = true → key ∈ l) :
    v ∈ (l.foldl step t).valuesOf key ↔
      v ∈ t.valuesOf key ∧ v ∉ lost.valuesOf key ∨ v ∈ gained.valuesOf key := by
  rw [h.mem_foldl]
  by_cases hkey : key ∈ l
  · rw [if_pos hkey]
  · have hlost : v ∉ lost.valuesOf key := fun hv =>
      hkey (hl (.inl (Table.has_of_mem_valuesOf hv)))
    have hgained : v ∉ gained.valuesOf key := fun hv =>
      hkey (hl (.inr (Table.has_of_mem_valuesOf hv)))
    simp [hkey, hlost, hgained]

theorem mem_keysOf {t u : SetTable Symbol} {key : Symbol} :
    key ∈ (IdSet.ofList (t.keys ++ u.keys)).toList ↔ t.has key = true ∨ u.has key = true := by
  rw [IdSet.mem_toList, IdSet.mem_ofList, List.mem_append, Table.mem_keys, Table.mem_keys]

end

/-! ## Changed classes and files -/

section

variable {round : Graph} {l : List Symbol} {m : Merge}

theorem describe?_mergeClass {c d : Symbol} (h : d ≠ c) :
    (mergeClass round m c).main.describe? d = m.main.describe? d := by
  have hf : (mergeClass round m c).main.fileOf.get? d = m.main.fileOf.get? d := by
    cases hr : round.fileOf.get? c <;> simp [mergeClass, hr, Ne.symm h]
  simp only [Graph.describe?, hf]
  rfl

theorem mem_trash_mergeClass (c o d : Symbol) :
    d ∈ (mergeClass round m c).trash.valuesOf o ↔
      d ∈ m.trash.valuesOf o ∨ d = c ∧ ∃ e, m.main.describe? c = some e ∧ e.Uses o := by
  cases h : m.main.describe? c with
  | none => simp [mergeClass, h]
  | some e =>
    simp only [mergeClass, h, mem_discard, Option.some.injEq, exists_eq_left']
    rfl

theorem fileOf_mergeClasses (n : Symbol) :
    (l.foldl (mergeClass round) m).main.fileOf.get? n =
      if n ∈ l then round.fileOf.get? n else m.main.fileOf.get? n :=
  foldl_rewrites (fun m => m.main.fileOf.get? n) (fun _ => round.fileOf.get? n)
    (fun m c => get?_copied (fun _ h => by simp [mergeClass, h]) (fun h => by simp [mergeClass, h])
      n)
    (fun _ => rfl) m

theorem mem_trash_mergeClasses (hl : l.Nodup) (o d : Symbol) :
    d ∈ (l.foldl (mergeClass round) m).trash.valuesOf o ↔
      d ∈ m.trash.valuesOf o ∨ d ∈ l ∧ ∃ e, m.main.describe? d = some e ∧ e.Uses o := by
  induction l generalizing m with
  | nil => simp
  | cons c l ih =>
    obtain ⟨hc, hl⟩ := List.nodup_cons.1 hl
    rw [List.foldl_cons, ih hl, mem_trash_mergeClass, or_assoc]
    refine or_congr Iff.rfl ?_
    by_cases h : d = c
    · subst h
      simp [hc]
    · simp [h, describe?_mergeClass h]

theorem classesIn_mergeFiles (f : Symbol) :
    (l.foldl (mergeFile round) m).main.classesIn.get? f =
      if f ∈ l then round.classesIn.get? f else m.main.classesIn.get? f :=
  foldl_rewrites (fun m => m.main.classesIn.get? f) (fun _ => round.classesIn.get? f)
    (fun m file => get?_copied (fun _ h => by simp [mergeFile, h]) (fun h => by simp [mergeFile, h])
      f)
    (fun _ => rfl) m

/-! ## Dependants -/

theorem valuesOf_mergeDependantsOf_ne {trash t : SetTable Symbol} {c o : Symbol} (h : c ≠ o) :
    (mergeDependantsOf round trash t c).valuesOf o = t.valuesOf o := by
  simp only [mergeDependantsOf]
  split
  · split <;> simp [h]
  · split <;> simp [h]

theorem mem_mergeDependantsOf_self {trash t : SetTable Symbol} (o d : Symbol) :
    d ∈ (mergeDependantsOf round trash t o).valuesOf o ↔
      d ∈ t.valuesOf o ∧ d ∉ trash.valuesOf o ∨ d ∈ round.dependants.valuesOf o := by
  simp only [mergeDependantsOf]
  split
  · have hnext : d ∈ ((t.valuesOf o).sdiff (trash.valuesOf o)).union
        (round.dependants.valuesOf o) ↔
          d ∈ t.valuesOf o ∧ d ∉ trash.valuesOf o ∨ d ∈ round.dependants.valuesOf o := by
      rw [IdSet.mem_union_iff, IdSet.mem_sdiff_iff]
    rw [← hnext]
    split
    · rename_i he
      simp [IdSet.isEmpty_iff.1 he d]
    · simp
  · rename_i hsome
    -- a side is empty, so nothing is taken out
    have hkeep : d ∈ t.valuesOf o → d ∉ trash.valuesOf o := by
      intro ht htr
      refine hsome ?_
      have h₁ : (trash.valuesOf o).isEmpty ≠ true := fun hf => IdSet.isEmpty_iff.1 hf d htr
      have h₂ : (t.valuesOf o).isEmpty ≠ true := fun hf => IdSet.isEmpty_iff.1 hf d ht
      simp [h₁, h₂]
    split
    · rename_i he
      have := IdSet.isEmpty_iff.1 he d
      tauto
    · rw [Table.valuesOf_addValues, if_pos rfl, IdSet.mem_union_iff]
      tauto

theorem exchanges_mergeDependantsOf {trash : SetTable Symbol} :
    Exchanges (mergeDependantsOf round trash) trash round.dependants := by
  intro t c o d
  by_cases h : c = o
  · subst h
    rw [if_pos rfl, mem_mergeDependantsOf_self]
  · rw [if_neg h, valuesOf_mergeDependantsOf_ne h]

/-- The dependants of a class after a merge: without the trash, and with those of the round. -/
theorem mem_mergeDependants (o d : Symbol) :
    d ∈ (m.mergeDependants round).dependants.valuesOf o ↔
      d ∈ m.main.dependants.valuesOf o ∧ d ∉ m.trash.valuesOf o ∨
        d ∈ round.dependants.valuesOf o :=
  exchanges_mergeDependantsOf.mem_foldl_all _ mem_keysOf.2

end

end Merge

/-! ## The merge as a whole -/

namespace Round

/-- A class that leaves the graph with the round. -/
def Drops (names : NameTable) (main : Graph) (r : Round) (c : Symbol) : Prop :=
  r.log.deletedClasses.has c = true ∨
    r.graph.fileOf.has c = false ∧
      ∃ f ∈ Merge.knownFiles names r.removedFiles, (main.classesIn.valuesOf f).has c = true

/-- A class whose record the round writes anew. -/
def Restates (r : Round) (c : Symbol) : Prop :=
  c ∈ r.log.changedClasses ∧ r.log.deletedClasses.has c = false

/-- A class that was a user of `o` so far, and whose old usages the round takes back. -/
inductive Former (names : NameTable) (main : Graph) (r : Round) (o d : Symbol) : Prop where
  | removed {f : Symbol} {c : ClassInfo} (hf : f ∈ Merge.knownFiles names r.removedFiles)
      (hc : c ∈ main.classesIn.valuesOf f) (hd : c.name = d) (ho : c.Uses o)
  | deleted {c : ClassInfo} (hc : c ∈ r.log.deletedClasses) (hd : c.name = d) (ho : c.Uses o)
  | restated {f : Symbol} {c : ClassInfo} (hr : r.Restates d) (hg : ¬ r.Drops names main d)
      (hf : main.fileOf.get? d = some f) (hk : f ∉ Merge.knownFiles names r.removedFiles)
      (hc : c ∈ main.classesIn.valuesOf f) (hd : c.name = d) (ho : c.Uses o)

end Round

theorem Graph.describe?_eq_some {g : Graph} {n : Symbol} {c : ClassInfo} :
    g.describe? n = some c ↔
      ∃ f, g.fileOf.get? n = some f ∧ c ∈ g.classesIn.valuesOf f ∧ c.name = n := by
  simp only [describe?, Option.bind_eq_some_iff, IdSet.find?_eq_some, ident_classInfo]

namespace Merge

variable (names : NameTable) (main : Graph) (r : Round)

/-- The graph and the trash once everything that leaves is purged. -/
def purged : Merge :=
  (finalLog r.log).deletedClasses.toList.foldl purge
    ((knownFiles names r.removedFiles).foldl (purgeFile r.graph) ⟨main, finalLog r.log, .empty⟩)

theorem purges_purged :
    Purges ⟨main, finalLog r.log, .empty⟩ (purged names main r) (r.Drops names main)
      (· ∈ knownFiles names r.removedFiles)
      fun c => (∃ f ∈ knownFiles names r.removedFiles, c ∈ main.classesIn.valuesOf f) ∨
        c ∈ r.log.deletedClasses :=
  ((purges_removed r.graph _ _).trans (purges_deleted _ _)).congr (fun _ => or_comm) (by simp)
    fun _ => Iff.rfl

theorem describe?_purged {d : Symbol} {c : ClassInfo} :
    (purged names main r).main.describe? d = some c ↔
      ∃ f, main.fileOf.get? d = some f ∧ ¬ r.Drops names main d ∧
        f ∉ knownFiles names r.removedFiles ∧ c ∈ main.classesIn.valuesOf f ∧ c.name = d := by
  have h := purges_purged names main r
  simp only [Graph.describe?_eq_some, h.fileOf, h.mem_classesIn]
  refine exists_congr fun f => ?_
  tauto

/-- The purged graph brought up to date, but for the dependants. -/
def written : Merge :=
  (finalLog r.log).changedFiles.toList.foldl (mergeFile r.graph)
    ((finalLog r.log).changedClasses.toList.foldl (mergeClass r.graph)
      (purged names main r).mergeSubclasses)

theorem updated_eq_written :
    updated r.graph ((knownFiles names r.removedFiles).foldl (purgeFile r.graph)
      ⟨main, finalLog r.log, .empty⟩) = written names main r := by
  have h₁ := purges_removed r.graph (knownFiles names r.removedFiles)
    ⟨main, finalLog r.log, .empty⟩
  have h₂ := purges_purged names main r
  have hlog : ∀ (l : List Symbol) (m : Merge), (l.foldl (mergeClass r.graph) m).log = m.log :=
    fun _ => foldl_frame (mergeClass r.graph) log fun _ _ _ => rfl
  simp only [updated, hlog, written]
  rw [h₁.deletedClasses]
  show (purged names main r).log.changedFiles.toList.foldl _
    ((purged names main r).log.changedClasses.toList.foldl _ _) = _
  rw [h₂.changedFiles, h₂.changedClasses]
  rfl

/-! Each table is written in one stage, and no other stage touches it. -/

theorem fileOf_written (c : Symbol) :
    (written names main r).main.fileOf.get? c =
      if c ∈ (finalLog r.log).changedClasses.toList then r.graph.fileOf.get? c
      else (purged names main r).main.fileOf.get? c :=
  (foldl_frame (mergeFile r.graph) (fun m => m.main.fileOf.get? c) (fun _ _ _ => rfl) _).trans
    (fileOf_mergeClasses c)

theorem classesIn_written (f : Symbol) :
    (written names main r).main.classesIn.get? f =
      if f ∈ r.log.changedFiles.toList then r.graph.classesIn.get? f
      else (purged names main r).main.classesIn.get? f := by
  rw [written, classesIn_mergeFiles,
    foldl_frame (mergeClass r.graph) (fun m => m.main.classesIn) fun _ _ _ => rfl]
  rfl

theorem dependants_written :
    (written names main r).main.dependants = (purged names main r).main.dependants :=
  (foldl_frame (mergeFile r.graph) (fun m => m.main.dependants) (fun _ _ _ => rfl) _).trans
    (foldl_frame (mergeClass r.graph) (fun m => m.main.dependants) (fun _ _ _ => rfl) _)

theorem subclasses_written :
    (written names main r).main.subclasses =
      (purged names main r).mergeSubclasses.main.subclasses :=
  (foldl_frame (mergeFile r.graph) (fun m => m.main.subclasses) (fun _ _ _ => rfl) _).trans
    (foldl_frame (mergeClass r.graph) (fun m => m.main.subclasses) (fun _ _ _ => rfl) _)

theorem mergeRound_eq (h : r.rebuild = false) :
    main.mergeRound names r = (written names main r).mergeDependants r.graph := by
  rw [← updated_eq_written]
  simp [Graph.mergeRound, h]

theorem mem_changedClasses_finalLog {c : Symbol} :
    c ∈ (finalLog r.log).changedClasses ↔ r.Restates c := by
  simp [finalLog, Round.Restates]

theorem mem_trash_written {o d : Symbol} :
    d ∈ (written names main r).trash.valuesOf o ↔ r.Former names main o d := by
  rw [written, foldl_frame (mergeFile r.graph) trash fun _ _ _ => rfl,
    mem_trash_mergeClasses (List.Pairwise.imp id (finalLog r.log).changedClasses.distinct)]
  show d ∈ (purged names main r).trash.valuesOf o ∨ d ∈ (finalLog r.log).changedClasses ∧
    (∃ e, (purged names main r).main.describe? d = some e ∧ e.Uses o) ↔ _
  rw [(purges_purged names main r).trash, mem_changedClasses_finalLog]
  simp only [describe?_purged]
  constructor
  · rintro ((h | ⟨c, ⟨f, hf, hc⟩ | hc, hd, ho⟩) | ⟨hr, c, ⟨f, hf, hg, hk, hc, hd⟩, ho⟩)
    · simp at h
    · exact .removed hf hc hd ho
    · exact .deleted hc hd ho
    · exact .restated hr hg hf hk hc hd ho
  · rintro (⟨hf, hc, hd, ho⟩ | ⟨hc, hd, ho⟩ | ⟨hr, hg, hf, hk, hc, hd, ho⟩)
    · exact .inl (.inr ⟨_, .inl ⟨_, hf, hc⟩, hd, ho⟩)
    · exact .inl (.inr ⟨_, .inr hc, hd, ho⟩)
    · exact .inr ⟨hr, _, ⟨_, hf, hg, hk, hc, hd⟩, ho⟩

end Merge

namespace Graph

variable {names : NameTable} {main : Graph} {r : Round}

/-- The files of classes after a merge. -/
theorem fileOf_mergeRound (h : r.rebuild = false) {c f : Symbol} :
    (main.mergeRound names r).fileOf.get? c = some f ↔
      r.Restates c ∧ r.graph.fileOf.get? c = some f ∨
        ¬ r.Restates c ∧ main.fileOf.get? c = some f ∧ ¬ r.Drops names main c := by
  rw [Merge.mergeRound_eq names main r h]
  show (Merge.written names main r).main.fileOf.get? c = some f ↔ _
  rw [Merge.fileOf_written]
  have hm : c ∈ (Merge.finalLog r.log).changedClasses.toList ↔ r.Restates c :=
    Merge.mem_changedClasses_finalLog r
  by_cases hc : r.Restates c
  · rw [if_pos (hm.2 hc)]
    simp [hc]
  · rw [if_neg (mt hm.1 hc), (Merge.purges_purged names main r).fileOf]
    simp [hc]

/-- The classes of files after a merge. -/
theorem classesIn_mergeRound (h : r.rebuild = false) {f : Symbol} {s : IdSet ClassInfo} :
    (main.mergeRound names r).classesIn.get? f = some s ↔
      f ∈ r.log.changedFiles ∧ r.graph.classesIn.get? f = some s ∨
        f ∉ r.log.changedFiles ∧ main.classesIn.get? f = some s ∧
          f ∉ Merge.knownFiles names r.removedFiles := by
  rw [Merge.mergeRound_eq names main r h]
  show (Merge.written names main r).main.classesIn.get? f = some s ↔ _
  rw [Merge.classesIn_written]
  by_cases hf : f ∈ r.log.changedFiles
  · simp [hf]
  · rw [if_neg (mt IdSet.mem_toList.1 hf), (Merge.purges_purged names main r).classesIn]
    simp [hf]

/-- What the files list after a merge, an absent entry counted like an empty one. -/
theorem exists_mem_classesIn_mergeRound (h : r.rebuild = false) {f : Symbol}
    {P : ClassInfo → Prop} :
    (∃ c ∈ (main.mergeRound names r).classesIn.valuesOf f, P c) ↔
      f ∈ r.log.changedFiles ∧ (∃ c ∈ r.graph.classesIn.valuesOf f, P c) ∨
        f ∉ r.log.changedFiles ∧ (∃ c ∈ main.classesIn.valuesOf f, P c) ∧
          f ∉ Merge.knownFiles names r.removedFiles := by
  have hmem : ∀ t : SetTable ClassInfo, (∃ c ∈ t.valuesOf f, P c) ↔
      ∃ s, t.get? f = some s ∧ ∃ c ∈ s, P c := by
    intro t
    cases ht : t.get? f <;> simp [Table.valuesOf, ht]
  rw [hmem, hmem, hmem]
  simp only [classesIn_mergeRound h]
  constructor
  · rintro ⟨s, ⟨hc, hs⟩ | ⟨hc, hs, hr⟩, hP⟩
    · exact .inl ⟨hc, s, hs, hP⟩
    · exact .inr ⟨hc, ⟨s, hs, hP⟩, hr⟩
  · rintro (⟨hc, s, hs, hP⟩ | ⟨hc, ⟨s, hs, hP⟩, hr⟩)
    · exact ⟨s, .inl ⟨hc, hs⟩, hP⟩
    · exact ⟨s, .inr ⟨hc, hs, hr⟩, hP⟩

/-- The dependants of classes after a merge. -/
theorem mem_dependants_mergeRound (h : r.rebuild = false) {o d : Symbol} :
    d ∈ (main.mergeRound names r).dependants.valuesOf o ↔
      (d ∈ main.dependants.valuesOf o ∧ ¬ r.Drops names main o) ∧ ¬ r.Former names main o d ∨
        d ∈ r.graph.dependants.valuesOf o := by
  rw [Merge.mergeRound_eq names main r h, Merge.mem_mergeDependants, Merge.mem_trash_written]
  rw [Merge.dependants_written, (Merge.purges_purged names main r).dependants]

/-- A merge of a round that replaces the graph. -/
theorem mergeRound_rebuild (h : r.rebuild = true) :
    (main.mergeRound names r).fileOf = r.graph.fileOf ∧
      (main.mergeRound names r).classesIn = r.graph.classesIn := by
  simp [Graph.mergeRound, h, Merge.mergeDependants, Merge.replaced]

end Graph

end ClassImpact

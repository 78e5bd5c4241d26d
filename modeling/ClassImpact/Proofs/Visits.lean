import ClassImpact.Proofs.ClassRules

/-!
# The events of a round in another order

A visit of a round takes its files, and the members of every set, in some order.  The
events that it comes upon are the same; so their impacts together draw in the same files
and search for the same things, and only the limits may differ.
-/

namespace ClassImpact

open Identified (ident)

/-! ## Classes compared -/

theorem IdSet.sameValues_iff {s t : IdSet Usage} :
    s.sameValues t = true ↔ ∀ u, u ∈ s ↔ u ∈ t := by
  constructor
  · exact mem_iff_of_sameValues
  · intro h
    have hperm : s.toList.Perm t.toList :=
      (List.perm_ext_iff_of_nodup s.nodup_toList t.nodup_toList).2 h
    simp only [sameValues, size, hperm.length_eq, Bool.and_eq_true, decide_eq_true_eq,
      List.all_eq_true]
    exact ⟨trivial, fun u hu => (h u).1 hu⟩

theorem ClassInfo.Relisted.between_eq {past past' now now' : ClassInfo} (hp : past.Relisted past')
    (hn : now.Relisted now') : ClassChange.between past' now' = ClassChange.between past now := by
  obtain ⟨usages, rfl, hu⟩ := hp
  obtain ⟨usages', rfl, hu'⟩ := hn
  have hsame : usages.sameValues usages' = past.usages.sameValues now.usages := by
    rw [Bool.eq_iff_iff, IdSet.sameValues_iff, IdSet.sameValues_iff]
    simp only [hu, hu']
  unfold ClassChange.between
  dsimp only
  rw [hsame]

/-- Sets of relisted classes have related values of each name. -/
theorem IdSet.Relisted.alike {s t : IdSet ClassInfo} (h : s.Relisted t) :
    s.Alike ClassInfo.Relisted t := by
  obtain ⟨l, hl, hlt⟩ := h
  have hrel := Relist.of_forall₂ hlt
  intro k
  cases hs : s.find? k with
  | some c =>
    obtain ⟨hc, hk⟩ := find?_eq_some.1 hs
    obtain ⟨d, hd, hcd⟩ := hrel.1 c (hl.mem_iff.1 hc)
    rw [find?_eq_some.2 ⟨hd, hcd.ident_eq.symm.trans hk⟩]
    exact .some hcd
  | none =>
    cases ht : t.find? k with
    | none => exact .none
    | some d =>
      obtain ⟨hd, hk⟩ := find?_eq_some.1 ht
      obtain ⟨c, hc, hcd⟩ := hrel.2 d hd
      rw [find?_eq_some.2 ⟨hl.mem_iff.2 hc, hcd.ident_eq.trans hk⟩] at hs
      simp at hs

/-! ## Events -/

namespace ClassEvent

variable {main main' round round' : Graph}

theorem relist_between {past past' now now' : IdSet ClassInfo} (hp : past.Relisted past')
    (hn : now.Relisted now') :
    Relist ClassEvent.Relisted (ofPatch (classPatch (some past.toList) now.toList))
      (ofPatch (classPatch (some past'.toList) now'.toList)) := by
  have hpartner : ∀ {s t : IdSet ClassInfo}, s.Relisted t → ∀ {c d : ClassInfo}, c.Relisted d →
      Option.Rel ClassInfo.Relisted (Patch.partner? s.toList c) (Patch.partner? t.toList d) := by
    intro s t hst c d hcd
    unfold Patch.partner?
    rw [← hcd.ident_eq]
    exact hst.alike (ident c)
  have hisNone : ∀ {s t : IdSet ClassInfo}, s.Relisted t → ∀ c d : ClassInfo, c.Relisted d →
      (Patch.partner? s.toList c).isNone = (Patch.partner? t.toList d).isNone := by
    intro s t hst c d hcd
    have h := hpartner hst hcd
    generalize Patch.partner? s.toList c = a at h
    generalize Patch.partner? t.toList d = b at h
    cases h <;> rfl
  refine ((Relist.map (R := fun x y => ClassEvent.Relisted (.changed x) (.changed y)) ?_
    fun _ _ hxy => hxy).append ((hp.alike.relist.filter (hisNone hn)).map
      fun _ _ hcd => .removed hcd)).append
    ((hn.alike.relist.filter (hisNone hp)).map fun _ _ hcd => .added hcd)
  refine hn.alike.relist.filterMap fun c d hcd => ?_
  have h := hpartner hp hcd
  unfold Patch.change?
  generalize Patch.partner? past.toList c = a at h
  generalize Patch.partner? past'.toList d = b at h
  cases h with
  | none => exact .none
  | @some p p' hpp =>
    rw [Option.bind_some, Option.bind_some]
    dsimp only
    rw [hpp.between_eq hcd]
    cases (ClassChange.between p c).isEmpty with
    | true => exact .none
    | false => exact .some (.changed _ hpp hcd)

/-- The events of one file. -/
theorem relist_ofFile (hm : main.Relisted main') (hr : round.Relisted round') (f : Symbol) :
    Relist ClassEvent.Relisted (ofFile main round f) (ofFile main' round' f) := by
  have hnow : (round.classesIn.valuesOf f).Relisted (round'.classesIn.valuesOf f) := by
    have h := hr.classesIn.get? f
    unfold Table.valuesOf
    generalize round.classesIn.get? f = a at h
    generalize round'.classesIn.get? f = b at h
    cases h with
    | none => exact ⟨[], .nil, .nil⟩
    | some h => exact h
  have hpast := hm.classesIn.get? f
  unfold ofFile
  generalize main.classesIn.get? f = a at hpast
  generalize main'.classesIn.get? f = b at hpast
  cases hpast with
  | none => exact hnow.alike.relist.map fun _ _ hcd => .added hcd
  | some hp => exact relist_between hp hnow

theorem relist_ofFiles (hm : main.Relisted main') (hr : round.Relisted round')
    {files files' : List Symbol} (hfiles : ∀ f, f ∈ files ↔ f ∈ files') :
    Relist ClassEvent.Relisted (ofFiles main round files) (ofFiles main' round' files') :=
  (Relist.of_iff hfiles).flatMap fun f _ hf => hf ▸ relist_ofFile hm hr f

end ClassEvent

/-! ## Visits -/

/-- An order in which a round can be visited: the sets of both graphs are listed anew, and
the files of the round come in some order. -/
structure Visit (main round : Graph) where
  past : Graph
  now : Graph
  files : List Symbol
  relisted_past : main.Relisted past
  relisted_now : round.Relisted now
  perm_files : files.Perm round.classesIn.keys

namespace Visit

variable {main round : Graph}

/-- The order in which everything is listed already. -/
def own (main round : Graph) : Visit main round :=
  ⟨main, round, round.classesIn.keys, .refl main, .refl round, .refl _⟩

/-- The events of a visit, as it comes upon them. -/
def events (o : Visit main round) : List ClassEvent :=
  ClassEvent.ofFiles o.past o.now o.files

/-- The scene of a visit. -/
def scene (o : Visit main round) (names : NameTable) (q : RoundRequest) : Scene :=
  .of names o.past o.now q

/-- What a visit finds to be brought about. -/
def impact (o : Visit main round) (names : NameTable) (q : RoundRequest) : Impact :=
  (o.scene names q).impact q.removed o.events

/-- The comparison that a visit makes. -/
def compare (o : Visit main round) (names : NameTable) (log : ChangeLog) (q : RoundRequest) :
    Comparison :=
  compareInOrder names o.past o.now log q o.files

theorem relist_events (o : Visit main round) :
    Relist ClassEvent.Relisted (own main round).events o.events :=
  ClassEvent.relist_ofFiles o.relisted_past o.relisted_now fun _ => o.perm_files.mem_iff.symm

theorem relisted_scene (o : Visit main round) (names : NameTable) (q : RoundRequest) :
    ((own main round).scene names q).Relisted (o.scene names q) where
  main := o.relisted_past
  round := o.relisted_now
  names := rfl
  root := rfl
  constructor := rfl
  accepts := rfl
  canAsk := rfl

/-- What the visits of a round take for granted: there is nobody to ask, everything has a
name, and every way down from a changed class sees the same of the methods whose overriding
methods are searched for. -/
structure Regular (main round : Graph) (names : NameTable) (q : RoundRequest) : Prop where
  silent : q.resolver = none
  named : ((own main round).scene names q).Named
  level : ∀ e ∈ (own main round).events, ((own main round).scene names q).LevelAt e

variable {names : NameTable} {q : RoundRequest}

theorem Regular.alike_events (h : Regular main round names q) (o : Visit main round) :
    Relist Impact.Alike ((own main round).events.map ((own main round).scene names q).event)
      (o.events.map (o.scene names q).event) := by
  have hask : ((own main round).scene names q).canAsk = false := by
    show q.resolver.isSome = false
    rw [h.silent]
    rfl
  have halike : ∀ e e', e ∈ (own main round).events → ClassEvent.Relisted e e' →
      (((own main round).scene names q).event e).Alike ((o.scene names q).event e') := by
    intro e e' he hR
    refine Scene.alike_event (o.relisted_scene names q) h.named hask hR ?_ (h.level e he)
    rintro change rfl
    obtain ⟨f, -, hf⟩ := ClassEvent.mem_ofFiles.1 he
    exact h.named.past (ClassEvent.mem_ofFile_changed.1 hf).1
  have hrelist := o.relist_events
  constructor
  · intro a ha
    obtain ⟨e, he, rfl⟩ := List.mem_map.1 ha
    obtain ⟨e', he', hR⟩ := hrelist.1 e he
    exact ⟨_, List.mem_map.2 ⟨e', he', rfl⟩, halike e e' he hR⟩
  · intro b hb
    obtain ⟨e', he', rfl⟩ := List.mem_map.1 hb
    obtain ⟨e, he, hR⟩ := hrelist.2 e' he'
    exact ⟨_, List.mem_map.2 ⟨e, he, rfl⟩, halike e e' he hR⟩

theorem Regular.plain_removed (h : Regular main round names q) (o : Visit main round) :
    (Impact.all (q.removed.map ((own main round).scene names q).removedFile)).Plain
      (Impact.all (q.removed.map (o.scene names q).removedFile)) :=
  Impact.plain_loop (.refl _) fun file _ hfile =>
    hfile ▸ Scene.plain_removedFile (o.relisted_scene names q) h.named file

/-- **Two visits bring about the same**, if not everything has to be rebuilt. -/
theorem Regular.likewise (h : Regular main round names q) (o : Visit main round) :
    (((own main round).impact names q).stop = some .unbounded ∧
        (o.impact names q).stop = some .unbounded) ∨
      ((own main round).impact names q).Likewise (o.impact names q) := by
  have hremoved := h.plain_removed o
  rcases Impact.likewise_all (h.alike_events o) with ⟨hs, ht⟩ | hevents
  · refine .inl ⟨?_, ?_⟩
    · unfold impact Scene.impact
      rw [Impact.append_def, Impact.andThen, hremoved.goesOn.1]
      exact hs
    · unfold impact Scene.impact
      rw [Impact.append_def, Impact.andThen, hremoved.goesOn.2]
      exact ht
  · exact .inr (hremoved.toLikewise.append hevents)

end Visit

end ClassImpact

import ClassImpact.Proofs.Limits

/-!
# From a usage to the answer

A usage that a round searches for counts where its limit holds: that of the last event to set
one.  A recorded class that holds the usage, and is among those searched, has its file in the
answer, unless that limit leaves the class out.

## Main results

* `Scene.limitOn?_impact_eq_some_iff`: the limit that a round leaves on a usage
* `Scene.affected_or_left_out`: the classes that hold a usage are affected where it counts
-/

namespace ClassImpact

/-! ## Where limits hold -/

namespace Residency

variable {v : View} {c d : Symbol} {package : String} {r : Residency}

theorem outside_eq_false_iff :
    (outside package).holds v d = .ok false ↔ v.names.packageOf d = .ok package := by
  rw [holds]
  cases hd : v.names.packageOf d with
  | error fault => simp [Except.map]
  | ok other => simp [Except.map]

theorem noInheritor_eq_false_iff :
    (noInheritor c package).holds v d = .ok false ↔
      v.inherits d c = .yes ∧ v.names.packageOf d = .ok package := by
  rw [← outside_eq_false_iff]
  by_cases hinherits : v.inherits d c = .yes
  · simp [hinherits, holds]
  · simp [hinherits, holds]

theorem outsideOf_eq_ok_iff {names : NameTable} :
    outsideOf names c = .ok r ↔ ∃ package, names.packageOf c = .ok package ∧
      r = .outside package := by
  unfold outsideOf
  cases names.packageOf c <;> simp [Except.map, eq_comm]

theorem noInheritorOf_eq_ok_iff {names : NameTable} :
    noInheritorOf names c = .ok r ↔ ∃ package, names.packageOf c = .ok package ∧
      r = .noInheritor c package := by
  unfold noInheritorOf
  cases names.packageOf c <;> simp [Except.map, eq_comm]

end Residency

/-! ## The limit of a round -/

namespace Scene

open Impact

variable {s : Scene} {removed : List SourcePath} {events : List ClassEvent} {u : Usage}

/-- What is only searched for sets no limit. -/
theorem limitOn?_mentions (c : ClassInfo) (u : Usage) : (mentions c).limitOn? u = .none := rfl

theorem limitOn?_removedClass (c : ClassInfo) (u : Usage) :
    (s.removedClass c).limitOn? u = .none :=
  Only.limitOn?_eq_none (P := fun _ => True) (Q := fun _ _ => False)
    (only_removedClass (fun _ _ => trivial) c) fun _ => id

theorem limitOn?_addedClass (c : ClassInfo) (u : Usage) : (s.addedClass c).limitOn? u = .none :=
  Only.limitOn?_eq_none (P := fun _ => True) (Q := fun _ _ => False) (only_addedClass c) fun _ => id

/-- The limit that a round leaves on a usage is that of its last event to set one. -/
theorem limitOn?_impact (hstop : (s.impact removed events).stop = .none) (u : Usage) :
    (s.impact removed events).limitOn? u =
      events.reverse.findSome? fun e => (s.event e).limitOn? u := by
  obtain ⟨hremoved, hevents⟩ := stop_append.1 hstop
  have hunlimited : (all (removed.map s.removedFile)).limitOn? u = .none :=
    Only.limitOn?_eq_none (P := fun _ => True) (Q := fun _ _ => False)
      (only_loop fun f _ => only_removedFile f) fun _ => id
  rw [impact, limitOn?_append hremoved, hunlimited, Option.or_none,
    limitOn?_all (stop_all.1 hevents), ← List.map_reverse, List.findSome?_map]
  rfl

theorem limitOn?_impact_eq_some_iff (hstop : (s.impact removed events).stop = .none)
    {r : Residency} :
    (s.impact removed events).limitOn? u = some r ↔
      ∃ before e after, events = before ++ e :: after ∧ (s.event e).limitOn? u = some r ∧
        ∀ later ∈ after, (s.event later).limitOn? u = .none := by
  rw [limitOn?_impact hstop, List.findSome?_eq_some_iff]
  constructor
  · rintro ⟨after, e, before, hsplit, he, hafter⟩
    refine ⟨before.reverse, e, after.reverse, ?_, he, fun later hlater => ?_⟩
    · rw [← List.reverse_reverse events, hsplit]
      simp
    · exact hafter later (List.mem_reverse.1 hlater)
  · rintro ⟨before, e, after, rfl, he, hafter⟩
    refine ⟨after.reverse, e, before.reverse, by simp, he, fun later hlater => ?_⟩
    exact hafter later (List.mem_reverse.1 hlater)

/-- Where a round goes on, each of its events does. -/
theorem stop_event (hstop : (s.impact removed events).stop = .none) {e : ClassEvent}
    (he : e ∈ events) : (s.event e).stop = .none :=
  stop_all.1 (stop_append.1 hstop).2 _ (List.mem_map_of_mem he)

end Scene

/-! ## The search of a class -/

theorem eq_false_of_anyM {ε α : Type} {f : α → Except ε Bool} {l : List α}
    (h : l.anyM f = .ok false) : ∀ x ∈ l, f x = .ok false := by
  induction l with
  | nil => simp
  | cons x l ih =>
    obtain ⟨hit, hx, h⟩ := exists_of_bind_ok h
    cases hit with
    | true => cases h
    | false => exact List.forall_mem_cons.2 ⟨hx, ih h⟩

/-- A recorded class, from the file of a path, that holds a usage. -/
structure Graph.HeldBy (main : Graph) (names : NameTable) (u : Usage) (d : Symbol)
    (path : SourcePath) : Prop where
  file : ∃ f, main.fileOf.get? d = some f ∧ names.name f = .ok path.text
  usage : ∃ user, main.describe? d = some user ∧ u ∈ user.usages

namespace Scene

variable {s : Scene} {i : Impact} {compiled : List SourcePath} {affected p : PathSet}
  {d file : Symbol} {user : ClassInfo} {path : SourcePath} {u : Usage}

theorem isAffected_of_not_isHit (h : s.isHit i user = .ok false) (hu : u ∈ user.usages) :
    s.isAffected i user.name u = .ok false := by
  have hu := eq_false_of_anyM h u hu
  cases hb : s.isAffected i user.name u with
  | error fault =>
    rw [hb] at hu
    cases hu
  | ok b =>
    rw [hb] at hu
    cases b with
    | true => cases hu
    | false => rfl

/-- A usage that is searched for does not count where its limit does not hold. -/
theorem isAffected_eq_false_iff (hu : u ∈ i.usages) :
    s.isAffected i d u = .ok false ↔
      ∃ r, i.limitOn? u = some r ∧ r.holds s.updated d = .ok false := by
  rw [isAffected, if_pos (List.contains_iff_mem.2 hu)]
  cases i.limitOn? u <;> simp

/-- A usage that is not searched for counts nowhere. -/
theorem isAffected_of_not_mem (hu : u ∉ i.usages) : s.isAffected i d u = .ok false := by
  have hu : ¬ i.usages.contains u = true := fun h => hu (List.contains_iff_mem.1 h)
  rw [isAffected, if_neg hu]

/-- After the search of a class its file is among those found, or the class is not hit. -/
theorem found_or_not_isHit (hfile : s.main.fileOf.get? d = some file)
    (htext : s.names.name file = .ok path.text) (hcompiled : compiled.any path.sameAs = false)
    (huser : s.main.describe? d = some user)
    (h : s.searchOne i compiled affected d = .ok p) :
    p.has path.components = true ∨ s.isHit i user = .ok false := by
  unfold searchOne at h
  rw [hfile] at h
  obtain ⟨text, htext', h⟩ := exists_of_bind_ok h
  obtain rfl := Except.ok.inj (htext.symm.trans htext')
  dsimp only at h
  rw [hcompiled, Bool.or_false, huser] at h
  by_cases hpath : affected.contains path = true
  · rw [if_pos hpath] at h
    cases h
    exact .inl hpath
  · rw [if_neg hpath] at h
    obtain ⟨hit, hhit, h⟩ := exists_of_bind_ok h
    cases hit with
    | true =>
      cases h
      exact .inl ((IdSet.has_add ..).2 (.inr rfl))
    | false => exact .inr hhit

theorem found_or_not_isHit_of_mem {classes : List Symbol} (hd : d ∈ classes)
    (hfile : s.main.fileOf.get? d = some file) (htext : s.names.name file = .ok path.text)
    (hcompiled : compiled.any path.sameAs = false) (huser : s.main.describe? d = some user)
    (h : s.search i compiled classes affected = .ok p) :
    p.has path.components = true ∨ s.isHit i user = .ok false := by
  induction classes generalizing affected with
  | nil => simp at hd
  | cons c classes ih =>
    rw [search, List.foldlM_cons] at h
    obtain ⟨found, hfound, hrest⟩ := exists_of_bind_ok h
    have hrest : s.search i compiled classes found = .ok p := hrest
    rcases List.mem_cons.1 hd with rfl | hd
    · exact (found_or_not_isHit hfile htext hcompiled huser hfound).imp_left (has_of_search hrest)
    · exact ih hd hrest

/-- **From a usage to the answer**: a class that is searched and holds a usage that is searched
for has its file affected, or the limit on the usage leaves the class out. -/
theorem affected_or_left_out {names : NameTable} {main round : Graph} {log : ChangeLog}
    {q : RoundRequest} {files : List Symbol}
    (h : (compareInOrder names main round log q files).outcome = .ok (.incremental affected))
    (hd : main.HeldBy names u d path) (hcompiled : q.compiled.any path.sameAs = false)
    (hremoved : ∀ gone ∈ q.removed, gone.components ≠ path.components) :
    let s := Scene.of names main round q
    let i := s.impact q.removed (ClassEvent.ofFiles main round files)
    d ∈ i.dependants → u ∈ i.usages →
      affected.has path.components = true ∨
        ∃ r, i.limitOn? u = some r ∧ r.holds s.updated d = .ok false := by
  intro s i hsearched husage
  obtain ⟨file, hfile, htext⟩ := hd.file
  obtain ⟨user, huser, hu⟩ := hd.usage
  obtain ⟨searched, hfound, hkept⟩ := exists_searched h
  -- the search has found the file, or it has asked about the usage and passed the class over
  rcases found_or_not_isHit_of_mem (IdSet.mem_ofList.2 hsearched) hfile
    (NameTable.name_keyNames htext) hcompiled huser hfound with hpath | hhit
  · refine .inl ((hkept _ hpath).resolve_right ?_)
    rintro ⟨gone, hgone, he⟩
    exact hremoved gone hgone he
  · obtain ⟨-, -, -, rfl⟩ := Graph.describe?_eq_some.1 huser
    exact .inr ((isAffected_eq_false_iff husage).1 (isAffected_of_not_isHit hhit hu))

end Scene

end ClassImpact

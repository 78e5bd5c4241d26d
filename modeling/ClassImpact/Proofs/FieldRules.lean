import ClassImpact.Proofs.Rules

/-!
# The rules for fields in relisted scenes

The readers that an added field hides from a field above, and those of a field that lost
access, are limited.  Both rules limit the readers through a whole set of classes at once,
so the order of the set does not show.
-/

namespace ClassImpact

/-- Where the access is the same, no modifier was added and none removed. -/
theorem Revision.has_of_same_access {r : Revision} (h : r.access = false) (f : Flag) :
    r.added.has f = false ∧ r.removed.has f = false := by
  have hsame : r.past = r.now := by simpa [access] using h
  simp [added, removed, hsame]

/-- A change of a field for which every read of it is searched, under no limit. -/
def Revision.rebinds (r : Revision) : Bool :=
  r.typeOrSignature || r.added.hasAny [.static, .priv, .volatile] || r.removed.has .static

namespace Scene

open Impact

variable {s t : Scene} (h : s.Relisted t) (hn : s.Named) {c c' : ClassInfo} {f : FieldInfo}

include h hn

/-! ## Added fields -/

theorem plain_hidesAround (sub : Symbol) : (s.hidesAround f sub).Plain (t.hidesAround f sub) := by
  unfold Scene.hidesAround
  rw [h.fileOf]
  rcases h.updated.cases sub with ⟨hd, hd'⟩ | ⟨d, _, hd, hd', _, rfl, -⟩
  · rw [hd, hd']
    exact plain_none
  · rw [hd, hd']
    cases hf : s.main.fileOf.get? sub with
    | none => exact plain_none
    | some file =>
      have hfile := fun outer : Bool =>
        (plain_file h (hn.files hf)).onlyIf (d.isLocal || outer)
      dsimp only
      cases d.outer with
      | none => exact hfile false
      | some outer =>
        have houter : BothOk Eq
            (if outer.isEmpty = true then .ok false else s.updated.seesField outer f.name)
            (if outer.isEmpty = true then .ok false else t.updated.seesField outer f.name) := by
          by_cases hempty : outer.isEmpty = true
          · rw [if_pos hempty, if_pos hempty]
            exact .ok rfl
          · rw [if_neg hempty, if_neg hempty]
            exact View.seesField_relisted h.updated hn.updated outer f.name
        refine ofResult_both houter fun x y hxy => ?_
        subst hxy
        exact hfile x

theorem plain_addedBelow (sub : Symbol) : (s.addedBelow f sub).Plain (t.addedBelow f sub) :=
  ((plain_hidesAround h hn sub).append
    (plain_uses h _ _ (View.mem_inheriting h.updated _ _))).append (plain_users h sub)

omit h hn in
theorem hidingLimit_ok {names : NameTable} {owner : Symbol} (ho : names.Knows owner)
    (added hidden : Access) : ∃ limit, hidingLimit names added hidden owner = .ok limit := by
  obtain ⟨r, hr⟩ := noInheritorOf_ok ho
  obtain ⟨q, hq⟩ := outsideOf_ok ho
  unfold hidingLimit
  rw [hr, hq]
  dsimp only
  split <;> exact ⟨_, rfl⟩

omit hn in
theorem alike_hiddenReaders {hidden : FieldInfo} {owner owner' : ClassInfo}
    (ho : s.old.SamePlace owner owner') :
    (s.hiddenReaders f hidden owner).Alike (t.hiddenReaders f hidden owner') := by
  obtain ⟨⟨_, rfl, -⟩, hknows⟩ := ho
  have hbelow := View.mem_inheriting h.old (.field hidden.name) owner.name
  obtain ⟨limit, hlimit⟩ := hidingLimit_ok hknows f.access hidden.access
  unfold Scene.hiddenReaders
  dsimp only
  rw [h.names]
  refine (plain_uses h _ _ hbelow).alike.append
    (ofResult_both (.of_eq hlimit rfl) fun x y hxy => ?_)
  subst hxy
  cases x with
  | none => exact plain_none.alike
  | some residency =>
    refine (matches_ofLimit (fun u => ?_) residency).alike
    simp only [List.mem_map, List.mem_cons, hbelow]

theorem alike_addedField (hc : s.updated.SamePlace c c') (f : FieldInfo) :
    (s.addedField c f).Alike (t.addedField c' f) := by
  have hhidden := View.hidden_relisted h.updated hn.updated hc f.name
  obtain ⟨⟨_, rfl, -⟩, -⟩ := hc
  unfold Scene.addedField
  refine Alike.append (Plain.alike ((plain_loop
    (.of_iff (Graph.mem_allSubclasses h.main.mem_directSubclasses c.name))
    fun sub _ hsub => ?_).onlyIf _)) (ofResult_both hhidden fun found found' hfound => ?_)
  · subst hsub
    exact plain_addedBelow h hn sub
  · have hkept := List.rel_filter
      (p := fun a : FieldInfo × ClassInfo => !a.1.access.isPrivate)
      (q := fun a : FieldInfo × ClassInfo => !a.1.access.isPrivate)
      (fun a b hab => by dsimp only; rw [hab.1.1]) hfound
    refine alike_loop hkept fun a b hab => ?_
    obtain ⟨⟨hf, howner⟩, hknows⟩ := hab
    rw [hf]
    exact alike_hiddenReaders h ⟨howner, hknows⟩

/-! ## Removed fields -/

omit hn in
theorem plain_reads (hc : c.Relisted c') (f : FieldInfo) :
    (s.reads c f).Plain (t.reads c' f) := by
  obtain ⟨_, rfl, -⟩ := hc
  exact plain_uses h _ _ (View.mem_inheriting h.updated _ _)

variable (hask : s.canAsk = false)

include hask

theorem alike_removedField (hc : s.old.SamePlace c c') (f : FieldInfo) :
    (s.removedField c f).Alike (t.removedField c' f) :=
  ((alike_constant h hn hask hc f true false).onlyIf _).append (plain_reads h hc.1 f).alike

/-! ## Changed fields -/

theorem alike_changedConstant (hc : s.old.SamePlace c c') (f : FieldInfo) (base : Revision) :
    (s.changedConstant c f base).Alike (t.changedConstant c' f base) :=
  (alike_constant h hn hask hc f false _).onlyIf _

omit h hn hask in
/-- A changed field is searched for by all of its reads, or as its loss of access demands. -/
theorem changedField_eq (s : Scene) (c : ClassInfo) (change : Changed FieldInfo Revision) :
    s.changedField c change = s.changedConstant c change.past change.diff ++
      if change.diff.rebinds then s.reads c change.past
      else s.narrowedField c change.past change.diff := by
  unfold changedField Revision.rebinds
  dsimp only
  congr 1
  cases htype : change.diff.typeOrSignature with
  | true => rfl
  | false =>
    cases haccess : change.diff.access with
    | true => simp
    | false =>
      have hsame := Revision.has_of_same_access haccess
      simp [narrowedField, Access.hasAny, hsame, onlyIf]

omit hn hask in
theorem alike_narrowedField (hc : s.old.SamePlace c c') (f : FieldInfo) (base : Revision) :
    (s.narrowedField c f base).Alike (t.narrowedField c' f base) := by
  obtain ⟨⟨_, rfl, -⟩, hknows⟩ := hc
  have hbelow := View.mem_inheriting h.updated (.field f.name) c.name
  have hresidency : ∃ r, (if base.added.has .prot then Residency.noInheritorOf s.names c.name
      else Residency.outsideOf s.names c.name) = .ok r := by
    by_cases hprot : base.added.has .prot = true
    · rw [if_pos hprot]
      exact noInheritorOf_ok hknows
    · rw [if_neg hprot]
      exact outsideOf_ok hknows
  obtain ⟨r, hr⟩ := hresidency
  unfold Scene.narrowedField
  dsimp only
  rw [h.names]
  refine ((plain_uses h _ _ hbelow).onlyIf _).alike.append
    ((matches_limited (fun u => ?_) hr).alike.onlyIf _)
  simp only [List.mem_map, List.mem_cons, hbelow]

omit hn hask in
/-- The searches for a changed field do not depend on whether somebody can be asked. -/
theorem alike_changedSearch (hc : s.old.SamePlace c c') (change : Changed FieldInfo Revision) :
    (if change.diff.rebinds then s.reads c change.past
      else s.narrowedField c change.past change.diff).Alike
    (if change.diff.rebinds then t.reads c' change.past
      else t.narrowedField c' change.past change.diff) := by
  cases change.diff.rebinds with
  | true => exact (plain_reads h hc.1 change.past).alike
  | false => exact alike_narrowedField h hc change.past change.diff

theorem alike_changedField (hc : s.old.SamePlace c c') (change : Changed FieldInfo Revision) :
    (s.changedField c change).Alike (t.changedField c' change) := by
  rw [changedField_eq, changedField_eq]
  exact (alike_changedConstant h hn hask hc change.past change.diff).append
    (alike_changedSearch h hc change)

/-! ## All fields of a class -/

theorem alike_fields (hc : s.updated.SamePlace c c') (p : Patch FieldInfo Revision) :
    (s.fields c p).Alike (t.fields c' p) := by
  have hsame : ∀ {α : Type} (l : List α), List.Forall₂ Eq l l := fun l =>
    List.forall₂_same.2 fun _ _ => rfl
  refine ((alike_loop (hsame p.added) fun f _ hf => ?_).append
    (alike_loop (hsame p.removed) fun f _ hf => ?_)).append
    (alike_loop (hsame p.changed) fun change _ hchange => ?_)
  · subst hf
    exact alike_addedField h hn hc f
  · subst hf
    exact alike_removedField h hn hask hc f
  · subst hchange
    exact alike_changedField h hn hask hc change

end Scene

end ClassImpact

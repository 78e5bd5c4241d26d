import ClassImpact.Proofs.Rules

/-!
# The rules for methods in relisted scenes

Only a changed method puts limits on usages; what an added or a removed one brings about
has no order.  The rules that look for overriding methods are taken where both searches
find the same.
-/

namespace ClassImpact

namespace Scene

open Impact

variable {s t : Scene} (h : s.Relisted t) (hn : s.Named) {c c' : ClassInfo} {m : MethodInfo}

include h hn

/-! ## Added methods -/

theorem plain_addedBeside (hc : s.updated.SamePlace c c') {d d' : Declaration}
    (hd : d.Relisted d') : (s.addedBeside c m d).Plain (t.addedBeside c' m d') := by
  obtain ⟨⟨_, rfl, -⟩, -⟩ := hc
  obtain ⟨method, owner⟩ := d
  obtain ⟨method', owner'⟩ := d'
  obtain ⟨hm, _, howner, -⟩ := hd
  dsimp only at hm howner
  subst hm howner
  unfold Scene.addedBeside
  dsimp only
  rw [h.old.inherits]
  by_cases heq : (method'.key = m.key && s.old.inherits owner.name c.name == .yes) = true
  · rw [if_pos heq, if_pos heq]
    exact plain_fileOfClass h hn owner.name
  · rw [if_neg heq, if_neg heq]
    have hreach := View.mem_inheriting h.old (.method method'.key) c.name
    exact (((plain_users h owner.name).append (plain_uses h _ _ hreach)).onlyIf _).append
      (plain_uses h _ _ hreach)

theorem plain_addedInside (sub : Symbol) : (s.addedInside m sub).Plain (t.addedInside m sub) := by
  unfold Scene.addedInside
  rw [h.fileOf]
  rcases h.updated.cases sub with ⟨hd, hd'⟩ | ⟨d, _, hd, hd', _, rfl, -⟩
  · rw [hd, hd']
    exact plain_none
  · rw [hd, hd']
    cases hf : s.main.fileOf.get? sub with
    | none => exact plain_none
    | some f =>
      dsimp only
      cases d.outer with
      | none => exact plain_none
      | some outer =>
        refine ofResult_both (View.seesMethod_relisted h.updated hn.updated outer m)
          fun x y hxy => ?_
        subst hxy
        exact (plain_file h (hn.files hf)).onlyIf x

theorem plain_addedOverload (hc : s.updated.SamePlace c c') :
    (s.addedOverload c m).Plain (t.addedOverload c' m) := by
  have hold : s.old.SamePlace c c' := hc
  unfold Scene.addedOverload
  rw [h.constructor]
  by_cases hm : m.name ≠ s.constructor
  · rw [if_pos hm, if_pos hm]
    refine ofResult_both (View.overridden_relisted h.old hn.old hold m .sameKey)
      fun above above' habove => ?_
    have hempty : above.isEmpty = above'.isEmpty := View.isEmpty_forall₂ habove
    obtain ⟨⟨_, rfl, -⟩, -⟩ := hc
    rw [hempty]
    exact (plain_uses h _ _ (View.mem_inheriting h.updated _ _)).onlyIf _
  · rw [if_neg hm, if_neg hm]
    exact plain_none

omit hn in
theorem plain_addedLessSpecific (hc : c.Relisted c') :
    (s.addedLessSpecific c m).Plain (t.addedLessSpecific c' m) := by
  obtain ⟨_, rfl, -⟩ := hc
  unfold Scene.addedLessSpecific
  rw [h.updated.matching]
  refine plain_loop (.refl _) fun l _ hl => ?_
  subst hl
  exact plain_uses h _ _ (View.mem_inheriting h.updated _ _)

theorem plain_addedMethod (hc : s.updated.SamePlace c c')
    (hfinds : s.updated.FindsAlike t.updated m c c') :
    (s.addedMethod c m).Plain (t.addedMethod c' m) := by
  have haround := View.lessSpecificAround_relisted h.updated hn.updated hc hfinds
  have hoverload := plain_addedOverload (m := m) h hn hc
  have hless := plain_addedLessSpecific (m := m) h hc.1
  have hbeside := fun d d' (hd : Declaration.Relisted d d') =>
    plain_addedBeside (m := m) h hn hc hd
  obtain ⟨⟨_, rfl, -⟩, -⟩ := hc
  unfold Scene.addedMethod
  refine ((plain_subclasses h hn c.name false).onlyIf _).append (Plain.onlyIf _ ?_)
  refine hoverload.append (ofResult_both haround fun around around' hab => ?_)
  refine (hless.append (plain_loop hab hbeside)).append
    (plain_loop (.of_iff (Graph.mem_allSubclasses h.main.mem_directSubclasses c.name))
      fun sub _ hsub => ?_)
  subst hsub
  exact plain_addedInside h hn sub

/-! ## Removed methods -/

omit h hn in
theorem all_forall₂ {α β : Type} {R : α → β → Prop} {l : List α} {l' : List β}
    (hl : List.Forall₂ R l l') {p : α → Bool} {q : β → Bool} (hpq : ∀ x y, R x y → p x = q y) :
    l.all p = l'.all q := by
  induction hl with
  | nil => rfl
  | cons hxy _ ih => rw [List.all_cons, List.all_cons, hpq _ _ hxy, ih]

omit h hn in
theorem stillBound_forall₂ {l l' : List Origin} (hl : List.Forall₂ Origin.Relisted l l') :
    stillBound m l = stillBound m l' := by
  unfold stillBound
  rw [View.isEmpty_forall₂ hl]
  refine congrArg _ (all_forall₂ hl fun o o' ho => ?_)
  cases ho with
  | resolved hd =>
    dsimp only
    rw [hd.1]
  | unknown => rfl

omit h hn in
theorem onlyAbstract_forall₂ (hc : c.Relisted c') {l l' : List Origin}
    (hl : List.Forall₂ Origin.Relisted l l') : onlyAbstract c l = onlyAbstract c' l' := by
  obtain ⟨_, rfl, -⟩ := hc
  have howner : ∀ {o o' : Origin}, o.Relisted o' →
      (o.declaration?.map fun d => d.owner.name) = o'.declaration?.map fun d => d.owner.name := by
    intro o o' ho
    cases ho with
    | resolved hd =>
      obtain ⟨-, _, hd, -⟩ := hd
      simp only [Origin.declaration?, Option.map_some, hd]
    | unknown => rfl
  have hothers := List.rel_filter (R := Origin.Relisted)
    (p := fun o => decide ((o.declaration?.map fun d => d.owner.name) ≠ some c.name))
    (q := fun o => decide ((o.declaration?.map fun d => d.owner.name) ≠ some c.name))
    (fun o o' ho => by dsimp only; rw [howner ho]) hl
  unfold onlyAbstract
  dsimp only
  rw [View.isEmpty_forall₂ hothers]
  refine congrArg _ (all_forall₂ hothers fun o o' ho => ?_)
  cases ho with
  | resolved hd =>
    obtain ⟨hm, _, hd, -⟩ := hd
    dsimp only
    rw [hm, hd]
    rfl
  | unknown => rfl

theorem plain_removedAbove (hc : c.Relisted c') {above above' : IdSet Origin}
    (habove : List.Forall₂ Origin.Relisted above.toList above'.toList) (sub : Symbol) :
    (s.removedAbove c m above sub).Plain (t.removedAbove c' m above' sub) := by
  have honly := fun {l l' : List Origin} (hl : List.Forall₂ Origin.Relisted l l') =>
    onlyAbstract_forall₂ hc hl
  obtain ⟨_, rfl, -⟩ := hc
  unfold Scene.removedAbove
  by_cases hsub : sub = c.name
  · rw [if_pos hsub, if_pos hsub]
    exact plain_none
  · rw [if_neg hsub, if_neg hsub]
    rcases h.updated.place_cases hn.updated sub with ⟨hd, hd'⟩ | ⟨d, d', hd, hd', hplace⟩
    · rw [hd, hd']
      exact plain_none
    · rw [hd, hd']
      refine ofResult_both (View.overridden_relisted h.updated hn.updated hplace m .sameKey)
        fun seen seen' hseen => ?_
      have hleft := IdSet.forall₂_ofList (fun _ _ ho => Origin.Relisted.ident_eq ho)
        (List.rel_append hseen habove)
      dsimp only
      rw [honly hleft]
      exact (plain_fileOfClass h hn sub).onlyIf _

theorem plain_fileOfOwner {d d' : Declaration} (hd : d.Relisted d') :
    (s.fileOfClass d.owner.name).Plain (t.fileOfClass d'.owner.name) := by
  obtain ⟨-, _, hd, -⟩ := hd
  rw [hd]
  exact plain_fileOfClass h hn d.owner.name

theorem plain_removedMethod (hc : s.updated.SamePlace c c')
    (hfinds : s.updated.FindsAlike t.updated m c c') :
    (s.removedMethod c m).Plain (t.removedMethod c' m) := by
  have hoverridden := View.overridden_relisted h.updated hn.updated hc m .sameKey
  have hoverriding := hfinds .sameKey
  have habove := fun {a a' : IdSet Origin}
    (ha : List.Forall₂ Origin.Relisted a.toList a'.toList) sub =>
    plain_removedAbove (m := m) h hn hc.1 ha sub
  obtain ⟨⟨_, rfl, -⟩, -⟩ := hc
  have hinheriting := View.mem_inheriting h.updated (.method m.key) c.name
  unfold Scene.removedMethod
  refine ofResult_both hoverridden fun above above' hab => ?_
  dsimp only
  rw [stillBound_forall₂ hab]
  refine ((plain_uses h _ _ hinheriting).onlyIf _).append ?_ |>.append ?_
  · refine ofResult_both hoverriding fun below below' hbelow => ?_
    exact plain_loop hbelow.relist fun d d' hd => plain_fileOfOwner h hn hd
  · refine (plain_loop (.of_iff hinheriting) fun sub _ hsub => ?_).onlyIf _
    subst hsub
    exact habove hab sub

/-! ## Changed methods -/

theorem plain_follower {d d' : Declaration} (hd : d.Relisted d') :
    (s.follower d).Plain (t.follower d') := by
  have hfile := plain_fileOfOwner h hn hd
  obtain ⟨method, owner⟩ := d
  obtain ⟨method', owner'⟩ := d'
  obtain ⟨hm, _, howner, -⟩ := hd
  dsimp only at hm howner
  subst hm howner
  exact (hfile.append (plain_users h owner.name)).append
    (plain_uses h _ _ (View.mem_inheriting h.updated _ _))

omit h hn in
/-- A change that the methods which override the changed one have to follow. -/
def isFollowed (change : MethodChange) : Bool := change.base.typeOrSignature || change.throwsMore

/-- A changed method limits its calls, in the same way whatever the order. -/
theorem alike_revisedMethod (hc : s.updated.SamePlace c c') (change : MethodChange)
    (hfinds : isFollowed change = true → s.updated.FindsAlike t.updated m c c') :
    (s.revisedMethod c m change).Alike (t.revisedMethod c' m change) := by
  have hoverriding := fun hfollowed => hfinds hfollowed .sameKey
  obtain ⟨⟨_, rfl, -⟩, hknows⟩ := hc
  have hknows : s.names.Knows c.name := hknows
  have hinheriting := View.mem_inheriting h.updated (.method m.key) c.name
  have hcalls := plain_uses h m.callFrom c.name hinheriting
  obtain ⟨r, hr⟩ := noInheritorOf_ok hknows
  have hlimited : (limited ((c.name :: s.updated.inheriting (.method m.key) c.name).map
        m.callFrom) (Residency.noInheritorOf s.names c.name)).Alike
      (limited ((c.name :: t.updated.inheriting (.method m.key) c.name).map m.callFrom)
        (Residency.noInheritorOf t.names c.name)) := by
    rw [h.names]
    refine (matches_limited (fun u => ?_) hr).alike
    simp only [List.mem_map, List.mem_cons, hinheriting]
  unfold Scene.revisedMethod
  refine ((hcalls.alike.append hlimited).onlyIf _).append ?_
  by_cases htype : (change.base.typeOrSignature || change.throwsMore) = true
  · rw [if_pos htype, if_pos htype]
    refine (hcalls.alike.onlyIf _).append
      (ofResult_both (hoverriding htype) fun below below' hbelow => ?_)
    exact (plain_loop hbelow.relist fun d d' hd => plain_follower h hn hd).alike
  · rw [if_neg htype, if_neg htype]
    by_cases haccess : change.base.access = true
    · rw [if_pos haccess, if_pos haccess]
      by_cases hstatic : (change.base.added.hasAny [.static, .priv] ||
          change.base.removed.has .static) = true
      · rw [if_pos hstatic, if_pos hstatic]
        exact (hcalls.alike.onlyIf _).append
          ((plain_subclasses h hn c.name false).alike.onlyIf _)
      · rw [if_neg hstatic, if_neg hstatic]
        exact ((plain_subclasses h hn c.name false).alike.onlyIf _).append
          ((hcalls.alike.append hlimited).onlyIf _)
    · rw [if_neg haccess, if_neg haccess]
      exact plain_none.alike

theorem alike_changedMethod (hc : s.updated.SamePlace c c')
    (change : Changed MethodInfo MethodChange)
    (hfinds : isFollowed change.diff = true → s.updated.FindsAlike t.updated change.past c c') :
    (s.changedMethod c change).Alike (t.changedMethod c' change) := by
  have hrevised := alike_revisedMethod h hn hc change.diff hfinds
  obtain ⟨⟨usages, rfl, -⟩, -⟩ := hc
  have hsame : { c with usages := usages }.isAnnotationType = c.isAnnotationType := rfl
  unfold Scene.changedMethod
  rw [hsame]
  by_cases hannotation : c.isAnnotationType = true
  · rw [if_pos hannotation, if_pos hannotation]
    exact ((plain_ofQuery _).onlyIf _).alike
  · rw [if_neg hannotation, if_neg hannotation]
    by_cases hempty : (change.diff.base.isEmpty && !change.diff.throwsMore) = true
    · rw [if_pos hempty, if_pos hempty]
      exact plain_none.alike
    · rw [if_neg hempty, if_neg hempty]
      exact hrevised

/-! ## All methods of a class -/

omit h hn in
/-- The methods of a patch whose overriding methods are searched for. -/
def followed (p : Patch MethodInfo MethodChange) : List MethodInfo :=
  p.added ++ p.removed ++ (p.changed.filter fun change => isFollowed change.diff).map Changed.past

theorem alike_methods (hc : s.updated.SamePlace c c') (p : Patch MethodInfo MethodChange)
    (hfinds : ∀ m ∈ followed p, s.updated.FindsAlike t.updated m c c') :
    (s.methods c p).Alike (t.methods c' p) := by
  have hadded : (all (p.added.map (s.addedMethod c))).Plain
      (all (p.added.map (t.addedMethod c'))) := by
    refine plain_loop (.diagonal _) fun m _ hm => ?_
    obtain ⟨rfl, hm⟩ := hm
    exact plain_addedMethod h hn hc (hfinds m (by simp [followed, hm]))
  have hremoved : (all (p.removed.map (s.removedMethod c))).Plain
      (all (p.removed.map (t.removedMethod c'))) := by
    refine plain_loop (.diagonal _) fun m _ hm => ?_
    obtain ⟨rfl, hm⟩ := hm
    exact plain_removedMethod h hn hc (hfinds m (by simp [followed, hm]))
  have hchanged : (all (p.changed.map (s.changedMethod c))).Alike
      (all (p.changed.map (t.changedMethod c'))) := by
    refine Alike.all ?_
    rw [List.forall₂_map_left_iff, List.forall₂_map_right_iff, List.forall₂_same]
    intro change hchange
    refine alike_changedMethod h hn hc change fun hfollowed => hfinds _ ?_
    have hkept : change ∈ p.changed.filter fun change => isFollowed change.diff :=
      List.mem_filter.2 ⟨hchange, hfollowed⟩
    exact List.mem_append_right _ (List.mem_map.2 ⟨change, hkept, rfl⟩)
  obtain ⟨⟨_, rfl, -⟩, -⟩ := hc
  exact ((hadded.alike.onlyIf _).append hremoved.alike).append hchanged

end Scene

end ClassImpact

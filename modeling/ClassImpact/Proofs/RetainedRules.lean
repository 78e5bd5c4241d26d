import ClassImpact.Proofs.Retained

/-!
# The rules in a graph that forgot a class

Every rule goes down from the class that it is about, and some look up from it as well.  A
search down ends at a class without a descriptor, so what the rules bring about is retained
where the forgotten class is not below.  A search up that meets it knows that something is
missing: callers of a removed method are searched then, and an abstract method that is left
still counts.

An added member is the exception.  It is taken to be declared above already, and fields of
unknown classes are passed over, so additions are taken where the forgotten class is not above.

## Main results

* `Scene.retains_methods`, `Scene.retains_fields`: the changes of the members of a class
* `Scene.retains_event`: the impact of one event
-/

namespace ClassImpact

open Identified (ident)

namespace Scene

open Impact

/-! ## Where the forgotten class stands -/

/-- `u` is a class or below it, by recorded edges or by declared supertypes. -/
def Beneath (s : Scene) (c u : Symbol) : Prop :=
  s.main.Below c u ∨ s.old.Above u c ∨ s.updated.Above u c

instance (s : Scene) (c u : Symbol) : Decidable (s.Beneath c u) :=
  inferInstanceAs (Decidable (s.main.Below c u ∨ s.old.Above u c ∨ s.updated.Above u c))

/-- What is looked at for an added method does not lie past `u`: `u` is not above the class,
unless the method is a constructor, and no class at or below it stands inside `u`. -/
structure ClearOfMethod (s : Scene) (u : Symbol) (c : ClassInfo) (m : MethodInfo) : Prop where
  above : m.name ≠ s.constructor → ¬ s.old.Climbs c u ∧ ¬ s.updated.Climbs c u
  around : ∀ sub d, s.main.Below c.name sub → s.updated.describe? sub = some d →
    d.outer ≠ some u

/-- What is looked at for an added field does not lie past `u`: `u` is neither above the class
nor above a class around one that is at or below it, nor below a class whose field is hidden. -/
structure ClearOfField (s : Scene) (u : Symbol) (c : ClassInfo) (f : FieldInfo) : Prop where
  above : ¬ s.updated.Climbs c u
  around : f.access.isPrivate = false → ∀ sub d outer o, s.main.Below c.name sub →
    s.updated.describe? sub = some d → d.outer = some outer → s.updated.describe? outer = some o →
      ¬ s.updated.Climbs o u
  hidden : ∀ found, s.updated.hidden f.name c = .ok found → ∀ x ∈ found,
    x.1.access.isPrivate = false → ¬ s.Beneath x.2.name u

section

variable {s : Scene} {u file : Symbol} (h : s.Spares u file) (hn : s.Named) {c : ClassInfo}
  {m : MethodInfo}

theorem ne_of_below {a b : Symbol} (hu : ¬ s.main.Below a u) (hb : s.main.Below a b) : b ≠ u :=
  fun hbu => hu (hbu ▸ hb)

theorem not_below_of_below {a b : Symbol} (hu : ¬ s.main.Below a u) (hb : s.main.Below a b) :
    ¬ s.main.Below b u :=
  fun hbu => hu (hb.trans hbu)

theorem plain_uses_self (s : Scene) (use : Symbol → Usage) (owner : Symbol) (below : List Symbol) :
    (s.uses use owner below).Plain (s.uses use owner below) :=
  plain_uses (.refl s) use owner fun _ => Iff.rfl

/-! ## Added methods -/

include h

theorem addedOverload_forget (hu : ¬ s.main.Below c.name u)
    (hc : m.name ≠ s.constructor → ¬ s.old.Climbs c u) :
    (s.forget u file).addedOverload c m = s.addedOverload c m := by
  have hconstructor : (s.forget u file).constructor = s.constructor := rfl
  unfold addedOverload
  rw [hconstructor]
  by_cases hm : m.name ≠ s.constructor
  · rw [if_pos hm, if_pos hm, h.old.overridden_eq (hc hm), h.updated.inheriting_eq hu]
    rfl
  · rw [if_neg hm, if_neg hm]

theorem lessSpecificAround_forget (hkey : s.names.lookup constructorName = some s.constructor)
    (hu : ¬ s.main.Below c.name u) (hc : m.name ≠ s.constructor → ¬ s.updated.Climbs c u) :
    (s.forget u file).updated.lessSpecificAround m c = s.updated.lessSpecificAround m c := by
  by_cases hm : m.name = s.constructor
  · have hkey : s.updated.names.lookup constructorName = some m.name := hm ▸ hkey
    have hkey' : (s.forget u file).updated.names.lookup constructorName = some m.name := hkey
    rw [View.lessSpecificAround_constructor hkey, View.lessSpecificAround_constructor hkey']
  · exact h.updated.lessSpecificAround_eq (hc hm) hu m

theorem addedLessSpecific_forget (hu : ¬ s.main.Below c.name u) :
    (s.forget u file).addedLessSpecific c m = s.addedLessSpecific c m := by
  unfold addedLessSpecific
  rw [h.updated.matching, h.updated.inheriting_eq hu]
  rfl

include hn

theorem retains_addedBeside (hu : ¬ s.Beneath c.name u) (d : Declaration) :
    Retains (s.terms u file) (s.addedBeside c m d) ((s.forget u file).addedBeside c m d) := by
  have hbelow : ¬ s.main.Below c.name u := fun hb => hu (.inl hb)
  have hinherits : ((s.forget u file).old.inherits d.owner.name c.name == .yes) =
      (s.old.inherits d.owner.name c.name == .yes) := by
    rw [Bool.eq_iff_iff, beq_iff_eq, beq_iff_eq]
    exact h.old.inherits_eq_yes_iff (fun ha => hu (.inr (.inl ha))) _
  unfold addedBeside
  rw [hinherits, h.old.inheriting_eq hbelow]
  dsimp only
  split
  · exact retains_fileOfClass h hn d.owner.name
  · have huses := fun owner =>
      plain_uses_self s d.method.callFrom owner (s.old.inheriting (.method d.method.key) c.name)
    exact ((((plain_users (.refl s) d.owner.name).append (huses d.owner.name)).onlyIf _).append
      (huses c.name)).retains _

theorem retains_addedInside {sub : Symbol} (hsub : sub ≠ u)
    (haround : ∀ d, s.updated.describe? sub = some d → d.outer ≠ some u) :
    Retains (s.terms u file) (s.addedInside m sub) ((s.forget u file).addedInside m sub) := by
  have hnamed := h.updated.named hn.updated
  unfold addedInside
  rw [h.updated.describe sub hsub, fileOf_forget s file hsub]
  cases hd : s.updated.describe? sub with
  | none => exact plain_none.retains _
  | some d =>
    cases hf : s.main.fileOf.get? sub with
    | none => exact plain_none.retains _
    | some f =>
      dsimp only
      cases houter : d.outer with
      | none => exact plain_none.retains _
      | some outer =>
        have hne : outer ≠ u := fun heq => haround d hd (heq ▸ houter)
        obtain ⟨sees, -, hsees, -⟩ := View.seesMethod_relisted (.refl _) hn.updated outer m
        obtain ⟨sees', -, hsees', -⟩ := View.seesMethod_relisted (.refl _) hnamed outer m
        have himp : sees = true → sees' = true := by
          rintro rfl
          have hstill := h.updated.seesMethod hn.updated hne hsees
          exact Except.ok.inj (hsees'.symm.trans hstill)
        have hplain := plain_file (.refl s) (hn.files hf)
        dsimp only
        rw [hsees, hsees']
        exact .onlyIf_of_imp himp (hplain.retains _) hplain

theorem retains_addedMethod (hkey : s.names.lookup constructorName = some s.constructor)
    (hc : s.names.Knows c.name) (hu : ¬ s.Beneath c.name u)
    (hclear : m.access.isPrivate = false → s.ClearOfMethod u c m) :
    Retains (s.terms u file) (s.addedMethod c m) ((s.forget u file).addedMethod c m) := by
  have hbelow : ¬ s.main.Below c.name u := fun hb => hu (.inl hb)
  have hplace : s.updated.SamePlace c c := ⟨.refl c, hc⟩
  have hsubclasses : (s.forget u file).main.allSubclasses c.name = s.main.allSubclasses c.name :=
    rfl
  unfold addedMethod
  refine .append (.onlyIf _ fun _ => retains_subclasses h hn hbelow false)
    (.onlyIf _ fun hprivate => ?_)
  have hclear := hclear (by simpa using hprivate)
  rw [addedOverload_forget h hbelow fun hm => (hclear.above hm).1,
    addedLessSpecific_forget h hbelow,
    lessSpecificAround_forget h hkey hbelow fun hm => (hclear.above hm).2, hsubclasses]
  refine .append ((plain_addedOverload (.refl s) hn hplace).retains _)
    (retains_ofResult fun around _ => ?_)
  refine .append (.append ((plain_addedLessSpecific (.refl s) (.refl c)).retains _)
    (retains_loop fun d _ => retains_addedBeside h hn hu d)) (retains_loop fun sub hsub => ?_)
  have hsub := Graph.mem_allSubclasses_iff.1 hsub
  exact retains_addedInside h hn (ne_of_below hbelow hsub) fun d => hclear.around sub d hsub

/-! ## Removed methods -/

omit h hn in
/-- The methods left are abstract: some of another class is, and none of another class is not. -/
theorem onlyAbstract_iff {left : List Origin} :
    onlyAbstract c left = true ↔
      (∃ o ∈ left, (o.declaration?.map fun d => d.owner.name) ≠ some c.name) ∧
      ∀ d, Origin.resolved d ∈ left → d.owner.name ≠ c.name →
        (d.method.access.isAbstract || d.owner.isInterface) = true := by
  unfold onlyAbstract
  simp only [Bool.and_eq_true, Bool.not_eq_true', List.isEmpty_eq_false_iff_exists_mem,
    List.mem_filter, decide_eq_true_eq, List.all_eq_true]
  refine and_congr Iff.rfl ⟨fun hall d hd hne => ?_, fun hall o ho => ?_⟩
  · refine hall (.resolved d) ⟨hd, fun hsome => hne ?_⟩
    exact Option.some.inj hsome
  · cases o with
    | resolved d => exact hall d ho.1 fun hname => ho.2 (congrArg some hname)
    | unknown => rfl

omit h hn in
/-- Where everything that is known was known before, and something unknown has come in its
place, the methods left are abstract as before. -/
theorem onlyAbstract_of_unknown {left left' : IdSet Origin}
    (hknown : ∀ d, Origin.resolved d ∈ left'.toList → Origin.resolved d ∈ left.toList)
    (hunknown : Origin.unknown ∈ left'.toList) (honly : onlyAbstract c left.toList = true) :
    onlyAbstract c left'.toList = true := by
  rw [onlyAbstract_iff] at honly ⊢
  refine ⟨⟨.unknown, hunknown, ?_⟩, fun d hd hne => honly.2 d (hknown d hd) hne⟩
  simp [Origin.declaration?]

omit h hn in
/-- The methods that are left to a class without the descriptor of `u` were left before. -/
theorem left_of_left {v v' : View} (h : v.Loses u v') (hl : v.LevelAbove c m.key) (hn : v.Named)
    (hc : v.names.Knows c.name) {sub : Symbol} {d : ClassInfo} (hd : v.describe? sub = some d)
    (hd' : v'.describe? sub = some d) {seen seen' above above' : IdSet Origin}
    (hseen : v.overridden m d .sameKey = .ok seen)
    (hseen' : v'.overridden m d .sameKey = .ok seen')
    (habove : v.overridden m c .sameKey = .ok above)
    (habove' : v'.overridden m c .sameKey = .ok above') {e : Declaration}
    (he : Origin.resolved e ∈ (IdSet.ofList (seen'.toList ++ above'.toList)).toList) :
    Origin.resolved e ∈ (IdSet.ofList (seen.toList ++ above.toList)).toList := by
  have hfind := IdSet.find?_eq_some.2 ⟨he, rfl⟩
  rw [IdSet.find?_ofList, List.find?_append, Option.or_eq_some_iff] at hfind
  refine (IdSet.find?_eq_some (k := ident (Origin.resolved e)).1 ?_).1
  rw [IdSet.find?_ofList, List.find?_append, Option.or_eq_some_iff]
  rcases hfind with hfind | ⟨-, hfind⟩
  · exact .inl (h.find?_overridden hl hn hc (.inr ⟨sub, hd⟩) (.inr ⟨sub, hd'⟩) hseen hseen' hfind)
  · have hold := h.find?_overridden hl hn hc (.inl rfl) (.inl rfl) habove habove' hfind
    cases hother : seen.find? (ident (Origin.resolved e)) with
    | none => exact .inr ⟨hother, hold⟩
    | some o =>
      obtain rfl := hl.find?_unique hn hc (.inr ⟨sub, hd⟩) (.inl rfl) hseen habove hother hold
      exact .inl hother

theorem retains_removedAbove (hc : s.names.Knows c.name)
    (hl : s.updated.LevelAbove c m.key) {above above' : IdSet Origin}
    (habove : s.updated.overridden m c .sameKey = .ok above)
    (habove' : (s.forget u file).updated.overridden m c .sameKey = .ok above') {sub : Symbol}
    (hsub : sub ≠ u) :
    Retains (s.terms u file) (s.removedAbove c m above sub)
      ((s.forget u file).removedAbove c m above' sub) := by
  have hnamed := h.updated.named hn.updated
  unfold removedAbove
  rw [h.updated.describe sub hsub]
  by_cases hsubc : sub = c.name
  · rw [if_pos hsubc, if_pos hsubc]
    exact plain_none.retains _
  rw [if_neg hsubc, if_neg hsubc]
  cases hd : s.updated.describe? sub with
  | none => exact plain_none.retains _
  | some d =>
    have hd' : (s.forget u file).updated.describe? sub = some d :=
      (h.updated.describe sub hsub).trans hd
    obtain ⟨seen, hseen⟩ := View.overridden_ok hn.updated (hn.updated sub d hd) m .sameKey
    obtain ⟨seen', hseen'⟩ := View.overridden_ok hnamed (hnamed sub d hd') m .sameKey
    dsimp only
    rw [hseen, hseen']
    refine .onlyIf_of_imp (fun honly => ?_) ?_ ?_
    · have hleft := fun e : Declaration => left_of_left (e := e) h.updated hl hn.updated hc hd hd'
        hseen hseen' habove habove'
      rcases h.updated.overridden_eq_or_unknown m .sameKey hseen' with heq | hunknown
      · rcases h.updated.overridden_eq_or_unknown m .sameKey habove' with heq' | hunknown
        · obtain rfl := Except.ok.inj (hseen.symm.trans heq)
          obtain rfl := Except.ok.inj (habove.symm.trans heq')
          exact honly
        · refine onlyAbstract_of_unknown hleft ?_ honly
          exact unknown_mem_ofList.2 (List.mem_append_right _ hunknown)
      · refine onlyAbstract_of_unknown hleft ?_ honly
        exact unknown_mem_ofList.2 (List.mem_append_left _ hunknown)
    · exact retains_fileOfClass h hn sub
    · exact plain_fileOfClass (.refl _) (hn.forget u file) sub

theorem retains_removedMethod (hc : s.names.Knows c.name) (hu : ¬ s.main.Below c.name u)
    (hl : m.access.isAbstract = false → s.updated.LevelAbove c m.key) :
    Retains (s.terms u file) (s.removedMethod c m) ((s.forget u file).removedMethod c m) := by
  have hnamed := h.updated.named hn.updated
  obtain ⟨above, habove⟩ := View.overridden_ok hn.updated hc m .sameKey
  obtain ⟨above', habove'⟩ := View.overridden_ok hnamed hc m .sameKey
  have hbound : stillBound m above'.toList = true → stillBound m above.toList = true := by
    intro hbound
    rcases h.updated.overridden_eq_or_unknown m .sameKey habove' with heq | hunknown
    · rw [habove] at heq
      rwa [Except.ok.inj heq]
    · simp only [stillBound, Bool.and_eq_true, List.all_eq_true] at hbound
      exact absurd (hbound.2 _ hunknown) Bool.false_ne_true
  have huses := plain_uses_self s m.callFrom c.name
    (s.updated.inheriting (.method m.key) c.name)
  unfold removedMethod
  rw [habove, habove', h.updated.inheriting_eq hu, h.updated.overriding_eq hu]
  refine .append (.append (.onlyIf_of_imp ?_ (huses.retains _) huses) ?_)
    (.onlyIf _ fun habstract => ?_)
  · intro hsearched
    by_contra hbound'
    simp only [Bool.not_eq_true, Bool.not_eq_false'] at hsearched hbound'
    rw [hbound hbound'] at hsearched
    simp at hsearched
  · exact retains_ofResult fun below _ => retains_loop fun d _ => retains_fileOfClass h hn _
  · refine retains_loop fun sub hsub => ?_
    exact retains_removedAbove h hn hc (hl (by simpa using habstract)) habove habove'
      (ne_of_below hu (View.below_of_mem_inheriting hsub))

/-! ## Changed methods -/

theorem retains_follower {d : Declaration} (hu : ¬ s.main.Below d.owner.name u) :
    Retains (s.terms u file) (s.follower d) ((s.forget u file).follower d) := by
  unfold follower
  rw [h.updated.inheriting_eq hu]
  exact ((retains_fileOfClass h hn _).append ((plain_users (.refl s) _).retains _)).append
    ((plain_uses_self s _ _ _).retains _)

theorem retains_revisedMethod (hu : ¬ s.main.Below c.name u) (change : MethodChange) :
    Retains (s.terms u file) (s.revisedMethod c m change)
      ((s.forget u file).revisedMethod c m change) := by
  have hcalls := (plain_uses_self s m.callFrom c.name
    (s.updated.inheriting (.method m.key) c.name)).retains (s.terms u file)
  have hlimit : ∀ r, Residency.noInheritorOf s.names c.name = .ok r →
      (s.terms u file).limit r := fun _ => limit_noInheritorOf h
  have hlimited := retains_limited hlimit
    ((c.name :: s.updated.inheriting (.method m.key) c.name).map m.callFrom)
  have hsubclasses := retains_subclasses h hn hu false
  unfold revisedMethod
  rw [h.updated.inheriting_eq hu, h.updated.overriding_eq hu]
  refine .append (.onlyIf _ fun _ => hcalls.append hlimited) ?_
  by_cases htype : (change.base.typeOrSignature || change.throwsMore) = true
  · rw [if_pos htype, if_pos htype]
    refine .append (.onlyIf _ fun _ => hcalls) (retains_ofResult fun below hbelow => ?_)
    exact retains_loop fun d hd =>
      retains_follower h hn (not_below_of_below hu (View.below_of_mem_overriding hbelow hd))
  · rw [if_neg htype, if_neg htype]
    by_cases haccess : change.base.access = true
    · rw [if_pos haccess, if_pos haccess]
      by_cases hstatic : (change.base.added.hasAny [.static, .priv] ||
          change.base.removed.has .static) = true
      · rw [if_pos hstatic, if_pos hstatic]
        exact .append (.onlyIf _ fun _ => hcalls) (.onlyIf _ fun _ => hsubclasses)
      · rw [if_neg hstatic, if_neg hstatic]
        exact .append (.onlyIf _ fun _ => hsubclasses) (.onlyIf _ fun _ => hcalls.append hlimited)
    · rw [if_neg haccess, if_neg haccess]
      exact plain_none.retains _

theorem retains_changedMethod (hu : ¬ s.main.Below c.name u)
    (change : Changed MethodInfo MethodChange) :
    Retains (s.terms u file) (s.changedMethod c change)
      ((s.forget u file).changedMethod c change) := by
  unfold changedMethod
  by_cases hannotation : c.isAnnotationType = true
  · rw [if_pos hannotation, if_pos hannotation]
    exact ((plain_ofQuery _).onlyIf _).retains _
  · rw [if_neg hannotation, if_neg hannotation]
    by_cases hempty : (change.diff.base.isEmpty && !change.diff.throwsMore) = true
    · rw [if_pos hempty, if_pos hempty]
      exact plain_none.retains _
    · rw [if_neg hempty, if_neg hempty]
      exact retains_revisedMethod h hn hu change.diff

/-- **The changes of the methods of a class** are retained where the forgotten class is not
below, nor in the way of an added method. -/
theorem retains_methods (hkey : s.names.lookup constructorName = some s.constructor)
    (hc : s.names.Knows c.name) (hu : ¬ s.Beneath c.name u) {p : Patch MethodInfo MethodChange}
    (hclear : ∀ m ∈ p.added, m.access.isPrivate = false → s.ClearOfMethod u c m)
    (hl : ∀ m ∈ p.removed, m.access.isAbstract = false → s.updated.LevelAbove c m.key) :
    Retains (s.terms u file) (s.methods c p) ((s.forget u file).methods c p) := by
  have hbelow : ¬ s.main.Below c.name u := fun hb => hu (.inl hb)
  unfold methods
  refine .append (.append (.onlyIf _ fun _ => retains_loop fun m hm => ?_)
    (retains_loop fun m hm => ?_)) (retains_loop fun change _ => ?_)
  · exact retains_addedMethod h hn hkey hc hu (hclear m hm)
  · exact retains_removedMethod h hn hc hbelow (hl m hm)
  · exact retains_changedMethod h hn hbelow change

/-! ## Added fields -/

theorem retains_hidesAround {f : FieldInfo} {sub : Symbol} (hsub : sub ≠ u)
    (haround : ∀ d outer o, s.updated.describe? sub = some d → d.outer = some outer →
      s.updated.describe? outer = some o → ¬ s.updated.Climbs o u) :
    Retains (s.terms u file) (s.hidesAround f sub) ((s.forget u file).hidesAround f sub) := by
  have hnamed := h.updated.named hn.updated
  unfold hidesAround
  rw [h.updated.describe sub hsub, fileOf_forget s file hsub]
  cases hd : s.updated.describe? sub with
  | none => exact plain_none.retains _
  | some d =>
    cases hf : s.main.fileOf.get? sub with
    | none => exact plain_none.retains _
    | some f' =>
      have hplain := plain_file (.refl s) (hn.files hf)
      dsimp only
      cases houter : d.outer with
      | none => exact (hplain.onlyIf _).retains _
      | some outer =>
        dsimp only
        by_cases hempty : outer.isEmpty = true
        · rw [if_pos hempty, if_pos hempty]
          exact (hplain.onlyIf _).retains _
        · rw [if_neg hempty, if_neg hempty]
          obtain ⟨sees, -, hsees, -⟩ := View.seesField_relisted (.refl _) hn.updated outer f.name
          obtain ⟨sees', -, hsees', -⟩ := View.seesField_relisted (.refl _) hnamed outer f.name
          have himp : sees = true → sees' = true := by
            rintro rfl
            have hstill := h.updated.seesField (haround d outer · hd houter) hsees
            exact Except.ok.inj (hsees'.symm.trans hstill)
          rw [hsees, hsees']
          refine .onlyIf_of_imp (fun hhides => ?_) (hplain.retains _) hplain
          rw [Bool.or_eq_true] at hhides ⊢
          exact hhides.imp id himp

omit hn in
theorem limit_hidingLimit {added hidden : Access} {owner : Symbol} (hu : ¬ s.updated.Above u owner)
    {r : Residency} (hr : hidingLimit s.names added hidden owner = .ok (some r)) :
    (s.terms u file).limit r := by
  have hboth : ∀ {r}, (do
      let r ← (Residency.noInheritorOf s.names owner).map Residency.not
      let q ← Residency.outsideOf s.names owner
      pure (some (.both r (.not q)))) = (.ok (some r) : Except Fault (Option Residency)) →
      (s.terms u file).limit r := by
    intro r hr
    cases hnot : (Residency.noInheritorOf s.names owner).map Residency.not with
    | error fault => simp [hnot, Bind.bind, Except.bind] at hr
    | ok a =>
      cases hout : Residency.outsideOf s.names owner with
      | error fault => simp [hnot, hout, Bind.bind, Except.bind] at hr
      | ok q =>
        rw [hnot, hout] at hr
        obtain rfl := Option.some.inj (Except.ok.inj hr)
        exact limit_both (limit_inheritorOf h hu hnot) (limit_outsideOf hout).2
  have hsome : ∀ {r}, ((Residency.noInheritorOf s.names owner).map Residency.not).map some =
      .ok (some r) → (s.terms u file).limit r := by
    intro r hr
    obtain ⟨_, hnot, hsome⟩ := exists_of_map_ok hr
    obtain rfl := Option.some.inj hsome
    exact limit_inheritorOf h hu hnot
  unfold hidingLimit at hr
  dsimp only at hr
  split at hr
  · simp at hr
  · simp at hr
  · simp at hr
  · simp at hr
  · simp at hr
  · exact hsome hr
  · exact hsome hr
  · exact hsome hr
  · exact hboth hr

omit hn in
theorem retains_hiddenReaders {f hidden : FieldInfo} {owner : ClassInfo}
    (hu : ¬ s.Beneath owner.name u) :
    Retains (s.terms u file) (s.hiddenReaders f hidden owner)
      ((s.forget u file).hiddenReaders f hidden owner) := by
  unfold hiddenReaders
  rw [h.old.inheriting_eq fun hb => hu (.inl hb)]
  refine .append ((plain_uses_self s _ _ _).retains _)
    (retains_ofResult fun limit hlimit => ?_)
  cases limit with
  | none => exact plain_none.retains _
  | some r => exact retains_ofLimit (limit_hidingLimit h (fun ha => hu (.inr (.inr ha))) hlimit) _

theorem retains_addedField {f : FieldInfo} (hu : ¬ s.main.Below c.name u)
    (hclear : s.ClearOfField u c f) :
    Retains (s.terms u file) (s.addedField c f) ((s.forget u file).addedField c f) := by
  have hsubclasses : (s.forget u file).main.allSubclasses c.name = s.main.allSubclasses c.name :=
    rfl
  unfold addedField
  rw [hsubclasses, h.updated.hidden_eq hclear.above]
  refine .append (.onlyIf _ fun hprivate => retains_loop fun sub hsub => ?_)
    (retains_ofResult fun found hfound => retains_loop fun x hx => ?_)
  · have hsub := Graph.mem_allSubclasses_iff.1 hsub
    have haround := hclear.around (by simpa using hprivate)
    unfold addedBelow
    rw [h.updated.inheriting_eq (not_below_of_below hu hsub)]
    refine .append (.append ?_ ((plain_uses_self s _ _ _).retains _))
      ((plain_users (.refl s) sub).retains _)
    exact retains_hidesAround h hn (ne_of_below hu hsub) fun d outer o hd =>
      haround sub d outer o hsub hd
  · obtain ⟨hx, hprivate⟩ := List.mem_filter.1 hx
    exact retains_hiddenReaders h (hclear.hidden found hfound x hx (by simpa using hprivate))

/-! ## Removed and changed fields -/

omit hn in
theorem retains_reads (hu : ¬ s.main.Below c.name u) (f : FieldInfo) :
    Retains (s.terms u file) (s.reads c f) ((s.forget u file).reads c f) := by
  unfold reads
  rw [h.updated.inheriting_eq hu]
  exact (plain_uses_self s _ _ _).retains _

theorem retains_removedField (hu : ¬ s.main.Below c.name u) (f : FieldInfo) :
    Retains (s.terms u file) (s.removedField c f) ((s.forget u file).removedField c f) :=
  .append (.onlyIf _ fun _ => retains_constant h hn hu f true false) (retains_reads h hu f)

omit hn in
theorem retains_narrowedField (hu : ¬ s.main.Below c.name u) (f : FieldInfo) (base : Revision) :
    Retains (s.terms u file) (s.narrowedField c f base)
      ((s.forget u file).narrowedField c f base) := by
  unfold narrowedField
  rw [h.updated.inheriting_eq hu]
  refine .append (.onlyIf _ fun _ => (plain_uses_self s _ _ _).retains _)
    (.onlyIf _ fun _ => retains_limited (fun r hr => ?_) _)
  split at hr
  · exact limit_noInheritorOf h hr
  · exact (limit_outsideOf hr).1

theorem retains_changedField (hu : ¬ s.main.Below c.name u)
    (change : Changed FieldInfo Revision) :
    Retains (s.terms u file) (s.changedField c change)
      ((s.forget u file).changedField c change) := by
  rw [changedField_eq, changedField_eq]
  refine .append (.onlyIf _ fun _ => retains_constant h hn hu _ _ _) ?_
  cases change.diff.rebinds with
  | true => exact retains_reads h hu _
  | false => exact retains_narrowedField h hu _ _

/-- **The changes of the fields of a class** are retained where the forgotten class is not
below, nor in the way of an added field. -/
theorem retains_fields (hu : ¬ s.main.Below c.name u) {p : Patch FieldInfo Revision}
    (hclear : ∀ f ∈ p.added, s.ClearOfField u c f) :
    Retains (s.terms u file) (s.fields c p) ((s.forget u file).fields c p) := by
  unfold fields
  refine .append (.append (retains_loop fun f hf => ?_) (retains_loop fun f _ => ?_))
    (retains_loop fun change _ => ?_)
  · exact retains_addedField h hn hu (hclear f hf)
  · exact retains_removedField h hn hu f
  · exact retains_changedField h hn hu change

end

end Scene

/-! ## Changed classes -/

/-- A change that the rules follow down to the classes below: of the place of a class, or of
its members. -/
def ClassChange.goesDown (d : ClassChange) : Bool :=
  d.base.superclass || !d.interfaces.isEmpty || d.base.signature || !d.methods.isEmpty ||
    !d.fields.isEmpty

namespace Scene

open Impact

/-- The searches for a changed class do not come by `u` where they would lose something. -/
structure Clear (s : Scene) (u : Symbol) (change : Changed ClassInfo ClassChange) : Prop where
  below : change.diff.goesDown = true → ¬ s.Beneath change.past.name u
  nested : change.past.isAnnotationType = true →
    ¬ s.main.Below (change.past.outer.getD .empty) u
  addedMethods : ∀ m ∈ change.diff.methods.added, m.access.isPrivate = false →
    s.ClearOfMethod u change.past m
  addedFields : ∀ f ∈ change.diff.fields.added, s.ClearOfField u change.past f
  removedMethods : ∀ m ∈ change.diff.methods.removed, m.access.isAbstract = false →
    s.updated.LevelAbove change.past m.key

/-- The condition on an event: only the rules for changed classes search. -/
def ClearAt (s : Scene) (u : Symbol) : ClassEvent → Prop
  | .changed change => s.Clear u change
  | .removed _ => True
  | .added _ => True

section

variable {s : Scene} {u file : Symbol} (h : s.Spares u file) (hn : s.Named) {c : ClassInfo}

theorem retains_changedModifiers (h : s.Spares u file) (base : Revision) :
    Retains (s.terms u file) (s.changedModifiers c base)
      ((s.forget u file).changedModifiers c base) := by
  have hmentions := (plain_mentions (.refl c)).retains (s.terms u file)
  unfold changedModifiers
  refine .append (.append (.append ?_ ?_) ?_) ?_
  · exact .onlyIf _ fun _ =>
      (retains_limited (fun _ => limit_noInheritorOf h) _).append hmentions
  · exact .onlyIf _ fun _ =>
      (retains_limited (fun _ hr => (limit_outsideOf hr).1) _).append hmentions
  · exact .onlyIf _ fun _ => hmentions
  · exact .onlyIf _ fun _ => (plain_ofUsages fun _ => Iff.rfl).retains _

include h hn

theorem retains_changedPlace {d : ClassChange} (hu : d.goesDown = true → ¬ s.main.Below c.name u) :
    Retains (s.terms u file) (s.changedPlace c d) ((s.forget u file).changedPlace c d) := by
  unfold changedPlace
  refine .onlyIf _ fun hplace => retains_subclasses h hn (hu ?_) _
  simp only [ClassChange.goesDown, Bool.or_eq_true] at hplace ⊢
  exact .inl (.inl hplace)

theorem retains_annotationChange
    (hu : c.isAnnotationType = true → ¬ s.main.Below (c.outer.getD .empty) u) (d : ClassChange) :
    Retains (s.terms u file) (s.changedAnnotation c d)
      (Scene.changedAnnotation (s.forget u file) c d) := by
  have hmentions := (plain_mentions (.refl c)).retains (s.terms u file)
  unfold changedAnnotation
  refine .onlyIf _ fun hannotation => ?_
  by_cases hretention : d.retention = true
  · rw [if_pos hretention, if_pos hretention]
    exact hmentions
  · rw [if_neg hretention, if_neg hretention]
    refine .append (.append (.onlyIf _ fun _ => ?_) (.onlyIf _ fun _ => ?_))
      (.onlyIf _ fun _ => hmentions)
    · exact retains_widen h hn (hu hannotation) _ _ _
    · exact (plain_ofQuery _).retains _

/-- **A changed class** in a graph that forgot another one. -/
theorem retains_changedClass (hkey : s.names.lookup constructorName = some s.constructor)
    {change : Changed ClassInfo ClassChange}
    (hc : s.names.Knows change.past.name) (hclear : s.Clear u change) :
    Retains (s.terms u file) (s.changedClass change) ((s.forget u file).changedClass change) := by
  have hmentions := (plain_mentions (.refl change.past)).retains (s.terms u file)
  have hbelow : change.diff.goesDown = true → ¬ s.main.Below change.past.name u :=
    fun hdown hb => hclear.below hdown (.inl hb)
  have hsource : Retains (s.terms u file) (s.sourceAnnotation change.past change.now)
      (Scene.sourceAnnotation (s.forget u file) change.past change.now) := by
    refine .onlyIf _ fun hannotation => retains_widen h hn (hclear.nested ?_) _ _ _
    exact (Bool.and_eq_true_iff.1 hannotation).1
  have hmethods : Retains (s.terms u file) (s.methods change.past change.diff.methods)
      ((s.forget u file).methods change.past change.diff.methods) := by
    by_cases hempty : change.diff.methods.isEmpty = true
    · simp only [Patch.isEmpty, Bool.and_eq_true, List.isEmpty_iff] at hempty
      unfold methods
      rw [hempty.1.1, hempty.1.2, hempty.2]
      exact (((plain_none.onlyIf _).append plain_none).append plain_none).retains _
    · have hdown : change.diff.goesDown = true := by simp [ClassChange.goesDown, hempty]
      exact retains_methods h hn hkey hc (hclear.below hdown) hclear.addedMethods
        hclear.removedMethods
  have hfields : Retains (s.terms u file) (s.fields change.past change.diff.fields)
      ((s.forget u file).fields change.past change.diff.fields) := by
    by_cases hempty : change.diff.fields.isEmpty = true
    · simp only [Patch.isEmpty, Bool.and_eq_true, List.isEmpty_iff] at hempty
      unfold fields
      rw [hempty.1.1, hempty.1.2, hempty.2]
      exact plain_none.retains _
    · have hdown : change.diff.goesDown = true := by simp [ClassChange.goesDown, hempty]
      exact retains_fields h hn (hbelow hdown) hclear.addedFields
  exact .all (.cons ((plain_users (.refl s) _).retains _)
    (.cons (retains_changedPlace h hn hbelow) (.cons (.onlyIf _ fun _ => hmentions)
    (.cons hsource (.cons (retains_changedModifiers h _)
    (.cons (retains_annotationChange h hn hclear.nested _)
    (.cons hmethods (.cons hfields .nil))))))))

/-! ## Removed, added and disappeared classes -/

theorem retains_addedClass (c : ClassInfo) :
    Retains (s.terms u file) (s.addedClass c) ((s.forget u file).addedClass c) :=
  retains_loop fun d _ => retains_acceptedFileOfClass h hn d

theorem retains_bereaved (f user : Symbol) :
    Retains (s.terms u file) (s.bereaved f user) ((s.forget u file).bereaved f user) := by
  refine retains_onFileOf h hn ?_ (fun _ hother => ?_) user
  · exact onlyIf_induction (P := fun a => Retains _ a Impact.none) (plain_none.retains _)
      fun _ => retains_acceptedFile_lost h hn
  · exact (plain_acceptedFile (.refl s) hother).onlyIf _

theorem retains_disappearedClass {n : Symbol} (hnu : n ≠ u) :
    Retains (s.terms u file) (s.disappearedClass n) ((s.forget u file).disappearedClass n) := by
  unfold disappearedClass onFileOf
  rw [fileOf_forget s file hnu]
  cases s.main.fileOf.get? n with
  | none => exact plain_none.retains _
  | some f => exact retains_loop fun d _ => retains_bereaved h hn f d

/-! ## Events -/

/-- **The impact of one event** is retained in a graph that forgot a class. -/
theorem retains_event (hkey : s.names.lookup constructorName = some s.constructor)
    {e : ClassEvent}
    (hknows : ∀ change, e = .changed change → s.names.Knows change.past.name)
    (hclear : s.ClearAt u e) :
    Retains (s.terms u file) (s.event e) ((s.forget u file).event e) := by
  cases e with
  | changed change => exact retains_changedClass h hn hkey (hknows change rfl) hclear
  | removed c => exact (plain_removedClass (.refl s) (.refl c)).retains _
  | added c => exact retains_addedClass h hn c

theorem retains_removedFile {path : SourcePath}
    (hkept : ∀ f, s.names.lookup path.text = some f →
      f ≠ file ∧ ∀ c ∈ s.main.classesIn.valuesOf f, c.name ≠ u) :
    Retains (s.terms u file) (s.removedFile path) ((s.forget u file).removedFile path) := by
  have hlookup : (s.forget u file).names.lookup path.text = s.names.lookup path.text := rfl
  unfold removedFile
  rw [hlookup]
  cases hf : s.names.lookup path.text with
  | none => exact plain_none.retains _
  | some f =>
    obtain ⟨hfile, hnames⟩ := hkept f hf
    dsimp only
    rw [valuesOf_forget s u hfile]
    exact retains_loop fun c hc => retains_disappearedClass h hn (hnames c hc)

end

end Scene

end ClassImpact

import ClassImpact.Proofs.Forgotten
import ClassImpact.Proofs.Outcomes

/-!
# What is searched for, and what limits are put on

A rule searches for usages of a few kinds, and few rules limit the usages that they search for.
The change of a class's modifiers limits the mentions of the class, a changed method the calls
of it, a changed field its reads or writes, and an added field the reads of those that it hides.

`Impact.Only` bounds both at once, and there is one law for it for each rule.  So what a round
does not search for, and which limits it cannot put on a usage, is read off the few rules that
are about such a usage.

## Main results

* `Impact.limitOn?_all`: the limit that several impacts leave on a usage
* `Scene.only_impact`: what a round searches for and limits
* `Scene.limitOn?_changedClass`: what a changed class puts on the mentions of classes
-/

namespace ClassImpact

/-! ## Kinds of usages -/

namespace Usage

/-- The usages that point at a member of a class. -/
def OfMember : Usage → Prop
  | .read .. => True
  | .write .. => True
  | .call .. => True
  | _ => False

/-- The usages that point at a field. -/
def OfField : Usage → Prop
  | .read .. => True
  | .write .. => True
  | _ => False

end Usage

/-! ## What the changes of members search for -/

/-- A change of a method for which the calls of it are searched under a limit: only those
outside the package count, and those of classes that do not inherit. -/
def MethodChange.confines (d : MethodChange) : Bool :=
  d.base.becamePackageLocal ||
    (!(d.base.typeOrSignature || d.throwsMore) && d.base.access &&
      !(d.base.added.hasAny [.static, .priv] || d.base.removed.has .static) &&
        (d.base.added.has .prot && !d.base.removed.has .priv))

namespace Scene

/-- The calls of a method, through its class and through those that inherit it. -/
def callsOf (s : Scene) (c : ClassInfo) (m : MethodInfo) : List Usage :=
  (c.name :: s.updated.inheriting (.method m.key) c.name).map m.callFrom

/-- Where the reads and writes of a field count that is public no longer. -/
def narrowedTo (s : Scene) (c : ClassInfo) (base : Revision) : Except Fault Residency :=
  if base.added.has .prot then Residency.noInheritorOf s.names c.name
  else Residency.outsideOf s.names c.name

end Scene

namespace Impact

/-- The limit that counts after several impacts is that of the last one to set any. -/
theorem limitOn?_all {l : List Impact} (h : ∀ a ∈ l, a.stop = .none) (u : Usage) :
    (all l).limitOn? u = l.reverse.findSome? (·.limitOn? u) := by
  induction l with
  | nil => rfl
  | cons a l ih =>
    obtain ⟨ha, hl⟩ := List.forall_mem_cons.1 h
    rw [all_cons, limitOn?_append ha, ih hl, List.reverse_cons, List.findSome?_append]
    congr 1
    cases hau : a.limitOn? u <;> simp [hau]

/-! ## Bounds of an impact -/

/-- Every usage that an impact searches for is as `P` says, and every limit as `Q` says. -/
structure Only (a : Impact) (P : Usage → Prop) (Q : Usage → Residency → Prop) : Prop where
  searches : ∀ u ∈ a.usages, P u
  limits : ∀ l ∈ a.limits, Q l.1 l.2

/-- All limits of an impact are put on usages of members. -/
def LimitsMembers (a : Impact) : Prop := ∀ l ∈ a.limits, l.1.OfMember

variable {a b : Impact} {P : Usage → Prop} {Q : Usage → Residency → Prop} {u : Usage}
  {r : Residency}

theorem mem_limits_of_limitOn? (h : a.limitOn? u = some r) : (u, r) ∈ a.limits := by
  obtain ⟨l, hfind, rfl⟩ := Option.map_eq_some_iff.1 h
  have hu : l.1 = u := by simpa using List.find?_some hfind
  subst hu
  exact List.mem_reverse.1 (List.mem_of_find?_eq_some hfind)

/-- A limit that counts is one of the limits. -/
theorem Only.of_limitOn? (h : a.Only P Q) (hr : a.limitOn? u = some r) : Q u r :=
  h.limits _ (mem_limits_of_limitOn? hr)

theorem Only.limitOn?_eq_none (h : a.Only P Q) (hu : ∀ r, ¬ Q u r) : a.limitOn? u = .none := by
  cases hlimit : a.limitOn? u with
  | none => rfl
  | some r => exact absurd (h.of_limitOn? hlimit) (hu r)

theorem LimitsMembers.limitOn?_mention (h : a.LimitsMembers) (c : Symbol) :
    a.limitOn? (.mention c) = .none := by
  have honly : a.Only (fun _ => True) fun u _ => u.OfMember := ⟨fun _ _ => trivial, h⟩
  exact honly.limitOn?_eq_none fun _ hmention => hmention

theorem limitOn?_onlyIf (condition : Bool) (a : Impact) (u : Usage) :
    (onlyIf condition a).limitOn? u = if condition = true then a.limitOn? u else .none := by
  cases condition <;> rfl

theorem only_of_eq_nil (hu : a.usages = []) (hl : a.limits = []) : a.Only P Q where
  searches u hmem := by
    rw [hu] at hmem
    exact absurd hmem List.not_mem_nil
  limits l hmem := by
    rw [hl] at hmem
    exact absurd hmem List.not_mem_nil

theorem only_none : none.Only P Q := only_of_eq_nil rfl rfl

theorem only_ofUsages {usages : List Usage} (h : ∀ u ∈ usages, P u) :
    (ofUsages usages).Only P Q where
  searches := h
  limits _ hmem := absurd hmem List.not_mem_nil

theorem only_ofLimit {usages : List Usage} (h : ∀ u ∈ usages, Q u r) :
    (ofLimit usages r).Only P Q where
  searches _ hmem := absurd hmem List.not_mem_nil
  limits l hmem := by
    obtain ⟨u, hu, rfl⟩ := List.mem_map.1 hmem
    exact h u hu

theorem Only.append (h : a.Only P Q) (h' : b.Only P Q) : (a ++ b).Only P Q := by
  cases hstop : a.stop with
  | some stop =>
    rw [append_of_stop hstop]
    exact h
  | none =>
    constructor
    · intro u hu
      have hu : (a ++ b).Brings (.usage u) := hu
      rw [brings_append hstop] at hu
      exact hu.elim (h.searches u) (h'.searches u)
    · intro l hl
      rw [limits_append hstop, List.mem_append] at hl
      exact hl.elim (h.limits l) (h'.limits l)

theorem only_all {l : List Impact} (h : ∀ a ∈ l, a.Only P Q) : (all l).Only P Q :=
  all_induction only_none .append h

theorem only_loop {α : Type} {l : List α} {f : α → Impact} (h : ∀ x ∈ l, (f x).Only P Q) :
    (all (l.map f)).Only P Q :=
  only_all (List.forall_mem_map.2 h)

theorem only_onlyIf {condition : Bool} (h : condition = true → a.Only P Q) :
    (onlyIf condition a).Only P Q :=
  onlyIf_induction (P := fun a => a.Only P Q) only_none h

theorem only_ofResult {α : Type} {r : Except Fault α} {f : α → Impact}
    (h : ∀ x, r = .ok x → (f x).Only P Q) : (ofResult r f).Only P Q := by
  cases r with
  | ok x => exact h x rfl
  | error fault => exact only_of_eq_nil rfl rfl

end Impact

/-- The fields that are hidden by one of a name have that name. -/
theorem View.name_of_mem_hidden {v : View} {name : Symbol} {c : ClassInfo}
    {found : List (FieldInfo × ClassInfo)} (h : v.hidden name c = .ok found) :
    ∀ x ∈ found, x.1.name = name := by
  have hwalk := values_of_mapM h
  have hall : ∀ r ∈ (v.hiddenWalk name).findFrom (v.upBound c.supers) c.name c,
      ∀ x, r = .ok x → x.1.name = name := by
    refine Walk.forall_findFrom (I := fun _ => True) (fun _ _ _ _ _ _ => trivial)
      (fun here _ sup _ r hr x hx => ?_) trivial _ _
    subst hx
    simp only [hiddenWalk] at hr
    split at hr
    · simp at hr
    · rename_i d _
      split at hr
      · simp at hr
      · rename_i f hf
        split at hr
        · simp at hr
        · obtain rfl := Except.ok.inj (List.mem_singleton.1 hr)
          have hf : d.fields.find? (fun g => g.name = name) = some f := hf
          simpa using List.find?_some hf
        · simp at hr
  intro x hx
  exact hall (.ok x) (hwalk ▸ List.mem_map_of_mem hx) x rfl

namespace Scene

open Impact

variable {s : Scene} {c : ClassInfo} {P : Usage → Prop} {Q : Usage → Residency → Prop}

/-! ## Files and users -/

theorem only_file (f : Symbol) : (s.file f).Only P Q :=
  only_ofResult fun _ _ => only_of_eq_nil rfl rfl

theorem only_acceptedFile (f : Symbol) : (s.acceptedFile f).Only P Q := by
  apply only_ofResult
  intro text _
  split
  · exact only_of_eq_nil rfl rfl
  · exact only_none

theorem only_onFileOf {draw : Symbol → Impact} (hdraw : ∀ f, (draw f).Only P Q) (n : Symbol) :
    (s.onFileOf draw n).Only P Q := by
  unfold onFileOf
  split
  · exact hdraw _
  · exact only_none

theorem only_fileOfClass (n : Symbol) : (s.fileOfClass n).Only P Q := only_onFileOf only_file n

theorem only_acceptedFileOfClass (n : Symbol) : (s.acceptedFileOfClass n).Only P Q :=
  only_onFileOf only_acceptedFile n

theorem only_users (n : Symbol) : (s.users n).Only P Q := only_of_eq_nil rfl rfl

theorem only_uses {use : Symbol → Usage} (h : ∀ n, P (use n)) (owner : Symbol)
    (below : List Symbol) : (s.uses use owner below).Only P Q := by
  refine (only_ofUsages fun u hu => ?_).append (only_of_eq_nil rfl rfl)
  obtain ⟨n, -, rfl⟩ := List.mem_map.1 hu
  exact h n

theorem only_subclasses (h : ∀ n, P (.mention n)) (n : Symbol) (mentions : Bool) :
    (s.subclasses n mentions).Only P Q := by
  apply only_loop
  intro d _
  split
  · exact only_none
  · have hmention : (ofUsages [.mention d]).Only P Q :=
      only_ofUsages fun u hu => List.mem_singleton.1 hu ▸ h d
    exact ((only_onlyIf fun _ => hmention).append (only_users d)).append (only_file _)

theorem only_packageFiles (n : Symbol) : (s.packageFiles n).Only P Q := by
  apply only_ofResult
  intro package _
  apply only_loop
  intro e _
  apply only_ofResult
  intro p _
  split
  · exact only_acceptedFile _
  · exact only_none

theorem only_widen (owner : Symbol) (access : Access) (field : Option Symbol)
    (packageOf : Symbol) : (s.widen owner access field packageOf).Only P Q := by
  unfold widen
  split
  · exact only_of_eq_nil rfl rfl
  · exact (only_onlyIf fun _ => only_loop fun n _ => only_acceptedFileOfClass n).append
      (only_packageFiles packageOf)

theorem only_constant (f : FieldInfo) (removed accessChanged : Bool) :
    (s.constant c f removed accessChanged).Only P Q := by
  unfold constant
  split
  · exact only_ofResult fun _ _ => only_ofResult fun _ _ => only_of_eq_nil rfl rfl
  · exact only_widen _ _ _ _

theorem only_limited {usages : List Usage} {residency : Except Fault Residency}
    (h : ∀ r, residency = .ok r → ∀ u ∈ usages, Q u r) : (limited usages residency).Only P Q :=
  only_ofResult fun r hr => only_ofLimit (h r hr)

/-! ## Fields -/

theorem only_hidesAround (f : FieldInfo) (sub : Symbol) : (s.hidesAround f sub).Only P Q := by
  unfold hidesAround
  split
  · exact only_ofResult fun _ _ => only_onlyIf fun _ => only_file _
  · exact only_none

theorem only_addedField {f : FieldInfo} (hP : ∀ n t, P (.read f.name n t))
    (hQ : ∀ n t r, Q (.read f.name n t) r) : (s.addedField c f).Only P Q := by
  refine Only.append (only_onlyIf fun _ => only_loop fun sub _ => ?_)
    (only_ofResult fun found hfound => only_loop fun h hh => ?_)
  · exact ((only_hidesAround f sub).append (only_uses (fun n => hP n f.type) _ _)).append
      (only_users sub)
  · -- what is found above has the name of the added field
    have hname := View.name_of_mem_hidden hfound h (List.mem_filter.1 hh).1
    have hread : ∀ n, h.1.readFrom n = .read f.name n h.1.type := fun n => by
      rw [FieldInfo.readFrom, hname]
    refine (only_uses (fun n => hread n ▸ hP n h.1.type) _ _).append
      (only_ofResult fun limit _ => ?_)
    cases limit with
    | none => exact only_none
    | some r =>
      apply only_ofLimit
      intro u hu
      obtain ⟨n, -, rfl⟩ := List.mem_map.1 hu
      exact hread n ▸ hQ n h.1.type r

theorem only_reads {f : FieldInfo} (h : ∀ n, P (f.readFrom n)) : (s.reads c f).Only P Q :=
  only_uses h _ _

theorem only_removedField {f : FieldInfo} (h : ∀ n, P (f.readFrom n)) :
    (s.removedField c f).Only P Q :=
  (only_onlyIf fun _ => only_constant f true false).append (only_reads h)

theorem only_narrowedField {f : FieldInfo} {base : Revision}
    (hwrites : base.added.has .final = true →
      ∀ n, P (f.writeFrom n) ∧ ∀ r, s.narrowedTo c base = .ok r → Q (f.writeFrom n) r)
    (hreads : base.added.has .final = false → base.removed.has .pub = true →
      ∀ n, P (f.readFrom n) ∧ ∀ r, s.narrowedTo c base = .ok r → Q (f.readFrom n) r) :
    (s.narrowedField c f base).Only P Q := by
  unfold narrowedField
  dsimp only
  cases hfinal : base.added.has .final with
  | true =>
    have h := hwrites hfinal
    simp only [if_true]
    refine (only_onlyIf fun _ => only_uses (fun n => (h n).1) _ _).append
      (only_onlyIf fun _ => only_limited fun r hr u hu => ?_)
    obtain ⟨n, -, rfl⟩ := List.mem_map.1 hu
    exact (h n).2 r hr
  | false =>
    have h := hreads hfinal
    simp only [Bool.false_eq_true, if_false, Bool.false_or]
    refine (only_onlyIf fun hpub => only_uses (fun n => (h hpub n).1) _ _).append
      (only_onlyIf fun hpub => only_limited fun r hr u hu => ?_)
    obtain ⟨n, -, rfl⟩ := List.mem_map.1 hu
    exact (h hpub n).2 r hr

theorem only_changedField {change : Changed FieldInfo Revision}
    (hreads : change.diff.rebinds = true → ∀ n, P (change.past.readFrom n))
    (hnarrowed : change.diff.rebinds = false →
      (s.narrowedField c change.past change.diff).Only P Q) :
    (s.changedField c change).Only P Q := by
  rw [changedField_eq]
  refine (only_onlyIf fun _ => only_constant _ _ _).append ?_
  cases hrebinds : change.diff.rebinds with
  | true => exact only_reads (hreads hrebinds)
  | false => exact hnarrowed hrebinds

theorem only_fields {p : Patch FieldInfo Revision}
    (hadded : ∀ f ∈ p.added, ∀ n t, P (.read f.name n t) ∧ ∀ r, Q (.read f.name n t) r)
    (hremoved : ∀ f ∈ p.removed, ∀ n, P (f.readFrom n))
    (hchanged : ∀ e ∈ p.changed, (s.changedField c e).Only P Q) : (s.fields c p).Only P Q := by
  refine Only.append (Only.append (only_loop fun f hf => ?_) (only_loop fun f hf => ?_))
    (only_loop hchanged)
  · exact only_addedField (fun n t => (hadded f hf n t).1) fun n t => (hadded f hf n t).2
  · exact only_removedField (hremoved f hf)

/-! ## Methods -/

section

variable (hP : ∀ u, ¬ u.OfField → P u)

include hP

theorem only_calls (m : MethodInfo) (owner : Symbol) (below : List Symbol) :
    (s.uses m.callFrom owner below).Only P Q :=
  only_uses (fun _ => hP _ id) owner below

theorem only_below (n : Symbol) (mentions : Bool) : (s.subclasses n mentions).Only P Q :=
  only_subclasses (fun _ => hP _ id) n mentions

theorem only_addedBeside (m : MethodInfo) (d : Declaration) :
    (s.addedBeside c m d).Only P Q := by
  unfold addedBeside
  dsimp only
  split
  · exact only_fileOfClass _
  · refine Only.append (only_onlyIf fun _ => ?_) (only_calls hP _ _ _)
    exact (only_users _).append (only_calls hP _ _ _)

omit hP in
theorem only_addedInside (m : MethodInfo) (sub : Symbol) : (s.addedInside m sub).Only P Q := by
  unfold addedInside
  split
  · split
    · exact only_ofResult fun _ _ => only_onlyIf fun _ => only_file _
    · exact only_none
  · exact only_none

theorem only_addedOverload (m : MethodInfo) : (s.addedOverload c m).Only P Q := by
  unfold addedOverload
  split
  · exact only_ofResult fun _ _ => only_onlyIf fun _ => only_uses (fun _ => hP _ id) _ _
  · exact only_none

theorem only_addedMethod (m : MethodInfo) : (s.addedMethod c m).Only P Q := by
  refine Only.append (only_onlyIf fun _ => only_below hP _ _) (only_onlyIf fun _ => ?_)
  refine (only_addedOverload hP m).append (only_ofResult fun around _ => ?_)
  refine Only.append (Only.append ?_ ?_) ?_
  · exact only_loop fun _ _ => only_calls hP _ _ _
  · exact only_loop fun d _ => only_addedBeside hP m d
  · exact only_loop fun sub _ => only_addedInside m sub

omit hP in
theorem only_removedAbove (m : MethodInfo) (above : IdSet Origin) (sub : Symbol) :
    (s.removedAbove c m above sub).Only P Q := by
  unfold removedAbove
  split
  · exact only_none
  · split
    · exact only_none
    · exact only_ofResult fun _ _ => only_onlyIf fun _ => only_fileOfClass _

theorem only_removedMethod (m : MethodInfo) : (s.removedMethod c m).Only P Q := by
  apply only_ofResult
  intro above _
  refine Only.append (Only.append (only_onlyIf fun _ => only_calls hP _ _ _) ?_)
    (only_onlyIf fun _ => only_loop fun sub _ => only_removedAbove m above sub)
  exact only_ofResult fun _ _ => only_loop fun _ _ => only_fileOfClass _

theorem only_follower (d : Declaration) : (s.follower d).Only P Q :=
  ((only_fileOfClass _).append (only_users _)).append (only_calls hP _ _ _)

theorem only_revisedMethod {m : MethodInfo} {change : MethodChange}
    (hQ : change.confines = true → ∀ r, Residency.noInheritorOf s.names c.name = .ok r →
      ∀ u ∈ s.callsOf c m, Q u r) :
    (s.revisedMethod c m change).Only P Q := by
  have hcalls := only_calls (s := s) (Q := Q) hP m c.name
    (s.updated.inheriting (.method m.key) c.name)
  have hlimited (h : change.confines = true) := hcalls.append (only_limited (hQ h))
  have hbelow := only_below (s := s) (Q := Q) hP c.name false
  unfold revisedMethod
  dsimp only
  refine (only_onlyIf fun hlocal => hlimited ?_).append ?_
  · simp [MethodChange.confines, hlocal]
  · split
    · exact (only_onlyIf fun _ => hcalls).append
        (only_ofResult fun _ _ => only_loop fun d _ => only_follower hP d)
    · split
      · split
        · exact (only_onlyIf fun _ => hcalls).append (only_onlyIf fun _ => hbelow)
        · refine (only_onlyIf fun _ => hbelow).append (only_onlyIf fun hprotected => hlimited ?_)
          simp_all [MethodChange.confines]
      · exact only_none

theorem only_methods {p : Patch MethodInfo MethodChange}
    (hQ : c.isAnnotationType = false → ∀ e ∈ p.changed, e.diff.confines = true →
      ∀ r, Residency.noInheritorOf s.names c.name = .ok r → ∀ u ∈ s.callsOf c e.past, Q u r) :
    (s.methods c p).Only P Q := by
  refine Only.append (Only.append (only_onlyIf fun _ => ?_) ?_) (only_loop fun e he => ?_)
  · exact only_loop fun m _ => only_addedMethod hP m
  · exact only_loop fun m _ => only_removedMethod hP m
  · unfold changedMethod
    split
    · exact only_onlyIf fun _ => only_of_eq_nil rfl rfl
    · rename_i hplain
      split
      · exact only_none
      · exact only_revisedMethod hP (hQ (by simpa using hplain) e he)

/-! ## Classes -/

theorem only_mentions (c : ClassInfo) : (mentions c).Only P Q :=
  only_ofUsages fun _ hu => List.mem_singleton.1 hu ▸ hP (.mention c.name) id

theorem only_changedPlace (d : ClassChange) : (s.changedPlace c d).Only P Q :=
  only_onlyIf fun _ => only_below hP _ _

omit hP in
theorem only_sourceAnnotation (past now : ClassInfo) :
    (s.sourceAnnotation past now).Only P Q :=
  only_onlyIf fun _ => only_widen _ _ _ _

theorem only_changedModifiers {base : Revision} (hQ : ∀ r, Q c.mentioned r) :
    (s.changedModifiers c base).Only P Q := by
  have hmentions := only_mentions (Q := Q) hP c
  have hlimited (residency) : (limited [c.mentioned] residency).Only P Q :=
    only_limited fun r _ u hu => List.mem_singleton.1 hu ▸ hQ r
  have hinstances : (ofUsages [.instantiation c.name]).Only P Q :=
    only_ofUsages fun u hu => List.mem_singleton.1 hu ▸ hP (.instantiation c.name) id
  refine Only.append (Only.append (Only.append ?_ ?_) ?_) (only_onlyIf fun _ => hinstances)
  · exact only_onlyIf fun _ => (hlimited _).append hmentions
  · exact only_onlyIf fun _ => (hlimited _).append hmentions
  · exact only_onlyIf fun _ => hmentions

theorem only_changedAnnotation (d : ClassChange) : (s.changedAnnotation c d).Only P Q := by
  apply only_onlyIf
  intro _
  split
  · exact only_mentions hP c
  · refine Only.append (Only.append ?_ ?_) (only_onlyIf fun _ => only_mentions hP c)
    · exact only_onlyIf fun _ => only_widen _ _ _ _
    · exact only_onlyIf fun _ => only_of_eq_nil rfl rfl

theorem only_changedClass {change : Changed ClassInfo ClassChange}
    (hmodifiers : (s.changedModifiers change.past change.diff.base).Only P Q)
    (hmethods : (s.methods change.past change.diff.methods).Only P Q)
    (hfields : (s.fields change.past change.diff.fields).Only P Q) :
    (s.changedClass change).Only P Q := by
  apply only_all
  simp only [List.forall_mem_cons, List.not_mem_nil, false_imp_iff, forall_true_iff, and_true]
  exact ⟨only_users _, only_changedPlace hP _, only_onlyIf fun _ => only_mentions hP _,
    only_sourceAnnotation _ _, hmodifiers, only_changedAnnotation hP _, hmethods, hfields⟩

theorem only_removedClass (c : ClassInfo) : (s.removedClass c).Only P Q :=
  (only_users _).append (only_mentions hP c)

omit hP in
theorem only_addedClass (c : ClassInfo) : (s.addedClass c).Only P Q :=
  only_loop fun n _ => only_acceptedFileOfClass n

omit hP in
theorem only_bereaved (file user : Symbol) : (s.bereaved file user).Only P Q :=
  only_onFileOf (fun other => only_onlyIf fun _ => only_acceptedFile other) user

omit hP in
theorem only_removedFile (file : SourcePath) : (s.removedFile file).Only P Q := by
  unfold removedFile
  split
  · exact only_none
  · apply only_loop
    intro c _
    exact only_onFileOf (fun g => only_loop fun d _ => only_bereaved g d) c.name

/-- **The usages and limits of a round**: mentions, instantiations and calls apart, they are those
of its changed classes. -/
theorem only_impact {removed : List SourcePath} {events : List ClassEvent}
    (h : ∀ change, .changed change ∈ events → (s.changedClass change).Only P Q) :
    (s.impact removed events).Only P Q := by
  refine Only.append (only_loop fun f _ => only_removedFile f) (only_loop fun e he => ?_)
  cases e with
  | changed change => exact h change he
  | removed c => exact only_removedClass hP c
  | added c => exact only_addedClass c

end

/-! ## Mentions -/

/-- **Mentions of classes** are limited by the change of modifiers alone. -/
theorem limitOn?_changedClass {change : Changed ClassInfo ClassChange}
    (hstop : (s.changedClass change).stop = .none) (a : Symbol) :
    (s.changedClass change).limitOn? (.mention a) =
      (s.changedModifiers change.past change.diff.base).limitOn? (.mention a) := by
  have hnone {i : Impact} (h : i.Only (fun _ => True) fun u _ => u.OfMember) :=
    LimitsMembers.limitOn?_mention h.limits a
  have hP : ∀ u : Usage, ¬ u.OfField → True := fun _ _ => trivial
  have husers := hnone (only_users (s := s) change.past.name)
  have hplace := hnone (only_changedPlace (s := s) (c := change.past) hP change.diff)
  have hinterface : (onlyIf (change.diff.base.modifiers.has .interface)
      (mentions change.past)).limitOn? (.mention a) = .none :=
    hnone (only_onlyIf fun _ => only_mentions hP change.past)
  have hsource := hnone <| only_sourceAnnotation (s := s) change.past change.now
  have hannotation := hnone <| only_changedAnnotation (s := s) (c := change.past) hP change.diff
  have hmethods : (s.methods change.past change.diff.methods).limitOn? (.mention a) = .none := by
    refine hnone (only_methods hP fun _ e _ _ r _ u hu => ?_)
    obtain ⟨n, -, rfl⟩ := List.mem_map.1 hu
    trivial
  have hfields : (s.fields change.past change.diff.fields).limitOn? (.mention a) = .none := by
    refine hnone (only_fields (fun _ _ _ _ => ⟨trivial, fun _ => trivial⟩) (fun _ _ _ => trivial)
      fun e _ => only_changedField (fun _ _ => trivial) fun _ => ?_)
    exact only_narrowedField (fun _ _ => ⟨trivial, fun _ _ => trivial⟩)
      fun _ _ _ => ⟨trivial, fun _ _ => trivial⟩
  unfold changedClass at hstop ⊢
  rw [limitOn?_all (stop_all.1 hstop)]
  cases hlimit : (s.changedModifiers change.past change.diff.base).limitOn? (.mention a) <;>
    simp [husers, hplace, hinterface, hsource, hlimit, hannotation, hmethods, hfields]

end Scene

end ClassImpact

import ClassImpact.Proofs.Searches

/-!
# A class without its descriptor

The descriptor of a class can be missing while the edges to its supertypes, its subclasses and
its users are still there.  A view that lost a descriptor answers as before along every walk
that does not come by the class.  A search upwards that does come by it finds that there is
something it does not know.

## Main results

* `View.Loses.overridden_eq`, `View.Loses.hidden_eq`, `View.Loses.inheriting_eq`,
  `View.Loses.overriding_eq`: searches that do not come by the class
* `View.Loses.overridden_eq_or_unknown`: a search upwards that may come by it
* `View.inherits_eq_yes_iff`: inheritance is reachability
-/

namespace ClassImpact

open Identified (ident)

/-! ## Found origins -/

theorem exists_of_map_ok {α β : Type} {r : Except Fault α} {f : α → β} {b : β}
    (h : r.map f = .ok b) : ∃ a, r = .ok a ∧ f a = b := by
  cases r with
  | error fault => simp [Except.map] at h
  | ok a => exact ⟨a, rfl, Except.ok.inj h⟩

theorem IdSet.mem_of_mem_ofList {α κ : Type} [Identified α κ] [DecidableEq κ] {l : List α} {a : α}
    (h : a ∈ ofList l) : a ∈ l := by
  have hfind := find?_ofList l (ident a)
  rw [find?_eq_some.2 ⟨h, rfl⟩] at hfind
  exact List.mem_of_find?_eq_some hfind.symm

theorem values_of_mapM {α : Type} {l : List (Except Fault α)} {a : List α}
    (h : l.mapM id = .ok a) : l = a.map .ok := by
  induction l generalizing a with
  | nil =>
    obtain rfl := Except.ok.inj h
    rfl
  | cons x l ih =>
    rw [List.mapM_cons] at h
    cases x with
    | error fault => simp [Bind.bind, Except.bind] at h
    | ok x =>
      cases hl : l.mapM id with
      | error fault => simp [hl, Bind.bind, Except.bind] at h
      | ok rest =>
        rw [hl] at h
        obtain rfl := Except.ok.inj h
        rw [ih hl]
        rfl

/-- There is only one unknown origin. -/
theorem unknown_mem_ofList {l : List Origin} :
    Origin.unknown ∈ (IdSet.ofList l).toList ↔ Origin.unknown ∈ l := by
  have hident : ∀ o : Origin, ident o = none → o = .unknown := by
    intro o ho
    cases o with
    | resolved d => simp [ident, Origin.declaration?] at ho
    | unknown => rfl
  have hhas := IdSet.has_ofList l (none : Option (MethodKey × Symbol))
  rw [IdSet.has_iff_mem] at hhas
  constructor
  · intro h
    obtain ⟨o, ho, hnone⟩ := hhas.1 ⟨_, h, rfl⟩
    exact hident o hnone ▸ ho
  · intro h
    obtain ⟨o, ho, hnone⟩ := hhas.2 ⟨_, h, rfl⟩
    exact hident o hnone ▸ ho

/-! ## Above and below -/

namespace Graph

/-- `b` is `a` or below it, along recorded subclass edges. -/
def Below (g : Graph) (a b : Symbol) : Prop :=
  Relation.ReflTransGen (fun p q => q ∈ g.directSubclasses p) a b

theorem mem_allSubclasses_iff {g : Graph} {root x : Symbol} :
    x ∈ g.allSubclasses root ↔ g.Below root x := by
  unfold allSubclasses
  rw [List.mem_cons]
  by_cases hx : x = root
  · exact ⟨fun _ => hx ▸ .refl, fun _ => .inl hx⟩
  · rw [Walk.mem_findFrom_everywhere (fun _ _ hn => mem_listedSubclasses hn)
      g.card_listedSubclasses_lt hx]
    exact ⟨fun h => h.resolve_left hx, .inr⟩

instance (g : Graph) (a b : Symbol) : Decidable (g.Below a b) :=
  decidable_of_iff (b ∈ g.allSubclasses a) mem_allSubclasses_iff

end Graph

namespace View

variable {v v' : View} {u : Symbol}

/-- `b` is `a` or above it, along declared supertypes. -/
def Above (v : View) (a b : Symbol) : Prop :=
  Relation.ReflTransGen (fun p q => q ∈ v.supersOf p) a b

/-- A walk upwards from a class can come by `u`. -/
def Climbs (v : View) (c : ClassInfo) (u : Symbol) : Prop := ∃ p ∈ c.supers, v.Above p u

theorem supersOf_of_describe? {n : Symbol} {d : ClassInfo} (h : v.describe? n = some d) :
    v.supersOf n = d.supers := by
  rw [supersOf, h]
  rfl

theorem Climbs.above {n : Symbol} {d : ClassInfo} (h : v.describe? n = some d)
    (hd : v.Climbs d u) : v.Above n u := by
  obtain ⟨p, hp, habove⟩ := hd
  rw [← supersOf_of_describe? h] at hp
  exact .head hp habove

/-! ## Bounds of the walks upwards -/

/-- The supertypes that a walk upwards from some supertypes can meet. -/
def listedSupers (v : View) (supers : List Symbol) : Finset Symbol :=
  (supers ++
    (v.main.classesIn.entries.flatMap fun e => e.2.toList.flatMap ClassInfo.supers) ++
    (v.overlay.map fun g =>
      g.classesIn.entries.flatMap fun e => e.2.toList.flatMap ClassInfo.supers).getD []).toFinset

theorem card_listedSupers_lt (v : View) (supers : List Symbol) :
    (v.listedSupers supers).card < v.upBound supers := by
  refine Nat.lt_succ_of_le ((List.toFinset_card_le _).trans ?_)
  cases hover : v.overlay with
  | none => simp only [declaredSupers, Option.map_none, Option.getD_none, List.append_nil,
      List.length_append, Nat.add_zero, Nat.le_refl]
  | some g => simp only [declaredSupers, Option.map_some, Option.getD_some, List.length_append,
      Nat.le_refl]

theorem mem_listedSupers_of_start {supers : List Symbol} {n : Symbol} (h : n ∈ supers) :
    n ∈ v.listedSupers supers :=
  List.mem_toFinset.2 (List.mem_append_left _ (List.mem_append_left _ h))

theorem mem_listedSupers {supers : List Symbol} {p n : Symbol} {d : ClassInfo}
    (hd : v.describe? p = some d) (hn : n ∈ d.supers) : n ∈ v.listedSupers supers := by
  have hgraph : ∀ g : Graph, g.describe? p = some d →
      n ∈ g.classesIn.entries.flatMap fun e => e.2.toList.flatMap ClassInfo.supers := by
    intro g hg
    obtain ⟨f, -, hmem, -⟩ := Graph.describe?_eq_some.1 hg
    obtain ⟨s, hs, hmem⟩ := Table.exists_entry hmem
    exact List.mem_flatMap.2 ⟨_, hs, List.mem_flatMap.2 ⟨d, hmem, hn⟩⟩
  refine List.mem_toFinset.2 ?_
  unfold View.describe? at hd
  rcases Option.or_eq_some_iff.1 hd with hover | ⟨-, hmain⟩
  · obtain ⟨g, hg, hover⟩ := Option.bind_eq_some_iff.1 hover
    refine List.mem_append_right _ ?_
    rw [hg]
    exact hgraph g hover
  · exact List.mem_append_left _ (List.mem_append_right _ (hgraph _ hmain))

theorem mem_supersOf_listed (supers : List Symbol) {p n : Symbol} (h : n ∈ v.supersOf p) :
    n ∈ v.listedSupers supers := by
  cases hd : v.describe? p with
  | none => simp [supersOf, hd] at h
  | some d => exact mem_listedSupers hd (supersOf_of_describe? hd ▸ h)

/-! ## Inheritance is reachability -/

theorem mem_ancestors {a b : Symbol} (hne : b ≠ a) : b ∈ v.ancestors a ↔ v.Above a b :=
  Walk.mem_findFrom_everywhere (fun _ _ hn => mem_supersOf_listed (v.supersOf a) hn)
    (v.card_listedSupers_lt (v.supersOf a)) hne

/-- **A class inherits from another** when declared supertypes lead there. -/
theorem inherits_eq_yes_iff {a b : Symbol} : v.inherits a b = .yes ↔ v.Above a b := by
  unfold inherits
  by_cases hab : a = b
  · rw [if_pos hab]
    exact ⟨fun _ => hab ▸ .refl, fun _ => rfl⟩
  · rw [if_neg hab, ← mem_ancestors (Ne.symm hab), ← List.contains_iff_mem]
    cases (v.ancestors a).contains b <;> simp

instance (v : View) (a b : Symbol) : Decidable (v.Above a b) :=
  decidable_of_iff (v.inherits a b = .yes) inherits_eq_yes_iff

/-! ## Walks upwards -/

/-- A walk upwards: it goes on to the supertypes of classes that the view describes. -/
structure Climber {β : Type} (v : View) (w : Walk ClassInfo β) : Prop where
  neighbours : ∀ c, w.neighbours c = c.supers
  next : ∀ {p n q}, (w.look p n).next = some q → v.describe? n = some q

section

variable {β : Type} {w w' : Walk ClassInfo β} {c : ClassInfo}

theorem Climber.confined (hw : v.Climber w) (c : ClassInfo) :
    w.Confined (fun p => p = c ∨ ∃ n, v.describe? n = some p) (v.listedSupers c.supers) where
  next _ _ hq := .inr ⟨_, hw.next hq⟩
  mem := by
    intro p n hp hn
    rw [hw.neighbours] at hn
    rcases hp with rfl | ⟨m, hm⟩
    · exact mem_listedSupers_of_start hn
    · exact mem_listedSupers hm hn

theorem Climber.findFrom_eq (hw : v.Climber w) (c : ClassInfo) (more : Nat) :
    w.findFrom (v.upBound c.supers + more) c.name c = w.findFrom (v.upBound c.supers) c.name c :=
  Walk.findFrom_eq (hw.confined c) (.inl rfl) (v.card_listedSupers_lt c.supers) more c.name

theorem climber_overriddenWalk (v : View) (m : MethodInfo) (how : MethodMatch) :
    v.Climber (v.overriddenWalk m how) where
  neighbours _ := rfl
  next := by
    intro p n q hq
    simp only [overriddenWalk] at hq
    split at hq
    · simp at hq
    · rename_i d hd
      rw [next_arrivalAt hq]
      exact hd

theorem overridden_eq_ok_iff {m : MethodInfo} {how : MethodMatch} {above : IdSet Origin} :
    v.overridden m c how = .ok above ↔ ∃ origins : List Origin,
      (v.overriddenWalk m how).findFrom (v.upBound c.supers) c.name c = origins.map .ok ∧
        above = .ofList origins := by
  unfold View.overridden
  constructor
  · intro h
    obtain ⟨origins, hl, habove⟩ := exists_of_map_ok h
    exact ⟨origins, values_of_mapM hl, habove.symm⟩
  · intro ⟨origins, hl, habove⟩
    rw [hl, mapM_map_ok, habove]
    rfl

theorem climber_hiddenWalk (v : View) (name : Symbol) : v.Climber (v.hiddenWalk name) where
  neighbours _ := rfl
  next := by
    intro p n q hq
    simp only [hiddenWalk] at hq
    split at hq
    · simp at hq
    · rename_i d hd
      split at hq
      · exact Option.some.inj hq ▸ hd
      · split at hq
        · simp at hq
        · simp at hq
        · exact Option.some.inj hq ▸ hd

/-! ## A lost descriptor -/

/-- The same view without the descriptor of `u`. -/
structure Loses (u : Symbol) (v v' : View) : Prop where
  describe : ∀ n, n ≠ u → v'.describe? n = v.describe? n
  unknown : v'.describe? u = none
  subclasses : v'.main.subclasses = v.main.subclasses
  names : v'.names = v.names

theorem Loses.directSubclasses (h : v.Loses u v') :
    v'.main.directSubclasses = v.main.directSubclasses := by
  funext n
  rw [Graph.directSubclasses, h.subclasses]
  rfl

theorem Loses.downBound (h : v.Loses u v') : View.downBound v'.main = View.downBound v.main := by
  rw [View.downBound, h.subclasses]
  rfl

theorem Loses.supersOf (h : v.Loses u v') {n : Symbol} (hn : n ≠ u) :
    v'.supersOf n = v.supersOf n := by
  rw [View.supersOf, h.describe n hn]
  rfl

theorem Loses.above (h : v.Loses u v') {a b : Symbol} (hab : v'.Above a b) : v.Above a b := by
  induction hab with
  | refl => exact .refl
  | @tail p q _ hq ih =>
    have hp : p ≠ u := by
      intro hp
      rw [View.supersOf, hp, h.unknown] at hq
      simp at hq
    exact ih.tail (h.supersOf hp ▸ hq)

theorem Loses.above_iff (h : v.Loses u v') {b : Symbol} (hu : ¬ v.Above u b) (a : Symbol) :
    v'.Above a b ↔ v.Above a b := by
  refine ⟨h.above, fun hab => ?_⟩
  induction hab using Relation.ReflTransGen.head_induction_on with
  | refl => exact .refl
  | @head p q hq hqb ih =>
    have hp : p ≠ u := fun hp => hu (hp ▸ .head hq hqb)
    exact .head (h.supersOf hp ▸ hq) ih

theorem Loses.inherits_eq_yes (h : v.Loses u v') {a b : Symbol}
    (hyes : v'.inherits a b = .yes) : v.inherits a b = .yes :=
  inherits_eq_yes_iff.2 (h.above (inherits_eq_yes_iff.1 hyes))

/-- Inheritance from a class that is not above `u`. -/
theorem Loses.inherits_eq_yes_iff (h : v.Loses u v') {b : Symbol} (hu : ¬ v.Above u b)
    (a : Symbol) : v'.inherits a b = .yes ↔ v.inherits a b = .yes := by
  rw [View.inherits_eq_yes_iff, View.inherits_eq_yes_iff, h.above_iff hu]

/-! ### Matching and visibility -/

theorem Loses.isSubtype_eq_no (h : v.Loses u v') (a b : TypeRef) :
    v'.isSubtype a b = .no ↔ v.isSubtype a b = .no := by
  induction a generalizing b with
  | primitive p => cases b <;> simp only [View.isSubtype]
  | array element ih =>
    cases b with
    | array element' =>
      by_cases heq : TypeRef.array element = .array element'
      · simp only [View.isSubtype, heq, if_true]
      · simp only [View.isSubtype, if_neg heq, ih]
    | primitive p => simp only [View.isSubtype]
    | named name => simp only [View.isSubtype, h.names]
  | named name =>
    cases b with
    | named name' =>
      by_cases heq : TypeRef.named name = .named name'
      · simp only [View.isSubtype, heq, if_true]
      · simp only [View.isSubtype, if_neg heq, inherits_ne_no]
    | _ => simp only [View.isSubtype]

theorem Loses.matching (h : v.Loses u v') : v'.matching = v.matching := by
  have hless : ∀ than, v'.isLessSpecific than = v.isLessSpecific than := by
    intro than
    funext candidate
    unfold View.isLessSpecific
    rw [h.names]
    refine congrArg _ ?_
    simp only [ne_eq, h.isSubtype_eq_no]
  funext c how than
  unfold View.matching
  rw [hless]

theorem Loses.isVisibleIn (h : v.Loses u v') : v'.isVisibleIn = v.isVisibleIn := by
  funext owner access scope
  unfold View.isVisibleIn
  rw [h.names]

/-! ### Searches upwards -/

/-- Walks upwards that take the same looks, but at a class that they do not come by. -/
theorem Climber.findFrom_agree (hw : v.Climber w) (hw' : v'.Climber w')
    (hlook : ∀ p n, n ≠ u → w'.look p n = w.look p n) (hc : ¬ v.Climbs c u) :
    w'.findFrom (v'.upBound c.supers) c.name c = w.findFrom (v.upBound c.supers) c.name c := by
  have hne : ∀ p : ClassInfo, ¬ v.Climbs p u → ∀ n ∈ w.neighbours p, n ≠ u := by
    intro p hp n hn hnu
    rw [hw.neighbours] at hn
    exact hp ⟨n, hn, hnu ▸ .refl⟩
  have hfound : ∀ bound, w.findFrom bound c.name c = w'.findFrom bound c.name c := by
    intro bound
    refine Walk.findFrom_congr (I := fun p => ¬ v.Climbs p u)
      (fun p _ => (hw.neighbours p).trans (hw'.neighbours p).symm)
      (fun p hp n hn => (hlook p n (hne p hp n hn)).symm) (fun p hp n hn q hq hclimbs => ?_) hc
      bound c.name
    rw [hw.neighbours] at hn
    exact hp ⟨n, hn, hclimbs.above (hw.next hq)⟩
  -- with both bounds together, neither of them ends a walk before its time
  rw [← hw.findFrom_eq c (v'.upBound c.supers), ← hw'.findFrom_eq c (v.upBound c.supers),
    Nat.add_comm]
  exact (hfound _).symm

theorem Loses.look_overriddenWalk (h : v.Loses u v') (m : MethodInfo) (how : MethodMatch)
    (p : ClassInfo) {n : Symbol} (hn : n ≠ u) :
    (v'.overriddenWalk m how).look p n = (v.overriddenWalk m how).look p n := by
  simp only [overriddenWalk, h.describe n hn, h.matching, h.isVisibleIn]

/-- The methods that a method overrides, where `u` is not above it. -/
theorem Loses.overridden_eq (h : v.Loses u v') (hc : ¬ v.Climbs c u) (m : MethodInfo)
    (how : MethodMatch) : v'.overridden m c how = v.overridden m c how := by
  unfold View.overridden
  rw [(climber_overriddenWalk v m how).findFrom_agree (climber_overriddenWalk v' m how)
    (fun p _ => h.look_overriddenWalk m how p) hc]

/-- The fields that a field hides, where `u` is not above it. -/
theorem Loses.hidden_eq (h : v.Loses u v') (hc : ¬ v.Climbs c u) (name : Symbol) :
    v'.hidden name c = v.hidden name c := by
  unfold View.hidden
  rw [(climber_hiddenWalk v name).findFrom_agree (climber_hiddenWalk v' name)
    (fun p n hn => by simp only [hiddenWalk, h.describe n hn, h.isVisibleIn]) hc]

/-- **The methods that a method overrides**: the search finds the same without the descriptor
of `u`, or finds that there is something it does not know. -/
theorem Loses.overridden_eq_or_unknown (h : v.Loses u v') (m : MethodInfo) (how : MethodMatch)
    {above' : IdSet Origin} (habove' : v'.overridden m c how = .ok above') :
    v.overridden m c how = .ok above' ∨ .unknown ∈ above'.toList := by
  have hw := climber_overriddenWalk v m how
  have hw' := climber_overriddenWalk v' m how
  have hunknown : ∀ p, (.ok .unknown : Except Fault Origin) ∈
      ((v'.overriddenWalk m how).look p u).found := by
    intro p
    simp [overriddenWalk, h.unknown]
  have hlook : ∀ p n, (v.overriddenWalk m how).look p n = (v'.overriddenWalk m how).look p n ∨
      (.ok .unknown : Except Fault Origin) ∈ ((v'.overriddenWalk m how).look p n).found := by
    intro p n
    by_cases hn : n = u
    · exact .inr (hn ▸ hunknown p)
    · exact .inl (h.look_overriddenWalk m how p hn).symm
  have hneighbours : ∀ p, (v.overriddenWalk m how).neighbours p =
      (v'.overriddenWalk m how).neighbours p := fun _ => rfl
  have hrun := Walk.run_eq_or_found hneighbours hlook
    (v.upBound c.supers + v'.upBound c.supers) ⟨[c.name], [c], []⟩
  obtain ⟨origins, hfound', rfl⟩ := overridden_eq_ok_iff.1 habove'
  rw [← hw'.findFrom_eq c (v.upBound c.supers), Nat.add_comm] at hfound'
  rcases hrun with heq | hfound
  · left
    refine overridden_eq_ok_iff.2 ⟨origins, ?_, rfl⟩
    rw [← hw.findFrom_eq c (v'.upBound c.supers), ← hfound']
    exact congrArg Walk.State.found heq
  · right
    have hmem : (.ok .unknown : Except Fault Origin) ∈ origins.map .ok := hfound' ▸ hfound
    obtain ⟨o, ho, hunknown⟩ := List.mem_map.1 hmem
    obtain rfl := Except.ok.inj hunknown
    exact unknown_mem_ofList.2 ho

/-! ### Equal methods above -/

/-- A place of a walk upwards from `c`: the class itself, or one that the view describes. -/
def Stands (v : View) (c p : ClassInfo) : Prop := p = c ∨ ∃ n, v.describe? n = some p

/-- Every way up from `c` sees the same of a package-local method of a key: the classes that
have its class as a supertype are all in the package of that class, or none of them is. -/
def LevelAbove (v : View) (c : ClassInfo) (key : MethodKey) : Prop :=
  ∀ p p' n d, v.Stands c p → v.Stands c p' → n ∈ p.supers → n ∈ p'.supers →
    v.describe? n = some d → (∃ x ∈ d.methods, x.key = key ∧ x.access.isPackageLocal = true) →
    (v.names.packageOf p.name = v.names.packageOf n ↔
      v.names.packageOf p'.name = v.names.packageOf n)

variable {m : MethodInfo} {p p' : ClassInfo} {n : Symbol}

theorem Stands.knows (hp : v.Stands c p) (hn : v.Named) (hc : v.names.Knows c.name) :
    v.names.Knows p.name := by
  rcases hp with rfl | ⟨n, hd⟩
  · exact hc
  · exact hn n p hd

/-- Where every way sees the same, the look at a class does not depend on the way. -/
theorem LevelAbove.look_eq (hl : v.LevelAbove c m.key) (hn : v.Named) (hc : v.names.Knows c.name)
    (hp : v.Stands c p) (hp' : v.Stands c p') (hmem : n ∈ p.supers) (hmem' : n ∈ p'.supers)
    (hne : n ≠ p.name) (hne' : n ≠ p'.name) :
    (v.overriddenWalk m .sameKey).look p n = (v.overriddenWalk m .sameKey).look p' n := by
  simp only [overriddenWalk]
  cases hd : v.describe? n with
  | none => rfl
  | some d =>
    obtain rfl := name_of_describe? hd
    refine arrivalAt_congr fun x hx => ?_
    obtain ⟨hx, hkey⟩ := List.mem_filter.1 hx
    have hd' := hn d.name d hd
    refine isVisibleIn_congr hd' (hp.knows hn hc) hd' (hp'.knows hn hc) (iff_of_false hne hne')
      fun hlocal => ?_
    have hlevel := hl p p' d.name d hp hp' hmem hmem' hd
      ⟨x, hx, of_decide_eq_true hkey, hlocal⟩
    exact eq_comm.trans (hlevel.trans eq_comm)

theorem labelled_overriddenWalk (m : MethodInfo) (how : MethodMatch) :
    (v.overriddenWalk m how).Labelled ClassInfo.name := fun _ _ _ hq =>
  name_of_describe? ((climber_overriddenWalk v m how).next hq)

theorem stands_of_place {how : MethodMatch}
    (hp : (v.overriddenWalk m how).Place ClassInfo.name c p) : v.Stands c p := by
  cases hp with
  | start => exact .inl rfl
  | step _ _ _ _ hq => exact .inr ⟨_, (climber_overriddenWalk v m how).next hq⟩

theorem overridden_ok (hn : v.Named) (hc : v.names.Knows c.name) (m : MethodInfo)
    (how : MethodMatch) : ∃ above, v.overridden m c how = .ok above := by
  obtain ⟨above, -, habove, -, -⟩ := overridden_relisted (.refl v) hn ⟨.refl c, hc⟩ m how
  exact ⟨above, habove⟩

/-- Whether a found origin is the declaration of an identity. -/
def isOrigin (k : MethodKey × Symbol) : Except Fault Origin → Bool
  | .ok o => ident o = some k
  | .error _ => false

/-- A declaration is found at the class that it belongs to. -/
theorem symbol_of_isOrigin {how : MethodMatch} {k : MethodKey × Symbol} {r : Except Fault Origin}
    (h : r ∈ ((v.overriddenWalk m how).look p n).found) (hk : isOrigin k r = true) : n = k.2 := by
  cases r with
  | error _ => simp [isOrigin] at hk
  | ok o =>
    have hk : ident o = some k := of_decide_eq_true hk
    simp only [overriddenWalk] at h
    split at h
    · obtain rfl := Except.ok.inj (List.mem_singleton.1 h)
      simp [ident, Origin.declaration?] at hk
    · rename_i d hd
      unfold arrivalAt at h
      split at h
      · simp at h
      · simp at h
      · obtain ⟨x, -, hx⟩ := List.mem_map.1 h
        obtain rfl := Except.ok.inj hx
        rw [← name_of_describe? hd]
        exact congrArg Prod.snd (Option.some.inj hk)

/-- The found declaration of an identity is the one that the look at its class finds. -/
theorem find?_overridden (hl : v.LevelAbove c m.key) (hn : v.Named) (hc : v.names.Knows c.name)
    {d : ClassInfo} (hd : v.Stands c d) {above : IdSet Origin}
    (habove : v.overridden m d .sameKey = .ok above) {k : MethodKey × Symbol} {o : Origin} :
    above.find? (some k) = some o ↔
      ∃ p, (v.overriddenWalk m .sameKey).Arrives ClassInfo.name d p k.2 ∧
        ((v.overriddenWalk m .sameKey).look p k.2).found.find? (isOrigin k) = some (.ok o) := by
  obtain ⟨origins, hfound, rfl⟩ := overridden_eq_ok_iff.1 habove
  have hstands : ∀ p, (v.overriddenWalk m .sameKey).Place ClassInfo.name d p → v.Stands c p := by
    intro p hp
    rcases stands_of_place hp with rfl | hp
    · exact hd
    · exact .inr hp
  have hw := climber_overriddenWalk v m .sameKey
  have hsteady : (v.overriddenWalk m .sameKey).Steady ClassInfo.name d :=
    fun p p' n hp hp' => hl.look_eq hn hc (hstands p hp.place) (hstands p' hp'.place) hp.mem
      hp'.mem hp.ne_self hp'.ne_self
  have hfind := Walk.find?_findFrom (labelled_overriddenWalk m .sameKey) hsteady (hw.confined d)
    (.inl rfl) (v.card_listedSupers_lt d.supers)
    (fun _ _ _ _ hx hk => symbol_of_isOrigin (k := k) hx hk) (x := .ok o)
  rw [← hfind, hfound, IdSet.find?_ofList, List.find?_map, Option.map_eq_some_iff]
  have hkind : (isOrigin k ∘ Except.ok) = fun o : Origin => decide (ident o = some k) := rfl
  rw [hkind]
  simp

/-- Two searches find the same declaration of an identity. -/
theorem LevelAbove.find?_unique (hl : v.LevelAbove c m.key) (hn : v.Named)
    (hc : v.names.Knows c.name) {d d' : ClassInfo} (hd : v.Stands c d) (hd' : v.Stands c d')
    {above above' : IdSet Origin} (habove : v.overridden m d .sameKey = .ok above)
    (habove' : v.overridden m d' .sameKey = .ok above') {k : MethodKey × Symbol} {o o' : Origin}
    (ho : above.find? (some k) = some o) (ho' : above'.find? (some k) = some o') : o = o' := by
  obtain ⟨p, hp, hlook⟩ := (find?_overridden hl hn hc hd habove).1 ho
  obtain ⟨p', hp', hlook'⟩ := (find?_overridden hl hn hc hd' habove').1 ho'
  have hstands : ∀ {d p}, v.Stands c d →
      (v.overriddenWalk m .sameKey).Place ClassInfo.name d p → v.Stands c p := by
    intro d p hd hp
    rcases stands_of_place hp with rfl | hp
    · exact hd
    · exact .inr hp
  rw [hl.look_eq hn hc (hstands hd hp.place) (hstands hd' hp'.place) hp.mem hp'.mem hp.ne_self
    hp'.ne_self, hlook'] at hlook
  exact (Except.ok.inj (Option.some.inj hlook)).symm

theorem Loses.describe_of (h : v.Loses u v') {d : ClassInfo} (hd : v'.describe? n = some d) :
    n ≠ u ∧ v.describe? n = some d := by
  have hn : n ≠ u := by
    rintro rfl
    rw [h.unknown] at hd
    simp at hd
  exact ⟨hn, h.describe n hn ▸ hd⟩

theorem Loses.stands (h : v.Loses u v') (hp : v'.Stands c p) : v.Stands c p :=
  hp.imp id fun ⟨n, hd⟩ => ⟨n, (h.describe_of hd).2⟩

theorem Loses.levelAbove (h : v.Loses u v') {key : MethodKey} (hl : v.LevelAbove c key) :
    v'.LevelAbove c key := by
  intro p p' n d hp hp' hn hn' hd
  rw [h.names]
  exact hl p p' n d (h.stands hp) (h.stands hp') hn hn' (h.describe_of hd).2

theorem Loses.named (h : v.Loses u v') (hn : v.Named) : v'.Named := by
  intro n d hd
  rw [h.names]
  exact hn n d (h.describe_of hd).2

/-- What is found above without the descriptor of `u` was found before. -/
theorem Loses.find?_overridden (h : v.Loses u v') (hl : v.LevelAbove c m.key) (hn : v.Named)
    (hc : v.names.Knows c.name) {d : ClassInfo} (hd : v.Stands c d) (hd' : v'.Stands c d)
    {above above' : IdSet Origin} (habove : v.overridden m d .sameKey = .ok above)
    (habove' : v'.overridden m d .sameKey = .ok above') {k : MethodKey × Symbol} {o : Origin}
    (ho : above'.find? (some k) = some o) : above.find? (some k) = some o := by
  have hc' : v'.names.Knows c.name := h.names ▸ hc
  obtain ⟨p, hp, hlook⟩ :=
    (View.find?_overridden (h.levelAbove hl) (h.named hn) hc' hd' habove').1 ho
  have hplace : ∀ p, (v'.overriddenWalk m .sameKey).Place ClassInfo.name d p →
      (v.overriddenWalk m .sameKey).Place ClassInfo.name d p := by
    intro p hp
    induction hp with
    | start => exact .start
    | @step p q n _ hmem hstart hself hq ih =>
      have hne := (h.describe_of ((climber_overriddenWalk v' m .sameKey).next hq)).1
      rw [h.look_overriddenWalk m .sameKey p hne] at hq
      exact .step ih hmem hstart hself hq
  have hne : k.2 ≠ u := by
    intro hku
    rw [hku] at hlook
    simp [overriddenWalk, h.unknown, isOrigin, ident, Origin.declaration?] at hlook
  rw [h.look_overriddenWalk m .sameKey p hne] at hlook
  exact (View.find?_overridden hl hn hc hd habove).2
    ⟨p, ⟨hplace p hp.place, hp.mem, hp.ne_start, hp.ne_self⟩, hlook⟩

/-! ### Searches downwards -/

theorem below_of_mem_inheriting {member : MemberKey} {x : Symbol}
    (hx : x ∈ v.inheriting member n) : v.main.Below n x := by
  unfold inheriting at hx
  split at hx
  · refine Walk.forall_findFrom (I := v.main.Below n) (P := v.main.Below n)
      (fun p hp q hq r hr => ?_) (fun p hp q hq r hr => ?_) .refl _ _ x hx
    · simp only [inheritingWalk] at hr hq
      split at hr
      · simp at hr
      · split at hr
        · simp at hr
        · exact Option.some.inj hr ▸ hp.tail hq
    · simp only [inheritingWalk] at hr hq
      split at hr
      · simp at hr
      · split at hr
        · simp at hr
        · exact List.mem_singleton.1 hr ▸ hp.tail hq
  · simp at hx

theorem Loses.inheriting_eq (h : v.Loses u v') (hu : ¬ v.main.Below n u) (member : MemberKey) :
    v'.inheriting member n = v.inheriting member n := by
  have hne : ∀ {p q}, ¬ v.main.Below p u → q ∈ v.main.directSubclasses p → ¬ v.main.Below q u :=
    fun hp hq hbelow => hp (.head hq hbelow)
  have hfound : ∀ bound, (v.inheritingWalk member).findFrom bound n n =
      (v'.inheritingWalk member).findFrom bound n n := by
    intro bound
    refine Walk.findFrom_congr (I := fun p => ¬ v.main.Below p u) (fun p _ => ?_)
      (fun p hp q hq => ?_) (fun p hp q hq r hr => ?_) hu bound n
    · simp only [inheritingWalk, h.directSubclasses]
    · have hqu : q ≠ u := fun hqu => hne hp hq (hqu ▸ .refl)
      simp only [inheritingWalk, h.describe q hqu]
    · simp only [inheritingWalk] at hr hq
      split at hr
      · simp at hr
      · split at hr
        · simp at hr
        · exact Option.some.inj hr ▸ hne hp hq
  have hnu : n ≠ u := fun hnu => hu (hnu ▸ .refl)
  unfold View.inheriting
  rw [h.describe n hnu, h.downBound, hfound]

theorem Loses.overriding_eq (h : v.Loses u v') (hu : ¬ v.main.Below c.name u) (m : MethodInfo)
    (how : MethodMatch) : v'.overriding m c how = v.overriding m c how := by
  have hne : ∀ {p : ClassInfo} {q}, ¬ v.main.Below p.name u →
      q ∈ v.main.directSubclasses p.name → ¬ v.main.Below q u :=
    fun hp hq hbelow => hp (.head hq hbelow)
  have hfound : ∀ bound, (v.overridingWalk m how).findFrom bound c.name c =
      (v'.overridingWalk m how).findFrom bound c.name c := by
    intro bound
    refine Walk.findFrom_congr (I := fun p => ¬ v.main.Below p.name u) (fun p _ => ?_)
      (fun p hp q hq => ?_) (fun p hp q hq r hr => ?_) hu bound c.name
    · simp only [overridingWalk, h.directSubclasses]
    · have hqu : q ≠ u := fun hqu => hne hp hq (hqu ▸ .refl)
      simp only [overridingWalk, h.describe q hqu, h.matching, h.isVisibleIn]
    · exact labelled_overridingWalk m how p q r hr ▸ hne hp hq
  unfold View.overriding
  rw [h.downBound, hfound]

theorem below_of_mem_overriding {how : MethodMatch} {below : IdSet Declaration}
    (hbelow : v.overriding m c how = .ok below) {d : Declaration} (hd : d ∈ below.toList) :
    v.main.Below c.name d.owner.name := by
  unfold View.overriding at hbelow
  obtain ⟨found, hl, rfl⟩ := exists_of_map_ok hbelow
  have hmem : (.ok d : Except Fault Declaration) ∈
      (v.overridingWalk m how).findFrom (downBound v.main) c.name c := by
    rw [values_of_mapM hl]
    exact List.mem_map.2 ⟨d, IdSet.mem_of_mem_ofList hd, rfl⟩
  have hstart : v.main.Below c.name c.name := .refl
  refine Walk.forall_findFrom (I := fun p => v.main.Below c.name p.name)
    (P := fun r => ∀ d, r = .ok d → v.main.Below c.name d.owner.name)
    (fun p hp q hq r hr => ?_) (fun p hp q hq r hr d hd => ?_) hstart _ _ _ hmem d rfl
  · rw [labelled_overridingWalk m how p q r hr]
    exact hp.tail hq
  · rw [owner_of_overridingWalk (hd ▸ hr)]
    exact hp.tail hq

/-! ### Members that a class sees -/

/-- What a class sees of a method, it still sees or may see. -/
theorem Loses.seesMethod (h : v.Loses u v') (hn : v.Named) (hu : n ≠ u) {m : MethodInfo}
    (hsees : v.seesMethod n m = .ok true) : v'.seesMethod n m = .ok true := by
  unfold View.seesMethod at hsees ⊢
  rw [h.describe n hu]
  cases hd : v.describe? n with
  | none =>
    rw [hd] at hsees
    exact absurd (Except.ok.inj hsees) Bool.false_ne_true
  | some d =>
    rw [hd] at hsees
    dsimp only at hsees ⊢
    by_cases hdeclares : d.declaresMethod m.key = true
    · rw [if_pos hdeclares]
      rfl
    · rw [if_neg hdeclares] at hsees ⊢
      obtain ⟨above, habove, hsome⟩ := exists_of_map_ok hsees
      have hd' : v'.describe? n = some d := (h.describe n hu).trans hd
      obtain ⟨above', habove'⟩ := overridden_ok (h.named hn) (h.named hn n d hd') m .sameKey
      rw [habove']
      rcases h.overridden_eq_or_unknown m .sameKey habove' with heq | hunknown
      · obtain rfl := Except.ok.inj (habove.symm.trans heq)
        exact congrArg Except.ok hsome
      · have hne : above'.toList ≠ [] := List.ne_nil_of_mem hunknown
        exact congrArg Except.ok (by simpa [IdSet.isEmpty] using hne)

/-- What a class sees of a field, it still sees or may see, where `u` is not above it. -/
theorem Loses.seesField (h : v.Loses u v')
    (hu : ∀ d, v.describe? n = some d → ¬ v.Climbs d u) {field : Symbol}
    (hsees : v.seesField n field = .ok true) : v'.seesField n field = .ok true := by
  unfold View.seesField at hsees ⊢
  by_cases hnu : n = u
  · rw [hnu, h.unknown]
    rfl
  · rw [h.describe n hnu]
    cases hd : v.describe? n with
    | none => rfl
    | some d =>
      rw [hd] at hsees
      dsimp only at hsees ⊢
      rw [h.hidden_eq (hu d hd)]
      exact hsees

/-! ### Less specific methods -/

theorem Loses.lessSpecificAround_eq (h : v.Loses u v') (hc : ¬ v.Climbs c u)
    (hu : ¬ v.main.Below c.name u) (m : MethodInfo) :
    v'.lessSpecificAround m c = v.lessSpecificAround m c := by
  unfold View.lessSpecificAround
  rw [h.overridden_eq hc, h.overriding_eq hu]

/-- A constructor is never less specific than another one. -/
theorem matching_constructor (hm : v.names.lookup constructorName = some m.name) (d : ClassInfo) :
    v.matching d .lessSpecific m = [] := by
  unfold matching
  refine List.filter_eq_nil_iff.2 fun x _ => ?_
  simp only [isLessSpecific, Bool.and_eq_true, decide_eq_true_eq, not_and]
  intro hother
  exact absurd (hm.trans (congrArg some hother.1.2.symm)) hother.1.1

theorem lessSpecificAround_constructor (hm : v.names.lookup constructorName = some m.name)
    (c : ClassInfo) : v.lessSpecificAround m c = .ok [] := by
  have habove : ∀ x ∈ (v.overriddenWalk m .lessSpecific).findFrom (v.upBound c.supers) c.name c,
      x = .ok .unknown := by
    refine Walk.forall_findFrom (I := fun _ => True) (fun _ _ _ _ _ _ => trivial)
      (fun p _ n _ x hx => ?_) trivial _ _
    simp only [overriddenWalk, matching_constructor hm] at hx
    split at hx
    · exact List.mem_singleton.1 hx
    · simp [arrivalAt, pure, Except.pure] at hx
  have hbelow : (v.overridingWalk m .lessSpecific).findFrom (downBound v.main) c.name c = [] := by
    refine List.eq_nil_iff_forall_not_mem.2 ?_
    refine Walk.forall_findFrom (I := fun _ => True) (fun _ _ _ _ _ _ => trivial)
      (fun p _ n _ x hx => ?_) trivial _ _
    simp only [overridingWalk, matching_constructor hm] at hx
    split at hx
    · simp at hx
    · simp [arrivalAt, pure, Except.pure] at hx
  obtain ⟨origins, hfound⟩ := exists_values fun x hx => ⟨_, habove x hx⟩
  have hunknown : (IdSet.ofList origins).toList.filterMap Origin.declaration? = [] := by
    refine List.filterMap_eq_nil_iff.2 fun o ho => ?_
    have hmem : (.ok o : Except Fault Origin) ∈ origins.map .ok :=
      List.mem_map.2 ⟨o, IdSet.mem_of_mem_ofList ho, rfl⟩
    obtain rfl := Except.ok.inj (habove (.ok o) (hfound ▸ hmem))
    rfl
  unfold lessSpecificAround View.overriding
  rw [overridden_eq_ok_iff.2 ⟨origins, hfound, rfl⟩, hbelow]
  show Except.ok (IdSet.ofList ((IdSet.ofList origins).toList.filterMap _ ++ [])).toList = _
  rw [hunknown]
  rfl

end

end View

end ClassImpact

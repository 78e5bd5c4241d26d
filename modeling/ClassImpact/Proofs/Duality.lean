import ClassImpact.Proofs.Overrides

/-!
# Overriding and overridden methods

One search goes down from a method to those that override it, the other goes up from a method to
those that it overrides.  Each follows a table of its own and stops on a way at the first
declaration of the key.  Where the tables say the same, and no declaration of the key is private
or local to a package, both searches come upon the same pairs: the one leads through the classes
between in one direction, and the other in the opposite one.

## Main results

* `Walk.Chain.turned`: a way with its ends closed, walked from the other end
* `View.overridden_exact`: what the search upwards finds
* `View.contains_overriding_eq`: both searches find one another's starts
-/

namespace ClassImpact

open Identified (ident)

/-! ## Ways walked from the other end -/

namespace Walk

variable {edge : Symbol → Symbol → Prop} {pass : Symbol → Prop} {a b p : Symbol}

/-- A way whose inner symbols let pass leads back through the same symbols. -/
theorem Chain.turned (hp : Chain edge pass a p) (hb : edge p b) :
    ∃ q, Chain (flip edge) pass b q ∧ flip edge q a := by
  induction hp using Relation.ReflTransGen.head_induction_on with
  | refl => exact ⟨b, .refl, hb⟩
  | @head a n hn _ ih =>
    obtain ⟨q, hq, hnq⟩ := ih
    exact ⟨n, hq.tail ⟨hnq, hn.2⟩, hn.1⟩

theorem exists_chain_flip : (∃ p, Chain edge pass a p ∧ edge p b) ↔
    ∃ q, Chain (flip edge) pass b q ∧ flip edge q a :=
  ⟨fun ⟨_, hp, hb⟩ => hp.turned hb, fun ⟨_, hq, ha⟩ => hq.turned ha⟩

end Walk

theorem Origin.ident_eq_resolved (o : Origin) (x : Declaration) :
    ident o = ident (Origin.resolved x) ↔ ∃ y, o = .resolved y ∧ ident y = ident x := by
  cases o with
  | resolved y => simp [ident, Origin.declaration?]
  | unknown => simp [ident, Origin.declaration?]

namespace View

variable {v : View} {c d : ClassInfo} {m : MethodInfo} {key : MethodKey} {n : Symbol}

/-! ## Declarations of a key -/

/-- Every declaration of a key is public or protected, and not private. -/
def OpenKey (v : View) (key : MethodKey) : Prop :=
  ∀ n d, v.describe? n = some d → ∀ x ∈ d.methods, x.key = key →
    (x.access.isPublic = true ∨ x.access.isProtected = true) ∧ x.access.isPrivate = false

theorem OpenKey.not_local (h : v.OpenKey key) (hd : v.describe? n = some d) (hm : m ∈ d.methods)
    (hkey : m.key = key) : m.access.isPackageLocal = false := by
  rw [Bool.eq_false_iff, Ne, Access.isPackageLocal_iff]
  rintro ⟨hpublic, -, hprotected⟩
  rcases (h n d hd m hm hkey).1 with h | h
  · exact Bool.false_ne_true (hpublic.symm.trans h)
  · exact Bool.false_ne_true (hprotected.symm.trans h)

/-- A class of the view that does not declare the key. -/
def Passes (v : View) (key : MethodKey) (n : Symbol) : Prop :=
  ∃ d, v.describe? n = some d ∧ d.declaresMethod key = false

/-- The class `b` is another one than `a`, and edges lead there from `a` through classes that do
not declare the key. -/
def Leads (v : View) (edge : Symbol → Symbol → Prop) (key : MethodKey) (a b : Symbol) : Prop :=
  b ≠ a ∧ ∃ p, Walk.Chain edge (v.Passes key) a p ∧ edge p b

theorem leads_flip {edge : Symbol → Symbol → Prop} {a b : Symbol} :
    v.Leads (flip edge) key b a ↔ v.Leads edge key a b := by
  unfold Leads
  rw [Walk.exists_chain_flip, ne_comm]
  rfl

/-! ## Downwards -/

/-- A method that is visible everywhere is overridden by the declarations that ways down without
one lead to. -/
theorem overrides_iff (hlocal : m.access.isPackageLocal = false)
    (hprivate : m.access.isPrivate = false) {a : Symbol} {x : Declaration} :
    v.Overrides m a x ↔ v.Declared m.key x ∧
      v.Leads (fun p n => n ∈ v.main.directSubclasses p) m.key a x.owner.name := by
  have hsees : ∀ n, v.Sees m a n := by
    intro n
    simp [Sees, hprivate, hlocal]
  have hpasses : v.LetsPast m a = v.Passes m.key := by
    funext n
    simp [LetsPast, Passes, hsees]
  have hopen : ∀ p, v.OpenBelow m a p ↔
      Walk.Chain (fun p n => n ∈ v.main.directSubclasses p) (v.Passes m.key) a p := by
    intro p
    rw [← hpasses]
    rfl
  constructor
  · rintro ⟨hdeclared, hother, -, p, hp, hbelow⟩
    exact ⟨hdeclared, hother, p, (hopen p).1 hp, hbelow⟩
  · rintro ⟨hdeclared, hother, p, hp, hbelow⟩
    exact ⟨hdeclared, hother, hsees _, p, (hopen p).2 hp, hbelow⟩

/-! ## Upwards -/

theorem OpenKey.look_overriddenWalk (h : v.OpenKey m.key) (here : ClassInfo) :
    (v.overriddenWalk m .sameKey).look here n =
      v.lookFor m True [.ok .unknown] .resolved n := by
  cases hd : v.describe? n with
  | none => simp only [overriddenWalk, lookFor, hd]
  | some d =>
    simp only [overriddenWalk, hd]
    refine arrivalAt_eq_lookFor hd fun x hx => ?_
    obtain ⟨hx, hkey⟩ := List.mem_filter.1 hx
    have hlocal := h.not_local hd hx (of_decide_eq_true hkey)
    have hprivate := (h n d hd x hx (of_decide_eq_true hkey)).2
    simp [isVisibleIn, hlocal, hprivate, pure, Except.pure, bind, Except.bind]

/-- Where every declaration is visible, the search upwards takes every look as from its start. -/
theorem OpenKey.uniform (h : v.OpenKey m.key) (hc : v.describe? c.name = some c) :
    (v.overriddenWalk m .sameKey).Uniform ClassInfo.name c
      (fun p n => n ∈ v.supersOf p) (v.Passes m.key) where
  labelled := labelled_overriddenWalk m .sameKey
  neighbours {p} hp n := by
    have hknown : v.describe? p.name = some p := by
      rcases stands_of_place hp with rfl | ⟨n, hn⟩
      · exact hc
      · rw [name_of_describe? hn, hn]
    rw [supersOf_of_describe? hknown]
    rfl
  look _ _ := by rw [h.look_overriddenWalk, h.look_overriddenWalk]
  opens _ _ := by
    rw [h.look_overriddenWalk, isSome_next_lookFor]
    simp [Passes]

/-- What the search upwards finds where every declaration is visible: those that ways up without
one lead to. -/
theorem overridden_exact (h : v.OpenKey m.key) (hc : v.describe? c.name = some c) :
    ∃ found, v.overridden m c .sameKey = .ok found ∧
      ∀ x, .resolved x ∈ found ↔ v.Declared m.key x ∧
        v.Leads (fun p n => n ∈ v.supersOf p) m.key c.name x.owner.name := by
  have hconfined := (climber_overriddenWalk v m .sameKey).confined c
  have hbound := v.card_listedSupers_lt c.supers
  obtain ⟨l, hl⟩ := exists_values
    (l := (v.overriddenWalk m .sameKey).findFrom (v.upBound c.supers) c.name c) fun r hr => by
      obtain ⟨n, -, hr⟩ := ((h.uniform hc).mem_findFrom hconfined (.inl rfl) hbound).1 hr
      rw [h.look_overriddenWalk] at hr
      exact exists_ok_of_mem_lookFor (fun r hr => ⟨_, List.mem_singleton.1 hr⟩) hr
  refine ⟨_, overridden_eq_ok_iff.2 ⟨l, hl, rfl⟩, fun x => ?_⟩
  have hkind : isOrigin (ident x) ∘ Except.ok = fun o : Origin =>
      decide (ident o = ident (Origin.resolved x)) := rfl
  have hfind := (h.uniform hc).find?_findFrom hconfined (.inl rfl) hbound
    (fun _ _ _ _ hr hk => symbol_of_isOrigin (k := ident x) hr hk) (x := .ok (.resolved x))
  have hlook : ((v.overriddenWalk m .sameKey).look c (ident x).2).found.find?
      (isOrigin (ident x)) = some (.ok (.resolved x)) ↔ v.Declared m.key x ∧ True := by
    rw [h.look_overriddenWalk]
    refine find?_lookFor (fun _ _ he => Origin.resolved.inj he) (fun r hr => ?_) fun y => ?_
    · rw [List.mem_singleton.1 hr]
      rfl
    · simp [isOrigin, ident, Origin.declaration?]
  rw [IdSet.mem_ofList_iff_find?, ← hkind]
  rw [hl, List.find?_map, hlook, and_true] at hfind
  rw [and_comm]
  refine Iff.trans ?_ hfind
  simp

/-! ## Both ways -/

/-- A set of first declarations has every declaration of the key in a class that it has one of. -/
theorem contains_iff_of_declared {α κ : Type} [Identified α κ] [DecidableEq κ]
    (emit : Declaration → α) {found : IdSet α} {reach : Symbol → Prop}
    (hemit : ∀ b x, ident b = ident (emit x) ↔ ∃ y, b = emit y ∧ ident y = ident x)
    (hfound : ∀ x, emit x ∈ found ↔ v.Declared key x ∧ reach x.owner.name)
    (hd : v.describe? d.name = some d) (hm : m ∈ d.methods) (hkey : m.key = key) :
    found.contains (emit ⟨m, d⟩) = true ↔ reach d.name := by
  rw [IdSet.contains, IdSet.has_iff_mem]
  constructor
  · rintro ⟨b, hb, hident⟩
    obtain ⟨y, rfl, hy⟩ := (hemit b ⟨m, d⟩).1 hident
    have howner : y.owner.name = d.name := congrArg Prod.snd hy
    exact howner ▸ ((hfound y).1 hb).2
  · intro hreach
    obtain ⟨x, hxkey, hx⟩ := exists_declared hd (ClassInfo.declaresMethod_iff.2 ⟨m, hm, hkey⟩)
    refine ⟨emit ⟨x, d⟩, (hfound ⟨x, d⟩).2 ⟨hx, hreach⟩, (hemit _ _).2 ⟨⟨x, d⟩, rfl, ?_⟩⟩
    simp [ident, hxkey, hkey]

/-- **Overriding and overridden methods**: where the subclass table says just what the described
classes name as supertypes, and every declaration of a key is visible everywhere, both searches
answer, and the one from `a` downwards finds the method of `c` just when the one from `c` upwards
finds the method of `a`.  A class without a descriptor ends both. -/
theorem contains_overriding_eq {a : ClassInfo} {mA mC : MethodInfo}
    (htables : ∀ s t, s ∈ v.main.directSubclasses t ↔ t ∈ v.supersOf s) (hopen : v.OpenKey key)
    (ha : v.describe? a.name = some a) (hmA : mA ∈ a.methods) (hkeyA : mA.key = key)
    (hc : v.describe? c.name = some c) (hmC : mC ∈ c.methods) (hkeyC : mC.key = key) :
    ∃ below above, v.overriding mA a .sameKey = .ok below ∧
      v.overridden mC c .sameKey = .ok above ∧
      below.contains ⟨mC, c⟩ = above.contains (.resolved ⟨mA, a⟩) ∧
      (below.contains ⟨mC, c⟩ = true ↔
        v.Leads (fun p n => n ∈ v.main.directSubclasses p) key a.name c.name) := by
  have hlocal := hopen.not_local ha hmA hkeyA
  obtain ⟨below, hbelow, hdown⟩ := (aligned_of_not_local hlocal).overriding_exact (c := a)
  obtain ⟨above, habove, hup⟩ := overridden_exact (hkeyC.symm ▸ hopen) hc
  have hupwards : (fun p n => n ∈ v.supersOf p) =
      flip fun p n => n ∈ v.main.directSubclasses p := by
    funext p n
    exact propext (htables p n).symm
  have hbelow_iff : below.contains ⟨mC, c⟩ = true ↔
      v.Leads (fun p n => n ∈ v.main.directSubclasses p) key a.name c.name := by
    refine contains_iff_of_declared id ?_ (fun x => ?_) hc hmC hkeyC
    · exact fun b x => ⟨fun h => ⟨b, rfl, h⟩, fun ⟨_, hb, h⟩ => hb ▸ h⟩
    · rw [id, hdown, overrides_iff hlocal (hopen _ _ ha mA hmA hkeyA).2, hkeyA]
  have habove_iff : above.contains (.resolved ⟨mA, a⟩) = true ↔
      v.Leads (fun p n => n ∈ v.main.directSubclasses p) key a.name c.name := by
    rw [← leads_flip, ← hupwards]
    refine contains_iff_of_declared Origin.resolved Origin.ident_eq_resolved (fun x => ?_) ha hmA
      hkeyA
    rw [hup, hkeyC]
  exact ⟨below, above, hbelow, habove, Bool.eq_iff_iff.2 (hbelow_iff.trans habove_iff.symm),
    hbelow_iff⟩

end View

/-! ## A diamond on a circle

A class that declares a method extends one that extends it in turn, in two ways: through a class
and through an interface that do not declare it. -/

namespace Diamond

def method : MethodInfo := ⟨⟨5⟩, .ofFlags [.prot], [], .primitive .int, none, [], none⟩

def info (name super : Symbol) (interfaces : List TypeRef) (methods : List MethodInfo) :
    ClassInfo :=
  { ClassInfo.plain name (.ofFlags [.pub]) (.named super) with
    interfaces := interfaces
    methods := methods }

def top : ClassInfo := info ⟨1⟩ ⟨4⟩ [] [method]

def bottom : ClassInfo := info ⟨4⟩ ⟨2⟩ [.named ⟨3⟩] [method]

def classes : List ClassInfo := [top, info ⟨2⟩ ⟨1⟩ [] [], info ⟨3⟩ ⟨1⟩ [] [], bottom]

def view : View where
  main := classes.foldl (fun g c => g.record ⟨6⟩ c) .empty
  overlay := none
  names := .new

theorem mem_of_describe? {n : Symbol} {d : ClassInfo} (h : view.describe? n = some d) :
    d ∈ classes := by
  obtain ⟨_, -, hmem, -⟩ := Graph.describe?_eq_some.1 h
  obtain ⟨s, hs, hd⟩ := Table.exists_entry hmem
  have hall : ∀ e ∈ view.main.classesIn.entries, ∀ d ∈ e.2.toList, d ∈ classes := by decide
  exact hall _ hs d hd

theorem tables (s t : Symbol) : s ∈ view.main.directSubclasses t ↔ t ∈ view.supersOf s := by
  constructor
  · intro h
    obtain ⟨l, hl, hs⟩ := Table.exists_entry h
    have hall : ∀ e ∈ view.main.subclasses.entries, ∀ s ∈ e.2.toList, e.1 ∈ view.supersOf s := by
      decide
    exact hall _ hl s hs
  · intro h
    cases hd : view.describe? s with
    | none => simp [View.supersOf, hd] at h
    | some d =>
      obtain rfl := View.name_of_describe? hd
      rw [View.supersOf_of_describe? hd] at h
      have hall : ∀ d ∈ classes, ∀ t ∈ d.supers, d.name ∈ view.main.directSubclasses t := by
        decide
      exact hall d (mem_of_describe? hd) t h

theorem opened : view.OpenKey method.key := by
  intro n d hd
  have hall : ∀ d ∈ classes, ∀ x ∈ d.methods, x.key = method.key →
      (x.access.isPublic = true ∨ x.access.isProtected = true) ∧ x.access.isPrivate = false := by
    decide
  exact hall d (mem_of_describe? hd)

theorem diamond_both_ways :
    (∀ s t, s ∈ view.main.directSubclasses t ↔ t ∈ view.supersOf s) ∧
      view.OpenKey method.key ∧ view.describe? top.name = some top ∧
      view.describe? bottom.name = some bottom ∧
      ∃ below above, view.overriding method top .sameKey = .ok below ∧
        view.overridden method bottom .sameKey = .ok above ∧
        below.contains ⟨method, bottom⟩ = true ∧
        above.contains (.resolved ⟨method, top⟩) = true := by
  obtain ⟨below, above, hbelow, habove, hboth, -⟩ := View.contains_overriding_eq (a := top)
    (c := bottom) (v := view) tables opened rfl (List.mem_singleton_self _) rfl rfl
    (List.mem_singleton_self _) rfl
  have hfound : view.overriding method top .sameKey = .ok (.single ⟨method, bottom⟩) := rfl
  obtain rfl := Except.ok.inj (hfound.symm.trans hbelow)
  exact ⟨tables, opened, rfl, rfl, _, above, hfound, habove, by decide, by rw [← hboth]; decide⟩

end Diamond

end ClassImpact

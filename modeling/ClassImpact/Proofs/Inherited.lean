import ClassImpact.Proofs.Overrides

/-!
# Inherited members

A member is inherited by the classes that subclass edges lead down to through classes which do
not declare it again.  A class without a descriptor may declare anything and ends a way as well.

The search for them marks a class as seen before it looks whether the class declares the member.
That does no harm: the look is the same from wherever the class is reached, so a class that ends
one way ends them all.  Hence neither what is found nor that the search ends hangs on the order
in which subclasses are listed.

## Main results

* `Walk.Uniform.nodup_findFrom`: a walk that finds symbols finds each once
* `View.inheriting_exact`: the classes that inherit a member, in any order of listing
-/

namespace ClassImpact

/-! ## Walks that find the symbols they look at -/

theorem Walk.Uniform.nodup_findFrom {σ : Type} {w : Walk σ Symbol} {label : σ → Symbol} {start : σ}
    {edge : Symbol → Symbol → Prop} {pass : Symbol → Prop} (h : w.Uniform label start edge pass)
    {I : σ → Prop} {symbols : Finset Symbol} {bound : Nat} (hw : w.Confined I symbols)
    (hstart : I start) (hbound : symbols.card < bound)
    (hown : ∀ p n, ((w.look p n).found).Sublist [n]) :
    (w.findFrom bound (label start) start).Nodup := by
  obtain ⟨arrivals, hnodup, -, -, hfound⟩ :=
    exists_arrivals h.labelled h.steady hw hstart hbound
  have hsub : (arrivals.flatMap fun a => (w.look a.1 a.2).found).Sublist (arrivals.map (·.2)) := by
    clear hnodup hfound
    induction arrivals with
    | nil => exact .slnil
    | cons a arrivals ih =>
      rw [List.flatMap_cons, List.map_cons]
      exact (hown a.1 a.2).append ih
  rw [hfound]
  exact hnodup.sublist hsub

namespace View

variable {v : View} {member : MemberKey} {order : Symbol → List Symbol} {a n s : Symbol}

/-! ## One class -/

/-- A class that has a descriptor and does not declare the member itself. -/
def Adopts (v : View) (member : MemberKey) (n : Symbol) : Prop :=
  ∃ d, v.describe? n = some d ∧ d.declares member = false

/-- A class that adopts the member is found, and the walk goes on there; at any other class
nothing happens. -/
theorem look_inheritingWalk (v : View) (member : MemberKey) (p n : Symbol) :
    v.Adopts member n ∧ (v.inheritingWalk member).look p n = ⟨[n], some n⟩ ∨
      ¬ v.Adopts member n ∧ (v.inheritingWalk member).look p n = ⟨[], none⟩ := by
  simp only [inheritingWalk, Adopts]
  cases v.describe? n with
  | none => simp
  | some d => cases hd : d.declares member <;> simp [hd]

theorem mem_found_inheritingWalk (p : Symbol) :
    s ∈ ((v.inheritingWalk member).look p n).found ↔ s = n ∧ v.Adopts member n := by
  rcases v.look_inheritingWalk member p n with ⟨h, hlook⟩ | ⟨h, hlook⟩ <;> simp [h, hlook]

theorem found_inheritingWalk_sublist (p n : Symbol) :
    ((v.inheritingWalk member).look p n).found.Sublist [n] := by
  rcases v.look_inheritingWalk member p n with ⟨-, hlook⟩ | ⟨-, hlook⟩ <;> simp [hlook]

theorem isSome_next_inheritingWalk (p : Symbol) :
    ((v.inheritingWalk member).look p n).next.isSome = true ↔ v.Adopts member n := by
  rcases v.look_inheritingWalk member p n with ⟨h, hlook⟩ | ⟨h, hlook⟩ <;> simp [h, hlook]

theorem labelled_inheritingWalk (v : View) (member : MemberKey) :
    (v.inheritingWalk member).Labelled id := by
  intro p n q hq
  rcases v.look_inheritingWalk member p n with ⟨-, hlook⟩ | ⟨-, hlook⟩
  · rw [hlook] at hq
    exact (Option.some.inj hq).symm
  · rw [hlook] at hq
    cases hq

/-! ## The search -/

/-- The search for inheriting classes, with the subclasses of a class listed in some order. -/
def inheritingInOrder (v : View) (member : MemberKey) (order : Symbol → List Symbol) :
    Walk Symbol Symbol :=
  { v.inheritingWalk member with neighbours := order }

/-- A member of `a` is handed down to `s`: subclass edges lead there over one class or more, each
of which adopts the member. -/
def HandsDown (v : View) (member : MemberKey) (a s : Symbol) : Prop :=
  Relation.TransGen (fun p n => n ∈ v.main.directSubclasses p ∧ v.Adopts member n) a s

section

variable (horder : ∀ p n, n ∈ order p ↔ n ∈ v.main.directSubclasses p)

include horder

theorem uniform_inheritingInOrder (member : MemberKey) (a : Symbol) :
    (v.inheritingInOrder member order).Uniform id a
      (fun p n => n ∈ v.main.directSubclasses p) (v.Adopts member) where
  labelled := labelled_inheritingWalk v member
  neighbours _ n := horder _ n
  look _ _ := rfl
  opens _ _ := isSome_next_inheritingWalk a

theorem confined_inheritingInOrder (member : MemberKey) :
    (v.inheritingInOrder member order).Confined (fun _ => True) v.main.listedSubclasses :=
  .everywhere fun p n hn => Graph.mem_listedSubclasses ((horder p n).1 hn)

/-- **The search ends** because no place is left, whatever cycles there are. -/
theorem inheritingInOrder_ends (member : MemberKey) (a : Symbol) :
    ((v.inheritingInOrder member order).run (downBound v.main) ⟨[a], [a], []⟩).pending = [] :=
  Walk.pending_findFrom (confined_inheritingInOrder horder member) trivial
    v.main.card_listedSubclasses_lt a

/-- What the search finds, in any order of listing. -/
theorem mem_inheritingInOrder :
    s ∈ (v.inheritingInOrder member order).findFrom (downBound v.main) a a ↔
      s ≠ a ∧ v.HandsDown member a s := by
  have hfind := (uniform_inheritingInOrder horder member a).mem_findFrom
    (confined_inheritingInOrder horder member) trivial v.main.card_listedSubclasses_lt (x := s)
  refine hfind.trans ?_
  constructor
  · rintro ⟨n, ⟨hne, u, hu, hn⟩, hs⟩
    obtain ⟨rfl, hadopts⟩ := (mem_found_inheritingWalk a).1 hs
    exact ⟨hne, .tail' hu ⟨hn, hadopts⟩⟩
  · rintro ⟨hne, hs⟩
    obtain ⟨u, hu, hn, hadopts⟩ := Relation.TransGen.tail'_iff.1 hs
    exact ⟨s, ⟨hne, u, hu, hn⟩, (mem_found_inheritingWalk a).2 ⟨rfl, hadopts⟩⟩

theorem nodup_inheritingInOrder (member : MemberKey) (a : Symbol) :
    ((v.inheritingInOrder member order).findFrom (downBound v.main) a a).Nodup :=
  (uniform_inheritingInOrder horder member a).nodup_findFrom
    (confined_inheritingInOrder horder member) trivial v.main.card_listedSubclasses_lt
    found_inheritingWalk_sublist

end

/-! ## Inheriting classes -/

/-- **Inheritance without redeclaration**: for a class with a descriptor the search finds, each
once, the other classes that its member is handed down to.  In whatever order the subclasses of
each class are listed, the search ends and finds the same classes. -/
theorem inheriting_exact {d : ClassInfo} (ha : v.describe? a = some d) (member : MemberKey) :
    (v.inheriting member a).Nodup ∧
      (∀ s, s ∈ v.inheriting member a ↔ s ≠ a ∧ v.HandsDown member a s) ∧
      ∀ order : Symbol → List Symbol, (∀ p, (order p).Perm (v.main.directSubclasses p)) →
        let w := v.inheritingInOrder member order
        (w.run (downBound v.main) ⟨[a], [a], []⟩).pending = [] ∧
          (w.findFrom (downBound v.main) a a).Perm (v.inheriting member a) := by
  have hknown : v.inheriting member a =
      (v.inheritingInOrder member v.main.directSubclasses).findFrom (downBound v.main) a a := by
    rw [inheriting, ha]
    rfl
  have hlisted : ∀ p n, n ∈ v.main.directSubclasses p ↔ n ∈ v.main.directSubclasses p :=
    fun _ _ => Iff.rfl
  have hmem : ∀ s, s ∈ v.inheriting member a ↔ s ≠ a ∧ v.HandsDown member a s := fun s => by
    rw [hknown]
    exact mem_inheritingInOrder hlisted
  have hnodup : (v.inheriting member a).Nodup := by
    rw [hknown]
    exact nodup_inheritingInOrder hlisted member a
  refine ⟨hnodup, hmem, fun order hperm => ?_⟩
  have horder : ∀ p n, n ∈ order p ↔ n ∈ v.main.directSubclasses p := fun p _ => (hperm p).mem_iff
  refine ⟨inheritingInOrder_ends horder member a,
    (List.perm_ext_iff_of_nodup (nodup_inheritingInOrder horder member a) hnodup).2 fun s => ?_⟩
  rw [hmem]
  exact mem_inheritingInOrder horder

end View

/-! ## A field past a class that declares it

The field of a class is declared again by one class below it, and was declared by another one
before the round.  A class below both of them inherits it past the second, and is extended by the
first class in turn.  One edge leads to a class that is gone. -/

namespace TwoWays

def field : FieldInfo := ⟨⟨7⟩, .ofFlags [.pub], .primitive .int, none, none⟩

def info (name super : Symbol) (interfaces : List TypeRef) (fields : List FieldInfo) : ClassInfo :=
  { ClassInfo.plain name (.ofFlags [.pub]) (.named super) with
    interfaces := interfaces
    fields := fields }

def top : ClassInfo := info ⟨1⟩ ⟨3⟩ [] [field]

def recorded : Graph :=
  [top, info ⟨2⟩ ⟨1⟩ [] [field], info ⟨3⟩ ⟨2⟩ [.named ⟨4⟩] [], info ⟨4⟩ ⟨1⟩ [] [field]].foldl
    (fun g c => g.record ⟨6⟩ c) .empty

def view : View where
  main := { recorded with subclasses := recorded.subclasses.addValue ⟨4⟩ ⟨5⟩ }
  overlay := some (Graph.empty.record ⟨6⟩ (info ⟨4⟩ ⟨1⟩ [] []))
  names := .new

theorem inherited_past_redeclaration :
    view.describe? ⟨1⟩ = some top ∧ view.inheriting (.field ⟨7⟩) ⟨1⟩ = [⟨4⟩, ⟨3⟩] ∧
      view.HandsDown (.field ⟨7⟩) ⟨1⟩ ⟨3⟩ ∧ ¬ view.HandsDown (.field ⟨7⟩) ⟨1⟩ ⟨2⟩ ∧
      ¬ view.HandsDown (.field ⟨7⟩) ⟨1⟩ ⟨5⟩ ∧
      ((view.inheritingInOrder (.field ⟨7⟩) fun p =>
        (view.main.directSubclasses p).reverse).findFrom
          (View.downBound view.main) ⟨1⟩ ⟨1⟩).Perm [⟨4⟩, ⟨3⟩] := by
  have hknown : view.describe? ⟨1⟩ = some top := rfl
  have hfound : view.inheriting (.field ⟨7⟩) ⟨1⟩ = [⟨4⟩, ⟨3⟩] := rfl
  obtain ⟨-, hmem, horder⟩ := View.inheriting_exact hknown (.field ⟨7⟩)
  have hreversed := (horder (fun p => (view.main.directSubclasses p).reverse) fun _ =>
    List.reverse_perm _).2
  rw [hfound] at hmem hreversed
  exact ⟨hknown, hfound, ((hmem ⟨3⟩).1 (by decide)).2,
    fun h => absurd ((hmem ⟨2⟩).2 ⟨by decide, h⟩) (by decide),
    fun h => absurd ((hmem ⟨5⟩).2 ⟨by decide, h⟩) (by decide), hreversed⟩

end TwoWays

end ClassImpact

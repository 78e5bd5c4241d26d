import ClassImpact.Proofs.Forgotten

/-!
# Descending and climbing

What lies below a class is found along the subclass table; whether a class inherits from another
is found along the supertypes that descriptors declare.  Where the table turns the declared
supertypes around, both ways come to the same classes, on cycles and past supertypes that no
descriptor is known of.

Each direction rests on one half of that condition.  A class that is listed under a supertype
which it does not declare is found below it all the same, and one that is not listed where it
should be is still known to inherit.

The climb may stop as soon as it sees the class that it looks for; what it would meet later
changes nothing.

## Main results

* `View.inherits_eq_sights`: inheritance, answered at first sight
* `Graph.mem_allSubclasses_iff_inherits`: descending and climbing agree
-/

namespace ClassImpact

/-! ## Walks that stop at a sight -/

namespace Walk

variable {σ β : Type} {w : Walk σ β} {st : State σ β} {here : σ} {n : Symbol}

/-- Whether a walk comes to a place that has `target` among its neighbours; it stops there. -/
def sights (w : Walk σ β) (target : Symbol) : Nat → State σ β → Bool
  | 0, _ => false
  | bound + 1, st =>
    match st.pending with
    | [] => false
    | here :: rest =>
      target ∈ w.neighbours here || sights w target bound (w.leave here { st with pending := rest })

/-- **A walk sees what it would visit**: to stop at the first sight of a symbol tells whether the
whole walk comes to it. -/
theorem sights_iff (hn : n ∉ st.visited) (bound : Nat) :
    w.sights n bound st = true ↔ n ∈ (w.run bound st).visited := by
  induction bound generalizing st with
  | zero => simp [sights, run, hn]
  | succ bound ih =>
    obtain ⟨visited, pending, found⟩ := st
    cases pending with
    | nil => simpa [sights] using hn
    | cons here rest =>
      have hleave : n ∈ (w.leave here ⟨visited, rest, found⟩).visited ↔
          n ∈ w.neighbours here := by
        rw [mem_visited_leave]
        exact or_iff_right hn
      show (decide (n ∈ w.neighbours here) ||
          w.sights n bound (w.leave here ⟨visited, rest, found⟩)) = true ↔
        n ∈ (w.run bound (w.leave here ⟨visited, rest, found⟩)).visited
      by_cases hhere : n ∈ w.neighbours here
      · rw [decide_eq_true hhere, Bool.true_or]
        exact iff_of_true rfl (mem_visited_run (hleave.2 hhere) bound)
      · rw [decide_eq_false hhere, Bool.false_or]
        exact ih (mt hleave.1 hhere)

/-- The walk that goes on everywhere finds what it visits, its start apart. -/
theorem mem_visited_everywhere {f : Symbol → List Symbol} {a : Symbol} (bound : Nat) :
    n ∈ ((everywhere f).run bound ⟨[a], [a], []⟩).visited ↔
      n = a ∨ n ∈ (everywhere f).findFrom bound a a := by
  have hlab : (everywhere f).Labelled id := fun _ _ _ hq => (Option.some.inj hq).symm
  have hinit : ∀ p ∈ ([] : List Symbol), ∀ m ∈ (everywhere f).neighbours p,
    m ∈ (⟨[id a], [a], []⟩ : State Symbol Symbol).visited := by simp
  obtain ⟨left, arrivals, h, -⟩ := trace_init.run hlab bound hinit
  have hfound : (everywhere f).findFrom bound a a = arrivals.map (·.2) := by
    unfold findFrom
    rw [show (everywhere f).run bound ⟨[a], [a], []⟩ =
      (everywhere f).run bound ⟨[id a], [a], []⟩ from rfl, h.found, List.map_eq_flatMap]
    rfl
  rw [hfound]
  exact h.visited n

end Walk

namespace View

variable {v : View}

/-- **Inheritance at first sight**: the climb may be given up where `whom` is a declared supertype
of the class that it has come to. -/
theorem inherits_eq_sights (who whom : Symbol) :
    v.inherits who whom =
      if who = whom ∨ (Walk.everywhere v.supersOf).sights whom (v.upBound (v.supersOf who))
        ⟨[who], [who], []⟩ = true then .yes
      else .unknown := by
  unfold inherits
  by_cases hself : who = whom
  · rw [if_pos hself, if_pos (.inl hself)]
  · have hnew : whom ∉ (⟨[who], [who], []⟩ : Walk.State Symbol Symbol).visited := by
      simpa using Ne.symm hself
    have hiff : (v.ancestors who).contains whom = true ↔
        (Walk.everywhere v.supersOf).sights whom (v.upBound (v.supersOf who))
          ⟨[who], [who], []⟩ = true := by
      rw [Walk.sights_iff hnew, Walk.mem_visited_everywhere, or_iff_right (Ne.symm hself),
        List.contains_iff_mem]
      rfl
    rw [if_neg hself]
    simp only [hself, false_or, hiff]

theorem mem_supersOf {n t : Symbol} :
    t ∈ v.supersOf n ↔ ∃ c, v.describe? n = some c ∧ t ∈ c.supers := by
  unfold supersOf
  cases v.describe? n <;> simp

end View

/-! ## The two tables -/

namespace Graph

variable {g : Graph} {names : NameTable} {a b : Symbol}

/-- The subclass table turns the declared supertypes around: it lists a class under each one that
its descriptor declares, and under no other. -/
structure Transposed (g : Graph) : Prop where
  listed : ∀ {n t : Symbol} {c : ClassInfo}, g.describe? n = some c → t ∈ c.supers →
    n ∈ g.directSubclasses t
  declared : ∀ {n t : Symbol}, n ∈ g.directSubclasses t →
    ∃ c, g.describe? n = some c ∧ t ∈ c.supers

/-- A class is found below what it inherits from, if every class is listed under the supertypes
that it declares. -/
theorem below_of_above
    (hlisted : ∀ {n t : Symbol} {c : ClassInfo}, g.describe? n = some c → t ∈ c.supers →
      n ∈ g.directSubclasses t)
    (h : View.Above ⟨g, none, names⟩ a b) : g.Below b a := by
  refine Relation.ReflTransGen.mono (fun t n ht => ?_) b a h.swap
  obtain ⟨c, hc, ht⟩ := View.mem_supersOf.1 ht
  exact hlisted hc ht

/-- A class inherits from what it is found below, if every class declares the supertypes that it
is listed under. -/
theorem above_of_below
    (hdeclared : ∀ {n t : Symbol}, n ∈ g.directSubclasses t →
      ∃ c, g.describe? n = some c ∧ t ∈ c.supers)
    (h : g.Below b a) : View.Above ⟨g, none, names⟩ a b := by
  refine Relation.ReflTransGen.mono (fun n t hn => ?_) a b h.swap
  obtain ⟨c, hc, ht⟩ := hdeclared hn
  exact View.mem_supersOf.2 ⟨c, hc, ht⟩

/-- **Descending and climbing agree**: where the subclass table turns the declared supertypes
around, the classes found below a class are just those that are known to inherit from it.  That a
class inherits from another is never denied. -/
theorem mem_allSubclasses_iff_inherits {main : Graph} (h : main.Transposed) (names : NameTable)
    (c r : Symbol) :
    (c ∈ main.allSubclasses r ↔ View.inherits ⟨main, none, names⟩ c r = .yes) ∧
      ∀ v : View, v.inherits c r ≠ .no := by
  refine ⟨?_, fun v => v.inherits_ne_no c r⟩
  rw [mem_allSubclasses_iff, View.inherits_eq_yes_iff]
  exact ⟨above_of_below h.declared, below_of_above h.listed⟩

end Graph

/-! ## A circle below an unknown interface

Two classes extend each other, and one of them implements an interface that has no descriptor.
Both lie below it. -/

namespace UnknownAbove

def info (name super : Symbol) (interfaces : List TypeRef) : ClassInfo :=
  { ClassInfo.plain name (.ofFlags [.pub]) (.named super) with interfaces := interfaces }

def graph : Graph :=
  (Graph.empty.record ⟨4⟩ (info ⟨1⟩ ⟨2⟩ [])).record ⟨4⟩ (info ⟨2⟩ ⟨1⟩ [.named ⟨3⟩])

theorem transposed : graph.Transposed where
  listed {n t c} hc ht := by
    obtain ⟨f, -, hmem, rfl⟩ := Graph.describe?_eq_some.1 hc
    obtain ⟨s, hs, hmem⟩ := Table.exists_entry hmem
    have hall : ∀ e ∈ graph.classesIn.entries, ∀ c ∈ e.2.toList, ∀ t ∈ c.supers,
      c.name ∈ graph.directSubclasses t := by decide
    exact hall _ hs c hmem t ht
  declared {n t} hn := by
    obtain ⟨s, hs, hmem⟩ := Table.exists_entry hn
    have hall : ∀ e ∈ graph.subclasses.entries, ∀ n ∈ e.2.toList,
      ((graph.describe? n).any fun c => e.1 ∈ c.supers) = true := by decide
    simpa [Option.any_eq_true] using hall _ hs n hmem

theorem circle_below_unknown :
    graph.Transposed ∧ graph.describe? ⟨3⟩ = none ∧
      ⟨1⟩ ∈ graph.allSubclasses ⟨3⟩ ∧ View.inherits ⟨graph, none, .new⟩ ⟨1⟩ ⟨3⟩ = .yes ∧
      ⟨3⟩ ∉ graph.allSubclasses ⟨1⟩ ∧ View.inherits ⟨graph, none, .new⟩ ⟨3⟩ ⟨1⟩ ≠ .yes := by
  have hbelow : ⟨1⟩ ∈ graph.allSubclasses ⟨3⟩ := by decide
  have hapart : ⟨3⟩ ∉ graph.allSubclasses ⟨1⟩ := by decide
  exact ⟨transposed, by decide, hbelow,
    (Graph.mem_allSubclasses_iff_inherits transposed .new ⟨1⟩ ⟨3⟩).1.1 hbelow, hapart,
    mt (Graph.mem_allSubclasses_iff_inherits transposed .new ⟨3⟩ ⟨1⟩).1.2 hapart⟩

end UnknownAbove

end ClassImpact

import ClassImpact.Symbol

/-!
# Walks that visit every symbol once

The searches through a class hierarchy have one shape.  From a place, each
neighbour that no one has seen yet is looked at once; the look may find something
and may say where the walk goes on.  The place found last is left first.

A walk is bounded by the number of its arrivals.  With a bound above the number
of symbols that neighbours can be, it ends because no place is left, so a cyclic
hierarchy ends too.
-/

namespace ClassImpact

/-- What a look at a neighbour finds, and the place it opens. -/
structure Arrival (σ β : Type) where
  found : List β
  next : Option σ

/-- A search: the neighbours of a place, and the look at one of them. -/
structure Walk (σ β : Type) where
  neighbours : σ → List Symbol
  look : σ → Symbol → Arrival σ β

/-- The state of a walk. -/
structure Walk.State (σ β : Type) where
  visited : List Symbol
  pending : List σ
  found : List β

namespace Walk

variable {σ β : Type}

/-- A neighbour is reached from `here`; one seen before changes nothing. -/
def arrive (w : Walk σ β) (here : σ) (st : State σ β) (neighbour : Symbol) : State σ β :=
  if neighbour ∈ st.visited then st
  else
    let a := w.look here neighbour
    { visited := neighbour :: st.visited
      pending := a.next.toList ++ st.pending
      found := st.found ++ a.found }

/-- All neighbours of a place, one after the other. -/
def leave (w : Walk σ β) (here : σ) (st : State σ β) : State σ β :=
  (w.neighbours here).foldl (w.arrive here) st

/-- The walk from a state, through at most `bound` places. -/
def run (w : Walk σ β) : Nat → State σ β → State σ β
  | 0, st => st
  | bound + 1, st =>
    match st.pending with
    | [] => st
    | here :: rest => run w bound (w.leave here { st with pending := rest })

/-- What a walk finds that starts at one place, under the name `origin`. -/
def findFrom (w : Walk σ β) (bound : Nat) (origin : Symbol) (start : σ) : List β :=
  (w.run bound ⟨[origin], [start], []⟩).found

/-- The walk that goes on everywhere and finds the symbols it passes. -/
def everywhere (neighbours : Symbol → List Symbol) : Walk Symbol Symbol :=
  ⟨neighbours, fun _ neighbour => ⟨[neighbour], some neighbour⟩⟩

@[simp] theorem run_done (w : Walk σ β) (bound : Nat) (visited : List Symbol) (found : List β) :
    w.run bound ⟨visited, [], found⟩ = ⟨visited, [], found⟩ := by
  cases bound <;> rfl

end Walk

end ClassImpact

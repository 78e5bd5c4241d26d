import ClassImpact.Impact.Basic

/-!
# Asking about constants

A compiler copies the value of a constant into the classes that read it, and
those classes keep no usage of it.  Somebody outside may know them; questions are
put while a round is compared, and the answers are taken when everything else is
done.

An answer can come late, or never.  Whoever waits until the question is answered
takes the answer when it comes; whoever cannot wait takes it only if it is there.
No answer is the same as an unknown one.
-/

namespace ClassImpact

/-- The readers of a constant. -/
inductive ConstantAnswer where
  | unknown
  | known (files : PathSet)
deriving DecidableEq, Repr

/-- An answer on its way; none at all when the question was dropped. -/
structure PendingAnswer where
  answer : Option ConstantAnswer
  /-- The answer is there when it is asked for. -/
  arrived : Bool
deriving DecidableEq, Repr

/-- Whoever knows the readers of constants. -/
abbrev Resolver := ConstantRequest → PendingAnswer

/-- How answers are waited for. -/
inductive Waiting where
  | untilAnswered | onlyArrived
deriving DecidableEq, Repr

namespace PendingAnswer

/-- The answer that is taken in the end. -/
def take (p : PendingAnswer) : Waiting → ConstantAnswer
  | .untilAnswered => p.answer.getD .unknown
  | .onlyArrived => if p.arrived then p.answer.getD .unknown else .unknown

/-- An answer that is there at once. -/
def now (a : ConstantAnswer) : PendingAnswer := ⟨some a, true⟩

/-- The question was dropped. -/
def dropped : PendingAnswer := ⟨none, true⟩

@[simp] theorem take_now (a : ConstantAnswer) (w : Waiting) : (now a).take w = a := by
  cases w <;> rfl

@[simp] theorem take_dropped (w : Waiting) : dropped.take w = .unknown := by
  cases w <;> rfl

end PendingAnswer

end ClassImpact

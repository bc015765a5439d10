/-
What constraints are solved over, and how solving can come to a halt.

* `Theory`: a sort order, an evaluator and a unifier.
* `Theory.standard`: the built-in evaluator and structural unification.
* `Fault`: the ways in which solving stops without an answer.
* `Engine`: computations that draw fresh variables and may stop so.
-/
import SolvedForm.Term.Evaluate
import SolvedForm.Unification.Decomposition

namespace SolvedForm

/-- The parts that a constraint consults besides its own state. -/
structure Theory where
  order : SortOrder
  evaluate : Term → Term
  unifier : Unifier

/-- The theory with the built-in evaluator and structural unification. -/
def Theory.standard (order : SortOrder) : Theory :=
  ⟨order, Term.evaluate, .structural order⟩

/-- The equation with both sides evaluated. -/
def Theory.evaluated (T : Theory) (e : Equation) : Equation := e.map T.evaluate

/-- Why solving stopped without an answer. -/
inductive Fault where
  /-- A solved variable was about to be bound a second time. -/
  | boundTwice (x : Var)
  /-- The given number of rounds did not suffice. -/
  | outOfFuel
  deriving DecidableEq

/-- The text of a fault. -/
def Fault.message : Fault → String
  | .boundTwice _ => "composed substitutions must have disjoint domains"
  | .outOfFuel => "the given number of rounds did not suffice"

/-- Computations that draw fresh variables and may stop without an answer. -/
abbrev Engine := StateT Nat (Except Fault)

/-- A computation that only draws fresh variables. -/
def Minting.toEngine {α : Type} (x : Minting α) : Engine α := fun n => .ok (x n)

end SolvedForm

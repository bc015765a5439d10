/-
What the engine asks of an external decision procedure.

* `Solver`: two questions about constraints, each under a time limit. A solver
  may keep a state between questions; it answers true only when it is sure.
* `Solver.none`: the solver that is never sure.
* `Solving`: engine computations that may ask a solver.
-/
import SolvedForm.Constraint.Simplification

namespace SolvedForm

/-- A decision procedure with a state of type `σ`; time limits are in
milliseconds. -/
structure Solver (σ : Type) where
  /-- The constraint has no solution. -/
  refutes : Constraint → (limit : Nat) → StateM σ Bool
  /-- Every solution of the first constraint extends, by values for the given
  variables, to one of the second. -/
  proves : Constraint → Constraint → List Var → (limit : Nat) → StateM σ Bool

/-- The solver that decides nothing. -/
def Solver.none {σ : Type} : Solver σ := ⟨fun _ _ => pure false, fun _ _ _ _ => pure false⟩

/-- Engine computations that may ask a solver with a state. -/
abbrev Solving (σ : Type) := StateT σ Engine

/-- A question to a solver as a computation. -/
def Solver.ask {σ : Type} (question : StateM σ Bool) : Solving σ Bool :=
  fun s => pure (question s)

/-- The constraint is known to have no solution: it is false, or the solver
refutes what is more than bindings. -/
def Constraint.checkUnsat {σ : Type} (solver : Solver σ) (limit : Nat) (c : Constraint) :
    StateM σ Bool :=
  if c.isFalse then pure true
  else if c.isSubstitution then pure false
  else solver.refutes c limit

end SolvedForm

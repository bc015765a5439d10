/-
The disjunction behind a constraint, made explicit.

* `Constraint.alternatives`: one constraint for every choice of an alternative
  from each pending disjunction, conjoined with the rest and simplified; false
  ones are dropped. Without disjunctions it is the constraint alone.
-/
import SolvedForm.Constraint.Simplification

namespace SolvedForm.Constraint

/-- Every combination extended by every alternative, false results dropped. -/
def extendBy (T : Theory) (fuel : Nat) (combinations alternatives : List Constraint) :
    Engine (List Constraint) := do
  let rows ← combinations.mapM fun c => alternatives.mapM fun d => do
    let e ← c.addConstraint T d
    e.simplify T fuel false
  return rows.flatten.filter fun d => !d.isFalse

/-- The constraints whose disjunction the constraint stands for. -/
def alternatives (T : Theory) (fuel : Nat) (c : Constraint) : Engine (List Constraint) := do
  if c.pending.isEmpty then return [c]
  let base ← normalize T { c with pending := [], normal := false }
  c.pending.foldlM (extendBy T fuel) [base]

end SolvedForm.Constraint

/-
What unification answers.

* `Unification`: simpler equations that hold in every case, possibly with
  alternatives of which one must hold.
* `Unification.Failure`: the causes of a failure; `Failure.pair` is the
  smallest pair of subterms found not to unify, `Failure.message` its text.
* `Unifier`: from two terms and the wish to fold map equations to an answer; it
  may draw numbers for fresh variables.
-/
import SolvedForm.Equation

namespace SolvedForm

/-- The answer of a unification that did not fail. -/
inductive Unification where
  /-- All of the equations hold. -/
  | unique (equations : List Equation)
  /-- All common equations hold, and all equations of some alternative. -/
  | disjunction (common : List Equation) (alternatives : List (List Equation))
  deriving DecidableEq

namespace Unification

/-- Why two terms do not unify. -/
inductive Failure where
  /-- A variable would occur in its own value. -/
  | occursCheck (x : Var) (t : Term)
  /-- Constructors, literals or map sizes differ. -/
  | symbolClash (left right : Term)
  /-- The sorts of the sides are incompatible. -/
  | sortClash (left right : Term)
  /-- An entry of one map has no place in the other. -/
  | missingEntry (key map : Term)
  deriving DecidableEq

namespace Failure

/-- The smallest pair that was found not to unify. -/
def pair : Failure → Equation
  | occursCheck x t => ⟨.var x, t⟩
  | symbolClash left right => ⟨left, right⟩
  | sortClash left right => ⟨left, right⟩
  | missingEntry key map => ⟨.lookup map key, key⟩

/-- The text of a failure. -/
def message : Failure → String
  | occursCheck x t => "occurs check failed: " ++ x.name ++ " occurs in " ++ t.render
  | symbolClash left right => "symbol clash between " ++ left.render ++ " and " ++ right.render
  | sortClash left right =>
    "sort clash between " ++ left.render ++ " : " ++ left.sort.name ++
      " and " ++ right.render ++ " : " ++ right.sort.name
  | missingEntry key map => "no entry for key " ++ key.render ++ " in " ++ map.render

end Failure

end Unification

/-- Computations that draw the numbers of fresh variables from a supply. -/
abbrev Minting := StateM Nat

/-- The fresh variable with the next number. -/
def mintVar (sort : SortName) : Minting Var := fun n => (Var.fresh n sort, n + 1)

/-- A procedure that simplifies an equation; with `fold`, ambiguous map
equations may be split into alternatives. -/
abbrev Unifier := (fold : Bool) → Equation → Minting (Except Unification.Failure Unification)

/-- The unifier that leaves every equation as it is. -/
def Unifier.opaqueTerms : Unifier := fun _ e => pure (.ok (.unique [e]))

end SolvedForm

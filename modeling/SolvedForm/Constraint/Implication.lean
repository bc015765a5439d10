/-
Implication between constraints.

* `Constraint.subtract`: what is left to show of one constraint when another
  one is known.
* `Constraint.innermostCondition`: the condition on which a proof is split.
* `Constraint.implies`: whether every solution of one constraint extends, by
  values for given variables, to a solution of another. Obligations are worked
  off in the order in which they arise: a residue that only binds the given
  variables is settled, a conditional in it splits the obligation in two, and
  the rest is for the solver.
-/
import SolvedForm.Constraint.Orientation
import SolvedForm.Solver.Basic

namespace SolvedForm

/-- Time limits for the two questions to a solver, in milliseconds. -/
structure TimeLimits where
  constraint : Nat := 50
  implication : Nat := 500

namespace Constraint

/-! ### What is left to show -/

/-- What the constraint knows of single terms, as replacements: its bindings
and its ground facts. -/
def facts (c : Constraint) : Term.Table :=
  c.store.toList.map (fun b => (.var b.1, b.2)) ++ c.groundFacts

/-- The part of `d` that `c` does not list itself. -/
def difference (T : Theory) (c d : Constraint) : Constraint :=
  let bindings := d.bindingEquations.filter fun e =>
    !c.store.toList.any fun b => (⟨.var b.1, b.2⟩ : Equation) = e
  let equations := d.equations.toList.filter fun e => !c.equations.contains e
  let r := equations.foldl insertEquation (empty.insertAll T bindings)
  { r with pending := d.pending, normal := false }

/-- What is left to show of `d` when `c` is known: the difference, simplified,
rewritten by the facts of `c`, and simplified again. -/
def subtract (T : Theory) (fuel : Nat) (c d : Constraint) : Engine Constraint := do
  if d.isFalse then return d
  let r ← (c.difference T d).simplify T fuel false
  if r.isFalse then return r
  let r ← r.replace T c.facts
  r.simplify T fuel false

/-! ### Splitting -/

/-- Only bindings of the given variables are left. -/
def bindsOnly (xs : List Var) (c : Constraint) : Bool :=
  c.isSubstitution && c.store.keys.all xs.contains

/-- The condition of the first innermost conditional in the equations or the
bound values. -/
def innermostCondition (c : Constraint) : Option Term :=
  let terms := (c.equations.toList.flatMap fun e => [e.left, e.right]) ++
    c.store.toList.map (·.2)
  ((terms.findSome? Term.innermostConditional).bind Term.asConditional).map (·.1)

/-! ### Implication -/

/-- An obligation: the second constraint is to follow from the first. -/
abbrev Obligation := Constraint × Constraint

/-- What becomes of an obligation. -/
inductive Outcome where
  | settled
  | failed
  | split (cases : List Obligation)

/-- One obligation worked off, with the given variables to be chosen. -/
def discharge {σ : Type} (T : Theory) (solver : Solver σ) (limits : TimeLimits) (fuel : Nat)
    (only : List Var) (left right : Constraint) : Solving σ (Except OrientationFailure Outcome) :=
  do
    if left.isFalse then return .ok .settled
    match ← (right.orient T only : Except Fault _) with
    | .error failure => return .error failure
    | .ok right =>
      match ← (← (left.subtract T fuel right : Engine _)).orient T only with
      | .error failure => return .error failure
      | .ok residue =>
        if residue.isFalse then
          let unsat ← Solver.ask (left.checkUnsat solver limits.constraint)
          return .ok (if unsat then .settled else .failed)
        if residue.bindsOnly only then return .ok .settled
        match residue.innermostCondition with
        | some t =>
          let left₁ ← left.add T ⟨t, .bool true⟩
          let left₂ ← left.add T ⟨t, .bool false⟩
          return .ok (.split [(left₁, residue), (left₂, residue)])
        | none =>
          let proved ← Solver.ask (solver.proves left residue only limits.implication)
          return .ok (if proved then .settled else .failed)

/-- Obligations worked off, first come first served, `fuel` of them at
most. -/
def dischargeAll {σ : Type} (T : Theory) (solver : Solver σ) (limits : TimeLimits)
    (only : List Var) : (fuel : Nat) → List Obligation → Solving σ (Except OrientationFailure Bool)
  | _, [] => return .ok true
  | 0, _ :: _ => throw .outOfFuel
  | fuel + 1, (left, right) :: rest => do
    match ← discharge T solver limits fuel only left right with
    | .error failure => return .error failure
    | .ok .settled => dischargeAll T solver limits only fuel rest
    | .ok .failed => return .ok false
    | .ok (.split cases) => dischargeAll T solver limits only fuel (rest ++ cases)

/-- The constraint implies another one, with values for the given variables to
be chosen. -/
def implies {σ : Type} (T : Theory) (solver : Solver σ) (limits : TimeLimits) (fuel : Nat)
    (c d : Constraint) (only : List Var) : Solving σ (Except OrientationFailure Bool) :=
  dischargeAll T solver limits only fuel [(c, d)]

end Constraint

end SolvedForm

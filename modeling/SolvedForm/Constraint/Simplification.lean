/-
Simplification: equations are decomposed by the unifier until nothing changes.

* `Constraint.round`: every equation is handed to the unifier once. The
  constraint is guarded meanwhile, so what the unifier gives waits in the buffer
  until all have been handled; the first failure makes the constraint false.
* `Constraint.simplify`: rounds and normal forms in turn, until the truth is
  decided or a round repeats the last state. With `fold`, an ambiguous map
  equation becomes a disjunction, whose alternatives are simplified first.
  Rounds are counted against a given number.
-/
import SolvedForm.Constraint.NormalForm

namespace SolvedForm.Constraint

/-! ### One round -/

/-- The constraint with its equations taken out, to go through them. -/
def takeOut (c : Constraint) : Constraint := { c with equations := .empty, guarded := true }

/-- The constraint with given equations put back. -/
def putBack (c : Constraint) (equations : EquationSet) : Constraint :=
  { c with equations, guarded := false }

/-- One round over equations: `kept` are those the unifier leaves alone, what it
makes of the others goes to the buffer, and `solve` gives the satisfiable ones of
several alternatives. -/
def round (T : Theory) (fold : Bool) (solve : List (List Equation) → Engine (List Constraint))
    (c : Constraint) (kept : EquationSet) : List Equation → Engine Constraint
  | [] => return c.putBack kept
  | e :: es => do
    match ← (T.unifier fold e).toEngine with
    | .error failure =>
      return (c.putBack ((kept.insert e).insertAll es)).falsify (T.evaluated failure.pair)
    | .ok (.unique parts) =>
      if parts = [e] then round T fold solve c (kept.insert e) es
      else round T fold solve ({ c with normal := false }.insertAll T parts) kept es
    | .ok (.disjunction common alternatives) =>
      let c := { c with normal := false }
      match ← solve alternatives with
      | [] => return (c.putBack ((kept.insert e).insertAll es)).falsify e
      | [d] => round T fold solve ((c.insertAll T common).conjoin T d) kept es
      | ds =>
        let c := c.insertAll T common
        round T fold solve { c with pending := c.pending ++ [ds] } kept es

/-! ### Rounds until nothing changes -/

/-- The store and the equations at the start of a round. -/
abbrev Snapshot := Substitution × EquationSet

/-- The constraint is as it was at the snapshot, up to order. -/
def unchangedSince (c : Constraint) (last : Option Snapshot) : Bool :=
  last.any fun s => s.1.equiv c.store && s.2.equiv c.equations

/-- Normal forms and rounds in turn, `fuel` of them at most, after a round that
started from the snapshot. -/
def simplifySince (T : Theory) (fold : Bool) :
    (fuel : Nat) → Option Snapshot → Constraint → Engine Constraint
  | 0, _, _ => throw .outOfFuel
  | fuel + 1, last, c => do
    let c ← normalize T c
    if c.truth ≠ .unknown || c.unchangedSince last then return c
    let solve (alternatives : List (List Equation)) : Engine (List Constraint) := do
      let ds ← alternatives.mapM fun es => simplifySince T fold fuel none (empty.insertAll T es)
      return ds.filter fun d => !d.isFalse
    let d ← c.takeOut.round T fold solve .empty c.equations.toList
    if d.isFalse then return d
    simplifySince T fold fuel (some (c.store, c.equations)) d

/-- The constraint simplified as far as possible. -/
def simplify (T : Theory) (fuel : Nat) (fold : Bool) (c : Constraint) : Engine Constraint :=
  c.simplifySince T fold fuel none

/-- The constraint with equations added and then simplified. -/
def addAllThenSimplify (T : Theory) (fuel : Nat) (c : Constraint) (es : List Equation) :
    Engine Constraint :=
  (c.insertAll T es).simplify T fuel false

/-- The simplified constraint of given equations. -/
def ofEquations (T : Theory) (fuel : Nat) (es : List Equation) : Engine Constraint :=
  empty.addAllThenSimplify T fuel es

end SolvedForm.Constraint

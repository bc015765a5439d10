/-
Constraints: conjunctions of equations over a store of solved bindings.

* `Constraint`: open equations, solved bindings, pending disjunctions, what is
  known of the whole, and the contradiction once one has been found. While the
  equations are being gone through the constraint is guarded, and new ones wait
  in its buffer.
* `Constraint.updateTruth`: true when only bindings are left, otherwise unknown;
  false is final.
* `Equation.split`: a conjunction equated to true stands for its conjuncts.
* `Constraint.insert`, `Constraint.conjoin`: an equation, or another
  constraint, put in without solving; a false constraint stays as it is.
* `Constraint.rename`, `Constraint.removeBindings`, `Constraint.groundFacts`.
* `Constraint.same`, `Constraint.render`: comparison regardless of order, and
  text.
-/
import SolvedForm.Theory

namespace SolvedForm

/-- A conjunction of equations, bindings and disjunctions. -/
structure Constraint where
  /-- The equations that are not solved yet. -/
  equations : EquationSet := .empty
  /-- The equations put in while the others are being gone through. -/
  buffer : EquationSet := .empty
  /-- The solved bindings. -/
  store : Substitution := .empty
  /-- What is known of the constraint. -/
  truth : Truth := .true
  /-- The equation found contradictory. -/
  contradiction : Option Equation := none
  /-- The bindings have been worked into the equations. -/
  normal : Bool := true
  /-- The equations are being gone through, and new ones go to the buffer. -/
  guarded : Bool := false
  /-- Disjunctions, each a list of alternatives of which one holds. -/
  pending : List (List Constraint) := []

/-! ### Conjunctions equated to true -/

/-- The conjuncts of a term, from left to right. -/
def Term.conjuncts : Term → List Term
  | .app f [a, b] =>
    if (Term.app f [a, b]).applies .conj then a.conjuncts ++ b.conjuncts
    else [.app f [a, b]]
  | t => [t]

/-- The equations that an equation stands for: a conjunction on the one side
and the literal true on the other give an equation for each conjunct. -/
def Equation.split (e : Equation) : List Equation :=
  if e.right = .bool true then e.left.conjuncts.map fun t => ⟨t, .bool true⟩
  else if e.left = .bool true ∧ e.right.asConj.isSome then
    e.right.conjuncts.map fun t => ⟨t, .bool true⟩
  else [e]

/-- The equations to be solved for an equation: split, sides evaluated. -/
def Theory.obligations (T : Theory) (e : Equation) : List Equation :=
  e.split.map T.evaluated

namespace Constraint

/-- The constraint without content. -/
def empty : Constraint := {}

/-- The constraint is known to have no solution. -/
def isFalse (c : Constraint) : Bool := c.truth = .false

/-- Only bindings are left. -/
def isSubstitution (c : Constraint) : Bool :=
  !c.isFalse && c.equations.isEmpty && c.pending.isEmpty

/-- Some equation is between two maps. -/
def hasMapEquation (c : Constraint) : Bool := c.equations.toList.any Equation.isMapEquation

/-! ### Insertion without solving -/

/-- The constraint made false by an equation, unless it is false already. -/
def falsify (c : Constraint) (e : Equation) : Constraint :=
  if c.isFalse then c else { c with truth := .false, contradiction := some e }

/-- What is known of the constraint judged anew, unless it is false. -/
def updateTruth (c : Constraint) : Constraint :=
  if c.isFalse then c
  else { c with truth := if c.equations.isEmpty && c.pending.isEmpty then .true else .unknown }

/-- The constraint with one equation more, taken as it stands; it goes to the
buffer where the constraint is guarded. -/
def insertEquation (c : Constraint) (e : Equation) : Constraint :=
  if c.isFalse || c.equations.contains e || (c.guarded && c.buffer.contains e) then c
  else if c.guarded then
    { c with buffer := c.buffer.insert e, normal := false, truth := .unknown }
  else { c with equations := c.equations.insert e, normal := false, truth := .unknown }

/-- The constraint with an equation put in, split and evaluated. -/
def insert (T : Theory) (c : Constraint) (e : Equation) : Constraint :=
  (T.obligations e).foldl insertEquation c

/-- The constraint with several equations put in. -/
def insertAll (T : Theory) (c : Constraint) (es : List Equation) : Constraint :=
  es.foldl (insert T) c

/-- The constraint with disjunctions added. -/
def addPending (c : Constraint) (disjunctions : List (List Constraint)) : Constraint :=
  if disjunctions.isEmpty then c
  else { c with pending := c.pending ++ disjunctions, normal := false, truth := .unknown }

/-- The bindings of the store as equations. -/
def bindingEquations (c : Constraint) : List Equation :=
  c.store.toList.map fun b => ⟨.var b.1, b.2⟩

/-- The equations that the bindings and equations of a constraint give to
another one. -/
def content (T : Theory) (c : Constraint) : List Equation :=
  c.bindingEquations.flatMap T.obligations ++ c.equations.toList

/-- The constraint with another one put in. -/
def conjoin (T : Theory) (c d : Constraint) : Constraint :=
  if c.isFalse then c
  else
    match d.contradiction with
    | some e => c.falsify e
    | none => ((d.content T).foldl insertEquation c).addPending d.pending

/-! ### Bindings -/

/-- The constraint with `x` bound to `t`. A binding that says nothing is
dropped, one that cannot hold makes the constraint false. -/
def bind (T : Theory) (c : Constraint) (x : Var) (t : Term) : Constraint :=
  if c.isFalse then c
  else
    match Equation.truth T.order ⟨.var x, t⟩ with
    | .true => { c with store := c.store.erase x }
    | .false => { c with store := c.store.insert x t }.falsify ⟨.var x, t⟩
    | .unknown => { c with store := c.store.insert x t }

/-- The constraint without the bindings of given variables; a binding whose
value does not fit the sort of its variable stays. -/
def removeBindings (T : Theory) (c : Constraint) (xs : List Var) : Constraint :=
  (xs.foldl (fun c x =>
    match c.store.find? x with
    | some t => if T.order.le t.sort x.sort then { c with store := c.store.erase x } else c
    | none => c) c).updateTruth

/-- The constraint with variables renamed in bindings and equations. -/
def rename (ρ : Var → Var) (c : Constraint) : Constraint :=
  { c with
    store := .ofList (c.store.toList.map fun b => (ρ b.1, b.2.rename ρ))
    equations := .ofList (c.equations.toList.map (·.map (Term.rename ρ))) }

/-- The equations with a ground side, as replacements of the other side by
that one, the latest first. -/
def groundFacts (c : Constraint) : Term.Table :=
  c.equations.toList.foldl (fun facts e =>
    let facts := if e.right.isGround then (e.left, e.right) :: facts else facts
    if e.left.isGround then (e.right, e.left) :: facts else facts) []

/-! ### Comparison -/

mutual

/-- Two constraints have the same truth value, bindings and equations in
whatever order, and the same disjunctions. -/
def same : Constraint → Constraint → Bool
  | ⟨E, _, σ, v, _, _, _, D⟩, d =>
    v = d.truth && σ.equiv d.store && E.equiv d.equations && sameDisjunctions D d.pending
  termination_by structural c => c

/-- Two lists of disjunctions are the same, one by one. -/
def sameDisjunctions : List (List Constraint) → List (List Constraint) → Bool
  | [], [] => true
  | C :: Cs, D :: Ds => sameAlternatives C D && sameDisjunctions Cs Ds
  | [], _ :: _ => false
  | _ :: _, [] => false
  termination_by structural Cs => Cs

/-- Two lists of alternatives are the same, one by one. -/
def sameAlternatives : List Constraint → List Constraint → Bool
  | [], [] => true
  | c :: cs, d :: ds => same c d && sameAlternatives cs ds
  | [], _ :: _ => false
  | _ :: _, [] => false
  termination_by structural cs => cs

end

/-! ### Text -/

mutual

/-- The text of a constraint: equations, bindings, then disjunctions. -/
def render : Constraint → String
  | ⟨E, _, σ, v, _, _, _, D⟩ =>
    let items := E.toList.map Equation.render ++
      σ.toList.map (fun b => b.1.name ++ " = " ++ b.2.render) ++ renderDisjunctions D
    if v = .false then "false"
    else if items.isEmpty then "true"
    else " /\\ ".intercalate items
  termination_by structural c => c

/-- The texts of disjunctions. -/
def renderDisjunctions : List (List Constraint) → List String
  | [] => []
  | C :: Cs =>
    ("(" ++ " \\/ ".intercalate (renderAlternatives C) ++ ")") :: renderDisjunctions Cs
  termination_by structural Cs => Cs

/-- The texts of alternatives, each in parentheses. -/
def renderAlternatives : List Constraint → List String
  | [] => []
  | c :: cs => ("(" ++ render c ++ ")") :: renderAlternatives cs
  termination_by structural cs => cs

end

end Constraint

end SolvedForm

/-
The normal form of constraints: solved equations become bindings.

* `Equation.binding?`: the binding that an equation can be read as. Of two
  variables the one of the more general sort is bound to the other.
* `Constraint.scan`: one pass over the equations under the current store, up
  to the first contradiction or the first binding.
* `Constraint.compose`: a new binding worked into the store. It refuses a
  variable that is bound already.
* `Constraint.renormalize`: passes until no equation can be read as a binding;
  each pass but the last uses up an equation, so there are only finitely many.
* `Constraint.normalize`, `Constraint.add` and its relatives. What waits in the
  buffer joins the equations first; a guarded constraint is left alone.
-/
import SolvedForm.Constraint.Basic

namespace SolvedForm

/-! ### Equations as bindings -/

/-- The variable of an equation and what it can be bound to. Between two
variables the one of more general sort is bound; under equal sorts the right
one if it is anonymous, otherwise the left one; under incomparable sorts
none. -/
def Equation.orient (order : SortOrder) : Equation → Option (Var × Term)
  | ⟨.var x, .var y⟩ =>
    match order.le x.sort y.sort, order.le y.sort x.sort with
    | true, true => if y.anonymous then some (y, .var x) else some (x, .var y)
    | false, true => some (x, .var y)
    | true, false => some (y, .var x)
    | false, false => none
  | ⟨.var x, t⟩ => some (x, t)
  | ⟨t, .var x⟩ => some (x, t)
  | _ => none

/-- The binding that an equation can be read as: its variable must not occur
in the value. -/
def Equation.binding? (order : SortOrder) (e : Equation) : Option (Var × Term) :=
  (e.orient order).filter fun b => !b.2.occurs b.1

namespace Constraint

/-! ### One pass over the equations -/

/-- How a pass over the equations ends. -/
inductive Pass where
  /-- No equation can be read as a binding. -/
  | settled (kept : EquationSet)
  /-- An equation, kept among the others, is false. -/
  | refuted (kept : EquationSet) (e : Equation)
  /-- An equation has been taken out to be a binding. -/
  | solved (kept : EquationSet) (x : Var) (t : Term)

/-- One pass over equations: each is instantiated, true ones are dropped, open
ones kept, and the first false one or the first binding ends the pass. -/
def scan (T : Theory) (store : Substitution) (kept : EquationSet) : List Equation → Pass
  | [] => .settled kept
  | e :: es =>
    let e := e.instantiate T.evaluate store
    match e.truth T.order with
    | .true => scan T store kept es
    | .false => .refuted ((kept.insert e).insertAll es) e
    | .unknown =>
      match e.binding? T.order with
      | some (x, t) => .solved (kept.insertAll es) x t
      | none => scan T store (kept.insert e) es

/-- A pass that finds a binding leaves fewer equations. -/
theorem size_lt_of_scan {T : Theory} {store : Substitution} {es : List Equation}
    {kept kept' : EquationSet} {x : Var} {t : Term}
    (h : scan T store kept es = .solved kept' x t) : kept'.size < kept.size + es.length := by
  induction es generalizing kept with
  | nil => simp [scan] at h
  | cons e es ih =>
    simp only [scan] at h
    split at h
    · have := ih h
      simp only [List.length_cons]
      omega
    · simp at h
    · split at h
      · injection h with hk
        have := EquationSet.size_insertAll_le kept es
        simp only [← hk, List.length_cons]
        omega
      · have := ih h
        have := EquationSet.size_insert_le kept (e.instantiate T.evaluate store)
        simp only [List.length_cons]
        omega

/-! ### Composition -/

/-- The constraint with a new binding worked into the values of the store and
then added. Values that change are evaluated and bound anew. -/
def compose (T : Theory) (c : Constraint) (x : Var) (t : Term) : Except Fault Constraint :=
  if c.store.contains x then .error (.boundTwice x)
  else
    let c := c.store.toList.foldl (fun c b =>
      match (Substitution.single x t).substitute? b.2 with
      | some u => c.bind T b.1 (T.evaluate u)
      | none => c) c
    .ok (if c.isFalse then c else { c with store := c.store.insert x t })

/-! ### The normal form -/

/-- Passes over the equations until none gives a binding. -/
def renormalize (T : Theory) (c : Constraint) : Except Fault Constraint :=
  match _pass : scan T c.store .empty c.equations.toList with
  | .settled kept => .ok { c with equations := kept }
  | .refuted kept e => .ok ({ c with equations := kept }.falsify e)
  | .solved kept x t =>
    match compose T c x t with
    | .error fault => .error fault
    | .ok d =>
      if d.isFalse then .ok { d with equations := kept }
      else renormalize T { d with equations := kept }
termination_by c.equations.size
decreasing_by
  have := size_lt_of_scan _pass
  simpa [EquationSet.size, EquationSet.empty] using this

/-- The constraint with the buffer emptied into the equations. -/
def drain (c : Constraint) : Constraint :=
  { c with equations := c.equations.insertAll c.buffer.toList, buffer := .empty }

/-- The constraint in normal form. -/
def normalize (T : Theory) (c : Constraint) : Except Fault Constraint :=
  if c.isFalse || c.normal || c.guarded then .ok c
  else (renormalize T { c with normal := true }.drain).map updateTruth

/-! ### Adding -/

/-- The constraint with equations added. -/
def addAll (T : Theory) (c : Constraint) (es : List Equation) : Except Fault Constraint :=
  (c.insertAll T es).normalize T

/-- The constraint with an equation added. -/
def add (T : Theory) (c : Constraint) (e : Equation) : Except Fault Constraint :=
  c.addAll T [e]

/-- The constraint with terms added that have to be true. -/
def addConditions (T : Theory) (c : Constraint) (ts : List Term) : Except Fault Constraint :=
  c.addAll T (ts.map fun t => ⟨t, .bool true⟩)

/-- The constraint with the bindings of a substitution added. -/
def addSubstitution (T : Theory) (c : Constraint) (σ : Substitution) : Except Fault Constraint :=
  c.addAll T (σ.toList.map fun b => ⟨.var b.1, b.2⟩)

/-- The conjunction of two constraints. -/
def addConstraint (T : Theory) (c d : Constraint) : Except Fault Constraint :=
  (c.conjoin T d).normalize T

/-- The constraint with subterms replaced along a table, variables of the
store included. -/
def replace (T : Theory) (table : Term.Table) (c : Constraint) : Except Fault Constraint :=
  match c.contradiction with
  | some e => .ok (empty.falsify e)
  | none =>
    let d := empty.insertAll T
      ((c.bindingEquations ++ c.equations.toList).map (·.map (Term.replace table)))
    normalize T { d with pending := c.pending, normal := false }

end Constraint

end SolvedForm

/-
The variables of a term, those in frame position included.

* `Term.anyVar`: some variable satisfies a test; `Term.occurs` and
  `Term.isGround` are its two uses.
* `Term.vars`: the occurrences from left to right.
* `Term.varSet`: the set of variables, in increasing order.
-/
import SolvedForm.Term.Order

namespace SolvedForm.Term

mutual

/-- Some variable of the term satisfies the test. -/
def anyVar (p : Var → Bool) : Term → Bool
  | .var x => p x
  | .bool _ => false
  | .int _ => false
  | .app _ args => anyVarArgs p args
  | .map entries frame => anyVarEntries p entries || frame.any p
  | .lookup m k => anyVar p m || anyVar p k
  termination_by structural t => t

/-- Some variable of the arguments satisfies the test. -/
def anyVarArgs (p : Var → Bool) : List Term → Bool
  | [] => false
  | t :: ts => anyVar p t || anyVarArgs p ts
  termination_by structural ts => ts

/-- Some variable of the entries satisfies the test. -/
def anyVarEntries (p : Var → Bool) : List Entry → Bool
  | [] => false
  | (k, v) :: es => anyVar p k || anyVar p v || anyVarEntries p es
  termination_by structural es => es

end

/-- The variable occurs in the term. -/
def occurs (x : Var) (t : Term) : Bool := t.anyVar (· = x)

/-- The term has no variable. -/
def isGround (t : Term) : Bool := !t.anyVar fun _ => true

mutual

/-- The occurrences of variables in a term, from left to right. -/
def vars : Term → List Var
  | .var x => [x]
  | .bool _ => []
  | .int _ => []
  | .app _ args => varsArgs args
  | .map entries frame => varsEntries entries ++ frame.toList
  | .lookup m k => vars m ++ vars k
  termination_by structural t => t

/-- The occurrences of variables in the arguments. -/
def varsArgs : List Term → List Var
  | [] => []
  | t :: ts => vars t ++ varsArgs ts
  termination_by structural ts => ts

/-- The occurrences of variables in the entries. -/
def varsEntries : List Entry → List Var
  | [] => []
  | (k, v) :: es => vars k ++ vars v ++ varsEntries es
  termination_by structural es => es

end

/-- The set of variables of a term. -/
def varSet (t : Term) : List Var := Sorted.ofList Var.compare t.vars

/-! ### The two readings agree -/

mutual

theorem anyVar_eq_any (p : Var → Bool) : ∀ t : Term, t.anyVar p = t.vars.any p
  | .var x => by simp [anyVar, vars]
  | .bool _ => rfl
  | .int _ => rfl
  | .app _ args => anyVarArgs_eq_any p args
  | .map entries frame => by
    cases frame <;> simp [anyVar, vars, anyVarEntries_eq_any p entries]
  | .lookup m k => by simp [anyVar, vars, anyVar_eq_any p m, anyVar_eq_any p k]
  termination_by structural t => t

theorem anyVarArgs_eq_any (p : Var → Bool) : ∀ ts, anyVarArgs p ts = (varsArgs ts).any p
  | [] => rfl
  | t :: ts => by
    simp [anyVarArgs, varsArgs, anyVar_eq_any p t, anyVarArgs_eq_any p ts]
  termination_by structural ts => ts

theorem anyVarEntries_eq_any (p : Var → Bool) :
    ∀ es, anyVarEntries p es = (varsEntries es).any p
  | [] => rfl
  | (k, v) :: es => by
    simp [anyVarEntries, varsEntries, anyVar_eq_any p k, anyVar_eq_any p v,
      anyVarEntries_eq_any p es, Bool.or_assoc]
  termination_by structural es => es

end

theorem occurs_iff {x : Var} {t : Term} : t.occurs x ↔ x ∈ t.vars := by
  simp [occurs, anyVar_eq_any]

theorem isGround_iff {t : Term} : t.isGround ↔ t.vars = [] := by
  cases h : t.vars <;> simp [isGround, anyVar_eq_any, h]

end SolvedForm.Term

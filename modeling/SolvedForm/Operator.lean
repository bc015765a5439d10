/-
The built-in operators and their labels.

* `Operator`: the connectives, equality, integer arithmetic and comparison,
  and the conditional.
* `Operator.label`, `Operator.ofLabel`: the label that names an operator in
  terms, and the operator that a label names.
* `Operator.resultSort`: the sort of an application; a conditional has none
  of its own.
-/
import SolvedForm.Subsort

namespace SolvedForm

/-- A function symbol with a fixed meaning. -/
inductive Operator where
  | conj | disj | neg | eq
  | add | sub | mul
  | lt | le | gt | ge
  | ite
  deriving DecidableEq

namespace Operator

/-- The label of an operator. -/
def label : Operator → String
  | conj => "_andBool_"
  | disj => "_orBool_"
  | neg => "notBool_"
  | eq => "_==K_"
  | add => "_+Int_"
  | sub => "_-Int_"
  | mul => "_*Int_"
  | lt => "_<Int_"
  | le => "_<=Int_"
  | gt => "_>Int_"
  | ge => "_>=Int_"
  | ite => "#if_#then_#else_#fi"

/-- All operators. -/
def all : List Operator :=
  [conj, disj, neg, eq, add, sub, mul, lt, le, gt, ge, ite]

/-- The operator with a given label. -/
def ofLabel (label : String) : Option Operator :=
  all.find? (·.label == label)

/-- The sort of an application of the operator, where the operator alone
determines it. -/
def resultSort : Operator → Option SortName
  | conj | disj | neg | eq | lt | le | gt | ge => some .bool
  | add | sub | mul => some .int
  | ite => none

theorem ofLabel_label (o : Operator) : ofLabel o.label = some o := by
  cases o <;> decide

theorem label_of_ofLabel {s : String} {o : Operator} (h : ofLabel s = some o) :
    o.label = s := by
  simpa using List.find?_some h

end Operator

end SolvedForm

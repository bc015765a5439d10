/-
Evaluation of the built-in operators and of lookups.

* `Operator.reduce`: one step at the root of an application. Literal
  arithmetic that leaves the range of the literals is not carried out.
* `Term.reduceRoot`: one step at the root of a term; a lookup takes the first
  entry with the very key.
* `Term.evaluate`: from the leaves to the root, each root reduced at most
  once.
-/
import SolvedForm.Term.Shape

namespace SolvedForm

/-! ### One step at the root -/

/-- The literal for an integer within the range of the literals. -/
def Term.literal? (n : Int) : Option Term :=
  if Int64.minValue.toInt ≤ n ∧ n ≤ Int64.maxValue.toInt then some (.int (.ofInt n)) else none

namespace Operator

/-- The step of a conjunction. -/
def reduceConj : Term → Term → Option Term
  | .bool false, _ => some (.bool false)
  | _, .bool false => some (.bool false)
  | .bool true, b => some b
  | a, .bool true => some a
  | a, b => if a = b then some a else none

/-- The step of a disjunction. -/
def reduceDisj : Term → Term → Option Term
  | .bool true, _ => some (.bool true)
  | _, .bool true => some (.bool true)
  | .bool false, b => some b
  | a, .bool false => some a
  | a, b => if a = b then some a else none

/-- The step of a negation; a double negation cancels. -/
def reduceNeg : Term → Option Term
  | .bool b => some (.bool !b)
  | a => if a.applies .neg then a.args.head? else none

/-- The step of an equality test. -/
def reduceEq (a b : Term) : Option Term :=
  if a = b then some (.bool true)
  else if a.provablyDistinct b then some (.bool false)
  else none

/-- The step of an addition. -/
def reduceAdd : Term → Term → Option Term
  | .int i, .int j => Term.literal? (i.toInt + j.toInt)
  | .int i, b => if i = 0 then some b else none
  | a, .int j => if j = 0 then some a else none
  | _, _ => none

/-- The step of a subtraction. -/
def reduceSub : Term → Term → Option Term
  | .int i, .int j => Term.literal? (i.toInt - j.toInt)
  | a, b => if b = .int 0 then some a else if a = b then some (.int 0) else none

/-- The step of a multiplication. -/
def reduceMul : Term → Term → Option Term
  | .int i, .int j => Term.literal? (i.toInt * j.toInt)
  | .int i, b => if i = 0 then some (.int 0) else if i = 1 then some b else none
  | a, .int j => if j = 0 then some (.int 0) else if j = 1 then some a else none
  | _, _ => none

/-- The step of a comparison, given its outcome on two numbers and on equal
sides. -/
def reduceComparison (outcome : Int → Int → Bool) (reflexive : Bool) : Term → Term → Option Term
  | .int i, .int j => some (.bool (outcome i.toInt j.toInt))
  | a, b => if a = b then some (.bool reflexive) else none

/-- The step of a conditional. -/
def reduceIte : Term → Term → Term → Option Term
  | .bool true, a, _ => some a
  | .bool false, _, b => some b
  | _, a, b => if a = b then some a else none

/-- The step of an operator at the usual number of arguments. -/
def reduce : Operator → List Term → Option Term
  | conj, [a, b] => reduceConj a b
  | disj, [a, b] => reduceDisj a b
  | neg, [a] => reduceNeg a
  | eq, [a, b] => reduceEq a b
  | add, [a, b] => reduceAdd a b
  | sub, [a, b] => reduceSub a b
  | mul, [a, b] => reduceMul a b
  | lt, [a, b] => reduceComparison (fun i j => i < j) false a b
  | le, [a, b] => reduceComparison (fun i j => i ≤ j) true a b
  | gt, [a, b] => reduceComparison (fun i j => i > j) false a b
  | ge, [a, b] => reduceComparison (fun i j => i ≥ j) true a b
  | ite, [c, a, b] => reduceIte c a b
  | _, _ => none

end Operator

namespace Term

/-- The value of the first entry with the very key. -/
def valueAt (key : Term) (entries : List Entry) : Option Term :=
  List.lookup key entries

/-- The step at the root of a term. -/
def reduceRoot : Term → Option Term
  | .app f args =>
    if f.isConstructor then none
    else (Operator.ofLabel f.name).bind fun o => o.reduce args
  | .lookup (.map entries _) k => valueAt k entries
  | _ => none

/-! ### Evaluation -/

/-- The value of a term as far as the built-in operators determine it. -/
def evaluate (t : Term) : Term :=
  t.rewrite (fun _ => none) fun u => u.reduceRoot.getD u

end Term

end SolvedForm

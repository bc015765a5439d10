/-
What can be read off the outer shape of a term.

* `Term.sort`: the sort of a term; a conditional without a result sort has
  that of its first branch, and an application without one has the top sort.
* `Term.Head`, `Term.head`: what a term shows of its value whatever its
  variables stand for; `Term.headsClash` compares two heads.
* `Term.provablyDistinct`: two terms can never have the same value.
* `Term.asConj`, `Term.asConditional`: views of a conjunction and of a
  conditional; `Term.innermostConditional` and `Term.hasLookup` search for a
  subterm.
-/
import SolvedForm.Operator
import SolvedForm.Term.Rewrite

namespace SolvedForm.Term

/-! ### Applications -/

/-- The arguments of an application; other terms have none. -/
def args : Term → List Term
  | .app _ args => args
  | _ => []

/-- The name of the symbol of an application. -/
def rootSymbol : Term → Option String
  | .app f _ => some f.name
  | _ => none

/-- The variable that the term is. -/
def asVar : Term → Option Var
  | .var x => some x
  | _ => none

/-- The term applies the function with a given label. -/
def appliesLabel (label : String) : Term → Bool
  | .app f _ => !f.isConstructor && f.name == label
  | _ => false

/-- The term applies the operator, to any number of arguments. -/
def applies (o : Operator) (t : Term) : Bool := t.appliesLabel o.label

/-- The application of an operator, under its own result sort. -/
def ofOperator (o : Operator) (args : List Term) : Term :=
  .app ⟨o.label, args.length, o.resultSort, .function⟩ args

/-- The two members of a conjunction. -/
def asConj (t : Term) : Option (Term × Term) :=
  match t with
  | .app _ [a, b] => if t.applies .conj then some (a, b) else none
  | _ => none

/-- Condition and branches of a conditional. -/
def asConditional (t : Term) : Option (Term × Term × Term) :=
  match t with
  | .app _ [c, a, b] => if t.applies .ite then some (c, a, b) else none
  | _ => none

mutual

/-- The first conditional without a conditional inside, from left to
right. -/
def innermostConditional : Term → Option Term
  | .var _ => none
  | .bool _ => none
  | .int _ => none
  | .app f args =>
    (innermostConditionalArgs args).or <|
      if (asConditional (.app f args)).isSome then some (.app f args) else none
  | .map entries _ => innermostConditionalEntries entries
  | .lookup m k => (innermostConditional m).or (innermostConditional k)
  termination_by structural t => t

/-- The first innermost conditional among the arguments. -/
def innermostConditionalArgs : List Term → Option Term
  | [] => none
  | t :: ts => (innermostConditional t).or (innermostConditionalArgs ts)
  termination_by structural ts => ts

/-- The first innermost conditional among the entries. -/
def innermostConditionalEntries : List Entry → Option Term
  | [] => none
  | (k, v) :: es =>
    (innermostConditional k).or <| (innermostConditional v).or <|
      innermostConditionalEntries es
  termination_by structural es => es

end

mutual

/-- The term contains a lookup. -/
def hasLookup : Term → Bool
  | .var _ => false
  | .bool _ => false
  | .int _ => false
  | .app _ args => hasLookupArgs args
  | .map entries _ => hasLookupEntries entries
  | .lookup _ _ => true
  termination_by structural t => t

/-- Some argument contains a lookup. -/
def hasLookupArgs : List Term → Bool
  | [] => false
  | t :: ts => hasLookup t || hasLookupArgs ts
  termination_by structural ts => ts

/-- Some key or value contains a lookup. -/
def hasLookupEntries : List Entry → Bool
  | [] => false
  | (k, v) :: es => hasLookup k || hasLookup v || hasLookupEntries es
  termination_by structural es => es

end

/-- The sort of a term. -/
def sort : Term → SortName
  | .var x => x.sort
  | .bool _ => .bool
  | .int _ => .int
  | .app f [c, a, b] =>
    match f.resultSort with
    | some s => s
    | none => if (Term.app f [c, a, b]).applies .ite then a.sort else .top
  | .app f _ => f.resultSort.getD .top
  | .map _ _ => .map
  | .lookup _ _ => .top

/-! ### Heads and distinctness -/

/-- The number of entries of a map without frame. -/
def mapSize (entries : List Entry) : Option Var → Option Nat
  | none => some entries.length
  | some _ => none

/-- What a term shows of its value. -/
inductive Head where
  | bool (b : Bool)
  | int (i : Int64)
  | constructor (name : String) (arity : Nat)
  | map (size : Option Nat)
  deriving DecidableEq

/-- The head of a term; variables, functions and lookups have none. -/
def head : Term → Option Head
  | .bool b => some (.bool b)
  | .int i => some (.int i)
  | .app f _ => if f.isConstructor then some (.constructor f.name f.arity) else none
  | .map entries frame => some (.map (mapSize entries frame))
  | .var _ => none
  | .lookup _ _ => none

/-- Two heads never belong to the same value: different heads do not, except
that of two maps both sizes have to be known. -/
def Head.clash : Head → Head → Bool
  | .map (some m), .map (some n) => m != n
  | .map _, .map _ => false
  | a, b => a ≠ b

/-- The heads of two terms clash. -/
def headsClash (s t : Term) : Bool :=
  match s.head, t.head with
  | some a, some b => a.clash b
  | _, _ => false

mutual

/-- Two terms can never have the same value: their heads clash, or they are
constructor applications and some pair of arguments is distinct. -/
def provablyDistinct : Term → Term → Bool
  | .app f ss, .app g ts =>
    headsClash (.app f ss) (.app g ts) ||
      (f.isConstructor && g.isConstructor && someDistinct ss ts)
  | s, t => headsClash s t
  termination_by structural s => s

/-- Some argument is distinct from the argument at its place in the other
list. -/
def someDistinct : List Term → List Term → Bool
  | s :: ss, t :: ts => provablyDistinct s t || someDistinct ss ts
  | _, _ => false
  termination_by structural ss => ss

end

end SolvedForm.Term

/-
Constraints as scripts.

* `Untranslatable`: what has no counterpart in a script, and its text.
* `Translating`: translation keeps a list of declared variables; a variable is
  declared where it is first met, under a symbol that no other one has.
* `Script.ofConstraint`: the script that is satisfiable when the constraint
  is.
* `Script.ofImplication`: the script that is satisfiable when the implication
  fails. Variables to be chosen that the premise does not mention are
  quantified, all others are constants.
-/
import SolvedForm.Constraint.Basic
import SolvedForm.Solver.Script

namespace SolvedForm

/-- What has no counterpart in a script. -/
inductive Untranslatable where
  /-- A function that is not built in. -/
  | function (name : String)
  /-- A variable that is neither an integer nor a boolean. -/
  | sort (x : Var)
  /-- A variable whose name cannot be quoted. -/
  | name (x : Var)
  /-- A constructor application, a map or a lookup. -/
  | term (t : Term)

/-- The text of the failure. -/
def Untranslatable.message (e : Untranslatable) : String :=
  "cannot translate to SMT-LIB: " ++
    match e with
    | .function f => "function " ++ f
    | .sort x => x.name ++ " : " ++ x.sort.name
    | .name x => "variable name " ++ x.name
    | .term t => t.render

/-- Translations, which extend the declarations. -/
abbrev Translating := StateT (List Declaration) (Except Untranslatable)

namespace Translating

/-! ### Variables -/

/-- The counterpart of a sort. -/
def scriptSort (s : SortName) : Option ScriptSort :=
  if s = .int then some .int else if s = .bool then some .bool else none

/-- The symbols that a name may have, in the order of preference. -/
def candidate (name : String) : Nat → String
  | 0 => "|" ++ name ++ "|"
  | n + 1 => "|" ++ name ++ "~" ++ toString (n + 1) ++ "|"

/-- The first candidate that no declaration has taken. Candidates differ from
each other, so one more than there are declarations are enough. -/
def freeSymbol (declarations : List Declaration) (name : String) : String :=
  let candidates := (List.range (declarations.length + 1)).map (candidate name)
  let free (s : String) : Bool := !declarations.any fun d => d.symbol == s
  (candidates.find? free).getD (candidate name declarations.length)

/-- The symbol of a variable, which is declared where it is new. -/
def symbolOf (x : Var) : Translating Formula := do
  match scriptSort x.sort with
  | none => throw (.sort x)
  | some sort =>
    if x.name.contains '|' || x.name.contains '\\' then throw (.name x)
    let declarations ← get
    match declarations.find? (·.var = x) with
    | some d => return .symbol d.symbol
    | none =>
      let symbol := freeSymbol declarations x.name
      set (declarations ++ [⟨x, symbol, sort⟩])
      return .symbol symbol

/-! ### Terms -/

mutual

/-- The formula of a term. -/
def term : Term → Translating Formula
  | .var x => symbolOf x
  | .bool b => return .bool b
  | .int i => return .ofInt i.toInt
  | .app f args =>
    if f.isConstructor then throw (.term (.app f args))
    else
      match Operator.ofLabel f.name with
      | none => throw (.function f.name)
      | some o => do return .apply o (← terms args)
  | .map entries frame => throw (.term (.map entries frame))
  | .lookup m k => throw (.term (.lookup m k))
  termination_by structural t => t

/-- The formulas of several terms. -/
def terms : List Term → Translating (List Formula)
  | [] => return []
  | t :: ts => do
    let f ← term t
    let fs ← terms ts
    return f :: fs
  termination_by structural ts => ts

end

/-! ### Constraints -/

/-- The formula of an equation. -/
def equation (e : Equation) : Translating Formula := do
  let l ← term e.left
  let r ← term e.right
  return .apply .eq [l, r]

mutual

/-- The formula of a constraint: equations, bindings and disjunctions
together. -/
def constraint : Constraint → Translating Formula
  | ⟨E, _, σ, v, _, _, _, D⟩ =>
    if v = .false then return .bool false
    else do
      let es ← E.toList.mapM equation
      let bs ← σ.toList.mapM fun b => equation ⟨.var b.1, b.2⟩
      let ds ← disjunctions D
      return .join .conj true (es ++ bs ++ ds)
  termination_by structural c => c

/-- The formulas of disjunctions. -/
def disjunctions : List (List Constraint) → Translating (List Formula)
  | [] => return []
  | C :: Cs => do
    let f ← alternatives C
    let fs ← disjunctions Cs
    return .join .disj false f :: fs
  termination_by structural Cs => Cs

/-- The formulas of alternatives. -/
def alternatives : List Constraint → Translating (List Formula)
  | [] => return []
  | c :: cs => do
    let f ← constraint c
    let fs ← alternatives cs
    return f :: fs
  termination_by structural cs => cs

end

end Translating

namespace Script

/-- The script that asks whether the constraint can be satisfied. -/
def ofConstraint (c : Constraint) : Except Untranslatable Script := do
  let (f, declarations) ← (Translating.constraint c).run []
  return ⟨declarations, [f]⟩

/-- The script that asks whether the implication can fail. -/
def ofImplication (left right : Constraint) (only : List Var) : Except Untranslatable Script := do
  let (premise, shared) ← (Translating.constraint left).run []
  let (conclusion, declarations) ← (Translating.constraint right).run shared
  let chosen (d : Declaration) : Bool :=
    only.contains d.var && !shared.any (·.var = d.var)
  let binders := (declarations.filter chosen).map fun d => (d.symbol, d.sort)
  let claim := if binders.isEmpty then conclusion else .quantified binders conclusion
  return ⟨declarations.filter fun d => !chosen d, [premise, .apply .neg [claim]]⟩

end Script

end SolvedForm

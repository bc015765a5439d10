/-
Scripts for an external solver: formulas over integers and booleans in the
notation of SMT-LIB 2.

* `Formula`: symbols, literals, built-in operators and existential
  quantification.
* `Declaration`: the symbol and sort that stand for a variable.
* `Script`: declared constants and assertions, to be checked together;
  `Script.render` is the text, one command a line.
-/
import SolvedForm.Operator
import SolvedForm.Term.Basic

namespace SolvedForm

/-- The sorts that a script knows. -/
inductive ScriptSort where
  | int
  | bool
  deriving DecidableEq

/-- The name of a sort. -/
def ScriptSort.render : ScriptSort → String
  | int => "Int"
  | bool => "Bool"

/-- The name of an operator in a script. -/
def Operator.scriptName : Operator → String
  | conj => "and"
  | disj => "or"
  | neg => "not"
  | eq => "="
  | add => "+"
  | sub => "-"
  | mul => "*"
  | lt => "<"
  | le => "<="
  | gt => ">"
  | ge => ">="
  | ite => "ite"

/-- A formula or a term of a script. -/
inductive Formula where
  | symbol (name : String)
  | bool (b : Bool)
  | numeral (n : Nat)
  | apply (o : Operator) (args : List Formula)
  | quantified (binders : List (String × ScriptSort)) (body : Formula)

namespace Formula

/-- The literal for an integer; a negative one is the negation of its
absolute value. -/
def ofInt (i : Int) : Formula :=
  if i < 0 then .apply .sub [.numeral i.natAbs] else .numeral i.natAbs

/-- Formulas joined by a connective, the unit where there is none. -/
def join (o : Operator) (unit : Bool) : List Formula → Formula
  | [] => .bool unit
  | [f] => f
  | fs => .apply o fs

mutual

/-- The text of a formula. -/
def render : Formula → String
  | .symbol name => name
  | .bool b => if b then "true" else "false"
  | .numeral n => toString n
  | .apply o args => "(" ++ o.scriptName ++ " " ++ " ".intercalate (renderAll args) ++ ")"
  | .quantified binders body =>
    let parts := binders.map fun b => "(" ++ b.1 ++ " " ++ b.2.render ++ ")"
    "(exists (" ++ " ".intercalate parts ++ ") " ++ render body ++ ")"
  termination_by structural f => f

/-- The texts of several formulas. -/
def renderAll : List Formula → List String
  | [] => []
  | f :: fs => render f :: renderAll fs
  termination_by structural fs => fs

end

end Formula

/-- The symbol and the sort that stand for a variable. -/
structure Declaration where
  var : Var
  symbol : String
  sort : ScriptSort

/-- A script: constants, and assertions to be checked together. -/
structure Script where
  declarations : List Declaration
  assertions : List Formula

namespace Script

/-- The text of a script. -/
def render (s : Script) : String :=
  let declared := s.declarations.map fun d =>
    "(declare-const " ++ d.symbol ++ " " ++ d.sort.render ++ ")\n"
  let asserted := s.assertions.map fun f => "(assert " ++ f.render ++ ")\n"
  String.join (declared ++ asserted) ++ "(check-sat)\n"

end Script

end SolvedForm

/-
The text of a term.

* `Term.render`: variables and constants by name, applications in parentheses
  with the symbol in front, maps in braces with the frame last, lookups with
  the key in brackets.
-/
import SolvedForm.Term.Basic

namespace SolvedForm.Term

mutual

/-- The text of a term. -/
def render : Term → String
  | .var x => x.name
  | .bool b => if b then "true" else "false"
  | .int i => toString i.toInt
  | .app f [] => f.name
  | .app f (t :: ts) => "(" ++ f.name ++ renderArgs (t :: ts) ++ ")"
  | .map [] none => ".Map"
  | .map entries frame =>
    "\x7b" ++ ", ".intercalate
      (renderEntries entries ++ (frame.map fun x => ".." ++ x.name).toList) ++ "\x7d"
  | .lookup m k => render m ++ "[" ++ render k ++ "]"
  termination_by structural t => t

/-- The text of the arguments, each after a blank. -/
def renderArgs : List Term → String
  | [] => ""
  | t :: ts => " " ++ render t ++ renderArgs ts
  termination_by structural ts => ts

/-- The texts of the entries. -/
def renderEntries : List Entry → List String
  | [] => []
  | (k, v) :: es => (render k ++ " |-> " ++ render v) :: renderEntries es
  termination_by structural es => es

end

end SolvedForm.Term

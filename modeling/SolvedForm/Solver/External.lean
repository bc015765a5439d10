/-
A solver that writes scripts and reads what another program prints.

* `Verdict`: what such a program can say of a script.
* `Verdict.ofOutput`: the first line that is a verdict, blank ends aside.
* `Solver.external`: a question is answered true when the script is reported
  unsatisfiable. What cannot be translated or run is left undecided.
-/
import SolvedForm.Solver.Basic
import SolvedForm.Solver.Translation
import SolvedForm.Text.Blank

namespace SolvedForm

/-- What a solver can say of a script. -/
inductive Verdict where
  | sat
  | unsat
  | unknown
  deriving DecidableEq

namespace Verdict

/-- The verdict that a line is, if any. -/
def ofLine (line : List Char) : Option Verdict :=
  match String.ofList (Text.trim line) with
  | "unsat" => some unsat
  | "sat" => some sat
  | "unknown" => some unknown
  | "timeout" => some unknown
  | _ => none

/-- The first verdict among the lines of an output. -/
def ofOutput (output : String) : Option Verdict :=
  (Text.lines output.toList).findSome? ofLine

end Verdict

namespace Solver

/-- The script is reported unsatisfiable. -/
def reportedUnsat (run : Script → (limit : Nat) → Option String) (limit : Nat)
    (script : Except Untranslatable Script) : Bool :=
  match script with
  | .error _ => false
  | .ok s => ((run s limit).bind Verdict.ofOutput) = some .unsat

/-- The solver behind a program that gives the output on a script, if it can
be run. -/
def external {σ : Type} (run : Script → (limit : Nat) → Option String) : Solver σ where
  refutes c limit := pure (reportedUnsat run limit (Script.ofConstraint c))
  proves left right only limit :=
    pure (reportedUnsat run limit (Script.ofImplication left right only))

end Solver

end SolvedForm

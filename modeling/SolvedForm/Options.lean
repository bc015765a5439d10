/-
The options of the engine and their JSON form.

* `Options`: the solver to ask, the path of its program, time limits in
  milliseconds, and whether progress is reported.
* `Options.ofJson`: an object whose members replace defaults, unknown ones
  being ignored, or a list of values in the order of the fields.
* `Options.read`: the options of a document.
-/
import SolvedForm.Constraint.Implication
import SolvedForm.Json

namespace SolvedForm

/-- The decision procedure for what simplification leaves open. -/
inductive Backend where
  | none
  | z3
  deriving DecidableEq

/-- The name of a backend. -/
def Backend.render : Backend → String
  | none => "none"
  | z3 => "z3"

/-- The options of the engine. -/
structure Options where
  backend : Backend := .none
  path : Option String := Option.none
  limits : TimeLimits := {}
  debug : Bool := false

namespace Options

/-- The fields, in the order of the list form. -/
inductive Field where
  | backend
  | path
  | constraintLimit
  | implicationLimit
  | debug
  deriving DecidableEq

/-- All fields in order. -/
def fields : List Field := [.backend, .path, .constraintLimit, .implicationLimit, .debug]

/-- The member that holds a field. -/
def Field.key : Field → String
  | backend => "smt"
  | path => "z3_path"
  | constraintLimit => "constraint_timeout_ms"
  | implicationLimit => "implication_timeout_ms"
  | debug => "debug"

/-- The backend with a given name. -/
def backendOfName : String → Option Backend
  | "none" => some .none
  | "z3" => some .z3
  | _ => Option.none

/-- A backend is given by its name, or by an object with its name as the only
member, of value null. -/
def backendOfJson : Json → Option Backend
  | .text (some s) => backendOfName s
  | .object [(some s, .null)] => backendOfName s
  | _ => Option.none

/-- A path is a text or null. -/
def pathOfJson : Json → Option (Option String)
  | .null => some Option.none
  | .text (some s) => some (some s)
  | _ => Option.none

/-- A time limit is a number of 64 bits, written as digits alone. -/
def limitOfJson : Json → Option Nat
  | .nat n => if n < UInt64.size then some n else Option.none
  | _ => Option.none

/-- The options with one field set to a value of its type. -/
def set (o : Options) (field : Field) (v : Json) : Option Options :=
  match field with
  | .backend => (backendOfJson v).map fun b => { o with backend := b }
  | .path => (pathOfJson v).map fun p => { o with path := p }
  | .constraintLimit =>
    (limitOfJson v).map fun n => { o with limits := { o.limits with constraint := n } }
  | .implicationLimit =>
    (limitOfJson v).map fun n => { o with limits := { o.limits with implication := n } }
  | .debug =>
    match v with
    | .bool b => some { o with debug := b }
    | _ => Option.none

/-- The options with the members of an object set, no field twice. -/
def setMembers (o : Options) (done : List Field) : List (Option String × Json) → Option Options
  | [] => some o
  | (Option.none, _) :: _ => Option.none
  | (some key, v) :: ms =>
    match fields.find? (·.key == key) with
    | Option.none => setMembers o done ms
    | some field =>
      if done.contains field then Option.none
      else (o.set field v).bind fun o => setMembers o (field :: done) ms

/-- The options with the first fields set to the items of a list. -/
def setItems (o : Options) : List Field → List Json → Option Options
  | _, [] => some o
  | [], _ :: _ => Option.none
  | field :: rest, v :: vs => (o.set field v).bind fun o => setItems o rest vs

/-- The options of a JSON value. -/
def ofJson : Json → Option Options
  | .object members => setMembers {} [] members
  | .list items => setItems {} fields items
  | _ => Option.none

/-- The options of a document. -/
def read (document : String) : Option Options := (Json.read document).bind ofJson

end Options

end SolvedForm

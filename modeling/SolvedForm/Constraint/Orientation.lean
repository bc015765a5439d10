/-
Orientation: chosen variables become keys of the store instead of values.

* `Orientation.flips`: which bindings turn round. A binding of a plain
  variable `x` to a target `y` becomes one of `y` to `x`; where `x` is a target
  as well, another key of `y` that is no target represents both.
* `Constraint.orientInPlace`, `Constraint.orient`: the store rebuilt along the
  flips, the equations following; it fails when a target has no representative.
* `Constraint.isMatching`: after orientation the store is a match of given
  variables, each by a value of its sort and size.
-/
import SolvedForm.Constraint.NormalForm

namespace SolvedForm

/-- A target for which there is no representative outside the targets. -/
structure OrientationFailure where
  var : Var
  deriving DecidableEq

/-- The text of the failure. -/
def OrientationFailure.message (failure : OrientationFailure) : String :=
  "cannot orient substitution: no representative for " ++ failure.var.name ++
    " outside the target variables"

namespace Orientation

/-- The turned bindings, and the keys whose old bindings they replace. -/
structure Flips where
  bindings : Substitution
  removed : List Var

/-- The first key bound to `y` that is no target. -/
def representative (targets : List Var) (store : Substitution) (y : Var) : Option Var :=
  (store.toList.find? fun b => b.2 = .var y && !targets.contains b.1).map (·.1)

/-- What the binding of `x` to `t` contributes to the flips. -/
def flip (targets : List Var) (store : Substitution) (flips : Flips) (x : Var) (t : Term) :
    Except OrientationFailure Flips :=
  match t with
  | .var y =>
    if !targets.contains y || flips.bindings.contains y then .ok flips
    else if targets.contains x then
      match representative targets store y with
      | none => .error ⟨y⟩
      | some z =>
        .ok ⟨(flips.bindings.insert x (.var z)).insert y (.var z), x :: z :: flips.removed⟩
    else .ok ⟨flips.bindings.insert y (.var x), x :: flips.removed⟩
  | _ => .ok flips

/-- The flips of a store over given targets. -/
def flips (targets : List Var) (store : Substitution) : Except OrientationFailure Flips :=
  store.toList.foldlM (fun flips b => flip targets store flips b.1 b.2) ⟨.empty, []⟩

/-- The bindings of a store after the flips: the turned ones first, then those
that stay, all values following the flips. -/
def Flips.apply (flips : Flips) (store : Substitution) : List (Var × Term) :=
  let kept := store.toList.filter fun b =>
    !flips.removed.contains b.1 && !flips.bindings.contains b.1
  (flips.bindings.toList ++ kept).map fun b => (b.1, flips.bindings.apply b.2)

end Orientation

namespace Constraint

/-- The targets become keys of the store wherever they were values. All turns
are found before anything is written, and a target without a representative
stops the search for them. -/
def orientInPlace (T : Theory) (targets : List Var) :
    StateT Constraint (Except Fault) (Except OrientationFailure Unit) := do
  let c ← get
  if c.isFalse || targets.all c.store.contains then return .ok ()
  match Orientation.flips targets c.store with
  | .error failure => return .error failure
  | .ok flips =>
    modify fun c => { c with store := .empty }
    (flips.apply c.store).forM fun b => modify fun c => c.bind T b.1 b.2
    modify fun c => { c with normal := false }
    set (← normalize T (← get))
    return .ok ()

/-- The constraint with the targets as keys of the store wherever they were
values. -/
def orient (T : Theory) (targets : List Var) (c : Constraint) :
    Except Fault (Except OrientationFailure Constraint) := do
  let (answer, d) ← (orientInPlace T targets).run c
  return answer.map fun _ => d

/-- A sized variable takes values of its very size only. -/
def fitsSize (x : Var) (t : Term) : Bool :=
  match x.size with
  | none => true
  | some n =>
    match t with
    | .var y => y.size = some n
    | .map entries frame => Term.mapSize entries frame = some n
    | _ => false

/-- The binding of `x` to `t` is a match: no open lookup, no sort above that of
`x`, and the size that `x` asks for. -/
def isMatch (T : Theory) (x : Var) (t : Term) : Bool :=
  (match t with | .lookup _ _ => false | _ => true) &&
    T.order.le t.sort x.sort && fitsSize x t

/-- The store binds exactly the given variables, each by a match. -/
def matchesExactly (T : Theory) (xs : List Var) (c : Constraint) : Bool :=
  c.isSubstitution && c.store.keys.all xs.contains && xs.all c.store.contains &&
    c.store.toList.all fun b => isMatch T b.1 b.2

/-- Whether the constraint, once oriented over the variables, matches exactly
them; the oriented constraint comes along. -/
def isMatching (T : Theory) (xs : List Var) (c : Constraint) :
    Except Fault (Except OrientationFailure (Bool × Constraint)) := do
  match ← c.orient T xs with
  | .error failure => return .error failure
  | .ok d => return .ok (d.matchesExactly T xs, d)

end Constraint

end SolvedForm

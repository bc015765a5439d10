/-
Structural unification: an equation between two terms is decomposed into
simpler ones.

* `Decomposition.occursRigidly`: a variable occurs in a term beneath
  constructors and maps only, so it cannot equal the term.
* `Decomposition.Progress`: the equations gathered so far, the alternatives if
  some map equation has been folded, and the next number for a variable.
* `Decomposition.decompose`: constructors are decomposed from left to right,
  maps entry by entry where the keys are the same; what is left over goes to
  the frames (`settleRest`) unless its keys may still coincide
  (`settleAmbiguous`).
* `Unifier.structural`: the unifier over a sort order.
-/
import SolvedForm.Unification.Pairing

namespace SolvedForm

namespace Decomposition

/-! ### Rigid occurrence -/

mutual

/-- The variable occurs in the term beneath constructors and maps only; as
the frame of a map only where the map has an entry. -/
def occursRigidly (x : Var) : Term → Bool
  | .var y => y = x
  | .bool _ => false
  | .int _ => false
  | .app f args => f.isConstructor && occursRigidlyArgs x args
  | .map entries frame =>
    occursRigidlyEntries x entries || (!entries.isEmpty && frame = some x)
  | .lookup _ _ => false
  termination_by structural t => t

/-- The variable occurs rigidly in some argument. -/
def occursRigidlyArgs (x : Var) : List Term → Bool
  | [] => false
  | t :: ts => occursRigidly x t || occursRigidlyArgs x ts
  termination_by structural ts => ts

/-- The variable occurs rigidly in some key or value. -/
def occursRigidlyEntries (x : Var) : List Entry → Bool
  | [] => false
  | (k, v) :: es => occursRigidly x k || occursRigidly x v || occursRigidlyEntries x es
  termination_by structural es => es

end

/-! ### Progress of a decomposition -/

/-- What a decomposition has found so far. -/
structure Progress where
  /-- The equations that remain, oldest first. -/
  equations : List Equation
  /-- The alternatives of the folded map equation, once there is one. -/
  alternatives : Option (List (List Equation))
  /-- The number of the next fresh variable. -/
  supply : Nat

/-- A failed decomposition, with the number of the next fresh variable. -/
structure Stuck where
  failure : Unification.Failure
  supply : Nat

/-- The progress with some equations more. -/
def Progress.push (p : Progress) (es : List Equation) : Progress :=
  { p with equations := p.equations ++ es }

/-- The decomposition fails here. -/
def Progress.fail (p : Progress) (failure : Unification.Failure) : Except Stuck Progress :=
  .error ⟨failure, p.supply⟩

/-- The answer that the progress amounts to. -/
def Progress.answer (p : Progress) : Unification :=
  match p.alternatives with
  | none => .unique p.equations
  | some alternatives => .disjunction p.equations alternatives

/-! ### Equations that are not decomposed further -/

/-- An equation whose one side is the variable `x` and whose other side is
`other` remains unless it cannot hold. -/
def equateVar (order : SortOrder) (x : Var) (other : Term) (e : Equation) (p : Progress) :
    Except Stuck Progress :=
  if !order.compatible x.sort other.sort then p.fail (.sortClash e.left e.right)
  else if occursRigidly x other then p.fail (.occursCheck x other)
  else .ok (p.push [e])

/-- An equation without decomposition remains unless its heads clash. -/
def keep (e : Equation) (p : Progress) : Except Stuck Progress :=
  if e.left.headsClash e.right then p.fail (.symbolClash e.left e.right)
  else .ok (p.push [e])

/-! ### The entries left over between two maps -/

/-- The entries whose keys the other list does not have. -/
def leftover (es fs : List Entry) : List Entry :=
  es.filter fun e => !fs.any (·.1 = e.1)

/-- Some key of the one list may coincide with a key of the other. -/
def ambiguous (es fs : List Entry) : Bool :=
  es.any fun e => fs.any fun f => !e.1.provablyDistinct f.1

/-- The leftover entries of two maps when keys may coincide: the equation
between the maps of leftovers remains, unless it may be folded and has few
pairings. -/
def settleAmbiguous (fold : Bool) (right : Term) (restL : List Entry) (frameL : Option Var)
    (restR : List Entry) (frameR : Option Var) (p : Progress) : Except Stuck Progress :=
  let residual : Equation := ⟨.ofEntries restL frameL, .ofEntries restR frameR⟩
  let foldable := fold && p.alternatives.isNone && frameL.isNone && frameR.isNone &&
    restL.length == restR.length
  if !foldable then .ok (p.push [residual])
  else
    match Pairing.search restL restR with
    | (false, _) => .ok (p.push [residual])
    | (true, s) =>
      match s.found with
      | [] => p.fail (.missingEntry ((restL.map (·.1)).headD right) right)
      | [only] => .ok (p.push only)
      | pairings => .ok { p with alternatives := some pairings }

/-- The leftover entries of two maps when no keys can coincide: each goes to
the frame of the other map. Two different frames with leftovers on both sides
share a fresh one. -/
def settleRest (order : SortOrder) (left right : Term) (restL : List Entry)
    (frameL : Option Var) (restR : List Entry) (frameR : Option Var) (p : Progress) :
    Except Stuck Progress :=
  match frameL, frameR with
  | none, none =>
    match restL, restR with
    | e :: _, _ => p.fail (.missingEntry e.1 right)
    | [], f :: _ => p.fail (.missingEntry f.1 left)
    | [], [] => .ok p
  | some x, none =>
    match restL with
    | e :: _ => p.fail (.missingEntry e.1 right)
    | [] =>
      let rest := Term.ofEntries restR none
      equateVar order x rest ⟨.var x, rest⟩ p
  | none, some y =>
    match restR with
    | f :: _ => p.fail (.missingEntry f.1 left)
    | [] =>
      let rest := Term.ofEntries restL none
      equateVar order y rest ⟨rest, .var y⟩ p
  | some x, some y =>
    if x = y then
      match restL, restR with
      | e :: _, _ => p.fail (.missingEntry e.1 right)
      | [], f :: _ => p.fail (.missingEntry f.1 left)
      | [], [] => .ok p
    else
      match restL, restR with
      | [], [] => equateVar order x (.var y) ⟨.var x, .var y⟩ p
      | [], _ :: _ =>
        let rest := Term.ofEntries restR (some y)
        equateVar order x rest ⟨.var x, rest⟩ p
      | _ :: _, [] =>
        let rest := Term.ofEntries restL (some x)
        equateVar order y rest ⟨rest, .var y⟩ p
      | _ :: _, _ :: _ =>
        let z := Var.fresh p.supply .map
        let restL := Term.ofEntries restL (some z)
        let restR := Term.ofEntries restR (some z)
        do
          let p ← equateVar order x restR ⟨.var x, restR⟩ { p with supply := p.supply + 1 }
          equateVar order y restL ⟨restL, .var y⟩ p

/-- The leftover entries of two maps. -/
def settle (order : SortOrder) (fold : Bool) (left right : Term) (restL : List Entry)
    (frameL : Option Var) (restR : List Entry) (frameR : Option Var) (p : Progress) :
    Except Stuck Progress :=
  if ambiguous restL restR then settleAmbiguous fold right restL frameL restR frameR p
  else settleRest order left right restL frameL restR frameR p

/-- The sizes of two maps are known and differ. -/
def sizesDiffer (es : List Entry) (x : Option Var) (fs : List Entry) (y : Option Var) : Bool :=
  x.isNone && y.isNone && es.length != fs.length

/-! ### Decomposition -/

mutual

/-- The decomposition of the equation between two terms. -/
def decompose (order : SortOrder) (fold : Bool) (s t : Term) (p : Progress) :
    Except Stuck Progress :=
  if s = t then .ok p
  else
    match s, t with
    | .var x, t => equateVar order x t ⟨.var x, t⟩ p
    | s, .var y => equateVar order y s ⟨s, .var y⟩ p
    | .app f ss, .app g ts =>
      if f.isConstructor && g.isConstructor then
        if f.name ≠ g.name || ss.length ≠ ts.length then
          p.fail (.symbolClash (.app f ss) (.app g ts))
        else decomposeArgs order fold ss ts p
      else keep ⟨.app f ss, .app g ts⟩ p
    | .map es x, .map fs y =>
      if sizesDiffer es x fs y then p.fail (.symbolClash (.map es x) (.map fs y))
      else do
        let p ← decomposeEntries order fold es fs p
        settle order fold (.map es x) (.map fs y) (leftover es fs) x (leftover fs es) y p
    | s, t => keep ⟨s, t⟩ p
  termination_by structural s

/-- The decomposition of the equations between arguments at the same
place. -/
def decomposeArgs (order : SortOrder) (fold : Bool) :
    List Term → List Term → Progress → Except Stuck Progress
  | s :: ss, t :: ts, p => do
    let p ← decompose order fold s t p
    decomposeArgs order fold ss ts p
  | _, _, p => .ok p
  termination_by structural ss => ss

/-- The decomposition of the equations between values under the same key. -/
def decomposeEntries (order : SortOrder) (fold : Bool) :
    List Entry → List Entry → Progress → Except Stuck Progress
  | [], _, p => .ok p
  | (k, v) :: es, fs, p => do
    let p ← match List.lookup k fs with
      | some w => decompose order fold v w p
      | none => .ok p
    decomposeEntries order fold es fs p
  termination_by structural es => es

end

end Decomposition

/-- Structural unification over a sort order. -/
def Unifier.structural (order : SortOrder) : Unifier := fun fold e supply =>
  match Decomposition.decompose order fold e.left e.right ⟨[], none, supply⟩ with
  | .ok p => (.ok p.answer, p.supply)
  | .error stuck => (.error stuck.failure, stuck.supply)

end SolvedForm

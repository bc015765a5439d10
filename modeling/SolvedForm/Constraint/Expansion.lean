/-
Expansion of lookups by what a constraint knows.

* `Expansion`: a term and the equations under which it may stand for another.
* `Constraint.readLookup`: the value of one lookup. Map and key are read under
  the bindings and the ground facts. An entry with the very key gives the
  value; unless narrowing, so does the only entry of a frameless map that can
  have the key, under the condition that it has.
* `Constraint.expand?`: all lookups of a term, innermost first.
* `Constraint.expandAndSimplify`: expansion of all bindings and equations, and
  simplification, until no lookup expands any more.
-/
import SolvedForm.Constraint.Simplification

namespace SolvedForm

/-- A term with the equations under which it stands for another term. -/
structure Expansion where
  term : Term
  conditions : List Equation

namespace Expansion

/-! ### One lookup -/

/-- The value of the lookup of `k` in `m`, once both have been read. -/
def ofLookup (narrowing : Bool) (m k : Term) : Option Expansion :=
  match m with
  | .map entries frame =>
    match Term.valueAt k entries with
    | some v => some ⟨v, []⟩
    | none =>
      if narrowing || frame.isSome then none
      else
        match entries.filter fun e => !e.1.provablyDistinct k with
        | [e] => some ⟨e.2, [⟨k, e.1⟩]⟩
        | _ => none
  | _ => none

/-! ### All lookups of a term -/

mutual

/-- The expansion of the lookups of a term, where `read` gives the map and the
key of a lookup their meaning. -/
def ofTerm (read : Term → Term) (narrowing : Bool) : Term → Expansion
  | .var x => ⟨.var x, []⟩
  | .bool b => ⟨.bool b, []⟩
  | .int i => ⟨.int i, []⟩
  | .app f args =>
    let r := ofArgs read narrowing args
    ⟨.app f r.1, r.2⟩
  | .map entries frame =>
    let r := ofEntries read narrowing entries
    ⟨.ofEntries r.1 frame, r.2⟩
  | .lookup m k =>
    let rm := ofTerm read narrowing m
    let rk := ofTerm read narrowing k
    let conditions := rm.conditions ++ rk.conditions
    match ofLookup narrowing (read rm.term) (read rk.term) with
    | some r => ⟨r.term, conditions ++ r.conditions⟩
    | none => ⟨.lookup rm.term rk.term, conditions⟩
  termination_by structural t => t

/-- The expansions of arguments, with all their conditions. -/
def ofArgs (read : Term → Term) (narrowing : Bool) : List Term → List Term × List Equation
  | [] => ([], [])
  | t :: ts =>
    let r := ofTerm read narrowing t
    let rs := ofArgs read narrowing ts
    (r.term :: rs.1, r.conditions ++ rs.2)
  termination_by structural ts => ts

/-- The expansions of entries, with all their conditions. -/
def ofEntries (read : Term → Term) (narrowing : Bool) :
    List Entry → List Entry × List Equation
  | [] => ([], [])
  | (k, v) :: es =>
    let rk := ofTerm read narrowing k
    let rv := ofTerm read narrowing v
    let rs := ofEntries read narrowing es
    ((rk.term, rv.term) :: rs.1, rk.conditions ++ rv.conditions ++ rs.2)
  termination_by structural es => es

end

end Expansion

namespace Constraint

/-- A term under the bindings and the ground facts of the constraint. -/
def read (T : Theory) (c : Constraint) (t : Term) : Term :=
  T.evaluate ((c.store.apply t).replace c.groundFacts)

/-- The expansion of a term, where some lookup in it expands. -/
def expand? (T : Theory) (c : Constraint) (narrowing : Bool) (t : Term) : Option Expansion :=
  if !t.hasLookup then none
  else
    let r := Expansion.ofTerm (c.read T) narrowing t
    if r.term = t then none else some r

/-! ### Expansion of a whole constraint -/

/-- A constraint in the course of expansion: the conditions gathered so far,
and whether some lookup has been expanded. -/
structure Expanding where
  constraint : Constraint
  conditions : List Equation := []
  changed : Bool := false

/-- The binding of `x` expanded, where there still is one. -/
def expandBinding (T : Theory) (narrowing : Bool) (s : Expanding) (x : Var) : Expanding :=
  match (s.constraint.store.find? x).bind (s.constraint.expand? T narrowing) with
  | some r =>
    ⟨s.constraint.bind T x (T.evaluate r.term), s.conditions ++ r.conditions, true⟩
  | none => s

/-- An equation expanded, with the conditions of both sides. -/
def expandEquation (T : Theory) (c : Constraint) (narrowing : Bool) (e : Equation) :
    Option (Equation × List Equation) :=
  match c.expand? T narrowing e.left, c.expand? T narrowing e.right with
  | none, none => none
  | some l, none => some (T.evaluated ⟨l.term, e.right⟩, l.conditions)
  | none, some r => some (T.evaluated ⟨e.left, r.term⟩, r.conditions)
  | some l, some r => some (T.evaluated ⟨l.term, r.term⟩, l.conditions ++ r.conditions)

/-- All equations expanded. -/
def expandEquations (T : Theory) (narrowing : Bool) (s : Expanding) : Expanding :=
  let c := s.constraint
  let rs := c.equations.toList.map fun e => (e, c.expandEquation T narrowing e)
  { constraint := { c with equations := .ofList (rs.map fun r => (r.2.map (·.1)).getD r.1) }
    conditions := s.conditions ++ rs.flatMap fun r => (r.2.map (·.2)).getD []
    changed := s.changed || rs.any (·.2.isSome) }

/-- The constraint with bindings and equations expanded once, and whether
anything was expanded. -/
def expandOnce (T : Theory) (narrowing : Bool) (c : Constraint) : Constraint × Bool :=
  let s := expandEquations T narrowing (c.store.keys.foldl (expandBinding T narrowing) ⟨c, [], false⟩)
  ({ s.constraint.insertAll T s.conditions with normal := false }.updateTruth, s.changed)

/-- Expansion and simplification in turn, `fuel` times at most. -/
def expandAndSimplifyNormal (T : Theory) (narrowing : Bool) :
    (fuel : Nat) → Constraint → Engine Constraint
  | 0, _ => throw .outOfFuel
  | fuel + 1, c => do
    if c.isFalse then return c
    let (d, changed) := c.expandOnce T narrowing
    let d ← d.simplify T fuel (!narrowing)
    if changed then expandAndSimplifyNormal T narrowing fuel d else return d

/-- Expansion and simplification until no lookup expands. When narrowing, only
entries with the very key are read and map equations are not folded. -/
def expandAndSimplify (T : Theory) (fuel : Nat) (narrowing : Bool) (c : Constraint) :
    Engine Constraint := do
  let c ← normalize T c
  c.expandAndSimplifyNormal T narrowing fuel

end Constraint

end SolvedForm

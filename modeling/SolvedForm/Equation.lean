/-
Equations between terms and sets of them.

* `Truth`: what is known of a statement.
* `Equation`, `Equation.truth`: an equation is true when its sides are the
  same term, false when their sorts are incompatible or the sides provably
  distinct, and open otherwise.
* `EquationSet`: equations without repetition, in insertion order.
-/
import SolvedForm.Term.Shape
import SolvedForm.Substitution

namespace SolvedForm

/-- What is known of a statement. -/
inductive Truth where
  | true
  | false
  | unknown
  deriving DecidableEq

/-- The word for a truth value. -/
def Truth.render : Truth → String
  | .true => "true"
  | .false => "false"
  | .unknown => "unknown"

/-! ### Equations -/

/-- An equation between two terms. -/
structure Equation where
  left : Term
  right : Term
  deriving DecidableEq

namespace Equation

/-- What the sides of an equation tell of its truth. -/
def truth (order : SortOrder) (e : Equation) : Truth :=
  if e.left = e.right then .true
  else if !order.compatible e.left.sort e.right.sort || e.left.provablyDistinct e.right then
    .false
  else .unknown

/-- The equation with both sides changed. -/
def map (f : Term → Term) (e : Equation) : Equation := ⟨f e.left, f e.right⟩

/-- The equation with the substitution applied; a side is evaluated again only
where the substitution touches it. -/
def instantiate (evaluate : Term → Term) (σ : Substitution) (e : Equation) : Equation :=
  e.map fun t => ((σ.substitute? t).map evaluate).getD t

/-- Both sides are maps. -/
def isMapEquation : Equation → Bool
  | ⟨.map _ _, .map _ _⟩ => true
  | _ => false

/-- The text of an equation. -/
def render (e : Equation) : String := e.left.render ++ " =? " ++ e.right.render

end Equation

/-! ### Sets of equations -/

/-- A set of equations. -/
structure EquationSet where
  /-- The equations, oldest first. -/
  toList : List Equation
  /-- No equation is listed twice. -/
  nodup : toList.Nodup
  deriving DecidableEq

namespace EquationSet

/-- The set without equations. -/
def empty : EquationSet := ⟨[], List.nodup_nil⟩

/-- The equation belongs to the set. -/
def contains (E : EquationSet) (e : Equation) : Bool := E.toList.contains e

/-- The number of equations. -/
def size (E : EquationSet) : Nat := E.toList.length

/-- There is no equation. -/
def isEmpty (E : EquationSet) : Bool := E.toList.isEmpty

/-- The set with one equation more, put at the end unless it is there. -/
def insert (E : EquationSet) (e : Equation) : EquationSet :=
  if h : e ∈ E.toList then E
  else ⟨E.toList ++ [e], by
    rw [List.nodup_append]
    exact ⟨E.nodup, by simp, by simp; intro a ha he; exact h (he ▸ ha)⟩⟩

/-- The set with the equations of a list inserted in order. -/
def insertAll (E : EquationSet) (es : List Equation) : EquationSet := es.foldl insert E

/-- The set of the equations of a list. -/
def ofList (es : List Equation) : EquationSet := empty.insertAll es

/-- The two sets have the same equations, in whatever order. -/
def equiv (E F : EquationSet) : Bool := E.size == F.size && E.toList.all F.contains

/-- Insertion adds the one equation and no other. -/
theorem mem_insert {E : EquationSet} {e q : Equation} :
    q ∈ (E.insert e).toList ↔ q ∈ E.toList ∨ q = e := by
  unfold insert
  split
  · next h => exact ⟨Or.inl, fun hq => hq.elim id fun hq => hq ▸ h⟩
  · simp

theorem mem_insertAll {E : EquationSet} {es : List Equation} {q : Equation} :
    q ∈ (E.insertAll es).toList ↔ q ∈ E.toList ∨ q ∈ es := by
  unfold insertAll
  induction es generalizing E with
  | nil => simp
  | cons e es ih => rw [List.foldl_cons, ih, mem_insert, List.mem_cons, or_assoc]

theorem mem_ofList {es : List Equation} {q : Equation} : q ∈ (ofList es).toList ↔ q ∈ es := by
  simp [ofList, mem_insertAll, empty]

theorem size_insert_le (E : EquationSet) (e : Equation) : (E.insert e).size ≤ E.size + 1 := by
  unfold insert size
  split <;> simp

theorem size_insertAll_le (E : EquationSet) (es : List Equation) :
    (E.insertAll es).size ≤ E.size + es.length := by
  unfold insertAll
  induction es generalizing E with
  | nil => simp
  | cons e es ih =>
    have h := size_insert_le E e
    have h' := ih (E.insert e)
    simp only [List.foldl_cons, List.length_cons]
    omega

end EquationSet

end SolvedForm

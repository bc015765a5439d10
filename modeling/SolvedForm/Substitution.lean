/-
Substitutions: finite maps from variables to terms, in insertion order.

* `Substitution`: bindings for pairwise different variables.
* `Substitution.insert`, `erase`, `find?`: binding a bound variable again keeps
  its place, and removing a binding keeps the order of the others.
* `Substitution.apply`, `Substitution.substitute?`: the substitution applied to
  a term, the latter only when some variable of the term is bound.
* `Substitution.comp`: `(σ.comp τ).apply` is `σ.apply` after `τ.apply`.
* `Substitution.isCyclic`: some bound variable occurs in some value.
* `Substitution.equiv`: the same bindings in any order.
-/
import SolvedForm.Term.Rewrite
import SolvedForm.Term.Render

namespace SolvedForm

/-- A substitution. -/
structure Substitution where
  /-- The bindings, oldest first. -/
  toList : List (Var × Term)
  /-- No variable is bound twice. -/
  nodup : (toList.map (·.1)).Nodup
  deriving DecidableEq

namespace Substitution

/-! ### Bindings -/

/-- The substitution that binds nothing. -/
def empty : Substitution := ⟨[], by simp⟩

/-- The bound variables, oldest first. -/
def keys (σ : Substitution) : List Var := σ.toList.map (·.1)

/-- The value of a variable. -/
def find? (σ : Substitution) (x : Var) : Option Term := σ.toList.lookup x

/-- The variable is bound. -/
def contains (σ : Substitution) (x : Var) : Bool := σ.keys.contains x

/-- The number of bindings. -/
def size (σ : Substitution) : Nat := σ.toList.length

/-- Nothing is bound. -/
def isEmpty (σ : Substitution) : Bool := σ.toList.isEmpty

/-- The list of bindings with `x` bound to `t`, at the old place of `x` or at
the end. -/
def insertList (x : Var) (t : Term) : List (Var × Term) → List (Var × Term)
  | [] => [(x, t)]
  | b :: bs => if b.1 = x then (x, t) :: bs else b :: insertList x t bs

theorem mem_keys_insertList {x y : Var} {t : Term} {bs : List (Var × Term)} :
    y ∈ (insertList x t bs).map (·.1) ↔ y = x ∨ y ∈ bs.map (·.1) := by
  induction bs with
  | nil => simp [insertList]
  | cons b bs ih =>
    unfold insertList
    split
    · next h => simp [h]
    · simp only [List.map_cons, List.mem_cons, ih]
      exact or_left_comm

theorem nodup_insertList (x : Var) (t : Term) {bs : List (Var × Term)}
    (h : (bs.map (·.1)).Nodup) : ((insertList x t bs).map (·.1)).Nodup := by
  induction bs with
  | nil => simp [insertList]
  | cons b bs ih =>
    rw [List.map_cons, List.nodup_cons] at h
    unfold insertList
    split
    · next hb => rw [List.map_cons, List.nodup_cons, ← hb]; exact h
    · next hb =>
      rw [List.map_cons, List.nodup_cons, mem_keys_insertList]
      exact ⟨fun he => he.elim hb h.1, ih h.2⟩

/-- The substitution with `x` bound to `t`. -/
def insert (σ : Substitution) (x : Var) (t : Term) : Substitution :=
  ⟨insertList x t σ.toList, nodup_insertList x t σ.nodup⟩

/-- The substitution without a binding of `x`. -/
def erase (σ : Substitution) (x : Var) : Substitution :=
  ⟨σ.toList.filter (·.1 ≠ x), σ.nodup.sublist (List.filter_sublist.map _)⟩

/-- The bindings of a list, made in order. -/
def ofList (bs : List (Var × Term)) : Substitution :=
  bs.foldl (fun σ b => σ.insert b.1 b.2) empty

/-- The substitution with a single binding. -/
def single (x : Var) (t : Term) : Substitution := empty.insert x t

/-- The bound variables in increasing order. -/
def domain (σ : Substitution) : List Var := Sorted.ofList Var.compare σ.keys

/-! ### The value of a variable after a change -/

theorem lookup_cons_ite (y : Var) (b : Var × Term) (bs : List (Var × Term)) :
    (b :: bs).lookup y = if y = b.1 then some b.2 else bs.lookup y := by
  rw [List.lookup_cons]
  by_cases h : y = b.1
  · simp [h]
  · simp [h, beq_eq_false_iff_ne.2 h]

/-- Exactly the keys have a value. -/
theorem find?_eq_none_iff {σ : Substitution} {x : Var} : σ.find? x = none ↔ x ∉ σ.keys := by
  unfold find? keys
  induction σ.toList with
  | nil => simp
  | cons b bs ih => by_cases h : x = b.1 <;> simp [lookup_cons_ite, h, ih]

theorem lookup_insertList (x y : Var) (t : Term) (bs : List (Var × Term)) :
    (insertList x t bs).lookup y = if y = x then some t else bs.lookup y := by
  induction bs with
  | nil => simp [insertList, lookup_cons_ite]
  | cons b bs ih =>
    by_cases hz : b.1 = x <;> by_cases hy : y = b.1 <;>
      simp_all [insertList, lookup_cons_ite]

/-- Binding `x` changes the value of `x` alone. -/
theorem find?_insert (σ : Substitution) (x y : Var) (t : Term) :
    (σ.insert x t).find? y = if y = x then some t else σ.find? y :=
  lookup_insertList x y t σ.toList

theorem lookup_filter_ne (x y : Var) (bs : List (Var × Term)) :
    (bs.filter (·.1 ≠ x)).lookup y = if y = x then none else bs.lookup y := by
  induction bs with
  | nil => simp
  | cons b bs ih =>
    by_cases hz : b.1 = x
    · rw [List.filter_cons_of_neg (by simp [hz]), ih, lookup_cons_ite, hz]
      split <;> rfl
    · rw [List.filter_cons_of_pos (by simp [hz]), lookup_cons_ite, ih, lookup_cons_ite]
      by_cases hy : y = b.1 <;> simp [hy, hz]

/-- Removing the binding of `x` takes the value of `x` alone. -/
theorem find?_erase (σ : Substitution) (x y : Var) :
    (σ.erase x).find? y = if y = x then none else σ.find? y :=
  lookup_filter_ne x y σ.toList

/-! ### Application -/

/-- The term with every bound variable replaced by its value, all at once. A
bound frame is renamed or merged, or stays where its value is no map. -/
def apply (σ : Substitution) (t : Term) : Term :=
  t.rewrite (fun | .var x => σ.find? x | _ => none) id

/-- Some variable of the term is bound. -/
def touches (σ : Substitution) (t : Term) : Bool := t.anyVar σ.contains

/-- The substitution applied to the term, where some variable of the term is
bound. -/
def substitute? (σ : Substitution) (t : Term) : Option Term :=
  if σ.touches t then some (σ.apply t) else none

/-- The substitution that acts as `τ` followed by `σ`. -/
def comp (σ τ : Substitution) : Substitution :=
  ofList <| (τ.toList.map fun b => (b.1, σ.apply b.2)) ++
    σ.toList.filter fun b => !τ.contains b.1

/-- Some bound variable occurs in some value. -/
def isCyclic (σ : Substitution) : Bool := σ.toList.any fun b => σ.touches b.2

/-! ### Comparison and text -/

/-- The two substitutions have the same bindings, in whatever order. -/
def equiv (σ τ : Substitution) : Bool :=
  σ.size == τ.size && σ.toList.all fun b => τ.find? b.1 = some b.2

/-- The text of a substitution. -/
def render (σ : Substitution) : String :=
  "\x7b" ++ ", ".intercalate (σ.toList.map fun b => b.1.name ++ " |-> " ++ b.2.render) ++ "\x7d"

end Substitution

end SolvedForm

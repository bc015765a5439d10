import Mathlib.Data.List.Perm.Subperm
import Mathlib.Tactic.Common
import SolvedForm.Proofs.Term.Frameless
import SolvedForm.Constraint.NormalForm

/-!
Equations under a substitution, and sets of equations.

* `Substitution.Unifies`: the substitution makes the sides of all equations the same.
* `Theory.instantiate`: the instance of a term as the engine makes it, evaluated where the
  substitution touches the term; `Equation.instantiate_eq_map` says that equations are
  instantiated side by side.
* `EquationSet.equiv_iff`: two sets compare equal when they have the same equations.
* `EquationSet.insertAll_toList`: the elements of a set, inserted in order, give the set back.
-/

namespace SolvedForm

/-- The substitution makes the two sides of every equation the same. -/
def Substitution.Unifies (u : Substitution) (es : List Equation) : Prop :=
  ∀ e ∈ es, u.apply e.left = u.apply e.right

/-! ### Instances -/

/-- The instance of a term under a substitution, evaluated where the substitution touches it. -/
def Theory.instantiate (T : Theory) (σ : Substitution) (t : Term) : Term :=
  if σ.touches t then T.evaluate (σ.apply t) else t

lemma Equation.instantiate_eq_map (T : Theory) (σ : Substitution) (e : Equation) :
    e.instantiate T.evaluate σ = e.map (T.instantiate σ) := by
  have side : ∀ t, ((σ.substitute? t).map T.evaluate).getD t = T.instantiate σ t := by
    intro t
    unfold Substitution.substitute? Theory.instantiate
    split <;> rfl
  simp [Equation.instantiate, Equation.map, side]

/-- An equation without bound variable is its own instance. -/
lemma Equation.instantiate_eq_self {T : Theory} {σ : Substitution} {e : Equation}
    (h : ∀ x, x ∈ e.left.vars ∨ x ∈ e.right.vars → x ∉ σ.keys) :
    e.instantiate T.evaluate σ = e := by
  have side : ∀ t, (∀ x ∈ t.vars, x ∉ σ.keys) → T.instantiate σ t = t := fun t ht => by
    rw [Theory.instantiate, if_neg (by simpa using Substitution.touches_eq_false_iff.mpr ht)]
  rw [instantiate_eq_map, map, side _ fun x hx => h x (.inl hx), side _ fun x hx => h x (.inr hx)]

namespace Equation

@[simp] lemma map_left (f : Term → Term) (e : Equation) : (e.map f).left = f e.left := rfl

@[simp] lemma map_right (f : Term → Term) (e : Equation) : (e.map f).right = f e.right := rfl

lemma truth_eq_true_iff {order : SortOrder} {e : Equation} :
    e.truth order = .true ↔ e.left = e.right := by
  unfold truth
  split
  · simpa
  · next h => split <;> simp [h]

lemma truth_eq_false_iff {order : SortOrder} {e : Equation} :
    e.truth order = .false ↔ e.left ≠ e.right ∧
      (order.compatible e.left.sort e.right.sort = false ∨
        e.left.provablyDistinct e.right = true) := by
  unfold truth
  split
  · next h => simp [h]
  · next h =>
      cases order.compatible e.left.sort e.right.sort <;>
        cases e.left.provablyDistinct e.right <;> simp [h]

lemma truth_eq_unknown_iff {order : SortOrder} {e : Equation} :
    e.truth order = .unknown ↔ e.left ≠ e.right ∧
      order.compatible e.left.sort e.right.sort = true ∧
        e.left.provablyDistinct e.right = false := by
  unfold truth
  split
  · next h => simp [h]
  · next h =>
      cases order.compatible e.left.sort e.right.sort <;>
        cases e.left.provablyDistinct e.right <;> simp [h]

/-- A binding is one of the two sides as a variable, with the other side as its value. -/
lemma orient_cases {order : SortOrder} {e : Equation} {x : Var} {t : Term}
    (h : e.orient order = some (x, t)) : e = ⟨.var x, t⟩ ∨ e = ⟨t, .var x⟩ := by
  unfold orient at h
  split at h
  · split at h
    · split at h <;> cases h
      · exact .inr rfl
      · exact .inl rfl
    · cases h
      exact .inl rfl
    · cases h
      exact .inr rfl
    · cases h
  · cases h
    exact .inl rfl
  · cases h
    exact .inr rfl
  · cases h

lemma binding?_eq_some_iff {order : SortOrder} {e : Equation} {x : Var} {t : Term} :
    e.binding? order = some (x, t) ↔ e.orient order = some (x, t) ∧ x ∉ t.vars := by
  simp [binding?, Option.filter_eq_some_iff, ← Term.occurs_iff]

lemma binding?_cases {order : SortOrder} {e : Equation} {x : Var} {t : Term}
    (h : e.binding? order = some (x, t)) : e = ⟨.var x, t⟩ ∨ e = ⟨t, .var x⟩ :=
  orient_cases (binding?_eq_some_iff.mp h).1

end Equation

/-! ### Sets of equations -/

namespace EquationSet

lemma ext {E F : EquationSet} (h : E.toList = F.toList) : E = F := by
  cases E
  cases F
  simpa using h

@[simp] lemma toList_empty : empty.toList = [] := rfl

lemma contains_iff {E : EquationSet} {e : Equation} : E.contains e = true ↔ e ∈ E.toList := by
  simp [contains]

lemma isEmpty_iff {E : EquationSet} : E.isEmpty = true ↔ ∀ e, e ∉ E.toList := by
  rw [isEmpty, List.isEmpty_iff, List.eq_nil_iff_forall_not_mem]

@[simp] lemma isEmpty_empty : empty.isEmpty = true := rfl

lemma toList_insert_of_not_mem {E : EquationSet} {e : Equation} (h : e ∉ E.toList) :
    (E.insert e).toList = E.toList ++ [e] := by
  simp [insert, h]

/-- Equations inserted in order into the set of the earlier ones of a list without repetition. -/
lemma toList_insertAll {E : EquationSet} {es : List Equation} (h : (E.toList ++ es).Nodup) :
    (E.insertAll es).toList = E.toList ++ es := by
  induction es generalizing E with
  | nil => simp [insertAll]
  | cons e es ih =>
      have he : e ∉ E.toList := by
        rw [List.nodup_middle, List.nodup_cons] at h
        exact fun hm => h.1 (List.mem_append_left es hm)
      have hi := toList_insert_of_not_mem he
      have := @ih (E.insert e) (by simpa [hi] using h)
      rw [insertAll, List.foldl_cons, ← insertAll, this, hi, List.append_assoc]
      rfl

/-- The elements of a set, inserted in order, give the set back. -/
lemma insertAll_toList (E : EquationSet) : empty.insertAll E.toList = E :=
  ext (toList_insertAll (by simpa using E.nodup))

lemma insert_of_mem {E : EquationSet} {e : Equation} (h : e ∈ E.toList) : E.insert e = E := by
  rw [insert, dif_pos h]

lemma insertAll_append (E : EquationSet) (es fs : List Equation) :
    E.insertAll (es ++ fs) = (E.insertAll es).insertAll fs := List.foldl_append

lemma ofList_toList (E : EquationSet) : ofList E.toList = E := insertAll_toList E

/-- A second occurrence in a list adds nothing. -/
lemma ofList_middle {es fs : List Equation} {e : Equation} (h : e ∈ es) :
    ofList (es ++ e :: fs) = ofList (es ++ fs) := by
  have hinsert : (ofList es).insert e = ofList es := insert_of_mem (mem_ofList.mpr h)
  calc ofList (es ++ e :: fs) = ((ofList es).insert e).insertAll fs := insertAll_append _ _ _
    _ = ofList (es ++ fs) := by rw [hinsert]; exact (insertAll_append _ _ _).symm

/-- The first equation with a property is the same with and without repetitions. -/
lemma find?_insertAll (p : Equation → Bool) (E : EquationSet) (es : List Equation) :
    (E.insertAll es).toList.find? p = (E.toList ++ es).find? p := by
  induction es generalizing E with
  | nil => simp [insertAll]
  | cons e es ih =>
      refine (ih (E.insert e)).trans ?_
      by_cases he : e ∈ E.toList
      · rw [insert_of_mem he, List.find?_append, List.find?_append, List.find?_cons]
        cases hE : E.toList.find? p with
        | some q => rfl
        | none => rw [Bool.eq_false_iff.mpr (List.find?_eq_none.mp hE e he)]
      · rw [toList_insert_of_not_mem he, List.append_assoc]
        rfl

/-- Repetitions make no difference to what becomes of the equations one by one. -/
lemma ofList_filterMap_insertAll (f : Equation → Option Equation) (E : EquationSet)
    (es : List Equation) :
    ofList ((E.insertAll es).toList.filterMap f) = ofList ((E.toList ++ es).filterMap f) := by
  induction es generalizing E with
  | nil => simp [insertAll]
  | cons e es ih =>
      refine (ih (E.insert e)).trans ?_
      by_cases he : e ∈ E.toList
      · rw [insert_of_mem he, List.filterMap_append, List.filterMap_append, List.filterMap_cons]
        cases hf : f e with
        | none => rfl
        | some q => exact (ofList_middle (List.mem_filterMap.mpr ⟨e, he, hf⟩)).symm
      · rw [toList_insert_of_not_mem he, List.append_assoc]
        rfl

/-- Comparison asks for the same equations. -/
lemma equiv_iff {E F : EquationSet} : E.equiv F = true ↔ ∀ e, e ∈ E.toList ↔ e ∈ F.toList := by
  simp only [equiv, Bool.and_eq_true, beq_iff_eq, List.all_eq_true, contains_iff]
  constructor
  · rintro ⟨hsize, hsub⟩
    have hperm := (List.Nodup.subperm E.nodup hsub).perm_of_length_le (Nat.le_of_eq hsize.symm)
    exact fun e => hperm.mem_iff
  · exact fun h => ⟨((List.perm_ext_iff_of_nodup E.nodup F.nodup).mpr h).length_eq,
      fun e => (h e).mp⟩

@[simp] lemma equiv_self (E : EquationSet) : E.equiv E = true := equiv_iff.mpr fun _ => Iff.rfl

end EquationSet

end SolvedForm

import SolvedForm.Constraint.Basic
import SolvedForm.Proofs.Solver.Semantics

/-!
What a constraint over integers and truth values says.

* `Operator.value?`, `Term.value?`: the values of operations and of terms under values for the
  variables.
* `Operator.scriptSort?`, `Term.scriptSort?`: the sorts of literals, of variables that can be named
  in a script, and of operators applied to as many operands as usual, of the right sorts.
* `Term.scriptSort?_app`: an application that has a sort has a value wherever its operands do.
* `Constraint.HoldsUnder`: all bindings and equations, and some alternative of every disjunction.
* `Constraint.Involves`: the variables of bindings, equations and alternatives.
* `Constraint.Translatable`: constraints between terms with such sorts, which are not false, and
  nor is any alternative.
-/

namespace SolvedForm

/-- The sort of terms that a sort of scripts stands for. -/
def ScriptSort.name : ScriptSort → SortName
  | int => .int
  | bool => .bool

lemma ScriptSort.name_injective : Function.Injective ScriptSort.name := by
  intro σ τ h
  cases σ <;> cases τ <;> first | rfl | exact absurd h (by decide)

/-! ### Operators -/

namespace Operator

/-- The value of an operator applied to as many values as usual, of the right sorts. -/
def value? : Operator → List ScriptValue → Option ScriptValue
  | conj, [.bool a, .bool b] => some (.bool (a && b))
  | disj, [.bool a, .bool b] => some (.bool (a || b))
  | neg, [.bool b] => some (.bool !b)
  | eq, [v, w] => some (.bool (v = w))
  | add, [.int i, .int j] => some (.int (i + j))
  | sub, [.int i, .int j] => some (.int (i - j))
  | mul, [.int i, .int j] => some (.int (i * j))
  | lt, [.int i, .int j] => some (.bool (i < j))
  | le, [.int i, .int j] => some (.bool (i ≤ j))
  | gt, [.int i, .int j] => some (.bool (i > j))
  | ge, [.int i, .int j] => some (.bool (i ≥ j))
  | ite, [.bool b, v, w] => some (if b then v else w)
  | _, _ => none

/-- The sort of an operator applied to as many operands as usual, of the right sorts; an equality
may have operands of any sorts. -/
def scriptSort? : Operator → List ScriptSort → Option ScriptSort
  | conj, [.bool, .bool] | disj, [.bool, .bool] => some .bool
  | neg, [.bool] => some .bool
  | eq, [_, _] => some .bool
  | add, [.int, .int] | sub, [.int, .int] | mul, [.int, .int] => some .int
  | lt, [.int, .int] | le, [.int, .int] | gt, [.int, .int] | ge, [.int, .int] => some .bool
  | ite, [.bool, σ, τ] => if σ = τ then some σ else none
  | _, _ => none

variable {o : Operator} {vs : List ScriptValue} {v : ScriptValue} {σ : ScriptSort}

/-- Where the sorts are right there is a value, and it is of the sort of the operation. -/
lemma exists_value? {ss : List ScriptSort} (hvs : List.Forall₂ (fun v τ => v.sort = τ) vs ss)
    (h : o.scriptSort? ss = some σ) : ∃ v, o.value? vs = some v ∧ v.sort = σ := by
  unfold scriptSort? at h
  split at h
  case h_1 | h_2 =>
    rcases hvs with _ | ⟨hv, _ | ⟨hw, _ | _⟩⟩
    obtain ⟨a, rfl⟩ := ScriptValue.exists_of_bool hv
    obtain ⟨b, rfl⟩ := ScriptValue.exists_of_bool hw
    cases h
    exact ⟨_, rfl, rfl⟩
  case h_3 =>
    rcases hvs with _ | ⟨hv, _ | _⟩
    obtain ⟨b, rfl⟩ := ScriptValue.exists_of_bool hv
    cases h
    exact ⟨_, rfl, rfl⟩
  case h_4 =>
    rcases hvs with _ | ⟨-, _ | ⟨-, _ | _⟩⟩
    cases h
    exact ⟨_, rfl, rfl⟩
  case h_5 | h_6 | h_7 | h_8 | h_9 | h_10 | h_11 =>
    rcases hvs with _ | ⟨hv, _ | ⟨hw, _ | _⟩⟩
    obtain ⟨i, rfl⟩ := ScriptValue.exists_of_int hv
    obtain ⟨j, rfl⟩ := ScriptValue.exists_of_int hw
    cases h
    exact ⟨_, rfl, rfl⟩
  case h_12 ρ τ =>
    rcases hvs with _ | ⟨hu, _ | ⟨hv, _ | ⟨hw, _ | _⟩⟩⟩
    obtain ⟨b, rfl⟩ := ScriptValue.exists_of_bool hu
    obtain ⟨rfl, hσ⟩ := Option.ite_none_right_eq_some.mp h
    cases hσ
    refine ⟨_, rfl, ?_⟩
    cases b
    · exact hw
    · exact hv
  case h_13 => cases h

/-- The operation of a script has the value of the operator. -/
lemma operation_scriptName (h : o.value? vs = some v) :
    SExpr.operation o.scriptName vs = some v := by
  unfold value? at h
  split at h <;> cases h
  case h_1 | h_2 => simp [SExpr.operation, scriptName, ScriptValue.bool?]
  all_goals rfl

end Operator

/-! ### Terms -/

namespace Term

mutual

/-- The value of a term under values for its variables. -/
def value? (ν : Var → ScriptValue) : Term → Option ScriptValue
  | .var x => some (ν x)
  | .bool b => some (.bool b)
  | .int i => some (.int i.toInt)
  | .app f args =>
    if f.isConstructor then none
    else (Operator.ofLabel f.name).bind fun o => (values? ν args).bind o.value?
  | .map _ _ => none
  | .lookup _ _ => none
  termination_by structural t => t

/-- The values of several terms. -/
def values? (ν : Var → ScriptValue) : List Term → Option (List ScriptValue)
  | [] => some []
  | t :: ts => (value? ν t).bind fun v => (values? ν ts).map (v :: ·)
  termination_by structural ts => ts

end

mutual

/-- The sort of a term that has a counterpart in scripts; the name of a variable has to be one that
can stand between bars. -/
def scriptSort? : Term → Option ScriptSort
  | .var x =>
    if '|' ∈ x.name.toList ∨ '\\' ∈ x.name.toList then none
    else if x.sort = .int then some .int
    else if x.sort = .bool then some .bool
    else none
  | .bool _ => some .bool
  | .int _ => some .int
  | .app f args =>
    if f.isConstructor then none
    else (Operator.ofLabel f.name).bind fun o => (scriptSorts? args).bind o.scriptSort?
  | .map _ _ => none
  | .lookup _ _ => none
  termination_by structural t => t

/-- The sorts of several terms. -/
def scriptSorts? : List Term → Option (List ScriptSort)
  | [] => some []
  | t :: ts => (scriptSort? t).bind fun σ => (scriptSorts? ts).map (σ :: ·)
  termination_by structural ts => ts

end

/-- The value of the term, of the sort of the term. -/
def HasValue (t : Term) (ν : Var → ScriptValue) (v : ScriptValue) : Prop :=
  t.value? ν = some v ∧ t.scriptSort? = some v.sort

lemma values?_eq_some_iff {ν : Var → ScriptValue} {ts : List Term} {vs : List ScriptValue} :
    values? ν ts = some vs ↔ List.Forall₂ (fun t v => t.value? ν = some v) ts vs := by
  have hmapM : ∀ ts, values? ν ts = ts.mapM (value? ν) := by
    intro ts
    induction ts with
    | nil => rfl
    | cons t ts ih =>
        rw [values?, List.mapM_cons, ih]
        simp only [Option.map_eq_bind, Option.bind_eq_bind]
        rfl
  rw [hmapM, mapM_eq_some_iff]

lemma scriptSorts?_eq_some_iff {ts : List Term} {ss : List ScriptSort} :
    scriptSorts? ts = some ss ↔ List.Forall₂ (fun t σ => t.scriptSort? = some σ) ts ss := by
  have hmapM : ∀ ts, scriptSorts? ts = ts.mapM scriptSort? := by
    intro ts
    induction ts with
    | nil => rfl
    | cons t ts ih =>
        rw [scriptSorts?, List.mapM_cons, ih]
        simp only [Option.map_eq_bind, Option.bind_eq_bind]
        rfl
  rw [hmapM, mapM_eq_some_iff]

variable {f : Symbol} {args : List Term}

/-- An application that has a sort is one of an operator, to operands that have sorts. -/
lemma scriptSort?_app (h : (Term.app f args).scriptSort? ≠ none) :
    f.isConstructor = false ∧ (∀ t ∈ args, t.scriptSort? ≠ none) ∧
      ∃ o, Operator.ofLabel f.name = some o ∧
        ∀ ν vs, List.Forall₂ (fun t v => t.HasValue ν v) args vs →
          ∃ v, o.value? vs = some v ∧ (Term.app f args).HasValue ν v := by
  obtain ⟨σ, h⟩ := Option.ne_none_iff_exists'.mp h
  have hf : f.isConstructor = false := by
    by_contra hf
    rw [scriptSort?, if_pos (by simpa using hf)] at h
    cases h
  have hsort : (Term.app f args).scriptSort? =
      (Operator.ofLabel f.name).bind fun o => (scriptSorts? args).bind o.scriptSort? := by
    rw [scriptSort?, hf, if_neg (by decide)]
  rw [hsort, Option.bind_eq_some_iff] at h
  obtain ⟨o, ho, h⟩ := h
  obtain ⟨ss, hss, hσ⟩ := Option.bind_eq_some_iff.mp h
  refine ⟨hf, ?_, o, ho, fun ν vs hvs => ?_⟩
  · have hargs : List.Forall₂ (fun t τ => Term.scriptSort? t ≠ none ∧ t.scriptSort? = some τ)
        args ss := (scriptSorts?_eq_some_iff.mp hss).imp fun t τ ht => ⟨by simp [ht], ht⟩
    exact ((List.forall₂_and_left _ _).mp hargs).1
  · have hvalues : values? ν args = some vs :=
      values?_eq_some_iff.mpr (hvs.imp fun _ _ h => h.1)
    have hsorts : scriptSorts? args = some (vs.map ScriptValue.sort) := by
      rw [scriptSorts?_eq_some_iff, List.forall₂_map_right_iff]
      exact hvs.imp fun _ _ h => h.2
    have hvss : List.Forall₂ (fun v τ => v.sort = τ) vs (vs.map ScriptValue.sort) := by
      rw [List.forall₂_map_right_iff, List.forall₂_same]
      exact fun _ _ => rfl
    rw [Option.some.inj (hss.symm.trans hsorts)] at hσ
    obtain ⟨v, hv, hvσ⟩ := Operator.exists_value? hvss hσ
    refine ⟨v, hv, ?_, ?_⟩
    · rw [value?, hf, if_neg (by decide), ho, hvalues]
      exact hv
    · rw [hsort, ho, hsorts, hvσ]
      exact hσ

end Term

/-! ### Constraints -/

/-- Both sides have the same value. -/
def Equation.HoldsUnder (ν : Var → ScriptValue) (e : Equation) : Prop :=
  ∃ v, e.left.value? ν = some v ∧ e.right.value? ν = some v

namespace Constraint

mutual

/-- The constraint is not known to be false, its equations and bindings hold, and so does some
alternative of each of its disjunctions. -/
def HoldsUnder (ν : Var → ScriptValue) : Constraint → Prop
  | ⟨E, _, σ, v, _, _, _, D⟩ =>
    v ≠ .false ∧ (∀ e ∈ E.toList, e.HoldsUnder ν) ∧
      (∀ b ∈ σ.toList, Equation.HoldsUnder ν ⟨.var b.1, b.2⟩) ∧ AllHold ν D
  termination_by structural c => c

/-- Some alternative of each disjunction holds. -/
def AllHold (ν : Var → ScriptValue) : List (List Constraint) → Prop
  | [] => True
  | C :: Cs => SomeHolds ν C ∧ AllHold ν Cs
  termination_by structural Cs => Cs

/-- Some alternative holds. -/
def SomeHolds (ν : Var → ScriptValue) : List Constraint → Prop
  | [] => False
  | c :: cs => HoldsUnder ν c ∨ SomeHolds ν cs
  termination_by structural cs => cs

end

/-- The variable occurs in a binding, in an equation or in an alternative. -/
inductive Involves (x : Var) : Constraint → Prop where
  | equation {c : Constraint} {e : Equation} : e ∈ c.equations.toList →
      x ∈ e.left.vars ∨ x ∈ e.right.vars → Involves x c
  | binding {c : Constraint} {b : Var × Term} : b ∈ c.store.toList →
      x = b.1 ∨ x ∈ b.2.vars → Involves x c
  | alternative {c d : Constraint} {D : List Constraint} : D ∈ c.pending → d ∈ D →
      Involves x d → Involves x c

/-- The constraint is not false and made of terms that have counterparts in scripts, and so are all
alternatives. -/
inductive Translatable : Constraint → Prop where
  | intro {c : Constraint} : c.isFalse = false →
      (∀ e ∈ c.equations.toList, e.left.scriptSort? ≠ none ∧ e.right.scriptSort? ≠ none) →
      (∀ b ∈ c.store.toList, (Term.var b.1).scriptSort? ≠ none ∧ b.2.scriptSort? ≠ none) →
      (∀ D ∈ c.pending, ∀ d ∈ D, Translatable d) → Translatable c

lemma holdsUnder_iff {ν : Var → ScriptValue} {c : Constraint} (hc : c.isFalse = false) :
    c.HoldsUnder ν ↔ (∀ e ∈ c.equations.toList, e.HoldsUnder ν) ∧
      (∀ b ∈ c.store.toList, Equation.HoldsUnder ν ⟨.var b.1, b.2⟩) ∧
        ∀ D ∈ c.pending, ∃ d ∈ D, d.HoldsUnder ν := by
  have some_iff : ∀ D : List Constraint, SomeHolds ν D ↔ ∃ d ∈ D, d.HoldsUnder ν := by
    intro D
    induction D with
    | nil => simp [SomeHolds]
    | cons d D ih => rw [SomeHolds, ih, List.exists_mem_cons_iff]
  have all_iff : ∀ Ds, AllHold ν Ds ↔ ∀ D ∈ Ds, ∃ d ∈ D, d.HoldsUnder ν := by
    intro Ds
    induction Ds with
    | nil => simp [AllHold]
    | cons D Ds ih => rw [AllHold, ih, some_iff, List.forall_mem_cons]
  obtain ⟨E, _, σ, v, _, _, _, D⟩ := c
  rw [HoldsUnder, all_iff]
  exact and_iff_right (of_decide_eq_false hc)

lemma involves_iff {x : Var} {c : Constraint} :
    c.Involves x ↔ (∃ e ∈ c.equations.toList, x ∈ e.left.vars ∨ x ∈ e.right.vars) ∨
      (∃ b ∈ c.store.toList, x = b.1 ∨ x ∈ b.2.vars) ∨
        ∃ D ∈ c.pending, ∃ d ∈ D, d.Involves x := by
  constructor
  · rintro (⟨he, hx⟩ | ⟨hb, hx⟩ | ⟨hD, hd, hx⟩)
    · exact .inl ⟨_, he, hx⟩
    · exact .inr (.inl ⟨_, hb, hx⟩)
    · exact .inr (.inr ⟨_, hD, _, hd, hx⟩)
  · rintro (⟨e, he, hx⟩ | ⟨b, hb, hx⟩ | ⟨D, hD, d, hd, hx⟩)
    · exact .equation he hx
    · exact .binding hb hx
    · exact .alternative hD hd hx

end Constraint

end SolvedForm

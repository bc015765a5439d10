import Mathlib.Data.List.Forall2
import SolvedForm.Term.Shape

/-!
Values and models of terms.

* `Value`: truth values, unbounded integers, free constructions and further values of any sort.
* `Value.OfSort`: the values of a sort; no value is of two sorts.
* `Operator.eval`: the usual meaning of the built-in operators.
* `Model`, `Model.value`: values for the variables and functions for the function symbols, and the
  value of a term in a model.
-/

namespace SolvedForm

/-! ### Values -/

/-- What terms stand for: truth values, integers, constructions that are equal only when built
alike, and further values, each with its sort. -/
inductive Value (α : Type) where
  | bool (b : Bool)
  | int (i : Int)
  | con (f : Symbol) (args : List (Value α))
  | atom (s : SortName) (a : α)

variable {α : Type} {s t : SortName} {v : Value α}

namespace Value

/-- The values of a sort: constructions have the result sort of their constructor, and the truth
values and the integers are the only values of their sorts. -/
def OfSort (s : SortName) : Value α → Prop
  | .bool _ => s = .bool
  | .int _ => s = .int
  | .con f _ => f.resultSort = some s ∧ s ≠ .bool ∧ s ≠ .int
  | .atom r _ => r = s ∧ s ≠ .bool ∧ s ≠ .int

/-- No value is of two sorts. -/
lemma OfSort.unique (h : v.OfSort s) (h' : v.OfSort t) : s = t := by
  cases v with
  | bool => exact h.trans h'.symm
  | int => exact h.trans h'.symm
  | con => exact Option.some.inj (h.1.symm.trans h'.1)
  | atom => exact h.1.symm.trans h'.1

lemma OfSort.eq_bool (h : v.OfSort .bool) : ∃ b, v = .bool b := by
  cases v with
  | bool b => exact ⟨b, rfl⟩
  | int => exact absurd h (by decide : SortName.bool ≠ .int)
  | con => exact absurd rfl h.2.1
  | atom => exact absurd rfl h.2.1

lemma OfSort.eq_int (h : v.OfSort .int) : ∃ i, v = .int i := by
  cases v with
  | int i => exact ⟨i, rfl⟩
  | bool => exact absurd h (by decide : SortName.int ≠ .bool)
  | con => exact absurd rfl h.2.2
  | atom => exact absurd rfl h.2.2

end Value

/-! ### Operators -/

/-- The operator takes arguments of the given sorts: as many as usual, truth values for the
connectives, integers for arithmetic and comparison, anything for equality, and a condition and
two branches of one sort for the conditional. -/
def Operator.Accepts : Operator → List SortName → Prop
  | conj, ss | disj, ss => ss = [.bool, .bool]
  | neg, ss => ss = [.bool]
  | eq, ss => ss.length = 2
  | add, ss | sub, ss | mul, ss | lt, ss | le, ss | gt, ss | ge, ss => ss = [.int, .int]
  | ite, ss => ∃ s, ss = [.bool, s, s]

/-- The sort of an application of the operator to arguments of given sorts. -/
def Operator.sortOf : Operator → List SortName → SortName
  | ite, [_, s, _] => s
  | o, _ => o.resultSort.getD .top

open Classical in
/-- The usual meaning of the operators. -/
noncomputable def Operator.eval : Operator → List (Value α) → Value α
  | conj, [.bool a, .bool b] => .bool (a && b)
  | disj, [.bool a, .bool b] => .bool (a || b)
  | neg, [.bool a] => .bool !a
  | eq, [v, w] => .bool (v = w)
  | add, [.int i, .int j] => .int (i + j)
  | sub, [.int i, .int j] => .int (i - j)
  | mul, [.int i, .int j] => .int (i * j)
  | lt, [.int i, .int j] => .bool (i < j)
  | le, [.int i, .int j] => .bool (i ≤ j)
  | gt, [.int i, .int j] => .bool (i > j)
  | ge, [.int i, .int j] => .bool (i ≥ j)
  | ite, [.bool c, v, w] => if c then v else w
  | _, _ => .bool false

/-- The operator takes the given values: as many as usual, truth values for the connectives, integers
for arithmetic and comparison, anything for equality, and a condition and two branches for the
conditional. -/
def Operator.Takes : Operator → List (Value α) → Prop
  | conj, vs | disj, vs => ∃ a b, vs = [.bool a, .bool b]
  | neg, vs => ∃ a, vs = [.bool a]
  | eq, vs => ∃ v w, vs = [v, w]
  | add, vs | sub, vs | mul, vs | lt, vs | le, vs | gt, vs | ge, vs => ∃ i j, vs = [.int i, .int j]
  | ite, vs => ∃ c v w, vs = [.bool c, v, w]

/-- Values of the sorts that an operator accepts are values that it takes. -/
lemma Operator.Accepts.takes {o : Operator} {ss : List SortName} {vs : List (Value α)}
    (h : o.Accepts ss) (hvs : List.Forall₂ (fun s v => v.OfSort s) ss vs) : o.Takes vs := by
  have binary : ∀ {s : SortName}, ss = [s, s] → ∃ v w : Value α,
      vs = [v, w] ∧ v.OfSort s ∧ w.OfSort s := by
    rintro s rfl
    rcases hvs with _ | ⟨hv, _ | ⟨hw, _ | _⟩⟩
    exact ⟨_, _, rfl, hv, hw⟩
  cases o with
  | conj | disj =>
      obtain ⟨v, w, rfl, hv, hw⟩ := binary h
      obtain ⟨a, rfl⟩ := hv.eq_bool
      obtain ⟨b, rfl⟩ := hw.eq_bool
      exact ⟨a, b, rfl⟩
  | add | sub | mul | lt | le | gt | ge =>
      obtain ⟨v, w, rfl, hv, hw⟩ := binary h
      obtain ⟨i, rfl⟩ := hv.eq_int
      obtain ⟨j, rfl⟩ := hw.eq_int
      exact ⟨i, j, rfl⟩
  | neg =>
      obtain rfl : ss = [.bool] := h
      rcases hvs with _ | ⟨hv, _ | _⟩
      obtain ⟨b, rfl⟩ := hv.eq_bool
      exact ⟨b, rfl⟩
  | eq =>
      have hlength : vs.length = 2 := hvs.length_eq ▸ h
      match vs, hlength with
      | [v, w], _ => exact ⟨v, w, rfl⟩
  | ite =>
      obtain ⟨s, rfl⟩ := h
      rcases hvs with _ | ⟨hu, _ | ⟨-, _ | ⟨-, _ | _⟩⟩⟩
      obtain ⟨c, rfl⟩ := hu.eq_bool
      exact ⟨c, _, _, rfl⟩

/-- An operator gives a value of its sort for arguments that it accepts. -/
lemma Operator.eval_ofSort {o : Operator} {ss : List SortName} {vs : List (Value α)}
    (h : o.Accepts ss) (hvs : List.Forall₂ (fun s v => v.OfSort s) ss vs) :
    (o.eval vs).OfSort (o.sortOf ss) := by
  have htakes := h.takes hvs
  cases o with
  | conj | disj | eq | add | sub | mul | lt | le | gt | ge =>
      obtain ⟨v, w, rfl⟩ := htakes
      rfl
  | neg =>
      obtain ⟨b, rfl⟩ := htakes
      rfl
  | ite =>
      obtain ⟨s, rfl⟩ := h
      obtain ⟨c, v, w, rfl⟩ := htakes
      obtain ⟨-, hv, hw⟩ : _ ∧ v.OfSort s ∧ w.OfSort s := by simpa using hvs
      cases c
      · exact hw
      · exact hv

/-! ### Models -/

/-- Values for the variables, and functions for the function symbols, of the right sorts. -/
structure Model (α : Type) where
  /-- The value of a variable. -/
  var : Var → Value α
  /-- The function that a function symbol stands for. -/
  fn : Symbol → List (Value α) → Value α
  var_sort (x : Var) : (var x).OfSort x.sort
  fn_sort {f : Symbol} {s : SortName} (h : f.resultSort = some s) (vs : List (Value α)) :
    (fn f vs).OfSort s

/-- A value of a given sort. -/
def Value.someOf (s : SortName) : Value Unit :=
  if s = .bool then .bool false else if s = .int then .int 0 else .atom s ()

lemma Value.someOf_ofSort (s : SortName) : (someOf s).OfSort s := by
  unfold someOf
  split
  · assumption
  · split
    · assumption
    · next hb hi => exact ⟨rfl, hb, hi⟩

instance : Inhabited (Model Unit) :=
  ⟨{ var := fun x => .someOf x.sort
     fn := fun f _ => .someOf (f.resultSort.getD .top)
     var_sort := fun x => Value.someOf_ofSort x.sort
     fn_sort := fun h _ => by
       rw [h]
       exact Value.someOf_ofSort _ }⟩

namespace Model

/-- The value of an application: constructors build, operators have their usual meaning, and the
model has a function for any other symbol. -/
noncomputable def applySymbol (M : Model α) (f : Symbol) (vs : List (Value α)) : Value α :=
  if f.isConstructor then .con f vs
  else
    match Operator.ofLabel f.name with
    | some o => o.eval vs
    | none => M.fn f vs

mutual

/-- The value of a term without maps and lookups; these have none of interest here. -/
noncomputable def value (M : Model α) : Term → Value α
  | .var x => M.var x
  | .bool b => .bool b
  | .int i => .int i.toInt
  | .app f args => M.applySymbol f (values M args)
  | .map _ _ => .bool false
  | .lookup _ _ => .bool false
  termination_by structural t => t

/-- The values of arguments. -/
noncomputable def values (M : Model α) : List Term → List (Value α)
  | [] => []
  | t :: ts => value M t :: values M ts
  termination_by structural ts => ts

end

variable {M : Model α}

lemma values_eq_map (M : Model α) (ts : List Term) : M.values ts = ts.map M.value := by
  induction ts with
  | nil => rfl
  | cons t ts ih => rw [values, ih, List.map_cons]

@[simp] lemma value_var (x : Var) : M.value (.var x) = M.var x := rfl

@[simp] lemma value_bool (b : Bool) : M.value (.bool b) = .bool b := rfl

@[simp] lemma value_int (i : Int64) : M.value (.int i) = .int i.toInt := rfl

lemma value_app (f : Symbol) (args : List Term) :
    M.value (.app f args) = M.applySymbol f (args.map M.value) := by
  rw [value, values_eq_map]

lemma value_con {f : Symbol} (hf : f.isConstructor = true) (args : List Term) :
    M.value (.app f args) = .con f (args.map M.value) := by
  rw [value_app, applySymbol, if_pos hf]

lemma value_op {f : Symbol} {o : Operator} (hf : f.isConstructor = false) (ho : f.name = o.label)
    (args : List Term) : M.value (.app f args) = o.eval (args.map M.value) := by
  rw [value_app, applySymbol, if_neg (by simp [hf]), ho, Operator.ofLabel_label]

lemma value_ofOperator (o : Operator) (args : List Term) :
    M.value (.ofOperator o args) = o.eval (args.map M.value) := value_op rfl rfl args

lemma value_fn {f : Symbol} (hf : f.isConstructor = false) (ho : Operator.ofLabel f.name = none)
    (args : List Term) : M.value (.app f args) = M.fn f (args.map M.value) := by
  rw [value_app, applySymbol, if_neg (by simp [hf]), ho]

end Model

end SolvedForm

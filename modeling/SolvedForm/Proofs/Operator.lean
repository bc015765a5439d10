import Mathlib.Tactic.Common
import SolvedForm.Term.Evaluate

/-!
The steps of the operators.

* `Operator.reduce_cases`: a step leads to a literal, an argument, or an argument of an argument.
* `Operator.reduceConj_eq` and its relatives: what an operator does to operands, said by tests for
  equality with literals and with each other; in the case of arithmetic, to operands that are not both
  numbers.
* `Operator.numbers_or`: both operands are numbers, or one of them is none.
-/

namespace SolvedForm

open Term

variable {a b : Term}

lemma Term.literal?_cases {n : Int} {u : Term} (h : literal? n = some u) : ∃ i, u = .int i := by
  unfold literal? at h
  split at h
  · exact ⟨_, (Option.some.inj h).symm⟩
  · cases h

namespace Operator

/-- A step of an operator answers with a literal, an argument, or an argument of an argument. -/
lemma reduce_cases {o : Operator} {args : List Term} {u : Term} (h : o.reduce args = some u) :
    (∃ b, u = .bool b) ∨ (∃ i, u = .int i) ∨ u ∈ args ∨ ∃ a ∈ args, u ∈ a.args := by
  unfold reduce at h
  split at h
  · unfold reduceConj at h; grind
  · unfold reduceDisj at h; grind
  · unfold reduceNeg at h; grind [List.mem_of_head?]
  · unfold reduceEq at h; grind
  · unfold reduceAdd at h; grind [literal?_cases]
  · unfold reduceSub at h; grind [literal?_cases]
  · unfold reduceMul at h; grind [literal?_cases]
  · unfold reduceComparison at h; grind
  · unfold reduceComparison at h; grind
  · unfold reduceComparison at h; grind
  · unfold reduceComparison at h; grind
  · unfold reduceIte at h; grind
  · cases h

lemma reduceConj_eq (a b : Term) : reduceConj a b =
    if a = .bool false ∨ b = .bool false then some (.bool false)
    else if a = .bool true then some b
    else if b = .bool true ∨ a = b then some a
    else none := by
  unfold reduceConj
  grind

lemma reduceDisj_eq (a b : Term) : reduceDisj a b =
    if a = .bool true ∨ b = .bool true then some (.bool true)
    else if a = .bool false then some b
    else if b = .bool false ∨ a = b then some a
    else none := by
  unfold reduceDisj
  grind

lemma reduceIte_eq (c a b : Term) : reduceIte c a b =
    if c = .bool true then some a
    else if c = .bool false then some b
    else if a = b then some a
    else none := by
  unfold reduceIte
  grind

/-- Two terms of which one is no number. -/
def NotNumbers (a b : Term) : Prop := ∀ i j, ¬ (a = .int i ∧ b = .int j)

/-- Two terms are numbers, or one of them is none. -/
lemma numbers_or (a b : Term) : (∃ i j, a = .int i ∧ b = .int j) ∨ NotNumbers a b := by
  by_cases h : ∃ i j, a = .int i ∧ b = .int j
  · exact .inl h
  · exact .inr fun i j hij => h ⟨i, j, hij⟩

lemma reduceAdd_eq (h : NotNumbers a b) : reduceAdd a b =
    if a = .int 0 then some b else if b = .int 0 then some a else none := by
  unfold reduceAdd
  split
  · exact absurd ⟨rfl, rfl⟩ (h _ _)
  · grind
  · grind
  · grind

lemma reduceSub_eq (h : NotNumbers a b) : reduceSub a b =
    if b = .int 0 then some a else if a = b then some (.int 0) else none := by
  unfold reduceSub
  split
  · exact absurd ⟨rfl, rfl⟩ (h _ _)
  · rfl

lemma reduceMul_eq (h : NotNumbers a b) : reduceMul a b =
    if a = .int 0 ∨ b = .int 0 then some (.int 0)
    else if a = .int 1 then some b
    else if b = .int 1 then some a
    else none := by
  unfold reduceMul
  split
  · exact absurd ⟨rfl, rfl⟩ (h _ _)
  · grind
  · grind
  · grind

lemma reduceComparison_eq {outcome : Int → Int → Bool} {reflexive : Bool} (h : NotNumbers a b) :
    reduceComparison outcome reflexive a b = if a = b then some (.bool reflexive) else none := by
  unfold reduceComparison
  split
  · exact absurd ⟨rfl, rfl⟩ (h _ _)
  · rfl

end Operator

end SolvedForm

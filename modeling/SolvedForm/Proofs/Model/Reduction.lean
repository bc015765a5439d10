import SolvedForm.Proofs.Model.Value
import SolvedForm.Proofs.Operator

/-!
The steps of the operators, for any reading of terms as values in which literals and negations mean
what they say.

* `Operator.Faithful`: such a reading.
* `Operator.Faithful.literal?`: arithmetic on literals is exact wherever it is carried out.
* `Operator.Faithful.reduceConj` and its relatives: the value of what each operator leads to.
* `Operator.Faithful.reduce`: a step of an operator keeps the value, for arguments that it takes.
* `Operator.value_reduce`: so it does in a model, for arguments of the right sorts.
-/

namespace SolvedForm

open Term

variable {α : Type} {val : Term → Value α} {a b c u : Term} {x y : Bool} {i j : Int}

namespace Operator

/-- Literals have the values that they show, and a negation that of its meaning. -/
structure Faithful (val : Term → Value α) : Prop where
  bool (b : Bool) : val (.bool b) = .bool b
  int (i : Int64) : val (.int i) = .int i.toInt
  negation {f : Symbol} {args : List Term} : f.isConstructor = false → f.name = Operator.neg.label →
    val (.app f args) = Operator.neg.eval (args.map val)

namespace Faithful

variable (hval : Faithful val)

include hval

lemma reduceConj (ha : val a = .bool x) (hb : val b = .bool y)
    (h : Operator.reduceConj a b = some u) : val u = .bool (x && y) := by
  rw [reduceConj_eq] at h
  split_ifs at h with hzero ha' hb' <;> cases h
  · rcases hzero with rfl | rfl
    · cases (hval.bool false).symm.trans ha
      exact hval.bool false
    · cases (hval.bool false).symm.trans hb
      simp [hval.bool]
  · cases (hval.bool true).symm.trans (ha' ▸ ha)
    exact hb
  · rcases hb' with rfl | rfl
    · cases (hval.bool true).symm.trans hb
      simp [ha]
    · cases hb.symm.trans ha
      simp [ha]

lemma reduceDisj (ha : val a = .bool x) (hb : val b = .bool y)
    (h : Operator.reduceDisj a b = some u) : val u = .bool (x || y) := by
  rw [reduceDisj_eq] at h
  split_ifs at h with hone ha' hb' <;> cases h
  · rcases hone with rfl | rfl
    · cases (hval.bool true).symm.trans ha
      exact hval.bool true
    · cases (hval.bool true).symm.trans hb
      simp [hval.bool]
  · cases (hval.bool false).symm.trans (ha' ▸ ha)
    exact hb
  · rcases hb' with rfl | rfl
    · cases (hval.bool false).symm.trans hb
      simp [ha]
    · cases hb.symm.trans ha
      simp [ha]

lemma reduceIte (hc : val c = .bool x) (h : Operator.reduceIte c a b = some u) :
    val u = if x then val a else val b := by
  rw [reduceIte_eq] at h
  split_ifs at h with ht hf hab <;> cases h
  · cases (hval.bool true).symm.trans (ht ▸ hc)
    rfl
  · cases (hval.bool false).symm.trans (hf ▸ hc)
    rfl
  · rw [← hab, ite_self]

/-- Literal arithmetic is exact where it is carried out. -/
lemma literal? {n : Int} (h : Term.literal? n = some u) : val u = .int n := by
  unfold Term.literal? at h
  split at h
  · next hn =>
      cases h
      rw [hval.int, Int64.toInt_ofInt_of_le hn.1 (Int.lt_of_le_of_lt hn.2 (by decide))]
  · cases h

lemma int_eq {k : Int64} (h : val (.int k) = .int i) : k.toInt = i :=
  Value.int.inj ((hval.int k).symm.trans h)

lemma reduceAdd (ha : val a = .int i) (hb : val b = .int j)
    (h : Operator.reduceAdd a b = some u) : val u = .int (i + j) := by
  rcases numbers_or a b with ⟨k, l, rfl, rfl⟩ | hn
  · rw [← hval.int_eq ha, ← hval.int_eq hb]
    exact hval.literal? h
  · rw [reduceAdd_eq hn] at h
    split_ifs at h with ha' hb' <;> cases h
    · subst ha'
      rw [← hval.int_eq ha, hb]
      simp
    · subst hb'
      rw [← hval.int_eq hb, ha]
      simp

lemma reduceSub (ha : val a = .int i) (hb : val b = .int j)
    (h : Operator.reduceSub a b = some u) : val u = .int (i - j) := by
  rcases numbers_or a b with ⟨k, l, rfl, rfl⟩ | hn
  · rw [← hval.int_eq ha, ← hval.int_eq hb]
    exact hval.literal? h
  · rw [reduceSub_eq hn] at h
    split_ifs at h with hb' hab <;> cases h
    · subst hb'
      rw [← hval.int_eq hb, ha]
      simp
    · cases (hab ▸ ha).symm.trans hb
      simp [hval.int]

lemma reduceMul (ha : val a = .int i) (hb : val b = .int j)
    (h : Operator.reduceMul a b = some u) : val u = .int (i * j) := by
  rcases numbers_or a b with ⟨k, l, rfl, rfl⟩ | hn
  · rw [← hval.int_eq ha, ← hval.int_eq hb]
    exact hval.literal? h
  · rw [reduceMul_eq hn] at h
    split_ifs at h with hzero ha' hb' <;> cases h
    · rcases hzero with rfl | rfl
      · simp [← hval.int_eq ha, hval.int]
      · simp [← hval.int_eq hb, hval.int]
    · subst ha'
      rw [← hval.int_eq ha, hb]
      simp
    · subst hb'
      rw [← hval.int_eq hb, ha]
      simp

lemma reduceComparison {outcome : Int → Int → Bool} {reflexive : Bool}
    (hr : ∀ i, outcome i i = reflexive) (ha : val a = .int i) (hb : val b = .int j)
    (h : Operator.reduceComparison outcome reflexive a b = some u) :
    val u = .bool (outcome i j) := by
  rcases numbers_or a b with ⟨k, l, rfl, rfl⟩ | hn
  · rw [← hval.int_eq ha, ← hval.int_eq hb]
    cases h
    exact hval.bool _
  · rw [reduceComparison_eq hn] at h
    split_ifs at h with hab
    cases h
    cases (hab ▸ ha).symm.trans hb
    rw [hr, hval.bool]

/-- The operand of a negation of which the value is known. -/
lemma reduceNeg (ha : val a = .bool x)
    (hneg : a.applies .neg = true → ∃ c y, a.args = [c] ∧ val c = .bool y)
    (h : Operator.reduceNeg a = some u) : val u = .bool !x := by
  cases a with
  | bool z =>
      cases (hval.bool z).symm.trans ha
      cases h
      exact hval.bool _
  | app f args =>
      rw [Operator.reduceNeg] at h
      · split at h
        · next happlies =>
            obtain ⟨c, y, hargs, hc⟩ := hneg happlies
            obtain rfl : args = [c] := hargs
            cases h
            rw [applies, appliesLabel, Bool.and_eq_true, Bool.not_eq_true', beq_iff_eq] at happlies
            rw [hval.negation happlies.1 happlies.2, List.map_singleton, hc] at ha
            cases ha
            rw [hc, Bool.not_not]
        · cases h
      · exact nofun
  | var | int | map | lookup => cases h

lemma reduceEq (hdistinct : a.provablyDistinct b = true → val a ≠ val b)
    (h : Operator.reduceEq a b = some u) : val u = Operator.eq.eval [val a, val b] := by
  unfold Operator.reduceEq at h
  split_ifs at h with hab hd <;> cases h
  · simp [hab, eval, hval.bool]
  · simp [hdistinct hd, eval, hval.bool]

/-- A step of an operator leads to a term with the value of the application, for arguments of which it
takes the values: the operands of negations among them are known, and distinct ones have different
values. -/
theorem reduce {o : Operator} {args : List Term} (htakes : o.Takes (args.map val))
    (hneg : ∀ a ∈ args, a.applies .neg = true → ∃ c y, a.args = [c] ∧ val c = .bool y)
    (hdistinct : ∀ a ∈ args, ∀ b ∈ args, a.provablyDistinct b = true → val a ≠ val b)
    (h : o.reduce args = some u) : val u = o.eval (args.map val) := by
  have binary : ∀ {v w : Value α}, args.map val = [v, w] → ∃ a b, args = [a, b] ∧
      val a = v ∧ val b = w := by
    intro v w hvs
    simp only [List.map_eq_cons_iff, List.map_eq_nil_iff] at hvs
    obtain ⟨a, _, rfl, ha, b, _, rfl, hb, rfl⟩ := hvs
    exact ⟨a, b, rfl, ha, hb⟩
  cases o with
  | conj =>
      obtain ⟨x, y, hvs⟩ := htakes
      obtain ⟨a, b, rfl, hx, hy⟩ := binary hvs
      simpa [hx, hy, eval] using hval.reduceConj hx hy h
  | disj =>
      obtain ⟨x, y, hvs⟩ := htakes
      obtain ⟨a, b, rfl, hx, hy⟩ := binary hvs
      simpa [hx, hy, eval] using hval.reduceDisj hx hy h
  | neg =>
      obtain ⟨x, hvs⟩ := htakes
      obtain ⟨a, rfl, hx⟩ := List.map_eq_singleton_iff.mp hvs
      simpa [hx, eval] using hval.reduceNeg hx (hneg _ List.mem_cons_self) h
  | eq =>
      obtain ⟨v, w, hvs⟩ := htakes
      obtain ⟨a, b, rfl, -, -⟩ := binary hvs
      exact hval.reduceEq (hdistinct a (by simp) b (by simp)) h
  | add =>
      obtain ⟨i, j, hvs⟩ := htakes
      obtain ⟨a, b, rfl, hi, hj⟩ := binary hvs
      simpa [hi, hj, eval] using hval.reduceAdd hi hj h
  | sub =>
      obtain ⟨i, j, hvs⟩ := htakes
      obtain ⟨a, b, rfl, hi, hj⟩ := binary hvs
      simpa [hi, hj, eval] using hval.reduceSub hi hj h
  | mul =>
      obtain ⟨i, j, hvs⟩ := htakes
      obtain ⟨a, b, rfl, hi, hj⟩ := binary hvs
      simpa [hi, hj, eval] using hval.reduceMul hi hj h
  | lt | le | gt | ge =>
      obtain ⟨i, j, hvs⟩ := htakes
      obtain ⟨a, b, rfl, hi, hj⟩ := binary hvs
      rw [Operator.reduce] at h
      simpa [hi, hj, eval] using hval.reduceComparison (fun k => by simp) hi hj h
  | ite =>
      obtain ⟨x, v, w, hvs⟩ := htakes
      simp only [List.map_eq_cons_iff, List.map_eq_nil_iff] at hvs
      obtain ⟨c, _, rfl, hx, a, _, rfl, -, b, _, rfl, -, rfl⟩ := hvs
      simpa [hx, eval] using hval.reduceIte hx h

end Faithful

/-- A step of an operator leads to a term with the value of the application, for arguments of the right
sorts: the operands of negations among them are known, and distinct ones have different values. -/
theorem value_reduce {M : Model α} {o : Operator} {ss : List SortName} {args : List Term}
    (hacc : o.Accepts ss) (hargs : List.Forall₂ (fun s t => (M.value t).OfSort s) ss args)
    (hneg : ∀ a ∈ args, a.applies .neg = true → ∃ c y, a.args = [c] ∧ M.value c = .bool y)
    (hdistinct : ∀ a ∈ args, ∀ b ∈ args, a.provablyDistinct b = true → M.value a ≠ M.value b)
    (h : o.reduce args = some u) : M.value u = o.eval (args.map M.value) :=
  Faithful.reduce ⟨Model.value_bool, Model.value_int, fun hf hname => Model.value_op hf hname _⟩
    (hacc.takes (List.forall₂_map_right_iff.mpr hargs)) hneg hdistinct h

end Operator

end SolvedForm

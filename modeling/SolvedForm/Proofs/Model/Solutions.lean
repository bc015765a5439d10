import Mathlib
import SolvedForm.Proofs.Constraint.Built
import SolvedForm.Proofs.Constraint.Orientation
import SolvedForm.Proofs.Model.Evaluation

/-!
Adding and simplifying keep the solutions of a constraint.

* `Vocabulary.WellSorted.apply`: an instance has the same value where the bindings hold.
* `Fragment.wellSorted`, `Model.meaning`: the fragment of well-sorted terms, and models as meanings
  of it.
* `Constraint.Built`: the constraints made by adding and simplifying.
* `Constraint.satisfies_add_iff`: in every model, adding an equation adds exactly its demand, and
  simplifying changes nothing.
-/

namespace SolvedForm

open Term

variable {V : Vocabulary} {α : Type} {M : Model α} {σ : Substitution} {x : Var} {t : Term}

/-! ### Substitution -/

namespace Vocabulary.WellSorted

/-- An instance by values of the right sorts can take the place of the term in every model in which
the bindings hold. -/
lemma apply (hσ : ∀ x u, σ.find? x = some u → V.WellSorted u ∧ u.sort = x.sort)
    (ht : V.WellSorted t) :
    V.Equivalent (fun M => ∀ x u, σ.find? x = some u → M.var x = M.value u) t (σ.apply t) := by
  refine ht.rewrite (fun t u _ h => ?_) fun t ht => .refl ht
  cases t with
  | var x => exact ⟨(hσ x u h).1, (hσ x u h).2, fun M hM => (hM x u h).symm⟩
  | bool | int | app | map | lookup => cases h

/-- A conjunction is true when its conjuncts are. -/
lemma value_conjuncts (M : Model α) (ht : V.WellSorted t) :
    (∀ u ∈ t.conjuncts, M.value u = .bool true) ↔ M.value t = .bool true := by
  induction t using Term.ind with
  | app f args ih =>
      unfold Term.conjuncts
      split
      · next a b heq =>
          obtain ⟨rfl, rfl⟩ := Term.app.injEq .. ▸ heq
          split
          · next happ =>
              simp only [applies, appliesLabel, Bool.and_eq_true, Bool.not_eq_true', beq_iff_eq]
                at happ
              obtain ⟨hf, hacc⟩ := ht.denotes happ.1 (happ.2 ▸ Operator.ofLabel_label .conj)
              obtain ⟨hsa, hsb⟩ : a.sort = .bool ∧ b.sort = .bool := by
                simpa [Operator.Accepts] using hacc
              have ha := ht.args a (by simp)
              have hb := ht.args b (by simp)
              obtain ⟨p, hp⟩ := ha.eq_bool M hsa
              obtain ⟨q, hq⟩ := hb.eq_bool M hsb
              rw [List.forall_mem_append, ih a (by simp) ha, ih b (by simp) hb,
                Model.value_op hf.function hf.name, List.map_cons, List.map_singleton, hp, hq]
              simp [Operator.eval]
          · simp
      · simp
  | var | bool | int | map | lookup => simp [Term.conjuncts]

end Vocabulary.WellSorted

/-! ### The fragment -/

/-- The well-sorted terms, with bindings of variables to terms of their sort. -/
def Fragment.wellSorted (V : Vocabulary) : Fragment (Theory.standard Subsorts.builtin.order) where
  Mem := V.WellSorted
  Binds x t := V.WellSorted (.var x) ∧ V.WellSorted t ∧ t.sort = x.sort
  frameless := Vocabulary.WellSorted.frameless
  mem_true := .bool true
  mem_var h := h.1
  mem_value h := h.2.1
  mem_conjuncts := (Vocabulary.WellSorted.hereditary V).conjuncts
  mem_evaluate h := h.evaluate.wellSorted
  vars_evaluate _ _ := mem_vars_evaluate
  mem_apply hσ _ h :=
    (h.apply fun x u hu => (hσ (x, u) (Substitution.mem_toList_iff.mpr hu)).2).wellSorted
  binds_evaluate h := ⟨h.1, h.2.1.evaluate.wellSorted, h.2.1.evaluate.sort.trans h.2.2⟩
  binds_apply hσ _ _ h := by
    have happ := h.2.1.apply fun x u hu => (hσ (x, u) (Substitution.mem_toList_iff.mpr hu)).2
    exact ⟨h.1, happ.wellSorted, happ.sort.trans h.2.2⟩
  binds_of_orient := by
    intro e x t hl hr htruth h
    have hsort := Subsorts.eq_of_compatible_builtin hl.sort_ne_top hr.sort_ne_top
      (Equation.truth_eq_unknown_iff.mp htruth).2.1
    rcases Equation.orient_cases h with rfl | rfl
    · exact ⟨hl, hr, hsort.symm⟩
    · exact ⟨hr, hl, hsort⟩
  unique hl hr h := Decomposition.structural_unique (Vocabulary.WellSorted.hereditary V) hl hr h
  disjunction hl hr h :=
    Decomposition.structural_disjunction (Vocabulary.WellSorted.hereditary V) hl hr h

lemma Fragment.symmetric_wellSorted (V : Vocabulary) : (wellSorted V).Symmetric where
  swap h := ⟨h.2.1, h.1, h.2.2.symm⟩
  join h h' := ⟨h.1, h'.1, h'.2.2.symm.trans h.2.2⟩

/-- A model is a meaning of the well-sorted terms. -/
noncomputable def Model.meaning (M : Model α) (V : Vocabulary) :
    Meaning (.wellSorted V) (Value α) :=
  (M.reading V).meaning
    (fun hσ hv _ ht =>
      (ht.apply fun x u h => (hσ (x, u) (Substitution.mem_toList_iff.mpr h)).2).value M
        fun x u h => hv (x, u) (Substitution.mem_toList_iff.mpr h))
    (fun ht => ht.evaluate.value M trivial)
    (fun ht => ht.value_conjuncts M)

lemma Fragment.decisive_wellSorted (V : Vocabulary) : (wellSorted V).Decisive :=
  ((default : Model Unit).meaning V).decisive

/-! ### Constraints -/

/-- The model gives every bound variable the value of the term that it is bound to, and both sides
of every equation the same value. -/
def Model.Satisfies (M : Model α) (c : Constraint) : Prop :=
  (∀ b ∈ c.store.toList, M.var b.1 = M.value b.2) ∧
    ∀ e ∈ c.equations.toList, M.value e.left = M.value e.right

namespace Constraint

/-- The constraints that adding equations between well-sorted terms and simplifying make of the
empty constraint, with the built-in sorts. -/
inductive Built (V : Vocabulary) : Constraint → Prop where
  | empty : Built V empty
  | add {c d : Constraint} {l r : Term} : Built V c → V.WellSorted l → V.WellSorted r →
      c.add (.standard Subsorts.builtin.order) ⟨l, r⟩ = .ok d → Built V d
  | simplify {c d : Constraint} {fuel n m : Nat} : Built V c →
      c.simplify (.standard Subsorts.builtin.order) fuel false n = .ok (d, m) → Built V d

variable {c d : Constraint} {l r : Term}

lemma memEq_singleton (hl : V.WellSorted l) (hr : V.WellSorted r) :
    ∀ e ∈ [(⟨l, r⟩ : Equation)], (Fragment.wellSorted V).MemEq e := by
  simpa using ⟨hl, hr⟩

lemma Built.over (h : c.Built V) : c.BuiltOver (.wellSorted V) := by
  induction h with
  | empty => exact .empty
  | @add c d l r _ hl hr h ih =>
      have hmem : (Fragment.wellSorted V).MemEq ⟨l, r⟩ := ⟨hl, hr⟩
      exact .add ih hmem h
  | simplify _ h ih => exact .simplify ih h

lemma Built.settled (h : c.Built V) : c.Settled (.wellSorted V) := h.over.settled

/-- A constraint that is known to be false is satisfied in no model. -/
lemma Built.truthful (M : Model α) (h : c.Built V) : (M.meaning V).Truthful c :=
  h.over.truthful (M.meaning V)

/-- Adding an equation to a constraint succeeds, and adds exactly its demand: in every model, the
new constraint is satisfied when the old one is and both sides of the equation have the same value.
Simplifying changes nothing. -/
theorem satisfies_add_iff (hc : c.Built V) (hl : V.WellSorted l) (hr : V.WellSorted r) :
    (∃ d, c.add (.standard Subsorts.builtin.order) ⟨l, r⟩ = .ok d ∧
      ∀ {α : Type} (M : Model α), M.Satisfies c ∧ M.value l = M.value r ↔ M.Satisfies d) ∧
    ∀ fuel n d m, c.simplify (.standard Subsorts.builtin.order) fuel false n = .ok (d, m) →
      ∀ {α : Type} (M : Model α), M.Satisfies c ↔ M.Satisfies d := by
  have hmem := memEq_singleton hl hr
  refine ⟨?_, fun fuel n d m h α M => ?_⟩
  · obtain ⟨d, hd, -⟩ := normalize_settled (hc.settled.sound.insertAll hmem)
    refine ⟨d, hd, fun {α} M => ?_⟩
    have hsat := (Meaning.sat_addAll hc.settled (hc.truthful M) hmem hd).1
    rw [List.forall_mem_singleton] at hsat
    exact hsat.symm
  · have hsat := (Meaning.sat_simplify hc.settled.sound (hc.truthful M) h).1
    exact (hsat.trans (Meaning.satAll_iff_sat hc.settled (hc.truthful M))).symm

/-- A sum added to what is left of an equation between two pairs. -/
theorem satisfies_add_iff_sum :
    let T : Theory := .standard Subsorts.builtin.order
    let x : Var := ⟨"X", .int, false, none⟩
    let y : Var := ⟨"Y", .int, false, none⟩
    let z : Var := ⟨"Z", .int, false, none⟩
    let pair (s t : Term) : Term := .app ⟨"pair", 2, some ⟨"Pair"⟩, .constructor⟩ [s, t]
    let sum : Term := .ofOperator .add [.var x, .var y]
    ∃ b c d : Constraint,
      empty.add T ⟨pair (.var x) (.int 1), pair (.int 2) (.var y)⟩ = .ok b ∧
      b.simplify T 2 false 0 = .ok (c, 0) ∧ c.add T ⟨.var z, sum⟩ = .ok d ∧
      d.store.toList = [(x, .int 2), (y, .int 1), (z, .int 3)] ∧
      ∀ {α : Type} (M : Model α),
        M.Satisfies c ∧ M.value (.var z) = M.value sum ↔ M.Satisfies d := by
  intro T x y z pair sum
  let V : Vocabulary :=
    { MemVar := (· ∈ [x, y, z])
      MemCon := (· = ⟨"pair", 2, some ⟨"Pair"⟩, .constructor⟩)
      MemFn := fun _ => False
      var_sort := by simp [x, y, z]; decide
      isConstructor := by rintro _ rfl; rfl
      con_sort := by rintro _ rfl; exact ⟨_, rfl, by decide, by decide, by decide⟩
      unique := by rintro _ _ rfl rfl _ _; rfl
      uninterpreted := False.elim }
  have hx : V.WellSorted (.var x) := .var (by simp [V])
  have hy : V.WellSorted (.var y) := .var (by simp [V])
  have hz : V.WellSorted (.var z) := .var (by simp [V])
  have hpair : ∀ {s t : Term}, V.WellSorted s → V.WellSorted t → V.WellSorted (pair s t) :=
    fun hs ht => .con rfl rfl (by simpa using ⟨hs, ht⟩)
  have hsum : V.WellSorted sum :=
    .op (o := .add) ⟨rfl, rfl, rfl⟩ rfl (by simpa using ⟨hx, hy⟩)
  have hb : empty.add T ⟨pair (.var x) (.int 1), pair (.int 2) (.var y)⟩ = .ok
      { equations := .ofList [⟨pair (.var x) (.int 1), pair (.int 2) (.var y)⟩],
        truth := .unknown } := by cbv
  have hc : simplify T 2 false
      { equations := .ofList [⟨pair (.var x) (.int 1), pair (.int 2) (.var y)⟩],
        truth := .unknown } 0 = .ok ({ store := .ofList [(x, .int 2), (y, .int 1)] }, 0) := by cbv
  have hd : add T { store := .ofList [(x, .int 2), (y, .int 1)] } ⟨.var z, sum⟩ = .ok
      { store := .ofList [(x, .int 2), (y, .int 1), (z, .int 3)] } := by cbv
  have hbuilt := (Built.empty.add (hpair hx (.int 1)) (hpair (.int 2) hy) hb).simplify hc
  obtain ⟨⟨d, hd', hM⟩, -⟩ := satisfies_add_iff hbuilt hz hsum
  cases hd.symm.trans hd'
  exact ⟨_, _, _, hb, hc, hd, rfl, hM⟩

end Constraint

end SolvedForm

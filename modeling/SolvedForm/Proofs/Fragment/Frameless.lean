import SolvedForm.Proofs.Fragment
import SolvedForm.Proofs.Unification.Decomposition

/-!
The fragment of all terms without frames.

* `Term.conjuncts_closed`, `Decomposition.Hereditary.conjuncts`: the conjuncts of a term are parts
  of it.
* `Fragment.withoutFrames`: terms whose maps are canonical and without frame, with all bindings
  between them allowed.
-/

namespace SolvedForm

open Term

/-- What passes to the arguments of an application passes to the conjuncts of a term. -/
lemma Term.conjuncts_closed {P : Term → Prop}
    (app : ∀ {f : Symbol} {args : List Term}, P (.app f args) → ∀ a ∈ args, P a) {t : Term}
    (ht : P t) : ∀ u ∈ t.conjuncts, P u := by
  induction t using Term.ind with
  | app f args ih =>
      unfold Term.conjuncts
      split
      · next a b heq =>
          obtain ⟨rfl, rfl⟩ := Term.app.injEq .. ▸ heq
          have ha := app ht a (by simp)
          have hb := app ht b (by simp)
          split
          · intro u hu
            exact (List.mem_append.mp hu).elim (ih a (by simp) ha u) (ih b (by simp) hb u)
          · simpa using ht
      · simpa using ht
  | var | bool | int | map | lookup => simpa [Term.conjuncts] using ht

lemma Decomposition.Hereditary.conjuncts {P : Term → Prop} (hP : Hereditary P) {t : Term}
    (ht : P t) : ∀ u ∈ t.conjuncts, P u :=
  Term.conjuncts_closed hP.app ht

lemma hereditary_frameless : Decomposition.Hereditary Frameless where
  app := Frameless.app_iff.mp
  frame h := by
    cases h
    rfl
  entries h := h.entries
  rest h hfs := Frameless.ofEntries fun f hf => h.entries f (hfs f hf)

/-- The terms without frames, under the built-in evaluator and structural unification. -/
def Fragment.withoutFrames (order : SortOrder) : Fragment (Theory.standard order) where
  Mem := Frameless
  Binds _ t := t.Frameless
  frameless := id
  mem_true := .bool true
  mem_var _ := .var _
  mem_value := id
  mem_conjuncts := hereditary_frameless.conjuncts
  mem_evaluate := Frameless.evaluate
  vars_evaluate _ _ := mem_vars_evaluate
  mem_apply hσ _ := Frameless.apply fun x u hu => hσ (x, u) (Substitution.mem_toList_iff.mpr hu)
  binds_evaluate := Frameless.evaluate
  binds_apply hσ _ _ :=
    Frameless.apply fun x u hu => hσ (x, u) (Substitution.mem_toList_iff.mpr hu)
  binds_of_orient hl hr _ h := by
    rcases Equation.orient_cases h with rfl | rfl
    · exact hr
    · exact hl
  unique hl hr h := Decomposition.structural_unique hereditary_frameless hl hr h
  disjunction hl hr h := Decomposition.structural_disjunction hereditary_frameless hl hr h

end SolvedForm

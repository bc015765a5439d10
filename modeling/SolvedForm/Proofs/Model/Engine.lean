import Mathlib
import SolvedForm.Proofs.Constraint.Stored
import SolvedForm.Proofs.Fragment.Frameless
import SolvedForm.Proofs.Model.Decomposition
import SolvedForm.Proofs.Unification.Progress

/-!
Solving under an interpretation.

* `Interpretation.knows_obligations`, `Interpretation.transfers_knows`: an equation that holds is split
  and rewritten into equations that hold, and read as bindings that do.
* `Constraint.KnownTo`: the equations and bindings of a constraint hold.
* `Constraint.knownTo_round`, `Constraint.KnownTo.simplify`: solving goes on to constraints whose
  equations and bindings hold, with values for the fresh frames that are given out.
-/

namespace SolvedForm

open Term

variable {α : Type} {I J : Interpretation α} {order : SortOrder} {n m : Nat} {t u : Term} {x : Var}
  {e : Equation} {es : List Equation} {c d : Constraint} {kept : EquationSet}

namespace Interpretation

/-! ### Equations -/

/-- The conjuncts of a conjunction that is true are true. -/
lemma Holds.conjuncts (h : I.Holds ⟨t, .bool true⟩) : ∀ u ∈ t.conjuncts, I.Holds ⟨u, .bool true⟩ := by
  induction t using Term.ind with
  | app f args ih =>
      unfold Term.conjuncts
      split
      · next a b heq =>
          obtain ⟨rfl, rfl⟩ := Term.app.injEq .. ▸ heq
          split
          · next happ =>
              simp only [applies, appliesLabel, Bool.and_eq_true, Bool.not_eq_true', beq_iff_eq]
                at happ
              have ho : Operator.ofLabel _ = some .conj := happ.2 ▸ Operator.ofLabel_label .conj
              obtain ⟨p, q, hpq⟩ := h.left.takes happ.1 ho
              have hvalue := h.value
              rw [value_op happ.1 ho, hpq] at hvalue
              obtain ⟨rfl, rfl⟩ : p = true ∧ q = true := by simpa [Operator.eval] using hvalue
              obtain ⟨ha, hb⟩ : I.value a = .bool true ∧ I.value b = .bool true := by simpa using hpq
              exact List.forall_mem_append.mpr
                ⟨ih a (by simp) ⟨h.left.arg a (by simp), h.right, ha⟩,
                  ih b (by simp) ⟨h.left.arg b (by simp), h.right, hb⟩⟩
          · exact List.forall_mem_singleton.mpr h
      · exact List.forall_mem_singleton.mpr h
  | var | bool | int | map | lookup => exact List.forall_mem_singleton.mpr h

namespace Knows

lemma conjuncts (h : I.Knows n ⟨t, .bool true⟩) : ∀ u ∈ t.conjuncts, I.Knows n ⟨u, .bool true⟩ :=
  fun u hu => ⟨h.holds.conjuncts u hu, conjuncts_closed Ranges.app_iff.mp h.ranges.1 u hu, h.ranges.2⟩

lemma split (h : I.Knows n e) : ∀ q ∈ e.split, I.Knows n q := by
  obtain ⟨l, r⟩ := e
  unfold Equation.split
  split
  · next hr =>
      obtain rfl : r = .bool true := hr
      exact List.forall_mem_map.mpr h.conjuncts
  · split
    · next hl =>
        obtain rfl : l = .bool true := hl.1
        exact List.forall_mem_map.mpr h.symm.conjuncts
    · exact List.forall_mem_singleton.mpr h

/-- The sides may be exchanged for terms of the same values. -/
lemma exchange (h : I.Knows n e) (hl : I.Agrees e.left t) (hr : I.Agrees e.right u)
    (ht : t.Ranges (Var.Before n)) (hu : u.Ranges (Var.Before n)) : I.Knows n ⟨t, u⟩ :=
  ⟨⟨hl.proper, hr.proper, by rw [hl.value, hr.value, h.holds.value]⟩, ht, hu⟩

lemma obligations (h : I.Knows n e) : ∀ q ∈ (Theory.standard order).obligations e, I.Knows n q := by
  refine List.forall_mem_map.mpr fun q hq => ?_
  have hq := h.split q hq
  exact hq.exchange hq.holds.left.evaluate hq.holds.right.evaluate hq.ranges.1.evaluate
    hq.ranges.2.evaluate

end Knows

/-- The binding holds, and neither side has a fresh frame with a number from `n` on. -/
abbrev Binds (I : Interpretation α) (n : Nat) (x : Var) (t : Term) : Prop := I.Knows n ⟨.var x, t⟩

lemma Binds.agrees (h : I.Binds n x t) : I.Agrees (.var x) t := ⟨h.holds.right, h.holds.value.symm⟩

/-- Instances of equations that hold do so as well, and so do the bindings read off them. -/
lemma transfers_knows (I : Interpretation α) (n : Nat) (order : SortOrder) :
    (Theory.standard order).Transfers (I.Knows n) (I.Binds n) where
  instantiate := by
    intro σ e hσ he
    have instance_agrees : ∀ {t : Term}, I.Proper t → t.Ranges (Var.Before n) →
        I.Agrees t ((Theory.standard order).instantiate σ t) ∧
          ((Theory.standard order).instantiate σ t).Ranges (Var.Before n) := by
      intro t ht hranges
      have happly := ht.apply fun b hb => (hσ b hb).agrees
      unfold Theory.instantiate
      split
      · exact ⟨happly.trans happly.proper.evaluate,
          (hranges.apply fun b hb => (hσ b hb).ranges.2).evaluate⟩
      · exact ⟨.refl ht, hranges⟩
    rw [Equation.instantiate_eq_map]
    have hl := instance_agrees he.holds.left he.ranges.1
    have hr := instance_agrees he.holds.right he.ranges.2
    exact he.exchange hl.1 hr.1 hl.2 hr.2
  binding he hb := by
    rcases Equation.binding?_cases hb with rfl | rfl
    · exact he
    · exact he.symm
  compose := by
    intro x y t u ht hu
    have hσ : ∀ b ∈ (Substitution.single x t).toList, I.Binds n b.1 b.2 := by simpa using ht
    have happly := hu.holds.right.apply fun b hb => (hσ b hb).agrees
    refine hu.exchange (.refl hu.holds.left) (happly.trans happly.proper.evaluate) hu.ranges.1 ?_
    exact (hu.ranges.2.apply fun b hb => (hσ b hb).ranges.2).evaluate

end Interpretation

namespace Constraint

open Interpretation

/-! ### Constraints -/

/-- The equations and bindings of the constraint hold, and have none of the fresh frames with numbers
from `n` on. -/
abbrev KnownTo (I : Interpretation α) (n : Nat) (c : Constraint) : Prop :=
  c.Carries (I.Knows n) (I.Binds n) fun _ => True

lemma KnownTo.extend (h : c.KnownTo I n) (hJ : I.Extends n J) (hn : n ≤ m) : c.KnownTo J m where
  equations e he := (h.equations e he).extend hJ hn
  buffer e he := (h.buffer e he).extend hJ hn
  store b hb := (h.store b hb).extend hJ hn
  pending := h.pending

lemma KnownTo.insertAll (h : c.KnownTo I n) (hes : ∀ e ∈ es, I.Knows n e) :
    (c.insertAll (.standard order) es).KnownTo I n := by
  rw [insertAll_eq_foldl]
  refine h.foldl_insertEquation fun q hq => ?_
  obtain ⟨e, he, hq⟩ := List.mem_flatMap.mp hq
  exact (hes e he).obligations q hq

lemma KnownTo.normalize (h : c.KnownTo I n) (hd : c.normalize (.standard order) = .ok d) :
    d.KnownTo I n := carries_normalize (transfers_knows I n order) h hd

/-- A round goes on to equations that hold, with values for the fresh frames given out meanwhile. -/
lemma knownTo_round {solve : List (List Equation) → Engine (List Constraint)} (hc : c.KnownTo I n)
    (hkept : ∀ e ∈ kept.toList, I.Knows n e) (hes : ∀ e ∈ es, I.Knows n e)
    (h : round (.standard order) false solve c kept es n = .ok (d, m)) :
    n ≤ m ∧ ∃ J, I.Extends n J ∧ d.KnownTo J m := by
  induction es generalizing c kept n I with
  | nil =>
      obtain ⟨rfl, rfl⟩ := Engine.pure_eq_ok.mp h
      exact ⟨Nat.le_refl n, I, .refl I n, hkept, hc.buffer, hc.store, hc.pending⟩
  | cons e es ih =>
      rw [List.forall_mem_cons] at hes
      have insert_knows : ∀ {q}, q ∈ (kept.insert e).toList → I.Knows n q := fun hq =>
        (EquationSet.mem_insert.mp hq).elim (hkept _) fun hq => hq ▸ hes.1
      rcases round_cases h with ⟨failure, hu, rfl⟩ | ⟨k, hu, h⟩ | ⟨parts, k, -, hu, h⟩ |
        ⟨common, as, k, ds, l, hu, -, -⟩
      · have hsupply : (Unifier.structural order false e n).2 = m := congrArg Prod.snd hu
        have hle : n ≤ m := hsupply ▸ Unifier.structural_supply_le order false e n
        have hput : ((c.putBack ((kept.insert e).insertAll es)).falsify
            ((Theory.standard order).evaluated failure.pair)).KnownTo I n := by
          refine Carries.falsify ?_ _
          exact ⟨fun q hq => (EquationSet.mem_insertAll.mp hq).elim insert_knows (hes.2 q), hc.buffer,
            hc.store, hc.pending⟩
        exact ⟨hle, I, .refl I n, hput.extend (.refl I n) hle⟩
      · obtain ⟨hk, J, hJ, -⟩ := Unifier.structural_knows hes.1 hu
        obtain ⟨hkm, K, hK, hd⟩ := ih (hc.extend hJ hk) (fun q hq => (insert_knows hq).extend hJ hk)
          (fun q hq => (hes.2 q hq).extend hJ hk) h
        exact ⟨Nat.le_trans hk hkm, K, hJ.trans hK hk, hd⟩
      · obtain ⟨hk, J, hJ, hparts⟩ := Unifier.structural_knows hes.1 hu
        have hc' : ({ c with normal := false }).KnownTo J k :=
          .extend ⟨hc.equations, hc.buffer, hc.store, hc.pending⟩ hJ hk
        obtain ⟨hkm, K, hK, hd⟩ := ih (hc'.insertAll hparts) (fun q hq => (hkept q hq).extend hJ hk)
          (fun q hq => (hes.2 q hq).extend hJ hk) h
        exact ⟨Nat.le_trans hk hkm, K, hJ.trans hK hk, hd⟩
      · exact absurd hu (Unifier.structural_decisive order)

lemma knownTo_simplifySince {fuel : Nat} {last : Option Snapshot} (hc : c.KnownTo I n)
    (h : simplifySince (.standard order) false fuel last c n = .ok (d, m)) :
    n ≤ m ∧ ∃ J, I.Extends n J ∧ d.KnownTo J m := by
  induction fuel generalizing last c n I with
  | zero => exact absurd h Engine.throw_ne_ok
  | succ fuel ih =>
      obtain ⟨b, hb, h⟩ := simplifySince_cases h
      have hb := hc.normalize hb
      rcases h with ⟨-, rfl, rfl⟩ | ⟨-, -, a, k, ha, h⟩
      · exact ⟨Nat.le_refl m, I, .refl I m, hb⟩
      · obtain ⟨hk, J, hJ, ha⟩ := knownTo_round (c := b.takeOut)
          ⟨by simp [takeOut], hb.buffer, hb.store, hb.pending⟩ (by simp) hb.equations ha
        rcases h with ⟨-, rfl, rfl⟩ | ⟨-, h⟩
        · exact ⟨hk, J, hJ, ha⟩
        · obtain ⟨hkm, K, hK, hd⟩ := ih ha h
          exact ⟨Nat.le_trans hk hkm, K, hJ.trans hK hk, hd⟩

/-- Solving goes on to equations and bindings that hold. -/
theorem KnownTo.simplify {fuel : Nat} (hc : c.KnownTo I n)
    (h : c.simplify (.standard order) fuel false n = .ok (d, m)) :
    n ≤ m ∧ ∃ J, I.Extends n J ∧ d.KnownTo J m := knownTo_simplifySince hc h

end Constraint

end SolvedForm

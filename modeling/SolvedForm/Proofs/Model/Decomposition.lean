import Mathlib
import SolvedForm.Proofs.Model.Frames

/-!
Structural unification under an interpretation.

* `Decomposition.Preserves`: a run whose equations hold in an extension of the interpretation.
* `Decomposition.preserves_settleRest`: what is left over between two equal maps without common keys goes
  to their frames.
* `Decomposition.preserves_decompose`: the decomposition of an equation that holds.
* `Unifier.structural_knows`: the parts of an equation that holds.
-/

namespace SolvedForm

open Interpretation

namespace Decomposition

variable {α : Type} {I J : Interpretation α} {n : Nat} {order : SortOrder} {p q : Progress}
  {s t : Term} {ss ts : List Term} {es fs : List Entry} {a b : Option Var} {x : Var} {e : Equation}
  {run run' : Progress → Except Stuck Progress}

/-- The equations found so far hold, and have no fresh frame that is yet to be given out. -/
def Progress.KnownTo (I : Interpretation α) (p : Progress) : Prop :=
  ∀ e ∈ p.equations, I.Knows p.supply e

/-- From equations that hold in an extension of the interpretation, the run goes on to equations that
hold in a further one, which has values for the fresh frames given out. -/
def Preserves (I : Interpretation α) (n : Nat) (run : Progress → Except Stuck Progress) : Prop :=
  ∀ ⦃p q J⦄, n ≤ p.supply → I.Extends n J → p.KnownTo J → run p = .ok q →
    p.supply ≤ q.supply ∧ ∃ K, J.Extends p.supply K ∧ q.KnownTo K

lemma Progress.KnownTo.extend {m : Nat} {es : List Equation} (h : p.KnownTo I)
    (hJ : I.Extends p.supply J) (hm : p.supply ≤ m) (hes : ∀ e ∈ es, J.Knows m e) :
    Progress.KnownTo J { p.push es with supply := m } := fun e he =>
  (List.mem_append.mp he).elim (fun he => (h e he).extend hJ hm) (hes e)

lemma preserves_ok : Preserves I n .ok := by
  intro p q J hn hJ hp h
  cases h
  exact ⟨Nat.le_refl _, J, .refl J _, hp⟩

lemma preserves_fail (failure : Unification.Failure) : Preserves I n (·.fail failure) :=
  fun _ _ _ _ _ _ h => absurd h fail_ne_ok

/-- A run after another one. -/
lemma Preserves.bind (h : Preserves I n run) (h' : Preserves I n run') :
    Preserves I n fun p => run p >>= run' := by
  intro p q J hn hJ hp hrun
  obtain ⟨r, hr, hq⟩ := exceptBind_eq_ok.mp hrun
  obtain ⟨hpr, K, hK, hrK⟩ := h hn hJ hp hr
  obtain ⟨hrq, L, hL, hqL⟩ := h' (Nat.le_trans hn hpr) (hJ.trans hK hn) hrK hq
  exact ⟨Nat.le_trans hpr hrq, L, hK.trans hL hpr, hqL⟩

/-- An equation that holds is added. -/
lemma preserves_push (he : I.Knows n e) (hrun : ∀ p q, run p = .ok q → q = p.push [e]) :
    Preserves I n run := by
  intro p q J hn hJ hp h
  obtain rfl := hrun p q h
  refine ⟨Nat.le_refl _, J, .refl J _, hp.extend (.refl J _) (Nat.le_refl _) ?_⟩
  exact List.forall_mem_singleton.mpr (he.extend hJ hn)

lemma preserves_equateVar (he : I.Knows n e) : Preserves I n (equateVar order x t e) :=
  preserves_push he fun _ _ h => (equateVar_ok h).1

lemma preserves_keep (he : I.Knows n e) : Preserves I n (keep e) :=
  preserves_push he fun _ _ h => (keep_ok h).1

/-! ### What is left over between two maps -/

lemma preserves_settleAmbiguous (h : I.Knows n ⟨.map es a, .map fs b⟩) :
    Preserves I n (settleAmbiguous false t es a fs b) :=
  preserves_push h.ofEntries fun _ _ h => by
    unfold settleAmbiguous at h
    simp only [Bool.false_and, Bool.not_false, ↓reduceIte] at h
    exact (Except.ok.inj h).symm

/-- Keys that cannot coincide have different values. -/
lemma apart_of_ambiguous (h : I.Knows n ⟨.map es a, .map fs b⟩) (hclear : ambiguous es fs = false) :
    I.Apart es fs := by
  intro e he f hf
  refine (h.holds.left.entries e he).1.ne_of_provablyDistinct (h.holds.right.entries f hf).1 ?_
  unfold ambiguous at hclear
  simp only [List.any_eq_false, Bool.not_eq_true, Bool.not_eq_false'] at hclear
  exact hclear e he f hf

/-- Two frames share a fresh one. -/
lemma preserves_mint {y z : Var} (h : I.Knows n ⟨.map es (some y), .map fs (some z)⟩)
    (hclear : ambiguous es fs = false) :
    Preserves I n (fun p => do
      let r ← equateVar order y (.ofEntries fs (some (.fresh p.supply .map)))
        ⟨.var y, .ofEntries fs (some (.fresh p.supply .map))⟩ { p with supply := p.supply + 1 }
      equateVar order z (.ofEntries es (some (.fresh p.supply .map)))
        ⟨.ofEntries es (some (.fresh p.supply .map)), .var z⟩ r) := by
  intro p q J hn hJ hp hq
  obtain ⟨r, hr, hq⟩ := exceptBind_eq_ok.mp hq
  rw [(equateVar_ok hq).1, (equateVar_ok hr).1]
  have hmaps := h.extend hJ hn
  obtain ⟨K, hK, hy, hz⟩ := hmaps.shared (apart_of_ambiguous hmaps hclear)
  refine ⟨Nat.le_succ _, K, hK, fun e he => ?_⟩
  rw [Progress.push, Progress.push, List.append_assoc] at he
  rcases List.mem_append.mp he with he | he
  · exact (hp e he).extend hK (Nat.le_succ _)
  · rw [List.singleton_append, List.mem_cons, List.mem_singleton] at he
    rcases he with rfl | rfl
    · exact hy
    · exact hz

/-- The leftovers go to the frames. -/
lemma preserves_settleRest (h : I.Knows n ⟨.map es a, .map fs b⟩) (hclear : ambiguous es fs = false) :
    Preserves I n (settleRest order s t es a fs b) := by
  intro p q J hn hJ hp hq
  have go : ∀ {run : Progress → Except Stuck Progress}, Preserves I n run → run p = .ok q →
      p.supply ≤ q.supply ∧ ∃ K, J.Extends p.supply K ∧ q.KnownTo K := fun hrun => hrun hn hJ hp
  unfold settleRest at hq
  match a, b with
  | none, none =>
      simp only at hq
      split at hq
      · exact absurd hq fail_ne_ok
      · exact absurd hq fail_ne_ok
      · exact go preserves_ok hq
  | some x, none =>
      simp only at hq
      split at hq
      · exact absurd hq fail_ne_ok
      · exact go (preserves_equateVar h.frame) hq
  | none, some y =>
      simp only at hq
      split at hq
      · exact absurd hq fail_ne_ok
      · exact go (preserves_equateVar h.symm.frame.symm) hq
  | some x, some y =>
      simp only at hq
      split at hq
      · split at hq
        · exact absurd hq fail_ne_ok
        · exact absurd hq fail_ne_ok
        · exact go preserves_ok hq
      · split at hq
        · exact go (preserves_equateVar h.frames) hq
        · exact go (preserves_equateVar h.frame) hq
        · exact go (preserves_equateVar h.symm.frame.symm) hq
        · exact go (preserves_mint h hclear) hq

/-! ### Decomposition -/

/-- The decomposition of every equation with the left side `s` that holds. -/
def PreservesAt (I : Interpretation α) (n : Nat) (order : SortOrder) (s : Term) : Prop :=
  ∀ ⦃t⦄, I.Knows n ⟨s, t⟩ → Preserves I n (decompose order false s t)

lemma preserves_decomposeArgs (ih : ∀ s ∈ ss, PreservesAt I n order s)
    (h : List.Forall₂ (fun s t => I.Knows n ⟨s, t⟩) ss ts) :
    Preserves I n (decomposeArgs order false ss ts) := by
  induction h with
  | nil => exact preserves_ok
  | cons hst _ ihs =>
      rw [List.forall_mem_cons] at ih
      exact (ih.1 hst).bind (ihs ih.2)

lemma preserves_decomposeEntries (ih : ∀ e ∈ es, PreservesAt I n order e.2)
    (h : ∀ k v w, (k, v) ∈ es → (k, w) ∈ fs → I.Knows n ⟨v, w⟩) :
    Preserves I n (decomposeEntries order false es fs) := by
  induction es with
  | nil => exact preserves_ok
  | cons e es ihe =>
      obtain ⟨k, v⟩ := e
      rw [List.forall_mem_cons] at ih
      have hrest := ihe ih.2 fun k v w he => h k v w (List.mem_cons_of_mem _ he)
      have hrun := funext fun p => decomposeEntries.eq_2 order false fs p k v es
      rw [hrun]
      cases hw : List.lookup k fs with
      | none => exact hrest
      | some w => exact (ih.1 (h k v w List.mem_cons_self (mem_of_lookup hw))).bind hrest

/-- The case of one term, when its arguments and values have been dealt with. -/
lemma preservesAt_of_parts
    (hargs : ∀ f ss, s = .app f ss → ∀ a ∈ ss, PreservesAt I n order a)
    (hentries : ∀ es x, s = .map es x → ∀ e ∈ es, PreservesAt I n order e.2) :
    PreservesAt I n order s := by
  intro t h
  have hd := decomposed order false s t
  generalize decompose order false s t = run at hd
  cases hd with
  | same => exact preserves_ok
  | left => exact preserves_equateVar h
  | right => exact preserves_equateVar h
  | clash => exact preserves_fail _
  | @args f g ss ts hf hg =>
      have hvalue := h.holds.value
      rw [value_con hf, value_con hg] at hvalue
      exact preserves_decomposeArgs (hargs _ _ rfl) (h.args (Value.con.inj hvalue).2)
  | sizes => exact preserves_fail _
  | @entries es fs x y =>
      refine (preserves_decomposeEntries (hentries _ _ rfl) fun k v w he hf => h.common he hf).bind ?_
      unfold settle
      split
      · exact preserves_settleAmbiguous h.leftover
      · next hclear => exact preserves_settleRest h.leftover (Bool.not_eq_true _ ▸ hclear)
  | kept => exact preserves_keep h

/-- The decomposition of an equation that holds adds equations that hold. -/
theorem preserves_decompose (I : Interpretation α) (n : Nat) (order : SortOrder) (s : Term) :
    PreservesAt I n order s := induction_parts (fun _ => preservesAt_of_parts) s

end Decomposition

/-- The parts of an equation that holds do so as well, with values for the fresh frames given out for
them. -/
theorem Unifier.structural_knows {α : Type} {I : Interpretation α} {order : SortOrder} {e : Equation}
    {parts : List Equation} {n m : Nat} (he : I.Knows n e)
    (h : Unifier.structural order false e n = (.ok (.unique parts), m)) :
    n ≤ m ∧ ∃ J, I.Extends n J ∧ ∀ q ∈ parts, J.Knows m q := by
  obtain ⟨q, hq, rfl, rfl⟩ := Decomposition.structural_parts h
  have hempty : Decomposition.Progress.KnownTo I ⟨[], none, n⟩ := List.forall_mem_nil _
  exact Decomposition.preserves_decompose I n order e.left he (Nat.le_refl n) (.refl I n) hempty hq

end SolvedForm

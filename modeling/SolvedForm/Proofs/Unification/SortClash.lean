import SolvedForm.Proofs.Unification.Decomposition

/-!
The failures of unification.

* `Decomposition.FailsAs`: every failure of a run satisfies a condition; `FailsAs.bind` is for runs one
  after the other.
* `Decomposition.failsAs_decompose`: a decomposition reports a clash of sorts only where the sorts of
  two terms are incompatible.
* `Unifier.incompatible_of_sortClash`: so does the unifier.
-/

namespace SolvedForm

namespace Decomposition

variable {Q : Unification.Failure → Prop} {order : SortOrder} {fold : Bool}
  {run run' : Progress → Except Stuck Progress} {x : Var} {left right s t : Term} {e : Equation}
  {es fs : List Entry} {frame frame' : Option Var}

/-- Every failure of the run satisfies the condition. -/
def FailsAs (Q : Unification.Failure → Prop) (run : Progress → Except Stuck Progress) : Prop :=
  ∀ ⦃p stuck⦄, run p = .error stuck → Q stuck.failure

lemma failsAs_fail {failure : Unification.Failure} (h : Q failure) : FailsAs Q (·.fail failure) := by
  rintro p stuck ⟨⟩
  exact h

lemma FailsAs.bind (h : FailsAs Q run) (h' : FailsAs Q run') : FailsAs Q fun p => run p >>= run' := by
  intro p stuck hp
  dsimp only at hp
  cases hr : run p with
  | error stuck' =>
      rw [hr] at hp
      cases hp
      exact h hr
  | ok q =>
      rw [hr] at hp
      exact h' hp

/-- The failure is no sort clash, or one between terms of incompatible sorts. -/
def Incompatible (order : SortOrder) (failure : Unification.Failure) : Prop :=
  ∀ l r, failure = .sortClash l r →
    order.compatible l.sort r.sort = false ∨ order.compatible r.sort l.sort = false

/-- An equation with a variable as one side and the given term as the other one. -/
lemma failsAs_equateVar (h : e = ⟨.var x, t⟩ ∨ e = ⟨t, .var x⟩) :
    FailsAs (Incompatible order) (equateVar order x t e) := by
  intro p stuck hp
  unfold equateVar at hp
  split at hp
  · next hc =>
      cases hp
      rintro l r ⟨⟩
      rw [Bool.not_eq_true'] at hc
      rcases h with rfl | rfl
      · exact .inl hc
      · exact .inr hc
  · split at hp
    · cases hp
      exact nofun
    · cases hp

lemma failsAs_keep : FailsAs (Incompatible order) (keep e) := by
  intro p stuck hp
  unfold keep at hp
  split at hp
  · cases hp
    exact nofun
  · cases hp

lemma failsAs_settleAmbiguous :
    FailsAs (Incompatible order) (settleAmbiguous fold right es frame fs frame') := by
  intro p stuck hp
  unfold settleAmbiguous at hp
  simp only at hp
  split at hp
  · cases hp
  · split at hp
    · cases hp
    · split at hp
      · cases hp
        exact nofun
      · cases hp
      · cases hp

lemma failsAs_settleRest :
    FailsAs (Incompatible order) (settleRest order left right es frame fs frame') := by
  have missing : ∀ k m : Term, FailsAs (Incompatible order) (·.fail (.missingEntry k m)) :=
    fun _ _ => failsAs_fail nofun
  intro p stuck hp
  unfold settleRest at hp
  split at hp
  · split at hp
    · exact missing _ _ hp
    · exact missing _ _ hp
    · cases hp
  · split at hp
    · exact missing _ _ hp
    · exact failsAs_equateVar (.inl rfl) hp
  · split at hp
    · exact missing _ _ hp
    · exact failsAs_equateVar (.inr rfl) hp
  · split at hp
    · split at hp
      · exact missing _ _ hp
      · exact missing _ _ hp
      · cases hp
    · split at hp
      · exact failsAs_equateVar (.inl rfl) hp
      · exact failsAs_equateVar (.inl rfl) hp
      · exact failsAs_equateVar (.inr rfl) hp
      · exact (failsAs_equateVar (.inl rfl)).bind (failsAs_equateVar (.inr rfl)) hp

lemma failsAs_settle :
    FailsAs (Incompatible order) (settle order fold left right es frame fs frame') := by
  intro p stuck hp
  unfold settle at hp
  split at hp
  · exact failsAs_settleAmbiguous hp
  · exact failsAs_settleRest hp

/-! ### Decomposition -/

lemma failsAs_decomposeArgs {ss ts : List Term}
    (ih : ∀ s ∈ ss, ∀ t, FailsAs Q (decompose order fold s t)) :
    FailsAs Q (decomposeArgs order fold ss ts) := by
  induction ss generalizing ts with
  | nil =>
      intro p stuck hp
      rw [decomposeArgs.eq_2 _ _ _ _ _ (by simp)] at hp
      cases hp
  | cons s ss ihs =>
      rw [List.forall_mem_cons] at ih
      intro p stuck hp
      cases ts with
      | nil =>
          rw [decomposeArgs.eq_2 _ _ _ _ _ (by simp)] at hp
          cases hp
      | cons t ts =>
          rw [decomposeArgs] at hp
          exact (ih.1 t).bind (ihs ih.2) hp

lemma failsAs_decomposeEntries (ih : ∀ e ∈ es, ∀ t, FailsAs Q (decompose order fold e.2 t)) :
    FailsAs Q (decomposeEntries order fold es fs) := by
  induction es with
  | nil => exact nofun
  | cons e es ihe =>
      obtain ⟨k, v⟩ := e
      rw [List.forall_mem_cons] at ih
      intro p stuck hp
      rw [decomposeEntries] at hp
      cases hw : List.lookup k fs with
      | none =>
          simp only [hw] at hp
          exact ihe ih.2 hp
      | some w =>
          simp only [hw] at hp
          exact (ih.1 w).bind (ihe ih.2) hp

/-- A decomposition reports a clash of sorts only where the sorts of two terms are incompatible. -/
theorem failsAs_decompose (s : Term) :
    ∀ t, FailsAs (Incompatible order) (decompose order fold s t) := by
  -- the case of one term, when its arguments and values have been dealt with
  have step : ∀ s : Term,
      (∀ f ss, s = .app f ss → ∀ a ∈ ss, ∀ t, FailsAs (Incompatible order) (decompose order fold a t)) →
      (∀ es x, s = .map es x → ∀ e ∈ es, ∀ t,
        FailsAs (Incompatible order) (decompose order fold e.2 t)) →
      ∀ t, FailsAs (Incompatible order) (decompose order fold s t) := by
    intro s hargs hentries t
    have hd := decomposed order fold s t
    generalize decompose order fold s t = run at hd
    cases hd with
    | same => exact nofun
    | left => exact failsAs_equateVar (.inl rfl)
    | right => exact failsAs_equateVar (.inr rfl)
    | clash => exact failsAs_fail nofun
    | args => exact failsAs_decomposeArgs (hargs _ _ rfl)
    | sizes => exact failsAs_fail nofun
    | entries => exact (failsAs_decomposeEntries (hentries _ _ rfl)).bind failsAs_settle
    | kept => exact failsAs_keep
  induction s using Term.ind with
  | app f args ih =>
      refine step _ ?_ nofun
      rintro _ _ ⟨⟩
      exact ih
  | map entries frame ih =>
      refine step _ nofun ?_
      rintro _ _ ⟨⟩
      exact fun e he => (ih e he).2
  | var | bool | int | lookup => exact step _ nofun nofun

end Decomposition

/-- The unifier reports a clash of sorts only where the sorts of two terms are incompatible. -/
theorem Unifier.incompatible_of_sortClash {order : SortOrder} {fold : Bool} {e : Equation}
    {l r : Term} {n m : Nat}
    (h : Unifier.structural order fold e n = (.error (.sortClash l r), m)) :
    order.compatible l.sort r.sort = false ∨ order.compatible r.sort l.sort = false := by
  unfold Unifier.structural at h
  split at h
  · cases h
  · next stuck hstuck =>
      refine Decomposition.failsAs_decompose e.left e.right hstuck l r ?_
      exact Except.error.inj (Prod.mk.inj h).1

end SolvedForm

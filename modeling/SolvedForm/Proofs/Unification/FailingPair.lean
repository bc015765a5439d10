import Mathlib
import SolvedForm.Proofs.Unification.SortClash

/-!
The pair of terms that a failed unification reports.

* `Decomposition.FailsAlone`: the reported pair fails by itself, and in the same way.
* `Decomposition.decompose_lookup_key`: a lookup and its key are not taken apart.
* `Decomposition.failsAs_alone`: a decomposition fails on such a pair, or misses an entry of a map.
* `Unifier.structural_failing_pair`: the reported pair of terms fails as well, except that of a missing
  entry, which fails only on the sort of a variable.
-/

namespace SolvedForm

open Unification

namespace Decomposition

variable {order : SortOrder} {fold : Bool} {failure : Failure} {x : Var} {left right s t m k : Term}
  {e : Equation} {es fs : List Entry} {frame frame' : Option Var}

/-- The reported pair of terms fails by itself, in the same way. -/
def FailsAlone (order : SortOrder) (failure : Failure) : Prop :=
  ∀ fold, decompose order fold failure.pair.left failure.pair.right = (·.fail failure)

/-- The failure is a missing entry, or its pair fails by itself. -/
def Reproducible (order : SortOrder) (failure : Failure) : Prop :=
  (∃ key map, failure = .missingEntry key map) ∨ FailsAlone order failure

/-! ### Equations with a variable -/

lemma failsAs_left (hne : .var x ≠ t) :
    FailsAs (Reproducible order) (equateVar order x t ⟨.var x, t⟩) := by
  intro p stuck hp
  refine .inr fun fold => ?_
  unfold equateVar at hp
  split at hp
  · next hc =>
      cases hp
      rw [Failure.pair, decompose_var_left order fold hne]
      exact funext fun q => if_pos hc
  · next hc =>
      split at hp
      · next ho =>
          cases hp
          rw [Failure.pair, decompose_var_left order fold hne]
          exact funext fun q => (if_neg hc).trans (if_pos ho)
      · cases hp

lemma failsAs_right (hs : s.asVar = none) :
    FailsAs (Reproducible order) (equateVar order x s ⟨s, .var x⟩) := by
  intro p stuck hp
  refine .inr fun fold => ?_
  unfold equateVar at hp
  split at hp
  · next hc =>
      cases hp
      rw [Failure.pair, decompose_var_right order fold hs]
      exact funext fun q => if_pos hc
  · next hc =>
      split at hp
      · next ho =>
          cases hp
          have hne : .var x ≠ s := by
            rintro rfl
            cases hs
          -- the occurs check is reported with the variable on the left
          rw [Failure.pair, decompose_var_left order fold hne]
          exact funext fun q => (if_neg hc).trans (if_pos ho)
      · cases hp

/-! ### Missing entries -/

lemma ne_lookup (m k : Term) : Term.lookup m k ≠ k := fun h => by
  have hsize := congrArg sizeOf h
  rw [Term.lookup.sizeOf_spec] at hsize
  omega

/-- The lookup of a variable and the variable itself are refused on their sorts, or not at all. -/
lemma decompose_lookup_var (order : SortOrder) (fold : Bool) (p : Progress) :
    decompose order fold (.lookup m (.var x)) (.var x) p =
      if order.compatible x.sort .top = false then p.fail (.sortClash (.lookup m (.var x)) (.var x))
      else .ok (p.push [⟨.lookup m (.var x), .var x⟩]) := by
  rw [decompose_var_right order fold rfl, equateVar]
  simp [Term.sort, occursRigidly]

/-- The lookup of any other key and the key itself are not taken apart. -/
lemma decompose_lookup_key (order : SortOrder) (fold : Bool) (hk : k.asVar = none) (p : Progress) :
    decompose order fold (.lookup m k) k p = .ok (p.push [⟨.lookup m k, k⟩]) := by
  have hne := ne_lookup m k
  cases k with
  | var x => cases hk
  | bool | int | app | map | lookup =>
      rw [decompose.eq_def]
      simp only [hne, ↓reduceIte]
      simp [keep, Term.headsClash, Term.head]

lemma failsAs_settleAmbiguous_missing :
    FailsAs (Reproducible order) (settleAmbiguous fold right es frame fs frame') := by
  intro p stuck hp
  unfold settleAmbiguous at hp
  simp only at hp
  split at hp
  · cases hp
  · split at hp
    · cases hp
    · split at hp
      · cases hp
        exact .inl ⟨_, _, rfl⟩
      · cases hp
      · cases hp

/-- What is left over between two maps misses an entry, or goes to a frame. -/
lemma failsAs_settleRest_missing :
    FailsAs (Reproducible order) (settleRest order left right es frame fs frame') := by
  have missing : ∀ k m : Term, FailsAs (Reproducible order) (·.fail (.missingEntry k m)) :=
    fun k m => failsAs_fail (.inl ⟨k, m, rfl⟩)
  have frameL : ∀ (x : Var) (gs : List Entry) (z : Option Var), FailsAs (Reproducible order)
      (equateVar order x (.ofEntries gs z) ⟨.var x, .ofEntries gs z⟩) :=
    fun _ _ _ => failsAs_left Term.noConfusion
  have frameR : ∀ (x : Var) (gs : List Entry) (z : Option Var), FailsAs (Reproducible order)
      (equateVar order x (.ofEntries gs z) ⟨.ofEntries gs z, .var x⟩) :=
    fun _ _ _ => failsAs_right rfl
  intro p stuck hp
  unfold settleRest at hp
  split at hp
  · split at hp
    · exact missing _ _ hp
    · exact missing _ _ hp
    · cases hp
  · split at hp
    · exact missing _ _ hp
    · exact frameL _ _ _ hp
  · split at hp
    · exact missing _ _ hp
    · exact frameR _ _ _ hp
  · split at hp
    · split at hp
      · exact missing _ _ hp
      · exact missing _ _ hp
      · cases hp
    · next hxy =>
        split at hp
        · exact failsAs_left (by simpa using hxy) hp
        · exact frameL _ _ _ hp
        · exact frameR _ _ _ hp
        · exact (frameL _ _ _).bind (frameR _ _ _) hp

lemma failsAs_settle_missing :
    FailsAs (Reproducible order) (settle order fold left right es frame fs frame') := by
  intro p stuck hp
  unfold settle at hp
  split at hp
  · exact failsAs_settleAmbiguous_missing hp
  · exact failsAs_settleRest_missing hp

/-! ### Decomposition -/

lemma failsAs_keep_alone (hrun : ∀ fold, decompose order fold s t = keep ⟨s, t⟩) :
    FailsAs (Reproducible order) (keep ⟨s, t⟩) := by
  intro p stuck hp
  unfold keep at hp
  split at hp
  · next hc =>
      cases hp
      exact .inr fun fold => (hrun fold).trans (funext fun q => if_pos hc)
  · cases hp

/-- The case of one term, when its arguments and values have been dealt with. -/
lemma failsAs_alone_of_parts
    (hargs : ∀ f ss, s = .app f ss → ∀ a ∈ ss, ∀ t,
      FailsAs (Reproducible order) (decompose order fold a t))
    (hentries : ∀ es x, s = .map es x → ∀ e ∈ es, ∀ t,
      FailsAs (Reproducible order) (decompose order fold e.2 t)) :
    FailsAs (Reproducible order) (decompose order fold s t) := by
  have hrun := fun fold => funext fun p => decompose.eq_def order fold s t p
  by_cases hst : s = t
  · subst hst
    simp only [↓reduceIte] at hrun
    rw [hrun]
    intro p stuck hp
    cases hp
  · simp only [hst, ↓reduceIte] at hrun
    cases s <;> cases t <;>
      first
      | exact hrun fold ▸ failsAs_left hst
      | exact hrun fold ▸ failsAs_right rfl
      | exact hrun fold ▸ failsAs_keep_alone hrun
      | skip
    · next f ss g ts =>
        dsimp only at hrun
        split_ifs at hrun
        · exact hrun fold ▸ failsAs_fail (.inr hrun)
        · exact hrun fold ▸ failsAs_decomposeArgs (hargs f ss rfl)
        · exact hrun fold ▸ failsAs_keep_alone hrun
    · next es x fs y =>
        dsimp only at hrun
        split_ifs at hrun
        · exact hrun fold ▸ failsAs_fail (.inr hrun)
        · exact hrun fold ▸ (failsAs_decomposeEntries (hentries es x rfl)).bind failsAs_settle_missing

/-- A decomposition fails on a pair that fails by itself, or misses an entry of a map. -/
theorem failsAs_alone (s : Term) :
    ∀ t, FailsAs (Reproducible order) (decompose order fold s t) :=
  induction_parts (fun _ hargs hentries _ => failsAs_alone_of_parts hargs hentries) s

end Decomposition

/-! ### The unifier -/

/-- Where unification fails, it fails in the same way on the pair of terms that it reports. That of a
missing entry, the lookup of the key and the key itself, fails if and only if the key is a variable
whose sort is not compatible with that of lookups. -/
theorem Unifier.structural_failing_pair {order : SortOrder} {fold : Bool} {e : Equation}
    {failure : Failure} {n m : Nat}
    (h : Unifier.structural order fold e n = (.error failure, m)) (fold' : Bool) (k : Nat) :
    ((∀ key map, failure ≠ .missingEntry key map) →
      Unifier.structural order fold' failure.pair k = (.error failure, k)) ∧
    ∀ key map, failure = .missingEntry key map →
      ((∃ failure', Unifier.structural order fold' failure.pair k = (.error failure', k)) ↔
        ∃ x, key = .var x ∧ order.compatible x.sort .top = false) := by
  have hreproducible : Decomposition.Reproducible order failure := by
    unfold Unifier.structural at h
    split at h
    · cases h
    · next stuck hstuck =>
        cases h
        exact Decomposition.failsAs_alone e.left e.right hstuck
  refine ⟨fun hne => ?_, ?_⟩
  · rcases hreproducible with ⟨key, map, hmissing⟩ | halone
    · exact absurd hmissing (hne key map)
    · rw [Unifier.structural, halone fold']
      rfl
  · rintro key map rfl
    rw [Unifier.structural, Failure.pair]
    obtain ⟨x, rfl⟩ | hkey : (∃ x, key = .var x) ∨ key.asVar = none := by
      cases key <;> simp [Term.asVar]
    · rw [Decomposition.decompose_lookup_var]
      split_ifs with hsort
      · exact iff_of_true ⟨_, rfl⟩ ⟨x, rfl, hsort⟩
      · refine iff_of_false (by rintro ⟨_, ⟨⟩⟩) ?_
        rintro ⟨_, ⟨⟩, hx⟩
        exact hsort hx
    · rw [Decomposition.decompose_lookup_key order fold' hkey]
      refine iff_of_false (by rintro ⟨_, ⟨⟩⟩) ?_
      rintro ⟨x, rfl, -⟩
      cases hkey

/-- The frame `F` of a map of two entries occurs in an entry that is left over for it on the other
side: the pair that fails the occurs check is reported, and fails again. -/
theorem Unifier.structural_failing_pair_frame :
    let frame : Var := ⟨"F", .map, false, none⟩
    let order := Subsorts.builtin.order
    let l : Term := .map [(.int 1, .int 10)] (some frame)
    let r : Term := .map [(.int 1, .int 10), (.int 2, .var frame)] none
    let failure : Failure := .occursCheck frame (.map [(.int 2, .var frame)] none)
    Unifier.structural order true ⟨l, r⟩ 0 = (.error failure, 0) ∧
      Unifier.structural order false failure.pair 0 = (.error failure, 0) := by
  intro frame order l r failure
  have hrun : Unifier.structural order true ⟨l, r⟩ 0 = (.error failure, 0) := by cbv
  exact ⟨hrun, (structural_failing_pair hrun false 0).1 (by simp [failure])⟩

/-- The pair of a missing entry is left as it is: `{1 |-> 10}` and `{2 |-> 10}` do not unify, but the
lookup of `1` in `{2 |-> 10}` and `1` do. -/
theorem Unifier.structural_failing_pair_missing :
    ∃ (e : Equation) (failure : Failure),
      Unifier.structural Subsorts.builtin.order false e 0 = (.error failure, 0) ∧
        Unifier.structural Subsorts.builtin.order false failure.pair 0 =
          (.ok (.unique [failure.pair]), 0) :=
  ⟨⟨.map [(.int 1, .int 10)] none, .map [(.int 2, .int 10)] none⟩,
    .missingEntry (.int 1) (.map [(.int 2, .int 10)] none), by cbv, by cbv⟩

end SolvedForm

import Mathlib.Data.List.Nodup
import SolvedForm.Proofs.Equation
import SolvedForm.Proofs.Subsort
import SolvedForm.Proofs.Unification.SortClash

/-!
Compatible sorts, and the subsorts that they share.

* `Subsorts.Common`, `Subsorts.MaximalCommon`: the sorts below two sorts, and the maximal ones among
  them.
* `Subsorts.Ambiguous`: sorts that share subsorts, but not exactly one maximal one.
* `Subsorts.WellFormed`: what all declarations keep of the known sorts.
* `Subsorts.WellFormed.compatible_iff`: when sorts are compatible.
* `Subsorts.compatible_iff_of_declared`: under all declarations, compatible sorts are those that share a
  subsort, ambiguous sorts apart; with what follows for equations and for unification.
* `Subsorts.incompatible_of_two_maximal`: ambiguous sorts are taken to share no subsort.
-/

namespace SolvedForm.Subsorts

variable {d : Subsorts} {s t u : SortName}

/-- The sort is at or below both of two sorts. -/
def Common (d : Subsorts) (s t u : SortName) : Prop := d.le u s = true ∧ d.le u t = true

/-- The sort is at or below both of two sorts, and no other such sort is above it. -/
def MaximalCommon (d : Subsorts) (s t u : SortName) : Prop :=
  d.Common s t u ∧ ∀ v, d.Common s t v → d.le u v = true → v = u

/-- The sorts share subsorts, but neither is below the other one, and there is not exactly one maximal
sort below both. -/
def Ambiguous (d : Subsorts) (s t : SortName) : Prop :=
  (∃ u, d.Common s t u) ∧ ¬ d.le s t = true ∧ ¬ d.le t s = true ∧ ¬ ∃! u, d.MaximalCommon s t u

lemma common_comm : d.Common s t u ↔ d.Common t s u := and_comm

/-! ### Declarations -/

/-- Every known sort is listed once, and whatever is recorded below some sort is known. -/
structure WellFormed (d : Subsorts) : Prop where
  nodup : d.known.Nodup
  known : ∀ p ∈ d.pairs, p.1 ∈ d.known

lemma mem_below : s ∈ d.below t ↔ (s, t) ∈ d.pairs := by
  simp [below]

lemma WellFormed.declare (h : d.WellFormed) (sub sup : SortName) : (d.declare sub sup).WellFormed where
  nodup := List.Nodup.union [sub, sup] h.nodup
  known := by
    intro p hp
    have hp : p ∈ ((sub :: d.below sub).flatMap fun s => (sup :: d.above sup).map fun t => (s, t)) ∪
        d.pairs := hp
    change p.1 ∈ [sub, sup] ∪ d.known
    rw [List.mem_union_iff]
    rcases List.mem_union_iff.mp hp with hp | hp
    · obtain ⟨s, hs, hp⟩ := List.mem_flatMap.mp hp
      obtain ⟨t, -, rfl⟩ := List.mem_map.mp hp
      rcases List.mem_cons.mp hs with rfl | hs
      · exact .inl List.mem_cons_self
      · exact .inr (h.known (s, sub) (mem_below.mp hs))
    · exact .inr (h.known p hp)

lemma WellFormed.declareAll (h : d.WellFormed) (declarations : List (SortName × SortName)) :
    (d.declareAll declarations).WellFormed := by
  induction declarations generalizing d with
  | nil => exact h
  | cons p declarations ih => exact ih (h.declare p.1 p.2)

lemma wellFormed_builtin : builtin.WellFormed where
  nodup := by decide
  known := by decide

/-! ### Lower bounds -/

/-- Where neither of two sorts is below the other one, what is below both is known. -/
lemma WellFormed.mem_known (h : d.WellFormed) (hst : ¬ d.le s t = true) (hts : ¬ d.le t s = true)
    (hu : d.Common s t u) : u ∈ d.known := by
  obtain ⟨hus, hut⟩ := hu
  simp only [le, Bool.or_eq_true, decide_eq_true_eq] at hus
  rcases hus with (rfl | rfl) | hpair
  · exact absurd hut hst
  · exact absurd (by simp [le]) hts
  · exact h.known _ hpair

lemma WellFormed.mem_lowerBounds (h : d.WellFormed) (hst : ¬ d.le s t = true)
    (hts : ¬ d.le t s = true) : u ∈ d.lowerBounds s t ↔ d.Common s t u := by
  rw [lowerBounds, List.mem_filter, Bool.and_eq_true]
  exact ⟨And.right, fun hu => ⟨h.mem_known hst hts hu, hu⟩⟩

lemma WellFormed.mem_maximal (h : d.WellFormed) (hst : ¬ d.le s t = true)
    (hts : ¬ d.le t s = true) : u ∈ d.maximal (d.lowerBounds s t) ↔ d.MaximalCommon s t u := by
  simp only [maximal, List.mem_filter, List.all_eq_true, h.mem_lowerBounds hst hts, Bool.or_eq_true,
    decide_eq_true_eq, Bool.not_eq_true']
  refine and_congr_right fun _ => forall₂_congr fun v _ => ?_
  cases d.le u v <;> simp

/-- A list without repetition has a single element when exactly one thing belongs to it. -/
lemma existsUnique_mem_iff {α : Type} {as : List α} (h : as.Nodup) :
    (∃! a, a ∈ as) ↔ ∃ a, as = [a] := by
  constructor
  · rintro ⟨a, ha, hunique⟩
    exact ⟨a, List.perm_singleton.mp ((List.perm_ext_iff_of_nodup h (List.nodup_singleton a)).mpr
      fun b => ⟨fun hb => List.mem_singleton.mpr (hunique b hb),
        fun hb => List.mem_singleton.mp hb ▸ ha⟩)⟩
  · rintro ⟨a, rfl⟩
    exact ⟨a, by simp, by simp⟩

/-! ### Compatible sorts -/

/-- Sorts are compatible when one is below the other one, or there is exactly one maximal sort below
both. -/
theorem WellFormed.compatible_iff (h : d.WellFormed) : d.order.compatible s t = true ↔
    d.le s t = true ∨ d.le t s = true ∨ ∃! u, d.MaximalCommon s t u := by
  by_cases hst : d.le s t = true
  · simp [SortOrder.compatible, order, glb, hst]
  · by_cases hts : d.le t s = true
    · simp [SortOrder.compatible, order, glb, hst, hts]
    · have hnodup : (d.maximal (d.lowerBounds s t)).Nodup := (h.nodup.filter _).filter _
      simp only [hst, hts, ← h.mem_maximal hst hts, existsUnique_mem_iff hnodup]
      simp only [SortOrder.compatible, order, glb, hst, hts, Bool.false_eq_true, ↓reduceIte]
      split
      · next u hu => simp [hu]
      · next hne => simpa using hne

/-- Sorts are compatible when they share a subsort and are not ambiguous. -/
lemma WellFormed.compatible_iff_common (h : d.WellFormed) : d.order.compatible s t = true ↔
    (∃ u, d.Common s t u) ∧ ¬ d.Ambiguous s t := by
  have common : d.le s t = true ∨ d.le t s = true ∨ (∃! u, d.MaximalCommon s t u) →
      ∃ u, d.Common s t u := by
    rintro (hst | hts | ⟨u, hu, -⟩)
    · exact ⟨s, by simp [le], hst⟩
    · exact ⟨t, hts, by simp [le]⟩
    · exact ⟨u, hu.1⟩
  rw [h.compatible_iff, Ambiguous, not_and, ← not_or, ← not_or, not_not]
  exact ⟨fun hc => ⟨common hc, fun _ => hc⟩, fun hc => hc.2 hc.1⟩

lemma WellFormed.compatible_comm (h : d.WellFormed) :
    d.order.compatible s t = d.order.compatible t s := by
  rw [Bool.eq_iff_iff, h.compatible_iff, h.compatible_iff, or_left_comm]
  simp only [MaximalCommon, common_comm (s := s)]

/-- Sorts that are not compatible share no subsort, unless they are ambiguous. -/
lemma WellFormed.ambiguous_of_common (h : d.WellFormed) (hst : d.order.compatible s t = false)
    (hu : ∃ u, d.Common s t u) : d.Ambiguous s t := by
  by_contra ha
  exact absurd (h.compatible_iff_common.mpr ⟨hu, ha⟩) (by simp [hst])

/-- Whatever is declared, sorts are compatible exactly when they share a subsort, ambiguous sorts
apart. So the sides of an equation that is false because of their sorts, and terms between which the
unifier reports a clash of sorts, share no subsort, unless their sorts are ambiguous. -/
theorem compatible_iff_of_declared (declarations : List (SortName × SortName)) :
    let d := builtin.declareAll declarations
    (∀ s t, d.order.compatible s t = true ↔ (∃ u, d.Common s t u) ∧ ¬ d.Ambiguous s t) ∧
      (∀ e : Equation, e.truth d.order = .false → e.left.provablyDistinct e.right = false →
        (∃ u, d.Common e.left.sort e.right.sort u) → d.Ambiguous e.left.sort e.right.sort) ∧
      ∀ fold e l r n m, Unifier.structural d.order fold e n = (.error (.sortClash l r), m) →
        (∃ u, d.Common l.sort r.sort u) → d.Ambiguous l.sort r.sort := by
  intro d
  have hd : d.WellFormed := wellFormed_builtin.declareAll declarations
  refine ⟨fun s t => hd.compatible_iff_common, fun e he hdistinct => ?_, fun fold e l r n m h => ?_⟩
  · have hsorts := (Equation.truth_eq_false_iff.mp he).2.resolve_right (by simp [hdistinct])
    exact hd.ambiguous_of_common hsorts
  · rcases Unifier.incompatible_of_sortClash h with hlr | hrl
    · exact hd.ambiguous_of_common hlr
    · exact hd.ambiguous_of_common (hd.compatible_comm.trans hrl)

/-- Two sorts with two maximal common subsorts count as incompatible: an equation between variables of
these sorts is false, and the unifier refuses it. -/
theorem incompatible_of_two_maximal :
    let exp : SortName := ⟨"Exp"⟩
    let val : SortName := ⟨"Val"⟩
    let d := builtin.declareAll
      [(⟨"Lit"⟩, exp), (⟨"Lit"⟩, val), (⟨"Lit2"⟩, exp), (⟨"Lit2"⟩, val)]
    let x : Term := .var ⟨"X", exp, false, none⟩
    let y : Term := .var ⟨"Y", val, false, none⟩
    ¬ (d.order.compatible exp val = true ↔ ∃ u, d.Common exp val u) ∧
      (∃ u, d.Common x.sort y.sort u) ∧ x.provablyDistinct y = false ∧
      Equation.truth d.order ⟨x, y⟩ = .false ∧
      Unifier.structural d.order false ⟨x, y⟩ 0 = (.error (.sortClash x y), 0) := by
  intro exp val d x y
  have hshared : d.Common exp val ⟨"Lit"⟩ := ⟨by decide, by decide⟩
  have hincompatible : d.order.compatible exp val = false := by decide
  refine ⟨fun h => ?_, ⟨⟨"Lit"⟩, hshared⟩, rfl, ?_, ?_⟩
  · exact absurd (h.mpr ⟨_, hshared⟩) (by simp [hincompatible])
  · exact Equation.truth_eq_false_iff.mpr ⟨by decide, .inl hincompatible⟩
  · have hne : x ≠ y := by decide
    have hdecompose : Decomposition.decompose d.order false x y ⟨[], none, 0⟩ =
        .error ⟨.sortClash x y, 0⟩ := by
      rw [Decomposition.decompose, if_neg hne]
      exact if_pos (Bool.not_eq_true' _ ▸ hincompatible)
    rw [Unifier.structural, hdecompose]

end SolvedForm.Subsorts

import Mathlib.Tactic.Common
import SolvedForm.Subsort

/-!
Compatible sorts.

* `Subsorts.compatible_self`, `Subsorts.compatible_top_left`, `Subsorts.compatible_top_right`: a
  sort is compatible with itself and with the top sort.
* `Subsorts.eq_of_compatible_builtin`: with the built-in declarations alone no other sorts are
  compatible.
-/

namespace SolvedForm.Subsorts

variable {s t : SortName}

lemma compatible_top_left (d : Subsorts) (s : SortName) :
    d.order.compatible .top s = true := by
  simp [SortOrder.compatible, order, glb, le]
  split <;> rfl

lemma compatible_top_right (d : Subsorts) (s : SortName) :
    d.order.compatible s .top = true := by
  simp [SortOrder.compatible, order, glb, le]

lemma compatible_self (d : Subsorts) (s : SortName) : d.order.compatible s s = true := by
  simp [SortOrder.compatible, order, glb, le]

/-- With the built-in declarations a sort lies below itself and the top sort only. -/
lemma le_builtin_iff (ht : t ≠ .top) : builtin.le s t = true ↔ s = t := by
  have above : ∀ p ∈ builtin.pairs, p.2 = SortName.top := by decide
  simp only [le, Bool.or_eq_true, decide_eq_true_eq, ht, or_false, or_iff_left_iff_imp]
  exact fun h => absurd (above _ h) ht

lemma eq_of_compatible_builtin (hs : s ≠ .top) (ht : t ≠ .top)
    (h : builtin.order.compatible s t = true) : s = t := by
  by_contra hne
  have hst : builtin.le s t = false := by
    rw [Bool.eq_false_iff, ne_eq, le_builtin_iff ht]
    exact hne
  have hts : builtin.le t s = false := by
    rw [Bool.eq_false_iff, ne_eq, le_builtin_iff hs]
    exact Ne.symm hne
  have hbounds : builtin.lowerBounds s t = [] := by
    rw [lowerBounds, List.filter_eq_nil_iff]
    intro u _ hu
    rw [Bool.and_eq_true, le_builtin_iff hs, le_builtin_iff ht] at hu
    exact hne (hu.1.symm.trans hu.2)
  simp [SortOrder.compatible, order, glb, hst, hts, hbounds, maximal] at h

end SolvedForm.Subsorts

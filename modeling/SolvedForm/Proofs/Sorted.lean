import Mathlib.Tactic.Common
import Mathlib.Data.List.Basic
import Mathlib.Data.List.Destutter
import SolvedForm.Sorted

/-!
Increasing lists are canonical: over a lawful comparison the increasing list of a list
depends on the elements of that list alone.

* `Sorted.increasing_ofList`, `Sorted.ofList_eq_self`: the lists that `ofList` makes are
  increasing, and it leaves an increasing list as it is.
* `Sorted.Increasing.ext`: two increasing lists with the same elements are equal.
* `Sorted.ofList_eq_destutter_mergeSort`: `ofList` reaches what sorting does, once everything that
  equals its predecessor has been left out of the sorted list.
* `Sorted.ofList_congr`, `Sorted.ofList_perm`: what follows for the lists that `ofList` makes.
-/

namespace SolvedForm.Sorted

open Std

variable {α : Type} {cmp : α → α → Ordering}

lemma mem_ofList_iff [LawfulEqCmp cmp] {a : α} {as : List α} : a ∈ ofList cmp as ↔ a ∈ as :=
  mem_ofList LawfulEqCmp.eq_of_compare

lemma Increasing.nodup [ReflCmp cmp] {as : List α} (h : Increasing cmp as) : as.Nodup :=
  h.imp fun hab he => by simp [he, ReflCmp.compare_self] at hab

/-- A list in weak order is increasing when nothing occurs twice in it. -/
lemma increasing_of_nodup [LawfulEqCmp cmp] {as : List α}
    (h : as.Pairwise fun a b => (cmp a b).isLE) (hnodup : as.Nodup) : Increasing cmp as := by
  refine h.imp₂ (fun a b hab hne => ?_) hnodup
  rw [Ordering.isLE_iff_eq_lt_or_eq_eq] at hab
  exact hab.resolve_right fun heq => hne (LawfulEqCmp.eq_of_compare heq)

lemma isLE_total [OrientedCmp cmp] (a b : α) : ((cmp a b).isLE || (cmp b a).isLE) = true := by
  rw [@OrientedCmp.eq_swap _ cmp _ b a]
  cases cmp a b <;> rfl

section Ordered

variable [TransCmp cmp] [LawfulEqCmp cmp]

lemma Increasing.insert {a : α} {as : List α} (h : Increasing cmp as) :
    Increasing cmp (insert cmp a as) := by
  induction as with
  | nil => simp [Sorted.insert, Increasing]
  | cons b bs ih =>
      have hb := List.pairwise_cons.mp h
      unfold Sorted.insert
      split
      · next hab =>
          refine List.pairwise_cons.mpr ⟨fun c hc => ?_, h⟩
          rcases List.mem_cons.mp hc with rfl | hc
          · exact hab
          · exact TransCmp.lt_trans hab (hb.1 c hc)
      · exact h
      · next hab =>
          refine List.pairwise_cons.mpr ⟨fun c hc => ?_, ih hb.2⟩
          rcases (mem_insert LawfulEqCmp.eq_of_compare).mp hc with rfl | hc
          · exact OrientedCmp.lt_of_gt hab
          · exact hb.1 c hc

lemma increasing_ofList (as : List α) : Increasing cmp (ofList cmp as) := by
  induction as with
  | nil => exact List.Pairwise.nil
  | cons a as ih => exact ih.insert

/-- An increasing list is determined by its elements. -/
lemma Increasing.ext {as bs : List α} (ha : Increasing cmp as) (hb : Increasing cmp bs)
    (h : ∀ c, c ∈ as ↔ c ∈ bs) : as = bs :=
  List.Perm.eq_of_pairwise
    (fun a b _ _ hab hba => absurd hba (@OrientedCmp.not_lt_of_lt _ cmp _ a b hab)) ha hb
    ((List.perm_ext_iff_of_nodup ha.nodup hb.nodup).mpr h)

/-- Only the elements of a list count for its increasing list. -/
lemma ofList_congr {as bs : List α} (h : ∀ c, c ∈ as ↔ c ∈ bs) :
    ofList cmp as = ofList cmp bs :=
  (increasing_ofList as).ext (increasing_ofList bs) fun c => by
    rw [mem_ofList_iff, mem_ofList_iff, h]

lemma ofList_eq_self {as : List α} (h : Increasing cmp as) : ofList cmp as = as :=
  (increasing_ofList as).ext h fun _ => mem_ofList_iff

lemma ofList_perm {as : List α} (h : as.Nodup) : (ofList cmp as).Perm as :=
  (List.perm_ext_iff_of_nodup (increasing_ofList as).nodup h).mpr fun _ => mem_ofList_iff

lemma length_ofList {as : List α} (h : as.Nodup) : (ofList cmp as).length = as.length :=
  (ofList_perm h).length_eq

/-- In a sorted list equal elements stand side by side, so that it is enough to compare every element
with its predecessor in order to find the repetitions. -/
theorem ofList_eq_destutter_mergeSort [DecidableEq α] (as : List α) :
    ofList cmp as = (as.mergeSort fun a b => (cmp a b).isLE).destutter (· ≠ ·) := by
  have antisymm : Std.Antisymm fun a b => (cmp a b).isLE :=
    ⟨fun _ _ hab hba => LawfulEqCmp.eq_of_compare (OrientedCmp.isLE_antisymm hab hba)⟩
  have hsort : (as.mergeSort fun a b => (cmp a b).isLE).Pairwise fun a b => (cmp a b).isLE :=
    List.pairwise_mergeSort (fun _ _ _ => TransCmp.isLE_trans) isLE_total as
  rw [hsort.destutter_eq_dedup]
  refine (increasing_ofList as).ext ?_ fun c => ?_
  · exact increasing_of_nodup (hsort.sublist (List.dedup_sublist _)) (List.nodup_dedup _)
  · rw [mem_ofList_iff, List.mem_dedup, List.mem_mergeSort]

end Ordered

end SolvedForm.Sorted

import Mathlib.Algebra.BigOperators.Ring.List
import Mathlib.Algebra.Ring.Nat
import SolvedForm.Proofs.Unification.Pairing

/-!
How many pairings there are.

* `Pairing.count`: the number of ways to give the members of one list different partners in another
  list, by the choices of the search.
* `Pairing.length_firstN`: the search finds as many pairings as there are, up to its bound.
* `Pairing.count_swap`: between lists of the same length the number is the same from both sides.
-/

namespace SolvedForm.Pairing

variable {α β : Type} {n : Nat} {e : Entry} {es fs : List Entry}

/-- The number of ways to give every member of the first list a partner in the second list that fits,
no two members the same one. -/
def count (fits : α → β → Bool) : List α → List β → Nat
  | [], _ => 1
  | a :: as, bs => ((picks bs).map fun p => (fits a p.1).toNat * count fits as p.2).sum

/-- The search adds the pairings of one choice after the other, up to its bound. -/
lemma length_foldl_extend {ps : List (Entry × List Entry)} {found : List (List Equation)}
    (hes : ∀ m fs, (firstN m es fs).length = min m (count mayMatch es fs))
    (hfound : found.length ≤ n) :
    ((ps.filter fun p => mayMatch e p.1).foldl (extend n e es) found).length =
      min n (found.length +
        (ps.map fun p => (mayMatch e p.1).toNat * count mayMatch es p.2).sum) := by
  induction ps generalizing found with
  | nil => simp [hfound]
  | cons p ps ih =>
      rw [List.filter_cons, List.map_cons, List.sum_cons]
      cases hp : mayMatch e p.1 with
      | false =>
          rw [Bool.toNat_false, Nat.zero_mul, Nat.zero_add, if_neg Bool.false_ne_true]
          exact ih hfound
      | true =>
          rw [Bool.toNat_true, Nat.one_mul, if_pos rfl, List.foldl_cons]
          have hlength : (extend n e es found p).length =
              min n (found.length + count mayMatch es p.2) := by
            unfold extend
            split
            · rw [List.length_append, List.length_map, hes]
              omega
            · omega
          rw [ih (by omega), hlength]
          omega

/-- As many pairings are found as there are, up to the bound. -/
theorem length_firstN (n : Nat) (es fs : List Entry) :
    (firstN n es fs).length = min n (count mayMatch es fs) := by
  induction es generalizing n fs with
  | nil =>
      rw [firstN, List.length_take]
      rfl
  | cons e es ih =>
      rw [firstN_cons, length_foldl_extend ih (Nat.zero_le n), List.length_nil, Nat.zero_add]
      rfl

/-! ### From the other side -/

lemma length_of_mem_picks {as : List α} {r : α × List α} (h : r ∈ picks as) :
    r.2.length + 1 = as.length :=
  (perm_of_mem_picks h).length_eq

lemma sum_map_comm (as : List α) (bs : List β) (f : α → β → Nat) :
    (as.map fun a => (bs.map (f a)).sum).sum = (bs.map fun b => (as.map (f · b)).sum).sum := by
  induction as with
  | nil => simp
  | cons a as ih => simp only [List.map_cons, List.sum_cons, ih, List.sum_map_add]

/-- The first two members are partners, or each has a partner among the others. -/
lemma count_cons_cons (fits : α → β → Bool) (a : α) (as : List α) (b : β) (bs : List β) :
    count fits (a :: as) (b :: bs) = (fits a b).toNat * count fits as bs +
      ((picks bs).map fun p => (fits a p.1).toNat * count fits as (b :: p.2)).sum := by
  rw [count, picks, List.map_cons, List.sum_cons, List.map_map]
  rfl

/-- Where the first members are not partners, the partner `p.1` of the one and the partner `q.1` of the
other are left out on both sides. -/
lemma sum_crossed {fits : α → β → Bool} {a : α} {as : List α} {b : β} {bs : List β}
    (h : ∀ p ∈ picks bs,
      count fits as (b :: p.2) = count (fun b a => fits a b) (b :: p.2) as) :
    ((picks bs).map fun p => (fits a p.1).toNat * count fits as (b :: p.2)).sum =
      ((picks bs).map fun p => ((picks as).map fun q => (fits a p.1).toNat *
        ((fits q.1 b).toNat * count (fun b a => fits a b) p.2 q.2)).sum).sum := by
  refine congrArg List.sum (List.map_congr_left fun p hp => ?_)
  rw [h p hp, count, ← List.sum_map_mul_left]

/-- It does not matter whose partners are chosen. -/
theorem count_swap (fits : α → β → Bool) {as : List α} {bs : List β} (h : as.length = bs.length) :
    count fits as bs = count (fun b a => fits a b) bs as := by
  induction hn : as.length using Nat.strong_induction_on generalizing as bs with
  | _ n ih =>
      subst hn
      cases as with
      | nil =>
          obtain rfl := List.length_eq_zero_iff.mp h.symm
          rfl
      | cons a as =>
          cases bs with
          | nil => cases h
          | cons b bs =>
              have h : as.length = bs.length := Nat.succ.inj h
              have shorter : ∀ (cs : List α) (ds : List β), cs.length = ds.length →
                  cs.length ≤ as.length → count fits cs ds = count (fun b a => fits a b) ds cs :=
                fun cs ds hcd hle => ih _ (Nat.lt_succ_of_le hle) hcd rfl
              have hb : ∀ p ∈ picks bs,
                  count fits as (b :: p.2) = count (fun b a => fits a b) (b :: p.2) as :=
                fun p hp => shorter as (b :: p.2) (h.trans (length_of_mem_picks hp).symm)
                  (Nat.le_refl _)
              have ha : ∀ q ∈ picks as,
                  count (fun b a => fits a b) bs (a :: q.2) = count fits (a :: q.2) bs :=
                fun q hq => (shorter (a :: q.2) bs ((length_of_mem_picks hq).trans h)
                  (Nat.le_of_eq (length_of_mem_picks hq))).symm
              rw [count_cons_cons, count_cons_cons, sum_crossed hb, sum_crossed ha, sum_map_comm,
                shorter as bs h (Nat.le_refl _)]
              refine congrArg _ (congrArg List.sum (List.map_congr_left fun q hq =>
                congrArg List.sum (List.map_congr_left fun p hp => ?_)))
              have hq := length_of_mem_picks hq
              have hp := length_of_mem_picks hp
              rw [Nat.mul_left_comm, shorter q.2 p.2 (by omega) (by omega)]

end SolvedForm.Pairing

import Mathlib
import SolvedForm.Proofs.Fragment.Frameless
import SolvedForm.Proofs.Unification.Progress

/-!
Sizes of terms and weights of equations.

* `Term.size`: the number of subterms of a term. `Term.size_evaluate_le`: evaluation makes no term
  larger.
* `Equation.weight`, `Equation.totalWeight`: the product of the sizes of the two sides of an equation,
  and the sum of these products for several equations. Several values under one key of a map meet
  one and the same value of another map, so the sizes themselves may add up to more.
* `Equation.totalWeight_obligations_le`: splitting and evaluation make no equation heavier.
* `Unifier.structural_descends`: the unifier leaves an equation between terms without frames as it
  is, refutes it, or makes equations of it that are together lighter, with each alternative.
-/

namespace SolvedForm

open Decomposition

/-! ### Sizes -/

namespace Term

mutual

/-- The number of subterms of a term. -/
def size : Term → Nat
  | .var _ => 1
  | .bool _ => 1
  | .int _ => 1
  | .app _ args => sizeArgs args + 1
  | .map entries _ => sizeEntries entries + 1
  | .lookup m k => size m + size k + 1
  termination_by structural t => t

/-- The number of subterms of arguments. -/
def sizeArgs : List Term → Nat
  | [] => 0
  | t :: ts => size t + sizeArgs ts
  termination_by structural ts => ts

/-- The number of subterms of entries. -/
def sizeEntries : List Entry → Nat
  | [] => 0
  | (k, v) :: es => size k + size v + sizeEntries es
  termination_by structural es => es

end

variable {f : Symbol} {args : List Term} {t u : Term} {es fs : List Entry} {frame : Option Var}

lemma size_pos (t : Term) : 0 < t.size := by
  cases t <;> simp [size]

lemma size_app : (Term.app f args).size = (args.map size).sum + 1 := by
  have hsum : ∀ ts, sizeArgs ts = (ts.map size).sum := fun ts => by
    induction ts with
    | nil => rfl
    | cons t ts ih => rw [sizeArgs, ih, List.map_cons, List.sum_cons]
  rw [size, hsum]

lemma sizeEntries_eq_sum (es : List Entry) :
    sizeEntries es = (es.map fun e => e.1.size + e.2.size).sum := by
  induction es with
  | nil => rfl
  | cons e es ih => rw [sizeEntries, ih, List.map_cons, List.sum_cons]

lemma sizeEntries_perm (h : es.Perm fs) : sizeEntries es = sizeEntries fs := by
  rw [sizeEntries_eq_sum, sizeEntries_eq_sum, (h.map _).sum_eq]

lemma size_le_of_mem_entries {e : Entry} (he : e ∈ es) : e.2.size ≤ sizeEntries es := by
  rw [sizeEntries_eq_sum]
  have := List.single_le_sum (fun _ _ => Nat.zero_le _) _
    (List.mem_map_of_mem (f := fun e : Entry => e.1.size + e.2.size) he)
  omega

lemma sizeEntries_insert_le (cmp : Entry → Entry → Ordering) (e : Entry) (es : List Entry) :
    sizeEntries (Sorted.insert cmp e es) ≤ e.1.size + e.2.size + sizeEntries es := by
  induction es with
  | nil => exact Nat.le_refl _
  | cons f es ih =>
      unfold Sorted.insert
      split
      · exact Nat.le_refl _
      · exact Nat.le_add_left _ _
      · rw [sizeEntries, sizeEntries]
        omega

lemma size_ofEntries_le (es : List Entry) (frame : Option Var) :
    (ofEntries es frame).size ≤ sizeEntries es + 1 := by
  refine Nat.succ_le_succ ?_
  induction es with
  | nil => exact Nat.le_refl _
  | cons e es ih =>
      rw [sizeEntries]
      exact (sizeEntries_insert_le compareEntry e _).trans (Nat.add_le_add_left ih _)

/-- A step of evaluation makes no term larger. -/
lemma size_reduceRoot_le (h : t.reduceRoot = some u) : u.size ≤ t.size := by
  refine reduceRoot_closed (P := fun s => s.size ≤ t.size) ?_ ?_ ?_ ?_ ?_ (Nat.le_refl _) h
  · exact fun _ => t.size_pos
  · exact fun _ => t.size_pos
  · intro f args hs a ha
    have := List.single_le_sum (fun _ _ => Nat.zero_le _) _ (List.mem_map_of_mem (f := size) ha)
    rw [size_app] at hs
    omega
  · intro es frame hs e he
    have := size_le_of_mem_entries he
    rw [size] at hs
    omega
  · intro m k hs
    rw [size] at hs
    omega

lemma size_evaluate_le (t : Term) : t.evaluate.size ≤ t.size := by
  have root : ∀ s : Term, (s.reduceRoot.getD s).size ≤ s.size := fun s => by
    cases h : s.reduceRoot with
    | none => exact Nat.le_refl _
    | some u => exact size_reduceRoot_le h
  induction t using Term.ind with
  | var | bool | int => exact Nat.le_refl _
  | app f args ih =>
      rw [evaluate_app]
      refine (root _).trans ?_
      rw [size_app, size_app, List.map_map]
      exact Nat.succ_le_succ (List.sum_le_sum ih)
  | map es frame ih =>
      rw [evaluate_map]
      refine (size_ofEntries_le _ _).trans ?_
      rw [size, sizeEntries_eq_sum, sizeEntries_eq_sum, List.map_map]
      exact Nat.succ_le_succ (List.sum_le_sum fun e he => Nat.add_le_add (ih e he).1 (ih e he).2)
  | lookup m k ihm ihk =>
      rw [evaluate_lookup]
      refine (root _).trans ?_
      rw [size, size]
      omega

end Term

/-! ### Weights -/

namespace Equation

variable {e : Equation} {es fs : List Equation}

/-- The product of the sizes of the two sides. -/
def weight (e : Equation) : Nat := e.left.size * e.right.size

/-- The weights of several equations together. -/
def totalWeight (es : List Equation) : Nat := (es.map weight).sum

@[simp] lemma totalWeight_nil : totalWeight [] = 0 := rfl

@[simp] lemma totalWeight_cons : totalWeight (e :: es) = e.weight + totalWeight es := by
  simp [totalWeight]

@[simp] lemma totalWeight_append :
    totalWeight (es ++ fs) = totalWeight es + totalWeight fs := by
  simp [totalWeight]

lemma totalWeight_filter_le (p : Equation → Bool) (es : List Equation) :
    totalWeight (es.filter p) ≤ totalWeight es :=
  (List.filter_sublist.map weight).sum_le_sum fun _ _ => Nat.zero_le _

lemma weight_le_of_mem (h : e ∈ es) : e.weight ≤ totalWeight es :=
  List.single_le_sum (fun _ _ => Nat.zero_le _) _ (List.mem_map_of_mem h)

/-- The conjuncts of a conjunction are together no larger. -/
lemma totalWeight_conjuncts_le (t : Term) :
    totalWeight (t.conjuncts.map fun u => ⟨u, .bool true⟩) ≤ t.size := by
  have single (t : Term) : totalWeight ([t].map fun u => ⟨u, .bool true⟩) ≤ t.size := by
    simp [weight, Term.size]
  induction t using Term.ind with
  | app f args ih =>
      unfold Term.conjuncts
      split
      · next a b heq =>
          obtain ⟨rfl, rfl⟩ := Term.app.injEq .. ▸ heq
          split
          · have ha := ih a (by simp)
            have hb := ih b (by simp)
            rw [List.map_append, totalWeight_append, Term.size_app]
            simp only [List.map_cons, List.map_nil, List.sum_cons, List.sum_nil]
            omega
          · exact single _
      · exact single _
  | var | bool | int | map | lookup => exact single _

lemma totalWeight_split_le (e : Equation) : totalWeight e.split ≤ e.weight := by
  unfold split
  split
  · next h =>
      rw [weight, h, Term.size, Nat.mul_one]
      exact totalWeight_conjuncts_le _
  · split
    · next h =>
        rw [weight, h.1, Term.size, Nat.one_mul]
        exact totalWeight_conjuncts_le _
    · simp

/-- Splitting and evaluation make equations no heavier. -/
lemma totalWeight_obligations_le (order : SortOrder) (e : Equation) :
    totalWeight ((Theory.standard order).obligations e) ≤ e.weight := by
  refine Nat.le_trans ?_ (totalWeight_split_le e)
  rw [Theory.obligations, totalWeight, List.map_map]
  exact List.sum_le_sum fun q _ =>
    Nat.mul_le_mul (Term.size_evaluate_le q.left) (Term.size_evaluate_le q.right)

lemma totalWeight_flatMap_obligations_le (order : SortOrder) (es : List Equation) :
    totalWeight (es.flatMap (Theory.standard order).obligations) ≤ totalWeight es := by
  induction es with
  | nil => exact Nat.le_refl _
  | cons e es ih =>
      rw [List.flatMap_cons, totalWeight_append, totalWeight_cons]
      exact Nat.add_le_add (totalWeight_obligations_le order e) ih

end Equation

open Equation

namespace EquationSet

lemma totalWeight_insert_le (E : EquationSet) (e : Equation) :
    totalWeight (E.insert e).toList ≤ totalWeight E.toList + e.weight := by
  unfold insert
  split
  · exact Nat.le_add_right _ _
  · simp

lemma totalWeight_insertAll_le (E : EquationSet) (es : List Equation) :
    totalWeight (E.insertAll es).toList ≤ totalWeight E.toList + totalWeight es := by
  induction es generalizing E with
  | nil => exact Nat.le_refl _
  | cons e es ih =>
      have h := totalWeight_insert_le E e
      have h' := ih (E.insert e)
      rw [totalWeight_cons]
      change totalWeight ((E.insert e).insertAll es).toList ≤ _
      omega

end EquationSet

/-! ### Decomposition -/

namespace Decomposition

variable {order : SortOrder} {fold : Bool} {s t : Term} {ss ts : List Term} {p q : Progress}
  {es fs : List Entry} {v w : Nat}

/-- The parts of two sides meet each other at most once. -/
lemma mul_add_mul_le (a b c d : Nat) : a * b + c * d ≤ (a + c) * (b + d) := by
  rw [Nat.add_mul, Nat.mul_add, Nat.mul_add]
  omega

/-- The equations found are not heavier than `w`, also together with any of the alternatives. -/
structure Progress.AtMost (w : Nat) (p : Progress) : Prop where
  equations : totalWeight p.equations ≤ w
  alternatives : ∀ as, p.alternatives = some as → ∀ es ∈ as,
    totalWeight p.equations + totalWeight es ≤ w

lemma Progress.AtMost.mono (h : p.AtMost w) (hle : w ≤ v) : p.AtMost v :=
  ⟨h.equations.trans hle, fun as has es hes => (h.alternatives as has es hes).trans hle⟩

lemma Progress.AtMost.push (h : p.AtMost w) {es : List Equation} (hes : totalWeight es ≤ v) :
    (p.push es).AtMost (w + v) := by
  have heq : totalWeight (p.push es).equations = totalWeight p.equations + totalWeight es :=
    totalWeight_append
  refine ⟨heq ▸ Nat.add_le_add h.equations hes, fun as has fs hfs => ?_⟩
  have := h.alternatives as has fs hfs
  omega

/-- The decomposition of an equation with the left side `s` adds the equation itself, or what is
lighter. -/
def ShrinksAt (order : SortOrder) (fold : Bool) (s : Term) : Prop :=
  ∀ ⦃t p q w⦄, s.Frameless → t.Frameless → p.AtMost w → decompose order fold s t p = .ok q →
    q = p.push [⟨s, t⟩] ∨ ∃ v < s.size * t.size, q.AtMost (w + v)

lemma ShrinksAt.atMost (h : ShrinksAt order fold s) (hs : s.Frameless) (ht : t.Frameless)
    (hp : p.AtMost w) (hq : decompose order fold s t p = .ok q) :
    q.AtMost (w + s.size * t.size) := by
  rcases h hs ht hp hq with rfl | ⟨v, hv, hq⟩
  · exact hp.push (by simp [weight])
  · exact hq.mono (by omega)

lemma decomposeArgs_atMost (ih : ∀ s ∈ ss, ShrinksAt order fold s) (hss : ∀ s ∈ ss, s.Frameless)
    (hts : ∀ t ∈ ts, t.Frameless) (hp : p.AtMost w)
    (h : decomposeArgs order fold ss ts p = .ok q) :
    q.AtMost (w + (ss.map Term.size).sum * (ts.map Term.size).sum) := by
  induction ss generalizing ts p w with
  | nil =>
      rw [decomposeArgs.eq_2 _ _ _ _ _ (by simp)] at h
      exact Except.ok.inj h ▸ hp.mono (Nat.le_add_right _ _)
  | cons s ss ihs =>
      cases ts with
      | nil =>
          rw [decomposeArgs.eq_2 _ _ _ _ _ (by simp)] at h
          exact Except.ok.inj h ▸ hp.mono (Nat.le_add_right _ _)
      | cons t ts =>
          rw [decomposeArgs] at h
          obtain ⟨r, hr, h⟩ := exceptBind_eq_ok.mp h
          rw [List.forall_mem_cons] at ih hss hts
          have hfirst := ih.1.atMost hss.1 hts.1 hp hr
          refine (ihs ih.2 hss.2 hts.2 hfirst h).mono ?_
          rw [List.map_cons, List.map_cons, List.sum_cons, List.sum_cons, Nat.add_assoc]
          exact Nat.add_le_add_left (mul_add_mul_le ..) w

/-! ### Maps -/

/-- The entries whose keys the other list has. -/
def shared (es fs : List Entry) : List Entry := es.filter fun e => fs.any (·.1 = e.1)

lemma sizeEntries_shared_add (es fs : List Entry) :
    Term.sizeEntries (shared es fs) + Term.sizeEntries (leftover es fs) = Term.sizeEntries es := by
  induction es with
  | nil => rfl
  | cons e es ih =>
      obtain ⟨k, v⟩ := e
      unfold shared leftover at ih ⊢
      cases h : fs.any (·.1 = k) <;> simp only [List.filter_cons, h, Bool.not_true, Bool.not_false,
        Bool.false_eq_true, ↓reduceIte, Term.sizeEntries] <;> omega

lemma shared_eq_nil_iff : shared es fs = [] ↔ ∀ e ∈ es, ∀ f ∈ fs, f.1 ≠ e.1 := by
  rw [shared, List.filter_eq_nil_iff]
  refine forall₂_congr fun e _ => ?_
  rw [Bool.not_eq_true, List.any_eq_false]
  simp only [decide_eq_true_eq]

lemma leftover_eq_self (h : shared es fs = []) : leftover es fs = es := by
  refine List.filter_eq_self.mpr fun e he => ?_
  simpa using shared_eq_nil_iff.mp h e he

lemma shared_swap (h : shared es fs = []) : shared fs es = [] :=
  shared_eq_nil_iff.mpr fun f hf e he => (shared_eq_nil_iff.mp h e he f hf).symm

lemma exists_of_lookup {k u : Term} (h : List.lookup k fs = some u) : (k, u) ∈ fs := by
  obtain ⟨before, after, heq, -⟩ := List.lookup_eq_some_iff.mp h
  simp [heq]

/-- Values meet values under shared keys only. -/
lemma decomposeEntries_atMost (ih : ∀ e ∈ es, ShrinksAt order fold e.2)
    (hes : ∀ e ∈ es, e.1.Frameless ∧ e.2.Frameless) (hfs : ∀ f ∈ fs, f.1.Frameless ∧ f.2.Frameless)
    (hle : ∀ e ∈ es, ∀ u, List.lookup e.1 fs = some u → u.size ≤ v) (hp : p.AtMost w)
    (h : decomposeEntries order fold es fs p = .ok q) :
    q.AtMost (w + Term.sizeEntries (shared es fs) * v) := by
  induction es generalizing p w with
  | nil => exact Except.ok.inj h ▸ hp.mono (Nat.le_add_right _ _)
  | cons e es ihe =>
      obtain ⟨k, s⟩ := e
      rw [List.forall_mem_cons] at ih hes hle
      rw [decomposeEntries] at h
      cases hu : List.lookup k fs with
      | some u =>
          simp only [hu] at h
          obtain ⟨r, hr, hrest⟩ := exceptBind_eq_ok.mp h
          have hmem := exists_of_lookup hu
          have hfirst := ih.1.atMost hes.1.2 (hfs _ hmem).2 hp hr
          refine (ihe ih.2 hes.2 hle.2 hfirst hrest).mono ?_
          have hshared : shared ((k, s) :: es) fs = (k, s) :: shared es fs :=
            List.filter_cons_of_pos (List.any_eq_true.mpr ⟨_, hmem, by simp⟩)
          have hsu : s.size * u.size ≤ (k.size + s.size) * v :=
            Nat.mul_le_mul (Nat.le_add_left _ _) (hle.1 u hu)
          rw [hshared, Term.sizeEntries, Nat.add_mul, ← Nat.add_assoc]
          exact Nat.add_le_add_right (Nat.add_le_add_left hsu w) _
      | none =>
          simp only [hu] at h
          refine (ihe ih.2 hes.2 hle.2 hp h).mono (Nat.add_le_add_left (Nat.mul_le_mul_right v ?_) w)
          unfold shared
          rw [List.filter_cons]
          split
          · rw [Term.sizeEntries]
            omega
          · exact Nat.le_refl _

lemma decomposeEntries_of_disjoint (h : shared es fs = []) :
    decomposeEntries order fold es fs p = .ok p := by
  rw [shared_eq_nil_iff] at h
  induction es generalizing p with
  | nil => rfl
  | cons e es ih =>
      obtain ⟨k, v⟩ := e
      rw [List.forall_mem_cons] at h
      have hnone : List.lookup k fs = none := by
        rw [List.lookup_eq_none_iff]
        exact fun f hf => by simpa using (h.1 f hf).symm
      rw [decomposeEntries, hnone]
      exact ih h.2

/-- A pairing is not heavier than the two maps. -/
lemma totalWeight_pairs_le {qs : List Equation} (h : Pairing.Pairs es fs qs) :
    totalWeight qs ≤ Term.sizeEntries es * Term.sizeEntries fs := by
  induction h with
  | nil => simp
  | @cons e f es fs rest qs hf _ _ ih =>
      have hsides : totalWeight (Pairing.sides e f) ≤ (e.1.size + e.2.size) * (f.1.size + f.2.size) := by
        refine (totalWeight_filter_le _ _).trans ?_
        simpa [weight] using mul_add_mul_le e.1.size f.1.size e.2.size f.2.size
      rw [totalWeight_append, ← Term.sizeEntries_perm (Pairing.perm_of_mem_picks hf),
        Term.sizeEntries, Term.sizeEntries]
      exact (Nat.add_le_add hsides ih).trans (mul_add_mul_le ..)

/-- What becomes of the entries left over of two maps without frames: the equation between them, or
what is lighter. -/
lemma settle_atMost (hp : p.AtMost w)
    (h : settle order fold s t (leftover es fs) none (leftover fs es) none p = .ok q) :
    q = p.push [⟨.ofEntries (leftover es fs) none, .ofEntries (leftover fs es) none⟩] ∨
      q.AtMost (w + Term.sizeEntries (leftover es fs) * Term.sizeEntries (leftover fs es)) := by
  have hpairs : ∀ n, ∀ qs ∈ Pairing.firstN n (leftover es fs) (leftover fs es), totalWeight qs ≤
      Term.sizeEntries (leftover es fs) * Term.sizeEntries (leftover fs es) := fun n qs hqs =>
    totalWeight_pairs_le (Pairing.pairs_of_mem_firstN hqs)
  unfold settle at h
  split at h
  · rw [settleAmbiguous_eq] at h
    split at h
    · exact .inl (Except.ok.inj h).symm
    · split at h
      · exact absurd h fail_ne_ok
      · next only honly =>
          have honly' := hpairs (maxAlternatives + 1) only (honly ▸ List.mem_singleton_self only)
          exact .inr (Except.ok.inj h ▸ hp.push honly')
      · split at h
        · exact .inl (Except.ok.inj h).symm
        · cases h
          refine .inr ⟨hp.equations.trans (Nat.le_add_right _ _), fun as has qs hqs => ?_⟩
          cases Option.some.inj has
          exact Nat.add_le_add hp.equations (hpairs _ qs hqs)
  · unfold settleRest at h
    simp only at h
    split at h
    · exact absurd h fail_ne_ok
    · exact absurd h fail_ne_ok
    · exact .inr (Except.ok.inj h ▸ hp.mono (Nat.le_add_right _ _))

/-- The case of two maps, when their values have been dealt with. -/
lemma shrinks_maps (ih : ∀ e ∈ es, ShrinksAt order fold e.2) (hs : (Term.map es none).Frameless)
    (ht : (Term.map fs none).Frameless) (hp : p.AtMost w) {r : Progress}
    (hr : decomposeEntries order fold es fs p = .ok r)
    (h : settle order fold s t (leftover es fs) none (leftover fs es) none r = .ok q) :
    q = p.push [⟨.map es none, .map fs none⟩] ∨
      ∃ v < (Term.map es none).size * (Term.map fs none).size, q.AtMost (w + v) := by
  by_cases hshared : shared es fs = []
  · -- no value meets another one, and the leftovers are the maps themselves
    rw [decomposeEntries_of_disjoint hshared] at hr
    cases hr
    have hq := settle_atMost hp h
    rw [leftover_eq_self hshared, leftover_eq_self (shared_swap hshared)] at hq
    cases hs with
    | map hes _ _ =>
        cases ht with
        | map hfs _ _ =>
            rw [Term.ofEntries_eq_map_iff.mpr hes, Term.ofEntries_eq_map_iff.mpr hfs] at hq
            refine hq.imp_right fun hq => ⟨_, ?_, hq⟩
            exact Nat.mul_lt_mul_of_lt_of_le (Nat.lt_succ_self _) (Nat.le_succ _) (Nat.succ_pos _)
  · have hvalues : ∀ e ∈ es, ∀ u, List.lookup e.1 fs = some u →
        u.size ≤ Term.sizeEntries (shared fs es) := fun e he u hu =>
      Term.size_le_of_mem_entries (List.mem_filter.mpr
        ⟨exists_of_lookup hu, List.any_eq_true.mpr ⟨e, he, by simp⟩⟩)
    have hr := decomposeEntries_atMost ih hs.entries ht.entries hvalues hp hr
    have hrest : q.AtMost (w + Term.sizeEntries (shared es fs) * Term.sizeEntries (shared fs es) +
        (Term.sizeEntries (leftover es fs) + 1) * (Term.sizeEntries (leftover fs es) + 1)) := by
      rcases settle_atMost hr h with rfl | hq
      · refine hr.push ?_
        simp only [totalWeight_cons, totalWeight_nil, Nat.add_zero, weight]
        exact Nat.mul_le_mul (Term.size_ofEntries_le _ _) (Term.size_ofEntries_le _ _)
      · exact hq.mono (Nat.add_le_add_left
          (Nat.mul_le_mul (Nat.le_succ _) (Nat.le_succ _)) _)
    refine .inr ⟨_, ?_, Nat.add_assoc .. ▸ hrest⟩
    -- the shared entries of one map do not meet what is left of the other
    have hpos : 0 < Term.sizeEntries (shared es fs) := by
      obtain ⟨e, rest, heq⟩ := List.exists_cons_of_ne_nil hshared
      have := e.1.size_pos
      rw [heq, Term.sizeEntries]
      omega
    rw [Term.size, Term.size, ← sizeEntries_shared_add es fs, ← sizeEntries_shared_add fs es,
      Nat.add_assoc, Nat.add_assoc]
    calc _ < Term.sizeEntries (shared es fs) * (Term.sizeEntries (shared fs es) +
          (Term.sizeEntries (leftover fs es) + 1)) +
          (Term.sizeEntries (leftover es fs) + 1) * (Term.sizeEntries (leftover fs es) + 1) :=
          Nat.add_lt_add_right (Nat.mul_lt_mul_of_pos_left (by omega) hpos) _
      _ ≤ _ := by
          exact (Nat.add_le_add_left (Nat.mul_le_mul_left _ (Nat.le_add_left _ _)) _).trans_eq
            (Nat.add_mul ..).symm

/-! ### Terms -/

/-- The case of one term, when its arguments and values have been dealt with. -/
lemma shrinksAt_of_parts (hargs : ∀ f ss, s = .app f ss → ∀ a ∈ ss, ShrinksAt order fold a)
    (hentries : ∀ es x, s = .map es x → ∀ e ∈ es, ShrinksAt order fold e.2) :
    ShrinksAt order fold s := by
  intro t p q w hs ht hp h
  have hd := decomposed order fold s t
  generalize decompose order fold s t = run at hd h
  cases hd with
  | same =>
      exact .inr ⟨0, Nat.mul_pos s.size_pos s.size_pos, Except.ok.inj h ▸ hp⟩
  | left => exact .inl (equateVar_ok h).1
  | right => exact .inl (equateVar_ok h).1
  | clash => exact absurd h fail_ne_ok
  | args =>
      refine .inr ⟨_, ?_, decomposeArgs_atMost (hargs _ _ rfl) (Term.Frameless.app_iff.mp hs)
        (Term.Frameless.app_iff.mp ht) hp h⟩
      rw [Term.size_app, Term.size_app]
      exact Nat.mul_lt_mul_of_lt_of_le (Nat.lt_succ_self _) (Nat.le_succ _) (Nat.succ_pos _)
  | sizes => exact absurd h fail_ne_ok
  | @entries es fs x y =>
      obtain rfl := hereditary_frameless.frame hs
      obtain rfl := hereditary_frameless.frame ht
      obtain ⟨r, hr, h⟩ := exceptBind_eq_ok.mp h
      exact shrinks_maps (hentries _ _ rfl) hs ht hp hr h
  | kept => exact .inl (keep_ok h).1

/-- Decomposition of equations between terms without frames makes them lighter if it does
anything. -/
theorem decompose_shrinks (s : Term) : ShrinksAt order fold s :=
  induction_parts (fun _ => shrinksAt_of_parts) s

end Decomposition

/-! ### The unifier -/

/-- The unifier has left the equation alone, or made lighter equations of it, also with any one of
the alternatives. -/
def Unification.Descends (e : Equation) : Unification → Prop
  | .unique parts => parts = [e] ∨ totalWeight parts < e.weight
  | .disjunction common alternatives => totalWeight common < e.weight ∧
      ∀ es ∈ alternatives, totalWeight common + totalWeight es < e.weight

/-- The answer to an equation between terms without frames depends on the equation only, and is
lighter than the equation if it is another one. -/
theorem Unifier.structural_descends (order : SortOrder) (fold : Bool) {e : Equation}
    (hl : e.left.Frameless) (hr : e.right.Frameless) :
    ∃ r, (∀ n, Unifier.structural order fold e n = (r, n)) ∧ ∀ u, r = .ok u → u.Descends e := by
  obtain ⟨r, hrun⟩ := structural_mintless order fold hl hr
  refine ⟨r, hrun, ?_⟩
  rintro u rfl
  obtain ⟨q, hq, rfl⟩ := structural_ok (hrun 0)
  have hempty : (⟨[], none, 0⟩ : Progress).AtMost 0 := ⟨Nat.le_refl _, nofun⟩
  rcases decompose_shrinks e.left hl hr hempty hq with rfl | ⟨v, hv, hq⟩
  · exact .inl rfl
  · rw [Nat.zero_add] at hq
    unfold Progress.answer
    split
    · exact .inr (hq.equations.trans_lt hv)
    · next as has =>
        exact ⟨hq.equations.trans_lt hv, fun es hes => (hq.alternatives as has es hes).trans_lt hv⟩

end SolvedForm

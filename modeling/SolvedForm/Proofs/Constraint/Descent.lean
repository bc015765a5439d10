import SolvedForm.Proofs.Constraint.Weight

/-!
Simplification of constraints over terms without frames comes to an end.

* `Constraint.round_ends`: a round comes to an end if the alternatives do that come up in it.
* `Constraint.simplifySince_ends_of_frameless`: each turn over finitely many variables binds one of
  them or makes the constraint lighter, and so does the first turn for every alternative.
* `Constraint.simplifySince_ends_of_mapFree`, `Constraint.simplify_ends_of_mapFree`: the case of terms
  without maps.
-/

namespace SolvedForm

/-- Computations that end for each element of a list end for all of them. -/
lemma Engine.mapM_ends {α β : Type} {f : Nat → α → Engine β} {as : List α}
    (h : ∀ a ∈ as, ∃ b k, ∀ fuel, k < fuel → ∀ n, f fuel a n = .ok (b, n)) :
    ∃ bs k, ∀ fuel, k < fuel → ∀ n, as.mapM (f fuel) n = .ok (bs, n) := by
  induction as with
  | nil => exact ⟨[], 0, fun _ _ _ => rfl⟩
  | cons a as ih =>
      rw [List.forall_mem_cons] at h
      obtain ⟨b, k, hb⟩ := h.1
      obtain ⟨bs, l, hbs⟩ := ih h.2
      refine ⟨b :: bs, max k l, fun fuel hfuel n => ?_⟩
      rw [List.mapM_cons, Engine.bind_of_ok (hb fuel (by omega) n),
        Engine.bind_of_ok (hbs fuel (by omega) n)]
      rfl

namespace Constraint

open Equation

variable {T : Theory} {order : SortOrder} {a b c d : Constraint} {kept : EquationSet}
  {e : Equation} {es : List Equation} {fold : Bool} {xs : List Var} {fuel n m : Nat}
  {last : Option Snapshot}

lemma satisfiable_ends {as : List (List Equation)}
    (h : ∀ es ∈ as, ∃ a k, (empty.insertAll T es).EndsAfter T fold none k a) :
    ∃ ds k, ∀ fuel, k < fuel → ∀ n, satisfiable T fold fuel as n = .ok (ds, n) := by
  obtain ⟨bs, k, hbs⟩ := Engine.mapM_ends
    (f := fun fuel es => simplifySince T fold fuel none (empty.insertAll T es)) h
  refine ⟨bs.filter fun d => !d.isFalse, k, fun fuel hfuel n => ?_⟩
  rw [satisfiable, Engine.bind_of_ok (hbs fuel hfuel n)]
  rfl

/-- A round over equations between terms without frames ends, if simplification of the alternatives
does that come up in it. -/
theorem round_ends (hes : ∀ e ∈ es, e.left.Frameless ∧ e.right.Frameless)
    (hsolve : ∀ e ∈ es, ∀ common as n m,
      (Theory.standard order).unifier fold e n = (.ok (.disjunction common as), m) →
      ∃ ds k, ∀ fuel, k < fuel → ∀ n, satisfiable (.standard order) fold fuel as n = .ok (ds, n)) :
    ∃ a k, ∀ fuel, k < fuel → ∀ n,
      c.round (.standard order) fold (satisfiable (.standard order) fold fuel) kept es n =
        .ok (a, n) := by
  induction es generalizing c kept with
  | nil => exact ⟨c.putBack kept, 0, fun _ _ _ => rfl⟩
  | cons e es ih =>
      rw [List.forall_mem_cons] at hes hsolve
      obtain ⟨r, hrun, -⟩ := Unifier.structural_descends order fold hes.1.1 hes.1.2
      match r with
      | .error failure =>
          exact ⟨(c.putBack ((kept.insert e).insertAll es)).falsify
            ((Theory.standard order).evaluated failure.pair), 0,
            fun _ _ n => round_of_failure (hrun n)⟩
      | .ok (.unique parts) =>
          by_cases hp : parts = [e]
          · subst hp
            obtain ⟨a, k, ha⟩ := ih hes.2 hsolve.2
            exact ⟨a, k, fun fuel hfuel n => (round_of_kept (hrun n)).trans (ha fuel hfuel n)⟩
          · obtain ⟨a, k, ha⟩ := ih hes.2 hsolve.2
            exact ⟨a, k, fun fuel hfuel n => (round_of_parts (hrun n) hp).trans (ha fuel hfuel n)⟩
      | .ok (.disjunction common as) =>
          obtain ⟨ds, j, hds⟩ := hsolve.1 common as 0 0 (hrun 0)
          match ds with
          | [] =>
              exact ⟨_, j, fun fuel hfuel n => round_of_none (hrun n) (hds fuel hfuel n)⟩
          | [d] =>
              obtain ⟨a, k, ha⟩ := ih hes.2 hsolve.2
              exact ⟨a, max j k, fun fuel hfuel n =>
                (round_of_one (hrun n) (hds fuel (by omega) n)).trans (ha fuel (by omega) n)⟩
          | d :: d' :: ds =>
              obtain ⟨a, k, ha⟩ := ih hes.2 hsolve.2
              exact ⟨a, max j k, fun fuel hfuel n =>
                (round_of_several (hrun n) (hds fuel (by omega) n)).trans (ha fuel (by omega) n)⟩

/-! ### Turns -/

/-- What is bound in a constraint is not among the other variables. -/
lemma length_filter_keys_le (h : b.store.keys ⊆ xs) :
    (xs.filter (· ∉ b.store.keys)).length + b.store.size ≤ xs.length := by
  have hsub : b.store.keys ⊆ xs.filter (· ∈ b.store.keys) := fun x hx =>
    List.mem_filter.mpr ⟨h hx, by simpa using hx⟩
  have hle := (List.subperm_of_subset b.store.nodup hsub).length_le
  rw [List.length_map] at hle
  have hsum := List.length_eq_length_filter_add (l := xs) (· ∈ b.store.keys)
  change b.store.toList.length ≤ _ at hle
  simp only [← decide_not] at hsum
  change _ + b.store.toList.length ≤ _
  omega

/-- How far a normal form over finitely many variables is from the end: the number of variables that
may still be bound, and the weight of its equations. -/
def rank (xs : List Var) (b : Constraint) : Nat × Nat :=
  (xs.length - b.store.size, totalWeight b.equations.toList)

/-- Fewer variables are left to be bound, or as many and the equations are lighter. -/
abbrev Below (ys : List Var) (d : Constraint) (xs : List Var) (b : Constraint) : Prop :=
  Prod.Lex (· < ·) (· < ·) (rank ys d) (rank xs b)

lemma below_of_lt {ys : List Var} (h : ys.length - d.store.size < xs.length - b.store.size) :
    Below ys d xs b := .left _ _ h

lemma below_of_le {ys : List Var} (h : ys.length - d.store.size ≤ xs.length - b.store.size)
    (hlt : totalWeight d.equations.toList < totalWeight b.equations.toList) : Below ys d xs b := by
  rcases Nat.lt_or_eq_of_le h with h | h
  · exact below_of_lt h
  · unfold Below rank
    rw [h]
    exact .right _ hlt

lemma size_store_le_of_within (hd : d.Within (.framelessOver order (· ∈ xs))) :
    d.store.size ≤ xs.length :=
  size_store_le (hd.keys_subset fun _ _ hx => hx.1.2)

/-- The equations of a normal form are between terms over the variables that are not bound. -/
lemma NormalForm.unbound_over (hnf : b.NormalForm order)
    (hw : b.Within (.framelessOver order (· ∈ xs))) : ∀ e ∈ b.equations.toList,
      (Fragment.framelessOver order (· ∈ xs.filter (· ∉ b.store.keys))).MemEq e := by
  intro e he
  have hmem := hw.over.equations e he
  have unbound {x : Var} (hx : x ∈ xs) (h : x ∈ e.left.vars ∨ x ∈ e.right.vars) :
      x ∈ xs.filter (· ∉ b.store.keys) :=
    List.mem_filter.mpr ⟨hx, by simpa using hnf.untouched e he _ h⟩
  exact ⟨⟨hmem.1.1, fun x hx => unbound (hmem.1.2 x hx) (.inl hx)⟩,
    ⟨hmem.2.1, fun x hx => unbound (hmem.2.2 x hx) (.inr hx)⟩⟩

/-- An alternative of an equation does not mention what is bound, and it is lighter. -/
lemma alternative_below {as : List (List Equation)} {common qs : List Equation}
    (hw : b.Within (.framelessOver order (· ∈ xs))) (hnf : b.NormalForm order)
    (he : e ∈ b.equations.toList)
    (hu : (Theory.standard order).unifier fold e n = (.ok (.disjunction common as), m))
    (hqs : qs ∈ as) (hd : (empty.insertAll (.standard order) qs).normalize (.standard order) = .ok d)
    (hdf : d.isFalse = false) :
    (empty.insertAll (.standard order) qs).Ready
        (.framelessOver order (· ∈ xs.filter (· ∉ b.store.keys))) ∧
      Below (xs.filter (· ∉ b.store.keys)) d xs b := by
  have hmem := hnf.unbound_over hw e he
  have hready := ready_insertAll_empty ((Fragment.framelessOver order _).disjunction hmem.1 hmem.2
    hu qs (List.mem_cons_of_mem _ hqs))
  refine ⟨hready, ?_⟩
  have hlength := length_filter_keys_le (hw.keys_subset fun x _ hx => hx.1.2)
  have hsize := size_store_le_of_within
    ((settled_of_normalize (.inr hready) hd).within hdf)
  rcases (normalize_weight hready (untouched_insertAll_empty qs) hd).resolve_left (by simp [hdf]) with
    ⟨hlt, -⟩ | ⟨-, hle, -⟩
  · exact below_of_lt (by omega)
  · obtain ⟨r, hrun, hdescends⟩ := Unifier.structural_descends order fold hmem.1.1 hmem.2.1
    have hlight := (hdescends _ (Prod.mk.inj ((hrun n).symm.trans hu)).1).2 qs hqs
    have hweight : (empty.insertAll (.standard order) qs).weight ≤ 0 + totalWeight qs :=
      weight_insertAll_le empty qs
    have hmax := weight_le_of_mem he
    exact below_of_le (by omega) (by omega)

/-- After a round that has changed something, the normal form is false or further down. -/
lemma turn_below (hw : b.Within (.framelessOver order (· ∈ xs))) (hnf : b.NormalForm order)
    (ha : b.takeOut.round (.standard order) fold (satisfiable (.standard order) fold fuel) .empty
      b.equations.toList n = .ok (a, m)) (haf : a.isFalse = false) :
    a.Ready (.framelessOver order (· ∈ xs)) ∧ (a = b ∨
      ∀ d, a.normalize (.standard order) = .ok d → d.isFalse = false → Below xs d xs b) := by
  obtain ⟨haready, hauntouched, hastore, hres⟩ :=
    (turn_weight (fun hc hfree h => simplifySince_weight hc hfree h) hw hnf ha).resolve_left
      (by simp [haf])
  refine ⟨haready, or_iff_not_imp_left.mpr fun hab d hd hdf => ?_⟩
  have hsize := size_store_le_of_within ((settled_of_normalize (.inr haready) hd).within hdf)
  rcases (normalize_weight haready hauntouched hd).resolve_left (by simp [hdf]) with
    ⟨hlt, -⟩ | ⟨hdstore, hle, hnone⟩
  · rw [hastore] at hlt
    exact below_of_lt (by omega)
  · rcases hres.resolve_left hab with ⟨q, hq, hread⟩ | hlt
    · exact absurd hread (hnone q (List.mem_append_right _ hq))
    · exact below_of_le (by rw [hdstore, hastore]) (hle.trans_lt hlt)

lemma endsAfter_zero_of_isFalse (hd : c.normalize T = .ok d) (hdf : d.isFalse = true) :
    c.EndsAfter T fold last 0 d :=
  endsAfter_of_stop hd (.inl fun hu => by simp [isFalse, hu] at hdf)

/-- Simplification of equations between terms without frames over finitely many variables ends, and
further turns do not change the answer. -/
theorem simplifySince_ends_of_frameless {xs : List Var} {b c : Constraint}
    (hc : c.Sound (.framelessOver order (· ∈ xs))) (hb : c.normalize (.standard order) = .ok b)
    (last : Option Snapshot) : ∃ a k, c.EndsAfter (.standard order) fold last k a := by
  by_cases hstop : b.truth ≠ .unknown ∨ b.unchangedSince last = true
  · exact ⟨b, 0, endsAfter_of_stop hb hstop⟩
  · obtain ⟨hopen, hun⟩ : b.truth = .unknown ∧ b.unchangedSince last = false := by
      simpa using hstop
    have hbf := isFalse_eq_false_of_unknown hopen
    obtain ⟨hw, hnf⟩ := (settled_of_normalize hc hb).resolve_left fun hr => by simp [hr.1] at hbf
    have hsolve : ∀ e ∈ b.equations.toList, ∀ common as n m,
        (Theory.standard order).unifier fold e n = (.ok (.disjunction common as), m) →
        ∃ ds k, ∀ fuel, k < fuel → ∀ n,
          satisfiable (.standard order) fold fuel as n = .ok (ds, n) := by
      intro e he common as n m hu
      refine satisfiable_ends fun qs hqs => ?_
      have hmem := hnf.unbound_over hw e he
      obtain ⟨d, hd, -⟩ := normalize_settled (.inr (ready_insertAll_empty
        ((Fragment.framelessOver order _).disjunction hmem.1 hmem.2 hu qs
          (List.mem_cons_of_mem _ hqs))))
      by_cases hdf : d.isFalse = true
      · exact ⟨d, 0, endsAfter_zero_of_isFalse hd hdf⟩
      · obtain ⟨hready, hbelow⟩ := alternative_below hw hnf he hu hqs hd (Bool.not_eq_true _ ▸ hdf)
        exact simplifySince_ends_of_frameless (.inr hready) hd none
    obtain ⟨a, j, hrun⟩ := round_ends (c := b.takeOut)
      (fun e he => ⟨(hw.over.equations e he).1.1, (hw.over.equations e he).2.1⟩) hsolve
    by_cases haf : a.isFalse = true
    · exact ⟨a, j + 1, endsAfter_of_isFalse hb hopen hun hrun haf⟩
    · suffices hrest : ∃ a' k,
          a.EndsAfter (.standard order) fold (some (b.store, b.equations)) k a' by
        obtain ⟨a', k, hrest⟩ := hrest
        exact ⟨a', max j k + 1, endsAfter_of_round hb hopen hun
          (fun fuel hfuel => hrun fuel (by omega)) haf (hrest.mono (Nat.le_max_right j k))⟩
      obtain ⟨haready, rfl | hbelow⟩ := turn_below hw hnf (hrun (j + 1) (Nat.lt_succ_self j) 0)
        (Bool.not_eq_true _ ▸ haf)
      · -- the round has changed nothing, which the next turn notices
        have hagain : a.normalize (.standard order) = .ok a := by
          rw [normalize, if_pos (by simp [hnf.normal])]
        exact ⟨a, 0, endsAfter_of_stop hagain (.inr (by simp [unchangedSince]))⟩
      · obtain ⟨d, hd, -⟩ := normalize_settled (.inr haready)
        by_cases hdf : d.isFalse = true
        · exact ⟨d, 0, endsAfter_zero_of_isFalse hd hdf⟩
        · have hbelow := hbelow d hd (Bool.not_eq_true _ ▸ hdf)
          exact simplifySince_ends_of_frameless (.inr haready) hd _
termination_by rank xs b
decreasing_by all_goals exact hbelow

/-- Where simplification starts with the normal form, it starts with some turn. -/
lemma simplify_ends_of_frameless (hc : c.Sound (.framelessOver order (· ∈ xs))) (fold : Bool) :
    ∃ a k, ∀ fuel, k < fuel → ∀ n, c.simplify (.standard order) fuel fold n = .ok (a, n) := by
  obtain ⟨b, hb, -⟩ := normalize_settled hc
  exact simplifySince_ends_of_frameless hc hb none

/-- Terms without maps are terms without frames. -/
lemma Sound.framelessOver {S : Var → Prop} (hc : c.Sound (.mapFree order S)) :
    c.Sound (.framelessOver order S) :=
  hc.mono (F := .mapFree order S) (G := .framelessOver order S)
    (fun _ ht => ⟨ht.1.frameless, ht.2⟩)
    fun _ _ h => ⟨⟨h.1.1.frameless, h.1.2⟩, h.2.1.frameless, h.2.2⟩

lemma simplifySince_ends_of_mapFree (hc : c.Sound (.mapFree order (· ∈ xs)))
    (hb : c.normalize (.standard order) = .ok b) (last : Option Snapshot) :
    ∃ a k, c.EndsAfter (.standard order) fold last k a :=
  simplifySince_ends_of_frameless hc.framelessOver hb last

/-- Simplification starts with the normal form, which terms without maps always reach. -/
lemma simplify_ends_of_mapFree {xs : List Var} (hc : c.Sound (.mapFree order (· ∈ xs)))
    (fold : Bool) :
    ∃ a k, ∀ fuel, k < fuel → ∀ n, c.simplify (.standard order) fuel fold n = .ok (a, n) :=
  simplify_ends_of_frameless hc.framelessOver fold

end Constraint

end SolvedForm

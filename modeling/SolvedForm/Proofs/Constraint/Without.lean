import SolvedForm.Proofs.Constraint.BoundOnce

/-!
Bindings left out.

* `Substitution.without`, `Constraint.without`: all but the bindings of given variables.
* `Theory.instantiate_without`, `Theory.extend_without`: instances of terms without these variables, and
  new bindings of other ones.
* `Constraint.insertAll_without`, `Constraint.conjoin_without`, `Constraint.round_without`: the operations
  that do not read the store.
-/

namespace SolvedForm

open Term

/-! ### Substitutions -/

namespace Substitution

variable {σ τ : Substitution} {xs : List Var} {x y : Var} {t : Term}

/-- The bindings of all but given variables. -/
def without (σ : Substitution) (xs : List Var) : Substitution :=
  ⟨σ.toList.filter fun b => b.1 ∉ xs, σ.nodup.sublist (List.filter_sublist.map _)⟩

@[simp] lemma mem_toList_without {b : Var × Term} :
    b ∈ (σ.without xs).toList ↔ b ∈ σ.toList ∧ b.1 ∉ xs := by
  simp [without]

lemma find?_without (hx : x ∉ xs) : (σ.without xs).find? x = σ.find? x := by
  refine Option.ext fun t => ?_
  rw [← mem_toList_iff, ← mem_toList_iff, mem_toList_without, and_iff_left hx]

lemma mem_keys_without : x ∈ (σ.without xs).keys ↔ x ∈ σ.keys ∧ x ∉ xs := by
  simp only [mem_keys_iff, ← mem_toList_iff, mem_toList_without, exists_and_right]

lemma without_congr {ys : List Var} (h : ∀ b ∈ σ.toList, b.1 ∈ xs ↔ b.1 ∈ ys) :
    σ.without xs = σ.without ys :=
  ext_toList (List.filter_congr fun b hb => by simp [h b hb])

@[simp] lemma without_nil (σ : Substitution) : σ.without [] = σ :=
  ext_toList (by simp [without])

lemma without_cons (σ : Substitution) (x : Var) (xs : List Var) :
    σ.without (x :: xs) = (σ.erase x).without xs := by
  refine ext_toList ?_
  simp only [without, erase, List.filter_filter, List.mem_cons, not_or]
  exact List.filter_congr fun b _ => by simp [Bool.and_comm]

lemma mapValues_without (f : Term → Term) (σ : Substitution) (xs : List Var) :
    (σ.mapValues f).without xs = (σ.without xs).mapValues f := by
  refine ext_toList ?_
  simp only [without, toList_mapValues, List.filter_map]
  rfl

lemma insert_without (hx : x ∉ xs) (hk : x ∉ σ.keys) :
    (σ.insert x t).without xs = (σ.without xs).insert x t := by
  refine ext_toList ?_
  rw [toList_insert_of_not_mem fun h => hk (mem_keys_without.mp h).1]
  change (σ.insert x t).toList.filter _ = _
  rw [toList_insert_of_not_mem hk, List.filter_append]
  simp [without, hx]

end Substitution

namespace Theory

variable {T : Theory} {σ τ : Substitution} {xs : List Var} {x y : Var} {t : Term}

lemma instantiate_congr (h : ∀ x ∈ t.vars, σ.find? x = τ.find? x) :
    T.instantiate σ t = T.instantiate τ t := by
  have htouches : σ.touches t = τ.touches t := by
    rw [Bool.eq_iff_iff, Substitution.touches_iff, Substitution.touches_iff]
    refine exists_congr fun x => and_congr_right fun hx => ?_
    rw [Substitution.mem_keys_iff, Substitution.mem_keys_iff, h x hx]
  rw [instantiate, instantiate, htouches, Substitution.apply_congr h]

/-- Where none of the variables occurs their bindings do not matter. -/
lemma instantiate_without (ht : t.Ranges (· ∉ xs)) :
    T.instantiate (σ.without xs) t = T.instantiate σ t :=
  instantiate_congr fun x hx => Substitution.find?_without (ht x hx)

lemma extend_without (hx : x ∉ xs) (hk : x ∉ σ.keys) :
    (T.extend σ x t).without xs = T.extend (σ.without xs) x t := by
  rw [extend, Substitution.insert_without hx (by simpa using hk), Substitution.mapValues_without]
  rfl

lemma instantiate_single_var (ht : T.evaluate t = t) :
    T.instantiate (.single x t) (.var x) = t := by
  rw [instantiate, if_pos (Substitution.touches_iff.mpr ⟨x, by simp⟩), Substitution.apply_var,
    Substitution.find?_single, if_pos rfl, Option.getD_some, ht]

/-- What a variable stands for follows a new binding, where evaluation leaves the new value as it is. -/
lemma apply_extend_var (ht : T.evaluate t = t) (hx : x ∉ σ.keys) (y : Var) :
    (T.extend σ x t).apply (.var y) = T.instantiate (.single x t) (σ.apply (.var y)) := by
  rw [Substitution.apply_var, Substitution.apply_var, extend, Substitution.find?_insert]
  by_cases hy : y = x
  · subst hy
    rw [if_pos rfl, Substitution.find?_eq_none_iff.mpr hx, Option.getD_some, Option.getD_none,
      instantiate_single_var ht]
  · rw [if_neg hy]
    cases hfind : σ.find? y with
    | none =>
        have hnew : (σ.mapValues (T.instantiate (.single x t))).find? y = none := by
          rw [Substitution.find?_eq_none_iff, Substitution.keys_mapValues]
          exact Substitution.find?_eq_none_iff.mp hfind
        rw [hnew, Option.getD_none, instantiate, if_neg]
        rw [Bool.not_eq_true, Substitution.touches_eq_false_iff]
        simpa using hy
    | some u =>
        have hnew : (σ.mapValues (T.instantiate (.single x t))).find? y =
            some (T.instantiate (.single x t) u) :=
          Substitution.mem_toList_iff.mp
            (List.mem_map.mpr ⟨(y, u), Substitution.mem_toList_iff.mpr hfind, rfl⟩)
        rw [hnew, Option.getD_some, Option.getD_some]

end Theory

/-! ### Constraints -/

namespace Constraint

variable {T : Theory} {fold : Bool}

/-- The constraint without the bindings of given variables. -/
def without (c : Constraint) (xs : List Var) : Constraint := { c with store := c.store.without xs }

lemma isFalse_without (c : Constraint) (xs : List Var) : (c.without xs).isFalse = c.isFalse := rfl

lemma insertEquation_without (c : Constraint) (xs : List Var) (e : Equation) :
    (c.without xs).insertEquation e = (c.insertEquation e).without xs := by
  unfold insertEquation without isFalse
  dsimp only
  split
  · rfl
  · split <;> rfl

lemma foldl_insertEquation_without (c : Constraint) (xs : List Var) (es : List Equation) :
    es.foldl insertEquation (c.without xs) = (es.foldl insertEquation c).without xs := by
  induction es generalizing c with
  | nil => rfl
  | cons e es ih => rw [List.foldl_cons, List.foldl_cons, insertEquation_without, ih]

lemma insertAll_without (c : Constraint) (xs : List Var) (es : List Equation) :
    (c.without xs).insertAll T es = (c.insertAll T es).without xs := by
  rw [insertAll_eq_foldl, insertAll_eq_foldl, foldl_insertEquation_without]

lemma falsify_without (c : Constraint) (xs : List Var) (e : Equation) :
    (c.without xs).falsify e = (c.falsify e).without xs := by
  unfold falsify without isFalse
  dsimp only
  split <;> rfl

lemma updateTruth_without (c : Constraint) (xs : List Var) :
    (c.without xs).updateTruth = (c.updateTruth).without xs := by
  unfold updateTruth without isFalse
  dsimp only
  split <;> rfl

lemma conjoin_without (c d : Constraint) (xs : List Var) :
    (c.without xs).conjoin T d = (c.conjoin T d).without xs := by
  unfold conjoin
  rw [isFalse_without]
  split
  · rfl
  · split
    · exact falsify_without c xs _
    · rw [foldl_insertEquation_without]
      unfold addPending
      split <;> rfl

/-- A round does not read the store. -/
lemma round_without {solve : List (List Equation) → Engine (List Constraint)} (c : Constraint)
    (xs : List Var) (kept : EquationSet) (es : List Equation) :
    (c.without xs).round T fold solve kept es =
      (do let d ← c.round T fold solve kept es; return d.without xs) := by
  induction es generalizing c kept with
  | nil => rfl
  | cons e es ih =>
      rw [round, round, bind_assoc]
      refine bind_congr fun r => ?_
      rcases r with failure | (parts | ⟨common, alternatives⟩)
      · exact congrArg pure (falsify_without (c.putBack _) xs _)
      · dsimp only
        split
        · exact ih c _
        · rw [← ih]
          exact congrArg (fun d => round T fold solve d kept es)
            (insertAll_without { c with normal := false } xs parts)
      · dsimp only
        rw [bind_assoc]
        refine bind_congr fun ds => ?_
        have hcommon : ({ c.without xs with normal := false } : Constraint).insertAll T common =
            ({ c with normal := false }.insertAll T common).without xs :=
          insertAll_without { c with normal := false } xs common
        -- none, one or several alternatives
        rcases ds with _ | ⟨d, _ | ⟨d', ds⟩⟩
        · exact congrArg pure (falsify_without
            (({ c with normal := false } : Constraint).putBack ((kept.insert e).insertAll es)) xs e)
        · dsimp only
          rw [hcommon, conjoin_without]
          exact ih _ kept
        · dsimp only
          rw [hcommon, ← ih]
          rfl

end Constraint

end SolvedForm

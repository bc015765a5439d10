import SolvedForm.Proofs.Term.Equivariance

/-!
Substitutions and sets of equations with their variables renamed.

* `Substitution.RenamesTo`, `EquationSet.RenamesTo`: the same bindings, and the same equations, in
  the same order under other names, between terms that evaluation treats alike.
* `Substitution.RenamesTo.find?`, `Substitution.RenamesTo.insert`, `EquationSet.RenamesTo.insert`:
  what is looked up and what is put in corresponds.
* `Substitution.RenamesTo.instantiate`: instances correspond.
* `Substitution.RenamesTo.equiv`, `EquationSet.RenamesTo.equiv`: comparisons have the same outcome.
-/

namespace SolvedForm

open Term

variable {order : SortOrder} {ρ : Var → Var} {S : Var → Prop} {x : Var} {t : Term}
  {e : Equation} {es : List Equation}

/-- Both sides are terms that evaluation treats alike. -/
abbrev Equation.Follows (ρ : Var → Var) (S : Var → Prop) (e : Equation) : Prop :=
  e.left.Follows ρ S ∧ e.right.Follows ρ S

lemma Equation.map_rename_eq_iff {e q : Equation} (hρ : Renaming ρ S) (he : e.Follows ρ S)
    (hq : q.Follows ρ S) : e.map (rename ρ) = q.map (rename ρ) ↔ e = q := by
  have hl := rename_eq_rename_iff hρ.injective he.1.toCanonicalOver hq.1.toCanonicalOver
  have hr := rename_eq_rename_iff hρ.injective he.2.toCanonicalOver hq.2.toCanonicalOver
  cases e
  cases q
  rw [Equation.map, Equation.map, Equation.mk.injEq, Equation.mk.injEq]
  exact and_congr hl hr

lemma Equation.follows_obligations (he : e.Follows ρ S) :
    ∀ q ∈ (Theory.standard order).obligations e, q.Follows ρ S := by
  refine List.forall_mem_map.mpr fun q hq => ?_
  obtain ⟨hl, hr⟩ := follows_split he.1 he.2 q hq
  exact ⟨hl.evaluate, hr.evaluate⟩

/-! ### Substitutions -/

namespace Substitution

/-- The second substitution is the first one under other names; the first is over a class of variables
and its values are treated alike by evaluation. -/
structure RenamesTo (ρ : Var → Var) (S : Var → Prop) (σ τ : Substitution) : Prop where
  toList : τ.toList = σ.toList.map fun b => (ρ b.1, b.2.rename ρ)
  mem : ∀ b ∈ σ.toList, S b.1 ∧ b.2.Follows ρ S

variable {σ τ σ' τ' : Substitution}

lemma renamesTo_empty : empty.RenamesTo ρ S empty := ⟨rfl, by simp⟩

namespace RenamesTo

lemma key (h : σ.RenamesTo ρ S τ) {b : Var × Term} (hb : b ∈ σ.toList) : S b.1 :=
  (h.mem b hb).1

lemma value (h : σ.RenamesTo ρ S τ) {b : Var × Term} (hb : b ∈ σ.toList) : b.2.Follows ρ S :=
  (h.mem b hb).2

lemma size (h : σ.RenamesTo ρ S τ) : τ.size = σ.size := by
  rw [Substitution.size, h.toList, List.length_map]
  rfl

/-- A renamed variable has the renamed value. -/
lemma find? (h : σ.RenamesTo ρ S τ) (hρ : Renaming ρ S) (hx : S x) :
    τ.find? (ρ x) = (σ.find? x).map (rename ρ) := by
  have lookup : ∀ bs : List (Var × Term), (∀ b ∈ bs, S b.1) →
      (bs.map fun b => (ρ b.1, b.2.rename ρ)).lookup (ρ x) = (bs.lookup x).map (rename ρ) := by
    intro bs hbs
    induction bs with
    | nil => rfl
    | cons b bs ih =>
        rw [List.forall_mem_cons] at hbs
        have hiff : ρ x = ρ b.1 ↔ x = b.1 := ⟨hρ.injective hx hbs.1, congrArg ρ⟩
        rw [List.map_cons, lookup_cons_ite, lookup_cons_ite, ih hbs.2]
        simp only [hiff]
        split_ifs <;> rfl
  rw [Substitution.find?, h.toList]
  exact lookup _ fun b hb => h.key hb

lemma mem_keys_iff (h : σ.RenamesTo ρ S τ) (hρ : Renaming ρ S) (hx : S x) :
    ρ x ∈ τ.keys ↔ x ∈ σ.keys := by
  rw [Substitution.mem_keys_iff, Substitution.mem_keys_iff, h.find? hρ hx]
  simp

lemma insert (h : σ.RenamesTo ρ S τ) (hρ : Renaming ρ S) (hx : S x)
    (ht : t.Follows ρ S) : (σ.insert x t).RenamesTo ρ S (τ.insert (ρ x) (t.rename ρ)) := by
  have insertList_map : ∀ bs : List (Var × Term), (∀ b ∈ bs, S b.1) →
      insertList (ρ x) (t.rename ρ) (bs.map fun b => (ρ b.1, b.2.rename ρ)) =
        (insertList x t bs).map fun b => (ρ b.1, b.2.rename ρ) := by
    intro bs hbs
    induction bs with
    | nil => rfl
    | cons b bs ih =>
        rw [List.forall_mem_cons] at hbs
        have hiff : ρ b.1 = ρ x ↔ b.1 = x := ⟨hρ.injective hbs.1 hx, congrArg ρ⟩
        rw [List.map_cons, insertList, insertList, ih hbs.2]
        simp only [hiff]
        split_ifs <;> rfl
  refine ⟨?_, fun b hb => (mem_toList_insert.mp hb).elim (fun hb => hb ▸ ⟨hx, ht⟩) fun hb => h.mem b hb.2⟩
  change insertList _ _ τ.toList = _
  rw [h.toList]
  exact insertList_map _ fun b hb => h.key hb

lemma erase (h : σ.RenamesTo ρ S τ) (hρ : Renaming ρ S) (hx : S x) :
    (σ.erase x).RenamesTo ρ S (τ.erase (ρ x)) := by
  refine ⟨?_, fun b hb => h.mem b (mem_toList_erase.mp hb).2⟩
  change τ.toList.filter _ = (σ.toList.filter _).map _
  rw [h.toList, List.filter_map]
  refine congrArg _ (List.filter_congr fun b hb => ?_)
  have hiff : ρ b.1 = ρ x ↔ b.1 = x := ⟨hρ.injective (h.key hb) hx, congrArg ρ⟩
  simp [hiff]

/-! ### Instances -/

/-- Substitution can come before a renaming or after it. -/
lemma apply (h : σ.RenamesTo ρ S τ) (hρ : Renaming ρ S) (ht : t.Ranges S) :
    τ.apply (t.rename ρ) = (σ.apply t).rename ρ := by
  have of_var : ∀ {x}, S x → τ.apply (.var (ρ x)) = (σ.apply (.var x)).rename ρ := by
    intro x hx
    rw [apply_var, apply_var, h.find? hρ hx]
    cases σ.find? x <;> rfl
  induction t using Term.ind with
  | var x => exact of_var (Ranges.var_iff.mp ht)
  | app f args ih =>
      have hargs := Ranges.app_iff.mp ht
      rw [rename_app, apply_app, apply_app, rename_app, List.map_map, List.map_map]
      exact congrArg _ (List.map_congr_left fun a ha => ih a ha (hargs a ha))
  | map es y ih =>
      obtain ⟨hes, hy⟩ := Ranges.map_iff.mp ht
      have hentries : (es.map fun e => (e.1.rename ρ, e.2.rename ρ)).map
          (fun e => (τ.apply e.1, τ.apply e.2)) =
          (es.map fun e => (σ.apply e.1, σ.apply e.2)).map fun e => (e.1.rename ρ, e.2.rename ρ) := by
        rw [List.map_map, List.map_map]
        exact List.map_congr_left fun e he => Prod.ext ((ih e he).1 (hes e he).1)
          ((ih e he).2 (hes e he).2)
      rw [rename_map, apply_ofEntries, hentries, apply_map]
      exact (rename_reframe fun x hx => of_var (hy x hx)).symm
  | lookup m k ihm ihk =>
      obtain ⟨hm, hk⟩ := Ranges.lookup_iff.mp ht
      rw [rename_lookup, apply_lookup, apply_lookup, rename_lookup, ihm hm, ihk hk]
  | bool | int => rfl

lemma touches (h : σ.RenamesTo ρ S τ) (hρ : Renaming ρ S) (ht : t.Ranges S) :
    τ.touches (t.rename ρ) = σ.touches t := by
  rw [Bool.eq_iff_iff, touches_iff, touches_iff]
  constructor
  · rintro ⟨_, hx, hk⟩
    obtain ⟨y, hy, rfl⟩ := mem_rename_vars.mp hx
    exact ⟨y, hy, (h.mem_keys_iff hρ (ht y hy)).mp hk⟩
  · rintro ⟨x, hx, hk⟩
    exact ⟨ρ x, mem_rename_vars.mpr ⟨x, hx, rfl⟩, (h.mem_keys_iff hρ (ht x hx)).mpr hk⟩

lemma follows_apply (h : σ.RenamesTo ρ S τ) (ht : t.Follows ρ S) : (σ.apply t).Follows ρ S := by
  refine ⟨⟨.apply (fun b hb => (h.value hb).canonical) ht.canonical,
    .apply (fun b hb => (h.value hb).ranges) ht.ranges⟩, ?_⟩
  by_cases hk : KeepsOrder ρ S
  · exact .inr hk
  · exact .inl (.apply (fun x u hu =>
      (h.value (b := (x, u)) (mem_toList_iff.mpr hu)).maps.resolve_right hk) (ht.maps.resolve_right hk))

lemma follows_instantiate (h : σ.RenamesTo ρ S τ) (ht : t.Follows ρ S) :
    ((Theory.standard order).instantiate σ t).Follows ρ S := by
  unfold Theory.instantiate
  split
  · exact (h.follows_apply ht).evaluate
  · exact ht

/-- The renamed instance is the instance of the renamed term. -/
lemma instantiate (h : σ.RenamesTo ρ S τ) (hρ : Renaming ρ S) (ht : t.Follows ρ S) :
    (Theory.standard order).instantiate τ (t.rename ρ) =
      ((Theory.standard order).instantiate σ t).rename ρ := by
  unfold Theory.instantiate
  rw [h.touches hρ ht.ranges]
  split
  · rw [h.apply hρ ht.ranges]
    exact evaluate_rename hρ (h.follows_apply ht)
  · rfl

lemma instantiate_equation (h : σ.RenamesTo ρ S τ) (hρ : Renaming ρ S) (he : e.Follows ρ S) :
    (e.map (rename ρ)).instantiate (Theory.standard order).evaluate τ =
      (e.instantiate (Theory.standard order).evaluate σ).map (rename ρ) := by
  rw [Equation.instantiate_eq_map, Equation.instantiate_eq_map]
  simp only [Equation.map, h.instantiate hρ he.1, h.instantiate hρ he.2]

lemma follows_instantiate_equation (h : σ.RenamesTo ρ S τ) (he : e.Follows ρ S) :
    (e.instantiate (Theory.standard order).evaluate σ).Follows ρ S := by
  rw [Equation.instantiate_eq_map]
  exact ⟨h.follows_instantiate he.1, h.follows_instantiate he.2⟩

/-! ### Comparison -/

lemma equiv (h : σ.RenamesTo ρ S τ) (h' : σ'.RenamesTo ρ S τ') (hρ : Renaming ρ S) :
    τ.equiv τ' = σ.equiv σ' := by
  have hall : (τ.toList.all fun b => τ'.find? b.1 = some b.2) =
      σ.toList.all fun b => σ'.find? b.1 = some b.2 := by
    rw [h.toList, List.all_map, Bool.eq_iff_iff, List.all_eq_true, List.all_eq_true]
    refine forall₂_congr fun b hb => ?_
    rw [Function.comp_apply, decide_eq_true_iff, decide_eq_true_iff, h'.find? hρ (h.key hb)]
    cases hf : σ'.find? b.1 with
    | none => simp
    | some u =>
        have hu := h'.value (mem_toList_iff.mpr hf)
        rw [Option.map_some, Option.some.injEq, Option.some.injEq]
        exact rename_eq_rename_iff hρ.injective hu.toCanonicalOver (h.value hb).toCanonicalOver
  rw [Substitution.equiv, Substitution.equiv, h.size, h'.size, hall]

end RenamesTo

end Substitution

/-! ### Sets of equations -/

namespace EquationSet

/-- The second set has the equations of the first one under other names, in the same order; those of
the first are over a class of variables and their sides are treated alike by evaluation. -/
structure RenamesTo (ρ : Var → Var) (S : Var → Prop) (E E' : EquationSet) : Prop where
  toList : E'.toList = E.toList.map (·.map (rename ρ))
  mem : ∀ e ∈ E.toList, e.Follows ρ S

variable {E E' D D' : EquationSet}

lemma renamesTo_empty : empty.RenamesTo ρ S empty := ⟨rfl, by simp⟩

namespace RenamesTo

lemma isEmpty (h : E.RenamesTo ρ S E') : E'.isEmpty = E.isEmpty := by
  rw [EquationSet.isEmpty, h.toList, List.isEmpty_map]
  rfl

lemma size (h : E.RenamesTo ρ S E') : E'.size = E.size := by
  rw [EquationSet.size, h.toList, List.length_map]
  rfl

lemma contains (h : E.RenamesTo ρ S E') (hρ : Renaming ρ S)
    (he : e.Follows ρ S) :
    E'.contains (e.map (rename ρ)) = E.contains e := by
  rw [Bool.eq_iff_iff, contains_iff, contains_iff, h.toList, List.mem_map]
  constructor
  · rintro ⟨q, hq, heq⟩
    exact (Equation.map_rename_eq_iff hρ (h.mem q hq) he).mp heq ▸ hq
  · exact fun hm => ⟨e, hm, rfl⟩

lemma insert (h : E.RenamesTo ρ S E') (hρ : Renaming ρ S)
    (he : e.Follows ρ S) :
    (E.insert e).RenamesTo ρ S (E'.insert (e.map (rename ρ))) := by
  have hcontains := h.contains hρ he
  refine ⟨?_, fun q hq => (mem_insert.mp hq).elim (h.mem q) fun hq => hq ▸ he⟩
  by_cases hm : e ∈ E.toList
  · rw [contains_iff.mpr hm, contains_iff] at hcontains
    rw [EquationSet.insert, dif_pos hcontains, EquationSet.insert, dif_pos hm, h.toList]
  · have hm' : e.map (rename ρ) ∉ E'.toList := by
      rwa [← contains_iff, hcontains, contains_iff]
    rw [toList_insert_of_not_mem hm, toList_insert_of_not_mem hm', h.toList, List.map_append]
    rfl

lemma insertAll (h : E.RenamesTo ρ S E') (hρ : Renaming ρ S)
    (hes : ∀ e ∈ es, e.Follows ρ S) :
    (E.insertAll es).RenamesTo ρ S (E'.insertAll (es.map (·.map (rename ρ)))) := by
  induction es generalizing E E' with
  | nil => exact h
  | cons e es ih =>
      rw [List.forall_mem_cons] at hes
      exact ih (h.insert hρ hes.1) hes.2

lemma equiv (h : E.RenamesTo ρ S E') (h' : D.RenamesTo ρ S D') (hρ : Renaming ρ S) :
    E'.equiv D' = E.equiv D := by
  have hall : E'.toList.all D'.contains = E.toList.all D.contains := by
    rw [h.toList, List.all_map, Bool.eq_iff_iff, List.all_eq_true, List.all_eq_true]
    refine forall₂_congr fun e he => ?_
    rw [Function.comp_apply, h'.contains hρ (h.mem e he)]
  rw [EquationSet.equiv, EquationSet.equiv, h.size, h'.size, hall]

end RenamesTo

end EquationSet

end SolvedForm

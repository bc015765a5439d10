import SolvedForm.Proofs.Constraint.NormalForm
import SolvedForm.Proofs.Fragment.Frameless
import SolvedForm.Proofs.Term.Renaming

/-!
The normal form under the two changes of a constraint that do no solving.

* `Constraint.removeBindings_settled`: some bindings are taken away.
* `Constraint.Mentions`: the variables of the bindings and equations of a constraint.
* `Constraint.MovesApart`: renamings to different variables that do not occur in the constraint.
* `Constraint.rename_settled`: the variables are renamed, different ones to different ones.
-/

namespace SolvedForm.Constraint

variable {c d : Constraint}

/-! ### Removal -/

section Removal

variable {T : Theory} {F : Fragment T}

/-- Steps that leave a constraint or erase a binding shrink the store. -/
lemma foldl_erase {step : Constraint → Var → Constraint}
    (hstep : ∀ c x, step c x = c ∨ step c x = { c with store := c.store.erase x }) (xs : List Var)
    (c : Constraint) :
    ∃ σ, (∀ b ∈ σ.toList, b ∈ c.store.toList) ∧ xs.foldl step c = { c with store := σ } := by
  induction xs generalizing c with
  | nil => exact ⟨c.store, fun _ => id, by cases c; rfl⟩
  | cons x xs ih =>
      rw [List.foldl_cons]
      rcases hstep c x with h | h <;> rw [h]
      · exact ih c
      · obtain ⟨σ, hσ, h⟩ := ih { c with store := c.store.erase x }
        exact ⟨σ, fun b hb => (Substitution.mem_toList_erase.mp (hσ b hb)).2, h⟩

/-- Removal of bindings shrinks the store and judges the truth anew. -/
lemma removeBindings_eq (c : Constraint) (xs : List Var) :
    ∃ σ, (∀ b ∈ σ.toList, b ∈ c.store.toList) ∧
      c.removeBindings T xs = { c with store := σ }.updateTruth := by
  unfold removeBindings
  refine (foldl_erase (fun d x => ?_) xs c).imp fun σ => And.imp_right (congrArg updateTruth)
  split
  · split
    · exact .inr rfl
    · exact .inl rfl
  · exact .inl rfl

/-- A constraint keeps its normal form when bindings are removed. -/
theorem removeBindings_settled {xs : List Var} (hc : c.Settled F) :
    (c.removeBindings T xs).Settled F := by
  obtain ⟨σ, hσ, h⟩ := removeBindings_eq (T := T) c xs
  have mem_keys : ∀ x ∈ σ.keys, x ∈ c.store.keys := by
    intro x hx
    obtain ⟨t, ht⟩ := Substitution.mem_keys_iff.mp hx
    exact Substitution.mem_keys_of_mem (hσ (x, t) (Substitution.mem_toList_iff.mpr ht))
  rw [h]
  rcases hc with hr | ⟨hw, hn⟩
  · rw [updateTruth_of_isFalse (by exact hr.1)]
    exact .inl hr
  · have hw' := hw.setStore fun b hb => hw.over.store b (hσ b hb)
    refine .inr ⟨hw'.updateTruth, Solved.normalForm ⟨?_, ?_, hn.undecided, hn.unbound⟩
      hw'.over.undecided hn.normal hn.unguarded hn.drained⟩
    · exact fun b hb x hx hk => hn.acyclic b (hσ b hb) x hx (mem_keys x hk)
    · exact fun e he x hx hk => hn.untouched e he x hx (mem_keys x hk)

end Removal

/-! ### Renaming -/

/-- The variable occurs in a binding or an equation of the constraint. -/
def Mentions (c : Constraint) (x : Var) : Prop :=
  (∃ b ∈ c.store.toList, x = b.1 ∨ x ∈ b.2.vars) ∨
    ∃ e ∈ c.equations.toList, x ∈ e.left.vars ∨ x ∈ e.right.vars

/-- The renaming moves variables to different variables, and to such as do not occur in the
constraint. -/
structure MovesApart (c : Constraint) (ρ : Var → Var) : Prop where
  injective {x y : Var} : ρ x ≠ x → ρ y ≠ y → ρ x = ρ y → x = y
  fresh {x : Var} : ρ x ≠ x → ¬ c.Mentions (ρ x)

variable {order : SortOrder} {ρ : Var → Var}

/-- Such a renaming is injective on the variables of the constraint. -/
lemma MovesApart.eq_of_mentions (h : c.MovesApart ρ) {x y : Var} (hx : c.Mentions x)
    (hy : c.Mentions y) (heq : ρ x = ρ y) : x = y := by
  by_cases hmx : ρ x = x <;> by_cases hmy : ρ y = y
  · rw [← hmx, heq, hmy]
  · exact absurd (heq ▸ hmx.symm ▸ hx) (h.fresh hmy)
  · exact absurd (heq.symm ▸ hmy.symm ▸ hy) (h.fresh hmx)
  · exact h.injective hmx hmy heq

lemma Within.over_store (h : c.Within (.withoutFrames order)) :
    ∀ b ∈ c.store.toList, c.Mentions b.1 ∧ b.2.Over c.Mentions := fun b hb =>
  ⟨.inl ⟨b, hb, .inl rfl⟩, ⟨h.over.store b hb, fun _ hx => .inl ⟨b, hb, .inr hx⟩⟩⟩

lemma Within.over_equations (h : c.Within (.withoutFrames order)) :
    ∀ e ∈ c.equations.toList, e.left.Over c.Mentions ∧ e.right.Over c.Mentions := fun e he =>
  ⟨⟨(h.over.equations e he).1, fun _ hx => .inr ⟨e, he, .inl hx⟩⟩,
    ⟨(h.over.equations e he).2, fun _ hx => .inr ⟨e, he, .inr hx⟩⟩⟩

/-- The bindings of a renamed constraint, in the old order. -/
lemma toList_store_rename (h : c.Within (.withoutFrames order))
    (hρ : Term.Renaming ρ c.Mentions) :
    (c.rename ρ).store.toList = c.store.toList.map fun b => (ρ b.1, b.2.rename ρ) :=
  Substitution.toList_rename fun b hb b' hb' =>
    hρ.injective (h.over_store b hb).1 (h.over_store b' hb').1

lemma mem_equations_rename {q : Equation} :
    q ∈ (c.rename ρ).equations.toList ↔ ∃ e ∈ c.equations.toList, e.map (Term.rename ρ) = q :=
  EquationSet.mem_ofList.trans List.mem_map

/-- A constraint keeps its normal form when its variables are renamed. -/
theorem rename_settled (hρ : Term.Renaming ρ c.Mentions)
    (hc : c.Settled (.withoutFrames order)) :
    (c.rename ρ).Settled (.withoutFrames order) := by
  rcases hc with hr | ⟨hw, hn⟩
  · exact .inl hr
  · have hstore := toList_store_rename hw hρ
    -- a renamed variable of the constraint is a key only where the variable itself is one
    have not_key : ∀ t : Term, t.Over c.Mentions → (∀ x ∈ t.vars, x ∉ c.store.keys) →
        ∀ x ∈ (t.rename ρ).vars, x ∉ (c.rename ρ).store.keys := by
      intro t ht hk x hx hx'
      obtain ⟨y, hy, rfl⟩ := (Term.mem_vars_rename ht.frameless).mp hx
      rw [Substitution.keys, hstore, List.map_map] at hx'
      obtain ⟨b, hb, heq⟩ := List.mem_map.mp hx'
      have := hρ.injective (hw.over_store b hb).1 (ht.vars y hy) heq
      exact hk y hy (this ▸ Substitution.mem_keys_of_mem hb)
    refine .inr ⟨.intro ⟨hw.over.undecided, hw.over.consistent, ?_, hw.over.buffer, ?_⟩ hw.pending,
      hn.normal, hn.unguarded, hn.drained, ?_, ?_, ?_, ?_, ?_⟩
    · intro q hq
      obtain ⟨e, he, rfl⟩ := mem_equations_rename.mp hq
      exact ⟨(hw.over.equations e he).1.rename ρ, (hw.over.equations e he).2.rename ρ⟩
    · intro b hb'
      rw [hstore] at hb'
      obtain ⟨b, hb, rfl⟩ := List.mem_map.mp hb'
      exact Term.Frameless.rename ρ (hw.over.store b hb)
    · intro b hb'
      rw [hstore] at hb'
      obtain ⟨b, hb, rfl⟩ := List.mem_map.mp hb'
      exact not_key b.2 (hw.over_store b hb).2 (hn.acyclic b hb)
    · intro q hq x hx
      obtain ⟨e, he, rfl⟩ := mem_equations_rename.mp hq
      have hover := hw.over_equations e he
      exact hx.elim (not_key _ hover.1 (fun y hy => hn.untouched e he y (.inl hy)) x)
        (not_key _ hover.2 (fun y hy => hn.untouched e he y (.inr hy)) x)
    · intro q hq
      obtain ⟨e, he, rfl⟩ := mem_equations_rename.mp hq
      rw [Equation.truth_rename hρ (hw.over_equations e he).1.canonicalOver
        (hw.over_equations e he).2.canonicalOver]
      exact hn.undecided e he
    · intro q hq
      obtain ⟨e, he, rfl⟩ := mem_equations_rename.mp hq
      rw [Equation.binding?_rename hρ (hw.over_equations e he).1.vars (hw.over_equations e he).2.vars,
        hn.unbound e he]
      rfl
    · have hempty : (c.rename ρ).equations.isEmpty = c.equations.isEmpty := by
        rw [Bool.eq_iff_iff, EquationSet.isEmpty_iff, EquationSet.isEmpty_iff]
        constructor
        · exact fun h e he => h _ (mem_equations_rename.mpr ⟨e, he, rfl⟩)
        · intro h q hq
          obtain ⟨e, he, -⟩ := mem_equations_rename.mp hq
          exact h e he
      rw [hempty]
      exact hn.truth

end SolvedForm.Constraint

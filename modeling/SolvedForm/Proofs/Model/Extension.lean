import SolvedForm.Proofs.Model.Solutions

/-!
Models that differ in some variables.

* `Model.AgreesOff`: two models differ at most in the values of given variables.
* `Vocabulary.avoiding`: the vocabulary without given variables.
* `Model.AgreesOff.satisfies`: a constraint without these variables does not tell the models apart.
* `Model.extend`, `Model.extend_solves`: the keys of a store given the values of what they are bound
  to.
-/

namespace SolvedForm

open Term

variable {V W : Vocabulary} {α : Type} {M N : Model α} {xs : List Var} {t : Term}

/-! ### Vocabularies -/

namespace Vocabulary

/-- The vocabulary without given variables. -/
def avoiding (V : Vocabulary) (xs : List Var) : Vocabulary :=
  { V with
    MemVar := fun x => V.MemVar x ∧ x ∉ xs
    var_sort := fun h => V.var_sort h.1 }

namespace WellSorted

lemma memVar (h : V.WellSorted t) : ∀ x ∈ t.vars, V.MemVar x := by
  induction h with
  | var hx => simpa using hx
  | bool | int => simp
  | con _ _ _ ih | fn _ _ ih | op _ _ _ ih =>
      intro x hx
      obtain ⟨t, ht, hx⟩ := mem_vars_app.mp hx
      exact ih t ht x hx

/-- A term is well-sorted over every vocabulary with its symbols and variables. -/
lemma transfer (h : V.WellSorted t) (hcon : ∀ f, V.MemCon f → W.MemCon f)
    (hfn : ∀ f, V.MemFn f → W.MemFn f) (hvar : ∀ x ∈ t.vars, W.MemVar x) : W.WellSorted t := by
  have args : ∀ {f : Symbol} {ts : List Term}, (∀ x ∈ (Term.app f ts).vars, W.MemVar x) →
      (∀ t ∈ ts, (∀ x ∈ t.vars, W.MemVar x) → W.WellSorted t) → ∀ t ∈ ts, W.WellSorted t :=
    fun hvar ih t ht => ih t ht fun x hx => hvar x (mem_vars_app.mpr ⟨t, ht, hx⟩)
  induction h with
  | var => exact .var (hvar _ (by simp))
  | bool b => exact .bool b
  | int i => exact .int i
  | con hf ha _ ih => exact .con (hcon _ hf) ha (args hvar ih)
  | fn hf _ ih => exact .fn (hfn _ hf) (args hvar ih)
  | op hf hacc _ ih => exact .op hf hacc (args hvar ih)

lemma avoiding (h : V.WellSorted t) (hx : ∀ x ∈ t.vars, x ∉ xs) : (V.avoiding xs).WellSorted t :=
  h.transfer (W := V.avoiding xs) (fun _ => id) (fun _ => id) fun x hxt => ⟨h.memVar x hxt, hx x hxt⟩

lemma of_avoiding (h : (V.avoiding xs).WellSorted t) : V.WellSorted t :=
  h.transfer (W := V) (fun _ => id) (fun _ => id) fun x hx => (h.memVar x hx).1

end WellSorted

end Vocabulary

lemma Constraint.Within.of_avoiding {c : Constraint} (h : c.Within (.wellSorted (V.avoiding xs))) :
    c.Within (.wellSorted V) := by
  refine h.mono (fun t ht => Vocabulary.WellSorted.of_avoiding ht) fun x t hb => ?_
  obtain ⟨hx, ht, hsort⟩ : (V.avoiding xs).WellSorted (.var x) ∧ (V.avoiding xs).WellSorted t ∧
    t.sort = x.sort := hb
  exact ⟨hx.of_avoiding, ht.of_avoiding, hsort⟩

/-! ### Agreement of models -/

namespace Model

/-- The two models differ at most in the values of the given variables. -/
structure AgreesOff (xs : List Var) (M N : Model α) : Prop where
  fn : N.fn = M.fn
  var : ∀ x ∉ xs, N.var x = M.var x

/-- The value of a term depends on the values of its variables alone. -/
lemma value_congr (hfn : N.fn = M.fn) (hvar : ∀ x ∈ t.vars, N.var x = M.var x) :
    N.value t = M.value t := by
  induction t using Term.ind with
  | var x => exact hvar x (by simp)
  | app f args ih =>
      have happ : N.applySymbol f = M.applySymbol f := by
        unfold applySymbol
        rw [hfn]
      rw [value_app, value_app, happ]
      refine congrArg (M.applySymbol f) (List.map_congr_left fun t ht => ih t ht fun x hx => ?_)
      exact hvar x (mem_vars_app.mpr ⟨t, ht, hx⟩)
  | bool | int | map | lookup => rfl

lemma AgreesOff.value (h : M.AgreesOff xs N) (ht : (V.avoiding xs).WellSorted t) :
    N.value t = M.value t :=
  value_congr h.fn fun x hx => h.var x (ht.memVar x hx).2

/-- A constraint without the variables in which two models differ does not tell them apart. -/
lemma AgreesOff.satisfies {c : Constraint} (h : M.AgreesOff xs N)
    (hc : c.Over (.wellSorted (V.avoiding xs))) (hM : M.Satisfies c) : N.Satisfies c := by
  refine ⟨fun b hb => ?_, fun e he => ?_⟩
  · obtain ⟨hx, ht, -⟩ := hc.store b hb
    exact (h.value hx).trans ((hM.1 b hb).trans (h.value ht).symm)
  · obtain ⟨hl, hr⟩ := hc.equations e he
    rw [h.value hl, h.value hr]
    exact hM.2 e he

/-! ### Extension along a store -/

/-- The model in which every key of the store has the value of the term that it is bound to. -/
noncomputable def extend (M : Model α) {σ : Substitution}
    (hσ : (Fragment.wellSorted V).MemSubst σ) : Model α where
  var x := ((σ.find? x).map M.value).getD (M.var x)
  fn := M.fn
  var_sort x := by
    cases h : σ.find? x with
    | none => exact M.var_sort x
    | some t =>
        obtain ⟨-, ht, hsort⟩ := hσ.find? h
        exact hsort ▸ ht.value_ofSort M
  fn_sort := M.fn_sort

variable {σ : Substitution} (hσ : (Fragment.wellSorted V).MemSubst σ)

lemma agreesOff_extend (h : ∀ x ∈ σ.keys, x ∈ xs) : M.AgreesOff xs (M.extend hσ) where
  fn := rfl
  var x hx := by
    have hnone : σ.find? x = none := Substitution.find?_eq_none_iff.mpr fun hk => hx (h x hk)
    simp [extend, hnone]

/-- The extended model satisfies the bindings of an acyclic store. -/
lemma extend_solves (hac : σ.Acyclic) :
    ∀ b ∈ σ.toList, (M.extend hσ).var b.1 = (M.extend hσ).value b.2 := by
  intro b hb
  have hvalue : (M.extend hσ).value b.2 = M.value b.2 := value_congr rfl fun x hx => by
    have hnone : σ.find? x = none := Substitution.find?_eq_none_iff.mpr (hac b hb x hx)
    simp [extend, hnone]
  have hsome : σ.find? b.1 = some b.2 := Substitution.mem_toList_iff.mp hb
  rw [hvalue]
  simp [extend, hsome]

end Model

end SolvedForm

import SolvedForm.Proofs.Constraint.Pass

/-!
What a pass makes of equations, read off the instances that are not true.

* `Theory.opened`, `Theory.opens`: the instances of equations under a store, without those that are
  true.
* `Equation.Decisive`, `Theory.first?`: an equation that is false or gives a binding, and the first
  such instance.
* `Constraint.renormalize_of_none`, `Constraint.renormalize_of_false`,
  `Constraint.renormalize_of_binding`: that instance tells how a pass ends.
* `Constraint.Alike`: constraints that differ in their equations at most are composed with the same
  outcome.
-/

namespace SolvedForm

variable {T : Theory} {σ : Substitution} {e p q : Equation} {es fs pre post : List Equation}
  {E kept : EquationSet} {x : Var} {t : Term}

/-- The instance of an equation under a store, unless it is true. -/
def Theory.opened (T : Theory) (σ : Substitution) (e : Equation) : Option Equation :=
  if (e.instantiate T.evaluate σ).truth T.order = .true then none
  else some (e.instantiate T.evaluate σ)

/-- The instances of equations that are not true. -/
def Theory.opens (T : Theory) (σ : Substitution) (es : List Equation) : EquationSet :=
  .ofList (es.filterMap (T.opened σ))

/-- The equation ends a pass. -/
def Equation.decisive (order : SortOrder) (e : Equation) : Bool :=
  e.truth order = .false || (e.binding? order).isSome

/-- The first instance of an equation that ends a pass. -/
def Theory.first? (T : Theory) (σ : Substitution) (es : List Equation) : Option Equation :=
  (es.filterMap (T.opened σ)).find? (Equation.decisive T.order)

namespace Theory

lemma opened_eq_none_iff :
    T.opened σ e = none ↔ (e.instantiate T.evaluate σ).truth T.order = .true := by
  unfold opened
  split <;> simp [*]

lemma opened_eq_some_iff : T.opened σ e = some q ↔
    e.instantiate T.evaluate σ = q ∧ q.truth T.order ≠ .true := by
  unfold opened
  split
  · next h => simpa using fun heq => heq ▸ h
  · next h => exact ⟨fun heq => ⟨Option.some.inj heq, Option.some.inj heq ▸ h⟩, fun heq => by rw [heq.1]⟩

/-- An equation that is passed over is true, or its instance ends no pass. -/
lemma passes_iff : T.Passes σ e ↔ ∀ q, T.opened σ e = some q → q.decisive T.order = false := by
  simp only [Passes, opened_eq_some_iff, Equation.decisive, Bool.or_eq_false_iff,
    decide_eq_false_iff_not, Option.isSome_eq_false_iff, Option.isNone_iff_eq_none]
  generalize e.instantiate T.evaluate σ = r
  constructor
  · rintro (h | h) q ⟨rfl, hq⟩
    · exact absurd h hq
    · exact ⟨by simp [h.1], h.2⟩
  · intro h
    cases ht : r.truth T.order with
    | true => exact .inl rfl
    | false => exact absurd ht (h r ⟨rfl, by simp [ht]⟩).1
    | unknown => exact .inr ⟨rfl, (h r ⟨rfl, by simp [ht]⟩).2⟩

lemma remaining_eq_filterMap (h : ∀ e ∈ es, T.Passes σ e) :
    T.remaining σ es = es.filterMap (T.opened σ) := by
  induction es with
  | nil => rfl
  | cons e es ih =>
      rw [List.forall_mem_cons] at h
      rw [remaining, List.map_cons, List.filter_cons, List.filterMap_cons, ← ih h.2]
      rcases h.1 with ht | ⟨ht, -⟩
      · rw [opened_eq_none_iff.mpr ht]
        simp [ht, remaining]
      · rw [opened_eq_some_iff.mpr ⟨rfl, by simp [ht]⟩]
        simp [ht, remaining]

lemma opens_insertAll (E : EquationSet) (es : List Equation) :
    T.opens σ (E.insertAll es).toList = T.opens σ (E.toList ++ es) :=
  EquationSet.ofList_filterMap_insertAll (T.opened σ) E es

lemma opens_ofList (es : List Equation) : T.opens σ (EquationSet.ofList es).toList = T.opens σ es :=
  opens_insertAll .empty es

lemma opens_append : T.opens σ (es ++ fs) = (T.opens σ es).insertAll (fs.filterMap (T.opened σ)) := by
  rw [opens, List.filterMap_append]
  exact EquationSet.insertAll_append _ _ _

/-- The first decisive instance is determined by the set of the instances. -/
lemma first?_eq : T.first? σ es = (T.opens σ es).toList.find? (Equation.decisive T.order) :=
  (EquationSet.find?_insertAll _ .empty _).symm

lemma first?_congr (h : T.opens σ es = T.opens σ fs) : T.first? σ es = T.first? σ fs := by
  rw [first?_eq, first?_eq, h]

lemma first?_append (h : T.first? σ es = some q) (fs : List Equation) :
    T.first? σ (es ++ fs) = some q := by
  rw [first?, List.filterMap_append, List.find?_append]
  exact congrArg (Option.or · _) h

lemma first?_insertAll (h : T.first? σ E.toList = some q) (fs : List Equation) :
    T.first? σ (E.insertAll fs).toList = some q :=
  (first?_congr (opens_insertAll E fs)).trans (first?_append h fs)

lemma passes_of_first? (h : T.first? σ es = none) : ∀ e ∈ es, T.Passes σ e := fun e he =>
  passes_iff.mpr fun q hq => by
    simpa using List.find?_eq_none.mp h q (List.mem_filterMap.mpr ⟨e, he, hq⟩)

/-- The equations before the one with the first decisive instance are passed over. -/
lemma exists_of_first? (h : T.first? σ es = some q) : ∃ pre p post, es = pre ++ p :: post ∧
    (∀ e ∈ pre, T.Passes σ e) ∧ p.instantiate T.evaluate σ = q ∧ q.truth T.order ≠ .true ∧
      q.decisive T.order = true := by
  have hq : q.decisive T.order = true := List.find?_some h
  induction es with
  | nil => cases h
  | cons e es ih =>
      by_cases he : ∃ r, T.opened σ e = some r ∧ r.decisive T.order = true
      · obtain ⟨r, hr, hd⟩ := he
        rw [first?, List.filterMap_cons, hr, List.find?_cons_of_pos hd] at h
        cases h
        obtain ⟨hinst, ht⟩ := opened_eq_some_iff.mp hr
        exact ⟨[], e, es, rfl, by simp, hinst, ht, hd⟩
      · have hpass : T.Passes σ e := passes_iff.mpr fun r hr => by
          rw [← Bool.not_eq_true]
          exact fun hd => he ⟨r, hr, hd⟩
        have hrest : T.first? σ es = some q := by
          rw [first?, List.filterMap_cons] at h
          cases hr : T.opened σ e with
          | none => rwa [hr] at h
          | some r =>
              rw [hr, List.find?_cons_of_neg (by simp [passes_iff.mp hpass r hr])] at h
              exact h
        obtain ⟨pre, p, post, rfl, hpre, hp⟩ := ih hrest
        exact ⟨e :: pre, p, post, rfl, List.forall_mem_cons.mpr ⟨hpass, hpre⟩, hp⟩

end Theory

namespace Constraint

variable {c d : Constraint}

/-! ### Passes -/

/-- Equations that are passed over stay as they are under the store. -/
lemma scan_append (h : ∀ e ∈ pre, T.Passes σ e) (post : List Equation) :
    scan T σ kept (pre ++ post) = scan T σ (kept.insertAll (T.remaining σ pre)) post := by
  induction pre generalizing kept with
  | nil => rfl
  | cons e pre ih =>
      rw [List.forall_mem_cons] at h
      rw [List.cons_append, scan]
      rcases h.1 with ht | ⟨ht, hb⟩
      · simp only [ht, ih h.2]
        simp [Theory.remaining, ht]
      · simp only [ht, hb, ih h.2]
        simp [Theory.remaining, ht, EquationSet.insertAll]

lemma scan_of_none (h : T.first? σ es = none) : scan T σ .empty es = .settled (T.opens σ es) := by
  have hpass := Theory.passes_of_first? h
  have hscan : scan T σ .empty (es ++ []) = _ := scan_append hpass []
  rw [List.append_nil, Theory.remaining_eq_filterMap hpass] at hscan
  exact hscan

/-- A pass without a decisive instance keeps the instances that are not true. -/
theorem renormalize_of_none (h : T.first? c.store c.equations.toList = none) :
    renormalize T c = .ok { c with equations := T.opens c.store c.equations.toList } := by
  rw [renormalize_eq, scan_of_none h]

/-- A false instance makes the constraint false if it is the first one that is decisive. -/
theorem renormalize_of_false (h : T.first? c.store c.equations.toList = some q)
    (hq : q.truth T.order = .false) :
    ∃ kept, renormalize T c = .ok ({ c with equations := kept }.falsify q) := by
  obtain ⟨pre, p, post, hsplit, hpre, rfl, -, -⟩ := Theory.exists_of_first? h
  rw [renormalize_eq, hsplit, scan_append hpre, scan]
  simp only [hq]
  exact ⟨_, rfl⟩

/-- If it gives a binding, this is worked into the store, and the next pass goes over the equations
that are left. -/
theorem renormalize_of_binding (h : T.first? c.store c.equations.toList = some q)
    (hq : q.truth T.order ≠ .false) :
    ∃ pre p post x t, c.equations.toList = pre ++ p :: post ∧ (∀ e ∈ pre, T.Passes c.store e) ∧
      p.instantiate T.evaluate c.store = q ∧ q.truth T.order = .unknown ∧
      q.binding? T.order = some (x, t) ∧
      renormalize T c = (compose T c x t).bind fun d =>
        if d.isFalse then
          .ok { d with equations := (EquationSet.ofList (T.remaining c.store pre)).insertAll post }
        else renormalize T
          { d with equations := (EquationSet.ofList (T.remaining c.store pre)).insertAll post } := by
  obtain ⟨pre, p, post, hsplit, hpre, rfl, ht, hd⟩ := Theory.exists_of_first? h
  have hunknown : (p.instantiate T.evaluate c.store).truth T.order = .unknown := by
    cases htruth : (p.instantiate T.evaluate c.store).truth T.order with
    | true => exact absurd htruth ht
    | false => exact absurd htruth hq
    | unknown => rfl
  rw [Equation.decisive, decide_eq_false hq, Bool.false_or] at hd
  obtain ⟨⟨x, t⟩, hb⟩ := Option.isSome_iff_exists.mp hd
  refine ⟨pre, p, post, x, t, hsplit, hpre, rfl, hunknown, hb, ?_⟩
  rw [renormalize_eq, hsplit, scan_append hpre, scan]
  simp only [hunknown, hb]
  cases compose T c x t <;> rfl

/-! ### Composition -/

/-- The two constraints agree on whether they are false, by which equation, and on the bindings. -/
structure Alike (c d : Constraint) : Prop where
  isFalse : c.isFalse = d.isFalse
  contradiction : c.contradiction = d.contradiction
  store : c.store = d.store

namespace Alike

lemma setStore (h : c.Alike d) (σ : Substitution) :
    ({ c with store := σ }).Alike { d with store := σ } := ⟨h.isFalse, h.contradiction, rfl⟩

lemma setEquations (h : c.Alike d) (E F : EquationSet) :
    ({ c with equations := E }).Alike { d with equations := F } :=
  ⟨h.isFalse, h.contradiction, h.store⟩

lemma falsify (h : c.Alike d) (e : Equation) : (c.falsify e).Alike (d.falsify e) := by
  unfold Constraint.falsify
  rw [h.isFalse]
  split
  · exact h
  · exact ⟨rfl, rfl, h.store⟩

lemma bind (h : c.Alike d) (x : Var) (t : Term) : (c.bind T x t).Alike (d.bind T x t) := by
  unfold Constraint.bind
  rw [h.isFalse, h.store]
  split
  · exact h
  · split
    · exact h.setStore _
    · exact (h.setStore _).falsify _
    · exact h.setStore _

lemma composeBinding (h : c.Alike d) (τ : Substitution) (b : Var × Term) :
    (c.composeBinding T τ b).Alike (d.composeBinding T τ b) := by
  unfold Constraint.composeBinding
  split
  · exact h.bind _ _
  · exact h

lemma foldl_composeBinding (h : c.Alike d) (τ : Substitution) (bs : List (Var × Term)) :
    (bs.foldl (Constraint.composeBinding T τ) c).Alike
      (bs.foldl (Constraint.composeBinding T τ) d) := by
  induction bs generalizing c d with
  | nil => exact h
  | cons b bs ih => exact ih (h.composeBinding τ b)

/-- The outcome of composition depends on the bindings alone. -/
lemma compose (h : c.Alike d) (hx : x ∉ c.store.keys) :
    ∃ a b, compose T c x t = .ok a ∧ compose T d x t = .ok b ∧ a.Alike b := by
  have hfold := h.foldl_composeBinding (T := T) (.single x t) c.store.toList
  refine ⟨_, _, compose_eq hx, compose_eq (h.store ▸ hx), ?_⟩
  rw [← h.store, ← hfold.isFalse, ← hfold.store]
  split
  · exact hfold
  · exact hfold.setStore _

end Alike

end Constraint

end SolvedForm

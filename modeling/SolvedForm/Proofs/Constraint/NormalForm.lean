import SolvedForm.Proofs.Constraint.Insertion
import SolvedForm.Proofs.Constraint.Pass

/-!
The normal form of constraints, and how solving arrives at it.

* `Constraint.NormalForm`: nothing waits in the buffer, no key of the store occurs in a value or
  in an equation, every equation is open and gives no binding, and the truth value is the one that
  equations and disjunctions call for.
* `Constraint.Refuted`, `Constraint.Settled`, `Constraint.Sound`: a constraint known to be false;
  one that is so or is in normal form; one that is so or can be brought into normal form.
* `Constraint.normalize_settled`: the normal form is reached, without fault.
* `Constraint.Sound.insertAll`, `Constraint.Sound.conjoin`: insertion keeps a constraint sound.
* `Constraint.Settled.solved_of_true`: a true constraint is an acyclic store and nothing else.
-/

namespace SolvedForm.Constraint

variable {T : Theory} {F : Fragment T} {c d : Constraint} {e : Equation} {es : List Equation}

/-! ### The normal form -/

/-- All that can be solved has been solved. -/
structure NormalForm (order : SortOrder) (c : Constraint) : Prop where
  normal : c.normal = true
  unguarded : c.guarded = false
  drained : c.buffer = .empty
  acyclic : c.store.Acyclic
  untouched : ∀ e ∈ c.equations.toList, ∀ x, x ∈ e.left.vars ∨ x ∈ e.right.vars → x ∉ c.store.keys
  undecided : ∀ e ∈ c.equations.toList, e.truth order = .unknown
  unbound : ∀ e ∈ c.equations.toList, e.binding? order = none
  truth : c.truth = if c.equations.isEmpty && c.pending.isEmpty then .true else .unknown

/-- The constraint is known to be false, and has the equation that shows it. -/
def Refuted (c : Constraint) : Prop := c.isFalse = true ∧ c.contradiction ≠ none

/-- The constraint is over the fragment, and what is solved in it is solved for good. -/
structure Ready (F : Fragment T) (c : Constraint) : Prop where
  within : c.Within F
  unguarded : c.guarded = false
  acyclic : c.store.Acyclic
  settled : c.normal = true → c.NormalForm T.order

/-- The constraint is false, or it can be brought into normal form. -/
def Sound (F : Fragment T) (c : Constraint) : Prop := c.Refuted ∨ c.Ready F

/-- The constraint is false, or it is in normal form. -/
def Settled (F : Fragment T) (c : Constraint) : Prop :=
  c.Refuted ∨ c.Within F ∧ c.NormalForm T.order

lemma refuted_falsify (h : c.isFalse = false) (e : Equation) : (c.falsify e).Refuted := by
  rw [falsify_eq h]
  exact ⟨rfl, by simp⟩

lemma NormalForm.ready (hc : c.Within F) (h : c.NormalForm T.order) : c.Ready F :=
  ⟨hc, h.unguarded, h.acyclic, fun _ => h⟩

/-- A constraint that is sound over a fragment is sound over every larger fragment. -/
lemma Sound.mono {G : Fragment T} (hmem : ∀ t, F.Mem t → G.Mem t)
    (hbinds : ∀ x t, F.Binds x t → G.Binds x t) (h : c.Sound F) : c.Sound G :=
  h.imp_right fun hc => ⟨hc.within.mono hmem hbinds, hc.unguarded, hc.acyclic, hc.settled⟩

lemma Settled.sound (h : c.Settled F) : c.Sound F :=
  h.imp_right fun ⟨hc, hn⟩ => hn.ready hc

lemma Settled.within (h : c.Settled F) (hc : c.isFalse = false) : c.Within F :=
  (h.resolve_left fun hr => absurd hr.1 (by simp [hc])).1

lemma normalForm_empty : empty.NormalForm T.order where
  normal := rfl
  unguarded := rfl
  drained := rfl
  acyclic := Substitution.acyclic_empty
  untouched := by simp [empty]
  undecided := by simp [empty]
  unbound := by simp [empty]
  truth := rfl

lemma settled_empty : empty.Settled F := .inr ⟨within_empty, normalForm_empty⟩

/-! ### Insertion -/

lemma Ready.extends (hc : c.Ready F) (h : c.Extends d) (hd : d.Within F) : d.Ready F where
  within := hd
  unguarded := h.guarded.trans hc.unguarded
  acyclic := h.store ▸ hc.acyclic
  settled := fun hn => h.changed.elim (fun hcd => hcd ▸ hc.settled (hcd ▸ hn))
    fun hf => absurd (hf.symm.trans hn) Bool.false_ne_true

lemma insertAll_of_isFalse (h : c.isFalse = true) : c.insertAll T es = c := by
  rw [insertAll_eq_foldl]
  induction es.flatMap T.obligations with
  | nil => rfl
  | cons e es ih =>
      rw [List.foldl_cons, insertEquation, if_pos (by simp [h])]
      exact ih

lemma conjoin_of_isFalse (h : c.isFalse = true) : c.conjoin T d = c := if_pos h

lemma Sound.insertAll (h : c.Sound F) (hes : ∀ e ∈ es, F.MemEq e) : (c.insertAll T es).Sound F := by
  rcases h with h | h
  · rw [insertAll_of_isFalse h.1]
    exact .inl h
  · exact .inr (h.extends (extends_insertAll c es) (h.within.insertAll hes))

lemma Sound.conjoin (hc : c.Sound F) (hd : d.Refuted ∨ d.Within F) : (c.conjoin T d).Sound F := by
  rcases hc with hc | hc
  · rw [conjoin_of_isFalse hc.1]
    exact .inl hc
  · rcases hd with hd | hd
    · obtain ⟨e, he⟩ := Option.ne_none_iff_exists'.mp hd.2
      have hconj : c.conjoin T d = c.falsify e := by
        rw [Constraint.conjoin, if_neg (by simp [hc.within.over.undecided])]
        simp only [he]
      rw [hconj]
      exact .inl (refuted_falsify hc.within.over.undecided e)
    · exact .inr (hc.extends (extends_conjoin hd hc.within.over.undecided)
        (hc.within.conjoin hd))

/-! ### Solving -/

/-- What solving leaves of a constraint: the equations are settled under the store. -/
structure Solved (order : SortOrder) (c : Constraint) : Prop where
  acyclic : c.store.Acyclic
  untouched : ∀ e ∈ c.equations.toList, ∀ x, x ∈ e.left.vars ∨ x ∈ e.right.vars → x ∉ c.store.keys
  undecided : ∀ e ∈ c.equations.toList, e.truth order = .unknown
  unbound : ∀ e ∈ c.equations.toList, e.binding? order = none

lemma memEq_remaining {σ : Substitution} (hσ : F.MemSubst σ) (hes : ∀ e ∈ es, F.MemEq e) :
    ∀ q ∈ T.remaining σ es, F.MemEq q := by
  intro q hq
  obtain ⟨e, he, rfl, -⟩ := Theory.mem_remaining.mp hq
  exact Fragment.memEq_instantiate hσ (hes e he)

/-- The constraint with which solving goes on after a binding has been found is over the fragment,
and its store is acyclic. -/
lemma Within.extend {pre post : List Equation} {p : Equation} {x : Var} {t : Term}
    (h : c.Within F) (hac : c.store.Acyclic) (split : c.equations.toList = pre ++ p :: post)
    (hp : (p.instantiate T.evaluate c.store).truth T.order = .unknown)
    (hb : (p.instantiate T.evaluate c.store).binding? T.order = some (x, t)) :
    Within F { c with
      store := T.extend c.store x t
      equations := (EquationSet.ofList (T.remaining c.store pre)).insertAll post } ∧
    (T.extend c.store x t).Acyclic := by
  have hes : ∀ e ∈ pre ++ p :: post, F.MemEq e := split ▸ h.over.equations
  obtain ⟨hbinds, -, ht, hocc⟩ := fresh_of_binding h.over hac (hes p (by simp)) hp hb
  refine ⟨.intro ⟨h.over.undecided, h.over.consistent, fun q hq => ?_, h.over.buffer,
    memSubst_extend h.over.store hbinds⟩ h.pending,
    acyclic_extend h.over.store hac hbinds ht hocc⟩
  rcases mem_kept.mp hq with ⟨e, he, rfl, -⟩ | hq
  · exact Fragment.memEq_instantiate h.over.store (hes e (List.mem_append_left _ he))
  · exact hes q (List.mem_append_right _ (List.mem_cons_of_mem _ hq))

/-- Fields that solving does not touch. -/
structure SameFrame (c d : Constraint) : Prop where
  buffer : d.buffer = c.buffer
  normal : d.normal = c.normal
  guarded : d.guarded = c.guarded
  pending : d.pending = c.pending

/-- Solving ends without fault, in a false constraint or a solved one. -/
theorem renormalize_solved (h : c.Within F) (hac : c.store.Acyclic) :
    ∃ d, renormalize T c = .ok d ∧
      (d.Refuted ∨ d.Within F ∧ d.Solved T.order ∧ c.SameFrame d) := by
  -- each binding found uses up an equation
  induction hn : c.equations.size using Nat.strongRecOn generalizing c with
  | _ n ih =>
      have hr := renormalized h.over hac
      generalize renormalize T c = r at hr
      cases hr with
      | settled passes =>
          refine ⟨_, rfl, .inr ⟨?_, ⟨hac, ?_, ?_, ?_⟩, ⟨rfl, rfl, rfl, rfl⟩⟩⟩
          · exact .intro ⟨h.over.undecided, h.over.consistent, fun q hq =>
              memEq_remaining h.over.store h.over.equations q (EquationSet.mem_ofList.mp hq),
              h.over.buffer, h.over.store⟩ h.pending
          · intro q hq x hx
            obtain ⟨e, he, rfl, -⟩ := Theory.mem_remaining.mp (EquationSet.mem_ofList.mp hq)
            rw [Equation.instantiate_eq_map] at hx
            exact hx.elim (Fragment.not_mem_keys h.over.store hac (h.over.equations e he).1)
              (Fragment.not_mem_keys h.over.store hac (h.over.equations e he).2)
          · intro q hq
            obtain ⟨e, he, rfl, ht⟩ := Theory.mem_remaining.mp (EquationSet.mem_ofList.mp hq)
            exact ht
          · intro q hq
            obtain ⟨e, he, rfl, ht⟩ := Theory.mem_remaining.mp (EquationSet.mem_ofList.mp hq)
            rcases passes e he with ht' | ⟨-, hb⟩
            · rw [ht] at ht'
              cases ht'
            · exact hb
      | refuted => exact ⟨_, rfl, .inl (refuted_falsify (by simpa [isFalse] using h.over.undecided) _)⟩
      | clash => exact ⟨_, rfl, .inl (refuted_falsify (by simpa [isFalse] using h.over.undecided) _)⟩
      | @solved pre post p x t split passes hp hb =>
          obtain ⟨hw, hac'⟩ := h.extend hac split hp hb
          obtain ⟨d, hd, hd'⟩ := ih _ (hn ▸ size_kept_lt split) hw hac' rfl
          refine ⟨d, hd, hd'.imp_right ?_⟩
          rintro ⟨hw, hs, hf⟩
          exact ⟨hw, hs, hf.buffer, hf.normal, hf.guarded, hf.pending⟩

/-! ### Normalization -/

lemma isFalse_updateTruth (c : Constraint) : c.updateTruth.isFalse = c.isFalse := by
  unfold updateTruth
  split
  · rfl
  · next h =>
      rw [Bool.not_eq_true] at h
      rw [h]
      unfold isFalse
      split <;> simp

lemma updateTruth_of_isFalse (h : c.isFalse = true) : c.updateTruth = c := if_pos h

lemma updateTruth_eq (h : c.isFalse = false) : c.updateTruth =
    { c with truth := if c.equations.isEmpty && c.pending.isEmpty then .true else .unknown } :=
  if_neg (by simp [h])

@[simp] lemma store_updateTruth (c : Constraint) : c.updateTruth.store = c.store := by
  unfold updateTruth
  split <;> rfl

@[simp] lemma equations_updateTruth (c : Constraint) : c.updateTruth.equations = c.equations := by
  unfold updateTruth
  split <;> rfl

@[simp] lemma pending_updateTruth (c : Constraint) : c.updateTruth.pending = c.pending := by
  unfold updateTruth
  split <;> rfl

lemma Within.updateTruth (h : c.Within F) : c.updateTruth.Within F := by
  have hf := isFalse_updateTruth c
  rw [updateTruth_eq h.over.undecided] at hf ⊢
  exact .intro ⟨hf.trans h.over.undecided, h.over.consistent, h.over.equations, h.over.buffer,
    h.over.store⟩ h.pending

/-- A solved constraint whose truth value is judged anew is in normal form. -/
lemma Solved.normalForm {order : SortOrder} (h : c.Solved order) (hc : c.isFalse = false)
    (hn : c.normal = true) (hg : c.guarded = false) (hb : c.buffer = .empty) :
    c.updateTruth.NormalForm order := by
  rw [updateTruth_eq hc]
  exact ⟨hn, hg, hb, h.acyclic, h.untouched, h.undecided, h.unbound, rfl⟩

lemma Within.drain (h : c.Within F) : c.drain.Within F := by
  refine .intro ⟨h.over.undecided, h.over.consistent, fun q hq => ?_, by simp [Constraint.drain],
    h.over.store⟩ h.pending
  exact (EquationSet.mem_insertAll.mp hq).elim (h.over.equations q) (h.over.buffer q)

/-- Normalization reaches the normal form unless the constraint is false. -/
theorem normalize_settled (h : c.Sound F) : ∃ d, c.normalize T = .ok d ∧ d.Settled F := by
  rcases h with h | h
  · exact ⟨c, by rw [normalize, if_pos (by simp [h.1])], .inl h⟩
  · by_cases hn : c.normal = true
    · exact ⟨c, by rw [normalize, if_pos (by simp [hn])], .inr ⟨h.within, h.settled hn⟩⟩
    · have hw : ({ c with normal := true }.drain).Within F :=
        Within.drain (.intro ⟨h.within.over.undecided, h.within.over.consistent,
          h.within.over.equations, h.within.over.buffer, h.within.over.store⟩ h.within.pending)
      obtain ⟨d, hd, hd'⟩ := renormalize_solved hw h.acyclic
      refine ⟨d.updateTruth, ?_, ?_⟩
      · rw [normalize, if_neg (by simp [h.within.over.undecided, hn, h.unguarded]), hd]
        rfl
      · rcases hd' with hr | ⟨hdw, hs, hf⟩
        · rw [updateTruth_of_isFalse hr.1]
          exact .inl hr
        · exact .inr ⟨hdw.updateTruth, hs.normalForm hdw.over.undecided hf.normal
            (hf.guarded.trans h.unguarded) hf.buffer⟩

lemma settled_of_normalize (h : c.Sound F) (hd : c.normalize T = .ok d) : d.Settled F := by
  obtain ⟨d', hd', hs⟩ := normalize_settled h
  obtain rfl := Except.ok.inj (hd.symm.trans hd')
  exact hs

/-- Solving leaves the disjunctions alone. -/
lemma pending_of_normalize (hc : c.Sound F) (h : c.normalize T = .ok d)
    (hd : d.isFalse = false) : d.pending = c.pending := by
  unfold normalize at h
  split at h
  · cases h
    rfl
  · next hgo =>
      simp only [Bool.or_eq_true, not_or, Bool.not_eq_true] at hgo
      have hready := hc.resolve_left fun hr => by simp [hr.1] at hgo
      obtain ⟨a, ha, hres⟩ :=
        renormalize_solved (hready.within.setNormal true).drain hready.acyclic
      rw [ha] at h
      cases h
      rw [isFalse_updateTruth] at hd
      rw [updateTruth_eq hd]
      exact (hres.resolve_left fun hr => by simp [hr.1] at hd).2.2.pending

/-- In a true constraint only bindings are left. -/
lemma Settled.solved_of_true (h : c.Settled F)
    (htrue : c.truth = .true) :
    c.equations = .empty ∧ c.buffer = .empty ∧ c.pending = [] ∧ c.store.Acyclic ∧
      F.MemSubst c.store := by
  obtain ⟨hw, hn⟩ := h.resolve_left fun hr => by simp [Refuted, isFalse, htrue] at hr
  have htruth := hn.truth
  rw [htrue] at htruth
  split at htruth
  · next he =>
      rw [Bool.and_eq_true, EquationSet.isEmpty, List.isEmpty_iff, List.isEmpty_iff] at he
      exact ⟨EquationSet.ext he.1, hn.drained, he.2, hn.acyclic, hw.over.store⟩
  · cases htruth

/-- Without equations there is nothing to solve. -/
lemma renormalize_of_no_equations (hE : c.equations = .empty) : renormalize T c = .ok c := by
  rw [renormalize]
  split
  · next kept hpass =>
      rw [hE, EquationSet.toList_empty, scan, Pass.settled.injEq] at hpass
      rw [← hpass, ← hE]
      cases c
      rfl
  · next hpass => rw [hE] at hpass; cases hpass
  · next hpass => rw [hE] at hpass; cases hpass

lemma normalize_eq_of_no_equations (hE : c.equations = .empty) (hB : c.buffer = .empty) :
    c.normalize T = .ok (if c.isFalse || c.normal || c.guarded then c
      else { c with normal := true }.updateTruth) := by
  unfold normalize
  split
  · rfl
  · have hdrain : { c with normal := true }.drain = { c with normal := true } := by
      rw [drain, hE, hB]
      cases c
      cases hE
      cases hB
      rfl
    rw [hdrain, renormalize_of_no_equations (by exact hE)]
    rfl

lemma normalize_of_no_equations (hE : c.equations = .empty) (hB : c.buffer = .empty)
    (h : c.normalize T = .ok d) : d.store = c.store ∧ d.equations = .empty := by
  rw [normalize_eq_of_no_equations hE hB] at h
  cases h
  split
  · exact ⟨rfl, hE⟩
  · rw [store_updateTruth, equations_updateTruth]
    exact ⟨rfl, hE⟩

end SolvedForm.Constraint

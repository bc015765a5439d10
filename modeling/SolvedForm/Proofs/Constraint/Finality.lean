import Mathlib
import SolvedForm.Proofs.Constraint.Expansion
import SolvedForm.Proofs.Constraint.Renaming

/-!
False is final.

* `Constraint.Coherent`: a constraint is false exactly when it records a falsifying equation.
* `Constraint.KeepsVerdict`: a change that keeps constraints coherent, and false ones false for
  the same equation and without further disjunctions. There is one lemma for each operation that
  writes the truth value.
* `Constraint.Update`: one operation on a constraint, which may put in another constraint.
* `Constraint.Update.keepsVerdict`: every operation is such a change.
* `Constraint.Made`: the constraints that operations make of the empty one.
* `Constraint.Made.false_final`: in all of these a falsifying equation is recorded exactly when
  they are false, and no further operations change that.
-/

namespace SolvedForm.Constraint

variable {T : Theory} {b c d : Constraint} {x : Var} {t : Term} {e : Equation} {es : List Equation}
  {fold narrowing : Bool} {fuel n m : Nat}

/-- The constraint is false exactly when it records a falsifying equation. -/
def Coherent (c : Constraint) : Prop := c.isFalse = true ↔ c.contradiction.isSome = true

/-- A change from one constraint to another that respects what is known to be false. -/
structure KeepsVerdict (c d : Constraint) : Prop where
  coherent : c.Coherent → d.Coherent
  final : c.isFalse = true →
    d.isFalse = true ∧ d.contradiction = c.contradiction ∧ d.pending = c.pending

lemma coherent_empty : empty.Coherent := by simp [Coherent, empty, isFalse]

lemma Coherent.contradiction_eq_none (h : c.Coherent) (hc : c.isFalse = false) :
    c.contradiction = none := by
  rw [Coherent, hc] at h
  simpa using h

namespace KeepsVerdict

lemma refl (c : Constraint) : c.KeepsVerdict c := ⟨id, fun h => ⟨h, rfl, rfl⟩⟩

lemma trans (h : b.KeepsVerdict c) (h' : c.KeepsVerdict d) : b.KeepsVerdict d where
  coherent := h'.coherent ∘ h.coherent
  final := fun hb => by
    obtain ⟨hc, hcontra, hpending⟩ := h.final hb
    obtain ⟨hd, hcontra', hpending'⟩ := h'.final hc
    exact ⟨hd, hcontra'.trans hcontra, hpending'.trans hpending⟩

/-- A change of bindings, equations and flags only. -/
lemma of_eq (htruth : d.truth = c.truth) (hcontra : d.contradiction = c.contradiction)
    (hpending : d.pending = c.pending) : c.KeepsVerdict d := by
  have hf : d.isFalse = c.isFalse := by rw [isFalse, isFalse, htruth]
  exact ⟨fun h => by rwa [Coherent, hf, hcontra], fun h => ⟨hf.trans h, hcontra, hpending⟩⟩

/-- A change that is made only while the constraint is not false. -/
lemma of_not_false (hc : c.isFalse = false) (h : c.contradiction = none → d.Coherent) :
    c.KeepsVerdict d where
  coherent := fun hcoh => h (hcoh.contradiction_eq_none hc)
  final := fun hf => absurd hf (by simp [hc])

lemma foldl {α : Type} {f : Constraint → α → Constraint}
    (hf : ∀ (c : Constraint) (a : α), c.KeepsVerdict (f c a)) (as : List α) (c : Constraint) :
    c.KeepsVerdict (as.foldl f c) := by
  induction as generalizing c with
  | nil => exact .refl c
  | cons a as ih => exact (hf c a).trans (ih (f c a))

end KeepsVerdict

/-! ### Writing the truth value -/

lemma coherent_of_unknown (ht : c.truth = .unknown) (hc : c.contradiction = none) : c.Coherent := by
  simp [Coherent, isFalse, ht, hc]

lemma keepsVerdict_falsify (c : Constraint) (e : Equation) : c.KeepsVerdict (c.falsify e) := by
  cases hc : c.isFalse with
  | true =>
      rw [falsify, if_pos hc]
      exact .refl c
  | false =>
      rw [falsify_eq hc]
      exact .of_not_false hc fun _ => by simp [Coherent, isFalse]

lemma keepsVerdict_updateTruth (c : Constraint) : c.KeepsVerdict c.updateTruth := by
  cases hc : c.isFalse with
  | true =>
      rw [updateTruth_of_isFalse hc]
      exact .refl c
  | false =>
      refine .of_not_false hc fun hcontra => ?_
      rw [Coherent, isFalse_updateTruth, hc, updateTruth_eq hc]
      simp [hcontra]

lemma keepsVerdict_insertEquation (c : Constraint) (e : Equation) :
    c.KeepsVerdict (c.insertEquation e) := by
  rcases insertEquation_cases c e with ⟨h, -⟩ | ⟨hc, -, h⟩ | ⟨hc, -, h⟩ <;> rw [h]
  · exact .refl c
  · exact .of_not_false hc fun h => coherent_of_unknown rfl h
  · exact .of_not_false hc fun h => coherent_of_unknown rfl h

lemma keepsVerdict_insertAll (c : Constraint) (es : List Equation) :
    c.KeepsVerdict (c.insertAll T es) := by
  rw [insertAll_eq_foldl]
  exact .foldl keepsVerdict_insertEquation _ c

lemma isFalse_foldl_insertEquation (es : List Equation) (hc : c.isFalse = false) :
    (es.foldl insertEquation c).isFalse = false := by
  induction es generalizing c with
  | nil => exact hc
  | cons e es ih => exact ih (Meaning.isFalse_insertEquation hc)

/-- New disjunctions are added to constraints that are not false only. -/
lemma keepsVerdict_conjoin (c d : Constraint) : c.KeepsVerdict (c.conjoin T d) := by
  cases hc : c.isFalse with
  | true =>
      rw [conjoin_of_isFalse hc]
      exact .refl c
  | false =>
      cases hd : d.contradiction with
      | some e =>
          rw [conjoin, if_neg (by simp [hc])]
          simp only [hd]
          exact keepsVerdict_falsify c e
      | none =>
          rw [conjoin_eq hd hc, addPending]
          have hfold := KeepsVerdict.foldl keepsVerdict_insertEquation (d.content T) c
          have hopen := isFalse_foldl_insertEquation (d.content T) hc
          split
          · exact hfold
          · exact hfold.trans (.of_not_false hopen fun h => coherent_of_unknown rfl h)

/-! ### Bindings and the normal form -/

lemma keepsVerdict_bind (c : Constraint) (x : Var) (t : Term) : c.KeepsVerdict (c.bind T x t) := by
  unfold bind
  split
  · exact .refl c
  · split
    · exact .of_eq rfl rfl rfl
    · refine .trans ?_ (keepsVerdict_falsify _ _)
      exact .of_eq rfl rfl rfl
    · exact .of_eq rfl rfl rfl

lemma keepsVerdict_composeBinding (τ : Substitution) (c : Constraint) (b : Var × Term) :
    c.KeepsVerdict (c.composeBinding T τ b) := by
  unfold composeBinding
  split
  · exact keepsVerdict_bind c _ _
  · exact .refl c

lemma keepsVerdict_compose (h : compose T c x t = .ok d) : c.KeepsVerdict d := by
  have hfold := KeepsVerdict.foldl (keepsVerdict_composeBinding (T := T) (.single x t))
    c.store.toList c
  by_cases hx : x ∈ c.store.keys
  · rw [compose, if_pos (Substitution.contains_iff.mpr hx)] at h
    cases h
  · rw [compose_eq hx] at h
    cases h
    split
    · exact hfold
    · exact hfold.trans (.of_eq rfl rfl rfl)

lemma keepsVerdict_renormalize (h : renormalize T c = .ok d) : c.KeepsVerdict d := by
  -- each binding found uses up an equation
  induction hn : c.equations.size using Nat.strongRecOn generalizing c with
  | _ n ih =>
      rw [renormalize] at h
      split at h
      · cases h
        exact .of_eq rfl rfl rfl
      · cases h
        refine .trans ?_ (keepsVerdict_falsify _ _)
        exact .of_eq rfl rfl rfl
      · next kept x t hpass =>
          split at h
          · cases h
          · next a ha =>
              have ha := (keepsVerdict_compose ha).trans (.of_eq rfl rfl rfl : a.KeepsVerdict
                { a with equations := kept })
              split at h
              · cases h
                exact ha
              · have hlt := size_lt_of_scan hpass
                refine ha.trans (ih _ ?_ h rfl)
                simpa [hn.symm, EquationSet.size, EquationSet.empty] using hlt

lemma keepsVerdict_normalize (h : c.normalize T = .ok d) : c.KeepsVerdict d := by
  unfold normalize at h
  split at h
  · cases h
    exact .refl c
  · cases hr : renormalize T { c with normal := true }.drain with
    | error fault => simp [hr, Except.map] at h
    | ok a =>
        rw [hr] at h
        cases h
        have hdrain : c.KeepsVerdict { c with normal := true }.drain := .of_eq rfl rfl rfl
        exact (hdrain.trans (keepsVerdict_renormalize hr)).trans (keepsVerdict_updateTruth a)

/-! ### Simplification -/

/-- A round keeps constraints coherent, though the disjunctions it finds are added whether or not an
alternative taken over has made the constraint false. -/
lemma coherent_round {solve : List (List Equation) → Engine (List Constraint)} {kept : EquationSet}
    (hc : c.Coherent) (h : round T fold solve c kept es n = .ok (d, m)) : d.Coherent := by
  induction es generalizing c kept n with
  | nil =>
      rw [round] at h
      obtain ⟨rfl, -⟩ := Engine.pure_eq_ok.mp h
      exact hc
  | cons e es ih =>
      have hinsert (es : List Equation) :
          c.KeepsVerdict ({ c with normal := false }.insertAll T es) := by
        refine .trans ?_ (keepsVerdict_insertAll _ es)
        exact .of_eq rfl rfl rfl
      rcases round_cases h with ⟨failure, -, rfl⟩ | ⟨k, -, h⟩ | ⟨parts, k, -, -, h⟩ |
        ⟨common, as, k, ds, l, -, -, h⟩
      · exact (keepsVerdict_falsify _ _).coherent hc
      · exact ih hc h
      · exact ih ((hinsert parts).coherent hc) h
      · have hcommon := (hinsert common).coherent hc
        rcases h with ⟨-, rfl⟩ | ⟨a, -, h⟩ | ⟨b, rfl, h⟩
        · exact (keepsVerdict_falsify _ _).coherent hc
        · exact ih ((keepsVerdict_conjoin _ _).coherent hcommon) h
        · exact ih (by exact hcommon) h

lemma coherent_simplifySince {last : Option Snapshot} (hc : c.Coherent)
    (h : simplifySince T fold fuel last c n = .ok (d, m)) : d.Coherent := by
  induction fuel generalizing last c n with
  | zero => exact absurd h Engine.throw_ne_ok
  | succ fuel ih =>
      obtain ⟨b, hb, h⟩ := simplifySince_cases h
      have hb := (keepsVerdict_normalize hb).coherent hc
      rcases h with ⟨-, rfl, -⟩ | ⟨-, -, a, k, ha, h⟩
      · exact hb
      · have ha := coherent_round (c := b.takeOut) hb ha
        rcases h with ⟨-, rfl, -⟩ | ⟨-, h⟩
        · exact ha
        · exact ih ha h

/-- Simplification does not touch a false constraint. -/
lemma keepsVerdict_simplify (h : c.simplify T fuel fold n = .ok (d, m)) : c.KeepsVerdict d where
  coherent := fun hc => coherent_simplifySince hc h
  final := fun hc => by
    rw [simplify_of_isFalse hc h]
    exact ⟨hc, rfl, rfl⟩

/-! ### Expansion -/

lemma keepsVerdict_expandBinding (s : Expanding) (x : Var) :
    s.constraint.KeepsVerdict (expandBinding T narrowing s x).constraint := by
  unfold expandBinding
  split
  · exact keepsVerdict_bind _ _ _
  · exact .refl _

lemma keepsVerdict_expandOnce (c : Constraint) :
    c.KeepsVerdict (c.expandOnce T narrowing).1 := by
  have bindings : ∀ (xs : List Var) (s : Expanding),
      s.constraint.KeepsVerdict (xs.foldl (expandBinding T narrowing) s).constraint := by
    intro xs
    induction xs with
    | nil => exact fun s => .refl s.constraint
    | cons x xs ih => exact fun s => (keepsVerdict_expandBinding s x).trans (ih _)
  have hs := bindings c.store.keys ⟨c, [], false⟩
  unfold expandOnce
  dsimp only
  generalize c.store.keys.foldl (expandBinding T narrowing) ⟨c, [], false⟩ = s at hs ⊢
  have hequations : s.constraint.KeepsVerdict (expandEquations T narrowing s).constraint :=
    .of_eq rfl rfl rfl
  have hnormal : ∀ a : Constraint, a.KeepsVerdict { a with normal := false } :=
    fun _ => .of_eq rfl rfl rfl
  exact (((hs.trans hequations).trans (keepsVerdict_insertAll _ _)).trans (hnormal _)).trans
    (keepsVerdict_updateTruth _)

lemma keepsVerdict_expandAndSimplify
    (h : c.expandAndSimplify T fuel narrowing n = .ok (d, m)) : c.KeepsVerdict d := by
  obtain ⟨b, hb, hrun⟩ := Engine.lift_bind_eq_ok.mp h
  refine (keepsVerdict_normalize hb).trans ?_
  clear hb h
  induction fuel generalizing b n with
  | zero => exact absurd hrun Engine.throw_ne_ok
  | succ fuel ih =>
      rw [expandAndSimplifyNormal] at hrun
      split at hrun
      · obtain ⟨rfl, rfl⟩ := Engine.pure_eq_ok.mp hrun
        exact .refl b
      · dsimp only at hrun
        obtain ⟨a, l, ha, hrest⟩ := Engine.bind_eq_ok.mp hrun
        have ha := (keepsVerdict_expandOnce b).trans (keepsVerdict_simplify ha)
        split at hrest
        · exact ha.trans (ih a hrest)
        · obtain ⟨rfl, rfl⟩ := Engine.pure_eq_ok.mp hrest
          exact ha

/-! ### Orientation, removal and renaming -/

lemma keepsVerdict_orient {targets : List Var} (h : c.orient T targets = .ok (.ok d)) :
    c.KeepsVerdict d := by
  rcases orient_cases h with ⟨-, rfl⟩ | ⟨-, fl, -, h⟩
  · exact .refl _
  · have hfold := KeepsVerdict.foldl
      (fun (d : Constraint) (b : Var × Term) => keepsVerdict_bind (T := T) d b.1 b.2)
      (fl.apply c.store) { c with store := .empty }
    have hstart : c.KeepsVerdict { c with store := .empty } := .of_eq rfl rfl rfl
    refine (hstart.trans hfold).trans (.trans ?_ (keepsVerdict_normalize h))
    exact .of_eq rfl rfl rfl

lemma keepsVerdict_removeBindings (c : Constraint) (xs : List Var) :
    c.KeepsVerdict (c.removeBindings T xs) := by
  obtain ⟨σ, -, h⟩ := removeBindings_eq (T := T) c xs
  rw [h]
  exact (KeepsVerdict.of_eq rfl rfl rfl : c.KeepsVerdict { c with store := σ }).trans
    (keepsVerdict_updateTruth _)

lemma keepsVerdict_rename (c : Constraint) (ρ : Var → Var) : c.KeepsVerdict (c.rename ρ) :=
  .of_eq rfl rfl rfl

/-! ### Alternatives -/

/-- Every combination of alternatives comes from the first one by conjoining and simplifying. -/
lemma keepsVerdict_extendBy {D : List (List Constraint)} {cs ds : List Constraint}
    (hcs : ∀ c ∈ cs, b.KeepsVerdict c) (h : D.foldlM (extendBy T fuel) cs n = .ok (ds, m)) :
    ∀ d ∈ ds, b.KeepsVerdict d := by
  induction D generalizing cs n with
  | nil =>
      obtain ⟨rfl, -⟩ := Engine.pure_eq_ok.mp h
      exact hcs
  | cons as D ih =>
      rw [List.foldlM_cons] at h
      obtain ⟨rows, k, hrows, h⟩ := Engine.bind_eq_ok.mp h
      refine ih (fun d hd => ?_) h
      obtain ⟨-, c, hc, a, -, e, i, j, he, hd⟩ := extendBy_cases hrows d hd
      exact (((hcs c hc).trans (keepsVerdict_conjoin c a)).trans (keepsVerdict_normalize he)).trans
        (keepsVerdict_simplify hd)

/-- No combination of alternatives is false. -/
lemma isFalse_eq_false_of_extendBy {D : List (List Constraint)} {cs ds : List Constraint}
    (hD : D ≠ []) (h : D.foldlM (extendBy T fuel) cs n = .ok (ds, m)) :
    ∀ d ∈ ds, d.isFalse = false := by
  induction D generalizing cs n with
  | nil => exact absurd rfl hD
  | cons as D ih =>
      rw [List.foldlM_cons] at h
      obtain ⟨rows, k, hrows, h⟩ := Engine.bind_eq_ok.mp h
      cases D with
      | nil =>
          obtain ⟨rfl, -⟩ := Engine.pure_eq_ok.mp h
          exact fun d hd => (extendBy_cases hrows d hd).1
      | cons bs D => exact ih (by simp) h

/-- A false constraint with disjunctions has no alternatives, one without is its own. -/
lemma keepsVerdict_alternatives {ds : List Constraint}
    (h : c.alternatives T fuel n = .ok (ds, m)) (hd : d ∈ ds) : c.KeepsVerdict d := by
  unfold alternatives at h
  split at h
  · obtain ⟨rfl, -⟩ := Engine.pure_eq_ok.mp h
    rw [List.mem_singleton.mp hd]
    exact .refl c
  · next hD =>
      obtain ⟨b, hb, hrun⟩ := Engine.lift_bind_eq_ok.mp h
      have hb := keepsVerdict_normalize hb
      have hkeeps := keepsVerdict_extendBy
        (List.forall_mem_singleton.mpr (KeepsVerdict.refl b)) hrun d hd
      have hopen := isFalse_eq_false_of_extendBy (by simpa using hD) hrun d hd
      refine ⟨fun hc => hkeeps.coherent (hb.coherent hc), fun hc => ?_⟩
      have hf := (hkeeps.final (hb.final hc).1).1
      simp [hopen] at hf

/-! ### Operations one after the other -/

/-- One operation on a constraint, which may put in the constraint `b`. An operation that takes
turns may be given any number of them, and any number from which to start for fresh variables; a
renaming may be any. -/
inductive Update (T : Theory) (b c : Constraint) : Constraint → Prop where
  | add {d : Constraint} (e : Equation) : c.add T e = .ok d → Update T b c d
  | addConditions {d : Constraint} (ts : List Term) : c.addConditions T ts = .ok d →
      Update T b c d
  | addSubstitution {d : Constraint} (σ : Substitution) : c.addSubstitution T σ = .ok d →
      Update T b c d
  | addConstraint {d : Constraint} : c.addConstraint T b = .ok d → Update T b c d
  | addAllThenSimplify {d : Constraint} (es : List Equation) (fuel n m : Nat) :
      c.addAllThenSimplify T fuel es n = .ok (d, m) → Update T b c d
  | simplify {d : Constraint} (fold : Bool) (fuel n m : Nat) :
      c.simplify T fuel fold n = .ok (d, m) → Update T b c d
  | expandAndSimplify {d : Constraint} (narrowing : Bool) (fuel n m : Nat) :
      c.expandAndSimplify T fuel narrowing n = .ok (d, m) → Update T b c d
  | orient {d : Constraint} (targets : List Var) : c.orient T targets = .ok (.ok d) →
      Update T b c d
  | isMatching {d : Constraint} (xs : List Var) (matching : Bool) :
      c.isMatching T xs = .ok (.ok (matching, d)) → Update T b c d
  | removeBindings (xs : List Var) : Update T b c (c.removeBindings T xs)
  | rename (ρ : Var → Var) : Update T b c (c.rename ρ)
  | alternatives {d : Constraint} (ds : List Constraint) (fuel n m : Nat) :
      c.alternatives T fuel n = .ok (ds, m) → d ∈ ds → Update T b c d

/-- The constraints that operations make, started from the empty constraint; what they put in is
made so as well. -/
inductive Made (T : Theory) : Constraint → Prop where
  | empty : Made T empty
  | update {b c d : Constraint} : Made T c → Made T b → Update T b c d → Made T d

/-- Every operation respects what is known to be false. -/
theorem Update.keepsVerdict (h : Update T b c d) : c.KeepsVerdict d := by
  cases h with
  | add e h => exact (keepsVerdict_insertAll c _).trans (keepsVerdict_normalize h)
  | addConditions ts h => exact (keepsVerdict_insertAll c _).trans (keepsVerdict_normalize h)
  | addSubstitution σ h => exact (keepsVerdict_insertAll c _).trans (keepsVerdict_normalize h)
  | addConstraint h => exact (keepsVerdict_conjoin c b).trans (keepsVerdict_normalize h)
  | addAllThenSimplify es fuel n m h =>
      exact (keepsVerdict_insertAll c es).trans (keepsVerdict_simplify h)
  | simplify fold fuel n m h => exact keepsVerdict_simplify h
  | expandAndSimplify narrowing fuel n m h => exact keepsVerdict_expandAndSimplify h
  | orient targets h => exact keepsVerdict_orient h
  | isMatching xs matching h => exact keepsVerdict_orient (isMatching_orient h)
  | removeBindings xs => exact keepsVerdict_removeBindings c xs
  | rename ρ => exact keepsVerdict_rename c ρ
  | alternatives ds fuel n m h hd => exact keepsVerdict_alternatives h hd

/-- So do operations one after the other. -/
lemma keepsVerdict_of_updates (h : Relation.ReflTransGen (fun c d => ∃ b, Update T b c d) c d) :
    c.KeepsVerdict d := by
  induction h with
  | refl => exact .refl c
  | tail _ hstep ih => exact ih.trans hstep.choose_spec.keepsVerdict

lemma Made.coherent (h : Made T c) : c.Coherent := by
  induction h with
  | empty => exact coherent_empty
  | update _ _ hstep hc _ => exact hstep.keepsVerdict.coherent hc

/-- Whatever the operations have made is false exactly when it records a falsifying equation. Once
it is false, it stays so under all further operations, with the same equation and the same
disjunctions. -/
theorem Made.false_final (h : Made T c) :
    (c.truth = .false ↔ ∃ e, c.contradiction = some e) ∧
      (c.truth = .false →
        ∀ d, Relation.ReflTransGen (fun c d => ∃ b, Update T b c d) c d →
          d.truth = .false ∧ d.contradiction = c.contradiction ∧ d.pending = c.pending) := by
  have isFalse_iff : ∀ a : Constraint, a.isFalse = true ↔ a.truth = .false := fun a => by
    simp [isFalse]
  constructor
  · rw [← isFalse_iff, ← Option.isSome_iff_exists]
    exact h.coherent
  · intro hc d hd
    obtain ⟨hf, hrest⟩ := (keepsVerdict_of_updates hd).final ((isFalse_iff c).mpr hc)
    exact ⟨(isFalse_iff d).mp hf, hrest⟩

/-- A constraint that the unifier has found false takes over no disjunction, and records the same
equation after a renaming. -/
theorem Made.false_final_disjunction :
    let T : Theory := .standard Subsorts.builtin.order
    let x : Var := ⟨"X", .int, false, none⟩
    let y : Var := ⟨"Y", .int, false, none⟩
    let pair (s t : Term) : Term := .app ⟨"pair", 2, none, .constructor⟩ [s, t]
    let clash : Equation := ⟨pair (.var x) (.int 1), pair (.var y) (.int 2)⟩
    let keys (s t : Term) : Term := .map [(s, .int 0), (t, .int 0)] none
    let ρ : Var → Var := fun z => if z = x then y else z
    ∃ a b c d : Constraint,
      Constraint.empty.addAllThenSimplify T 2
        [⟨keys (.var x) (.var y), keys (.int 1) (.int 2)⟩] 0 = .ok (a, 0) ∧
      a.simplify T 3 true 0 = .ok (b, 0) ∧ b.pending ≠ [] ∧
      Constraint.empty.addAllThenSimplify T 2 [clash] 0 = .ok (c, 0) ∧ c.truth = .false ∧
      c.addConstraint T b = .ok d ∧ (d.rename ρ).truth = .false ∧
      (d.rename ρ).contradiction = some clash ∧ (d.rename ρ).pending = [] := by
  intro T x y pair clash keys ρ
  let unsplit : Constraint :=
    { equations := .ofList [⟨keys (.var x) (.var y), keys (.int 1) (.int 2)⟩], truth := .unknown }
  have ha : Constraint.empty.addAllThenSimplify T 2
      [⟨keys (.var x) (.var y), keys (.int 1) (.int 2)⟩] 0 = .ok (unsplit, 0) := by cbv
  obtain ⟨b, hb, hpending⟩ : ∃ b, unsplit.simplify T 3 true 0 = .ok (b, 0) ∧ b.pending ≠ [] :=
    ⟨_, by cbv, by simp⟩
  have hc : Constraint.empty.addAllThenSimplify T 2 [clash] 0 = .ok
      ({ equations := .ofList [clash], truth := .false, contradiction := some clash }, 0) := by cbv
  have hd : addConstraint T
      { equations := .ofList [clash], truth := .false, contradiction := some clash } b = .ok
      { equations := .ofList [clash], truth := .false, contradiction := some clash } := rfl
  have hmade := (Made.update .empty .empty (.addAllThenSimplify [clash] 2 0 0 hc)).false_final.2 rfl
  exact ⟨_, b, _, _, ha, hb, hpending, hc, rfl, hd,
    hmade _ ((Relation.ReflTransGen.single ⟨b, .addConstraint hd⟩).tail ⟨b, .rename ρ⟩)⟩

end SolvedForm.Constraint

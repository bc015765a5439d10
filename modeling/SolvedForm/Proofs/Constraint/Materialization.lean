import Mathlib
import SolvedForm.Proofs.Constraint.Finality
import SolvedForm.Proofs.Unification.Progress

/-!
Disjunctions made explicit, and the disjunctions within their alternatives.

* `Constraint.pending_normalize`, `Constraint.pending_simplify`: solving without folding leaves the
  disjunctions alone.
* `Constraint.pending_conjoin`: a constraint that is put in brings its own disjunctions along.
* `Constraint.pending_of_extendBy`: what is pending in a combination of alternatives.
* `Constraint.alternatives_pending`: in the constraints made of a disjunction exactly the
  disjunctions within the chosen alternatives are pending.
-/

namespace SolvedForm.Constraint

variable {T : Theory} {b c d : Constraint} {x : Var} {t : Term} {es : List Equation}
  {kept : EquationSet} {cs ds : List Constraint} {fuel n m : Nat}

/-! ### Solving -/

lemma pending_falsify (c : Constraint) (e : Equation) : (c.falsify e).pending = c.pending := by
  unfold falsify
  split <;> rfl

lemma pending_bind (c : Constraint) (x : Var) (t : Term) : (c.bind T x t).pending = c.pending := by
  unfold bind
  split
  · rfl
  · split
    · rfl
    · exact pending_falsify _ _
    · rfl

lemma pending_foldl_composeBinding (τ : Substitution) (bs : List (Var × Term)) (c : Constraint) :
    (bs.foldl (composeBinding T τ) c).pending = c.pending := by
  induction bs generalizing c with
  | nil => rfl
  | cons b bs ih =>
      rw [List.foldl_cons, ih, composeBinding]
      split
      · exact pending_bind _ _ _
      · rfl

lemma pending_compose (h : compose T c x t = .ok d) : d.pending = c.pending := by
  have hfold := pending_foldl_composeBinding (T := T) (.single x t) c.store.toList c
  by_cases hx : x ∈ c.store.keys
  · rw [compose, if_pos (Substitution.contains_iff.mpr hx)] at h
    cases h
  · rw [compose_eq hx] at h
    cases h
    split <;> exact hfold

lemma pending_renormalize (h : renormalize T c = .ok d) : d.pending = c.pending := by
  -- each binding found uses up an equation
  induction hn : c.equations.size using Nat.strongRecOn generalizing c with
  | _ n ih =>
      rw [renormalize] at h
      split at h
      · cases h
        rfl
      · cases h
        exact pending_falsify _ _
      · next kept x t hpass =>
          split at h
          · cases h
          · next a ha =>
              have ha := pending_compose ha
              split at h
              · cases h
                exact ha
              · have hlt := size_lt_of_scan hpass
                refine (ih _ ?_ h rfl).trans ha
                simpa [hn.symm, EquationSet.size, EquationSet.empty] using hlt

lemma pending_normalize (h : c.normalize T = .ok d) : d.pending = c.pending := by
  unfold normalize at h
  split at h
  · cases h
    rfl
  · cases hr : renormalize T { c with normal := true }.drain with
    | error fault => simp [hr, Except.map] at h
    | ok a =>
        rw [hr] at h
        cases h
        have hr := pending_renormalize hr
        exact (pending_updateTruth a).trans hr

/-- A round without folding leaves the disjunctions alone. -/
lemma pending_round (hT : T.unifier.Decisive)
    {solve : List (List Equation) → Engine (List Constraint)}
    (h : round T false solve c kept es n = .ok (d, m)) : d.pending = c.pending := by
  induction es generalizing c kept n with
  | nil =>
      obtain ⟨rfl, -⟩ := Engine.pure_eq_ok.mp h
      rfl
  | cons e es ih =>
      rcases round_cases h with ⟨failure, -, rfl⟩ | ⟨k, -, h⟩ | ⟨parts, k, -, -, h⟩ |
        ⟨common, as, k, ds, l, hu, -⟩
      · exact pending_falsify _ _
      · exact ih h
      · exact (ih h).trans (pending_insertAll _ parts)
      · exact absurd hu hT

lemma pending_simplifySince (hT : T.unifier.Decisive) {last : Option Snapshot}
    (h : simplifySince T false fuel last c n = .ok (d, m)) : d.pending = c.pending := by
  induction fuel generalizing last c n with
  | zero => exact absurd h Engine.throw_ne_ok
  | succ fuel ih =>
      obtain ⟨b, hb, h⟩ := simplifySince_cases h
      have hb := pending_normalize hb
      rcases h with ⟨-, rfl, -⟩ | ⟨-, -, a, k, ha, h⟩
      · exact hb
      · have ha : a.pending = c.pending := (pending_round hT ha).trans hb
        rcases h with ⟨-, rfl, -⟩ | ⟨-, h⟩
        · exact ha
        · exact (ih h).trans ha

lemma pending_simplify (hT : T.unifier.Decisive) (h : c.simplify T fuel false n = .ok (d, m)) :
    d.pending = c.pending :=
  pending_simplifySince hT h

/-! ### Putting in a constraint -/

lemma pending_foldl_insertEquation (es : List Equation) (c : Constraint) :
    (es.foldl insertEquation c).pending = c.pending := by
  induction es generalizing c with
  | nil => rfl
  | cons e es ih => rw [List.foldl_cons, ih, pending_insertEquation]

/-- Unless it makes a contradiction, a constraint that is put in brings its disjunctions along. -/
lemma pending_conjoin (h : (c.conjoin T d).isFalse = false) :
    (c.conjoin T d).pending = c.pending ++ d.pending := by
  have hc : c.isFalse = false := by
    rw [← Bool.not_eq_true]
    intro hc
    rw [conjoin_of_isFalse hc, hc] at h
    cases h
  cases hd : d.contradiction with
  | some e =>
      rw [conjoin, if_neg (by simp [hc])] at h
      simp only [hd, isFalse_falsify] at h
      cases h
  | none =>
      rw [conjoin_eq hd hc, addPending]
      split
      · next hp => rw [List.isEmpty_iff.mp hp, List.append_nil, pending_foldl_insertEquation]
      · exact congrArg (· ++ d.pending) (pending_foldl_insertEquation _ c)

/-! ### Alternatives -/

/-- Alternatives chosen from disjunctions, one from each. -/
abbrev Choice (as : List Constraint) (D : List (List Constraint)) : Prop :=
  List.Forall₂ (· ∈ ·) as D

lemma Choice.exists_mem {a : Constraint} {as : List Constraint} {D : List (List Constraint)}
    (h : Choice as D) (ha : a ∈ as) : ∃ C ∈ D, a ∈ C := by
  induction h with
  | nil => cases ha
  | @cons b C as D hb _ ih =>
      rcases List.mem_cons.mp ha with rfl | ha
      · exact ⟨C, List.mem_cons_self, hb⟩
      · exact (ih ha).imp fun _ => And.imp_left (List.mem_cons_of_mem _)

/-- Besides what was pending in it before, a combination has what is pending in the alternatives
chosen for it. -/
lemma pending_of_extendBy (hT : T.unifier.Decisive) {D : List (List Constraint)}
    (h : D.foldlM (extendBy T fuel) cs n = .ok (ds, m)) :
    ∀ d ∈ ds, ∃ c ∈ cs, ∃ as, Choice as D ∧ d.pending = c.pending ++ as.flatMap pending := by
  induction D generalizing cs n with
  | nil =>
      obtain ⟨rfl, -⟩ := Engine.pure_eq_ok.mp h
      exact fun d hd => ⟨d, hd, [], .nil, (List.append_nil _).symm⟩
  | cons C D ih =>
      rw [List.foldlM_cons] at h
      obtain ⟨bs, k, hbs, h⟩ := Engine.bind_eq_ok.mp h
      intro d hd
      obtain ⟨b, hb, as, has, hp⟩ := ih h d hd
      obtain ⟨hbf, c, hc, a, ha, e, i, j, he, hsimplify⟩ := extendBy_cases hbs b hb
      have hconjoin : (c.conjoin T a).isFalse = false := by
        rw [← Bool.not_eq_true]
        intro hf
        have hef := (keepsVerdict_normalize he).final hf
        rw [isFalse_of_simplify hsimplify hbf] at hef
        exact Bool.false_ne_true hef.1
      refine ⟨c, hc, a :: as, .cons ha has, ?_⟩
      rw [hp, pending_simplify hT hsimplify, pending_normalize he, pending_conjoin hconjoin,
        List.flatMap_cons, List.append_assoc]

/-- Of a constraint with disjunctions each alternative chosen is made explicit: no constraint is
false, and in each the disjunctions are pending that were within the chosen alternatives, and no
others; none, if the alternatives have none. -/
theorem alternatives_pending {order : SortOrder} (hp : c.pending ≠ [])
    (h : c.alternatives (.standard order) fuel n = .ok (ds, m)) :
    (∀ d ∈ ds, d.isFalse = false ∧ ∃ as, Choice as c.pending ∧
      d.pending = as.flatMap pending) ∧
    ((∀ C ∈ c.pending, ∀ a ∈ C, a.pending = []) → ∀ d ∈ ds, d.pending = []) := by
  unfold alternatives at h
  rw [if_neg (by simpa using hp)] at h
  obtain ⟨b, hb, hrun⟩ := Engine.lift_bind_eq_ok.mp h
  have hchosen : ∀ d ∈ ds, ∃ as, Choice as c.pending ∧ d.pending = as.flatMap pending := by
    intro d hd
    obtain ⟨b', hb', as, has, hd⟩ := pending_of_extendBy (Unifier.structural_decisive order) hrun d hd
    rw [List.mem_singleton.mp hb', pending_normalize hb] at hd
    exact ⟨as, has, hd⟩
  refine ⟨fun d hd => ⟨isFalse_eq_false_of_extendBy hp hrun d hd, hchosen d hd⟩,
    fun hflat d hd => ?_⟩
  obtain ⟨as, has, hd⟩ := hchosen d hd
  rw [hd, List.flatMap_eq_nil_iff]
  intro a ha
  obtain ⟨C, hC, haC⟩ := has.exists_mem ha
  exact hflat C hC a haC

/-- Two keys pair with two others in two ways, under a binding that is known besides. -/
theorem alternatives_pending_keys :
    let T : Theory := .standard Subsorts.builtin.order
    let x : Var := ⟨"X", .int, false, none⟩
    let y : Var := ⟨"Y", .int, false, none⟩
    let z : Var := ⟨"Z", .int, false, none⟩
    let keys (s t : Term) : Term := .map [(s, .int 0), (t, .int 0)] none
    ∃ a b c ds, empty.add T ⟨keys (.var x) (.var y), keys (.int 1) (.int 2)⟩ = .ok a ∧
      a.simplify T 3 true 0 = .ok (b, 0) ∧ b.add T ⟨.var z, .var x⟩ = .ok c ∧ c.pending ≠ [] ∧
      c.alternatives T 3 0 = .ok (ds, 0) ∧ ds.length = 2 ∧
      ∀ d ∈ ds, d.isFalse = false ∧ d.pending = [] := by
  intro T x y z keys
  let unsplit : Constraint :=
    { equations := .ofList [⟨keys (.var x) (.var y), keys (.int 1) (.int 2)⟩], truth := .unknown }
  have ha : empty.add T ⟨keys (.var x) (.var y), keys (.int 1) (.int 2)⟩ = .ok unsplit := by cbv
  let paired (s t : Term) : Constraint := { store := .ofList [(x, s), (y, t)] }
  let split : Constraint :=
    { pending := [[paired (.int 1) (.int 2), paired (.int 2) (.int 1)]], truth := .unknown }
  have hb : unsplit.simplify T 3 true 0 = .ok (split, 0) := by cbv
  have hc : split.add T ⟨.var z, .var x⟩ = .ok { split with store := .single z (.var x) } := by cbv
  have hp : ({ split with store := .single z (.var x) } : Constraint).pending ≠ [] := by simp [split]
  let chosen (s t : Term) : Constraint := { store := .ofList [(z, s), (x, s), (y, t)] }
  have hds : ({ split with store := .single z (.var x) } : Constraint).alternatives T 3 0 =
      .ok ([chosen (.int 1) (.int 2), chosen (.int 2) (.int 1)], 0) := by cbv
  obtain ⟨hopen, hnone⟩ := alternatives_pending hp hds
  exact ⟨_, _, _, _, ha, hb, hc, hp, hds, rfl, fun d hd =>
    ⟨(hopen d hd).1, hnone (by simp [split, paired]) d hd⟩⟩

/-- An alternative that equates maps has a disjunction of its own, and that one stays pending. -/
theorem alternatives_pending_nested :
    let T : Theory := .standard Subsorts.builtin.order
    let a : Var := ⟨"A", .int, false, none⟩
    let b : Var := ⟨"B", .int, false, none⟩
    let y : Var := ⟨"Y", .map, false, none⟩
    let z : Var := ⟨"Z", .map, false, none⟩
    let keys (s t : Term) : Term := .map [(s, .int 0), (t, .int 0)] none
    let e : Equation :=
      ⟨keys (.var y) (keys (.var a) (.var b)), keys (.var z) (keys (.int 1) (.int 2))⟩
    ∃ c₀ c ds, empty.add T e = .ok c₀ ∧ c₀.simplify T 4 true 0 = .ok (c, 0) ∧ c.pending ≠ [] ∧
      c.alternatives T 4 0 = .ok (ds, 0) ∧ ∃ d ∈ ds, d.pending ≠ [] := by
  intro T a b y z keys e
  let unsplit : Constraint := { equations := .ofList [e], truth := .unknown }
  have hc₀ : empty.add T e = .ok unsplit := by cbv
  let paired (s t : Term) : Constraint := { store := .ofList [(a, s), (b, t)] }
  let nested : Constraint :=
    { store := .single y (.var z), truth := .unknown
      pending := [[paired (.int 1) (.int 2), paired (.int 2) (.int 1)]] }
  let crossed : Constraint :=
    { store := .ofList [(y, keys (.int 1) (.int 2)), (z, keys (.var a) (.var b))] }
  let split : Constraint := { pending := [[nested, crossed]], truth := .unknown }
  have hc : unsplit.simplify T 4 true 0 = .ok (split, 0) := by cbv
  have hds : split.alternatives T 4 0 = .ok ([nested, crossed], 0) := by cbv
  exact ⟨_, _, _, hc₀, hc, by simp [split], hds, nested, List.mem_cons_self, by simp [nested]⟩

end SolvedForm.Constraint

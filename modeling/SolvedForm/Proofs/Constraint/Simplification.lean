import SolvedForm.Constraint.Simplification
import SolvedForm.Proofs.Constraint.NormalForm
import SolvedForm.Proofs.Engine

/-!
Simplification leaves constraints in normal form.

* `Constraint.round_cases`: what one round makes of its first equation;
  `Constraint.round_of_failure`, `Constraint.round_of_kept`, `Constraint.round_of_parts`,
  `Constraint.round_of_none`, `Constraint.round_of_one` and `Constraint.round_of_several` are the
  ways in which it goes.
* `Constraint.round_result`: what a whole round leaves; a round that keeps the flag of the normal
  form has changed nothing.
* `Constraint.simplifySince_cases`: one turn of simplification taken apart.
* `Constraint.simplify_settled`: a simplified constraint is false or in normal form.
* `Constraint.pending_of_simplifySince`: no disjunction comes up where the unifier gives none.
-/

namespace SolvedForm.Constraint

variable {T : Theory} {F : Fragment T} {fold : Bool}
  {solve : List (List Equation) → Engine (List Constraint)} {c d : Constraint}
  {kept : EquationSet} {e : Equation} {es : List Equation} {fuel n m : Nat}

/-! ### One round -/

lemma toEngine_eq_ok {α : Type} {x : Minting α} {r : α × Nat} :
    x.toEngine n = .ok r ↔ x n = r := by
  simp [Minting.toEngine]

lemma Within.putBack (h : c.Within F) (hes : ∀ e ∈ kept.toList, F.MemEq e) :
    (c.putBack kept).Within F :=
  .intro ⟨h.over.undecided, h.over.consistent, hes, h.over.buffer, h.over.store⟩ h.pending

lemma Within.takeOut (h : c.Within F) : c.takeOut.Within F :=
  .intro ⟨h.over.undecided, h.over.consistent, by simp [Constraint.takeOut], h.over.buffer,
    h.over.store⟩ h.pending

lemma putBack_takeOut (hc : c.guarded = false) :
    c.takeOut.putBack (EquationSet.empty.insertAll c.equations.toList) = c := by
  rw [EquationSet.insertAll_toList]
  cases c
  cases hc
  rfl

/-- The ways in which a round goes on after its first equation: the equation fails, it is kept, its
parts go to the buffer, or its alternatives are none, one or several. -/
lemma round_cases (h : round T fold solve c kept (e :: es) n = .ok (d, m)) :
    (∃ failure, T.unifier fold e n = (.error failure, m) ∧
      d = (c.putBack ((kept.insert e).insertAll es)).falsify (T.evaluated failure.pair)) ∨
    (∃ k, T.unifier fold e n = (.ok (.unique [e]), k) ∧
      round T fold solve c (kept.insert e) es k = .ok (d, m)) ∨
    (∃ parts k, parts ≠ [e] ∧ T.unifier fold e n = (.ok (.unique parts), k) ∧
      round T fold solve ({ c with normal := false }.insertAll T parts) kept es k = .ok (d, m)) ∨
    ∃ common alternatives k ds l,
      T.unifier fold e n = (.ok (.disjunction common alternatives), k) ∧
      solve alternatives k = .ok (ds, l) ∧
      ((ds = [] ∧ d = (({ c with normal := false }).putBack
          ((kept.insert e).insertAll es)).falsify e) ∨
        (∃ a, ds = [a] ∧ round T fold solve
          (({ c with normal := false }.insertAll T common).conjoin T a) kept es l = .ok (d, m)) ∨
        ∃ b, b = { c with normal := false }.insertAll T common ∧ round T fold solve
          { b with pending := b.pending ++ [ds] } kept es l = .ok (d, m)) := by
  rw [round] at h
  obtain ⟨a, k, ha, h⟩ := Engine.bind_eq_ok.mp h
  rw [toEngine_eq_ok] at ha
  match a with
  | .error failure =>
      obtain ⟨rfl, rfl⟩ := Engine.pure_eq_ok.mp h
      exact .inl ⟨failure, ha, rfl⟩
  | .ok (.unique parts) =>
      dsimp only at h
      split at h
      · next hp =>
          subst hp
          exact .inr (.inl ⟨k, ha, h⟩)
      · next hp => exact .inr (.inr (.inl ⟨parts, k, hp, ha, h⟩))
  | .ok (.disjunction common alternatives) =>
      obtain ⟨ds, l, hds, h⟩ := Engine.bind_eq_ok.mp h
      refine .inr (.inr (.inr ⟨common, alternatives, k, ds, l, ha, hds, ?_⟩))
      match ds with
      | [] =>
          obtain ⟨rfl, rfl⟩ := Engine.pure_eq_ok.mp h
          exact .inl ⟨rfl, rfl⟩
      | [a] => exact .inr (.inl ⟨a, rfl, h⟩)
      | a :: b :: ds => exact .inr (.inr ⟨_, rfl, h⟩)

/-- An equation that fails ends the round. -/
lemma round_of_failure {failure : Unification.Failure}
    (h : T.unifier fold e n = (.error failure, m)) :
    c.round T fold solve kept (e :: es) n =
      .ok ((c.putBack ((kept.insert e).insertAll es)).falsify (T.evaluated failure.pair), m) := by
  rw [round, Engine.bind_of_ok (congrArg Except.ok h)]
  rfl

/-- An equation from which nothing else comes is kept. -/
lemma round_of_kept (h : T.unifier fold e n = (.ok (.unique [e]), m)) :
    c.round T fold solve kept (e :: es) n = c.round T fold solve (kept.insert e) es m := by
  rw [round, Engine.bind_of_ok (congrArg Except.ok h)]
  exact congrFun (if_pos rfl) m

/-- The parts of an equation go to the buffer. -/
lemma round_of_parts {parts : List Equation} (h : T.unifier fold e n = (.ok (.unique parts), m))
    (hp : parts ≠ [e]) :
    c.round T fold solve kept (e :: es) n =
      ({ c with normal := false }.insertAll T parts).round T fold solve kept es m := by
  rw [round, Engine.bind_of_ok (congrArg Except.ok h)]
  exact congrFun (if_neg hp) m

section Alternatives

variable {common : List Equation} {as : List (List Equation)} {ds : List Constraint} {l : Nat}

/-- An equation without a satisfiable alternative ends the round. -/
lemma round_of_none (h : T.unifier fold e n = (.ok (.disjunction common as), l))
    (hds : solve as l = .ok ([], m)) :
    c.round T fold solve kept (e :: es) n =
      .ok ((({ c with normal := false }).putBack ((kept.insert e).insertAll es)).falsify e, m) := by
  rw [round, Engine.bind_of_ok (congrArg Except.ok h)]
  exact Engine.bind_of_ok hds

/-- An only alternative joins the constraint. -/
lemma round_of_one (h : T.unifier fold e n = (.ok (.disjunction common as), l))
    (hds : solve as l = .ok ([d], m)) :
    c.round T fold solve kept (e :: es) n =
      (({ c with normal := false }.insertAll T common).conjoin T d).round T fold solve kept es m := by
  rw [round, Engine.bind_of_ok (congrArg Except.ok h)]
  exact Engine.bind_of_ok hds

/-- Several alternatives become a disjunction. -/
lemma round_of_several {d' : Constraint}
    (h : T.unifier fold e n = (.ok (.disjunction common as), l))
    (hds : solve as l = .ok (d :: d' :: ds, m)) :
    c.round T fold solve kept (e :: es) n =
      ({ { c with normal := false }.insertAll T common with
        pending := ({ c with normal := false }.insertAll T common).pending ++ [d :: d' :: ds] }).round
          T fold solve kept es m := by
  rw [round, Engine.bind_of_ok (congrArg Except.ok h)]
  exact Engine.bind_of_ok hds

end Alternatives

/-- A constraint to which something has come during a round is not flagged as normal. -/
lemma normal_of_extends (h : ({ c with normal := false }).Extends d) : d.normal = false :=
  h.changed.elim (fun hd => hd ▸ rfl) id

/-- A round leaves a false constraint, or one with the same store; where the flag of the normal
form has survived, the round has kept every equation and done nothing else. -/
theorem round_result (hsolve : ∀ as k ds l, (∀ es ∈ as, ∀ e ∈ es, F.MemEq e) →
      solve as k = .ok (ds, l) → ∀ d ∈ ds, d.Within F)
    (hc : c.Within F) (hkept : ∀ e ∈ kept.toList, F.MemEq e) (hes : ∀ e ∈ es, F.MemEq e)
    (h : round T fold solve c kept es n = .ok (d, m)) :
    d.Refuted ∨ d.Within F ∧ d.guarded = false ∧ d.store = c.store ∧
      (d.normal = true → d = c.putBack (kept.insertAll es)) := by
  induction es generalizing c kept n with
  | nil =>
      obtain ⟨rfl, rfl⟩ := Engine.pure_eq_ok.mp h
      exact .inr ⟨hc.putBack hkept, rfl, rfl, fun _ => rfl⟩
  | cons e es ih =>
      rw [List.forall_mem_cons] at hes
      -- once something has changed, the flag is gone for the rest of the round
      have goes_on : ∀ {b : Constraint} {k : Nat}, b.Within F →
          ({ c with normal := false }).Extends b →
          round T fold solve b kept es k = .ok (d, m) →
          d.Refuted ∨ d.Within F ∧ d.guarded = false ∧ d.store = c.store ∧
            (d.normal = true → d = c.putBack (kept.insertAll (e :: es))) := by
        intro b k hb hext h
        refine (ih hb hkept hes.2 h).imp_right fun ⟨hw, hg, hs, hn⟩ =>
          ⟨hw, hg, hs.trans hext.store, fun hnormal => ?_⟩
        have hf : b.normal = false := normal_of_extends hext
        rw [hn hnormal] at hnormal
        exact absurd (hf.symm.trans hnormal) Bool.false_ne_true
      have hc' := hc.setNormal false
      rcases round_cases h with ⟨failure, -, rfl⟩ | ⟨k, -, h⟩ | ⟨parts, k, -, hu, h⟩ |
        ⟨common, as, k, ds, l, hu, hds, h⟩
      · exact .inl (refuted_falsify (by exact hc.over.undecided) _)
      · refine ih hc (fun q hq => ?_) hes.2 h
        exact (EquationSet.mem_insert.mp hq).elim (hkept q) fun hq => hq ▸ hes.1
      · exact goes_on (hc'.insertAll (F.unique hes.1.1 hes.1.2 hu)) (extends_insertAll _ _) h
      · have hmem := F.disjunction hes.1.1 hes.1.2 hu
        have hds' := hsolve as k ds l (fun es hes => hmem es (List.mem_cons_of_mem _ hes)) hds
        have hcommon : ({ c with normal := false }.insertAll T common).Within F :=
          hc'.insertAll (hmem common List.mem_cons_self)
        have hext : ({ c with normal := false }).Extends
            ({ c with normal := false }.insertAll T common) := extends_insertAll _ _
        rcases h with ⟨-, rfl⟩ | ⟨a, rfl, h⟩ | ⟨b, rfl, h⟩
        · exact .inl (refuted_falsify (by exact hc.over.undecided) _)
        · have ha := hds' a List.mem_cons_self
          exact goes_on (hcommon.conjoin ha)
            (hext.trans (extends_conjoin ha hcommon.over.undecided)) h
        · refine goes_on ?_ ?_ h
          swap
          · have hf := normal_of_extends hext
            exact ⟨hext.store, hext.guarded, .inr hf⟩
          refine .intro ⟨hcommon.over.undecided, hcommon.over.consistent,
            hcommon.over.equations, hcommon.over.buffer, hcommon.over.store⟩ fun D hD => ?_
          rcases List.mem_append.mp hD with hD | hD
          · exact hcommon.pending D hD
          · rw [List.mem_singleton.mp hD]
            exact hds'

/-- The result of a round over the equations of a constraint in normal form is sound again. -/
lemma round_sound (hsolve : ∀ as k ds l, (∀ es ∈ as, ∀ e ∈ es, F.MemEq e) →
      solve as k = .ok (ds, l) → ∀ d ∈ ds, d.Within F)
    (hc : c.Within F) (hn : c.NormalForm T.order)
    (h : c.takeOut.round T fold solve .empty c.equations.toList n = .ok (d, m)) : d.Sound F := by
  refine (round_result hsolve hc.takeOut (by simp) hc.over.equations h).imp_right
    fun ⟨hw, hg, hs, hd⟩ => ⟨hw, hg, hs ▸ hn.acyclic, fun hnormal => ?_⟩
  rw [hd hnormal, putBack_takeOut hn.unguarded]
  exact hn

/-! ### Rounds in turn -/

/-- The satisfiable ones among alternatives, each simplified on its own. -/
def satisfiable (T : Theory) (fold : Bool) (fuel : Nat) (as : List (List Equation)) :
    Engine (List Constraint) := do
  let ds ← as.mapM fun es => simplifySince T fold fuel none (empty.insertAll T es)
  return ds.filter fun d => !d.isFalse

/-- One turn of simplification: the normal form is the answer, or a round over its equations
is, or a further turn after it. -/
lemma simplifySince_cases {last : Option Snapshot}
    (h : simplifySince T fold (fuel + 1) last c n = .ok (d, m)) :
    ∃ b, c.normalize T = .ok b ∧
      (((b.truth ≠ .unknown ∨ b.unchangedSince last = true) ∧ d = b ∧ m = n) ∨
        b.truth = .unknown ∧ b.unchangedSince last = false ∧ ∃ a k,
          b.takeOut.round T fold (satisfiable T fold fuel) .empty b.equations.toList n =
            .ok (a, k) ∧
          (a.isFalse = true ∧ d = a ∧ m = k ∨
            a.isFalse = false ∧
              simplifySince T fold fuel (some (b.store, b.equations)) a k = .ok (d, m))) := by
  rw [simplifySince] at h
  obtain ⟨b, hb, hrun⟩ := Engine.lift_bind_eq_ok.mp h
  refine ⟨b, hb, ?_⟩
  split at hrun
  · next hstop =>
      obtain ⟨rfl, rfl⟩ := Engine.pure_eq_ok.mp hrun
      exact .inl ⟨by simpa using hstop, rfl, rfl⟩
  · next hgo =>
      simp only [ne_eq, decide_not, Bool.or_eq_true, Bool.not_eq_true', decide_eq_false_iff_not,
        not_or, not_not, Bool.not_eq_true] at hgo
      obtain ⟨a, l, ha, hrest⟩ := Engine.bind_eq_ok.mp hrun
      refine .inr ⟨hgo.1, hgo.2, a, l, ha, ?_⟩
      split at hrest
      · next hf =>
          obtain ⟨rfl, rfl⟩ := Engine.pure_eq_ok.mp hrest
          exact .inl ⟨hf, rfl, rfl⟩
      · next hf => exact .inr ⟨Bool.not_eq_true _ ▸ hf, hrest⟩

/-- The satisfiable alternatives are over the fragment, when simplification with the same fuel
settles constraints. -/
lemma satisfiable_within (hsettled : ∀ {c d : Constraint} {n m : Nat}, c.Sound F →
      simplifySince T fold fuel none c n = .ok (d, m) → d.Settled F)
    {as : List (List Equation)} {ds : List Constraint} (has : ∀ es ∈ as, ∀ e ∈ es, F.MemEq e)
    (h : satisfiable T fold fuel as n = .ok (ds, m)) : ∀ d ∈ ds, d.Within F := by
  obtain ⟨cs, j, hcs, h⟩ := Engine.bind_eq_ok.mp h
  obtain ⟨rfl, rfl⟩ := Engine.pure_eq_ok.mp h
  intro d hd
  obtain ⟨hd, hf⟩ := List.mem_filter.mp hd
  obtain ⟨es, hes, i, i', hd⟩ := Engine.mem_of_mapM hcs d hd
  exact (hsettled (settled_empty.sound.insertAll (has es hes)) hd).within (by simpa using hf)

theorem simplifySince_settled {last : Option Snapshot} (hc : c.Sound F)
    (h : simplifySince T fold fuel last c n = .ok (d, m)) : d.Settled F := by
  induction fuel generalizing last c n d m with
  | zero => exact absurd h Engine.throw_ne_ok
  | succ fuel ih =>
      obtain ⟨b, hb, h⟩ := simplifySince_cases h
      have hb := settled_of_normalize hc hb
      rcases h with ⟨-, rfl, -⟩ | ⟨hopen, -, a, k, ha, h⟩
      · exact hb
      · obtain ⟨hbw, hbn⟩ := hb.resolve_left fun hr => by simp [Refuted, isFalse, hopen] at hr
        -- the alternatives are simplified with less fuel
        have ha := round_sound (fun as k ds l => satisfiable_within fun hc h => ih hc h) hbw hbn ha
        rcases h with ⟨hf, rfl, -⟩ | ⟨-, h⟩
        · exact ha.imp_right fun hr => absurd hf (by simp [hr.within.over.undecided])
        · exact ih ha h

/-- Simplification leaves a false constraint as it is. -/
lemma simplify_of_isFalse (hc : c.isFalse = true) (h : c.simplify T fuel fold n = .ok (d, m)) :
    d = c := by
  cases fuel with
  | zero => exact absurd h Engine.throw_ne_ok
  | succ fuel =>
      obtain ⟨b, hb, h⟩ := simplifySince_cases h
      rw [normalize, if_pos (by simp [hc])] at hb
      cases hb
      rcases h with ⟨-, rfl, -⟩ | ⟨hopen, -⟩
      · rfl
      · simp [isFalse, hopen] at hc

/-- A simplified constraint is false or in normal form. -/
theorem simplify_settled (hc : c.Sound F) (h : c.simplify T fuel fold n = .ok (d, m)) :
    d.Settled F :=
  simplifySince_settled hc h

/-- Simplification of a false constraint ends with it. -/
lemma isFalse_of_simplify (h : c.simplify T fuel fold n = .ok (d, m)) (hd : d.isFalse = false) :
    c.isFalse = false := by
  by_contra hc
  rw [Bool.not_eq_false] at hc
  obtain rfl := simplify_of_isFalse hc h
  exact Bool.false_ne_true (hd.symm.trans hc)

/-! ### Disjunctions -/

/-- A round leaves the disjunctions alone. -/
lemma pending_of_round (hF : F.Decisive) (hes : ∀ e ∈ es, F.MemEq e)
    (h : c.round T false solve kept es n = .ok (d, m)) : d.pending = c.pending := by
  have pending_falsify : ∀ (c : Constraint) (e : Equation), (c.falsify e).pending = c.pending := by
    intro c e
    unfold Constraint.falsify
    split <;> rfl
  induction es generalizing c kept n with
  | nil =>
      obtain ⟨rfl, rfl⟩ := Engine.pure_eq_ok.mp h
      rfl
  | cons e es ih =>
      rw [List.forall_mem_cons] at hes
      rcases round_cases h with ⟨failure, -, rfl⟩ | ⟨k, -, hrun⟩ | ⟨parts, k, -, -, hrun⟩ |
        ⟨common, as, k, ds, l, hu, -⟩
      · exact pending_falsify _ _
      · exact ih hes.2 hrun
      · exact (ih hes.2 hrun).trans (pending_insertAll _ _)
      · exact absurd hu (hF hes.1)

/-- Simplification without folding leaves the disjunctions alone. -/
theorem pending_of_simplifySince {last : Option Snapshot} (hF : F.Decisive) (hc : c.Sound F)
    (h : c.simplifySince T false fuel last n = .ok (d, m)) (hd : d.isFalse = false) :
    d.pending = c.pending := by
  induction fuel generalizing last c n with
  | zero => exact absurd h Engine.throw_ne_ok
  | succ fuel ih =>
      obtain ⟨b, hb, h⟩ := simplifySince_cases h
      have hsettled := settled_of_normalize hc hb
      rcases h with ⟨-, rfl, -⟩ | ⟨hopen, -, a, k, ha, h⟩
      · exact pending_of_normalize hc hb hd
      · have hbf : b.isFalse = false := by simp [isFalse, hopen]
        obtain ⟨hw, hn⟩ := hsettled.resolve_left fun hr => absurd hr.1 (by simp [hbf])
        have hnormal := pending_of_normalize hc hb hbf
        have hround := pending_of_round hF hw.over.equations ha
        rcases h with ⟨hf, rfl, -⟩ | ⟨-, h⟩
        · exact absurd hf (by simp [hd])
        · exact (ih (round_sound (fun as k ds l =>
            satisfiable_within fun hc h => simplifySince_settled hc h) hw hn ha) h).trans
              (hround.trans hnormal)

end SolvedForm.Constraint

import SolvedForm.Proofs.Constraint.Derived

/-!
Between two operations nothing of a constraint is under way.

* `Constraint.AtRest`: the constraint is not guarded, nothing waits in its buffer unless it is false,
  and it is true only when no disjunction is pending.
* `Constraint.Between`: the same of a constraint between two rounds, whose buffer is emptied when its
  normal form is made.
* `Constraint.atRest_normalize`, `Constraint.atRest_simplifySince`: solving ends in a constraint at
  rest.
* `Constraint.WellFormed`, `Constraint.Derived.throughout_wellFormed`: whatever operations derive is at
  rest, coherent and untangled, and so are the alternatives that are pending in it.
-/

namespace SolvedForm.Constraint

variable {T : Theory} {Q P : Term → Prop} {b c d : Constraint} {x : Var} {t : Term} {e : Equation}
  {es : List Equation} {kept : EquationSet} {fold narrowing : Bool} {fuel n m : Nat}

/-- Nothing of the constraint is under way. -/
structure AtRest (c : Constraint) : Prop where
  unguarded : c.guarded = false
  drained : c.isFalse = false → c.buffer = .empty
  decided : c.truth = .true → c.pending = []

/-- Nothing of the constraint is under way but what its normal form will take in. -/
structure Between (c : Constraint) : Prop where
  unguarded : c.guarded = false
  drained : c.normal = true → c.isFalse = false → c.buffer = .empty
  decided : c.truth = .true → c.pending = []

lemma atRest_empty : empty.AtRest := ⟨rfl, fun _ => rfl, fun _ => rfl⟩

namespace AtRest

lemma between (h : c.AtRest) : c.Between := ⟨h.unguarded, fun _ => h.drained, h.decided⟩

/-- A change of bindings, equations and flags of the normal form only. -/
lemma of_eq (h : c.AtRest) (hguarded : d.guarded = c.guarded) (hbuffer : d.buffer = c.buffer)
    (htruth : d.truth = c.truth) (hpending : d.pending = c.pending) : d.AtRest where
  unguarded := hguarded.trans h.unguarded
  drained hd := hbuffer.trans (h.drained (by rwa [isFalse, htruth] at hd))
  decided hd := hpending.trans (h.decided (htruth.symm.trans hd))

lemma falsify (h : c.AtRest) (e : Equation) : (c.falsify e).AtRest := by
  cases hc : c.isFalse with
  | true => rwa [Constraint.falsify, if_pos hc]
  | false =>
      rw [falsify_eq hc]
      exact ⟨h.unguarded, fun hd => by simp [isFalse] at hd, fun hd => by cases hd⟩

lemma insertEquation (h : c.AtRest) (e : Equation) : (c.insertEquation e).AtRest := by
  rcases insertEquation_cases c e with ⟨h', -⟩ | ⟨-, hg, -⟩ | ⟨hc, hg, h'⟩
  · rwa [h']
  · simp [h.unguarded] at hg
  · rw [h']
    exact ⟨hg, fun _ => h.drained hc, nofun⟩

lemma foldl {α : Type} {f : Constraint → α → Constraint} (h : c.AtRest)
    (hf : ∀ {c : Constraint}, c.AtRest → ∀ a, (f c a).AtRest) (as : List α) :
    (as.foldl f c).AtRest := by
  induction as generalizing c with
  | nil => exact h
  | cons a as ih => exact ih (hf h a)

lemma insertAll (h : c.AtRest) (es : List Equation) : (c.insertAll T es).AtRest := by
  rw [insertAll_eq_foldl]
  exact h.foldl insertEquation _

lemma conjoin (h : c.AtRest) (d : Constraint) : (c.conjoin T d).AtRest := by
  cases hc : c.isFalse with
  | true => rwa [conjoin_of_isFalse hc]
  | false =>
      cases hd : d.contradiction with
      | some e =>
          rw [Constraint.conjoin, if_neg (by simp [hc])]
          simp only [hd]
          exact h.falsify e
      | none =>
          have hfold := h.foldl insertEquation (d.content T)
          rw [conjoin_eq hd hc, addPending]
          split
          · exact hfold
          · exact ⟨hfold.unguarded, fun _ => hfold.drained (isFalse_foldl_insertEquation _ hc),
              fun hd => by cases hd⟩

lemma updateTruth (h : c.AtRest) : c.updateTruth.AtRest := by
  cases hc : c.isFalse with
  | true => rwa [updateTruth_of_isFalse hc]
  | false =>
      rw [updateTruth_eq hc]
      refine ⟨h.unguarded, fun _ => h.drained hc, fun htruth => ?_⟩
      dsimp only at htruth ⊢
      split at htruth
      · next hempty => exact List.isEmpty_iff.mp (Bool.and_eq_true .. ▸ hempty).2
      · cases htruth

lemma bind (h : c.AtRest) (x : Var) (t : Term) : (c.bind T x t).AtRest := by
  have hstore (σ : Substitution) : ({ c with store := σ }).AtRest := h.of_eq rfl rfl rfl rfl
  unfold Constraint.bind
  split
  · exact h
  · split
    · exact hstore _
    · exact (hstore _).falsify _
    · exact hstore _

end AtRest

/-! ### Solving -/

lemma atRest_compose (h : c.AtRest) (hd : compose T c x t = .ok d) : d.AtRest := by
  have hfold : (c.store.toList.foldl (composeBinding T (.single x t)) c).AtRest := by
    refine h.foldl (fun {c} h b => ?_) _
    unfold composeBinding
    split
    · exact h.bind _ _
    · exact h
  by_cases hx : x ∈ c.store.keys
  · rw [compose, if_pos (Substitution.contains_iff.mpr hx)] at hd
    cases hd
  · rw [compose_eq hx] at hd
    cases hd
    split
    · exact hfold
    · exact hfold.of_eq rfl rfl rfl rfl

lemma atRest_renormalize (h : c.AtRest) (hd : renormalize T c = .ok d) : d.AtRest := by
  -- each binding found uses up an equation
  induction hn : c.equations.size using Nat.strongRecOn generalizing c with
  | _ n ih =>
      rw [renormalize] at hd
      split at hd
      · cases hd
        exact h.of_eq rfl rfl rfl rfl
      · next kept e _ =>
          cases hd
          exact AtRest.falsify (c := { c with equations := kept }) (h.of_eq rfl rfl rfl rfl) e
      · next kept x t hpass =>
          split at hd
          · cases hd
          · next a ha =>
              have ha : ({ a with equations := kept }).AtRest :=
                (atRest_compose h ha).of_eq rfl rfl rfl rfl
              split at hd
              · cases hd
                exact ha
              · have hlt := size_lt_of_scan hpass
                refine ih _ ?_ ha hd rfl
                simpa [hn.symm, EquationSet.size, EquationSet.empty] using hlt

/-- The normal form takes in what waits in the buffer. -/
lemma atRest_normalize (h : c.Between) (hd : c.normalize T = .ok d) : d.AtRest := by
  unfold normalize at hd
  split at hd
  · next hstop =>
      cases hd
      refine ⟨h.unguarded, fun hc => h.drained ?_ hc, h.decided⟩
      simpa [hc, h.unguarded] using hstop
  · cases hr : renormalize T { c with normal := true }.drain with
    | error fault => simp [hr, Except.map] at hd
    | ok a =>
        rw [hr] at hd
        cases hd
        have hdrain : ({ c with normal := true }.drain).AtRest :=
          ⟨h.unguarded, fun _ => rfl, h.decided⟩
        exact (atRest_renormalize hdrain hr).updateTruth

/-! ### Rounds -/

/-- During a round the constraint is not known to be true, and it loses the flag of the normal form
when something comes to its buffer. -/
structure Gathering (c : Constraint) : Prop where
  undecided : c.truth ≠ .true
  waits : c.normal = true → c.buffer = .empty

lemma Gathering.insertEquation (h : c.Gathering) (e : Equation) : (c.insertEquation e).Gathering := by
  rcases insertEquation_cases c e with ⟨h', -⟩ | ⟨-, -, h'⟩ | ⟨-, -, h'⟩ <;> rw [h']
  · exact h
  · exact ⟨nofun, nofun⟩
  · exact ⟨nofun, nofun⟩

lemma Gathering.foldl_insertEquation (h : c.Gathering) (es : List Equation) :
    (es.foldl Constraint.insertEquation c).Gathering := by
  induction es generalizing c with
  | nil => exact h
  | cons e es ih => exact ih (h.insertEquation e)

lemma Gathering.insertAll (h : c.Gathering) (es : List Equation) : (c.insertAll T es).Gathering := by
  rw [insertAll_eq_foldl]
  exact h.foldl_insertEquation _

lemma Gathering.falsify (h : c.Gathering) (e : Equation) : (c.falsify e).Gathering := by
  unfold Constraint.falsify
  split
  · exact h
  · exact ⟨nofun, h.waits⟩

lemma Gathering.conjoin (h : c.Gathering) (d : Constraint) : (c.conjoin T d).Gathering := by
  unfold Constraint.conjoin
  split
  · exact h
  · split
    · exact h.falsify _
    · have hcontent := h.foldl_insertEquation (d.content T)
      unfold addPending
      split
      · exact hcontent
      · exact ⟨nofun, nofun⟩

lemma between_round {solve : List (List Equation) → Engine (List Constraint)} (hc : c.Gathering)
    (h : round T fold solve c kept es n = .ok (d, m)) : d.Between := by
  have putBack : ∀ {c : Constraint} (E : EquationSet), c.Gathering → (c.putBack E).Between :=
    fun E hc => ⟨rfl, fun hn _ => hc.waits hn, fun ht => absurd ht hc.undecided⟩
  have stuck : ∀ {c : Constraint} (E : EquationSet) (e : Equation), c.Gathering →
      ((c.putBack E).falsify e).Between := by
    intro c E e hc
    unfold falsify
    split
    · exact putBack E hc
    · exact ⟨rfl, fun _ hd => by simp [isFalse] at hd, fun hd => by cases hd⟩
  induction es generalizing c kept n with
  | nil =>
      obtain ⟨rfl, -⟩ := Engine.pure_eq_ok.mp h
      exact putBack kept hc
  | cons e es ih =>
      have hunflagged : ({ c with normal := false }).Gathering := ⟨hc.undecided, by simp⟩
      rcases round_cases h with ⟨failure, -, rfl⟩ | ⟨k, -, h⟩ | ⟨parts, k, -, -, h⟩ |
        ⟨common, as, k, ds, l, -, -, h⟩
      · exact stuck _ _ hc
      · exact ih hc h
      · exact ih (hunflagged.insertAll parts) h
      · have hcommon := hunflagged.insertAll (T := T) common
        rcases h with ⟨-, rfl⟩ | ⟨a, -, h⟩ | ⟨b, rfl, h⟩
        · exact stuck _ _ hunflagged
        · exact ih (hcommon.conjoin a) h
        · refine ih ?_ h
          exact ⟨hcommon.undecided, hcommon.waits⟩

theorem atRest_simplifySince {last : Option Snapshot} (hc : c.Between)
    (h : simplifySince T fold fuel last c n = .ok (d, m)) : d.AtRest := by
  induction fuel generalizing last c n with
  | zero => exact absurd h Engine.throw_ne_ok
  | succ fuel ih =>
      obtain ⟨b, hb, h⟩ := simplifySince_cases h
      have hb := atRest_normalize hc hb
      rcases h with ⟨-, rfl, -⟩ | ⟨hopen, -, a, k, ha, h⟩
      · exact hb
      · have hgathering : b.takeOut.Gathering := by
          refine ⟨?_, fun _ => hb.drained (isFalse_eq_false_of_unknown hopen)⟩
          rw [takeOut, hopen]
          decide
        have ha := between_round hgathering ha
        rcases h with ⟨hf, rfl, -⟩ | ⟨-, h⟩
        · exact ⟨ha.unguarded, fun hd => absurd hf (by simp [hd]), ha.decided⟩
        · exact ih ha h

/-! ### Operations -/

lemma AtRest.expandOnce (h : c.AtRest) : (c.expandOnce T narrowing).1.AtRest := by
  have bindings : ∀ (xs : List Var) (s : Expanding), s.constraint.AtRest →
      (xs.foldl (expandBinding T narrowing) s).constraint.AtRest := by
    intro xs
    induction xs with
    | nil => exact fun _ hs => hs
    | cons x xs ih =>
        intro s hs
        refine ih _ ?_
        unfold expandBinding
        split
        · exact hs.bind _ _
        · exact hs
  have hs := bindings c.store.keys ⟨c, [], false⟩ h
  unfold Constraint.expandOnce
  dsimp only
  generalize c.store.keys.foldl (expandBinding T narrowing) ⟨c, [], false⟩ = s at hs ⊢
  have hequations : (expandEquations T narrowing s).constraint.AtRest := hs.of_eq rfl rfl rfl rfl
  exact AtRest.updateTruth ((hequations.insertAll _).of_eq rfl rfl rfl rfl)

lemma atRest_expandAndSimplify (hc : c.AtRest)
    (h : c.expandAndSimplify T fuel narrowing n = .ok (d, m)) : d.AtRest := by
  obtain ⟨b, hnormal, hrun⟩ := Engine.lift_bind_eq_ok.mp h
  have hb := atRest_normalize hc.between hnormal
  clear hnormal h
  induction fuel generalizing b n with
  | zero => exact absurd hrun Engine.throw_ne_ok
  | succ fuel ih =>
      rw [expandAndSimplifyNormal] at hrun
      split at hrun
      · obtain ⟨rfl, -⟩ := Engine.pure_eq_ok.mp hrun
        exact hb
      · dsimp only at hrun
        obtain ⟨a, l, ha, hrest⟩ := Engine.bind_eq_ok.mp hrun
        have ha := atRest_simplifySince hb.expandOnce.between ha
        split at hrest
        · exact ih a hrest ha
        · obtain ⟨rfl, -⟩ := Engine.pure_eq_ok.mp hrest
          exact ha

lemma atRest_orient {targets : List Var} (hc : c.AtRest) (h : c.orient T targets = .ok (.ok d)) :
    d.AtRest := by
  rcases orient_cases h with ⟨-, rfl⟩ | ⟨-, fl, -, h⟩
  · exact hc
  · have hstart : ({ c with store := .empty }).AtRest := hc.of_eq rfl rfl rfl rfl
    have hbound := hstart.foldl (f := fun d b => d.bind T b.1 b.2) (fun h b => h.bind b.1 b.2)
      (fl.apply c.store)
    refine atRest_normalize (AtRest.between ?_) h
    exact hbound.of_eq rfl rfl rfl rfl

lemma AtRest.removeBindings (hc : c.AtRest) (xs : List Var) : (c.removeBindings T xs).AtRest := by
  obtain ⟨σ, -, h⟩ := removeBindings_eq (T := T) c xs
  rw [h]
  exact AtRest.updateTruth (hc.of_eq rfl rfl rfl rfl)

lemma atRest_alternatives {ds : List Constraint} (hc : c.AtRest)
    (h : c.alternatives T fuel n = .ok (ds, m)) : ∀ d ∈ ds, d.AtRest := by
  have extended : ∀ {D : List (List Constraint)} {cs : List Constraint} {n : Nat},
      (∀ c ∈ cs, c.AtRest) → D.foldlM (extendBy T fuel) cs n = .ok (ds, m) → ∀ d ∈ ds, d.AtRest := by
    intro D
    induction D with
    | nil =>
        intro cs n hcs h
        obtain ⟨rfl, -⟩ := Engine.pure_eq_ok.mp h
        exact hcs
    | cons C D ih =>
        intro cs n hcs h
        rw [List.foldlM_cons] at h
        obtain ⟨bs, k, hbs, h⟩ := Engine.bind_eq_ok.mp h
        refine ih (fun b hb => ?_) h
        obtain ⟨-, c, hc, a, -, e, i, j, he, hb⟩ := extendBy_cases hbs b hb
        exact atRest_simplifySince (atRest_normalize ((hcs c hc).conjoin a).between he).between hb
  unfold alternatives at h
  split at h
  · obtain ⟨rfl, -⟩ := Engine.pure_eq_ok.mp h
    exact List.forall_mem_singleton.mpr hc
  · obtain ⟨b, hb, hrun⟩ := Engine.lift_bind_eq_ok.mp h
    have hbase : ({ c with pending := [], normal := false }).Between :=
      ⟨hc.unguarded, nofun, fun _ => rfl⟩
    exact extended (List.forall_mem_singleton.mpr (atRest_normalize hbase hb)) hrun

variable {R : Constraint → (Var → Var) → Prop}

theorem Change.atRest (hc : c.AtRest) (h : Change T Q R b c d) : d.AtRest := by
  cases h with
  | add _ h => exact atRest_normalize (hc.insertAll _).between h
  | addConditions _ h => exact atRest_normalize (hc.insertAll _).between h
  | addSubstitution _ h => exact atRest_normalize (hc.insertAll _).between h
  | addConstraint h => exact atRest_normalize (hc.conjoin b).between h
  | addAllThenSimplify _ h => exact atRest_simplifySince (hc.insertAll _).between h
  | simplify h => exact atRest_simplifySince hc.between h
  | expandAndSimplify h => exact atRest_expandAndSimplify hc h
  | orient h => exact atRest_orient hc h
  | isMatching h => exact atRest_orient hc (isMatching_orient h)
  | removeBindings xs => exact hc.removeBindings xs
  | rename => exact hc.of_eq rfl rfl rfl rfl
  | alternatives h hd => exact atRest_alternatives hc h _ hd

/-! ### Derived constraints -/

/-- What holds between two operations. -/
structure WellFormed (c : Constraint) : Prop where
  coherent : c.Coherent
  untangled : c.Untangled
  atRest : c.AtRest

/-- Whatever operations derive is at rest, and so is every alternative that is pending in it. -/
theorem Derived.throughout_wellFormed {order : SortOrder} (hT : (Theory.standard order).Stable Q P)
    (h : c.Derived (.standard order) Q MovesApart) : c.Throughout P WellFormed := by
  have hconservative : (Theory.standard order).Conservative := fun ht => ht.evaluate
  refine h.throughout hT (fun {fold fuel es n m d} h => ?_)
    ⟨coherent_empty, untangled_empty, atRest_empty⟩ fun {b c d} hb hc hstep => ?_
  · have hrun : SolvedForm.BindsOnce (fun r => Untangled r.1) (simplifySince (.standard order) fold
        fuel none (Constraint.empty.insertAll (.standard order) es) n) :=
      bindsOnce_simplifySince hconservative (untangled_empty.insertAll es) n
    rw [h] at hrun
    exact ⟨coherent_simplifySince ((keepsVerdict_insertAll _ es).coherent coherent_empty) h, hrun,
      atRest_simplifySince (atRest_empty.insertAll es).between h⟩
  · obtain ⟨made, hd, hop⟩ := hstep.operation id
    have hmade := hop.bindsOnce hconservative (by simpa using ⟨hc.untangled, hb.untangled⟩)
    exact ⟨hstep.update.keepsVerdict.coherent hc.coherent, hmade d hd, hstep.atRest hc.atRest⟩

end SolvedForm.Constraint

import SolvedForm.Proofs.Constraint.AtRest
import SolvedForm.Proofs.Term.Equivariance

/-!
The equations of a constraint are between values.

* `Equation.Reduced`: no step of evaluation is left in the sides of an equation.
* `Constraint.Evaluated`: so it is of all equations of a constraint.
* `Constraint.evaluated_normalize`, `Constraint.evaluated_simplifySince`: solving keeps them so; what it
  puts in or changes is evaluated again.
* `Constraint.Derived.throughout_evaluated`: the equations of all constraints that operations derive,
  and those of the alternatives pending in them, are of this kind.
-/

namespace SolvedForm

open Term

variable {order : SortOrder} {e : Equation} {es : List Equation}

/-- No step of evaluation is left on either side. -/
def Equation.Reduced (e : Equation) : Prop := e.left.Reduced ∧ e.right.Reduced

namespace Equation

lemma reduced_evaluated (e : Equation) : ((Theory.standard order).evaluated e).Reduced :=
  ⟨reduced_evaluate _, reduced_evaluate _⟩

lemma reduced_obligations (e : Equation) : ∀ q ∈ (Theory.standard order).obligations e, q.Reduced :=
  List.forall_mem_map.mpr fun q _ => reduced_evaluated q

lemma Reduced.instantiate (h : e.Reduced) (σ : Substitution) :
    (e.instantiate (Theory.standard order).evaluate σ).Reduced := by
  have side : ∀ {t : Term}, t.Reduced → ((Theory.standard order).instantiate σ t).Reduced := by
    intro t ht
    unfold Theory.instantiate
    split
    · exact reduced_evaluate _
    · exact ht
  rw [instantiate_eq_map]
  exact ⟨side h.1, side h.2⟩

end Equation

namespace Constraint

variable {Q P : Term → Prop} {R : Constraint → (Var → Var) → Prop} {a b c d : Constraint}
  {kept : EquationSet} {fold narrowing : Bool} {fuel n m : Nat} {ds : List Constraint}

/-- The sides of all equations are values, also of those that wait in the buffer. -/
structure Evaluated (c : Constraint) : Prop where
  equations : ∀ e ∈ c.equations.toList, e.Reduced
  buffer : ∀ e ∈ c.buffer.toList, e.Reduced

lemma evaluated_empty : empty.Evaluated := ⟨by simp [empty], by simp [empty]⟩

namespace Evaluated

lemma of_eq (h : c.Evaluated) (hequations : d.equations = c.equations)
    (hbuffer : d.buffer = c.buffer) : d.Evaluated :=
  ⟨hequations ▸ h.equations, hbuffer ▸ h.buffer⟩

lemma setEquations (h : c.Evaluated) (hkept : ∀ e ∈ kept.toList, e.Reduced) :
    ({ c with equations := kept }).Evaluated := ⟨hkept, h.buffer⟩

lemma falsify (h : c.Evaluated) (e : Equation) : (c.falsify e).Evaluated := by
  unfold Constraint.falsify
  split
  · exact h
  · exact h.of_eq rfl rfl

lemma updateTruth (h : c.Evaluated) : c.updateTruth.Evaluated := by
  unfold Constraint.updateTruth
  split
  · exact h
  · exact h.of_eq rfl rfl

lemma insertEquation (h : c.Evaluated) (he : e.Reduced) : (c.insertEquation e).Evaluated := by
  have insert : ∀ {E : EquationSet}, (∀ q ∈ E.toList, q.Reduced) →
      ∀ q ∈ (E.insert e).toList, q.Reduced := fun hE q hq =>
    (EquationSet.mem_insert.mp hq).elim (hE q) fun hq => hq ▸ he
  rcases insertEquation_cases c e with ⟨h', -⟩ | ⟨-, -, h'⟩ | ⟨-, -, h'⟩ <;> rw [h']
  · exact h
  · exact ⟨h.equations, insert h.buffer⟩
  · exact ⟨insert h.equations, h.buffer⟩

lemma foldl_insertEquation (h : c.Evaluated) (hes : ∀ e ∈ es, e.Reduced) :
    (es.foldl Constraint.insertEquation c).Evaluated :=
  List.foldlRecOn es _ h fun _ hd e he => hd.insertEquation (hes e he)

lemma insertAll (h : c.Evaluated) (es : List Equation) :
    (c.insertAll (.standard order) es).Evaluated := by
  rw [insertAll_eq_foldl]
  refine h.foldl_insertEquation fun q hq => ?_
  obtain ⟨e, -, hq⟩ := List.mem_flatMap.mp hq
  exact Equation.reduced_obligations e q hq

lemma addPending (h : c.Evaluated) (D : List (List Constraint)) : (c.addPending D).Evaluated := by
  unfold Constraint.addPending
  split
  · exact h
  · exact h.of_eq rfl rfl

lemma content (h : c.Evaluated) : ∀ e ∈ c.content (.standard order), e.Reduced := by
  intro e he
  rcases List.mem_append.mp he with he | he
  · obtain ⟨q, -, he⟩ := List.mem_flatMap.mp he
    exact Equation.reduced_obligations q e he
  · exact h.equations e he

lemma conjoin (hc : c.Evaluated) (hd : d.Evaluated) :
    (c.conjoin (.standard order) d).Evaluated := by
  unfold Constraint.conjoin
  split
  · exact hc
  · split
    · exact hc.falsify _
    · exact (hc.foldl_insertEquation hd.content).addPending _

lemma bind (h : c.Evaluated) {T : Theory} (x : Var) (t : Term) : (c.bind T x t).Evaluated := by
  unfold Constraint.bind
  split
  · exact h
  · split
    · exact h.of_eq rfl rfl
    · exact Evaluated.falsify (c := { c with store := c.store.insert x t }) (h.of_eq rfl rfl) _
    · exact h.of_eq rfl rfl

end Evaluated

/-! ### Solving -/

lemma evaluated_compose {T : Theory} {x : Var} {t : Term} (h : c.Evaluated)
    (hd : compose T c x t = .ok d) : d.Evaluated := by
  by_cases hx : x ∈ c.store.keys
  · rw [compose, if_pos (Substitution.contains_iff.mpr hx)] at hd
    cases hd
  · have hfold : (c.store.toList.foldl (composeBinding T (.single x t)) c).Evaluated := by
      refine List.foldlRecOn _ _ h fun d hd b _ => ?_
      unfold composeBinding
      split
      · exact hd.bind _ _
      · exact hd
    rw [compose_eq hx] at hd
    cases hd
    split
    · exact hfold
    · exact hfold.of_eq rfl rfl

/-- The equations that a pass keeps are instances or have not been reached. -/
lemma reduced_remaining (σ : Substitution) (hes : ∀ e ∈ es, e.Reduced) :
    ∀ q ∈ (EquationSet.empty.insertAll ((Theory.standard order).remaining σ es)).toList,
      q.Reduced := by
  intro q hq
  obtain ⟨e, he, rfl, -⟩ := Theory.mem_remaining.mp (EquationSet.mem_ofList.mp hq)
  exact (hes e he).instantiate σ

lemma evaluated_renormalize (h : c.Evaluated) (hd : renormalize (.standard order) c = .ok d) :
    d.Evaluated := by
  -- each binding found uses up an equation
  induction hn : c.equations.size using Nat.strongRecOn generalizing c with
  | _ n ih =>
      have insertAll : ∀ {E : EquationSet} {es : List Equation}, (∀ q ∈ E.toList, q.Reduced) →
          (∀ e ∈ es, e.Reduced) → ∀ q ∈ (E.insertAll es).toList, q.Reduced := fun hE hes q hq =>
        (EquationSet.mem_insertAll.mp hq).elim (hE q) (hes q)
      have hequations := h.equations
      have hscan := @scanned (.standard order) c.store .empty c.equations.toList
      rw [renormalize_eq] at hd
      generalize hpass : scan (.standard order) c.store .empty c.equations.toList = pass at hscan hd
      cases hscan with
      | settled =>
          cases hd
          exact h.setEquations (reduced_remaining c.store hequations)
      | @refuted pre post p hsplit =>
          cases hd
          rw [hsplit, List.forall_mem_append, List.forall_mem_cons] at hequations
          obtain ⟨hpre, hp, hpost⟩ := hequations
          refine (h.setEquations (insertAll (fun q hq => ?_) hpost)).falsify _
          exact (EquationSet.mem_insert.mp hq).elim (reduced_remaining c.store hpre q)
            fun hq => hq ▸ hp.instantiate c.store
      | @solved pre post p x t hsplit =>
          rw [hsplit, List.forall_mem_append, List.forall_mem_cons] at hequations
          have hkept := insertAll (@reduced_remaining order _ c.store hequations.1)
            hequations.2.2
          dsimp only at hd
          cases ha : compose (.standard order) c x t with
          | error fault => simp [ha] at hd
          | ok a =>
              have ha' := (evaluated_compose h ha).setEquations hkept
              rw [ha] at hd
              dsimp only at hd
              split at hd
              · cases hd
                exact ha'
              · exact ih _ (hn ▸ size_kept_lt hsplit) ha' hd rfl

lemma evaluated_normalize (h : c.Evaluated) (hd : c.normalize (.standard order) = .ok d) :
    d.Evaluated := by
  unfold normalize at hd
  split at hd
  · cases hd
    exact h
  · have hdrain : ({ c with normal := true }.drain).Evaluated :=
      ⟨fun e he => (EquationSet.mem_insertAll.mp he).elim (h.equations e) (h.buffer e),
        by simp [drain]⟩
    cases hr : renormalize (.standard order) { c with normal := true }.drain with
    | error fault => simp [hr, Except.map] at hd
    | ok a =>
        rw [hr] at hd
        cases hd
        exact (evaluated_renormalize hdrain hr).updateTruth

lemma evaluated_round {solve : List (List Equation) → Engine (List Constraint)}
    (hsolve : ∀ as k ds l, solve as k = .ok (ds, l) → ∀ a ∈ ds, a.Evaluated) (hc : c.Evaluated)
    (hkept : ∀ e ∈ kept.toList, e.Reduced) (hes : ∀ e ∈ es, e.Reduced)
    (h : round (.standard order) fold solve c kept es n = .ok (d, m)) : d.Evaluated := by
  induction es generalizing c kept n with
  | nil =>
      obtain ⟨rfl, -⟩ := Engine.pure_eq_ok.mp h
      exact ⟨hkept, hc.buffer⟩
  | cons e es ih =>
      rw [List.forall_mem_cons] at hes
      have hinsert : ∀ q ∈ (kept.insert e).toList, q.Reduced := fun q hq =>
        (EquationSet.mem_insert.mp hq).elim (hkept q) fun hq => hq ▸ hes.1
      -- a failure leaves the equations that have not been dealt with
      have hstuck : ∀ (c : Constraint) (q : Equation), c.Evaluated →
          ((c.putBack ((kept.insert e).insertAll es)).falsify q).Evaluated := fun c q hc =>
        have hback : (c.putBack ((kept.insert e).insertAll es)).Evaluated :=
          ⟨fun q hq => (EquationSet.mem_insertAll.mp hq).elim (hinsert q) (hes.2 q), hc.buffer⟩
        hback.falsify q
      have hc' : ({ c with normal := false }).Evaluated := hc.of_eq rfl rfl
      rcases round_cases h with ⟨failure, -, rfl⟩ | ⟨k, -, h⟩ | ⟨parts, k, -, -, h⟩ |
        ⟨common, as, k, ds, l, -, hds, h⟩
      · exact hstuck c _ hc
      · exact ih hc hinsert hes.2 h
      · exact ih (hc'.insertAll parts) hkept hes.2 h
      · have hcommon : (({ c with normal := false }).insertAll (.standard order) common).Evaluated :=
          hc'.insertAll common
        rcases h with ⟨-, rfl⟩ | ⟨a, rfl, h⟩ | ⟨b, rfl, h⟩
        · exact hstuck _ _ hc'
        · exact ih (hcommon.conjoin (hsolve as k _ l hds a List.mem_cons_self)) hkept hes.2 h
        · refine ih ?_ hkept hes.2 h
          exact hcommon.of_eq rfl rfl

theorem evaluated_simplifySince {last : Option Snapshot} (hc : c.Evaluated)
    (h : simplifySince (.standard order) fold fuel last c n = .ok (d, m)) : d.Evaluated := by
  induction fuel generalizing last c n d m with
  | zero => exact absurd h Engine.throw_ne_ok
  | succ fuel ih =>
      have hsolve : ∀ as k ds l, satisfiable (.standard order) fold fuel as k = .ok (ds, l) →
          ∀ a ∈ ds, a.Evaluated := by
        intro as k ds l h a ha
        obtain ⟨bs, j, hbs, h⟩ := Engine.bind_eq_ok.mp h
        obtain ⟨rfl, -⟩ := Engine.pure_eq_ok.mp h
        obtain ⟨es, -, i, i', ha⟩ := Engine.mem_of_mapM hbs a (List.mem_filter.mp ha).1
        exact ih (evaluated_empty.insertAll es) ha
      obtain ⟨b, hb, h⟩ := simplifySince_cases h
      have hb := evaluated_normalize hc hb
      rcases h with ⟨-, rfl, -⟩ | ⟨-, -, a, k, ha, h⟩
      · exact hb
      · have ha := evaluated_round (c := b.takeOut) hsolve ⟨by simp [takeOut], hb.buffer⟩ (by simp)
          hb.equations ha
        rcases h with ⟨-, rfl, -⟩ | ⟨-, h⟩
        · exact ha
        · exact ih ha h

/-! ### Operations -/

lemma Evaluated.expandOnce (h : c.Evaluated) :
    (c.expandOnce (.standard order) narrowing).1.Evaluated := by
  have hs : (c.store.keys.foldl (expandBinding (.standard order) narrowing)
      ⟨c, [], false⟩).constraint.Evaluated := by
    refine List.foldlRecOn (motive := fun s : Expanding => s.constraint.Evaluated) _ _ h fun s hs x _ => ?_
    unfold expandBinding
    split
    · exact hs.bind _ _
    · exact hs
  unfold Constraint.expandOnce
  dsimp only
  generalize c.store.keys.foldl (expandBinding (.standard order) narrowing) ⟨c, [], false⟩ = s at hs ⊢
  have hequations : (expandEquations (.standard order) narrowing s).constraint.Evaluated := by
    refine hs.setEquations fun q hq => ?_
    obtain ⟨r, hr, rfl⟩ := List.mem_map.mp (EquationSet.mem_ofList.mp hq)
    obtain ⟨e, he, rfl⟩ := List.mem_map.mp hr
    dsimp only
    unfold expandEquation
    split
    · exact hs.equations e he
    · exact Equation.reduced_evaluated _
    · exact Equation.reduced_evaluated _
    · exact Equation.reduced_evaluated _
  exact Evaluated.updateTruth ((hequations.insertAll _).of_eq rfl rfl)

lemma evaluated_expandAndSimplify (hc : c.Evaluated)
    (h : c.expandAndSimplify (.standard order) fuel narrowing n = .ok (d, m)) : d.Evaluated := by
  obtain ⟨b, hnormal, hrun⟩ := Engine.lift_bind_eq_ok.mp h
  have hb := evaluated_normalize hc hnormal
  clear hnormal h
  induction fuel generalizing b n with
  | zero => exact absurd hrun Engine.throw_ne_ok
  | succ fuel ih =>
      rw [expandAndSimplifyNormal] at hrun
      split at hrun
      · obtain ⟨rfl, -⟩ := Engine.pure_eq_ok.mp hrun
        exact hb
      · dsimp only at hrun
        obtain ⟨a, l, ha, hrest⟩ := Engine.bind_eq_ok.mp hrun
        have ha := evaluated_simplifySince hb.expandOnce ha
        split at hrest
        · exact ih a hrest ha
        · obtain ⟨rfl, -⟩ := Engine.pure_eq_ok.mp hrest
          exact ha

lemma evaluated_orient {targets : List Var} (hc : c.Evaluated)
    (h : c.orient (.standard order) targets = .ok (.ok d)) : d.Evaluated := by
  rcases orient_cases h with ⟨-, rfl⟩ | ⟨-, fl, -, h⟩
  · exact hc
  · have hstart : ({ c with store := .empty }).Evaluated := hc.of_eq rfl rfl
    have hbound : ((fl.apply c.store).foldl (fun (d : Constraint) b => d.bind (.standard order) b.1 b.2)
        { c with store := .empty }).Evaluated :=
      List.foldlRecOn _ _ hstart fun d hd b _ => hd.bind b.1 b.2
    refine evaluated_normalize ?_ h
    exact hbound.of_eq rfl rfl

lemma Evaluated.removeBindings {T : Theory} (hc : c.Evaluated) (xs : List Var) :
    (c.removeBindings T xs).Evaluated := by
  obtain ⟨σ, -, h⟩ := removeBindings_eq (T := T) c xs
  rw [h]
  exact Evaluated.updateTruth (hc.of_eq rfl rfl)

/-- Other names for the variables make no step of evaluation possible. -/
lemma Evaluated.rename (hc : c.Evaluated) {ρ : Var → Var} (hρ : c.MovesApart ρ) :
    (c.rename ρ).Evaluated := by
  refine ⟨fun q hq => ?_, hc.buffer⟩
  obtain ⟨e, he, rfl⟩ := List.mem_map.mp (EquationSet.mem_ofList.mp hq)
  have hmentioned : ∀ x, x ∈ e.left.vars ∨ x ∈ e.right.vars → c.Mentions x := fun x hx =>
    .inr ⟨e, he, hx⟩
  have hapart : Separates ρ c.Mentions := hρ.eq_of_mentions
  exact ⟨(hc.equations e he).1.rename hapart fun x hx => hmentioned x (.inl hx),
    (hc.equations e he).2.rename hapart fun x hx => hmentioned x (.inr hx)⟩

lemma evaluated_alternatives (hc : c.Evaluated) (hD : ∀ D ∈ c.pending, ∀ a ∈ D, a.Evaluated)
    (h : c.alternatives (.standard order) fuel n = .ok (ds, m)) : ∀ d ∈ ds, d.Evaluated := by
  have extended : ∀ {D : List (List Constraint)} {cs : List Constraint} {n : Nat},
      (∀ c ∈ cs, c.Evaluated) → (∀ C ∈ D, ∀ a ∈ C, a.Evaluated) →
      D.foldlM (extendBy (.standard order) fuel) cs n = .ok (ds, m) → ∀ d ∈ ds, d.Evaluated := by
    intro D
    induction D with
    | nil =>
        intro cs n hcs _ h
        obtain ⟨rfl, -⟩ := Engine.pure_eq_ok.mp h
        exact hcs
    | cons C D ih =>
        intro cs n hcs hD h
        rw [List.forall_mem_cons] at hD
        rw [List.foldlM_cons] at h
        obtain ⟨bs, k, hbs, h⟩ := Engine.bind_eq_ok.mp h
        refine ih (fun b hb => ?_) hD.2 h
        obtain ⟨-, c, hc, a, ha, e, i, j, he, hb⟩ := extendBy_cases hbs b hb
        exact evaluated_simplifySince
          (evaluated_normalize ((hcs c hc).conjoin (hD.1 a ha)) he) hb
  unfold alternatives at h
  split at h
  · obtain ⟨rfl, -⟩ := Engine.pure_eq_ok.mp h
    exact List.forall_mem_singleton.mpr hc
  · obtain ⟨b, hb, hrun⟩ := Engine.lift_bind_eq_ok.mp h
    have hbase : ({ c with pending := [], normal := false }).Evaluated := hc.of_eq rfl rfl
    exact extended (List.forall_mem_singleton.mpr (evaluated_normalize hbase hb)) hD hrun

theorem Change.evaluated (hR : ∀ {c : Constraint} {ρ : Var → Var}, R c ρ → c.MovesApart ρ)
    (hb : b.Evaluated) (hc : c.Evaluated) (hD : ∀ D ∈ c.pending, ∀ a ∈ D, a.Evaluated)
    (h : Change (.standard order) Q R b c d) : d.Evaluated := by
  cases h with
  | add _ h => exact evaluated_normalize (hc.insertAll _) h
  | addConditions _ h => exact evaluated_normalize (hc.insertAll _) h
  | addSubstitution _ h => exact evaluated_normalize (hc.insertAll _) h
  | addConstraint h => exact evaluated_normalize (hc.conjoin hb) h
  | addAllThenSimplify _ h => exact evaluated_simplifySince (hc.insertAll _) h
  | simplify h => exact evaluated_simplifySince hc h
  | expandAndSimplify h => exact evaluated_expandAndSimplify hc h
  | orient h => exact evaluated_orient hc h
  | isMatching h => exact evaluated_orient hc (isMatching_orient h)
  | removeBindings xs => exact hc.removeBindings xs
  | rename hρ => exact hc.rename (hR hρ)
  | alternatives h hd => exact evaluated_alternatives hc hD h _ hd

/-- Whatever operations derive has equations between values, and so has every alternative that is
pending in it. -/
theorem Derived.throughout_evaluated (hT : (Theory.standard order).Stable Q P)
    (hR : ∀ {c : Constraint} {ρ : Var → Var}, R c ρ → c.MovesApart ρ)
    (h : c.Derived (.standard order) Q R) : c.Throughout P Evaluated := by
  have hG : HoldsOfSolved (.standard order) Evaluated := fun h =>
    evaluated_simplifySince (evaluated_empty.insertAll _) h
  induction h with
  | empty => exact stored_empty.throughout evaluated_empty
  | change _ _ hstep hc hb =>
      refine (hstep.stored hT hG hb.stored hc.stored).throughout
        (hstep.evaluated hR hb.holds hc.holds fun D hD a ha => ?_)
      exact (hc.stored.pending D hD a ha).2.holds
  | alternative _ hD ha hc => exact (hc.stored.pending _ hD _ ha).2

end Constraint

end SolvedForm

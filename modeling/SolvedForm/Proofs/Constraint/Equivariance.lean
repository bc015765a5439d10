import SolvedForm.Proofs.Constraint.Descent
import SolvedForm.Proofs.Constraint.Renaming
import SolvedForm.Proofs.Constraint.Supply
import SolvedForm.Proofs.Unification.Equivariance

/-!
Solving does not see the names of variables.

* `Constraint.RenamesTo`: two constraints between terms that evaluation treats alike, the second being
  the first under other names, field by field and in the same order, with the same disjunctions.
* `Constraint.RenamesTo.insertAll`, `Constraint.RenamesTo.normalize`: what an operation makes of the
  second is what it makes of the first, under other names.
* `Constraint.RenamesTo.simplifySince`: so does simplification that does without fresh variables.
* `Constraint.RenamesTo.same`: the second constraint is the same as the first one renamed.
* `Constraint.ofEquations_rename`: equations with their variables renamed are simplified to the
  renamed constraint.
-/

namespace SolvedForm.Constraint

variable {order : SortOrder} {ρ : Var → Var} {S : Var → Prop} {a b c d : Constraint} {x : Var}
  {t : Term} {e : Equation} {es : List Equation} {fold : Bool} {fuel n m : Nat}

/-- The second constraint is the first one under other names, with the same disjunctions; the first is
over a class of variables and its terms are treated alike by evaluation. -/
structure RenamesTo (ρ : Var → Var) (S : Var → Prop) (c d : Constraint) : Prop where
  equations : c.equations.RenamesTo ρ S d.equations
  buffer : c.buffer.RenamesTo ρ S d.buffer
  store : c.store.RenamesTo ρ S d.store
  truth : d.truth = c.truth
  normal : d.normal = c.normal
  guarded : d.guarded = c.guarded
  pending : d.pending = c.pending

/-- What a pass ends with under other names. -/
inductive Pass.RenamesTo (ρ : Var → Var) (S : Var → Prop) : Pass → Pass → Prop where
  | settled {kept kept' : EquationSet} : kept.RenamesTo ρ S kept' →
      RenamesTo ρ S (.settled kept) (.settled kept')
  | refuted {kept kept' : EquationSet} (e e' : Equation) : kept.RenamesTo ρ S kept' →
      RenamesTo ρ S (.refuted kept e) (.refuted kept' e')
  | solved {kept kept' : EquationSet} {x : Var} {t : Term} : kept.RenamesTo ρ S kept' →
      S x → t.Follows ρ S →
      RenamesTo ρ S (.solved kept x t) (.solved kept' (ρ x) (t.rename ρ))

/-- The second snapshot is the first one under other names. -/
def Snapshot.RenamesTo (ρ : Var → Var) (S : Var → Prop) (s s' : Snapshot) : Prop :=
  s.1.RenamesTo ρ S s'.1 ∧ s.2.RenamesTo ρ S s'.2

lemma renamesTo_empty : empty.RenamesTo ρ S empty :=
  ⟨EquationSet.renamesTo_empty, EquationSet.renamesTo_empty, Substitution.renamesTo_empty,
    rfl, rfl, rfl, rfl⟩

/-- One pass over renamed equations ends as the pass over the equations does. -/
lemma scan_rename (order : SortOrder) (hρ : Term.Renaming ρ S) {σ τ : Substitution} {kept kept' : EquationSet}
    (hσ : σ.RenamesTo ρ S τ) (hkept : kept.RenamesTo ρ S kept')
    (hes : ∀ e ∈ es, e.Follows ρ S) :
    (scan (.standard order) σ kept es).RenamesTo ρ S
      (scan (.standard order) τ kept' (es.map (·.map (Term.rename ρ)))) := by
  induction es generalizing kept kept' with
  | nil => exact .settled hkept
  | cons e es ih =>
      rw [List.forall_mem_cons] at hes
      have hinst : (e.instantiate (Theory.standard order).evaluate σ).Follows ρ S :=
        hσ.follows_instantiate_equation hes.1
      have hl := hinst.1.toCanonicalOver
      have hr := hinst.2.toCanonicalOver
      rw [List.map_cons, scan, scan, hσ.instantiate_equation hρ hes.1,
        Equation.truth_rename hρ hl hr, Equation.binding?_rename hρ hl.ranges hr.ranges]
      split
      · exact ih hkept hes.2
      · exact .refuted _ _ ((hkept.insert hρ hinst).insertAll hρ hes.2)
      · split
        · next x t hb =>
            rw [hb]
            obtain ⟨hx, ht⟩ : S x ∧ t.Follows ρ S := by
              rcases Equation.binding?_cases hb with hq | hq <;> rw [hq] at hinst
              · exact ⟨hinst.1.ranges x (by simp), hinst.2⟩
              · exact ⟨hinst.2.ranges x (by simp), hinst.1⟩
            exact .solved (hkept.insertAll hρ hes.2) hx ht
        · next hb =>
            rw [hb]
            exact ih (hkept.insert hρ hinst) hes.2

lemma same_iff : c.same d = true ↔ c.truth = d.truth ∧ c.store.equiv d.store = true ∧
    c.equations.equiv d.equations = true ∧ sameDisjunctions c.pending d.pending = true := by
  cases c
  simp only [same, Bool.and_eq_true, decide_eq_true_eq, and_assoc]

mutual

/-- A constraint is the same as itself. -/
lemma same_self : ∀ c : Constraint, c.same c = true
  | ⟨E, _, σ, _, _, _, _, D⟩ => same_iff.mpr
    ⟨rfl, Substitution.equiv_self σ, EquationSet.equiv_self E, sameDisjunctions_self D⟩
  termination_by structural c => c

lemma sameDisjunctions_self : ∀ D : List (List Constraint), sameDisjunctions D D = true
  | [] => rfl
  | C :: D => Bool.and_eq_true_iff.mpr ⟨sameAlternatives_self C, sameDisjunctions_self D⟩
  termination_by structural D => D

lemma sameAlternatives_self : ∀ cs : List Constraint, sameAlternatives cs cs = true
  | [] => rfl
  | c :: cs => Bool.and_eq_true_iff.mpr ⟨same_self c, sameAlternatives_self cs⟩
  termination_by structural cs => cs

end

namespace RenamesTo

section Insertion

variable (h : c.RenamesTo ρ S d)
include h

lemma isFalse : d.isFalse = c.isFalse := by rw [Constraint.isFalse, h.truth, Constraint.isFalse]

lemma falsify (e e' : Equation) : (c.falsify e).RenamesTo ρ S (d.falsify e') := by
  unfold Constraint.falsify
  rw [h.isFalse]
  split
  · exact h
  · exact ⟨h.equations, h.buffer, h.store, rfl, h.normal, h.guarded, h.pending⟩

lemma updateTruth : c.updateTruth.RenamesTo ρ S d.updateTruth := by
  unfold Constraint.updateTruth
  rw [h.isFalse, h.equations.isEmpty, h.pending]
  split
  · exact h
  · exact ⟨h.equations, h.buffer, h.store, rfl, h.normal, h.guarded, rfl⟩

lemma setNormal (normal : Bool) :
    ({ c with normal }).RenamesTo ρ S { d with normal } :=
  ⟨h.equations, h.buffer, h.store, h.truth, rfl, h.guarded, h.pending⟩

lemma setEquations {E E' : EquationSet} (hE : E.RenamesTo ρ S E') :
    ({ c with equations := E }).RenamesTo ρ S { d with equations := E' } :=
  ⟨hE, h.buffer, h.store, h.truth, h.normal, h.guarded, h.pending⟩

lemma setStore {σ τ : Substitution} (hσ : σ.RenamesTo ρ S τ) :
    ({ c with store := σ }).RenamesTo ρ S { d with store := τ } :=
  ⟨h.equations, h.buffer, hσ, h.truth, h.normal, h.guarded, h.pending⟩

variable (hρ : Term.Renaming ρ S)
include hρ

lemma insertEquation (he : e.Follows ρ S) :
    (c.insertEquation e).RenamesTo ρ S (d.insertEquation (e.map (Term.rename ρ))) := by
  unfold Constraint.insertEquation
  rw [h.isFalse, h.equations.contains hρ he, h.guarded, h.buffer.contains hρ he]
  split_ifs
  · exact h
  · exact ⟨h.equations, h.buffer.insert hρ he, h.store, rfl, rfl, rfl, h.pending⟩
  · exact ⟨h.equations.insert hρ he, h.buffer, h.store, rfl, rfl, rfl, h.pending⟩

lemma foldl_insertEquation (hes : ∀ e ∈ es, e.Follows ρ S) :
    (es.foldl Constraint.insertEquation c).RenamesTo ρ S
      ((es.map (·.map (Term.rename ρ))).foldl Constraint.insertEquation d) := by
  induction es generalizing c d with
  | nil => exact h
  | cons e es ih =>
      rw [List.forall_mem_cons] at hes
      exact ih (h.insertEquation hρ hes.1) hes.2

/-- Putting in renamed equations does what putting in the equations does. -/
lemma insertAll (hes : ∀ e ∈ es, e.Follows ρ S) :
    (c.insertAll (.standard order) es).RenamesTo ρ S
      (d.insertAll (.standard order) (es.map (·.map (Term.rename ρ)))) := by
  have hobligations : (es.map (·.map (Term.rename ρ))).flatMap (Theory.standard order).obligations =
      (es.flatMap (Theory.standard order).obligations).map (·.map (Term.rename ρ)) := by
    rw [List.flatMap_map, List.map_flatMap]
    exact List.flatMap_congr fun e he =>
      Equation.obligations_rename hρ (hes e he).1 (hes e he).2
  rw [insertAll_eq_foldl, insertAll_eq_foldl, hobligations]
  refine h.foldl_insertEquation hρ fun q hq => ?_
  obtain ⟨e, he, hq⟩ := List.mem_flatMap.mp hq
  exact Equation.follows_obligations (hes e he) q hq

end Insertion

/-! ### Bindings and the normal form -/

lemma bind (h : c.RenamesTo ρ S d) (hρ : Term.Renaming ρ S) (hx : S x)
    (ht : t.Follows ρ S) : (c.bind (.standard order) x t).RenamesTo ρ S
      (d.bind (.standard order) (ρ x) (t.rename ρ)) := by
  have htruth : Equation.truth order ⟨.var (ρ x), t.rename ρ⟩ = Equation.truth order ⟨.var x, t⟩ :=
    Equation.truth_rename (e := ⟨.var x, t⟩) hρ ⟨.var x, Term.Ranges.var_iff.mpr hx⟩
      ht.toCanonicalOver
  unfold Constraint.bind
  rw [h.isFalse, show (Theory.standard order).order = order from rfl, htruth]
  split
  · exact h
  · cases Equation.truth order ⟨.var x, t⟩ with
    | true => exact h.setStore (h.store.erase hρ hx)
    | false => exact (h.setStore (h.store.insert hρ hx ht)).falsify _ _
    | unknown => exact h.setStore (h.store.insert hρ hx ht)

/-- A binding worked into the values of a store. -/
lemma foldl_composeBinding (order : SortOrder) (h : c.RenamesTo ρ S d) (hρ : Term.Renaming ρ S)
    {σ τ : Substitution} (hσ : σ.RenamesTo ρ S τ) {bs : List (Var × Term)}
    (hbs : ∀ b ∈ bs, S b.1 ∧ b.2.Follows ρ S) :
    (bs.foldl (composeBinding (.standard order) σ) c).RenamesTo ρ S
      ((bs.map fun b => (ρ b.1, b.2.rename ρ)).foldl (composeBinding (.standard order) τ) d) := by
  induction bs generalizing c d with
  | nil => exact h
  | cons b bs ih =>
      rw [List.forall_mem_cons] at hbs
      obtain ⟨⟨hx, ht⟩, hbs⟩ := hbs
      refine ih ?_ hbs
      unfold composeBinding Substitution.substitute?
      rw [hσ.touches hρ ht.ranges, hσ.apply hρ ht.ranges]
      cases σ.touches b.2 with
      | true =>
          have hu := hσ.follows_apply ht
          have heval := Term.evaluate_rename hρ hu
          simp only [↓reduceIte]
          change Constraint.RenamesTo _ _ _ (Constraint.bind _ d (ρ b.1) (Term.evaluate _))
          rw [heval]
          exact h.bind hρ hx hu.evaluate
      | false => exact h

lemma compose (h : c.RenamesTo ρ S d) (hρ : Term.Renaming ρ S) (hx : S x)
    (ht : t.Follows ρ S) (ha : compose (.standard order) c x t = .ok a) :
    ∃ b, Constraint.compose (.standard order) d (ρ x) (t.rename ρ) = .ok b ∧
      a.RenamesTo ρ S b := by
  have hkeys := h.store.mem_keys_iff hρ hx
  by_cases hk : x ∈ c.store.keys
  · rw [Constraint.compose, if_pos (Substitution.contains_iff.mpr hk)] at ha
    cases ha
  · have hsingle : (Substitution.single x t).RenamesTo ρ S
        (.single (ρ x) (t.rename ρ)) := Substitution.renamesTo_empty.insert hρ hx ht
    have hbindings : ∀ b ∈ c.store.toList, S b.1 ∧ b.2.Follows ρ S :=
      fun b hb => ⟨h.store.key hb, h.store.value hb⟩
    have hfold := h.foldl_composeBinding order hρ hsingle hbindings
    rw [compose_eq hk] at ha
    rw [compose_eq (by rwa [hkeys]), h.store.toList, hfold.isFalse]
    refine ⟨_, rfl, ?_⟩
    cases ha
    split
    · exact hfold
    · exact hfold.setStore (hfold.store.insert hρ hx ht)

/-- Solving goes the same way under other names. -/
lemma renormalize (h : c.RenamesTo ρ S d) (hρ : Term.Renaming ρ S)
    (ha : renormalize (.standard order) c = .ok a) :
    ∃ b, Constraint.renormalize (.standard order) d = .ok b ∧ a.RenamesTo ρ S b := by
  -- each binding found uses up an equation
  induction hn : c.equations.size using Nat.strongRecOn generalizing c d with
  | _ n ih =>
      have hscan := scan_rename order hρ h.store EquationSet.renamesTo_empty h.equations.mem
      rw [← h.equations.toList] at hscan
      rw [renormalize_eq] at ha ⊢
      cases hpass : scan (.standard order) c.store .empty c.equations.toList with
      | settled kept =>
          rw [hpass] at ha hscan
          generalize scan (.standard order) d.store .empty d.equations.toList = pass at hscan
          cases hscan with
          | settled hkept =>
              cases ha
              exact ⟨_, rfl, h.setEquations hkept⟩
      | refuted kept e =>
          rw [hpass] at ha hscan
          generalize scan (.standard order) d.store .empty d.equations.toList = pass at hscan
          cases hscan with
          | refuted e e' hkept =>
              cases ha
              exact ⟨_, rfl, (h.setEquations hkept).falsify e e'⟩
      | solved kept x t =>
          have hlt := size_lt_of_scan hpass
          rw [hpass] at ha hscan
          generalize scan (.standard order) d.store .empty d.equations.toList = pass at hscan
          cases hscan with
          | solved hkept hx ht =>
              dsimp only at ha ⊢
              cases hc : Constraint.compose (.standard order) c x t with
              | error fault => simp [hc] at ha
              | ok c' =>
                  obtain ⟨d', hd', h'⟩ := h.compose hρ hx ht hc
                  rw [hc] at ha
                  rw [hd']
                  dsimp only at ha ⊢
                  rw [h'.isFalse]
                  split at ha
                  · next hf =>
                      cases ha
                      rw [if_pos hf]
                      exact ⟨_, rfl, h'.setEquations hkept⟩
                  · next hf =>
                      rw [if_neg hf]
                      refine ih _ ?_ (h'.setEquations hkept) ha rfl
                      simpa [hn.symm, EquationSet.size, EquationSet.empty] using hlt

lemma drain (h : c.RenamesTo ρ S d) (hρ : Term.Renaming ρ S) :
    c.drain.RenamesTo ρ S d.drain := by
  have hequations := h.equations.insertAll hρ h.buffer.mem
  rw [← h.buffer.toList] at hequations
  exact ⟨hequations, EquationSet.renamesTo_empty, h.store, h.truth, h.normal, h.guarded, h.pending⟩

lemma normalize (h : c.RenamesTo ρ S d) (hρ : Term.Renaming ρ S)
    (ha : c.normalize (.standard order) = .ok a) :
    ∃ b, d.normalize (.standard order) = .ok b ∧ a.RenamesTo ρ S b := by
  have hskip : (d.isFalse || d.normal || d.guarded) = (c.isFalse || c.normal || c.guarded) := by
    rw [h.isFalse, h.normal, h.guarded]
  unfold Constraint.normalize at ha ⊢
  split at ha
  · next hstop =>
      cases ha
      rw [if_pos (hskip.trans hstop)]
      exact ⟨d, rfl, h⟩
  · next hgo =>
      rw [if_neg (by rwa [hskip])]
      cases hr : Constraint.renormalize (.standard order) { c with normal := true }.drain with
      | error fault => simp [hr, Except.map] at ha
      | ok c' =>
          obtain ⟨d', hd', h'⟩ := ((h.setNormal true).drain hρ).renormalize hρ hr
          rw [hr] at ha
          rw [hd']
          cases ha
          exact ⟨_, rfl, h'.updateTruth⟩

/-! ### Simplification -/

lemma takeOut (h : c.RenamesTo ρ S d) : c.takeOut.RenamesTo ρ S d.takeOut :=
  ⟨EquationSet.renamesTo_empty, h.buffer, h.store, h.truth, h.normal, rfl, h.pending⟩

lemma putBack (h : c.RenamesTo ρ S d) {E E' : EquationSet}
    (hE : E.RenamesTo ρ S E') : (c.putBack E).RenamesTo ρ S (d.putBack E') :=
  ⟨hE, h.buffer, h.store, h.truth, h.normal, rfl, h.pending⟩

/-- A round that draws no fresh variable goes the same way over renamed equations. -/
lemma round (h : c.RenamesTo ρ S d) (hρ : Term.Renaming ρ S) {kept kept' : EquationSet}
    (hkept : kept.RenamesTo ρ S kept') (hes : ∀ e ∈ es, e.Follows ρ S)
    {solve : List (List Equation) → Engine (List Constraint)} (hsolve : ∀ as, (solve as).Ascends)
    (solve' : List (List Equation) → Engine (List Constraint))
    (ha : c.round (.standard order) false solve kept es n = .ok (a, n)) :
    ∃ b, d.round (.standard order) false solve' kept' (es.map (·.map (Term.rename ρ))) n =
      .ok (b, n) ∧ a.RenamesTo ρ S b := by
  induction es generalizing c d kept kept' with
  | nil =>
      obtain ⟨rfl, -⟩ := Engine.pure_eq_ok.mp ha
      exact ⟨_, rfl, h.putBack hkept⟩
  | cons e es ih =>
      rw [List.forall_mem_cons] at hes
      rw [List.map_cons]
      rcases Unifier.structural_rename order hρ hes.1.1 hes.1.2 with hmints | ⟨r, r', halike, hrun, hrun'⟩
      · have hn : ∀ {r k}, Unifier.structural order false e n = (r, k) → n < k := fun hu => by
          simpa only [hu] using hmints n
        have hle : ∀ {b : Constraint} {kept : EquationSet} {k : Nat},
            b.round (.standard order) false solve kept es k = .ok (a, n) → k ≤ n := fun h =>
          ascends_round (Unifier.ascends_structural order) hsolve _ _ _ _ _ _ h
        rcases round_cases ha with ⟨failure, hu, -⟩ | ⟨k, hu, hrest⟩ | ⟨parts, k, -, hu, hrest⟩ |
          ⟨common, as, k, ds, l, hu, -⟩
        · exact absurd (hn hu) (Nat.lt_irrefl n)
        · exact absurd (hle hrest) (Nat.not_le_of_lt (hn hu))
        · exact absurd (hle hrest) (Nat.not_le_of_lt (hn hu))
        · exact absurd hu (Unifier.structural_decisive order)
      · cases halike with
        | error failure failure' =>
            rw [round_of_failure (hrun n)] at ha
            obtain ⟨rfl, -⟩ := Engine.pure_eq_ok.mp ha
            exact ⟨_, round_of_failure (hrun' n),
              (h.putBack ((hkept.insert hρ hes.1).insertAll hρ hes.2)).falsify _ _⟩
        | @ok parts hparts =>
            have hiff : parts.map (·.map (Term.rename ρ)) = [e.map (Term.rename ρ)] ↔
                parts = [e] := by
              refine ⟨fun heq => Term.map_eq_map (fun q hq p hp hqp => ?_) heq, fun heq => heq ▸ rfl⟩
              rw [List.mem_singleton.mp hp] at hqp ⊢
              exact (Equation.map_rename_eq_iff hρ (hparts q hq) hes.1).mp hqp
            by_cases hp : parts = [e]
            · subst hp
              rw [round_of_kept (hrun n)] at ha
              rw [round_of_kept (hrun' n)]
              exact ih h (hkept.insert hρ hes.1) hes.2 ha
            · rw [round_of_parts (hrun n) hp] at ha
              rw [round_of_parts (hrun' n) (hiff.not.mpr hp)]
              exact ih ((h.setNormal false).insertAll hρ hparts) hkept hes.2 ha

lemma unchangedSince (h : c.RenamesTo ρ S d) (hρ : Term.Renaming ρ S)
    {last last' : Option Snapshot} (hlast : Option.Rel (Snapshot.RenamesTo ρ S) last last') :
    d.unchangedSince last' = c.unchangedSince last := by
  cases hlast with
  | none => rfl
  | some hs =>
      change (_ && _) = (_ && _)
      rw [hs.1.equiv h.store hρ, hs.2.equiv h.equations hρ]

/-- Simplification that draws no fresh variable goes the same way under other names. -/
theorem simplifySince (h : c.RenamesTo ρ S d) (hρ : Term.Renaming ρ S)
    {last last' : Option Snapshot} (hlast : Option.Rel (Snapshot.RenamesTo ρ S) last last')
    (ha : c.simplifySince (.standard order) false fuel last n = .ok (a, n)) :
    ∃ b, d.simplifySince (.standard order) false fuel last' n = .ok (b, n) ∧
      a.RenamesTo ρ S b := by
  have ascends : ∀ fuel as, (satisfiable (.standard order) false fuel as).Ascends :=
    ascends_satisfiable (Unifier.ascends_structural order)
  induction fuel generalizing c d last last' with
  | zero => exact absurd ha Engine.throw_ne_ok
  | succ fuel ih =>
      obtain ⟨c', hc', hcases⟩ := simplifySince_cases ha
      obtain ⟨d', hd', h'⟩ := h.normalize hρ hc'
      have hun := h'.unchangedSince hρ hlast
      rw [Constraint.simplifySince, Engine.bind_of_ok (m := n) (by rw [hd']; rfl)]
      rw [h'.truth, hun]
      rcases hcases with ⟨hstop, rfl, -⟩ | ⟨hopen, hgo, a', k, hround, hrest⟩
      · rw [if_pos (by simpa using hstop)]
        exact ⟨d', rfl, h'⟩
      · rw [if_neg (by simp [hopen, hgo])]
        -- neither the round nor what follows it draws a fresh variable
        have hk : k = n := by
          refine Nat.le_antisymm ?_ (ascends_round (Unifier.ascends_structural order) (ascends fuel)
            _ _ _ _ _ _ hround)
          rcases hrest with ⟨-, -, rfl⟩ | ⟨-, hrest⟩
          · exact Nat.le_refl _
          · exact ascends_simplifySince (Unifier.ascends_structural order) _ _ _ _ _ _ hrest
        subst hk
        obtain ⟨b', hb', hab⟩ := h'.takeOut.round hρ EquationSet.renamesTo_empty
          h'.equations.mem (ascends fuel) (satisfiable (.standard order) false fuel) hround
        rw [← h'.equations.toList] at hb'
        rcases hrest with ⟨hf, rfl, -⟩ | ⟨hf, hrest⟩
        · refine ⟨b', (Engine.bind_of_ok hb').trans ?_, hab⟩
          rw [hab.isFalse, if_pos hf]
          rfl
        · have hsnapshot : Option.Rel (Snapshot.RenamesTo ρ S)
              (some (c'.store, c'.equations)) (some (d'.store, d'.equations)) :=
            .some ⟨h'.store, h'.equations⟩
          obtain ⟨b, hb, hab'⟩ := ih hab hsnapshot hrest
          refine ⟨b, (Engine.bind_of_ok hb').trans ?_, hab'⟩
          rw [hab.isFalse, if_neg (by simp [hf])]
          exact hb

/-! ### Comparison -/

lemma same (h : c.RenamesTo ρ S d) : d.same (c.rename ρ) = true := by
  have hstore : (c.rename ρ).store = d.store := by
    refine Substitution.ext_toList ?_
    rw [Constraint.rename, ← h.store.toList]
    exact Substitution.toList_ofList d.store.nodup
  have hequations : (c.rename ρ).equations = d.equations := by
    rw [Constraint.rename, ← h.equations.toList]
    exact EquationSet.insertAll_toList d.equations
  rw [same_iff, hstore, hequations, h.pending]
  exact ⟨h.truth, Substitution.equiv_self _, EquationSet.equiv_self _, sameDisjunctions_self _⟩

end RenamesTo

/-! ### From the equations to their solution -/

/-- Simplification of renamed equations makes the renamed constraint: for terms without maps and a
renaming to different variables, of the same sorts and anonymous where the old ones are, both
simplifications come to an end, and further turns do not change their answers. -/
theorem ofEquations_rename (hes : ∀ e ∈ es, e.left.MapFree ∧ e.right.MapFree)
    (hρ : Term.Renaming ρ fun x => ∃ e ∈ es, x ∈ e.left.vars ∨ x ∈ e.right.vars) :
    ∃ c d, d.same (c.rename ρ) = true ∧ ∃ k, ∀ fuel, k < fuel → ∀ n,
      ofEquations (.standard order) fuel es n = .ok (c, n) ∧
      ofEquations (.standard order) fuel (es.map (·.map (Term.rename ρ))) n = .ok (d, n) := by
  let xs := es.flatMap fun e => e.left.vars ++ e.right.vars
  have mem_xs : ∀ x, x ∈ xs ↔ ∃ e ∈ es, x ∈ e.left.vars ∨ x ∈ e.right.vars := fun x => by
    simp [xs, List.mem_flatMap]
  have hρ : Term.Renaming ρ (· ∈ xs) := by simpa only [mem_xs] using hρ
  have hmem : ∀ e ∈ es, (Fragment.mapFree order (· ∈ xs)).MemEq e := fun e he =>
    ⟨⟨(hes e he).1, fun x hx => (mem_xs x).mpr ⟨e, he, .inl hx⟩⟩,
      ⟨(hes e he).2, fun x hx => (mem_xs x).mpr ⟨e, he, .inr hx⟩⟩⟩
  have rename_mem : ∀ {t : Term}, t.MapFreeOver (· ∈ xs) →
      (t.rename ρ).MapFreeOver (· ∈ xs.map ρ) := fun ht =>
    ⟨ht.1.rename ρ, fun y hy => by
      obtain ⟨x, hx, rfl⟩ := (Term.mem_vars_rename ht.1.frameless).mp hy
      exact List.mem_map_of_mem (ht.2 x hx)⟩
  have hmem' : ∀ e ∈ es.map (·.map (Term.rename ρ)),
      (Fragment.mapFree order (· ∈ xs.map ρ)).MemEq e :=
    List.forall_mem_map.mpr fun e he => ⟨rename_mem (hmem e he).1, rename_mem (hmem e he).2⟩
  -- both runs end
  have ends : ∀ {xs : List Var} {es : List Equation},
      (∀ e ∈ es, (Fragment.mapFree order (· ∈ xs)).MemEq e) →
      ∃ c k, ∀ fuel, k < fuel → ∀ n, ofEquations (.standard order) fuel es n = .ok (c, n) := by
    intro xs es hes
    have hsound : (empty.insertAll (.standard order) es).Sound (.mapFree order (· ∈ xs)) :=
      settled_empty.sound.insertAll hes
    obtain ⟨b, hb, -⟩ := normalize_settled hsound
    exact simplifySince_ends_of_mapFree hsound hb none
  obtain ⟨c, k, hc⟩ := ends hmem
  obtain ⟨d, l, hd⟩ := ends hmem'
  -- and they go the same way
  have hrun : (empty.insertAll (.standard order) es).RenamesTo ρ (· ∈ xs)
      (empty.insertAll (.standard order) (es.map (·.map (Term.rename ρ)))) :=
    renamesTo_empty.insertAll hρ fun e he =>
      ⟨Term.MapFreeOver.follows (hmem e he).1, Term.MapFreeOver.follows (hmem e he).2⟩
  obtain ⟨d', hd', hcd⟩ := hrun.simplifySince hρ .none (hc (k + l + 1) (by omega) 0)
  obtain rfl : d = d' :=
    (Prod.mk.inj (Except.ok.inj ((hd (k + l + 1) (by omega) 0).symm.trans hd'))).1
  exact ⟨c, d, hcd.same, k + l, fun fuel hfuel n =>
    ⟨hc fuel (by omega) n, hd fuel (by omega) n⟩⟩

/-- Two names may change places. -/
theorem ofEquations_rename_swapped :
    let x : Var := ⟨"X", .top, false, none⟩
    let y : Var := ⟨"Y", .top, false, none⟩
    let swap : Var → Var := fun z => if z = x then y else x
    let pair (s t : Term) : Term := .app ⟨"pair", 2, none, .constructor⟩ [s, t]
    let succ (t : Term) : Term := .app ⟨"succ", 1, none, .constructor⟩ [t]
    let es : List Equation := [⟨pair (.var x) (.var y), pair (succ (.var y)) (.int 1)⟩]
    (∀ e ∈ es, e.left.MapFree ∧ e.right.MapFree) ∧
      Term.Renaming swap (fun z => ∃ e ∈ es, z ∈ e.left.vars ∨ z ∈ e.right.vars) ∧
      ∃ c d, d.same (c.rename swap) = true ∧ ∃ k, ∀ fuel, k < fuel → ∀ n,
        ofEquations (.standard Subsorts.builtin.order) fuel es n = .ok (c, n) ∧
        ofEquations (.standard Subsorts.builtin.order) fuel
          [⟨pair (.var y) (.var x), pair (succ (.var x)) (.int 1)⟩] n = .ok (d, n) := by
  intro x y swap pair succ es
  have hes : ∀ e ∈ es, e.left.MapFree ∧ e.right.MapFree := by
    simp only [es, pair, succ, List.forall_mem_singleton]
    exact ⟨.app _ (by simp [Term.MapFree.var]), .app _ (by simp [Term.MapFree.var, Term.MapFree.int])⟩
  have hvars : ∀ z, (∃ e ∈ es, z ∈ e.left.vars ∨ z ∈ e.right.vars) → z = x ∨ z = y := by
    rintro z ⟨e, he, hz⟩
    rw [List.mem_singleton.mp he] at hz
    simpa [pair, succ] using hz
  have hswap : Term.Renaming swap fun z => ∃ e ∈ es, z ∈ e.left.vars ∨ z ∈ e.right.vars := by
    refine ⟨fun hz hz' h => ?_, fun hz => ?_, fun hz => ?_⟩
    · rcases hvars _ hz with rfl | rfl <;> rcases hvars _ hz' with rfl | rfl
      all_goals first | rfl | exact absurd h (by decide)
    · rcases hvars _ hz with rfl | rfl <;> rfl
    · rcases hvars _ hz with rfl | rfl <;> rfl
  exact ⟨hes, hswap, ofEquations_rename hes hswap⟩

end SolvedForm.Constraint

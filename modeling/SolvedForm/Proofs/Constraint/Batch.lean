import SolvedForm.Proofs.Constraint.Built
import SolvedForm.Proofs.Constraint.Neat

/-!
Equations added to what has been solved.

* `Constraint.BuiltOver.neat`: what is built over terms with one negation and no maps stores such
  terms, evaluated.
* `Constraint.NormalForm.addAll_eq`: adding to a normal constraint is solving what it has together with
  what is new.
* `Constraint.add_entailed`: an equation whose sides have the same value under the store
  changes nothing.
* `Constraint.addAll_eq_foldlM`: equations added together and one by one come to the same.
* `Constraint.add_entailed_two_negations`, `Constraint.addAll_ne_foldlM`: why there may be one
  negation only.
-/

namespace SolvedForm

open Term

namespace Constraint

variable {order : SortOrder} {neg : Symbol} {T : Theory} {a b c d : Constraint} {e : Equation}
  {es : List Equation}

/-! ### Terms with one negation -/

lemma BuiltOver.stored (h : c.BuiltOver (.uniform order neg)) :
    c.Stored (Term.Neat neg) (Alternative (Term.Neat neg) fun _ => True) := by
  have hT := Theory.stores_neat order neg
  induction h with
  | empty => exact stored_empty
  | add _ he h ih =>
      exact stored_normalize hT.toPreserves
        (ih.insertAll hT.toPreserves (List.forall_mem_singleton.mpr ⟨he.1.1, he.2.1⟩)) h
  | simplify _ h ih => exact stored_simplify hT (fun _ => trivial) ih h

lemma BuiltOver.normalForm {F : Fragment T} (h : c.BuiltOver F) (hc : c.isFalse = false) :
    c.NormalForm T.order :=
  (h.settled.resolve_left fun hr => absurd hr.1 (by simp [hc])).2

lemma BuiltOver.neat (h : c.BuiltOver (.uniform order neg)) (hc : c.isFalse = false) :
    c.Neat neg :=
  ⟨hc, (h.normalForm hc).acyclic, h.stored.store, h.stored.equations⟩

lemma Neat.obligations (he : e.left.Uniform neg ∧ e.right.Uniform neg) :
    ∀ q ∈ (Theory.standard order).obligations e, q.Neat neg :=
  (Theory.stores_neat order neg).obligations he

/-! ### What a normal constraint has -/

/-- A constraint put together again from its fields. -/
lemma eta (c : Constraint) : (⟨c.equations, c.buffer, c.store, c.truth, c.contradiction, c.normal,
    c.guarded, c.pending⟩ : Constraint) = c := by
  cases c
  rfl

lemma drain_eq_self (h : c.buffer = .empty) : c.drain = c := by
  cases c
  cases h
  rfl

namespace NormalForm

/-- The equations of a normal constraint are their own instances, and none ends a pass. -/
lemma opened (h : c.NormalForm T.order) (he : e ∈ c.equations.toList) :
    T.opened c.store e = some e :=
  Theory.opened_eq_some_iff.mpr
    ⟨Equation.instantiate_eq_self (h.untouched e he), by simp [h.undecided e he]⟩

lemma filterMap_opened (h : c.NormalForm T.order) :
    c.equations.toList.filterMap (T.opened c.store) = c.equations.toList := by
  rw [List.filterMap_congr fun e he => h.opened he, List.filterMap_some]

lemma opens_eq (h : c.NormalForm T.order) : T.opens c.store c.equations.toList = c.equations := by
  rw [Theory.opens, h.filterMap_opened]
  exact EquationSet.ofList_toList c.equations

lemma first?_eq (h : c.NormalForm T.order) : T.first? c.store c.equations.toList = none := by
  rw [Theory.first?, h.filterMap_opened]
  refine List.find?_eq_none.mpr fun e he => ?_
  simp [Equation.decisive, h.undecided e he, h.unbound e he]

lemma renormalize_self (h : c.NormalForm T.order) : renormalize T c = .ok c := by
  rw [renormalize_of_none h.first?_eq, h.opens_eq]
  exact congrArg Except.ok (eta c)

/-- Adding to a normal constraint is solving what it has together with what is new. -/
lemma addAll_eq (h : c.NormalForm T.order) (hc : c.isFalse = false) (es : List Equation) :
    c.addAll T es = .ok c ∧ c.equations.insertAll (es.flatMap T.obligations) = c.equations ∨
      c.addAll T es = (renormalize T { c with
        equations := c.equations.insertAll (es.flatMap T.obligations)
        truth := .unknown }).map updateTruth := by
  rcases insertAll_cases (T := T) hc h.unguarded es with ⟨heq, hE⟩ | heq
  · refine .inl ⟨?_, hE⟩
    rw [addAll, heq, normalize, if_pos (by simp [h.normal])]
  · refine .inr ?_
    have hdrain : ({ c with
        equations := c.equations.insertAll (es.flatMap T.obligations)
        normal := true
        truth := .unknown } : Constraint).drain = { c with
        equations := c.equations.insertAll (es.flatMap T.obligations)
        truth := .unknown } := by
      rw [h.normal]
      exact drain_eq_self h.drained
    rw [addAll, heq, normalize, if_neg (by simp [isFalse, h.unguarded]), hdrain]

end NormalForm

/-! ### What follows from the bindings -/

/-- The conjuncts of a term whose instance comes to be true are true as well. -/
lemma eval_conjuncts {σ : Substitution} {t : Term} (h : σ.eval t = .bool true) :
    ∀ u ∈ t.conjuncts, σ.eval u = .bool true := by
  induction t using Term.ind with
  | app f args ih =>
      unfold Term.conjuncts
      split
      · next g l r heq =>
          obtain ⟨rfl, rfl⟩ := Term.app.injEq .. ▸ heq
          split
          · next hconj =>
              have happ : (Term.app f [σ.eval l, σ.eval r]).applies .conj = true := hconj
              have hroot : (Operator.reduceConj (σ.eval l) (σ.eval r)).getD
                  (.app f [σ.eval l, σ.eval r]) = .bool true := by
                rw [Substitution.eval_app] at h
                exact (congrArg (Option.getD · _) (reduceRoot_of_applies happ)).symm.trans h
              have hsides : σ.eval l = .bool true ∧ σ.eval r = .bool true := by
                rw [Operator.reduceConj_eq] at hroot
                grind
              rw [List.forall_mem_append]
              exact ⟨ih l (by simp) hsides.1, ih r (by simp) hsides.2⟩
          · exact List.forall_mem_singleton.mpr h
      · exact List.forall_mem_singleton.mpr h
  | var | bool | int | map | lookup => exact List.forall_mem_singleton.mpr h

/-- An equation whose sides have the same value gives such equations to be solved. -/
lemma Neat.opened_obligations (order : SortOrder) (hc : c.Neat neg)
    (he : e.left.Uniform neg ∧ e.right.Uniform neg) (heq : c.store.eval e.left = c.store.eval e.right) :
    ∀ q ∈ (Theory.standard order).obligations e, (Theory.standard order).opened c.store q = none := by
  have hsplit : ∀ q ∈ e.split, c.store.eval q.left = c.store.eval q.right := by
    unfold Equation.split
    split
    · next hr =>
        rw [hr] at heq
        exact List.forall_mem_map.mpr (eval_conjuncts heq)
    · split
      · next hl =>
          rw [hl.1] at heq
          exact List.forall_mem_map.mpr (eval_conjuncts heq.symm)
      · exact List.forall_mem_singleton.mpr heq
  have huniform : ∀ q ∈ e.split, q.left.Uniform neg ∧ q.right.Uniform neg := fun q hq =>
    have hq := Fragment.memEq_split (F := .uniform order neg)
      ⟨⟨he.1, fun _ _ => trivial⟩, he.2, fun _ _ => trivial⟩ q hq
    ⟨hq.1.1, hq.2.1⟩
  refine List.forall_mem_map.mpr fun q hq => ?_
  have hneat : ((Theory.standard order).evaluated q).Neat neg :=
    ⟨⟨(huniform q hq).1.evaluate, reduced_evaluate _⟩, (huniform q hq).2.evaluate, reduced_evaluate _⟩
  rw [Theory.opened_eq_none_iff, Equation.instantiate_eq_eval hneat, Equation.truth_eq_true_iff]
  calc c.store.eval q.left.evaluate
      = c.store.eval q.left := hc.store.eval_evaluate (huniform q hq).1
    _ = c.store.eval q.right := hsplit q hq
    _ = c.store.eval q.right.evaluate := (hc.store.eval_evaluate (huniform q hq).2).symm

/-- Adding an equation whose sides have the same value under the store leaves a constraint that has
been built by adding and simplifying exactly as it is. The terms are without maps, and one symbol
stands for all negations. -/
theorem add_entailed (h : c.BuiltOver (.uniform order neg)) (hc : c.isFalse = false)
    (he : e.left.Uniform neg ∧ e.right.Uniform neg)
    (heq : (c.store.apply e.left).evaluate = (c.store.apply e.right).evaluate) :
    c.add (.standard order) e = .ok c := by
  have hn := h.normalForm hc
  rcases hn.addAll_eq hc [e] with ⟨hadd, -⟩ | hadd
  · exact hadd
  · have hopened := (h.neat hc).opened_obligations order he heq
    have hnone : ([e].flatMap (Theory.standard order).obligations).filterMap
        ((Theory.standard order).opened c.store) = [] := by
      rw [List.filterMap_eq_nil_iff]
      simpa using hopened
    have hopens : (Theory.standard order).opens c.store
        (c.equations.insertAll ([e].flatMap (Theory.standard order).obligations)).toList =
        c.equations := by
      rw [Theory.opens_insertAll, Theory.opens_append, hnone, hn.opens_eq]
      rfl
    have hfirst := (Theory.first?_congr (hopens.trans hn.opens_eq.symm)).trans hn.first?_eq
    rw [add, hadd, renormalize_of_none hfirst, Except.map, updateTruth_eq rfl, hopens, ← hn.truth]
    exact congrArg Except.ok (eta c)

/-- A double negation under the store, beside an equation that stays open. -/
theorem add_entailed_negation :
    let T : Theory := .standard Subsorts.builtin.order
    let x : Var := ⟨"X", .bool, false, none⟩
    let z : Var := ⟨"Z", .bool, false, none⟩
    let not (t : Term) : Term := .app ⟨"notBool_", 1, some .bool, .function⟩ [t]
    let g (t : Term) : Term := .app ⟨"g", 1, none, .function⟩ [t]
    ∃ b c : Constraint, empty.add T ⟨.var x, not (.var z)⟩ = .ok b ∧
      b.add T ⟨g (.var x), .int 1⟩ = .ok c ∧ c.isFalse = false ∧
      c.store.toList = [(x, not (.var z))] ∧ c.equations.toList = [⟨g (not (.var z)), .int 1⟩] ∧
      c.add T ⟨not (not (.var x)), not (.var z)⟩ = .ok c := by
  intro T x z not g
  let neg : Symbol := ⟨"notBool_", 1, some .bool, .function⟩
  have hvar (y : Var) : (Term.var y).Uniform neg := .var y
  have hnot {t : Term} (ht : t.Uniform neg) : (not t).Uniform neg := ht.negation
  have hg : (g (.var x)).Uniform neg := .other rfl (List.forall_mem_singleton.mpr (hvar x))
  have hint : (Term.int 1).Uniform neg := ⟨.int 1, .int 1⟩
  have mem {e : Equation} (he : e.left.Uniform neg ∧ e.right.Uniform neg) :
      (Fragment.uniform Subsorts.builtin.order neg).MemEq e :=
    ⟨⟨he.1, fun _ _ => trivial⟩, he.2, fun _ _ => trivial⟩
  have hrun : (empty.add T ⟨.var x, not (.var z)⟩).toOption.any (fun b =>
      (b.add T ⟨g (.var x), .int 1⟩).toOption.any fun c =>
        !c.isFalse && (c.store.toList == [(x, not (.var z))] &&
          c.equations.toList == [⟨g (not (.var z)), .int 1⟩])) = true := by
    decide +kernel
  obtain ⟨b, hb, hrun⟩ := exists_eq_ok_of_any hrun
  obtain ⟨c, hc, htest⟩ := exists_eq_ok_of_any hrun
  obtain ⟨hopen, hstore, hequations⟩ : c.isFalse = false ∧ c.store.toList = [(x, not (.var z))] ∧
      c.equations.toList = [⟨g (not (.var z)), .int 1⟩] := by
    simpa using htest
  have hvalues : (c.store.apply (not (not (.var x)))).evaluate =
      (c.store.apply (not (.var z))).evaluate := by
    have hσ : c.store = .single x (not (.var z)) := Substitution.ext_toList hstore
    rw [hσ]
    decide
  exact ⟨b, c, hb, hc, hopen, hstore, hequations, add_entailed
    (.add (.add .empty (mem ⟨hvar x, hnot (hvar z)⟩) hb) (mem ⟨hg, hint⟩) hc) hopen
    ⟨hnot (hnot (hvar x)), hnot (hvar z)⟩ hvalues⟩

/-- Two negations of different result sorts cancel, and the one that is left need not be the one that
cancels under the store: the equation is added although its sides have the same value there. -/
theorem add_entailed_two_negations :
    let T : Theory := .standard Subsorts.builtin.order
    let x : Var := ⟨"X", .bool, false, none⟩
    let z : Var := ⟨"Z", .bool, false, none⟩
    let not (t : Term) : Term := .app ⟨"notBool_", 1, some .bool, .function⟩ [t]
    let unsorted (t : Term) : Term := .app ⟨"notBool_", 1, none, .function⟩ [t]
    let terms : List Term := [.var x, unsorted (.var z), not (not (.var x)), not (.var z)]
    (∀ t ∈ terms, t.MapFree ∧ t.NegatedBy fun _ => True) ∧
      ∃ c d : Constraint, empty.add T ⟨.var x, unsorted (.var z)⟩ = .ok c ∧ c.isFalse = false ∧
        (c.store.apply (not (not (.var x)))).evaluate = (c.store.apply (not (.var z))).evaluate ∧
        c.add T ⟨not (not (.var x)), not (.var z)⟩ = .ok d ∧
        c.truth = .true ∧ d.truth = .unknown ∧ c.equations.toList = [] ∧
        d.equations.toList = [⟨unsorted (.var z), not (.var z)⟩] := by
  intro T x z not unsorted terms
  refine ⟨?_, ?_⟩
  · have hvar (y : Var) : (Term.var y).MapFree ∧ (Term.var y).NegatedBy fun _ => True :=
      ⟨.var y, .var y⟩
    have hneg {f : Symbol} {t : Term} (ht : t.MapFree ∧ t.NegatedBy fun _ => True) :
        (Term.app f [t]).MapFree ∧ (Term.app f [t]).NegatedBy fun _ => True :=
      ⟨.app f (List.forall_mem_singleton.mpr ht.1), .neg trivial ht.2⟩
    simp only [terms, List.forall_mem_cons]
    exact ⟨hvar x, hneg (hvar z), hneg (hneg (hvar x)), hneg (hvar z), List.forall_mem_nil _⟩
  · have hrun : (empty.add T ⟨.var x, unsorted (.var z)⟩).toOption.any (fun c =>
        (c.add T ⟨not (not (.var x)), not (.var z)⟩).toOption.any fun d =>
          decide (c.isFalse = false ∧
            (c.store.apply (not (not (.var x)))).evaluate = (c.store.apply (not (.var z))).evaluate ∧
            c.truth = .true ∧ d.truth = .unknown ∧ c.equations.toList = [] ∧
            d.equations.toList = [⟨unsorted (.var z), not (.var z)⟩])) = true := by
      decide +kernel
    obtain ⟨c, hc, hrun⟩ := exists_eq_ok_of_any hrun
    obtain ⟨d, hd, htest⟩ := exists_eq_ok_of_any hrun
    obtain ⟨hopen, hvalues, hrest⟩ := of_decide_eq_true htest
    exact ⟨c, d, hc, hopen, hvalues, hd, hrest⟩

/-! ### One by one -/

lemma Concurs.updateTruth (h : a.Concurs b) : a.updateTruth.Concurs b where
  isFalse := (isFalse_updateTruth a).trans h.isFalse
  contradiction := by
    rw [← h.contradiction, Constraint.updateTruth]
    split <;> rfl
  store := (store_updateTruth a).trans h.store
  equations hf := (equations_updateTruth a).trans (h.equations ((isFalse_updateTruth a).symm.trans hf))

/-- Adding equations is solving them together with those that are there. -/
lemma NormalForm.addAll_concurs (h : c.NormalForm order) (hc : c.Neat neg)
    (hes : ∀ e ∈ es, e.left.Uniform neg ∧ e.right.Uniform neg) :
    ∃ a b, c.addAll (.standard order) es = .ok a ∧ renormalize (.standard order) { c with
        equations := c.equations.insertAll (es.flatMap (Theory.standard order).obligations) } =
          .ok b ∧ a.Concurs b := by
  have hobligations : ∀ q ∈ es.flatMap (Theory.standard order).obligations, q.Neat neg := fun q hq =>
    have ⟨e, he, hq⟩ := List.mem_flatMap.mp hq
    Neat.obligations (hes e he) q hq
  have hall := hc.insertAll hobligations
  rcases NormalForm.addAll_eq (T := .standard order) h hc.undecided es with ⟨hadd, hE⟩ | hadd
  · refine ⟨c, _, hadd, ?_, ⟨rfl, rfl, rfl⟩, fun _ => rfl⟩
    rw [hE]
    exact (congrArg (renormalize _) (eta c)).trans
      (NormalForm.renormalize_self (T := .standard order) h)
  · have hunknown : ({ c with
        equations := c.equations.insertAll (es.flatMap (Theory.standard order).obligations)
        truth := .unknown } : Constraint).Neat neg := ⟨rfl, hall.acyclic, hall.store, hall.equations⟩
    obtain ⟨a, b, ha, hb, hab⟩ :=
      renormalize_concurs order hunknown hall ⟨hc.undecided.symm, rfl, rfl⟩ rfl
    exact ⟨a.updateTruth, b, by rw [hadd, ha]; rfl, hb, hab.updateTruth⟩

lemma addAll_of_isFalse (hc : c.isFalse = true) (es : List Equation) : c.addAll T es = .ok c := by
  rw [addAll, insertAll_of_isFalse hc, normalize, if_pos (by simp [hc])]

/-- The equations after the first one may be added later. -/
lemma BuiltOver.addAll_cons (h : c.BuiltOver (.uniform order neg)) (hc : c.isFalse = false)
    (hes : ∀ q ∈ e :: es, q.left.Uniform neg ∧ q.right.Uniform neg) :
    ∃ a d b, c.addAll (.standard order) (e :: es) = .ok a ∧ c.add (.standard order) e = .ok d ∧
      d.addAll (.standard order) es = .ok b ∧ a.Concurs b := by
  have hhead : ∀ q ∈ [e], q.left.Uniform neg ∧ q.right.Uniform neg :=
    List.forall_mem_singleton.mpr (hes e List.mem_cons_self)
  have htail : ∀ q ∈ es, q.left.Uniform neg ∧ q.right.Uniform neg := fun q hq =>
    hes q (List.mem_cons_of_mem _ hq)
  have obligations {qs : List Equation} (hqs : ∀ q ∈ qs, q.left.Uniform neg ∧ q.right.Uniform neg) :
      ∀ q ∈ qs.flatMap (Theory.standard order).obligations, q.Neat neg := fun q hq =>
    have ⟨e, he, hq⟩ := List.mem_flatMap.mp hq
    Neat.obligations (hqs e he) q hq
  have hneat := h.neat hc
  obtain ⟨a, r, ha, hr, har⟩ := (h.normalForm hc).addAll_concurs hneat hes
  obtain ⟨d, s, hd, hs, hds⟩ := (h.normalForm hc).addAll_concurs hneat hhead
  have hbuilt : d.BuiltOver (.uniform order neg) :=
    .add h ⟨⟨(hes e List.mem_cons_self).1, fun _ _ => trivial⟩, (hes e List.mem_cons_self).2,
      fun _ _ => trivial⟩ hd
  obtain ⟨r', s', hr', hs', hfalse, hopen⟩ :=
    renormalize_insertAll order (hneat.insertAll (obligations hhead)) (obligations htail)
  cases hs.symm.trans hs'
  have hr : r = r' := by
    rw [List.flatMap_cons, EquationSet.insertAll_append] at hr
    rw [List.flatMap_singleton] at hr'
    exact Except.ok.inj (hr.symm.trans hr')
  subst hr
  cases hdf : d.isFalse with
  | true =>
      have hsf : s.isFalse = true := hds.isFalse.symm.trans hdf
      exact ⟨a, d, d, ha, hd, addAll_of_isFalse hdf es, har.trans ((hfalse hsf).trans hds.symm)⟩
  | false =>
      obtain ⟨hsneat, t, ht, hrt⟩ := hopen (hds.isFalse.symm.trans hdf)
      obtain ⟨b, u, hb, hu, hbu⟩ := (hbuilt.normalForm hdf).addAll_concurs (hbuilt.neat hdf) htail
      obtain ⟨t', u', ht', hu', htu⟩ := renormalize_concurs order
        (hsneat.insertAll (obligations htail)) ((hbuilt.neat hdf).insertAll (obligations htail))
        (hds.symm.toAlike.setEquations _ _) (by rw [hds.equations hdf])
      cases ht.symm.trans ht'
      cases hu.symm.trans hu'
      exact ⟨a, d, b, ha, hd, hb, har.trans (hrt.trans (htu.trans hbu.symm))⟩

/-- Solving leaves the disjunctions alone. -/
lemma BuiltOver.pending_addAll {F : Fragment T} (h : c.BuiltOver F) (hes : ∀ e ∈ es, F.MemEq e)
    (ha : c.addAll T es = .ok a) (hopen : a.isFalse = false) : a.pending = c.pending :=
  (pending_of_normalize (h.settled.sound.insertAll hes) ha hopen).trans (pending_insertAll c es)

/-- One equation after the other comes to the same as all of them together. -/
lemma BuiltOver.foldlM_concurs (h : c.BuiltOver (.uniform order neg))
    (hes : ∀ e ∈ es, e.left.Uniform neg ∧ e.right.Uniform neg) :
    ∃ a b, c.addAll (.standard order) es = .ok a ∧
      es.foldlM (Constraint.add (.standard order)) c = .ok b ∧ a.Concurs b ∧
      b.BuiltOver (.uniform order neg) ∧ (b.isFalse = false → b.pending = c.pending) := by
  induction es generalizing c with
  | nil =>
      have hadd : c.addAll (.standard order) [] = .ok c := by
        cases hc : c.isFalse with
        | true => exact addAll_of_isFalse hc []
        | false => exact if_pos (by simp [insertAll, (h.normalForm hc).normal])
      exact ⟨c, c, hadd, rfl, ⟨⟨rfl, rfl, rfl⟩, fun _ => rfl⟩, h, fun _ => rfl⟩
  | cons e es ih =>
      have hhead := hes e List.mem_cons_self
      have hmem : (Fragment.uniform order neg).MemEq e :=
        ⟨⟨hhead.1, fun _ _ => trivial⟩, hhead.2, fun _ _ => trivial⟩
      have htail := fun q hq => hes q (List.mem_cons_of_mem _ hq)
      cases hc : c.isFalse with
      | true =>
          -- nothing is added to a false constraint
          obtain ⟨a, b, ha, hb, hab⟩ := ih h htail
          cases (addAll_of_isFalse hc es).symm.trans ha
          refine ⟨c, b, addAll_of_isFalse hc _, ?_, hab⟩
          rw [List.foldlM_cons, Constraint.add, addAll_of_isFalse hc]
          exact hb
      | false =>
          obtain ⟨a, d, a', ha, hd, ha', haa'⟩ := h.addAll_cons hc hes
          obtain ⟨a'', b, ha'', hb, hab, hbuilt, hpending⟩ := ih (.add h hmem hd) htail
          cases ha'.symm.trans ha''
          refine ⟨a, b, ha, ?_, haa'.trans hab, hbuilt, fun hopen => (hpending hopen).trans ?_⟩
          · rw [List.foldlM_cons, hd]
            exact hb
          · refine h.pending_addAll (List.forall_mem_singleton.mpr hmem) hd ?_
            rw [← Bool.not_eq_true]
            intro hf
            cases (addAll_of_isFalse hf es).symm.trans ha'
            exact absurd (hf.symm.trans (hab.isFalse.trans hopen)) Bool.noConfusion

/-- To add equations together to a constraint that has been built by adding and simplifying, and to add
them one by one, gives the same truth value and the same contradiction, and unless the constraint has
become false the same store and the same equations in the same order. The terms are without maps, and
one symbol stands for all negations. -/
theorem addAll_eq_foldlM (h : c.BuiltOver (.uniform order neg))
    (hes : ∀ e ∈ es, e.left.Uniform neg ∧ e.right.Uniform neg) :
    ∃ a b, c.addAll (.standard order) es = .ok a ∧
      es.foldlM (Constraint.add (.standard order)) c = .ok b ∧
      a.truth = b.truth ∧ a.contradiction = b.contradiction ∧
      (a.isFalse = false → a.store = b.store ∧ a.equations = b.equations) := by
  obtain ⟨a, b, ha, hb, hab, hbuilt, hpending⟩ := h.foldlM_concurs hes
  refine ⟨a, b, ha, hb, ?_, hab.contradiction, fun hopen => ⟨hab.store, hab.equations hopen⟩⟩
  have hmem : ∀ e ∈ es, (Fragment.uniform order neg).MemEq e := fun e he =>
    ⟨⟨(hes e he).1, fun _ _ => trivial⟩, (hes e he).2, fun _ _ => trivial⟩
  cases hopen : a.isFalse with
  | true =>
      have false_of {d : Constraint} (hd : d.isFalse = true) : d.truth = .false := by
        simpa [isFalse] using hd
      exact (false_of hopen).trans (false_of (hab.isFalse ▸ hopen)).symm
  | false =>
      have hopen' : b.isFalse = false := hab.isFalse ▸ hopen
      have hnormal := (settled_of_normalize (h.settled.sound.insertAll hmem) ha).resolve_left
        fun hr => absurd hr.1 (by simp [hopen])
      rw [hnormal.2.truth, (hbuilt.normalForm hopen').truth, hab.equations hopen,
        h.pending_addAll hmem ha hopen, hpending hopen']

/-- An equation that loses two negations to the store, added once more as it was. -/
theorem addAll_eq_foldlM_negation :
    let T : Theory := .standard Subsorts.builtin.order
    let v : Var := ⟨"V", .bool, false, none⟩
    let x : Var := ⟨"X", .bool, false, none⟩
    let y : Var := ⟨"Y", .bool, false, none⟩
    let z : Var := ⟨"Z", .bool, false, none⟩
    let not (t : Term) : Term := .app ⟨"notBool_", 1, some .bool, .function⟩ [t]
    let g (t : Term) : Term := .app ⟨"g", 2, none, .function⟩ [t, .var v]
    let e : Equation := ⟨.var v, g (not (.var y))⟩
    let es : List Equation := [⟨.var y, not (.var x)⟩, ⟨.var x, not (.var z)⟩, e]
    ∃ c a b : Constraint, empty.add T e = .ok c ∧ c.addAll T es = .ok a ∧
      es.foldlM (add T) c = .ok b ∧ a.truth = b.truth ∧ a.isFalse = false ∧
      a.store.toList = [(y, .var z), (x, not (.var z))] ∧
      a.equations.toList = [⟨.var v, g (not (.var z))⟩] ∧
      a.store = b.store ∧ a.equations = b.equations := by
  intro T v x y z not g e es
  let neg : Symbol := ⟨"notBool_", 1, some .bool, .function⟩
  have hvar (y : Var) : (Term.var y).Uniform neg := .var y
  have hnot (x : Var) : (not (.var x)).Uniform neg := (hvar x).negation
  have hg : (g (not (.var y))).Uniform neg :=
    .other rfl (List.forall_mem_cons.mpr ⟨hnot y, List.forall_mem_singleton.mpr (hvar v)⟩)
  have hes : ∀ e ∈ es, e.left.Uniform neg ∧ e.right.Uniform neg := by
    simp only [es, List.forall_mem_cons]
    exact ⟨⟨hvar y, hnot x⟩, ⟨hvar x, hnot z⟩, ⟨hvar v, hg⟩, List.forall_mem_nil _⟩
  have hrun : (empty.add T e).toOption.any (fun c => (c.addAll T es).toOption.any fun a =>
      decide (a.isFalse = false ∧ a.store.toList = [(y, .var z), (x, not (.var z))] ∧
        a.equations.toList = [⟨.var v, g (not (.var z))⟩])) = true := by
    decide +kernel
  obtain ⟨c, hc, hrun⟩ := exists_eq_ok_of_any hrun
  obtain ⟨a', ha', htest⟩ := exists_eq_ok_of_any hrun
  obtain ⟨hopen, hstore, hequations⟩ := of_decide_eq_true htest
  have hbuilt : c.BuiltOver (.uniform Subsorts.builtin.order neg) :=
    .add .empty ⟨⟨hvar v, fun _ _ => trivial⟩, hg, fun _ _ => trivial⟩ hc
  obtain ⟨a, b, ha, hb, htruth, -, hsame⟩ := addAll_eq_foldlM hbuilt hes
  cases ha.symm.trans ha'
  exact ⟨c, _, b, hc, ha, hb, htruth, hopen, hstore, hequations, hsame hopen⟩

/-- An equation that has lost one of two negations to the store, and is then added again as it was, is
a new one if the other negation is by a different symbol. Added together with the bindings, it is the
equation that is there. -/
theorem addAll_ne_foldlM :
    let T : Theory := .standard Subsorts.builtin.order
    let v : Var := ⟨"V", .bool, false, none⟩
    let x : Var := ⟨"X", .bool, false, none⟩
    let y : Var := ⟨"Y", .bool, false, none⟩
    let z : Var := ⟨"Z", .bool, false, none⟩
    let not (t : Term) : Term := .app ⟨"notBool_", 1, some .bool, .function⟩ [t]
    let unsorted (t : Term) : Term := .app ⟨"notBool_", 1, none, .function⟩ [t]
    let g (t : Term) : Term := .app ⟨"g", 2, none, .function⟩ [t, .var v]
    let e : Equation := ⟨.var v, g (not (.var y))⟩
    let es : List Equation := [⟨.var y, not (.var x)⟩, ⟨.var x, unsorted (.var z)⟩, e]
    (∀ e ∈ es, (e.left.MapFree ∧ e.left.NegatedBy fun _ => True) ∧
        e.right.MapFree ∧ e.right.NegatedBy fun _ => True) ∧
      ∃ c a b : Constraint, empty.add T e = .ok c ∧ c.addAll T es = .ok a ∧
        es.foldlM (add T) c = .ok b ∧ a.isFalse = false ∧
        a.equations.toList = [⟨.var v, g (unsorted (.var z))⟩] ∧
        b.equations.toList = [⟨.var v, g (unsorted (.var z))⟩, ⟨.var v, g (not (.var z))⟩] := by
  intro T v x y z not unsorted g e es
  refine ⟨?_, ?_⟩
  · have hvar (y : Var) : (Term.var y).MapFree ∧ (Term.var y).NegatedBy fun _ => True :=
      ⟨.var y, .var y⟩
    have hneg (f : Symbol) (x : Var) : (Term.app f [.var x]).MapFree ∧
        (Term.app f [.var x]).NegatedBy fun _ => True :=
      ⟨.app f (List.forall_mem_singleton.mpr (.var x)), .neg trivial (.var x)⟩
    have hg : (g (not (.var y))).MapFree ∧ (g (not (.var y))).NegatedBy fun _ => True :=
      ⟨.app _ (List.forall_mem_cons.mpr ⟨(hneg _ y).1, List.forall_mem_singleton.mpr (.var v)⟩),
        .other rfl (List.forall_mem_cons.mpr ⟨(hneg _ y).2, List.forall_mem_singleton.mpr (.var v)⟩)⟩
    simp only [es, List.forall_mem_cons]
    exact ⟨⟨hvar y, hneg _ x⟩, ⟨hvar x, hneg _ z⟩, ⟨hvar v, hg⟩, List.forall_mem_nil _⟩
  · have hrun : (empty.add T e).toOption.any (fun c => (c.addAll T es).toOption.any fun a =>
        (es.foldlM (add T) c).toOption.any fun b =>
          decide (a.isFalse = false ∧ a.equations.toList = [⟨.var v, g (unsorted (.var z))⟩] ∧
            b.equations.toList =
              [⟨.var v, g (unsorted (.var z))⟩, ⟨.var v, g (not (.var z))⟩])) = true := by
      decide +kernel
    obtain ⟨c, hc, hrun⟩ := exists_eq_ok_of_any hrun
    obtain ⟨a, ha, hrun⟩ := exists_eq_ok_of_any hrun
    obtain ⟨b, hb, htest⟩ := exists_eq_ok_of_any hrun
    exact ⟨c, a, b, hc, ha, hb, of_decide_eq_true htest⟩

end Constraint

end SolvedForm

import SolvedForm.Proofs.Constraint.Opens
import SolvedForm.Proofs.Constraint.Stored
import SolvedForm.Proofs.Term.Commutation

/-!
Solving over evaluated terms with one negation.

* `Term.Neat`: such terms, which `Theory.stores_neat` says are stored.
* `Substitution.eval_extend`, `Substitution.eval_eval`: an instance under an extended store is the
  instance of the one before, and an instance under an acyclic store is its own instance.
* `Theory.opens_extend`: so the equations that are open under an extended store depend on those that
  were open before.
* `Constraint.renormalize_concurs`: solving depends on the store and on the equations that are open
  under it.
* `Constraint.renormalize_insertAll`: to solve equations and then others with them is to solve all of
  them at once.
-/

namespace SolvedForm

open Term

variable {order : SortOrder} {neg : Symbol} {σ : Substitution} {e p q : Equation}
  {es fs pre post : List Equation} {x : Var} {s t : Term}

/-! ### Instances of instances -/

/-- The term is evaluated, and there is one negation and no map in it. -/
def Term.Neat (neg : Symbol) (t : Term) : Prop := t.Uniform neg ∧ t.Reduced

/-- Both sides of the equation are such terms. -/
def Equation.Neat (neg : Symbol) (e : Equation) : Prop := e.left.Neat neg ∧ e.right.Neat neg

/-- All values of the substitution are such terms. -/
def Substitution.Neat (neg : Symbol) (σ : Substitution) : Prop := ∀ b ∈ σ.toList, b.2.Neat neg

lemma Theory.stores_neat (order : SortOrder) (neg : Symbol) :
    (Theory.standard order).Stores (Uniform neg) (Term.Neat neg) where
  of_stored := And.left
  mem_var x := ⟨.var x, .var x⟩
  mem_true := ⟨.bool true, .bool true⟩
  mem_conjuncts := (hereditary_uniform neg).conjuncts
  evaluate ht := ⟨ht.evaluate, reduced_evaluate _⟩
  apply hσ _ ht := ht.1.apply fun x u hu => (hσ (x, u) (Substitution.mem_toList_iff.mpr hu)).1
  unique hl hr h := Decomposition.structural_unique (hereditary_uniform neg) hl.1 hr.1 h
  disjunction hl hr h := Decomposition.structural_disjunction (hereditary_uniform neg) hl.1 hr.1 h

namespace Substitution

lemma Neat.find? (hσ : σ.Neat neg) : ∀ x u, σ.find? x = some u → u.Neat neg := fun x u hu =>
  hσ (x, u) (mem_toList_iff.mpr hu)

lemma Neat.single (ht : t.Neat neg) : (single x t).Neat neg := by
  simpa [Neat] using ht

lemma Neat.apply (hσ : σ.Neat neg) (ht : t.Uniform neg) : (σ.apply t).Uniform neg :=
  ht.apply fun x u hu => (hσ.find? x u hu).1

lemma Neat.eval (hσ : σ.Neat neg) (ht : t.Uniform neg) : (σ.eval t).Neat neg :=
  ⟨(hσ.apply ht).evaluate, reduced_eval σ t⟩

lemma Neat.eval_evaluate (hσ : σ.Neat neg) (ht : t.Uniform neg) : σ.eval t.evaluate = σ.eval t :=
  Substitution.eval_evaluate (fun x u hu => (hσ.find? x u hu).1.2) ht

/-- An evaluated term is instantiated to the value of its instance. -/
lemma instantiate_eq_eval (ht : t.Reduced) :
    (Theory.standard order).instantiate σ t = σ.eval t := by
  unfold Theory.instantiate
  split
  · rfl
  · next h =>
      have hkeys := touches_eq_false_iff.mp (Bool.not_eq_true _ ▸ h)
      rw [eval, apply_eq_self ht.canonical hkeys, ht.evaluate_eq]

/-- An instance under an acyclic store is its own instance. -/
lemma eval_eval (hσ : σ.Neat neg) (hac : σ.Acyclic) (ht : t.Uniform neg) :
    σ.eval (σ.eval t) = σ.eval t := by
  have happly := hσ.apply ht
  have hself : σ.apply (σ.apply t) = σ.apply t := by
    refine apply_eq_self happly.1.frameless.canonical fun y hy => ?_
    rcases mem_vars_apply ht.1.frameless hy with ⟨-, hk⟩ | ⟨z, u, -, hu, hy⟩
    · exact hk
    · exact hac.not_mem_keys hu hy
  calc σ.eval (σ.eval t) = σ.eval (σ.apply t) := hσ.eval_evaluate happly
    _ = σ.eval t := congrArg evaluate hself

/-- To instantiate under an extended store is to instantiate first under the old one, and then with the
new binding. -/
lemma eval_extend (hσ : σ.Neat neg) (hs : s.Neat neg) (hx : x ∉ σ.keys) (ht : t.Uniform neg) :
    ((Theory.standard order).extend σ x s).eval t = (single x s).eval (σ.eval t) := by
  have hτ : (single x s).Neat neg := .single hs
  have hbindings : ∀ y ∈ t.vars, ((Theory.standard order).extend σ x s).eval (.var y) =
      ((single x s).comp σ).eval (.var y) := by
    intro y _
    rw [eval, eval, apply_var, apply_var, Theory.extend, find?_insert, find?_comp, find?_single]
    by_cases hy : y = x
    · subst hy
      rw [if_pos rfl, if_pos rfl, find?_eq_none_iff.mpr hx]
      rfl
    · rw [if_neg hy, if_neg hy]
      cases hu : σ.find? y with
      | none =>
          have hk : y ∉ (σ.mapValues ((Theory.standard order).instantiate (single x s))).keys := by
            rw [keys_mapValues]
            exact find?_eq_none_iff.mp hu
          rw [find?_eq_none_iff.mpr hk]
          rfl
      | some u =>
          have hmap : (σ.mapValues ((Theory.standard order).instantiate (single x s))).find? y =
              some ((single x s).eval u) := by
            rw [← mem_toList_iff, toList_mapValues, ← instantiate_eq_eval (hσ.find? y u hu).2]
            exact List.mem_map.mpr ⟨(y, u), mem_toList_iff.mpr hu, rfl⟩
          rw [hmap]
          exact (reduced_eval _ u).evaluate_eq
  calc ((Theory.standard order).extend σ x s).eval t
      = ((single x s).comp σ).eval t := eval_congr ht.1 hbindings
    _ = (single x s).eval (σ.apply t) := congrArg evaluate (apply_comp ht.1.frameless _ _)
    _ = (single x s).eval (σ.eval t) := (hτ.eval_evaluate (hσ.apply ht)).symm

/-- The value of the store extended with a binding. -/
lemma Neat.extend (hσ : σ.Neat neg) (ht : t.Neat neg) :
    ((Theory.standard order).extend σ x t).Neat neg := by
  intro b hb
  rcases mem_toList_insert.mp hb with rfl | ⟨-, hb⟩
  · exact ht
  · obtain ⟨a, ha, rfl⟩ := List.mem_map.mp hb
    exact (instantiate_eq_eval (hσ a ha).2).symm ▸ (Neat.single ht).eval (hσ a ha).1

end Substitution

/-! ### Equations that are open -/

namespace Equation

lemma instantiate_eq_eval (he : e.Neat neg) :
    e.instantiate (Theory.standard order).evaluate σ = e.map σ.eval := by
  rw [instantiate_eq_map, map, map, Substitution.instantiate_eq_eval he.1.2,
    Substitution.instantiate_eq_eval he.2.2]

lemma Neat.eval (he : e.Neat neg) (hσ : σ.Neat neg) : (e.map σ.eval).Neat neg :=
  ⟨hσ.eval he.1.1, hσ.eval he.2.1⟩

lemma Neat.instantiate (he : e.Neat neg) (hσ : σ.Neat neg) :
    (e.instantiate (Theory.standard order).evaluate σ).Neat neg :=
  instantiate_eq_eval he ▸ he.eval hσ

end Equation

namespace Theory

lemma opened_neat (he : e.Neat neg) (hσ : σ.Neat neg)
    (h : (standard order).opened σ e = some q) : q.Neat neg :=
  (opened_eq_some_iff.mp h).1 ▸ he.instantiate hσ

/-- What is open under an extended store comes of what was open before. -/
lemma opened_extend (hσ : σ.Neat neg) (ht : t.Neat neg) (hx : x ∉ σ.keys) (he : e.Neat neg) :
    (standard order).opened ((standard order).extend σ x t) e =
      ((standard order).opened σ e).bind ((standard order).opened (.single x t)) := by
  have heq : e.instantiate (standard order).evaluate ((standard order).extend σ x t) =
      (e.instantiate (standard order).evaluate σ).instantiate
        (standard order).evaluate (.single x t) := by
    rw [Equation.instantiate_eq_eval (he.instantiate hσ), Equation.instantiate_eq_eval he,
      Equation.instantiate_eq_eval he, Equation.map, Substitution.eval_extend hσ ht hx he.1.1,
      Substitution.eval_extend hσ ht hx he.2.1]
    rfl
  cases h : (standard order).opened σ e with
  | some q =>
      obtain ⟨rfl, -⟩ := opened_eq_some_iff.mp h
      rw [Option.bind_some, opened, opened, heq]
  | none =>
      -- equal sides stay equal
      have hsame := Equation.truth_eq_true_iff.mp (opened_eq_none_iff.mp h)
      rw [Option.bind_none, opened_eq_none_iff, heq, Equation.truth_eq_true_iff,
        Equation.instantiate_eq_map, Equation.map_left, Equation.map_right, hsame]

lemma opened_opened (hσ : σ.Neat neg) (hac : σ.Acyclic) (he : e.Neat neg) :
    ((standard order).opened σ e).bind ((standard order).opened σ) =
      (standard order).opened σ e := by
  cases h : (standard order).opened σ e with
  | none => rfl
  | some q =>
      obtain ⟨rfl, ht⟩ := opened_eq_some_iff.mp h
      rw [Option.bind_some, opened_eq_some_iff]
      refine ⟨?_, ht⟩
      rw [Equation.instantiate_eq_eval (he.instantiate hσ), Equation.instantiate_eq_eval he,
        Equation.map, Equation.map, Substitution.eval_eval hσ hac he.1.1,
        Substitution.eval_eval hσ hac he.2.1]

/-- What is open under an extended store, and was open before, is open anyway. -/
lemma opened_extend_opened (hσ : σ.Neat neg) (hac : σ.Acyclic) (ht : t.Neat neg) (hx : x ∉ σ.keys)
    (he : e.Neat neg) :
    ((standard order).opened σ e).bind
        ((standard order).opened ((standard order).extend σ x t)) =
      (standard order).opened ((standard order).extend σ x t) e := by
  have hinner : ∀ q, (standard order).opened σ e = some q →
      (standard order).opened ((standard order).extend σ x t) q =
        ((standard order).opened σ q).bind
          ((standard order).opened (.single x t)) := fun q hq =>
    opened_extend hσ ht hx (opened_neat he hσ hq)
  rw [Option.bind_congr hinner, ← Option.bind_assoc, opened_opened hσ hac he,
    ← opened_extend hσ ht hx he]

section Opens

variable (hσ : σ.Neat neg) (ht : t.Neat neg) (hx : x ∉ σ.keys)
include hσ ht hx

/-- The equations that are open under an extended store depend on those that were open before. -/
theorem opens_extend (hes : ∀ e ∈ es, e.Neat neg) :
    (standard order).opens ((standard order).extend σ x t) es =
      (standard order).opens (.single x t) ((standard order).opens σ es).toList := by
  calc (standard order).opens ((standard order).extend σ x t) es
      = .ofList ((es.filterMap ((standard order).opened σ)).filterMap
          ((standard order).opened (.single x t))) := by
        rw [List.filterMap_filterMap]
        exact congrArg EquationSet.ofList
          (List.filterMap_congr fun e he => opened_extend hσ ht hx (hes e he))
    _ = (standard order).opens (.single x t)
          ((standard order).opens σ es).toList := (opens_ofList _).symm

/-- A pass that finds a binding loses nothing of what is open under the extended store. -/
lemma opens_kept (hac : σ.Acyclic) (hes : ∀ e ∈ pre ++ p :: post, e.Neat neg)
    (hpre : ∀ e ∈ pre, (standard order).Passes σ e)
    (hb : (p.instantiate (standard order).evaluate σ).binding? order = some (x, t)) :
    (standard order).opens ((standard order).extend σ x t)
        ((EquationSet.ofList ((standard order).remaining σ pre)).insertAll post).toList =
      (standard order).opens ((standard order).extend σ x t) (pre ++ p :: post) := by
  have hp : p.Neat neg := hes p (by simp)
  -- the equation that gives the binding is true from then on
  have hsolved : (standard order).opened ((standard order).extend σ x t) p = none := by
    have hocc := (Equation.binding?_eq_some_iff.mp hb).2
    have hvar : (Substitution.single x t).eval (.var x) = t := by
      rw [Substitution.eval, Substitution.apply_var, Substitution.find?_single, if_pos rfl,
        Option.getD_some, ht.2.evaluate_eq]
    have hvalue : (Substitution.single x t).eval t = t := by
      rw [Substitution.eval, apply_eq_self ht.2.canonical fun y hy hk => hocc ?_, ht.2.evaluate_eq]
      rw [Substitution.keys_single, List.mem_singleton] at hk
      exact hk ▸ hy
    rw [opened_extend hσ ht hx hp]
    refine Option.bind_eq_none_iff.mpr fun q hq => ?_
    obtain ⟨rfl, -⟩ := opened_eq_some_iff.mp hq
    rw [opened_eq_none_iff, Equation.instantiate_eq_eval (hp.instantiate hσ),
      Equation.truth_eq_true_iff]
    rcases Equation.binding?_cases hb with heq | heq <;>
      rw [heq, Equation.map_left, Equation.map_right, hvar, hvalue]
  have hremaining : (remaining (standard order) σ pre).filterMap
      ((standard order).opened ((standard order).extend σ x t)) =
      pre.filterMap
        ((standard order).opened ((standard order).extend σ x t)) := by
    rw [remaining_eq_filterMap hpre, List.filterMap_filterMap]
    exact List.filterMap_congr fun e he =>
      opened_extend_opened hσ hac ht hx (hes e (List.mem_append_left _ he))
  rw [opens_insertAll, opens_append, opens_ofList, opens_append, opens, opens, hremaining,
    List.filterMap_cons, hsolved]

end Opens

lemma opens_opens (hσ : σ.Neat neg) (hac : σ.Acyclic) (hes : ∀ e ∈ es, e.Neat neg) :
    (standard order).opens σ ((standard order).opens σ es).toList =
      (standard order).opens σ es := by
  calc (standard order).opens σ ((standard order).opens σ es).toList
      = .ofList ((es.filterMap ((standard order).opened σ)).filterMap
          ((standard order).opened σ)) := opens_ofList _
    _ = (standard order).opens σ es := by
        rw [List.filterMap_filterMap]
        exact congrArg EquationSet.ofList
          (List.filterMap_congr fun e he => opened_opened hσ hac (hes e he))

lemma opens_neat (hσ : σ.Neat neg) (hes : ∀ e ∈ es, e.Neat neg) :
    ∀ q ∈ ((standard order).opens σ es).toList, q.Neat neg := by
  intro q hq
  obtain ⟨e, he, hq⟩ := List.mem_filterMap.mp (EquationSet.mem_ofList.mp hq)
  exact opened_neat (hes e he) hσ hq

end Theory

/-! ### Constraints -/

namespace Constraint

variable {c d : Constraint}

/-- The constraint is not false, its store is acyclic, and its terms are evaluated, with one negation
and no maps. -/
structure Neat (neg : Symbol) (c : Constraint) : Prop where
  undecided : c.isFalse = false
  acyclic : c.store.Acyclic
  store : c.store.Neat neg
  equations : ∀ e ∈ c.equations.toList, e.Neat neg

/-- The two constraints have the same verdict and bindings, and unless they are false the same
equations. -/
structure Concurs (c d : Constraint) : Prop extends c.Alike d where
  equations : c.isFalse = false → c.equations = d.equations

lemma Concurs.symm (h : c.Concurs d) : d.Concurs c :=
  ⟨⟨h.isFalse.symm, h.contradiction.symm, h.store.symm⟩, fun hd =>
    (h.equations (h.isFalse.trans hd)).symm⟩

lemma Concurs.trans {a : Constraint} (h : c.Concurs d) (h' : d.Concurs a) : c.Concurs a :=
  ⟨⟨h.isFalse.trans h'.isFalse, h.contradiction.trans h'.contradiction, h.store.trans h'.store⟩,
    fun hc => (h.equations hc).trans (h'.equations (h.isFalse ▸ hc))⟩

namespace Neat

lemma setEquations {E : EquationSet} (h : c.Neat neg) (hE : ∀ e ∈ E.toList, e.Neat neg) :
    ({ c with equations := E }).Neat neg := ⟨h.undecided, h.acyclic, h.store, hE⟩

lemma insertAll (h : c.Neat neg) (hes : ∀ e ∈ es, e.Neat neg) :
    ({ c with equations := c.equations.insertAll es }).Neat neg :=
  h.setEquations fun e he => (EquationSet.mem_insertAll.mp he).elim (h.equations e) (hes e)

/-- A binding that is found in the course of a pass is for a new variable. Composition works it into
the store, or comes upon a contradiction. -/
lemma of_binding (h : c.Neat neg) (hsplit : c.equations.toList = pre ++ p :: post)
    (hp : (p.instantiate (Theory.standard order).evaluate c.store).truth order = .unknown)
    (hb : (p.instantiate (Theory.standard order).evaluate c.store).binding? order = some (x, t)) :
    x ∉ c.store.keys ∧ t.Neat neg ∧ ((Theory.standard order).extend c.store x t).Acyclic ∧
      ∀ d, compose (.standard order) c x t = .ok d → d.isFalse = false →
        d = { c with store := (Theory.standard order).extend c.store x t } := by
  have hpneat : p.Neat neg := h.equations p (by simp [hsplit])
  have hσ : (Fragment.uniform order neg).MemSubst c.store := fun b hb =>
    ⟨⟨⟨.var b.1, .var b.1⟩, trivial⟩, (h.store b hb).1, fun _ _ => trivial⟩
  have hmem : (Fragment.uniform order neg).MemEq p :=
    ⟨⟨hpneat.1.1, fun _ _ => trivial⟩, hpneat.2.1, fun _ _ => trivial⟩
  obtain ⟨hbinds, hx, hvars, hocc⟩ := Fragment.fresh_of_binding hσ h.acyclic hmem hp hb
  have hinst : (p.instantiate (Theory.standard order).evaluate c.store).Neat neg :=
    hpneat.instantiate h.store
  have hself : ∀ b ∈ c.store.toList,
      (Theory.standard order).instantiate (.single x t) b.2 ≠ .var b.1 := fun b hb' heq =>
    not_mem_keys_of_extend hσ h.acyclic hbinds hvars hb' (y := b.1) (by simp [heq])
      (Substitution.mem_keys_of_mem hb')
  refine ⟨hx, ?_, acyclic_extend hσ h.acyclic hbinds hvars hocc, fun d hd hopen => ?_⟩
  · rcases Equation.binding?_cases hb with heq | heq <;> rw [heq] at hinst
    · exact hinst.2
    · exact hinst.1
  · rcases compose_cases h.undecided hx hself with hc | ⟨σ, b, -, -, -, hc⟩ <;> rw [hc] at hd <;>
      cases hd
    · rfl
    · exact absurd hopen (by simp [isFalse_falsify])

/-- Such a binding leaves fewer equations, of which the same are open under the extended store. -/
lemma next (h : c.Neat neg) {q : Equation}
    (hq : (Theory.standard order).first? c.store c.equations.toList = some q)
    (hf : q.truth order ≠ .false) :
    ∃ x t E, q.binding? order = some (x, t) ∧ x ∉ c.store.keys ∧ t.Neat neg ∧
      E.size < c.equations.size ∧
      (Theory.standard order).opens ((Theory.standard order).extend c.store x t) E.toList =
        (Theory.standard order).opens ((Theory.standard order).extend c.store x t)
          c.equations.toList ∧
      (renormalize (.standard order) c = (compose (.standard order) c x t).bind fun d =>
        if d.isFalse then .ok { d with equations := E }
        else renormalize (.standard order) { d with equations := E }) ∧
      ∀ d, compose (.standard order) c x t = .ok d → d.isFalse = false →
        d.store = (Theory.standard order).extend c.store x t ∧
          ({ d with equations := E }).Neat neg := by
  obtain ⟨pre, p, post, x, t, hsplit, hpre, rfl, hunknown, hb, hrun⟩ := renormalize_of_binding hq hf
  obtain ⟨hx, ht, hac, hcompose⟩ := h.of_binding hsplit hunknown hb
  have hes : ∀ e ∈ pre ++ p :: post, e.Neat neg := hsplit ▸ h.equations
  refine ⟨x, t, _, hb, hx, ht, size_kept_lt hsplit, ?_, hrun, fun d hd hopen => ?_⟩
  · rw [hsplit]
    exact Theory.opens_kept h.store ht hx h.acyclic hes hpre hb
  · obtain rfl := hcompose d hd hopen
    refine ⟨rfl, h.undecided, hac, h.store.extend ht, fun e he => ?_⟩
    rcases mem_kept.mp he with ⟨r, hr, rfl, -⟩ | he
    · exact (hes r (List.mem_append_left _ hr)).instantiate h.store
    · exact hes e (List.mem_append_right _ (List.mem_cons_of_mem _ he))

end Neat

/-- Solving depends on the store and on the equations that are open under it. -/
theorem renormalize_concurs (order : SortOrder) (hc : c.Neat neg) (hd : d.Neat neg) (h : c.Alike d)
    (hopens : (Theory.standard order).opens c.store c.equations.toList =
      (Theory.standard order).opens c.store d.equations.toList) :
    ∃ a b, renormalize (.standard order) c = .ok a ∧ renormalize (.standard order) d = .ok b ∧
      a.Concurs b := by
  -- each binding found uses up an equation
  induction hn : c.equations.size using Nat.strongRecOn generalizing c d with
  | _ n ih =>
      have hfirst := Theory.first?_congr hopens
      cases hq : (Theory.standard order).first? c.store c.equations.toList with
      | none =>
          rw [hq] at hfirst
          have hfirst' := h.store ▸ hfirst.symm
          refine ⟨_, _, renormalize_of_none hq, renormalize_of_none hfirst', h.setEquations _ _,
            fun _ => ?_⟩
          exact hopens.trans (h.store ▸ rfl)
      | some q =>
          rw [hq] at hfirst
          have hfirst' := h.store ▸ hfirst.symm
          by_cases hf : q.truth order = .false
          · obtain ⟨E, hE⟩ := renormalize_of_false hq hf
            obtain ⟨F, hF⟩ := renormalize_of_false hfirst' hf
            refine ⟨_, _, hE, hF, (h.setEquations E F).falsify q, fun hopen => ?_⟩
            exact absurd hopen (by simp [isFalse_falsify])
          · obtain ⟨x, t, E, hb, hx, ht, hsize, hE, hrun, hnext⟩ := hc.next hq hf
            obtain ⟨_, _, F, hb', -, -, -, hF, hrun', hnext'⟩ := hd.next hfirst' hf
            cases hb.symm.trans hb'
            obtain ⟨a, b, ha, hb, hab⟩ := h.compose (T := .standard order) (t := t) hx
            rw [hrun, hrun', ha, hb, Except.bind, Except.bind, ← hab.isFalse]
            split
            · next hfalse =>
                refine ⟨_, _, rfl, rfl, hab.setEquations E F, fun hopen => ?_⟩
                exact absurd (hfalse.symm.trans hopen) Bool.noConfusion
            · next hopen =>
                have hopen : a.isFalse = false := Bool.not_eq_true _ ▸ hopen
                obtain ⟨hstore, hneat⟩ := hnext a ha hopen
                obtain ⟨-, hneat'⟩ := hnext' b hb (hab.isFalse ▸ hopen)
                refine ih _ (hn ▸ hsize) hneat hneat' (hab.setEquations E F) ?_ rfl
                calc (Theory.standard order).opens a.store E.toList
                    = (Theory.standard order).opens ((Theory.standard order).extend c.store x t)
                        c.equations.toList := hstore ▸ hE
                  _ = (Theory.standard order).opens ((Theory.standard order).extend c.store x t)
                        d.equations.toList := by
                      rw [Theory.opens_extend hc.store ht hx hc.equations, hopens,
                        Theory.opens_extend hc.store ht hx hd.equations]
                  _ = (Theory.standard order).opens a.store F.toList := by
                      rw [hstore, h.store, hF]

/-- To solve equations, and then others together with what is left of them, is to solve all of them
at once. -/
theorem renormalize_insertAll (order : SortOrder) (hc : c.Neat neg) (hes : ∀ e ∈ es, e.Neat neg) :
    ∃ a b, renormalize (.standard order) { c with equations := c.equations.insertAll es } = .ok a ∧
      renormalize (.standard order) c = .ok b ∧
      (b.isFalse = true → a.Concurs b) ∧
      (b.isFalse = false → b.Neat neg ∧
        ∃ d, renormalize (.standard order) { b with equations := b.equations.insertAll es } = .ok d ∧
          a.Concurs d) := by
  -- each binding found uses up an equation
  induction hn : c.equations.size using Nat.strongRecOn generalizing c with
  | _ n ih =>
      have hall := hc.insertAll hes
      have halike : ({ c with equations := c.equations.insertAll es }).Alike c := ⟨rfl, rfl, rfl⟩
      cases hq : (Theory.standard order).first? c.store c.equations.toList with
      | none =>
          have hneat : ({ c with equations :=
              (Theory.standard order).opens c.store c.equations.toList }).Neat neg :=
            hc.setEquations (Theory.opens_neat hc.store hc.equations)
          have hopens : (Theory.standard order).opens c.store (c.equations.insertAll es).toList =
              (Theory.standard order).opens c.store
                (((Theory.standard order).opens c.store c.equations.toList).insertAll es).toList := by
            rw [Theory.opens_insertAll, Theory.opens_insertAll, Theory.opens_append,
              Theory.opens_append, Theory.opens_opens hc.store hc.acyclic hc.equations]
          obtain ⟨a, d, ha, hd, had⟩ := renormalize_concurs order hall (hneat.insertAll hes)
            (halike.setEquations _ _) hopens
          refine ⟨a, _, ha, renormalize_of_none hq, fun hf => ?_, fun _ => ⟨hneat, d, hd, had⟩⟩
          exact absurd (hc.undecided.symm.trans hf) Bool.false_ne_true
      | some q =>
          have hq' := Theory.first?_insertAll hq es
          by_cases hf : q.truth order = .false
          · obtain ⟨E, hE⟩ := renormalize_of_false hq hf
            obtain ⟨F, hF⟩ := renormalize_of_false (c := { c with equations := _ }) hq' hf
            refine ⟨_, _, hF, hE, fun _ => ⟨(halike.setEquations F E).falsify q, fun hopen => ?_⟩,
              fun hopen => ?_⟩
            all_goals exact absurd hopen (by simp [isFalse_falsify])
          · obtain ⟨x, t, E, hb, hx, ht, hsize, hE, hrun, hnext⟩ := hc.next hq hf
            obtain ⟨_, _, F, hb', -, -, -, hF, hrun', hnext'⟩ := hall.next hq' hf
            cases hb.symm.trans hb'
            obtain ⟨a, b, ha, hb, hab⟩ := halike.compose (T := .standard order) (t := t) hx
            rw [hrun, hrun', ha, hb, Except.bind, Except.bind, hab.isFalse]
            split
            · next hfalse =>
                refine ⟨_, _, rfl, rfl, fun _ => ⟨hab.setEquations F E, fun hopen => ?_⟩,
                  fun hopen => ?_⟩
                · exact absurd ((hab.isFalse.symm.trans hopen).symm.trans hfalse) Bool.noConfusion
                · exact absurd (hfalse.symm.trans hopen) Bool.noConfusion
            · next hopen =>
                have hopen : b.isFalse = false := Bool.not_eq_true _ ▸ hopen
                obtain ⟨hstore, hneat⟩ := hnext b hb hopen
                obtain ⟨hstore', hneat'⟩ := hnext' a ha (hab.isFalse ▸ hopen)
                have hopens : (Theory.standard order).opens a.store F.toList =
                    (Theory.standard order).opens a.store (E.insertAll es).toList := by
                  rw [hstore', hF, Theory.opens_insertAll, Theory.opens_insertAll,
                    Theory.opens_append, Theory.opens_append, hE]
                obtain ⟨a', b', ha', hb', hab'⟩ := renormalize_concurs order hneat' (hneat.insertAll hes)
                  (hab.setEquations F (E.insertAll es)) hopens
                obtain ⟨d, r, hd, hr, hfalse, hlater⟩ := ih _ (hn ▸ hsize) hneat rfl
                cases hb'.symm.trans hd
                exact ⟨a', r, ha', hr, fun hf => hab'.trans (hfalse hf), fun hf =>
                  ⟨(hlater hf).1, (hlater hf).2.imp fun e he => ⟨he.1, hab'.trans he.2⟩⟩⟩

end Constraint

end SolvedForm

import SolvedForm.Proofs.Constraint.Stored
import SolvedForm.Proofs.Constraint.Termination
import SolvedForm.Proofs.Fragment.MapFree
import SolvedForm.Proofs.Size
import SolvedForm.Proofs.Term.Canonical

/-!
What simplification of constraints over terms without frames weighs.

* `Constraint.weight`: the weight of the open equations of a constraint.
* `Constraint.round_weight`: a round finds an equation false, changes nothing, collects an equation
  that can be read as a binding, or makes the constraint lighter.
* `Constraint.normalize_weight`: the normal form after it is false, has more bindings, or has the
  same store and no more weight.
* `Constraint.simplifySince_weight`, `Constraint.satisfiable_weight`: a solved alternative brings a
  binding that can be read off it, or no more weight than its equations.
-/

namespace SolvedForm

open Equation

variable {order : SortOrder}

/-! ### Equations that can be read as bindings -/

/-- The equation can be read as a binding. -/
def Equation.Readable (order : SortOrder) (e : Equation) : Prop := e.binding? order ≠ none

lemma Equation.Readable.ne {e : Equation} (h : e.Readable order) : e.left ≠ e.right := by
  obtain ⟨⟨x, t⟩, hb⟩ := Option.ne_none_iff_exists'.mp h
  have hocc := (binding?_eq_some_iff.mp hb).2
  rcases binding?_cases hb with rfl | rfl
  · rintro (rfl : .var x = t)
    exact hocc List.mem_cons_self
  · rintro (rfl : t = .var x)
    exact hocc List.mem_cons_self

/-- A binding read off an equation can be read off itself. -/
lemma Equation.readable_of_binding {e : Equation} {x : Var} {t : Term}
    (h : e.binding? order = some (x, t)) : Readable order ⟨.var x, t⟩ := by
  obtain ⟨horient, hocc⟩ := binding?_eq_some_iff.mp h
  rcases orient_cases horient with rfl | rfl
  · simp [Readable, h]
  · have readable {b : Var × Term} (hb : orient order ⟨.var x, t⟩ = some b) (hb' : b.1 ∉ b.2.vars) :
        Readable order ⟨.var x, t⟩ := by
      rw [Readable, binding?_eq_some_iff.mpr ⟨hb, hb'⟩]
      simp
    cases t with
    | var y =>
        have hne : y ≠ x := by simpa [eq_comm] using hocc
        have turned : x ∉ (Term.var y).vars ∧ y ∉ (Term.var x).vars := by
          simpa using ⟨hne.symm, hne⟩
        unfold orient at horient readable
        cases hxy : order.le x.sort y.sort <;> cases hyx : order.le y.sort x.sort <;>
          simp only [hxy, hyx] at horient readable
        · cases horient
        · exact readable rfl turned.1
        · exact readable rfl turned.2
        · split at readable
          · exact readable rfl turned.2
          · exact readable rfl turned.1
    | _ => exact readable (b := (x, _)) rfl hocc

/-- A binding to a term that is evaluated gives itself to other constraints. -/
lemma obligations_binding {x : Var} {t : Term} (ht : t.Reduced) :
    (Theory.standard order).obligations ⟨.var x, t⟩ = [⟨.var x, t⟩] := by
  have hsplit : Equation.split ⟨.var x, t⟩ = [⟨.var x, t⟩] := by
    unfold Equation.split
    split
    · next h => rw [show t = .bool true from h]; rfl
    · exact if_neg fun h => nomatch h.1
  have heval : (Theory.standard order).evaluated ⟨.var x, t⟩ = ⟨.var x, t⟩ :=
    congrArg (Equation.mk (.var x)) ht.evaluate_eq
  rw [Theory.obligations, hsplit, List.map_singleton, heval]

/-- Terms without frames are stored when they have been evaluated. -/
lemma Theory.stores_reduced (order : SortOrder) :
    (Theory.standard order).Stores Term.Frameless fun t => t.Frameless ∧ t.Reduced where
  of_stored := And.left
  mem_var := .var
  mem_true := .bool true
  mem_conjuncts := hereditary_frameless.conjuncts
  evaluate ht := ⟨ht.evaluate, Term.reduced_evaluate _⟩
  apply hσ _ ht :=
    ht.1.apply fun x u hu => (hσ (x, u) (Substitution.mem_toList_iff.mpr hu)).1
  unique hl hr h := Decomposition.structural_unique hereditary_frameless hl.1 hr.1 h
  disjunction hl hr h := Decomposition.structural_disjunction hereditary_frameless hl.1 hr.1 h

namespace Constraint

variable {T : Theory} {F : Fragment T} {S : Var → Prop} {a b c d : Constraint}
  {kept : EquationSet} {e : Equation} {es : List Equation} {fold : Bool} {fuel n m : Nat}
  {last : Option Snapshot}

/-- The weight of the equations, those in the buffer included. -/
def weight (c : Constraint) : Nat :=
  totalWeight c.equations.toList + totalWeight c.buffer.toList

/-- No equation, in the buffer or not, mentions a variable that is bound. -/
def Untouched (c : Constraint) : Prop :=
  ∀ e ∈ c.equations.toList ++ c.buffer.toList, ∀ x,
    x ∈ e.left.vars ∨ x ∈ e.right.vars → x ∉ c.store.keys

/-! ### One round -/

/-- What a constraint gives to another one is not heavier than the equations, or some of it can be
read as a binding. -/
def Lightens (order : SortOrder) (es qs : List Equation) : Prop :=
  totalWeight qs ≤ totalWeight es ∨ ∃ q ∈ qs, q.Readable order

/-- What a round over equations between terms without frames has come to: an equation is false,
nothing has changed, something can be read as a binding, or the constraint is lighter. -/
inductive RoundEnd (order : SortOrder) (S : Var → Prop) (c : Constraint) (kept : EquationSet)
    (es : List Equation) (a : Constraint) : Prop where
  | false : a.isFalse = true → RoundEnd order S c kept es a
  | collected : (∀ e ∈ c.buffer.toList, e ∈ a.buffer.toList) →
      (∀ e ∈ a.equations.toList ++ a.buffer.toList, (Fragment.framelessOver order S).MemEq e) →
      (a = c.putBack (kept.insertAll es) ∨ (∃ q ∈ a.buffer.toList, q.Readable order) ∨
        a.weight < totalWeight kept.toList + totalWeight es + totalWeight c.buffer.toList) →
      RoundEnd order S c kept es a

/-- A round over equations between terms without frames finds one of them false, or it keeps all of
them and does nothing else, or it collects an equation that can be read as a binding, or the
constraint gets lighter. -/
theorem round_weight {solve : List (List Equation) → Engine (List Constraint)}
    (hsolve : ∀ as k ds l,
      (∀ es ∈ as, ∀ e ∈ es, (Fragment.framelessOver order S).MemEq e) →
      solve as k = .ok (ds, l) → ∀ d ∈ ds, d.Within (.framelessOver order S) ∧
        ∃ es ∈ as, Lightens order es (d.content (.standard order)))
    (hc : c.Collecting)
    (hbuffer : ∀ e ∈ c.buffer.toList, (Fragment.framelessOver order S).MemEq e)
    (hkept : ∀ e ∈ kept.toList, (Fragment.framelessOver order S).MemEq e)
    (hes : ∀ e ∈ es, (Fragment.framelessOver order S).MemEq e)
    (h : c.round (.standard order) fold solve kept es n = .ok (a, m)) :
    RoundEnd order S c kept es a := by
  induction es generalizing c kept n with
  | nil =>
      obtain ⟨rfl, -⟩ := Engine.pure_eq_ok.mp h
      exact .collected (fun _ => id) (fun e he => (List.mem_append.mp he).elim (hkept e) (hbuffer e))
        (.inl rfl)
  | cons e es ih =>
      rw [List.forall_mem_cons] at hes
      -- something else has come of the equation
      have goes_on : ∀ {b : Constraint} {k : Nat} (qs : List Equation),
          (b.Collecting ∧ b.buffer = c.buffer.insertAll qs) →
          (∀ q ∈ qs, (Fragment.framelessOver order S).MemEq q) →
          (totalWeight qs < e.weight ∨ ∃ q ∈ qs, q.Readable order) →
          b.round (.standard order) fold solve kept es k = .ok (a, m) →
          RoundEnd order S c kept (e :: es) a := by
        rintro b k qs ⟨hb, hbuf⟩ hqs hlight h
        have hmem : ∀ q, q ∈ b.buffer.toList ↔ q ∈ c.buffer.toList ∨ q ∈ qs := fun q => by
          rw [hbuf, EquationSet.mem_insertAll]
        have hle := EquationSet.totalWeight_insertAll_le c.buffer qs
        rw [← hbuf] at hle
        cases ih hb (fun q hq => ((hmem q).mp hq).elim (hbuffer q) (hqs q)) hkept hes.2 h with
        | false hf => exact .false hf
        | collected hsub hopen hres =>
            refine .collected (fun q hq => hsub q ((hmem q).mpr (.inl hq))) hopen (.inr ?_)
            rcases hlight with hlt | ⟨q, hq, hr⟩
            · refine hres.elim (fun heq => .inr ?_) (Or.imp_right fun hlt' => ?_)
              · have hins := EquationSet.totalWeight_insertAll_le kept es
                subst heq
                rw [totalWeight_cons]
                change totalWeight (kept.insertAll es).toList + totalWeight b.buffer.toList < _
                omega
              · rw [totalWeight_cons]
                omega
            · exact .inl ⟨q, hsub q ((hmem q).mpr (.inr hq)), hr⟩
      have hc' : ({ c with normal := false }).Collecting := ⟨hc.undecided, hc.guarded, hc.equations⟩
      obtain ⟨r, hrun, hdescends⟩ := Unifier.structural_descends order fold hes.1.1.1 hes.1.2.1
      have answer : ∀ {u : Unification} {k : Nat},
          (Theory.standard order).unifier fold e n = (.ok u, k) → u.Descends e := fun hu =>
        hdescends _ (Prod.mk.inj ((hrun n).symm.trans hu)).1
      have obligations : ∀ {ps : List Equation},
          (∀ p ∈ ps, (Fragment.framelessOver order S).MemEq p) →
          ∀ q ∈ ps.flatMap (Theory.standard order).obligations,
            (Fragment.framelessOver order S).MemEq q := fun hps q hq => by
        obtain ⟨p, hp, hq⟩ := List.mem_flatMap.mp hq
        exact Fragment.memEq_obligations (hps p hp) q hq
      rcases round_cases h with ⟨failure, -, rfl⟩ | ⟨k, -, h⟩ | ⟨parts, k, hne, hu, h⟩ |
        ⟨common, as, k, ds, l, hu, hds, h⟩
      · exact .false (isFalse_falsify _ _)
      · -- the equation is kept
        have hle := EquationSet.totalWeight_insert_le kept e
        cases ih hc hbuffer (fun q hq => (EquationSet.mem_insert.mp hq).elim (hkept q)
          fun hq => hq ▸ hes.1) hes.2 h with
        | false hf => exact .false hf
        | collected hsub hopen hres =>
            refine .collected hsub hopen (hres.imp_right (Or.imp_right fun hlt => ?_))
            rw [totalWeight_cons]
            omega
      · -- its parts go to the buffer
        exact goes_on _ (hc'.insertAll parts)
          (obligations ((Fragment.framelessOver order S).unique hes.1.1 hes.1.2 hu))
          (.inl ((totalWeight_flatMap_obligations_le order parts).trans_lt
            ((answer hu).resolve_left hne))) h
      · obtain ⟨hcommon, halternatives⟩ := answer hu
        have hmem := (Fragment.framelessOver order S).disjunction hes.1.1 hes.1.2 hu
        rw [List.forall_mem_cons] at hmem
        have hle := totalWeight_flatMap_obligations_le order common
        obtain ⟨hinsert, hbuf⟩ := hc'.insertAll (T := .standard order) common
        rcases h with ⟨-, rfl⟩ | ⟨d, rfl, h⟩ | ⟨b, rfl, h⟩
        · exact .false (isFalse_falsify _ _)
        · -- the only alternative joins them
          obtain ⟨hd, qs, hqs, hlight⟩ := hsolve as k _ l hmem.2 hds d List.mem_cons_self
          obtain ⟨hconjoin, hbuf'⟩ := hinsert.conjoin (T := .standard order) hd.over.consistent
          refine goes_on (common.flatMap (Theory.standard order).obligations ++
            d.content (.standard order)) ⟨hconjoin, ?_⟩ ?_ ?_ h
          · rw [hbuf', hbuf, EquationSet.insertAll, EquationSet.insertAll, EquationSet.insertAll,
              List.foldl_append]
          · exact List.forall_mem_append.mpr ⟨obligations hmem.1, hd.over.content⟩
          · rcases hlight with hlt | ⟨q, hq, hr⟩
            · have := halternatives qs hqs
              rw [totalWeight_append]
              exact .inl (by omega)
            · exact .inr ⟨q, List.mem_append_right _ hq, hr⟩
        · refine goes_on (common.flatMap (Theory.standard order).obligations) ?_
            (obligations hmem.1) (.inl (hle.trans_lt hcommon)) h
          exact ⟨⟨hinsert.undecided, hinsert.guarded, hinsert.equations⟩, hbuf⟩

/-! ### The normal form after a round -/

/-- Solving finds a falsehood, or passes over all equations, or a binding can be read off what it
leaves that was not there. -/
lemma renormalize_cases (hc : c.Within F) (hac : c.store.Acyclic) (h : renormalize T c = .ok b) :
    b.isFalse = true ∨
      ((∀ e ∈ c.equations.toList, T.Passes c.store e) ∧
        b = { c with equations := .ofList (T.remaining c.store c.equations.toList) }) ∨
      c.store.size < b.store.size ∧ ∃ e ∈ b.bindingEquations, e.Readable T.order := by
  induction hn : c.equations.size using Nat.strongRecOn generalizing c with
  | _ n ih =>
      have hr := renormalized hc.over hac
      rw [h] at hr
      generalize hb : (Except.ok b : Except Fault Constraint) = r at hr
      cases hr with
      | settled passes =>
          cases hb
          exact .inr (.inl ⟨passes, rfl⟩)
      | refuted =>
          cases hb
          exact .inl (isFalse_falsify _ _)
      | clash =>
          cases hb
          exact .inl (isFalse_falsify _ _)
      | @solved pre post p x t split passes hp hbind =>
          obtain ⟨hw, hac'⟩ := hc.extend hac split hp hbind
          have hmem : F.MemEq p := hc.over.equations p (by simp [split])
          obtain ⟨-, hx, -⟩ := fresh_of_binding hc.over hac hmem hp hbind
          have hsize := size_extend (T := T) (t := t) hx
          refine (ih _ (hn ▸ size_kept_lt split) hw hac' hb.symm rfl).imp_right fun hres => .inr ?_
          rcases hres with ⟨-, rfl⟩ | ⟨hlt, hread⟩
          · refine ⟨hsize ▸ Nat.lt_succ_self _, ⟨.var x, t⟩, ?_, readable_of_binding hbind⟩
            exact List.mem_map_of_mem (f := fun b : Var × Term => Equation.mk (.var b.1) b.2)
              (Substitution.mem_toList_insert.mpr (.inl rfl))
          · exact ⟨by dsimp only at hlt; omega, hread⟩

/-- Equations that mention no bound variable make a binding which can be read off the store, or they
become no heavier and none of them can be read as a binding, unless one of them is false. -/
theorem normalize_weight (hc : c.Ready F) (hfree : c.Untouched)
    (h : c.normalize T = .ok b) :
    b.isFalse = true ∨
      (c.store.size < b.store.size ∧ ∃ e ∈ b.bindingEquations, e.Readable T.order) ∨
      b.store = c.store ∧ totalWeight b.equations.toList ≤ c.weight ∧
        ∀ e ∈ c.equations.toList ++ c.buffer.toList, ¬ e.Readable T.order := by
  cases hn : c.normal with
  | true =>
      rw [normalize, if_pos (by simp [hn])] at h
      cases h
      have hnf := hc.settled hn
      refine .inr (.inr ⟨rfl, Nat.le_add_right _ _, fun e he hread => hread (hnf.unbound e ?_)⟩)
      simpa [hnf.drained] using he
  | false =>
      rw [normalize, if_neg (by simp [hc.within.over.undecided, hn, hc.unguarded])] at h
      have hdrain : ∀ e, e ∈ ({ c with normal := true }.drain).equations.toList ↔
          e ∈ c.equations.toList ++ c.buffer.toList := fun e =>
        EquationSet.mem_insertAll.trans List.mem_append.symm
      cases hb : renormalize T { c with normal := true }.drain with
      | error fault =>
          rw [hb] at h
          cases h
      | ok a =>
          rw [hb] at h
          cases h
          have hbind : a.updateTruth.bindingEquations = a.bindingEquations := by
            rw [bindingEquations, bindingEquations, store_updateTruth]
          rw [isFalse_updateTruth, store_updateTruth, equations_updateTruth, hbind]
          refine (renormalize_cases (hc.within.setNormal true).drain hc.acyclic hb).imp_right fun hres =>
            hres.symm.imp_right ?_
          rintro ⟨passes, rfl⟩
          have hself : ∀ e ∈ ({ c with normal := true }.drain).equations.toList,
              e.instantiate T.evaluate c.store = e := fun e he =>
            instantiate_eq_self (hfree e ((hdrain e).mp he))
          refine ⟨rfl, ?_, fun e he hread => ?_⟩
          · calc totalWeight _ ≤ totalWeight (T.remaining c.store _) := by
                  have hle := EquationSet.totalWeight_insertAll_le .empty (T.remaining c.store
                    ({ c with normal := true }.drain).equations.toList)
                  rwa [EquationSet.toList_empty, totalWeight_nil, Nat.zero_add] at hle
              _ ≤ totalWeight ({ c with normal := true }.drain).equations.toList := by
                  rw [Theory.remaining, List.map_congr_left hself, List.map_id']
                  exact totalWeight_filter_le _ _
              _ ≤ c.weight := EquationSet.totalWeight_insertAll_le c.equations c.buffer.toList
          · have hpass := passes e ((hdrain e).mpr he)
            unfold Theory.Passes at hpass
            change (e.instantiate T.evaluate c.store).truth T.order = .true ∨
              _ ∧ (e.instantiate T.evaluate c.store).binding? T.order = none at hpass
            rw [hself e ((hdrain e).mpr he)] at hpass
            exact hpass.elim (fun ht => hread.ne (truth_eq_true_iff.mp ht)) fun h => hread h.2

/-! ### Turns -/

/-- What simplification has made of a constraint: it is false, a binding can be read off it, or it
has the same bindings and is not heavier. -/
def Lightened (order : SortOrder) (c d : Constraint) : Prop :=
  d.isFalse = true ∨ (∃ e ∈ d.bindingEquations, e.Readable order) ∨
    d.store = c.store ∧ totalWeight d.equations.toList ≤ c.weight ∧
      ∀ e ∈ c.equations.toList ++ c.buffer.toList, ¬ e.Readable order

lemma weight_insertAll_le (c : Constraint) (es : List Equation) :
    (c.insertAll (.standard order) es).weight ≤ c.weight + totalWeight es := by
  have foldl_le : ∀ (qs : List Equation) (c : Constraint),
      (qs.foldl insertEquation c).weight ≤ c.weight + totalWeight qs := by
    intro qs
    induction qs with
    | nil => exact fun c => Nat.le_refl _
    | cons q qs ih =>
        intro c
        have hq : (c.insertEquation q).weight ≤ c.weight + q.weight := by
          unfold Constraint.weight
          rcases insertEquation_cases c q with ⟨h, -⟩ | ⟨-, -, h⟩ | ⟨-, -, h⟩ <;> rw [h]
          · exact Nat.le_add_right _ _
          · have := EquationSet.totalWeight_insert_le c.buffer q
            dsimp only
            omega
          · have := EquationSet.totalWeight_insert_le c.equations q
            dsimp only
            omega
        have hqs := ih (c.insertEquation q)
        rw [totalWeight_cons]
        exact hqs.trans (by omega)
  rw [insertAll_eq_foldl]
  exact (foldl_le _ c).trans (Nat.add_le_add_left (totalWeight_flatMap_obligations_le order es) _)

lemma ready_insertAll_empty (hes : ∀ e ∈ es, F.MemEq e) : (empty.insertAll T es).Ready F :=
  (normalForm_empty.ready within_empty).extends (extends_insertAll empty es)
    (within_empty.insertAll hes)

lemma untouched_insertAll_empty (es : List Equation) : (empty.insertAll T es).Untouched := by
  unfold Untouched
  rw [(extends_insertAll empty es).store]
  exact fun _ _ _ _ => by simp [empty]

/-- The alternatives that are not false are over the fragment, and each brings a binding that can be
read off it or is not heavier than its equations. -/
lemma satisfiable_weight (hsimplify : ∀ {c d : Constraint} {n m : Nat},
      c.Ready (.framelessOver order S) → c.Untouched →
      c.simplifySince (.standard order) fold fuel none n = .ok (d, m) → c.Lightened order d)
    {as : List (List Equation)} {ds : List Constraint}
    (has : ∀ es ∈ as, ∀ e ∈ es, (Fragment.framelessOver order S).MemEq e)
    (h : satisfiable (.standard order) fold fuel as n = .ok (ds, m)) :
    ∀ d ∈ ds, d.Within (.framelessOver order S) ∧
      ∃ es ∈ as, Lightens order es (d.content (.standard order)) := by
  intro d hd
  refine ⟨satisfiable_within (fun hc h => simplifySince_settled hc h) has h d hd, ?_⟩
  obtain ⟨cs, j, hcs, h⟩ := Engine.bind_eq_ok.mp h
  obtain ⟨rfl, -⟩ := Engine.pure_eq_ok.mp h
  obtain ⟨hd, hopen⟩ := List.mem_filter.mp hd
  obtain ⟨es, hes, i, i', hd⟩ := Engine.mem_of_mapM hcs d hd
  have hstore := (extends_insertAll (T := .standard order) empty es).store
  refine ⟨es, hes, ?_⟩
  rcases hsimplify (ready_insertAll_empty (has es hes)) (untouched_insertAll_empty es) hd with hf | ⟨e, he, hread⟩ | ⟨heq, hle, -⟩
  · simp [hf] at hopen
  · -- the value of the binding has been evaluated, so it is put in as it is
    have hstored := stored_simplifySince (G := fun _ => True) (Theory.stores_reduced order)
      (fun _ => trivial) (stored_empty.insertAll (Theory.stores_reduced order).toPreserves
        fun e he => ⟨(has es hes e he).1.1, (has es hes e he).2.1⟩) hd
    refine .inr ⟨e, List.mem_append_left _ (List.mem_flatMap.mpr ⟨e, he, ?_⟩), hread⟩
    obtain ⟨b, hb, rfl⟩ := List.mem_map.mp he
    rw [obligations_binding (hstored.store b hb).2]
    exact List.mem_singleton_self _
  · have hcontent : d.content (.standard order) = d.equations.toList := by
      rw [content, bindingEquations, heq, hstore]
      rfl
    rw [Lightens, hcontent]
    exact .inl (hle.trans ((weight_insertAll_le empty es).trans_eq (Nat.zero_add _)))

/-- A round over a normal form leads to a constraint that is false, or is in normal form again, or has
something that can be read as a binding, or is lighter. -/
theorem turn_weight (hsimplify : ∀ {c d : Constraint} {n m : Nat},
      c.Ready (.framelessOver order fun x => S x ∧ x ∉ b.store.keys) → c.Untouched →
      c.simplifySince (.standard order) fold fuel none n = .ok (d, m) → c.Lightened order d)
    (hw : b.Within (.framelessOver order S)) (hnf : b.NormalForm order)
    (ha : b.takeOut.round (.standard order) fold (satisfiable (.standard order) fold fuel) .empty
      b.equations.toList n = .ok (a, m)) :
    a.isFalse = true ∨ a.Ready (.framelessOver order S) ∧ a.Untouched ∧ a.store = b.store ∧
      (a = b ∨ (∃ q ∈ a.buffer.toList, q.Readable order) ∨
        a.weight < totalWeight b.equations.toList) := by
  have hes : ∀ e ∈ b.equations.toList,
      (Fragment.framelessOver order fun x => S x ∧ x ∉ b.store.keys).MemEq e := fun e he =>
    have hmem := hw.over.equations e he
    ⟨⟨hmem.1.1, fun x hx => ⟨hmem.1.2 x hx, hnf.untouched e he x (.inl hx)⟩⟩,
      ⟨hmem.2.1, fun x hx => ⟨hmem.2.2 x hx, hnf.untouched e he x (.inr hx)⟩⟩⟩
  have hsettled : ∀ as k ds l, (∀ es ∈ as, ∀ e ∈ es, (Fragment.framelessOver order S).MemEq e) →
      satisfiable (.standard order) fold fuel as k = .ok (ds, l) →
      ∀ a ∈ ds, a.Within (.framelessOver order S) :=
    fun _ _ _ _ => satisfiable_within fun hc h => simplifySince_settled hc h
  refine or_iff_not_imp_left.mpr fun haf => ?_
  obtain ⟨-, -, hstore, -⟩ := (round_result hsettled hw.takeOut (by simp) hw.over.equations
    ha).resolve_left fun hr => haf hr.1
  have hstore : a.store = b.store := hstore
  have hdrained : b.takeOut.buffer = .empty := hnf.drained
  cases round_weight (c := b.takeOut) (fun _ _ _ _ => satisfiable_weight hsimplify)
    ⟨hw.over.undecided, rfl, rfl⟩ (by simp [hdrained]) (by simp) hes ha with
  | false hf => exact absurd hf haf
  | collected _ hopen hres =>
      refine ⟨(round_sound hsettled hw hnf ha).resolve_left fun hr => haf hr.1, ?_, hstore, ?_⟩
      · unfold Untouched
        rw [hstore]
        exact fun e he x hx =>
          hx.elim (fun hx => ((hopen e he).1.2 x hx).2) fun hx => ((hopen e he).2.2 x hx).2
      · rw [putBack_takeOut hnf.unguarded] at hres
        simpa [hdrained] using hres

/-- Simplification makes a constraint false, or makes bindings of which one can be read off it, or
makes no binding and the constraint no heavier. -/
theorem simplifySince_weight (hc : c.Ready (.framelessOver order S)) (hfree : c.Untouched)
    (h : c.simplifySince (.standard order) fold fuel last n = .ok (d, m)) : c.Lightened order d := by
  induction fuel generalizing last c d n m S with
  | zero => exact absurd h Engine.throw_ne_ok
  | succ fuel ih =>
      obtain ⟨b, hb, h⟩ := simplifySince_cases h
      have hnormal := normalize_weight hc hfree hb
      -- what comes of the normal form comes of the constraint
      have of_normal : (b.isFalse = false → d.isFalse = true ∨
          (∃ e ∈ d.bindingEquations, e.Readable order) ∨ d.store = b.store ∧
            totalWeight d.equations.toList ≤ totalWeight b.equations.toList) →
          (b.isFalse = true → d = b) → c.Lightened order d := by
        intro hopen hfalse
        cases hbf : b.isFalse with
        | true => exact .inl (hfalse hbf ▸ hbf)
        | false =>
            refine (hopen hbf).imp_right fun hd => hd.elim .inl ?_
            rintro ⟨hstore, hle⟩
            rcases hnormal.resolve_left (by simp [hbf]) with ⟨-, hread⟩ | ⟨hstore', hle', hnone⟩
            · refine .inl ?_
              rwa [bindingEquations, hstore]
            · exact .inr ⟨hstore.trans hstore', hle.trans hle', hnone⟩
      rcases h with ⟨-, rfl, -⟩ | ⟨hopen, -, a, k, ha, h⟩
      · exact of_normal (fun _ => .inr (.inr ⟨rfl, Nat.le_refl _⟩)) fun _ => rfl
      · refine of_normal (fun hbf => ?_) fun hbf => by simp [isFalse, hopen] at hbf
        obtain ⟨hw, hnf⟩ := (settled_of_normalize (.inr hc) hb).resolve_left fun hr => by
          simp [hr.1] at hbf
        rcases h with ⟨haf, rfl, -⟩ | ⟨haf, h⟩
        · exact .inl haf
        · obtain ⟨haready, hauntouched, hastore, hres⟩ :=
            (turn_weight (fun hc hfree h => ih hc hfree h) hw hnf ha).resolve_left (by simp [haf])
          refine (ih haready hauntouched h).imp_right (Or.imp_right ?_)
          rintro ⟨hdstore, hle, hnone⟩
          refine ⟨hdstore.trans hastore, hle.trans ?_⟩
          rcases hres with rfl | ⟨q, hq, hread⟩ | hlt
          · simp [weight, hnf.drained]
          · exact absurd hread (hnone q (List.mem_append_right _ hq))
          · exact hlt.le

end Constraint

end SolvedForm

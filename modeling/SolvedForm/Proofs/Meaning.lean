import SolvedForm.Proofs.Constraint.Simplification

/-!
Solving keeps the solutions of a constraint.

* `Meaning`: a reading of the terms of a fragment as values that respects substitution,
  evaluation, the refutation of equations and unification.
* `Meaning.Sat`, `Meaning.SatAll`: the reading satisfies all bindings and equations of a
  constraint, for the latter those in its buffer as well.
* `Meaning.Truthful`: a constraint that is known to be false is not satisfied.
* `Meaning.satAll_insertAll`, `Meaning.sat_normalize`, `Meaning.sat_simplify`: what insertion,
  normalization and simplification do to satisfaction.
* `Meaning.decisive`, `Meaning.pending_of_simplifySince`: no disjunction comes up.
-/

namespace SolvedForm

/-- A reading of terms as values, under which every step of solving is an equivalence. -/
structure Meaning {T : Theory} (F : Fragment T) (V : Type) where
  /-- The value of a term. -/
  val : Term → V
  val_apply {σ : Substitution} (hσ : F.MemSubst σ)
    (hv : ∀ b ∈ σ.toList, val (.var b.1) = val b.2) {t : Term} : F.Mem t →
    val (σ.apply t) = val t
  val_evaluate {t : Term} : F.Mem t → val (T.evaluate t) = val t
  conjuncts {t : Term} : F.Mem t →
    ((∀ u ∈ t.conjuncts, val u = val (.bool true)) ↔ val t = val (.bool true))
  refuted {e : Equation} : F.MemEq e → e.truth T.order = .false → val e.left ≠ val e.right
  unique {e : Equation} {parts : List Equation} {n m : Nat} : F.MemEq e →
    T.unifier false e n = (.ok (.unique parts), m) →
    ((∀ q ∈ parts, val q.left = val q.right) ↔ val e.left = val e.right)
  disjunction {e : Equation} {common : List Equation} {alternatives : List (List Equation)}
    {n m : Nat} : F.MemEq e → T.unifier false e n ≠ (.ok (.disjunction common alternatives), m)
  failure {e : Equation} {failure : Unification.Failure} {n m : Nat} : F.MemEq e →
    T.unifier false e n = (.error failure, m) → val e.left ≠ val e.right

namespace Meaning

variable {T : Theory} {F : Fragment T} {V : Type} (M : Meaning F V)

/-- Both sides of the equation have the same value. -/
def Holds (e : Equation) : Prop := M.val e.left = M.val e.right

/-- Every bound variable has the value of the term it is bound to. -/
def Solves (σ : Substitution) : Prop := ∀ b ∈ σ.toList, M.val (.var b.1) = M.val b.2

/-- All bindings and equations hold. -/
def Sat (c : Constraint) : Prop := M.Solves c.store ∧ ∀ e ∈ c.equations.toList, M.Holds e

/-- All bindings and equations hold, and the equations that wait in the buffer. -/
def SatAll (c : Constraint) : Prop := M.Sat c ∧ ∀ e ∈ c.buffer.toList, M.Holds e

/-- If the constraint is known to be false, it is not satisfied. -/
def Truthful (c : Constraint) : Prop := c.isFalse = true → ¬ M.Sat c

variable {M} {σ : Substitution} {x : Var} {s t : Term} {e : Equation} {es : List Equation}
  {c d : Constraint}

/-! ### Instances and obligations -/

lemma val_instantiate (hσ : F.MemSubst σ) (hs : M.Solves σ) (ht : F.Mem t) :
    M.val (T.instantiate σ t) = M.val t := by
  unfold Theory.instantiate
  split
  · rw [M.val_evaluate (F.mem_apply hσ ht), M.val_apply hσ hs ht]
  · rfl

lemma holds_instantiate (hσ : F.MemSubst σ) (hs : M.Solves σ) (he : F.MemEq e) :
    M.Holds (e.instantiate T.evaluate σ) ↔ M.Holds e := by
  rw [Equation.instantiate_eq_map, Holds, Holds, Equation.map_left, Equation.map_right,
    val_instantiate hσ hs he.1, val_instantiate hσ hs he.2]

lemma holds_split (he : F.MemEq e) : (∀ q ∈ e.split, M.Holds q) ↔ M.Holds e := by
  unfold Equation.split
  split
  · next hr =>
      rw [List.forall_mem_map, Holds, hr]
      exact M.conjuncts he.1
  · split
    · next hl =>
        rw [List.forall_mem_map, Holds, hl.1, eq_comm]
        exact M.conjuncts he.2
    · simp

lemma holds_obligations (he : F.MemEq e) : (∀ q ∈ T.obligations e, M.Holds q) ↔ M.Holds e := by
  rw [← holds_split he, Theory.obligations, List.forall_mem_map]
  refine forall₂_congr fun q hq => ?_
  have hmem := Fragment.memEq_split he q hq
  rw [Holds, Holds, Theory.evaluated, Equation.map_left, Equation.map_right,
    M.val_evaluate hmem.1, M.val_evaluate hmem.2]

/-! ### Insertion -/

lemma solves_single : M.Solves (.single x t) ↔ M.val (.var x) = M.val t := by
  simp [Solves]

lemma satAll_insertEquation (hc : c.isFalse = false) :
    M.SatAll (c.insertEquation e) ↔ M.SatAll c ∧ M.Holds e := by
  have insert : ∀ {E : EquationSet}, (∀ q ∈ (E.insert e).toList, M.Holds q) ↔
      (∀ q ∈ E.toList, M.Holds q) ∧ M.Holds e := by
    intro E
    constructor
    · exact fun h => ⟨fun q hq => h q (EquationSet.mem_insert.mpr (.inl hq)),
        h e (EquationSet.mem_insert.mpr (.inr rfl))⟩
    · exact fun h q hq => (EquationSet.mem_insert.mp hq).elim (h.1 q) fun hq => hq ▸ h.2
  rcases Constraint.insertEquation_cases c e with ⟨h, hmem⟩ | ⟨-, -, h⟩ | ⟨-, -, h⟩ <;> rw [h]
  · refine ⟨fun hs => ⟨hs, ?_⟩, And.left⟩
    rcases hmem with hf | hmem | ⟨-, hmem⟩
    · exact absurd hf (by simp [hc])
    · exact hs.1.2 e hmem
    · exact hs.2 e hmem
  · rw [SatAll, SatAll, insert, and_assoc]
    rfl
  · simp only [SatAll, Sat]
    rw [insert, and_assoc, and_assoc, and_assoc, and_assoc, and_comm (b := M.Holds e)]

lemma isFalse_insertEquation (hc : c.isFalse = false) : (c.insertEquation e).isFalse = false := by
  rcases Constraint.insertEquation_cases c e with ⟨h, -⟩ | ⟨-, -, h⟩ | ⟨-, -, h⟩ <;> rw [h]
  · exact hc
  · rfl
  · rfl

lemma satAll_foldl (hc : c.isFalse = false) :
    M.SatAll (es.foldl Constraint.insertEquation c) ↔ M.SatAll c ∧ ∀ e ∈ es, M.Holds e := by
  induction es generalizing c with
  | nil => simp
  | cons e es ih =>
      rw [List.foldl_cons, ih (isFalse_insertEquation hc), satAll_insertEquation hc,
        List.forall_mem_cons, and_assoc]

/-- Inserting equations adds exactly their demands. -/
theorem satAll_insertAll (hc : c.isFalse = false) (hes : ∀ e ∈ es, F.MemEq e) :
    M.SatAll (c.insertAll T es) ↔ M.SatAll c ∧ ∀ e ∈ es, M.Holds e := by
  rw [Constraint.insertAll_eq_foldl, satAll_foldl hc, and_congr_right_iff]
  intro _
  constructor
  · exact fun h e he => (holds_obligations (hes e he)).mp fun q hq =>
      h q (List.mem_flatMap.mpr ⟨e, he, hq⟩)
  · intro h q hq
    obtain ⟨e, he, hq⟩ := List.mem_flatMap.mp hq
    exact (holds_obligations (hes e he)).mpr (h e he) q hq

/-! ### Solving -/

/-- The store extended by a binding is solved when the store is and the binding holds. -/
lemma solves_extend (hσ : F.MemSubst σ) (hb : F.Binds x t) (hx : x ∉ σ.keys) :
    M.Solves (T.extend σ x t) ↔ M.Solves σ ∧ M.val (.var x) = M.val t := by
  have values : M.val (.var x) = M.val t → ∀ b ∈ σ.toList,
      M.val (T.instantiate (.single x t) b.2) = M.val b.2 := fun h b hb' =>
    val_instantiate (Fragment.memSubst_single hb) (solves_single.mpr h) (F.mem_value (hσ b hb'))
  constructor
  · intro h
    have hxt : M.val (.var x) = M.val t :=
      h (x, t) (Substitution.mem_toList_insert.mpr (.inl rfl))
    refine ⟨fun b hb' => ?_, hxt⟩
    have hne : b.1 ≠ x := fun he => hx (he ▸ Substitution.mem_keys_of_mem hb')
    rw [← values hxt b hb']
    exact h (b.1, T.instantiate (.single x t) b.2) (Substitution.mem_toList_insert.mpr
      (.inr ⟨hne, List.mem_map.mpr ⟨b, hb', rfl⟩⟩))
  · rintro ⟨h, hxt⟩ b hb'
    rcases Substitution.mem_toList_insert.mp hb' with rfl | ⟨-, hb'⟩
    · exact hxt
    · obtain ⟨a, ha, rfl⟩ := List.mem_map.mp hb'
      exact (h a ha).trans (values hxt a ha).symm

/-- Equations passed over hold when those that stay open do. -/
lemma holds_remaining (hσ : F.MemSubst σ) (hs : M.Solves σ) (hes : ∀ e ∈ es, F.MemEq e)
    (passes : ∀ e ∈ es, T.Passes σ e) :
    (∀ q ∈ T.remaining σ es, M.Holds q) ↔ ∀ e ∈ es, M.Holds e := by
  constructor
  · intro h e he
    rw [← holds_instantiate hσ hs (hes e he)]
    rcases passes e he with ht | ⟨ht, -⟩
    · exact congrArg M.val (Equation.truth_eq_true_iff.mp ht)
    · exact h _ (Theory.mem_remaining.mpr ⟨e, he, rfl, ht⟩)
  · intro h q hq
    obtain ⟨e, he, rfl, -⟩ := Theory.mem_remaining.mp hq
    exact (holds_instantiate hσ hs (hes e he)).mpr (h e he)

lemma not_holds_of_false (he : F.MemEq e) (h : e.truth T.order = .false) : ¬ M.Holds e :=
  M.refuted he h

lemma sat_falsify (c : Constraint) (e : Equation) : M.Sat (c.falsify e) ↔ M.Sat c := by
  unfold Constraint.falsify
  split <;> rfl

/-- An equation that is read as a binding holds exactly when the binding does. -/
lemma holds_binding (h : e.binding? T.order = some (x, t)) :
    M.Holds e ↔ M.val (.var x) = M.val t := by
  rcases Equation.binding?_cases h with rfl | rfl
  · exact .rfl
  · exact eq_comm

/-- To put an equation that is read as a binding into the store keeps satisfaction. -/
lemma sat_extend {pre post : List Equation} {p : Equation} (hc : c.Within F)
    (hac : c.store.Acyclic) (split : c.equations.toList = pre ++ p :: post)
    (passes : ∀ e ∈ pre, T.Passes c.store e)
    (hp : (p.instantiate T.evaluate c.store).truth T.order = .unknown)
    (hbind : (p.instantiate T.evaluate c.store).binding? T.order = some (x, t)) :
    M.Sat { c with
      store := T.extend c.store x t
      equations := (EquationSet.ofList (T.remaining c.store pre)).insertAll post } ↔ M.Sat c := by
  have hσ := hc.over.store
  have hes : ∀ e ∈ pre ++ p :: post, F.MemEq e := split ▸ hc.over.equations
  have hmem := hes p (by simp)
  obtain ⟨hxt, hx, -⟩ := Constraint.fresh_of_binding hc.over hac hmem hp hbind
  have hval : M.Solves c.store → (M.val (.var x) = M.val t ↔ M.Holds p) := fun hs =>
    (holds_binding hbind).symm.trans (holds_instantiate hσ hs hmem)
  have hpre : M.Solves c.store →
      ((∀ q ∈ T.remaining c.store pre, M.Holds q) ↔ ∀ e ∈ pre, M.Holds e) := fun hs =>
    holds_remaining hσ hs (fun e he => hes e (List.mem_append_left _ he)) passes
  have hkept : (∀ q ∈ ((EquationSet.ofList (T.remaining c.store pre)).insertAll post).toList,
      M.Holds q) ↔ (∀ q ∈ T.remaining c.store pre, M.Holds q) ∧ ∀ q ∈ post, M.Holds q := by
    simp only [EquationSet.mem_insertAll, EquationSet.mem_ofList, or_imp, forall_and]
  rw [Sat, Sat, solves_extend hσ hxt hx, hkept, split, and_assoc]
  refine and_congr_right fun hs => ?_
  rw [hval hs, hpre hs, List.forall_mem_append, List.forall_mem_cons]
  exact and_left_comm

/-- Solving keeps satisfaction, and a contradiction that it finds is one. -/
theorem sat_renormalize (hc : c.Within F) (hac : c.store.Acyclic)
    (h : Constraint.renormalize T c = .ok d) : (M.Sat d ↔ M.Sat c) ∧ M.Truthful d := by
  induction hn : c.equations.size using Nat.strongRecOn generalizing c with
  | _ n ih =>
      have hr := Constraint.renormalized hc.over hac
      rw [h] at hr
      generalize hd : (Except.ok d : Except Fault Constraint) = r at hr
      have hσ := hc.over.store
      cases hr with
      | settled passes =>
          cases hd
          refine ⟨and_congr_right fun hs => ?_, fun hf => absurd hf (by
            simpa [Constraint.isFalse] using hc.over.undecided)⟩
          rw [← holds_remaining hσ hs hc.over.equations passes]
          exact forall_congr' fun q => by rw [EquationSet.mem_ofList]
      | @refuted pre post p split passes hp =>
          cases hd
          have hmem := hc.over.equations p (by simp [split])
          have hnot := not_holds_of_false (M := M) (Fragment.memEq_instantiate hσ hmem) hp
          have hnd : ¬ M.Sat ({ c with
              equations := ((EquationSet.ofList (T.remaining c.store pre)).insert
                (p.instantiate T.evaluate c.store)).insertAll post }.falsify
                  (p.instantiate T.evaluate c.store)) := by
            rw [sat_falsify]
            exact fun hs => hnot (hs.2 _ (EquationSet.mem_insertAll.mpr
              (.inl (EquationSet.mem_insert.mpr (.inr rfl)))))
          refine ⟨iff_of_false hnd fun hs => hnot ?_, fun _ => hnd⟩
          exact (holds_instantiate hσ hs.1 hmem).mpr (hs.2 p (by simp [split]))
      | @clash pre post p x t τ b split hp hbind hb hτ hf =>
          cases hd
          have hmem := hc.over.equations p (by simp [split])
          obtain ⟨hxt, -⟩ := Constraint.fresh_of_binding hc.over hac hmem hp hbind
          have hτx := Fragment.memSubst_single hxt
          have hnot : ¬ M.Holds ⟨.var b.1, T.instantiate (.single x t) b.2⟩ :=
            not_holds_of_false
              (Fragment.memEq_of_binds (Fragment.binds_instantiate hτx (hσ b hb))) hf
          have hnd : ¬ M.Sat ({ c with
              store := τ
              equations := (EquationSet.ofList (T.remaining c.store pre)).insertAll post }.falsify
                ⟨.var b.1, T.instantiate (.single x t) b.2⟩) := by
            rw [sat_falsify]
            exact fun hs => hnot (hs.1 (b.1, _) (Substitution.mem_toList_iff.mpr hτ))
          refine ⟨iff_of_false hnd fun hs => hnot ?_, fun _ => hnd⟩
          have hholds := (holds_instantiate hσ hs.1 hmem).mpr (hs.2 p (by simp [split]))
          have hval := (holds_binding hbind).mp hholds
          exact (hs.1 b hb).trans
            (val_instantiate hτx (solves_single.mpr hval) (F.mem_value (hσ b hb))).symm
      | @solved pre post p x t split passes hp hbind =>
          obtain ⟨hw, hac'⟩ := hc.extend hac split hp hbind
          obtain ⟨hsat, htrue⟩ := ih _ (hn ▸ Constraint.size_kept_lt split) hw hac' hd.symm rfl
          exact ⟨hsat.trans (sat_extend hc hac split passes hp hbind), htrue⟩

/-! ### Normalization -/

lemma sat_updateTruth (c : Constraint) : M.Sat c.updateTruth ↔ M.Sat c := by
  unfold Constraint.updateTruth
  split <;> rfl

/-- Normalization keeps satisfaction, the buffer included. -/
theorem sat_normalize (hc : c.Sound F) (htrue : M.Truthful c)
    (h : c.normalize T = .ok d) : (M.Sat d ↔ M.SatAll c) ∧ M.Truthful d := by
  unfold Constraint.normalize at h
  rcases hc with hr | hready
  · rw [if_pos (by simp [hr.1])] at h
    cases h
    exact ⟨iff_of_false (htrue hr.1) fun hs => htrue hr.1 hs.1, htrue⟩
  · by_cases hn : c.normal = true
    · rw [if_pos (by simp [hn])] at h
      cases h
      refine ⟨⟨fun hs => ⟨hs, ?_⟩, And.left⟩, htrue⟩
      rw [(hready.settled hn).drained]
      simp
    · rw [if_neg (by simp [hready.within.over.undecided, hn, hready.unguarded])] at h
      cases hb : Constraint.renormalize T { c with normal := true }.drain with
      | error fault =>
          rw [hb] at h
          cases h
      | ok b =>
          rw [hb] at h
          cases h
          obtain ⟨hsat, htrue'⟩ :=
            sat_renormalize (M := M) (hready.within.setNormal true).drain hready.acyclic hb
          refine ⟨(sat_updateTruth b).trans (hsat.trans ?_), fun hf => ?_⟩
          · simp only [Sat, SatAll, Constraint.drain, EquationSet.mem_insertAll, or_imp,
              forall_and, and_assoc]
          · rw [sat_updateTruth]
            exact htrue' (by rwa [Constraint.isFalse_updateTruth] at hf)

/-! ### Rounds -/

lemma satAll_putBack (hempty : c.equations = .empty) (E : EquationSet) :
    M.SatAll (c.putBack E) ↔ M.SatAll c ∧ ∀ e ∈ E.toList, M.Holds e := by
  simp only [SatAll, Sat, Constraint.putBack, hempty, EquationSet.toList_empty,
    List.not_mem_nil, false_implies, implies_true, and_true]
  exact and_right_comm

/-- A round without folding keeps satisfaction: the equations it kept and those still to come take
the place of the equations that have been taken out. -/
theorem sat_round {solve : List (List Equation) → Engine (List Constraint)} {kept : EquationSet}
    {n m : Nat} (hc : c.Within F) (hg : c.guarded = true) (hempty : c.equations = .empty)
    (hes : ∀ e ∈ es, F.MemEq e) (h : c.round T false solve kept es n = .ok (d, m)) :
    (M.SatAll d ↔ M.SatAll c ∧ (∀ e ∈ kept.toList, M.Holds e) ∧ ∀ e ∈ es, M.Holds e) ∧
      M.Truthful d := by
  induction es generalizing c kept n with
  | nil =>
      obtain ⟨rfl, rfl⟩ := Engine.pure_eq_ok.mp h
      exact ⟨by simpa using satAll_putBack hempty kept,
        fun hf => absurd (hc.over.undecided.symm.trans hf) Bool.false_ne_true⟩
  | cons e es ih =>
      rw [List.forall_mem_cons] at hes
      rcases Constraint.round_cases h with ⟨failure, hu, rfl⟩ | ⟨k, -, hrun⟩ |
        ⟨parts, k, -, hu, hrun⟩ | ⟨common, as, k, ds, l, hu, -⟩
      · have hnot : ¬ M.Holds e := M.failure hes.1 hu
        have hnd : ¬ M.Sat ((c.putBack ((kept.insert e).insertAll es)).falsify
            (T.evaluated failure.pair)) := by
          rw [sat_falsify]
          exact fun hs => hnot (hs.2 e (EquationSet.mem_insertAll.mpr
            (.inl (EquationSet.mem_insert.mpr (.inr rfl)))))
        exact ⟨iff_of_false (fun hs => hnd hs.1)
          fun hs => hnot (hs.2.2 e List.mem_cons_self), fun _ => hnd⟩
      · obtain ⟨hsat, htrue⟩ := ih hc hg hempty hes.2 hrun
        refine ⟨hsat.trans (and_congr_right fun _ => ?_), htrue⟩
        rw [List.forall_mem_cons]
        simp only [EquationSet.mem_insert, or_imp, forall_and, forall_eq, and_assoc]
      · have hparts := F.unique hes.1.1 hes.1.2 hu
        have hc' := hc.setNormal false
        have hext := Constraint.extends_insertAll (T := T) { c with normal := false } parts
        obtain ⟨hsat, htrue⟩ := ih (hc'.insertAll hparts) (hext.guarded.trans hg)
          ((Constraint.equations_insertAll (c := { c with normal := false }) hg).trans hempty) hes.2 hrun
        refine ⟨hsat.trans ?_, htrue⟩
        have hholds : (∀ q ∈ parts, M.Holds q) ↔ M.Holds e := M.unique hes.1 hu
        have hnormal : M.SatAll { c with normal := false } ↔ M.SatAll c := Iff.rfl
        rw [satAll_insertAll hc'.over.undecided hparts, hholds, hnormal, List.forall_mem_cons,
          and_assoc, and_left_comm (a := M.Holds e)]
      · exact absurd hu (M.disjunction hes.1)

/-! ### Simplification -/

theorem sat_simplifySince {last : Option Constraint.Snapshot} {fuel n m : Nat} (hc : c.Sound F)
    (htrue : M.Truthful c) (h : c.simplifySince T false fuel last n = .ok (d, m)) :
    (M.Sat d ↔ M.SatAll c) ∧ M.Truthful d := by
  induction fuel generalizing last c n with
  | zero => exact absurd h Engine.throw_ne_ok
  | succ fuel ih =>
      obtain ⟨b, hb, h⟩ := Constraint.simplifySince_cases h
      obtain ⟨hsat, htrueb⟩ := sat_normalize hc htrue hb
      have hsettled := Constraint.settled_of_normalize hc hb
      rcases h with ⟨-, rfl, -⟩ | ⟨hopen, -, a, k, ha, h⟩
      · exact ⟨hsat, htrueb⟩
      · obtain ⟨hw, hn⟩ := hsettled.resolve_left fun hr => by
          simp [Constraint.Refuted, Constraint.isFalse, hopen] at hr
        obtain ⟨hround, htruea⟩ := sat_round (M := M) hw.takeOut rfl rfl hw.over.equations ha
        have hb : M.SatAll a ↔ M.Sat b := by
          rw [hround]
          simp [SatAll, Sat, Constraint.takeOut, hn.drained]
        rcases h with ⟨hf, rfl, -⟩ | ⟨-, h⟩
        · have hnb : ¬ M.Sat b := fun hs => htruea hf (hb.mpr hs).1
          exact ⟨iff_of_false (htruea hf) fun hs => hnb (hsat.mpr hs), htruea⟩
        · have hsound := Constraint.round_sound (fun as k ds l =>
            Constraint.satisfiable_within fun hc h => Constraint.simplifySince_settled hc h) hw hn ha
          obtain ⟨hd, htrued⟩ := ih hsound htruea h
          exact ⟨hd.trans (hb.trans hsat), htrued⟩

/-- Simplification without folding keeps satisfaction. -/
theorem sat_simplify {fuel n m : Nat} (hc : c.Sound F) (htrue : M.Truthful c)
    (h : c.simplify T fuel false n = .ok (d, m)) : (M.Sat d ↔ M.SatAll c) ∧ M.Truthful d :=
  sat_simplifySince hc htrue h

/-! ### Disjunctions -/

include M in
lemma decisive : F.Decisive := M.disjunction

include M in
/-- Simplification without folding leaves the disjunctions alone. -/
theorem pending_of_simplifySince {last : Option Constraint.Snapshot} {fuel n m : Nat}
    (hc : c.Sound F) (h : c.simplifySince T false fuel last n = .ok (d, m))
    (hd : d.isFalse = false) : d.pending = c.pending :=
  Constraint.pending_of_simplifySince M.decisive hc h hd

/-! ### Settled constraints -/

/-- In a settled constraint nothing waits in the buffer, unless it is false. -/
lemma satAll_iff_sat (hc : c.Settled F) (htrue : M.Truthful c) : M.SatAll c ↔ M.Sat c := by
  rcases hc with hr | ⟨-, hn⟩
  · exact iff_of_false (fun hs => htrue hr.1 hs.1) (htrue hr.1)
  · simp [SatAll, hn.drained]

/-- Adding equations to a settled constraint adds exactly their demands. -/
theorem sat_addAll (hc : c.Settled F) (htrue : M.Truthful c) (hes : ∀ e ∈ es, F.MemEq e)
    (h : c.addAll T es = .ok d) :
    (M.Sat d ↔ M.Sat c ∧ ∀ e ∈ es, M.Holds e) ∧ M.Truthful d := by
  have hsound := hc.sound.insertAll hes
  by_cases hf : c.isFalse = true
  · rw [Constraint.addAll, Constraint.insertAll_of_isFalse hf, Constraint.normalize,
      if_pos (by simp [hf])] at h
    cases h
    exact ⟨iff_of_false (htrue hf) fun hs => htrue hf hs.1, htrue⟩
  · rw [Bool.not_eq_true] at hf
    have hundecided := ((hc.within hf).insertAll hes).over.undecided
    obtain ⟨hsat, htrue'⟩ := sat_normalize (M := M) hsound
      (fun h => absurd (hundecided.symm.trans h) Bool.false_ne_true) h
    exact ⟨hsat.trans ((satAll_insertAll hf hes).trans (and_congr_left' (satAll_iff_sat hc htrue))),
      htrue'⟩

end Meaning

end SolvedForm

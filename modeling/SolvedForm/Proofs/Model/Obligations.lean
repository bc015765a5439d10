import SolvedForm.Proofs.Model.Exactness

/-!
Proofs of implications are sound as long as they are not split on a variable to be chosen.

* `Constraint.Arises`, `Constraint.SplitsAvoid`: the obligations that come from one by splitting, and
  conditions of splits without given variables.
* `Constraint.Discharged.entails`: one obligation, when those that it is split into are shown.
* `Constraint.entails_of_dischargeAll`: the queue of obligations, from the last one backwards.
* `Constraint.implies_entails`: a proved implication holds.
* `Constraint.implies_of_split_on_choice`: why the conditions have to be without the variables to be
  chosen.
-/

namespace SolvedForm.Constraint

variable {V : Vocabulary} {only : List Var} {σ : Type} {solver : Solver σ} {limits : TimeLimits}
  {fuel n m : Nat} {s s' : σ} {left right residue : Constraint} {o o' o'' : Obligation}

/-! ### Splits -/

/-- The obligations that come from one by splitting, again and again. -/
inductive Arises (T : Theory) (only : List Var) (o : Obligation) : Obligation → Prop where
  | start : Arises T only o o
  | split {left right residue d : Constraint} {fuel : Nat} {t : Term} {b : Bool} :
      Arises T only o (left, right) → Residue T fuel only left right residue →
      residue.innermostCondition = some t → left.add T ⟨t, .bool b⟩ = .ok d →
      Arises T only o (d, residue)

/-- No condition on which the proof of the obligation is split contains one of the variables. -/
def SplitsAvoid (T : Theory) (only : List Var) (o : Obligation) : Prop :=
  ∀ ⦃left right residue : Constraint⦄ ⦃fuel : Nat⦄ ⦃t : Term⦄, Arises T only o (left, right) →
    Residue T fuel only left right residue → residue.innermostCondition = some t →
    ∀ x ∈ t.vars, x ∉ only

lemma Arises.trans {T : Theory} (h : Arises T only o o') (h' : Arises T only o' o'') :
    Arises T only o o'' := by
  induction h' with
  | start => exact h
  | split _ hres ht hadd ih => exact .split ih hres ht hadd

lemma SplitsAvoid.of_arises {T : Theory} (h : SplitsAvoid T only o) (ho : Arises T only o o') :
    SplitsAvoid T only o' :=
  fun _ _ _ _ _ harises => h (ho.trans harises)

/-! ### One obligation -/

/-- A constraint that only binds the variables to be chosen is entailed by every other. -/
lemma Plain.entailed_of_bindsOnly (hres : residue.Plain V) (h : residue.bindsOnly only = true) :
    left.Entails only residue := by
  simp only [bindsOnly, isSubstitution, Bool.and_eq_true, Bool.not_eq_true'] at h
  obtain ⟨⟨⟨hf, hempty⟩, -⟩, hkeys⟩ := h
  obtain ⟨hw, hn⟩ := hres.normalForm hf
  intro α M _
  refine ⟨M.extend hw.over.store, Model.agreesOff_extend _ ?_, hf,
    Model.extend_solves _ hn.acyclic, fun e he => ?_⟩
  · exact fun x hx => by simpa using List.all_eq_true.mp hkeys x hx
  · exact absurd he (EquationSet.isEmpty_iff.mp hempty e)

/-- What a sound solver refutes has no model. -/
lemma Plain.not_fulfils_of_checkUnsat (hsolver : solver.Sound V) (hleft : left.Plain V)
    (hf : left.isFalse = false)
    (h : ((left.checkUnsat solver limits.constraint).run s).1 = true) {α : Type} (M : Model α) :
    ¬ M.Fulfils left := by
  unfold checkUnsat at h
  rw [if_neg (by simp [hf])] at h
  split at h
  · exact absurd h Bool.false_ne_true
  · exact hsolver.refutes hleft h M

lemma Plain.of_avoiding (h : left.Plain (V.avoiding only)) : left.Plain V :=
  ⟨h.settled.imp_right fun ⟨hw, hn⟩ => ⟨hw.of_avoiding, hn⟩, h.pending⟩

section Obligation

variable (hsolver : solver.Sound V) (hleft : left.Plain (V.avoiding only)) (hright : right.Plain V)
  (hsplit : SplitsAvoid (.standard Subsorts.builtin.order) only (left, right))
include hleft hright hsplit

/-- The cases of a split are obligations of the same kind. -/
lemma Discharged.split_plain {cases : List Obligation}
    (h : Discharged (.standard Subsorts.builtin.order) solver limits fuel only left right
      (.split cases)) :
    ∀ o ∈ cases, o.1.Plain (V.avoiding only) ∧ o.2.Plain V ∧
      SplitsAvoid (.standard Subsorts.builtin.order) only o := by
  cases h with
  | split hres hf ht hthen helse =>
      obtain ⟨hw, -⟩ := (hres.plain hleft hright).1.normalForm hf
      have hc := (hw.over.innermostCondition ht).1.avoiding (hsplit .start hres ht)
      refine List.forall_mem_cons.mpr ⟨?_, List.forall_mem_singleton.mpr ?_⟩
      · exact ⟨(hleft.add hres.1 hc hthen).1, (hres.plain hleft hright).1,
          hsplit.of_arises (.split .start hres ht hthen)⟩
      · exact ⟨(hleft.add hres.1 hc helse).1, (hres.plain hleft hright).1,
          hsplit.of_arises (.split .start hres ht helse)⟩

include hsolver in
omit hsplit in
/-- An obligation that is settled holds. -/
lemma Discharged.entails
    (h : Discharged (.standard Subsorts.builtin.order) solver limits fuel only left right .settled) :
    left.Entails only right := by
  cases h with
  | vacuous hf => exact fun M hM => absurd hf (by simp [hM.1])
  | refuted hres hunsat =>
      exact fun M hM => absurd hM (hleft.of_avoiding.not_fulfils_of_checkUnsat hsolver hres.1 hunsat M)
  | bound hres hbinds =>
      exact hres.entails hleft hright ((hres.plain hleft hright).1.entailed_of_bindsOnly hbinds)
  | proved hres _ hproved =>
      exact hres.entails hleft hright (hsolver.proves hleft (hres.plain hleft hright).1 hproved)

/-- An obligation that is split holds when both cases do: in every model the condition is true or
false, whatever is chosen for the variables. -/
lemma Discharged.entails_of_split {cases : List Obligation}
    (h : Discharged (.standard Subsorts.builtin.order) solver limits fuel only left right
      (.split cases))
    (hcases : ∀ o ∈ cases, o.1.Entails only o.2) : left.Entails only right := by
  cases h with
  | @split residue left₁ left₂ t hres hf ht hthen helse =>
      rw [List.forall_mem_cons, List.forall_mem_singleton] at hcases
      obtain ⟨hthen', helse'⟩ := hcases
      obtain ⟨hw, -⟩ := (hres.plain hleft hright).1.normalForm hf
      obtain ⟨hc, hbool⟩ := hw.over.innermostCondition ht
      have hc' := hc.avoiding (hsplit .start hres ht)
      have hent : left.Entails only residue := by
        intro α M hM
        obtain ⟨b, hb⟩ := hc.eq_bool M hbool
        cases b with
        | true => exact hthen' M ((hleft.add hres.1 hc' hthen).2 M hM hb)
        | false => exact helse' M ((hleft.add hres.1 hc' helse).2 M hM hb)
      exact @fun _ => hres.entails hleft hright hent

end Obligation

/-! ### The queue -/

/-- When a queue is worked off, every obligation in it holds. -/
theorem entails_of_dischargeAll (hsolver : solver.Sound V) {queue : List Obligation}
    (hqueue : ∀ o ∈ queue, o.1.Plain (V.avoiding only) ∧ o.2.Plain V ∧
      SplitsAvoid (.standard Subsorts.builtin.order) only o)
    (h : dischargeAll (.standard Subsorts.builtin.order) solver limits only fuel queue s n =
      .ok ((.ok true, s'), m)) :
    ∀ o ∈ queue, o.1.Entails only o.2 := by
  induction fuel generalizing queue s n with
  | zero =>
      cases queue with
      | nil => simp
      | cons o queue => cases h
  | succ fuel ih =>
      cases queue with
      | nil => simp
      | cons o queue =>
          obtain ⟨left, right⟩ := o
          rw [List.forall_mem_cons] at hqueue ⊢
          obtain ⟨⟨hleft, hright, hsplit⟩, hqueue⟩ := hqueue
          rw [dischargeAll] at h
          obtain ⟨r, s₁, k, hr, h⟩ := Solving.bind_eq_ok.mp h
          match r with
          | .error failure => cases (Solving.pure_eq_ok.mp h).1
          | .ok .failed => cases (Solving.pure_eq_ok.mp h).1
          | .ok .settled =>
              exact ⟨(discharged hr).entails hsolver hleft hright, ih hqueue h⟩
          | .ok (.split cases) =>
              -- the cases are at the end of the queue
              have hr := discharged hr
              have hcases := hr.split_plain hleft hright hsplit
              have hall := ih (List.forall_mem_append.mpr ⟨hqueue, hcases⟩) h
              rw [List.forall_mem_append] at hall
              exact ⟨hr.entails_of_split hleft hright hsplit hall.2, hall.1⟩

/-! ### Implication -/

lemma Built.plain (h : left.Built V) : left.Plain V :=
  ⟨h.settled, h.over.pending ((default : Model Unit).meaning V)⟩

/-- A proved implication holds: where no condition on which the proof is split contains a variable
to be chosen, every model of the first constraint becomes one of the second by other values for the
variables to be chosen. -/
theorem implies_entails (hsolver : solver.Sound V) (hleft : left.Plain (V.avoiding only))
    (hright : right.Plain V)
    (hsplit : SplitsAvoid (.standard Subsorts.builtin.order) only (left, right))
    (h : left.implies (.standard Subsorts.builtin.order) solver limits fuel right only s n =
      .ok ((.ok true, s'), m)) :
    left.Entails only right :=
  entails_of_dischargeAll hsolver (List.forall_mem_singleton.mpr ⟨hleft, hright, hsplit⟩) h _
    (List.mem_singleton_self _)

/-- With `X = 2` known, the other constraint asks for a value of `Y` and for a sum that is the same
whatever the value of `B`: the proof is split on `B`, and each case leaves nothing but the binding of
`Y`. -/
theorem implies_entails_split :
    let T : Theory := .standard Subsorts.builtin.order
    let x : Var := ⟨"X", .int, false, none⟩
    let y : Var := ⟨"Y", .int, false, none⟩
    let w : Var := ⟨"W", .int, false, none⟩
    let b : Var := ⟨"B", .bool, false, none⟩
    let ite (s t : Term) : Term := .ofOperator .ite [.var b, s, t]
    let sum (t : Term) : Term := .ofOperator .add [t, .var w]
    let e : Equation := ⟨sum (ite (.var x) (ite (.var w) (.int 2))), sum (.int 2)⟩
    ∃ left right₀ right : Constraint, empty.add T ⟨.var x, .int 2⟩ = .ok left ∧
      empty.add T e = .ok right₀ ∧ right₀.add T ⟨.var y, .var x⟩ = .ok right ∧
      (∃ o, Arises T [y] (left, right) o ∧ b ∈ o.1.store.keys) ∧
      SplitsAvoid T [y] (left, right) ∧
      left.implies T (Solver.none : Solver Unit) {} 9 right [y] () 0 = .ok ((.ok true, ()), 0) ∧
      left.Entails [y] right := by
  intro T x y w b ite sum e
  let left : Constraint := { store := .single x (.int 2) }
  let right₀ : Constraint := { equations := .ofList [e], truth := .unknown }
  let right : Constraint := { right₀ with store := .single y (.var x) }
  let residue : Constraint :=
    { store := .single y (.int 2)
      equations := .ofList [⟨sum (ite (.int 2) (ite (.var w) (.int 2))), sum (.int 2)⟩]
      truth := .unknown }
  let known (v : Bool) : Constraint := { store := .ofList [(x, .int 2), (b, .bool v)] }
  have hleft : empty.add T ⟨.var x, .int 2⟩ = .ok left := by cbv
  have hright₀ : empty.add T e = .ok right₀ := by cbv
  have hright : right₀.add T ⟨.var y, .var x⟩ = .ok right := by cbv
  have hknown : ∀ v, left.add T ⟨.var b, .bool v⟩ = .ok (known v) := by
    rintro (_ | _) <;> cbv
  have hrun : ∀ fuel n, left.subtract T (fuel + 2) right n = .ok (residue, n) := by
    intro fuel n
    cbv
  have hfirst : ∀ {r fuel}, Residue T fuel [y] left right r → r = residue := by
    refine Residue.eq_of_runs (by decide) (by decide) (fun fuel hfuel n => ?_) hrun
    interval_cases fuel <;> cbv
  have hcase : ∀ {r fuel} v, Residue T fuel [y] (known v) residue r →
      r = { store := .single y (.int 2) } := by
    intro r fuel v
    refine Residue.eq_of_runs (k := 2) (by decide) (by decide) (fun fuel hfuel n => ?_)
      fun fuel n => ?_
    · interval_cases fuel <;> cases v <;> cbv
    · cases v <;> cbv
  have harises : ∀ {o}, Arises T [y] (left, right) o →
      o = (left, right) ∨ ∃ v, o = (known v, residue) := by
    intro o ho
    induction ho with
    | start => exact .inl rfl
    | @split l r _ d _ t v _ hres ht hd ih =>
        rcases ih with ih | ⟨u, ih⟩ <;> cases ih
        · obtain rfl := hfirst hres
          cases ht
          cases (hknown v).symm.trans hd
          exact .inr ⟨v, rfl⟩
        · obtain rfl := hcase u hres
          cases ht
  have hsplit : SplitsAvoid T [y] (left, right) := by
    intro l r r' fuel t ho hres ht
    rcases harises ho with ho | ⟨v, ho⟩ <;> cases ho
    · obtain rfl := hfirst hres
      cases ht
      decide
    · obtain rfl := hcase v hres
      cases ht
  have hres : Residue T 2 [y] left right residue :=
    ⟨rfl, right, residue, 0, 0, orient_self (by decide), hrun 0 0, orient_self (by decide)⟩
  have hproved : left.implies T (Solver.none : Solver Unit) {} 9 right [y] () 0 =
      .ok ((.ok true, ()), 0) := by cbv
  -- all terms are well-sorted, and those of the first constraint do without `Y`
  have hx : Vocabulary.arithmetic.WellSorted (.var x) := .var (.inl rfl)
  have hy : Vocabulary.arithmetic.WellSorted (.var y) := .var (.inl rfl)
  have hw : Vocabulary.arithmetic.WellSorted (.var w) := .var (.inl rfl)
  have hb : Vocabulary.arithmetic.WellSorted (.var b) := .var (.inr rfl)
  have hinner : Vocabulary.arithmetic.WellSorted (ite (.var w) (.int 2)) :=
    .op (o := .ite) ⟨rfl, rfl, rfl⟩ ⟨.int, rfl⟩ (by simpa using ⟨hb, hw, .int 2⟩)
  have houter : Vocabulary.arithmetic.WellSorted (ite (.var x) (ite (.var w) (.int 2))) :=
    .op (o := .ite) ⟨rfl, rfl, rfl⟩ ⟨.int, rfl⟩ (by simpa using ⟨hb, hx, hinner⟩)
  have hl : Vocabulary.arithmetic.WellSorted e.left :=
    .op (o := .add) ⟨rfl, rfl, rfl⟩ rfl (by simpa using ⟨houter, hw⟩)
  have hr : Vocabulary.arithmetic.WellSorted e.right :=
    .op (o := .add) ⟨rfl, rfl, rfl⟩ rfl (by simpa using ⟨.int 2, hw⟩)
  have hleftp : left.Plain (Vocabulary.arithmetic.avoiding [y]) :=
    (Built.empty.add (hx.avoiding (by decide)) (.int 2) hleft).plain
  have hrightp : right.Plain Vocabulary.arithmetic :=
    ((Built.empty.add hl hr hright₀).add hy hx hright).plain
  exact ⟨left, right₀, right, hleft, hright₀, hright,
    ⟨_, .split .start hres rfl (hknown true), by decide⟩, hsplit, hproved,
    implies_entails Solver.sound_none hleftp hrightp hsplit hproved⟩

/-- Where a condition contains a variable to be chosen, the proof may go wrong: each case of the
split is shown by a choice of its own, and neither choice is one for which the case arises. -/
theorem implies_of_split_on_choice :
    let T : Theory := .standard Subsorts.builtin.order
    let y : Var := ⟨"Y", .int, false, none⟩
    let positive : Term := .ofOperator .gt [.var y, .int 0]
    let e : Equation :=
      ⟨.var y, .ofOperator .mul [.ofOperator .ite [positive, .int 0, .int 1], .int 2]⟩
    ∃ c : Constraint, empty.add T e = .ok c ∧
      empty.implies T (Solver.none : Solver Unit) {} 9 c [y] () 0 = .ok ((.ok true, ()), 0) ∧
      ¬ empty.Entails [y] c := by
  intro T y positive e
  have hc : empty.add T e = .ok { equations := .ofList [e], truth := .unknown } := by cbv
  refine ⟨_, hc, by cbv, fun h => ?_⟩
  obtain ⟨N, -, -, -, hN⟩ := h (default : Model Unit) ⟨rfl, by simp [empty], by simp [empty]⟩
  obtain ⟨i, hi⟩ := (N.var_sort y).eq_int
  have hpositive : N.value positive = .bool (i > 0) := by
    rw [Model.value_ofOperator]
    simp [hi, Operator.eval]
  have hchoice : N.value (.ofOperator .ite [positive, .int 0, .int 1]) =
      .int (if i > 0 then 0 else 1) := by
    rw [Model.value_ofOperator]
    simp only [List.map_cons, List.map_nil, hpositive, Operator.eval]
    split <;> simp_all
  have hvalue : N.value (.var y) = N.value e.right := hN e (by decide)
  rw [Model.value_ofOperator] at hvalue
  simp only [List.map_cons, List.map_nil, hchoice, Model.value_var, hi, Model.value_int,
    Operator.eval, Value.int.injEq] at hvalue
  split at hvalue <;> simp at hvalue <;> omega

end SolvedForm.Constraint

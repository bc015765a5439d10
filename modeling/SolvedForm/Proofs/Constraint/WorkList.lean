import SolvedForm.Proofs.Model.Implication

/-!
The work list of an implication.

* `Constraint.discharge_of_residue`: what becomes of an obligation is decided by its residue;
  `Constraint.discharge_of_condition` is the case of a split, `Constraint.discharge_of_no_split` that
  of an answer.
* `Constraint.Drains`: an obligation of which all splits come to an end.
* `Constraint.dischargeAll_ends`: a queue of such obligations is worked off.
* `Constraint.drains_of_wellFounded`: obligations drain when the cases of a split are lower in a
  well-founded order.
* `Constraint.dischargeAll_of_splits`: a queue in which every obligation is split into more of its kind
  is never worked off.
* `Constraint.implies_never_ends`: the facts of the known constraint may put back a conditional that has
  just been decided, again and again.
-/

namespace SolvedForm.Constraint

open Term

variable {T : Theory} {σ : Type} {solver : Solver σ} {limits : TimeLimits} {only : List Var}
  {fuel k l n m : Nat} {s : σ} {o : Obligation}
  {left right goal rest residue left₁ left₂ : Constraint} {t : Term}

/-! ### One obligation -/

/-- What becomes of an obligation once its residue has been found. -/
lemma discharge_of_residue (hleft : left.isFalse = false)
    (hgoal : right.orient T only = .ok (.ok goal))
    (hrest : left.subtract T fuel goal n = .ok (rest, m))
    (hresidue : rest.orient T only = .ok (.ok residue)) :
    discharge T solver limits fuel only left right s n =
      (if residue.isFalse then do
        let unsat ← Solver.ask (left.checkUnsat solver limits.constraint)
        return .ok (if unsat then .settled else .failed)
      else if residue.bindsOnly only then return .ok .settled
      else match residue.innermostCondition with
        | some t => do
          let left₁ ← left.add T ⟨t, .bool true⟩
          let left₂ ← left.add T ⟨t, .bool false⟩
          return .ok (.split [(left₁, residue), (left₂, residue)])
        | none => do
          let proved ← Solver.ask (solver.proves left residue only limits.implication)
          return .ok (if proved then .settled else .failed) :
        Solving σ (Except OrientationFailure Outcome)) s m := by
  unfold discharge
  rw [if_neg (by simp [hleft])]
  exact (Solving.except_bind_of_ok hgoal).trans
    ((Solving.engine_bind_of_ok hrest).trans (Solving.except_bind_of_ok hresidue))

/-- An obligation is split on the condition that its residue offers. -/
lemma discharge_of_condition (hleft : left.isFalse = false)
    (hgoal : right.orient T only = .ok (.ok goal))
    (hrest : left.subtract T fuel goal n = .ok (rest, m))
    (hresidue : rest.orient T only = .ok (.ok residue)) (hf : residue.isFalse = false)
    (hbinds : residue.bindsOnly only = false) (ht : residue.innermostCondition = some t)
    (h₁ : left.add T ⟨t, .bool true⟩ = .ok left₁) (h₂ : left.add T ⟨t, .bool false⟩ = .ok left₂) :
    discharge T solver limits fuel only left right s n =
      .ok ((.ok (.split [(left₁, residue), (left₂, residue)]), s), m) := by
  rw [discharge_of_residue hleft hgoal hrest hresidue, if_neg (by simp [hf]),
    if_neg (by simp [hbinds]), ht]
  exact (Solving.except_bind_of_ok h₁).trans (Solving.except_bind_of_ok h₂)

/-- An obligation is answered without a split when its residue is false, binds the given variables
alone or offers no condition. -/
lemma discharge_of_no_split (hleft : left.isFalse = false)
    (hgoal : right.orient T only = .ok (.ok goal))
    (hrest : left.subtract T fuel goal n = .ok (rest, m))
    (hresidue : rest.orient T only = .ok (.ok residue))
    (h : residue.isFalse = true ∨ residue.bindsOnly only = true ∨
      residue.innermostCondition = none) :
    ∃ r s', discharge T solver limits fuel only left right s n = .ok ((r, s'), m) ∧
      ∀ os, r ≠ .ok (.split os) := by
  have answer_ne : ∀ (b : Bool) os,
      (Except.ok (if b then .settled else .failed) : Except OrientationFailure Outcome) ≠
        .ok (.split os) := by
    rintro (_ | _) os <;> exact nofun
  rw [discharge_of_residue hleft hgoal hrest hresidue]
  by_cases hf : residue.isFalse = true
  · rw [if_pos hf]
    exact ⟨_, _, Solving.ask_bind_eq_ok.mpr rfl, answer_ne _⟩
  · rw [if_neg hf]
    by_cases hbinds : residue.bindsOnly only = true
    · rw [if_pos hbinds]
      exact ⟨_, _, rfl, nofun⟩
    · rw [if_neg hbinds, (h.resolve_left hf).resolve_left hbinds]
      exact ⟨_, _, Solving.ask_bind_eq_ok.mpr rfl, answer_ne _⟩

/-- An obligation of which what is to be shown cannot be oriented ends with the failure. -/
lemma discharge_of_failure {failure : OrientationFailure} (hleft : left.isFalse = false)
    (h : right.orient T only = .ok (.error failure)) :
    discharge T solver limits fuel only left right s n = .ok ((.error failure, s), n) := by
  unfold discharge
  rw [if_neg (by simp [hleft])]
  exact Solving.except_bind_of_ok h

/-- An obligation of which what is left cannot be oriented ends with the failure. -/
lemma discharge_of_residue_failure {failure : OrientationFailure} (hleft : left.isFalse = false)
    (hgoal : right.orient T only = .ok (.ok goal))
    (hrest : left.subtract T fuel goal n = .ok (rest, m))
    (h : rest.orient T only = .ok (.error failure)) :
    discharge T solver limits fuel only left right s n = .ok ((.error failure, s), m) := by
  unfold discharge
  rw [if_neg (by simp [hleft])]
  exact (Solving.except_bind_of_ok hgoal).trans
    ((Solving.engine_bind_of_ok hrest).trans (Solving.except_bind_of_ok h))

/-- An obligation is not worked off when there are too few rounds for its subtraction. -/
lemma discharge_of_outOfFuel (hleft : left.isFalse = false)
    (hgoal : right.orient T only = .ok (.ok goal))
    (hrest : left.subtract T fuel goal n = .error .outOfFuel) :
    discharge T solver limits fuel only left right s n = .error .outOfFuel := by
  unfold discharge
  rw [if_neg (by simp [hleft]), hgoal]
  change (left.subtract T fuel goal n >>= _) >>= _ = _
  rw [hrest]
  rfl

/-! ### Queues that are worked off -/

/-- Every run with more than `k` rounds answers the obligation, and a split has the given cases. -/
def Answers (T : Theory) (solver : Solver σ) (limits : TimeLimits) (only : List Var) (k : Nat)
    (o : Obligation) (cases : List Obligation) : Prop :=
  ∀ fuel, k < fuel → ∀ s n, ∃ r s' m,
    discharge T solver limits fuel only o.1 o.2 s n = .ok ((r, s'), m) ∧
      ∀ os, r = .ok (.split os) → os = cases

lemma Answers.mono {cases : List Obligation} (h : Answers T solver limits only k o cases)
    (hkl : k ≤ l) : Answers T solver limits only l o cases :=
  fun fuel hfuel => h fuel (by omega)

/-- The obligation and what it is split into, again and again, are so many obligations at most, and
every run with more than `k` rounds answers each of them. -/
inductive Drains (T : Theory) (solver : Solver σ) (limits : TimeLimits) (only : List Var) (k : Nat) :
    Nat → Obligation → Prop where
  | intro {o : Obligation} {cases : List (Nat × Obligation)} :
      Answers T solver limits only k o (cases.map (·.2)) →
      (∀ c ∈ cases, Drains T solver limits only k c.1 c.2) →
      Drains T solver limits only k ((cases.map (·.1)).sum + 1) o

lemma Drains.mono (h : Drains T solver limits only k n o) (hkl : k ≤ l) :
    Drains T solver limits only l n o := by
  induction h with
  | intro hanswers _ ih => exact .intro (hanswers.mono hkl) ih

/-- What is left of a queue when its first obligation has been answered. -/
lemma dischargeAll_cons {queue : List Obligation} {r : Except OrientationFailure Outcome} {s' : σ} :
    discharge T solver limits fuel only o.1 o.2 s n = .ok ((r, s'), m) →
    dischargeAll T solver limits only (fuel + 1) (o :: queue) s n =
      match r with
      | .error failure => .ok ((.error failure, s'), m)
      | .ok .settled => dischargeAll T solver limits only fuel queue s' m
      | .ok .failed => .ok ((.ok false, s'), m)
      | .ok (.split cases) => dischargeAll T solver limits only fuel (queue ++ cases) s' m := by
  intro h
  rw [dischargeAll]
  change (discharge T solver limits fuel only o.1 o.2 s n >>= _) = _
  rw [h]
  rcases r with failure | _ | _ | cases <;> rfl

/-- A queue of obligations that drain is worked off in as many turns as they come to. -/
theorem dischargeAll_ends {queue : List (Nat × Obligation)}
    (hqueue : ∀ q ∈ queue, Drains T solver limits only k q.1 q.2)
    (hfuel : k + (queue.map (·.1)).sum < fuel) :
    ∃ a, dischargeAll T solver limits only fuel (queue.map (·.2)) s n = .ok a := by
  induction fuel generalizing queue s n with
  | zero => omega
  | succ fuel ih =>
      match queue, hqueue, hfuel with
      | [], _, _ => exact ⟨((.ok true, s), n), rfl⟩
      | (_, o) :: queue, hqueue, hfuel =>
          rw [List.forall_mem_cons] at hqueue
          obtain ⟨hdrains, hqueue⟩ := hqueue
          obtain @⟨_, cases, hanswers, hcases⟩ := hdrains
          rw [List.map_cons, List.sum_cons] at hfuel
          change k + ((cases.map (·.1)).sum + 1 + (queue.map (·.1)).sum) < _ at hfuel
          rw [List.map_cons]
          obtain ⟨r, s', m, hr, hsplit⟩ := hanswers fuel (by omega) s n
          rw [dischargeAll_cons hr]
          match r, hsplit with
          | .error failure, _ => exact ⟨_, rfl⟩
          | .ok .failed, _ => exact ⟨_, rfl⟩
          | .ok .settled, _ => exact ih hqueue (by omega)
          | .ok (.split os), hsplit =>
              obtain rfl := hsplit os rfl
              simp only [← List.map_append]
              refine ih (List.forall_mem_append.mpr ⟨hqueue, hcases⟩) ?_
              rw [List.map_append, List.sum_append]
              omega

/-- The cases of a split drain together when each of them does. -/
lemma exists_drains {os : List Obligation}
    (h : ∀ o ∈ os, ∃ k n, Drains T solver limits only k n o) :
    ∃ k, ∃ cases : List (Nat × Obligation), cases.map (·.2) = os ∧
      ∀ c ∈ cases, Drains T solver limits only k c.1 c.2 := by
  induction os with
  | nil => exact ⟨0, [], rfl, by simp⟩
  | cons o os ih =>
      rw [List.forall_mem_cons] at h
      obtain ⟨k, n, ho⟩ := h.1
      obtain ⟨l, cases, rfl, hcases⟩ := ih h.2
      exact ⟨max k l, (n, o) :: cases, rfl, List.forall_mem_cons.mpr
        ⟨ho.mono (Nat.le_max_left k l), fun c hc => (hcases c hc).mono (Nat.le_max_right k l)⟩⟩

/-- Obligations that are answered drain, if the cases of a split are of the same kind and lower in a
well-founded order. -/
theorem drains_of_wellFounded {α : Type} {lt : α → α → Prop} (hlt : WellFounded lt)
    {P : α → Obligation → Prop}
    (hstep : ∀ a o, P a o → ∃ k os, Answers T solver limits only k o os ∧
      ∀ o' ∈ os, ∃ b, lt b a ∧ P b o')
    {a : α} (ho : P a o) : ∃ k n, Drains T solver limits only k n o := by
  induction a using hlt.induction generalizing o with
  | _ a ih =>
      obtain ⟨k, os, hanswers, hcases⟩ := hstep a o ho
      have hall : ∀ o' ∈ os, ∃ k n, Drains T solver limits only k n o' := fun o' ho' => by
        obtain ⟨b, hb, hP⟩ := hcases o' ho'
        exact ih b hb hP
      obtain ⟨l, cases, rfl, hdrains⟩ := exists_drains hall
      exact ⟨max k l, _, .intro (hanswers.mono (Nat.le_max_left k l)) fun c hc =>
        (hdrains c hc).mono (Nat.le_max_right k l)⟩

/-! ### Queues that are never worked off -/

/-- A queue in which every obligation is split into more of its kind is never worked off. -/
theorem dischargeAll_of_splits {P : Obligation → Prop}
    (h : ∀ o, P o → ∀ fuel s n,
      discharge T solver limits fuel only o.1 o.2 s n = .error .outOfFuel ∨
        ∃ o' cases, (∀ q ∈ o' :: cases, P q) ∧
          discharge T solver limits fuel only o.1 o.2 s n = .ok ((.ok (.split (o' :: cases)), s), n))
    {queue : List Obligation} (hqueue : ∀ q ∈ o :: queue, P q) :
    dischargeAll T solver limits only fuel (o :: queue) s n = .error .outOfFuel := by
  induction fuel generalizing o queue s n with
  | zero => rfl
  | succ fuel ih =>
      rw [List.forall_mem_cons] at hqueue
      rcases h o hqueue.1 fuel s n with herror | ⟨o', cases, hcases, hsplit⟩
      · rw [dischargeAll]
        change (discharge T solver limits fuel only o.1 o.2 s n >>= _) = _
        rw [herror]
        rfl
      · rw [dischargeAll_cons hsplit]
        cases queue with
        | nil => exact ih hcases
        | cons q queue => exact ih (List.forall_mem_append.mpr ⟨hqueue.2, hcases⟩)

/-- The known constraint equates a term with a conditional on `p` inside to the literal 3. As both sides
are ground, each of them is replaced by the other, so an equation that contains both never gets rid of
the conditional, however often the proof is split on `p`. -/
theorem implies_never_ends :
    let T : Theory := .standard Subsorts.builtin.order
    let p : Term := .app ⟨"p", 0, some .bool, .function⟩ []
    let f : Term :=
      .app ⟨"f", 1, some .int, .function⟩ [.ofOperator .ite [p, .int 1, .int 2]]
    let g (s t : Term) : Term := .app ⟨"g", 2, some .int, .function⟩ [s, t]
    ∃ left right : Constraint, empty.add T ⟨f, .int 3⟩ = .ok left ∧
      empty.add T ⟨g f (.int 3), .int 4⟩ = .ok right ∧
      ∀ {σ : Type} (solver : Solver σ) (limits : TimeLimits) (fuel n : Nat) (s : σ),
        left.implies T solver limits fuel right [] s n = .error .outOfFuel := by
  intro T p f g
  -- what is known when the truth values `bs` of `p` have been added, and what is left to show
  let known (bs : List Bool) : Constraint :=
    { equations := .ofList (⟨f, .int 3⟩ :: bs.map fun b => ⟨p, .bool b⟩), truth := .unknown }
  let left (turned : Bool) : Constraint :=
    { equations := .ofList [⟨if turned then g (.int 3) f else g f (.int 3), .int 4⟩]
      truth := .unknown }
  let values : List (List Bool) := [[], [true], [false], [true, false], [false, true]]
  have hadd : ∀ bs ∈ values, ∀ b : Bool, ∃ bs' ∈ values,
      (known bs).add T ⟨p, .bool b⟩ = .ok (known bs') := by
    simp only [values, List.forall_mem_cons]
    refine ⟨?_, ?_, ?_, ?_, ?_, by simp⟩ <;> rintro (_ | _)
    · exact ⟨[false], by simp, by cbv⟩
    · exact ⟨[true], by simp, by cbv⟩
    · exact ⟨[true, false], by simp, by cbv⟩
    · exact ⟨[true], by simp, by cbv⟩
    · exact ⟨[false], by simp, by cbv⟩
    · exact ⟨[false, true], by simp, by cbv⟩
    · exact ⟨[true, false], by simp, by cbv⟩
    · exact ⟨[true, false], by simp, by cbv⟩
    · exact ⟨[false, true], by simp, by cbv⟩
    · exact ⟨[false, true], by simp, by cbv⟩
  have hturned : ∀ bs ∈ values, ∀ (turned : Bool) (fuel n : Nat),
      (known bs).subtract T (fuel + 2) (left turned) n = .ok (left !turned, n) := by
    simp only [values, List.forall_mem_cons]
    refine ⟨?_, ?_, ?_, ?_, ?_, by simp⟩ <;> rintro (_ | _) fuel n <;> cbv
  have hnone : ∀ (bs : List Bool) (turned : Bool) (n : Nat),
      (known bs).subtract T 0 (left turned) n = .error .outOfFuel := fun _ _ _ => rfl
  have hone : ∀ bs ∈ values, ∀ (turned : Bool) (n : Nat),
      (known bs).subtract T 1 (left turned) n = .error .outOfFuel := by
    simp only [values, List.forall_mem_cons]
    refine ⟨?_, ?_, ?_, ?_, ?_, by simp⟩ <;> rintro (_ | _) n <;> cbv
  have hsplits : ∀ o : Obligation,
      (∃ bs ∈ values, ∃ turned, o = (known bs, left turned)) →
      ∀ {σ : Type} (solver : Solver σ) (limits : TimeLimits) (fuel : Nat) (s : σ) (n : Nat),
        discharge T solver limits fuel [] o.1 o.2 s n = .error .outOfFuel ∨
          ∃ o' cases, (∀ q ∈ o' :: cases, ∃ bs ∈ values, ∃ turned, q = (known bs, left turned)) ∧
            discharge T solver limits fuel [] o.1 o.2 s n =
              .ok ((.ok (.split (o' :: cases)), s), n) := by
    rintro _ ⟨bs, hbs, turned, rfl⟩ σ solver limits fuel s n
    rcases fuel with _ | _ | fuel
    · exact .inl (discharge_of_outOfFuel rfl rfl (hnone bs turned n))
    · exact .inl (discharge_of_outOfFuel rfl rfl (hone bs hbs turned n))
    · have hrest := hturned bs hbs turned fuel n
      obtain ⟨bs₁, hbs₁, h₁⟩ := hadd bs hbs true
      obtain ⟨bs₂, hbs₂, h₂⟩ := hadd bs hbs false
      have hcondition : (left !turned).innermostCondition = some p := by
        cases turned <;> rfl
      refine .inr ⟨_, _, ?_, discharge_of_condition rfl rfl hrest rfl rfl rfl hcondition h₁ h₂⟩
      simp only [List.forall_mem_cons]
      exact ⟨⟨bs₁, hbs₁, _, rfl⟩, ⟨bs₂, hbs₂, _, rfl⟩, by simp⟩
  refine ⟨known [], left false, by cbv, by cbv, fun solver limits fuel n s => ?_⟩
  exact dischargeAll_of_splits (fun o ho => hsplits o ho solver limits)
    (List.forall_mem_singleton.mpr ⟨[], by simp [values], false, rfl⟩)

end SolvedForm.Constraint

import SolvedForm.Proofs.Constraint.Orientation
import SolvedForm.Proofs.Model.Extension
import SolvedForm.Proofs.Model.Subtraction
import SolvedForm.Proofs.Term.Part

/-!
What the proof of an implication shows.

* `Model.Fulfils`, `Constraint.Entails`: every model of one constraint becomes a model of another by
  other values for given variables.
* `Constraint.Plain`, `Solver.Sound`: constraints in normal form without disjunctions, and solvers
  that are right about them.
* `Constraint.Residue`: what is left of an obligation; to fulfil it is enough.
* `Constraint.Discharged`: what becomes of an obligation, and why.
-/

namespace SolvedForm

open Term

variable {V : Vocabulary} {α : Type} {M N : Model α} {xs only : List Var} {σ : Type}
  {t u : Term} {c d left right residue : Constraint}

/-! ### Entailment -/

/-- The constraint is not known to be false, and the model satisfies it. -/
def Model.Fulfils (M : Model α) (c : Constraint) : Prop := c.isFalse = false ∧ M.Satisfies c

namespace Constraint

/-- Every model that fulfils the first constraint comes to fulfil the second by other values for the
given variables. -/
def Entails (only : List Var) (c d : Constraint) : Prop :=
  ∀ {α : Type} (M : Model α), M.Fulfils c → ∃ N, M.AgreesOff only N ∧ N.Fulfils d

/-- The constraint is false or in normal form, and in the latter case it has no disjunctions. -/
structure Plain (V : Vocabulary) (c : Constraint) : Prop where
  settled : c.Settled (.wellSorted V)
  pending : c.isFalse = false → c.pending = []

end Constraint

/-- The answers of the solver to questions about plain constraints are true. -/
structure Solver.Sound (V : Vocabulary) (solver : Solver σ) : Prop where
  refutes {c : Constraint} {limit : Nat} {s : σ} : c.Plain V →
    ((solver.refutes c limit).run s).1 = true → ∀ {α : Type} (M : Model α), ¬ M.Fulfils c
  proves {c d : Constraint} {only : List Var} {limit : Nat} {s : σ} :
    c.Plain (V.avoiding only) → d.Plain V →
    ((solver.proves c d only limit).run s).1 = true → c.Entails only d

lemma Solver.sound_none : (Solver.none : Solver σ).Sound V where
  refutes _ h := absurd h Bool.false_ne_true
  proves _ _ h := absurd h Bool.false_ne_true

/-! ### Runs that may ask a solver -/

namespace Solving

variable {β γ : Type} {s : σ} {n : Nat}

lemma bind_eq_ok {x : Solving σ β} {f : β → Solving σ γ} {r : (γ × σ) × Nat} :
    (x >>= f) s n = .ok r ↔ ∃ b s' m, x s n = .ok ((b, s'), m) ∧ f b s' m = .ok r := by
  change (x s >>= fun p => f p.1 p.2) n = .ok r ↔ _
  rw [Engine.bind_eq_ok]
  exact ⟨fun ⟨p, m, hx, h⟩ => ⟨p.1, p.2, m, hx, h⟩, fun ⟨b, s', m, hx, h⟩ => ⟨(b, s'), m, hx, h⟩⟩

lemma engine_bind_eq_ok {x : Engine β} {f : β → Solving σ γ} {r : (γ × σ) × Nat} :
    ((liftM x : Solving σ β) >>= f) s n = .ok r ↔ ∃ b m, x n = .ok (b, m) ∧ f b s m = .ok r := by
  rw [bind_eq_ok]
  have lift_eq : (liftM x : Solving σ β) s n = (x >>= fun b => pure (b, s)) n := rfl
  simp only [lift_eq, Engine.bind_eq_ok, Engine.pure_eq_ok]
  grind

lemma except_bind_eq_ok {x : Except Fault β} {f : β → Solving σ γ} {r : (γ × σ) × Nat} :
    ((liftM x : Solving σ β) >>= f) s n = .ok r ↔ ∃ b, x = .ok b ∧ f b s n = .ok r := by
  cases x with
  | error e => exact ⟨nofun, nofun⟩
  | ok b => exact ⟨fun h => ⟨b, rfl, h⟩, fun ⟨_, hb, h⟩ => Except.ok.inj hb ▸ h⟩

lemma engine_bind_of_ok {x : Engine β} {f : β → Solving σ γ} {b : β} {m : Nat}
    (h : x n = .ok (b, m)) : ((liftM x : Solving σ β) >>= f) s n = f b s m := by
  have lift_eq : (liftM x : Solving σ β) s n = (x >>= fun b => pure (b, s)) n := rfl
  change ((liftM x : Solving σ β) s >>= fun p => f p.1 p.2) n = _
  exact Engine.bind_of_ok (lift_eq.trans (Engine.bind_of_ok h))

lemma except_bind_of_ok {x : Except Fault β} {f : β → Solving σ γ} {b : β} (h : x = .ok b) :
    ((liftM x : Solving σ β) >>= f) s n = f b s n := by
  subst h
  rfl

lemma ask_bind_eq_ok {q : StateM σ Bool} {f : Bool → Solving σ γ} {r : (γ × σ) × Nat} :
    (Solver.ask q >>= f) s n = .ok r ↔ f (q.run s).1 (q.run s).2 n = .ok r := by
  rw [bind_eq_ok]
  have ask_eq : Solver.ask q s n = .ok (((q.run s).1, (q.run s).2), n) := rfl
  exact ⟨fun ⟨b, s', j, h, hf⟩ => by cases ask_eq.symm.trans h; exact hf,
    fun h => ⟨_, _, _, ask_eq, h⟩⟩

lemma pure_eq_ok {a b : β} {s' : σ} {m : Nat} :
    (pure a : Solving σ β) s n = .ok ((b, s'), m) ↔ a = b ∧ s = s' ∧ n = m := by
  change Except.ok ((a, s), n) = .ok ((b, s'), m) ↔ _
  simp [and_assoc]

end Solving

/-! ### Conditions -/

namespace Vocabulary.WellSorted

lemma innermostConditional (ht : V.WellSorted t) (h : t.innermostConditional = some u) :
    V.WellSorted u :=
  Part.closed (P := V.WellSorted) (fun h => h.args) nofun nofun ht (.of_innermostConditional h)

/-- The condition of a conditional is well-sorted and a truth value. -/
lemma condition {p : Term × Term × Term} (ht : V.WellSorted t)
    (h : t.asConditional = some p) : V.WellSorted p.1 ∧ p.1.sort = .bool := by
  unfold asConditional at h
  split at h
  · next f c a b =>
      split at h
      · next happ =>
          cases h
          simp only [applies, appliesLabel, Bool.and_eq_true, Bool.not_eq_true', beq_iff_eq] at happ
          obtain ⟨-, s, hs⟩ := ht.denotes happ.1 (happ.2 ▸ Operator.ofLabel_label .ite)
          exact ⟨ht.args c (by simp), (List.cons.inj hs).1⟩
      · cases h
  · cases h

end Vocabulary.WellSorted

namespace Constraint

/-- The condition that a constraint offers for a split is that of an innermost conditional in what the
constraint lists. -/
lemma exists_of_innermostCondition (h : c.innermostCondition = some t) :
    ∃ e ∈ c.listed, ∃ u p, (e.left.innermostConditional = some u ∨
      e.right.innermostConditional = some u) ∧ u.asConditional = some p ∧ p.1 = t := by
  obtain ⟨p, hp, rfl⟩ := Option.map_eq_some_iff.mp h
  obtain ⟨u, hu, hp⟩ := Option.bind_eq_some_iff.mp hp
  obtain ⟨s, hs, hu⟩ := List.exists_of_findSome?_eq_some hu
  rcases List.mem_append.mp hs with hs | hs
  · obtain ⟨e, he, hs⟩ := List.mem_flatMap.mp hs
    refine ⟨e, List.mem_append_right _ he, u, p, ?_, hp, rfl⟩
    rcases List.mem_pair.mp hs with rfl | rfl
    · exact .inl hu
    · exact .inr hu
  · obtain ⟨b, hb, rfl⟩ := List.mem_map.mp hs
    exact ⟨_, List.mem_append_left _ (List.mem_map_of_mem hb), u, p, .inr hu, hp, rfl⟩

lemma Over.innermostCondition (hc : c.Over (.wellSorted V)) (h : c.innermostCondition = some t) :
    V.WellSorted t ∧ t.sort = .bool := by
  obtain ⟨e, he, u, p, hu, hp, rfl⟩ := exists_of_innermostCondition h
  obtain ⟨hl, hr⟩ := hc.listed e he
  exact (hu.elim hl.innermostConditional hr.innermostConditional).condition hp

/-! ### One obligation -/

section Discharge

variable {solver : Solver σ} {limits : TimeLimits} {fuel n m : Nat} {s s' : σ} {o : Outcome}

/-- What is left to show of the second constraint when the first is known, and not to be false:
oriented before and after subtraction. -/
def Residue (T : Theory) (fuel : Nat) (only : List Var) (left right residue : Constraint) : Prop :=
  left.isFalse = false ∧ ∃ goal rest n m, right.orient T only = .ok (.ok goal) ∧
    left.subtract T fuel goal n = .ok (rest, m) ∧ rest.orient T only = .ok (.ok residue)

/-- Where orientation has nothing to turn and subtraction ends after some turns, the residue is what
subtraction leaves. -/
lemma Residue.eq_of_runs {T : Theory} {rest : Constraint} {k : Nat}
    (hgoal : ∀ x ∈ only, x ∈ right.store.keys) (hrest : ∀ x ∈ only, x ∈ rest.store.keys)
    (hshort : ∀ fuel < k, ∀ n, left.subtract T fuel right n = .error .outOfFuel)
    (hlong : ∀ fuel n, left.subtract T (fuel + k) right n = .ok (rest, n))
    (h : Residue T fuel only left right residue) : residue = rest := by
  obtain ⟨-, goal, r, n, m, h, hr, hresidue⟩ := h
  rw [orient_self hgoal] at h
  cases h
  rcases Nat.lt_or_ge fuel k with hk | hk
  · cases (hshort fuel hk n).symm.trans hr
  · obtain ⟨l, rfl⟩ := Nat.exists_eq_add_of_le' hk
    cases (hlong l n).symm.trans hr
    rw [orient_self hrest] at hresidue
    cases hresidue
    rfl

/-- What becomes of an obligation, and why. -/
inductive Discharged (T : Theory) (solver : Solver σ) (limits : TimeLimits) (fuel : Nat)
    (only : List Var) (left right : Constraint) : Outcome → Prop where
  | vacuous : left.isFalse = true → Discharged T solver limits fuel only left right .settled
  | refuted {residue : Constraint} {s : σ} : Residue T fuel only left right residue →
      ((left.checkUnsat solver limits.constraint).run s).1 = true →
      Discharged T solver limits fuel only left right .settled
  | bound {residue : Constraint} : Residue T fuel only left right residue →
      residue.bindsOnly only = true → Discharged T solver limits fuel only left right .settled
  | proved {residue : Constraint} {s : σ} : Residue T fuel only left right residue →
      residue.isFalse = false →
      ((solver.proves left residue only limits.implication).run s).1 = true →
      Discharged T solver limits fuel only left right .settled
  | split {residue left₁ left₂ : Constraint} {t : Term} : Residue T fuel only left right residue →
      residue.isFalse = false → residue.innermostCondition = some t →
      left.add T ⟨t, .bool true⟩ = .ok left₁ → left.add T ⟨t, .bool false⟩ = .ok left₂ →
      Discharged T solver limits fuel only left right
        (.split [(left₁, residue), (left₂, residue)])
  | failed {residue : Constraint} : Residue T fuel only left right residue →
      residue.bindsOnly only = false → Discharged T solver limits fuel only left right .failed

lemma discharged {T : Theory}
    (h : discharge T solver limits fuel only left right s n = .ok ((.ok o, s'), m)) :
    Discharged T solver limits fuel only left right o := by
  unfold discharge at h
  split at h
  · next hl =>
      cases (Solving.pure_eq_ok.mp h).1
      exact .vacuous hl
  · next hl =>
      obtain ⟨goal, hgoal, h⟩ := Solving.except_bind_eq_ok.mp h
      match goal with
      | .error failure => cases (Solving.pure_eq_ok.mp h).1
      | .ok goal =>
          obtain ⟨rest, k, hrest, h⟩ := Solving.engine_bind_eq_ok.mp h
          obtain ⟨residue, hresidue, h⟩ := Solving.except_bind_eq_ok.mp h
          match residue with
          | .error failure => cases (Solving.pure_eq_ok.mp h).1
          | .ok residue =>
              have hres : Residue T fuel only left right residue :=
                ⟨Bool.not_eq_true _ ▸ hl, goal, rest, n, k, hgoal, hrest, hresidue⟩
              dsimp only at h
              split at h
              · next hrf =>
                replace h := Solving.ask_bind_eq_ok.mp h
                obtain ⟨ho, -⟩ := Solving.pure_eq_ok.mp h
                cases ho
                split
                · next hunsat => exact .refuted hres hunsat
                · exact .failed hres (by simp [bindsOnly, isSubstitution, hrf])
              · next hf =>
                  split at h
                  · next hb =>
                      cases (Solving.pure_eq_ok.mp h).1
                      exact .bound hres hb
                  · next hb =>
                    cases ht : residue.innermostCondition with
                    | some t =>
                        rw [ht] at h
                        obtain ⟨left₁, hleft₁, h⟩ := Solving.except_bind_eq_ok.mp h
                        obtain ⟨left₂, hleft₂, h⟩ := Solving.except_bind_eq_ok.mp h
                        cases (Solving.pure_eq_ok.mp h).1
                        exact .split hres (Bool.not_eq_true _ ▸ hf) ht hleft₁ hleft₂
                    | none =>
                        rw [ht] at h
                        replace h := Solving.ask_bind_eq_ok.mp h
                        obtain ⟨ho, -⟩ := Solving.pure_eq_ok.mp h
                        cases ho
                        split
                        · next hproved => exact .proved hres (Bool.not_eq_true _ ▸ hf) hproved
                        · exact .failed hres (Bool.not_eq_true _ ▸ hb)

/-! ### The standard theory -/

lemma Plain.normalForm (hc : c.Plain V) (hf : c.isFalse = false) :
    c.Within (.wellSorted V) ∧ c.NormalForm Subsorts.builtin.order :=
  hc.settled.resolve_left fun hr => absurd hr.1 (by simp [hf])

/-- A condition added to a plain constraint makes a plain constraint, and models in which it has the
given truth value go on fulfilling it. -/
lemma Plain.add {b : Bool} (hc : c.Plain V) (hf : c.isFalse = false) (ht : V.WellSorted t)
    (h : c.add (.standard Subsorts.builtin.order) ⟨t, .bool b⟩ = .ok d) :
    d.Plain V ∧ ∀ {α : Type} (M : Model α), M.Fulfils c → M.value t = .bool b → M.Fulfils d := by
  have hmem := memEq_singleton ht (.bool b)
  have hsound := hc.settled.sound.insertAll hmem
  have hpending := pending_of_normalize hsound h
  refine ⟨⟨settled_of_normalize hsound h, fun hd => ?_⟩, fun {α} M hM hb => ?_⟩
  · exact (hpending hd).trans ((pending_insertAll c _).trans (hc.pending hf))
  · obtain ⟨hsat, htrue⟩ := Meaning.sat_addAll (M := M.meaning V) hc.settled
      (fun h => absurd (hf.symm.trans h) Bool.false_ne_true) hmem h
    have hs := hsat.mpr ⟨hM.2, List.forall_mem_singleton.mpr hb⟩
    exact ⟨Bool.eq_false_iff.mpr fun hd => htrue hd hs, hs⟩

lemma Plain.orient (hc : c.Plain V)
    (h : c.orient (.standard Subsorts.builtin.order) xs = .ok (.ok d)) : d.Plain V := by
  have hF := Fragment.symmetric_wellSorted V
  exact ⟨orient_settled hF hc.settled h, fun hd =>
    (pending_of_orient hF hc.settled h hd).trans (hc.pending (isFalse_of_orient h hd))⟩

variable (hleft : left.Plain (V.avoiding only)) (hright : right.Plain V)
include hleft hright

/-- What is left to show is plain, and models that satisfy it and the first constraint fulfil the
second. -/
lemma Residue.plain (h : Residue (.standard Subsorts.builtin.order) fuel only left right residue) :
    residue.Plain V ∧ ∀ {α : Type} (M : Model α), residue.isFalse = false → M.Satisfies left →
      M.Satisfies residue → M.Fulfils right := by
  obtain ⟨hf, goal, rest, n, m, hgoal, hrest, hresidue⟩ := h
  have hF := Fragment.symmetric_wellSorted V
  obtain ⟨hw, hn⟩ := hleft.normalForm hf
  have hg := hright.orient hgoal
  have hlisted := hw.of_avoiding.over.listed
  have hr : rest.Plain V := by
    cases hgf : goal.isFalse with
    | true => exact subtract_of_isFalse hgf hrest ▸ hg
    | false =>
        have hmem := fun t ht =>
          (equivalent_replace_facts (t := t) hlisted (hn.sort_eq hw.of_avoiding) ht).wellSorted
        have hgl := (hg.settled.within hgf).lists
        exact ⟨subtract_settled hmem hgl hgf hrest, fun hrf =>
          (pending_of_subtract hmem hgl hgf hrest (Fragment.decisive_wellSorted V) hrf).trans (hg.pending hgf)⟩
  refine ⟨hr.orient hresidue, fun {α} M hrf hl hs => ?_⟩
  have hrestf := isFalse_of_orient hresidue hrf
  have hgoalf := isFalse_of_subtract hrest hrestf
  have hsrest : M.Satisfies rest :=
    Meaning.sat_of_orient (M := M.meaning V) hF hr.settled hresidue hrf hs
  have hsgoal : M.Satisfies goal :=
    (satisfies_subtract_iff hlisted (hg.settled.within hgoalf).lists hgoalf hrest hl).1.mp hsrest
  exact ⟨isFalse_of_orient hgoal hgoalf,
    Meaning.sat_of_orient (M := M.meaning V) hF hright.settled hgoal hgoalf hsgoal⟩

/-- It is enough that the first constraint entails what is left to show. -/
lemma Residue.entails
    (h : Residue (.standard Subsorts.builtin.order) fuel only left right residue)
    (hent : left.Entails only residue) : left.Entails only right := by
  intro α M hM
  obtain ⟨N, hN, hres⟩ := hent M hM
  have hl := hN.satisfies (hleft.normalForm h.1).1.over hM.2
  exact ⟨N, hN, (h.plain hleft hright).2 N hres.1 hl hres.2⟩

end Discharge

end Constraint

end SolvedForm

import SolvedForm.Proofs.Fragment.Frameless

/-!
What a decomposition does not take back.

* `Decomposition.Progress.Advances`: no number for a fresh variable is given out twice, and without
  folding there are no other alternatives than before.
* `Decomposition.advances_decompose`: every decomposition goes on in this way, also one that fails.
* `Unifier.structural_decisive`: without folding the structural unifier makes no disjunction.
* `Unifier.structural_supply_le`: its numbers for fresh variables go up.
* `Decomposition.Mintless`, `Decomposition.mintless_decompose`: between terms without frames no fresh
  variable is made, and the number of the next one has no effect.
* `Unifier.structural_mintless`: the answer of the unifier on such terms is a function of the equation.
-/

namespace SolvedForm

namespace Decomposition

variable {order : SortOrder} {fold : Bool} {p q : Progress} {x : Var} {s t : Term}
  {ss ts : List Term} {es fs : List Entry} {e : Equation}

/-- The numbers for fresh variables go up, and without folding the alternatives stay. -/
structure Progress.Advances (fold : Bool) (p q : Progress) : Prop where
  supply : p.supply ≤ q.supply
  alternatives : fold = false → q.alternatives = p.alternatives

lemma Progress.Advances.refl (p : Progress) : p.Advances fold p := ⟨Nat.le_refl _, fun _ => rfl⟩

lemma Progress.Advances.trans {r : Progress} (h : p.Advances fold q) (h' : q.Advances fold r) :
    p.Advances fold r :=
  ⟨Nat.le_trans h.supply h'.supply, fun hf => (h'.alternatives hf).trans (h.alternatives hf)⟩

/-- The outcome of a decomposition goes on from the progress before it. -/
def Progress.AdvancesTo (fold : Bool) (p : Progress) : Except Stuck Progress → Prop
  | .ok q => p.Advances fold q
  | .error stuck => p.supply ≤ stuck.supply

lemma advances_push (p : Progress) (es : List Equation) :
    p.AdvancesTo fold (.ok (p.push es)) :=
  ⟨Nat.le_refl _, fun _ => rfl⟩

lemma advances_fail (p : Progress) (failure : Unification.Failure) :
    p.AdvancesTo fold (p.fail failure) := Nat.le_refl _

/-- One step after the other. -/
lemma Progress.AdvancesTo.bind {r : Except Stuck Progress}
    {next : Progress → Except Stuck Progress} (h : p.AdvancesTo fold r)
    (hnext : ∀ q : Progress, q.AdvancesTo fold (next q)) : p.AdvancesTo fold (r >>= next) := by
  cases r with
  | error stuck => exact h
  | ok q =>
      change p.AdvancesTo fold (next q)
      have hq := hnext q
      generalize next q = r at hq
      cases r with
      | error stuck => exact Nat.le_trans h.supply hq
      | ok r => exact Progress.Advances.trans h hq

lemma advances_equateVar (p : Progress) :
    p.AdvancesTo fold (equateVar order x t e p) := by
  unfold equateVar
  split_ifs
  · exact advances_fail p _
  · exact advances_fail p _
  · exact advances_push p _

lemma advances_keep (p : Progress) : p.AdvancesTo fold (keep e p) := by
  unfold keep
  split_ifs
  · exact advances_fail p _
  · exact advances_push p _

lemma advances_settleAmbiguous {x y : Option Var} (p : Progress) :
    p.AdvancesTo fold (settleAmbiguous fold t es x fs y p) := by
  unfold settleAmbiguous
  simp only
  split
  · exact advances_push p _
  · next hfold =>
      split
      · exact advances_push p _
      · split
        · exact advances_fail p _
        · exact advances_push p _
        · exact ⟨Nat.le_refl _, fun hf => absurd (by simp [hf]) hfold⟩

/-- Two frames with leftovers on both sides share a fresh one, the other cases give one equation at
most. -/
lemma advances_settleRest {x y : Option Var} (p : Progress) :
    p.AdvancesTo fold (settleRest order s t es x fs y p) := by
  have mint : p.AdvancesTo fold (.ok { p with supply := p.supply + 1 }) :=
    ⟨Nat.le_succ _, fun _ => rfl⟩
  unfold settleRest
  simp only
  split <;> split <;>
    first
    | exact advances_fail p _
    | exact advances_equateVar p
    | skip
  · exact Progress.Advances.refl p
  · split
    · exact advances_fail p _
    · exact advances_fail p _
    · exact Progress.Advances.refl p
  · split
    · exact advances_equateVar p
    · exact advances_equateVar p
    · exact advances_equateVar p
    · exact mint.bind fun q => (advances_equateVar q).bind fun r => advances_equateVar r

lemma advances_settle {x y : Option Var} (p : Progress) :
    p.AdvancesTo fold (settle order fold s t es x fs y p) := by
  unfold settle
  split_ifs
  · exact advances_settleAmbiguous p
  · exact advances_settleRest p

/-- Every decomposition with the left side `s` goes on. -/
def AdvancesAt (order : SortOrder) (fold : Bool) (s : Term) : Prop :=
  ∀ (t : Term) (p : Progress), p.AdvancesTo fold (decompose order fold s t p)

lemma advances_decomposeArgs (ih : ∀ s ∈ ss, AdvancesAt order fold s) (p : Progress) :
    p.AdvancesTo fold (decomposeArgs order fold ss ts p) := by
  induction ss generalizing ts p with
  | nil => exact decomposeArgs.eq_2 order fold [] ts p (by simp) ▸ Progress.Advances.refl p
  | cons s ss ihs =>
      cases ts with
      | nil =>
          exact decomposeArgs.eq_2 order fold (s :: ss) [] p (by simp) ▸ Progress.Advances.refl p
      | cons t ts =>
          rw [List.forall_mem_cons] at ih
          rw [decomposeArgs]
          exact (ih.1 t p).bind fun q => ihs ih.2 q

lemma advances_decomposeEntries (ih : ∀ e ∈ es, AdvancesAt order fold e.2) (p : Progress) :
    p.AdvancesTo fold (decomposeEntries order fold es fs p) := by
  induction es generalizing p with
  | nil => exact Progress.Advances.refl p
  | cons e es ihe =>
      obtain ⟨k, v⟩ := e
      rw [List.forall_mem_cons] at ih
      rw [decomposeEntries]
      cases List.lookup k fs with
      | some w => exact (ih.1 w p).bind fun q => ihe ih.2 q
      | none => exact ihe ih.2 p

/-- The case of one term, when its arguments and values have been dealt with. -/
lemma advancesAt_of_parts
    (hargs : ∀ f ss, s = .app f ss → ∀ a ∈ ss, AdvancesAt order fold a)
    (hentries : ∀ es x, s = .map es x → ∀ e ∈ es, AdvancesAt order fold e.2) :
    AdvancesAt order fold s := by
  intro t p
  have hd := decomposed order fold s t
  generalize decompose order fold s t = run at hd
  cases hd with
  | same => exact Progress.Advances.refl p
  | left => exact advances_equateVar p
  | right => exact advances_equateVar p
  | clash => exact advances_fail p _
  | args => exact advances_decomposeArgs (hargs _ _ rfl) p
  | sizes => exact advances_fail p _
  | entries =>
      exact (advances_decomposeEntries (hentries _ _ rfl) p).bind fun q => advances_settle q
  | kept => exact advances_keep p

theorem advances_decompose (order : SortOrder) (fold : Bool) (s : Term) :
    AdvancesAt order fold s := induction_parts (fun _ => advancesAt_of_parts) s

end Decomposition

/-! ### The unifier -/

/-- Without folding the unifier makes no disjunction. -/
def Unifier.Decisive (unifier : Unifier) : Prop :=
  ∀ {e : Equation} {common : List Equation} {alternatives : List (List Equation)} {n m : Nat},
    unifier false e n ≠ (.ok (.disjunction common alternatives), m)

variable {order : SortOrder}

open Decomposition

lemma Unifier.structural_decisive (order : SortOrder) : (Unifier.structural order).Decisive := by
  intro e common alternatives n m h
  obtain ⟨q, hq, hans⟩ := structural_ok h
  have hadv := advances_decompose order false e.left e.right ⟨[], none, n⟩
  rw [hq] at hadv
  unfold Progress.answer at hans
  rw [hadv.alternatives rfl] at hans
  cases hans

lemma Unifier.structural_supply_le (order : SortOrder) (fold : Bool) (e : Equation) (n : Nat) :
    n ≤ (Unifier.structural order fold e n).2 := by
  have hadv := advances_decompose order fold e.left e.right ⟨[], none, n⟩
  unfold structural
  split
  · next hq =>
      rw [hq] at hadv
      exact hadv.supply
  · next hq =>
      rw [hq] at hadv
      exact hadv

/-! ### Terms without frames -/

namespace Decomposition

variable {order : SortOrder} {fold : Bool} {s t : Term} {ss ts : List Term} {es fs : List Entry}
  {x : Var} {e : Equation} {step : Progress → Except Stuck Progress}
  {next : Progress → Except Stuck Progress}

/-- The outcome of a decomposition with another number for the next fresh variable. -/
def renumber (n : Nat) : Except Stuck Progress → Except Stuck Progress
  | .ok p => .ok { p with supply := n }
  | .error stuck => .error { stuck with supply := n }

/-- The step does the same whatever the number of the next fresh variable, and leaves it. -/
def Mintless (step : Progress → Except Stuck Progress) : Prop :=
  ∀ p n, step { p with supply := n } = renumber n (step p)

lemma Mintless.bind (h : Mintless step) (hnext : Mintless next) :
    Mintless fun p => step p >>= next := by
  intro p n
  change step { p with supply := n } >>= next = renumber n (step p >>= next)
  rw [h p n]
  cases step p with
  | error stuck => rfl
  | ok q => exact hnext q n

lemma mintless_ok : Mintless .ok := fun _ _ => rfl

lemma mintless_fail (failure : Unification.Failure) : Mintless (·.fail failure) := fun _ _ => rfl

lemma mintless_equateVar : Mintless (equateVar order x t e) := by
  intro p n
  unfold equateVar
  split_ifs <;> rfl

lemma mintless_keep : Mintless (keep e) := by
  intro p n
  unfold keep
  split_ifs <;> rfl

lemma mintless_settle : Mintless (settle order fold s t es none fs none) := by
  intro p n
  unfold settle
  split
  · unfold settleAmbiguous
    simp only
    split
    · rfl
    · split
      · rfl
      · split <;> rfl
  · unfold settleRest
    cases es <;> cases fs <;> rfl

lemma mintless_decomposeArgs
    (ih : ∀ s ∈ ss, ∀ t, s.Frameless → t.Frameless → Mintless (decompose order fold s t))
    (hss : ∀ s ∈ ss, s.Frameless) (hts : ∀ t ∈ ts, t.Frameless) :
    Mintless (decomposeArgs order fold ss ts) := by
  induction ss generalizing ts with
  | nil =>
      intro p n
      rw [decomposeArgs.eq_2 _ _ _ _ _ (by simp), decomposeArgs.eq_2 _ _ _ _ _ (by simp)]
      rfl
  | cons s ss ihs =>
      cases ts with
      | nil =>
          intro p n
          rw [decomposeArgs.eq_2 _ _ _ _ _ (by simp), decomposeArgs.eq_2 _ _ _ _ _ (by simp)]
          rfl
      | cons t ts =>
          rw [List.forall_mem_cons] at ih hss hts
          have h := (ih.1 t hss.1 hts.1).bind (ihs ih.2 hss.2 hts.2)
          intro p n
          rw [decomposeArgs, decomposeArgs]
          exact h p n

lemma mintless_decomposeEntries
    (ih : ∀ e ∈ es, ∀ t, e.2.Frameless → t.Frameless → Mintless (decompose order fold e.2 t))
    (hes : ∀ e ∈ es, e.1.Frameless ∧ e.2.Frameless)
    (hfs : ∀ f ∈ fs, f.1.Frameless ∧ f.2.Frameless) :
    Mintless (decomposeEntries order fold es fs) := by
  induction es with
  | nil => exact mintless_ok
  | cons e es ihe =>
      obtain ⟨k, v⟩ := e
      rw [List.forall_mem_cons] at ih hes
      intro p n
      rw [decomposeEntries, decomposeEntries]
      cases hw : List.lookup k fs with
      | some w =>
          obtain ⟨f, hf, rfl⟩ := Term.mem_of_valueAt hw
          exact (ih.1 f.2 hes.1.2 (hfs f hf).2).bind (ihe ih.2 hes.2) p n
      | none => exact ihe ih.2 hes.2 p n

/-- The case of one term, when its arguments and values have been dealt with. -/
lemma mintless_of_parts (hs : s.Frameless) (ht : t.Frameless)
    (hargs : ∀ f ss, s = .app f ss → ∀ a ∈ ss, ∀ t, a.Frameless → t.Frameless →
      Mintless (decompose order fold a t))
    (hentries : ∀ es x, s = .map es x → ∀ e ∈ es, ∀ t, e.2.Frameless → t.Frameless →
      Mintless (decompose order fold e.2 t)) : Mintless (decompose order fold s t) := by
  have hd := decomposed order fold s t
  generalize decompose order fold s t = run at hd ⊢
  cases hd with
  | same => exact mintless_ok
  | left => exact mintless_equateVar
  | right => exact mintless_equateVar
  | clash => exact mintless_fail _
  | args =>
      exact mintless_decomposeArgs (hargs _ _ rfl) (Term.Frameless.app_iff.mp hs)
        (Term.Frameless.app_iff.mp ht)
  | sizes => exact mintless_fail _
  | entries =>
      obtain rfl := hereditary_frameless.frame hs
      obtain rfl := hereditary_frameless.frame ht
      exact (mintless_decomposeEntries (hentries _ _ rfl) hs.entries ht.entries).bind mintless_settle
  | kept => exact mintless_keep

/-- Between terms without frames no fresh variable is made. -/
theorem mintless_decompose (hs : s.Frameless) (ht : t.Frameless) :
    Mintless (decompose order fold s t) := by
  induction s using induction_parts generalizing t with
  | step s hargs hentries =>
      exact mintless_of_parts hs ht (fun f ss heq a ha _ hs ht => hargs f ss heq a ha hs ht)
        fun es x heq e he _ hs ht => hentries es x heq e he hs ht

end Decomposition

/-- The answer of the unifier to an equation between terms without frames is a function of the
equation. -/
lemma Unifier.structural_mintless (order : SortOrder) (fold : Bool) {e : Equation}
    (hl : e.left.Frameless) (hr : e.right.Frameless) :
    ∃ r, ∀ n, Unifier.structural order fold e n = (r, n) := by
  have hmint : Mintless (decompose order fold e.left e.right) := mintless_decompose hl hr
  cases h : decompose order fold e.left e.right ⟨[], none, 0⟩ with
  | ok p =>
      refine ⟨.ok p.answer, fun n => ?_⟩
      unfold structural
      rw [hmint ⟨[], none, 0⟩ n, h]
      rfl
  | error stuck =>
      refine ⟨.error stuck.failure, fun n => ?_⟩
      unfold structural
      rw [hmint ⟨[], none, 0⟩ n, h]
      rfl

end SolvedForm

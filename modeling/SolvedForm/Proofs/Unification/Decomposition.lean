import SolvedForm.Proofs.Engine
import SolvedForm.Proofs.Term.Frameless
import SolvedForm.Proofs.Unification.Search

/-!
Decomposition makes its equations of parts of the given terms.

* `Decomposition.Hereditary`: a class of terms that has the arguments and entries of its members,
  no map with a frame, and with a map all maps of some of its entries.
* `Decomposition.induction_parts`: induction along a decomposition.
* `Decomposition.keep_ok`, `Decomposition.equateVar_ok`: equations that are not decomposed.
* `Decomposition.decompose_closed`: the decomposition of an equation within such a class is made of
  equations within the class.
-/

namespace SolvedForm.Decomposition

/-- A class of terms without frames that is closed under parts. -/
structure Hereditary (P : Term → Prop) : Prop where
  app {f : Symbol} {args : List Term} : P (.app f args) → ∀ t ∈ args, P t
  frame {es : List Entry} {frame : Option Var} : P (.map es frame) → frame = none
  entries {es : List Entry} {frame : Option Var} : P (.map es frame) → ∀ e ∈ es, P e.1 ∧ P e.2
  rest {es fs : List Entry} : P (.map es none) → (∀ f ∈ fs, f ∈ es) → P (.ofEntries fs none)

/-- All equations found so far are between terms of the class. -/
structure Progress.Closed (P : Term → Prop) (p : Progress) : Prop where
  equations : ∀ e ∈ p.equations, P e.left ∧ P e.right
  alternatives : ∀ as, p.alternatives = some as → ∀ es ∈ as, ∀ e ∈ es, P e.left ∧ P e.right

variable {P : Term → Prop} {order : SortOrder} {fold : Bool} {p q : Progress} {s t : Term}
  {x : Var} {e : Equation} {es fs : List Entry}

lemma Progress.Closed.push {qs : List Equation} (hp : p.Closed P)
    (hqs : ∀ e ∈ qs, P e.left ∧ P e.right) : (p.push qs).Closed P :=
  ⟨fun e he => (List.mem_append.mp he).elim (hp.equations e) (hqs e), hp.alternatives⟩

/-! ### Equations that are not decomposed -/

lemma occursRigidlyEntries_iff : occursRigidlyEntries x es = true ↔
    ∃ e ∈ es, occursRigidly x e.1 = true ∨ occursRigidly x e.2 = true := by
  induction es with
  | nil => simp [occursRigidlyEntries]
  | cons e es ih => simp [occursRigidlyEntries, ih]

lemma fail_ne_ok {failure : Unification.Failure} : p.fail failure ≠ .ok q := nofun

lemma keep_ok (h : keep e p = .ok q) : q = p.push [e] ∧ e.left.headsClash e.right = false := by
  unfold keep at h
  split at h
  · exact absurd h fail_ne_ok
  · next hc => exact ⟨(Except.ok.inj h).symm, Bool.not_eq_true _ ▸ hc⟩

lemma equateVar_ok (h : equateVar order x t e p = .ok q) :
    q = p.push [e] ∧ order.compatible x.sort t.sort = true ∧ occursRigidly x t = false := by
  unfold equateVar at h
  split at h
  · exact absurd h fail_ne_ok
  · next hc =>
      split at h
      · exact absurd h fail_ne_ok
      · next ho =>
          exact ⟨(Except.ok.inj h).symm, by simpa using hc, Bool.not_eq_true _ ▸ ho⟩

/-! ### Pairings and leftovers -/

/-- A pairing is made of equations between keys and between values. -/
lemma closed_of_pairs {qs : List Equation} (h : Pairing.Pairs es fs qs)
    (hes : ∀ e ∈ es, P e.1 ∧ P e.2) (hfs : ∀ f ∈ fs, P f.1 ∧ P f.2) :
    ∀ q ∈ qs, P q.left ∧ P q.right := by
  induction h with
  | nil => simp
  | cons hp _ _ ih =>
      have hfs := fun f hf => hfs f ((Pairing.perm_of_mem_picks hp).subset hf)
      rw [List.forall_mem_cons] at hes hfs
      refine List.forall_mem_append.mpr ⟨fun q hq => ?_, ih hes.2 hfs.2⟩
      have hq := (List.mem_filter.mp hq).1
      simp only [List.mem_cons, List.not_mem_nil, or_false] at hq
      rcases hq with rfl | rfl
      · exact ⟨hes.1.1, hfs.1.1⟩
      · exact ⟨hes.1.2, hfs.1.2⟩

lemma mem_of_mem_leftover {e : Entry} (h : e ∈ leftover es fs) : e ∈ es :=
  (List.mem_filter.mp h).1

/-- The equations between what is left of two maps without frames. -/
lemma settle_closed (hP : Hereditary P) (hs : P (.map es none)) (ht : P (.map fs none))
    (hp : p.Closed P)
    (h : settle order fold s t (leftover es fs) none (leftover fs es) none p = .ok q) :
    q.Closed P := by
  unfold settle at h
  split at h
  · have hl : P (.ofEntries (leftover es fs) none) := hP.rest hs fun _ => mem_of_mem_leftover
    have hr : P (.ofEntries (leftover fs es) none) := hP.rest ht fun _ => mem_of_mem_leftover
    have hpairs : ∀ qs ∈ Pairing.firstN (maxAlternatives + 1) (leftover es fs) (leftover fs es),
        ∀ q ∈ qs, P q.left ∧ P q.right := fun qs hqs =>
      closed_of_pairs (Pairing.pairs_of_mem_firstN hqs)
        (fun e he => hP.entries hs e (mem_of_mem_leftover he))
        (fun f hf => hP.entries ht f (mem_of_mem_leftover hf))
    have hresidual : ∀ e ∈ [(⟨.ofEntries (leftover es fs) none, .ofEntries (leftover fs es) none⟩ :
        Equation)], P e.left ∧ P e.right := by
      simpa using ⟨hl, hr⟩
    rw [settleAmbiguous_eq] at h
    split at h
    · exact Except.ok.inj h ▸ hp.push hresidual
    · split at h
      · exact absurd h fail_ne_ok
      · next only honly =>
          exact Except.ok.inj h ▸ hp.push (hpairs only (by simp [honly]))
      · split at h
        · exact Except.ok.inj h ▸ hp.push hresidual
        · cases h
          exact ⟨hp.equations, fun as has => Option.some.inj has ▸ hpairs⟩
  · unfold settleRest at h
    simp only at h
    split at h
    · exact absurd h fail_ne_ok
    · exact absurd h fail_ne_ok
    · exact Except.ok.inj h ▸ hp

/-! ### Decomposition -/

/-- What the decomposition of the equation between two terms comes down to. -/
inductive Decomposed (order : SortOrder) (fold : Bool) :
    Term → Term → (Progress → Except Stuck Progress) → Prop where
  | same {s : Term} : Decomposed order fold s s .ok
  | left {x : Var} {t : Term} : .var x ≠ t →
      Decomposed order fold (.var x) t (equateVar order x t ⟨.var x, t⟩)
  | right {s : Term} {y : Var} : s ≠ .var y →
      Decomposed order fold s (.var y) (equateVar order y s ⟨s, .var y⟩)
  | clash {f g : Symbol} {ss ts : List Term} : f.isConstructor = true → g.isConstructor = true →
      f.name ≠ g.name ∨ ss.length ≠ ts.length →
      Decomposed order fold (.app f ss) (.app g ts)
        (·.fail (.symbolClash (.app f ss) (.app g ts)))
  | args {f g : Symbol} {ss ts : List Term} : f.isConstructor = true → g.isConstructor = true →
      f.name = g.name → ss.length = ts.length →
      Decomposed order fold (.app f ss) (.app g ts) (decomposeArgs order fold ss ts)
  | sizes {es fs : List Entry} {x y : Option Var} : sizesDiffer es x fs y = true →
      Decomposed order fold (.map es x) (.map fs y)
        (·.fail (.symbolClash (.map es x) (.map fs y)))
  | entries {es fs : List Entry} {x y : Option Var} :
      Decomposed order fold (.map es x) (.map fs y) fun p => do
        let p ← decomposeEntries order fold es fs p
        settle order fold (.map es x) (.map fs y) (leftover es fs) x (leftover fs es) y p
  | kept {s t : Term} : s ≠ t → s.asVar = none → t.asVar = none →
      (∀ f ss g ts, s = .app f ss → t = .app g ts →
        f.isConstructor = false ∨ g.isConstructor = false) →
      Decomposed order fold s t (keep ⟨s, t⟩)

lemma decomposed (order : SortOrder) (fold : Bool) (s t : Term) :
    Decomposed order fold s t (decompose order fold s t) := by
  have hrun := funext fun p => decompose.eq_def order fold s t p
  by_cases hst : s = t
  · subst hst
    simp only [↓reduceIte] at hrun
    exact hrun ▸ .same
  · rw [hrun]
    simp only [hst, ↓reduceIte]
    cases s <;> cases t <;>
      first
      | exact .left hst
      | exact .right hst
      | exact .kept hst rfl rfl (by simp)
      | skip
    · next f ss g ts =>
        cases hfg : f.isConstructor && g.isConstructor with
        | true =>
            simp only [hfg, ↓reduceIte]
            rw [Bool.and_eq_true] at hfg
            by_cases hc : (f.name ≠ g.name || ss.length ≠ ts.length) = true
            · simp only [hc, ↓reduceIte]
              exact .clash hfg.1 hfg.2 (by simpa using hc)
            · simp only [hc, Bool.false_eq_true, ↓reduceIte]
              simp only [ne_eq, decide_not, Bool.or_eq_true, Bool.not_eq_true',
                decide_eq_false_iff_not, not_or, not_not] at hc
              exact .args hfg.1 hfg.2 hc.1 hc.2
        | false =>
            simp only [hfg, Bool.false_eq_true, ↓reduceIte]
            refine .kept hst rfl rfl ?_
            simp only [Term.app.injEq, and_imp]
            rintro f ss g ts rfl rfl rfl rfl
            exact Bool.and_eq_false_iff.mp hfg
    · next es x fs y =>
        cases hs : sizesDiffer es x fs y with
        | true =>
            simp only [hs, ↓reduceIte]
            exact .sizes hs
        | false =>
            simp only [hs, Bool.false_eq_true, ↓reduceIte]
            exact .entries

lemma decompose_var_left (order : SortOrder) (fold : Bool) (h : .var x ≠ t) :
    decompose order fold (.var x) t = equateVar order x t ⟨.var x, t⟩ := by
  funext p
  rw [decompose.eq_def]
  simp only [h, ↓reduceIte]

lemma decompose_var_right (order : SortOrder) (fold : Bool) (h : s.asVar = none) :
    decompose order fold s (.var x) = equateVar order x s ⟨s, .var x⟩ := by
  funext p
  have hne : s ≠ .var x := by
    rintro rfl
    cases h
  rw [decompose.eq_def]
  simp only [hne, ↓reduceIte]
  cases s with
  | var => cases h
  | bool | int | app | map | lookup => rfl

/-- Induction along a decomposition, which goes on with the arguments of an application and with the
values of a map. -/
theorem induction_parts {motive : Term → Prop}
    (step : ∀ s, (∀ f ss, s = .app f ss → ∀ a ∈ ss, motive a) →
      (∀ es x, s = .map es x → ∀ e ∈ es, motive e.2) → motive s) (s : Term) : motive s := by
  induction s using Term.ind with
  | app f args ih =>
      refine step _ ?_ nofun
      rintro _ _ ⟨⟩
      exact ih
  | map entries frame ih =>
      refine step _ nofun ?_
      rintro _ _ ⟨⟩
      exact fun e he => (ih e he).2
  | var | bool | int | lookup => exact step _ nofun nofun

/-- What the decomposition of an equation with the left side `s` adds lies within the class. -/
def ClosedAt (P : Term → Prop) (order : SortOrder) (fold : Bool) (s : Term) : Prop :=
  ∀ ⦃t p q⦄, P s → P t → p.Closed P → decompose order fold s t p = .ok q → q.Closed P

lemma decomposeArgs_closed {ss ts : List Term} (ih : ∀ s ∈ ss, ClosedAt P order fold s)
    (hss : ∀ s ∈ ss, P s) (hts : ∀ t ∈ ts, P t) (hp : p.Closed P)
    (h : decomposeArgs order fold ss ts p = .ok q) : q.Closed P := by
  induction ss generalizing ts p with
  | nil =>
      rw [decomposeArgs.eq_2 _ _ _ _ _ (by simp)] at h
      exact Except.ok.inj h ▸ hp
  | cons s ss ihs =>
      cases ts with
      | nil =>
          rw [decomposeArgs.eq_2 _ _ _ _ _ (by simp)] at h
          exact Except.ok.inj h ▸ hp
      | cons t ts =>
          rw [decomposeArgs] at h
          obtain ⟨r, hr, h⟩ := exceptBind_eq_ok.mp h
          rw [List.forall_mem_cons] at ih hss hts
          exact ihs ih.2 hss.2 hts.2 (ih.1 hss.1 hts.1 hp hr) h

lemma decomposeEntries_closed (ih : ∀ e ∈ es, ClosedAt P order fold e.2)
    (hes : ∀ e ∈ es, P e.1 ∧ P e.2) (hfs : ∀ f ∈ fs, P f.1 ∧ P f.2) (hp : p.Closed P)
    (h : decomposeEntries order fold es fs p = .ok q) : q.Closed P := by
  induction es generalizing p with
  | nil => exact Except.ok.inj h ▸ hp
  | cons e es ihe =>
      obtain ⟨k, v⟩ := e
      rw [List.forall_mem_cons] at ih hes
      rw [decomposeEntries] at h
      cases hw : List.lookup k fs with
      | some w =>
          simp only [hw] at h
          obtain ⟨r, hr, hrest⟩ := exceptBind_eq_ok.mp h
          obtain ⟨f, hf, rfl⟩ := Term.mem_of_valueAt hw
          exact ihe ih.2 hes.2 (ih.1 hes.1.2 (hfs f hf).2 hp hr) hrest
      | none =>
          simp only [hw] at h
          exact ihe ih.2 hes.2 hp h

/-- The case of one term, when its arguments and values have been dealt with. -/
lemma closedAt_of_parts (hP : Hereditary P)
    (hargs : ∀ f ss, s = .app f ss → ∀ s ∈ ss, ClosedAt P order fold s)
    (hentries : ∀ es x, s = .map es x → ∀ e ∈ es, ClosedAt P order fold e.2) :
    ClosedAt P order fold s := by
  intro t p q hs ht hp h
  have hd := decomposed order fold s t
  generalize decompose order fold s t = run at hd h
  cases hd with
  | same => exact Except.ok.inj h ▸ hp
  | left => exact (equateVar_ok h).1 ▸ hp.push (by simpa using ⟨hs, ht⟩)
  | right => exact (equateVar_ok h).1 ▸ hp.push (by simpa using ⟨hs, ht⟩)
  | clash => exact absurd h fail_ne_ok
  | args => exact decomposeArgs_closed (hargs _ _ rfl) (hP.app hs) (hP.app ht) hp h
  | sizes => exact absurd h fail_ne_ok
  | @entries es fs x y =>
      obtain rfl := hP.frame hs
      obtain rfl := hP.frame ht
      obtain ⟨r, hr, h⟩ := exceptBind_eq_ok.mp h
      exact settle_closed hP hs ht (decomposeEntries_closed (hentries _ _ rfl) (hP.entries hs)
        (hP.entries ht) hp hr) h
  | kept => exact (keep_ok h).1 ▸ hp.push (by simpa using ⟨hs, ht⟩)

/-- What a decomposition adds lies within every class of terms that is closed under parts. -/
theorem decompose_closed (hP : Hereditary P) (s : Term) : ClosedAt P order fold s :=
  induction_parts (fun _ => closedAt_of_parts hP) s

/-! ### The unifier -/

/-- An answer of the unifier is the answer of a decomposition. -/
lemma structural_ok {u : Unification} {n m : Nat}
    (h : Unifier.structural order fold e n = (.ok u, m)) :
    ∃ q, decompose order fold e.left e.right ⟨[], none, n⟩ = .ok q ∧ q.answer = u := by
  unfold Unifier.structural at h
  split at h
  · next q hq =>
      obtain ⟨hu, -⟩ := Prod.mk.injEq .. ▸ h
      exact ⟨q, hq, Except.ok.inj hu⟩
  · cases h

/-- Parts that the unifier answers are the equations of a decomposition. -/
lemma structural_parts {parts : List Equation} {n m : Nat}
    (h : Unifier.structural order fold e n = (.ok (.unique parts), m)) :
    ∃ q, decompose order fold e.left e.right ⟨[], none, n⟩ = .ok q ∧ q.equations = parts ∧
      q.supply = m := by
  obtain ⟨q, hq, hans⟩ := structural_ok h
  refine ⟨q, hq, ?_, ?_⟩
  · unfold Progress.answer at hans
    split at hans
    · exact Unification.unique.inj hans
    · cases hans
  · unfold Unifier.structural at h
    rw [hq] at h
    exact (Prod.mk.inj h).2

lemma structural_unique (hP : Hereditary P) (hl : P e.left) (hr : P e.right)
    {parts : List Equation} {n m : Nat}
    (h : Unifier.structural order fold e n = (.ok (.unique parts), m)) :
    ∀ q ∈ parts, P q.left ∧ P q.right := by
  obtain ⟨q, hq, rfl, -⟩ := structural_parts h
  have hclosed : q.Closed P := decompose_closed hP _ hl hr ⟨by simp, by simp⟩ hq
  exact hclosed.equations

lemma structural_disjunction (hP : Hereditary P) (hl : P e.left) (hr : P e.right)
    {common : List Equation} {alternatives : List (List Equation)} {n m : Nat}
    (h : Unifier.structural order fold e n = (.ok (.disjunction common alternatives), m)) :
    ∀ qs ∈ common :: alternatives, ∀ q ∈ qs, P q.left ∧ P q.right := by
  obtain ⟨q, hq, hans⟩ := structural_ok h
  have hclosed : q.Closed P := decompose_closed hP _ hl hr ⟨by simp, by simp⟩ hq
  unfold Progress.answer at hans
  split at hans
  · cases hans
  · next as has =>
      obtain ⟨rfl, rfl⟩ := Unification.disjunction.injEq .. ▸ hans
      exact List.forall_mem_cons.mpr ⟨hclosed.equations, hclosed.alternatives _ has⟩

end SolvedForm.Decomposition

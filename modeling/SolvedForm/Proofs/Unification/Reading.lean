import SolvedForm.Proofs.Meaning
import SolvedForm.Proofs.Unification.Decomposition

/-!
Decomposition over free constructors is exact.

* `Reading`: values for a class of terms without maps in which constructors are free.
* `Reading.ne_of_occursRigidly`, `Reading.ne_of_provablyDistinct`: a variable beneath constructors
  and provably distinct terms have different values.
* `Decomposition.Residual`: what an equation that is not decomposed further looks like.
* `Reading.decides_decompose`, `Reading.decides_structural`: the equations left by a decomposition
  hold exactly when the decomposed one does, and a failure refutes it.
* `Reading.meaning`: such values are a meaning of a fragment that respects the rest of solving.
-/

namespace SolvedForm

open Decomposition

/-- Values for a class of terms without maps in which constructors are free. -/
structure Reading (order : SortOrder) (P : Term → Prop) (V : Type) where
  /-- The value of a term. -/
  val : Term → V
  /-- The size of a value. -/
  size : V → Nat
  not_map {es : List Entry} {frame : Option Var} : ¬ P (.map es frame)
  args {f : Symbol} {ss : List Term} : P (.app f ss) → ∀ s ∈ ss, P s
  size_lt {f : Symbol} {ss : List Term} : P (.app f ss) → f.isConstructor = true →
    ∀ s ∈ ss, size (val s) < size (val (.app f ss))
  app_iff {f g : Symbol} {ss ts : List Term} : P (.app f ss) → P (.app g ts) →
    f.isConstructor = true → g.isConstructor = true →
    (val (.app f ss) = val (.app g ts) ↔
      f.name = g.name ∧ ss.length = ts.length ∧ ss.map val = ts.map val)
  incompatible {s t : Term} : P s → P t → order.compatible s.sort t.sort = false → val s ≠ val t
  clash {s t : Term} : P s → P t → s.headsClash t = true → val s ≠ val t

lemma Term.Head.clash_self (h : Term.Head) : h.clash h = false := by
  cases h with
  | map size => cases size <;> simp [Term.Head.clash]
  | bool | int | constructor => simp [Term.Head.clash]

/-- Lists of terms with an argument that differs have different lists of values. -/
lemma Term.map_ne_of_someDistinct {α : Type} {val : Term → α} {ss ts : List Term}
    (ih : ∀ s ∈ ss, ∀ t ∈ ts, s.provablyDistinct t = true → val s ≠ val t)
    (h : Term.someDistinct ss ts = true) : ss.map val ≠ ts.map val := by
  induction ss generalizing ts with
  | nil => simp [Term.someDistinct] at h
  | cons s ss ihs =>
      cases ts with
      | nil => simp
      | cons t ts =>
          rw [Term.someDistinct, Bool.or_eq_true] at h
          rw [List.map_cons, List.map_cons, ne_eq, List.cons.injEq, not_and_or]
          rcases h with h | h
          · exact .inl (ih s List.mem_cons_self t List.mem_cons_self h)
          · exact .inr (ihs (fun s hs t ht =>
              ih s (List.mem_cons_of_mem _ hs) t (List.mem_cons_of_mem _ ht)) h)

/-- An equation that is not decomposed further: a variable on one side, which is neither the other
side nor occurs in it beneath constructors, or two terms whose heads may be the same. -/
inductive Decomposition.Residual : Equation → Prop where
  | left {x : Var} {t : Term} : .var x ≠ t → occursRigidly x t = false → Residual ⟨.var x, t⟩
  | right {x : Var} {t : Term} : t ≠ .var x → occursRigidly x t = false → Residual ⟨t, .var x⟩
  | kept {s t : Term} : s ≠ t → s.asVar = none → t.asVar = none → s.headsClash t = false →
      (∀ f ss g ts, s = .app f ss → t = .app g ts →
        f.isConstructor = false ∨ g.isConstructor = false) → Residual ⟨s, t⟩

/-- What a decomposition comes to that does not depend on earlier findings: it adds equations, or
it fails. -/
def Decomposition.Progress.finish (p : Progress) :
    Except Unification.Failure (List Equation) → Except Stuck Progress
  | .ok es => .ok (p.push es)
  | .error failure => p.fail failure

lemma Decomposition.Progress.push_nil (p : Progress) : p.push [] = p := by
  simp [Progress.push]

namespace Reading

variable {order : SortOrder} {P : Term → Prop} {V : Type} {R : Reading order P V}
  {fold : Bool} {p q : Progress} {s t : Term} {ss ts : List Term} {x : Var}

/-! ### Terms that cannot be equal -/

lemma occursRigidlyArgs_iff :
    occursRigidlyArgs x ts = true ↔ ∃ t ∈ ts, occursRigidly x t = true := by
  induction ts with
  | nil => simp [occursRigidlyArgs]
  | cons t ts ih => simp [occursRigidlyArgs, ih]

/-- A term is larger than a variable beneath its constructors. -/
lemma size_lt_of_occursRigidly (ht : P t) (hne : t ≠ .var x) (h : occursRigidly x t = true) :
    R.size (R.val (.var x)) < R.size (R.val t) := by
  induction t using Term.ind with
  | app f args ih =>
      rw [occursRigidly, Bool.and_eq_true, occursRigidlyArgs_iff] at h
      obtain ⟨hf, a, ha, hx⟩ := h
      have hlt := R.size_lt ht hf a ha
      by_cases hax : a = .var x
      · exact hax ▸ hlt
      · exact Nat.lt_trans (ih a ha (R.args ht a ha) hax hx) hlt
  | var y => exact absurd (by simpa [occursRigidly] using h) (fun hy : y = x => hne (hy ▸ rfl))
  | map es frame => exact absurd ht R.not_map
  | bool b => simp [occursRigidly] at h
  | int i => simp [occursRigidly] at h
  | lookup m k => simp [occursRigidly] at h

lemma ne_of_occursRigidly (ht : P t) (hne : t ≠ .var x) (h : occursRigidly x t = true) :
    R.val (.var x) ≠ R.val t := fun heq =>
  absurd (size_lt_of_occursRigidly (R := R) ht hne h) (by rw [heq]; exact Nat.lt_irrefl _)

lemma ne_of_provablyDistinct (hs : P s) (ht : P t) (h : s.provablyDistinct t = true) :
    R.val s ≠ R.val t := by
  induction s using Term.ind generalizing t with
  | app f ss ih =>
      cases t with
      | app g ts =>
          rw [Term.provablyDistinct, Bool.or_eq_true, Bool.and_eq_true, Bool.and_eq_true] at h
          rcases h with h | ⟨⟨hf, hg⟩, h⟩
          · exact R.clash hs ht h
          · rw [ne_eq, R.app_iff hs ht hf hg]
            exact fun heq => Term.map_ne_of_someDistinct
              (fun s hs' t ht' => ih s hs' (R.args hs s hs') (R.args ht t ht')) h heq.2.2
      | var | bool | int | map | lookup => exact R.clash hs ht h
  | var | bool | int | map | lookup => cases t <;> exact R.clash hs ht h

lemma ne_of_truth_eq_false {e : Equation} (hl : P e.left) (hr : P e.right)
    (h : e.truth order = .false) : R.val e.left ≠ R.val e.right := by
  rcases (Equation.truth_eq_false_iff.mp h).2 with hc | hd
  · exact R.incompatible hl hr hc
  · exact ne_of_provablyDistinct hl hr hd

/-! ### Decomposition -/

/-- The equations hold exactly when the statement does, and none of them can be decomposed further;
a failure refutes the statement. -/
def Decides (R : Reading order P V) (holds : Prop) :
    Except Unification.Failure (List Equation) → Prop
  | .ok es => (∀ e ∈ es, Residual e) ∧ ((∀ e ∈ es, R.val e.left = R.val e.right) ↔ holds)
  | .error _ => ¬ holds

/-- Whatever has been found before, the run adds the same equations, or fails in the same way, and
so decides the statement. -/
def DecidedBy (R : Reading order P V) (holds : Prop) (run : Progress → Except Stuck Progress) :
    Prop :=
  ∃ r, run = (·.finish r) ∧ R.Decides holds r

lemma decidedBy_ok {holds : Prop} (h : holds) : R.DecidedBy holds .ok :=
  ⟨.ok [], funext fun p => congrArg Except.ok p.push_nil.symm, by simp, by simpa⟩

lemma decidedBy_fail {holds : Prop} (failure : Unification.Failure) (h : ¬ holds) :
    R.DecidedBy holds (·.fail failure) :=
  ⟨.error failure, rfl, h⟩

lemma decidedBy_push {e : Equation} (h : Residual e) :
    R.DecidedBy (R.val e.left = R.val e.right) (fun p => .ok (p.push [e])) :=
  ⟨.ok [e], rfl, by simpa, by simp⟩

lemma decidedBy_equateVar {u : Term} {e : Equation} (hx : P (.var x)) (hu : P u)
    (hne : u ≠ .var x) (he : e = ⟨.var x, u⟩ ∨ e = ⟨u, .var x⟩) :
    R.DecidedBy (R.val e.left = R.val e.right) (equateVar order x u e) := by
  have hval : R.val e.left = R.val e.right → R.val (.var x) = R.val u := by
    rcases he with rfl | rfl
    · exact id
    · exact Eq.symm
  unfold equateVar
  cases hc : order.compatible x.sort u.sort with
  | false =>
      simp only [Bool.not_false, ↓reduceIte]
      exact decidedBy_fail _ fun h => R.incompatible hx hu hc (hval h)
  | true =>
      cases ho : occursRigidly x u with
      | true =>
          simp only [Bool.not_true, Bool.false_eq_true, ↓reduceIte]
          exact decidedBy_fail _ fun h => ne_of_occursRigidly hu hne ho (hval h)
      | false =>
          simp only [Bool.not_true, Bool.false_eq_true, ↓reduceIte]
          refine decidedBy_push ?_
          rcases he with rfl | rfl
          · exact .left hne.symm ho
          · exact .right hne ho

lemma decidedBy_keep {e : Equation} (hl : P e.left) (hr : P e.right)
    (h : e.left.headsClash e.right = false → Residual e) :
    R.DecidedBy (R.val e.left = R.val e.right) (keep e) := by
  unfold keep
  cases hc : e.left.headsClash e.right with
  | true =>
      simp only [↓reduceIte]
      exact decidedBy_fail _ (R.clash hl hr hc)
  | false =>
      simp only [Bool.false_eq_true, ↓reduceIte]
      exact decidedBy_push (h hc)

/-- A run after another one decides both statements. -/
lemma DecidedBy.bind {first second : Prop} {run run' : Progress → Except Stuck Progress}
    (h : R.DecidedBy first run) (h' : R.DecidedBy second run') :
    R.DecidedBy (first ∧ second) fun p => run p >>= run' := by
  obtain ⟨r, rfl, hr⟩ := h
  obtain ⟨r', rfl, hr'⟩ := h'
  match r, r' with
  | .error failure, _ => exact ⟨.error failure, rfl, fun h => hr h.1⟩
  | .ok es, .error failure => exact ⟨.error failure, rfl, fun h => hr' h.2⟩
  | .ok es, .ok fs =>
      refine ⟨.ok (es ++ fs), funext fun p => ?_, ?_, ?_⟩
      · change Except.ok ((p.push es).push fs) = Except.ok (p.push (es ++ fs))
        simp [Progress.push]
      · exact List.forall_mem_append.mpr ⟨hr.1, hr'.1⟩
      · rw [List.forall_mem_append, hr.2, hr'.2]

/-- The decomposition of an equation with the left side `s` decides the equation. -/
def DecidesAt (R : Reading order P V) (fold : Bool) (s : Term) : Prop :=
  ∀ ⦃t⦄, P s → P t → R.DecidedBy (R.val s = R.val t) (decompose order fold s t)

lemma decidedBy_decomposeArgs (ih : ∀ s ∈ ss, R.DecidesAt fold s) (hss : ∀ s ∈ ss, P s)
    (hts : ∀ t ∈ ts, P t) (hlength : ss.length = ts.length) :
    R.DecidedBy (ss.map R.val = ts.map R.val) (decomposeArgs order fold ss ts) := by
  induction ss generalizing ts with
  | nil =>
      obtain rfl : ts = [] := List.length_eq_zero_iff.mp hlength.symm
      exact decidedBy_ok rfl
  | cons s ss ihs =>
      cases ts with
      | nil => cases hlength
      | cons t ts =>
          rw [List.forall_mem_cons] at ih hss hts
          rw [List.map_cons, List.map_cons, List.cons.injEq]
          exact (ih.1 hss.1 hts.1).bind (ihs ih.2 hss.2 hts.2 (Nat.succ.inj hlength))

/-- A decomposition decides the equation. -/
theorem decides_decompose (R : Reading order P V) (fold : Bool) (s : Term) :
    R.DecidesAt fold s := by
  -- only the arguments of an application are decomposed in turn
  have step : ∀ s : Term, (∀ f ss, s = .app f ss → ∀ a ∈ ss, R.DecidesAt fold a) →
      R.DecidesAt fold s := by
    intro s hargs t hs ht
    have hd := decomposed order fold s t
    generalize decompose order fold s t = run at hd
    cases hd with
    | same => exact decidedBy_ok rfl
    | left hne => exact decidedBy_equateVar hs ht hne.symm (.inl rfl)
    | right hne => exact decidedBy_equateVar ht hs hne (.inr rfl)
    | clash hf hg h =>
        refine decidedBy_fail _ fun heq => ?_
        have heq := (R.app_iff hs ht hf hg).mp heq
        exact h.elim (fun h => h heq.1) fun h => h heq.2.1
    | @args f g ss ts hf hg hname hlength =>
        have hiff : R.val (.app f ss) = R.val (.app g ts) ↔ ss.map R.val = ts.map R.val := by
          rw [R.app_iff hs ht hf hg, and_iff_right hname, and_iff_right hlength]
        rw [hiff]
        exact decidedBy_decomposeArgs (hargs _ _ rfl) (R.args hs) (R.args ht) hlength
    | sizes => exact absurd hs R.not_map
    | entries => exact absurd hs R.not_map
    | kept hne hs' ht' hfg =>
        exact decidedBy_keep (e := ⟨s, t⟩) hs ht fun hc => .kept hne hs' ht' hc hfg
  induction s using Term.ind with
  | app f args ih =>
      refine step _ ?_
      rintro _ _ ⟨⟩
      exact ih
  | var | bool | int | map | lookup => exact step _ nofun

/-! ### The unifier -/

variable {e : Equation} {n m : Nat}

/-- The unifier draws no fresh variable and does not branch: it makes parts of an equation, which
hold exactly when the equation does and cannot be decomposed further, or it refutes the
equation. -/
theorem decides_structural (R : Reading order P V) (fold : Bool) (hl : P e.left)
    (hr : P e.right) :
    ∃ r, R.Decides (R.val e.left = R.val e.right) r ∧
      ∀ n, Unifier.structural order fold e n = (r.map .unique, n) := by
  obtain ⟨r, hr, hd⟩ := R.decides_decompose fold e.left hl hr
  refine ⟨r, hd, fun n => ?_⟩
  unfold Unifier.structural
  rw [hr]
  cases r <;> rfl

/-- A reading of the terms of a fragment that respects substitution, evaluation and conjunction
is a meaning of the fragment. -/
def meaning {F : Fragment (Theory.standard order)} (R : Reading order F.Mem V)
    (val_apply : ∀ {σ : Substitution}, F.MemSubst σ →
      (∀ b ∈ σ.toList, R.val (.var b.1) = R.val b.2) → ∀ {t}, F.Mem t →
      R.val (σ.apply t) = R.val t)
    (val_evaluate : ∀ {t}, F.Mem t → R.val t.evaluate = R.val t)
    (conjuncts : ∀ {t}, F.Mem t →
      ((∀ u ∈ t.conjuncts, R.val u = R.val (.bool true)) ↔ R.val t = R.val (.bool true))) :
    Meaning F V where
  val := R.val
  val_apply := val_apply
  val_evaluate := val_evaluate
  conjuncts := conjuncts
  refuted he := ne_of_truth_eq_false he.1 he.2
  unique he h := by
    obtain ⟨r, hd, hrun⟩ := R.decides_structural false he.1 he.2
    have h := (hrun _).symm.trans h
    cases r <;> cases h
    exact hd.2
  disjunction he h := by
    obtain ⟨r, hd, hrun⟩ := R.decides_structural false he.1 he.2
    have h := (hrun _).symm.trans h
    cases r <;> cases h
  failure he h := by
    obtain ⟨r, hd, hrun⟩ := R.decides_structural false he.1 he.2
    have h := (hrun _).symm.trans h
    cases r <;> cases h
    exact hd

end Reading

end SolvedForm

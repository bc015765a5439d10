import SolvedForm.Constraint.Alternatives
import SolvedForm.Constraint.Expansion
import SolvedForm.Proofs.Constraint.Orientation
import SolvedForm.Proofs.Constraint.Simplification
import SolvedForm.Proofs.Fragment.Frameless

/-!
The normal form under expansion of lookups and under the choice of alternatives.

* `Term.Over.replace`, `Constraint.over_read`: replacement along a table and the reading of a term
  in a constraint bring no other variables in than those of the values.
* `Expansion.over_ofTerm`: nor does the expansion of a term.
* `Constraint.expandAndSimplify_settled`: an expanded constraint is false or in normal form.
* `Constraint.alternatives_settled`: so is every alternative of a constraint.
-/

namespace SolvedForm

open Term

variable {allowed : Var → Prop} {order : SortOrder} {narrowing : Bool}

/-! ### Replacement -/

lemma Term.mem_of_table_find? {table : Table} {t u : Term} (h : table.find? t = some u) :
    ∃ p ∈ table, p.2 = u :=
  mem_of_valueAt h

lemma Term.Over.replace {table : Table} (htable : ∀ p ∈ table, p.2.Over allowed) {t : Term}
    (ht : t.Over allowed) : (t.replace table).Over allowed := by
  have listed : ∀ {u v : Term}, table.find? u = some v → v.Over allowed := by
    intro u v h
    obtain ⟨p, hp, rfl⟩ := mem_of_table_find? h
    exact htable p hp
  -- a term is replaced as a whole, or looked up again when its parts have been replaced
  have step : ∀ {u v : Term}, v.Over allowed →
      ((table.find? u).getD ((table.find? v).getD v)).Over allowed := by
    intro u v hv
    cases hu : table.find? u with
    | some w => exact listed hu
    | none =>
        cases hv' : table.find? v with
        | some w => exact listed hv'
        | none => exact hv
  unfold Term.replace
  induction t using Term.ind with
  | var x => exact step ht
  | bool b => exact step ht
  | int i => exact step ht
  | app f args ih =>
      rw [rewrite, rewriteArgs_eq_map]
      exact step (app_iff.mpr (List.forall_mem_map.mpr fun a ha => ih a ha (app_iff.mp ht a ha)))
  | map es frame ih =>
      cases ht.frameless
      rw [rewrite, rewriteEntries_eq_map, reframe]
      exact step (ofEntries (List.forall_mem_map.mpr fun e he =>
        ⟨(ih e he).1 (ht.entries e he).1, (ih e he).2 (ht.entries e he).2⟩))
  | lookup m k ihm ihk =>
      rw [rewrite]
      exact step (lookup_iff.mpr ⟨ihm (lookup_iff.mp ht).1, ihk (lookup_iff.mp ht).2⟩)

lemma Term.Over.apply {σ : Substitution} (hσ : ∀ b ∈ σ.toList, b.2.Over allowed) {t : Term}
    (ht : t.Over allowed) : (σ.apply t).Over allowed := by
  refine ⟨ht.frameless.apply fun x u hu =>
    (hσ (x, u) (Substitution.mem_toList_iff.mpr hu)).frameless, fun x hx => ?_⟩
  rcases mem_vars_apply ht.frameless hx with ⟨hx, -⟩ | ⟨y, u, -, hu, hx⟩
  · exact ht.vars x hx
  · exact (hσ (y, u) (Substitution.mem_toList_iff.mpr hu)).vars x hx

/-! ### Expansion of terms -/

namespace Expansion

/-- The term of the expansion and its conditions are over a class of variables. -/
structure Over (allowed : Var → Prop) (r : Expansion) : Prop where
  term : r.term.Over allowed
  conditions : ∀ e ∈ r.conditions, e.left.Over allowed ∧ e.right.Over allowed

lemma over_ofLookup {m k : Term} {r : Expansion} (hm : m.Over allowed) (hk : k.Over allowed)
    (h : ofLookup narrowing m k = some r) : r.Over allowed := by
  unfold ofLookup at h
  split at h
  · next es frame =>
      split at h
      · next v hv =>
          obtain ⟨e, he, rfl⟩ := mem_of_valueAt hv
          cases h
          exact ⟨(hm.entries e he).2, by simp⟩
      · split at h
        · cases h
        · split at h
          · next e heq =>
              have he : e ∈ es := (List.mem_filter.mp (heq ▸ List.mem_singleton_self e)).1
              cases h
              exact ⟨(hm.entries e he).2, by simpa using ⟨hk, (hm.entries e he).1⟩⟩
          · cases h
  · cases h

variable {read : Term → Term}

/-- The expansion of a term is over the variables that the reading of terms stays over. -/
theorem over_ofTerm (hread : ∀ t : Term, t.Over allowed → (read t).Over allowed) {t : Term}
    (ht : t.Over allowed) : (ofTerm read narrowing t).Over allowed := by
  induction t using Term.ind with
  | var x => exact ⟨ht, by simp [ofTerm]⟩
  | bool b => exact ⟨ht, by simp [ofTerm]⟩
  | int i => exact ⟨ht, by simp [ofTerm]⟩
  | app f args ih =>
      have hargs : (∀ a ∈ (ofArgs read narrowing args).1, a.Over allowed) ∧
          ∀ e ∈ (ofArgs read narrowing args).2, e.left.Over allowed ∧ e.right.Over allowed := by
        have ht := Term.Over.app_iff.mp ht
        clear * - ih ht
        induction args with
        | nil => simp [ofArgs]
        | cons a args iha =>
            rw [List.forall_mem_cons] at ih ht
            obtain ⟨h₁, h₂⟩ := iha ih.2 ht.2
            obtain ⟨h₃, h₄⟩ := ih.1 ht.1
            rw [ofArgs]
            exact ⟨List.forall_mem_cons.mpr ⟨h₃, h₁⟩,
              fun e he => (List.mem_append.mp he).elim (h₄ e) (h₂ e)⟩
      rw [ofTerm]
      exact ⟨Term.Over.app_iff.mpr hargs.1, hargs.2⟩
  | map es frame ih =>
      have hentries : (∀ e ∈ (ofEntries read narrowing es).1, e.1.Over allowed ∧ e.2.Over allowed) ∧
          ∀ e ∈ (ofEntries read narrowing es).2, e.left.Over allowed ∧ e.right.Over allowed := by
        have ht := ht.entries
        clear * - ih ht
        induction es with
        | nil => simp [ofEntries]
        | cons e es ihe =>
            obtain ⟨k, v⟩ := e
            rw [List.forall_mem_cons] at ih ht
            obtain ⟨h₁, h₂⟩ := ihe ih.2 ht.2
            obtain ⟨hk, hk'⟩ := ih.1.1 ht.1.1
            obtain ⟨hv, hv'⟩ := ih.1.2 ht.1.2
            rw [ofEntries]
            refine ⟨List.forall_mem_cons.mpr ⟨⟨hk, hv⟩, h₁⟩, fun e he => ?_⟩
            rcases List.mem_append.mp he with he | he
            · exact (List.mem_append.mp he).elim (hk' e) (hv' e)
            · exact h₂ e he
      cases ht.frameless
      rw [ofTerm]
      exact ⟨Term.Over.ofEntries hentries.1, hentries.2⟩
  | lookup m k ihm ihk =>
      obtain ⟨hm, hm'⟩ := ihm (Term.Over.lookup_iff.mp ht).1
      obtain ⟨hk, hk'⟩ := ihk (Term.Over.lookup_iff.mp ht).2
      have hconditions : ∀ e ∈ (ofTerm read narrowing m).conditions ++
          (ofTerm read narrowing k).conditions, e.left.Over allowed ∧ e.right.Over allowed :=
        fun e he => (List.mem_append.mp he).elim (hm' e) (hk' e)
      rw [ofTerm]
      split
      · next r hr =>
          have hr := over_ofLookup (hread _ hm) (hread _ hk) hr
          exact ⟨hr.term, fun e he =>
            (List.mem_append.mp he).elim (hconditions e) (hr.conditions e)⟩
      · exact ⟨Term.Over.lookup_iff.mpr ⟨hm, hk⟩, hconditions⟩

end Expansion

namespace Constraint

variable {c d : Constraint} {t : Term}

/-! ### What a constraint knows of a term -/

/-- A ground fact is an equation of the constraint, read towards a ground side. -/
lemma mem_groundFacts {p : Term × Term} (h : p ∈ c.groundFacts) :
    ∃ e ∈ c.equations.toList, (p = (e.left, e.right) ∧ e.right.isGround = true) ∨
      (p = (e.right, e.left) ∧ e.left.isGround = true) := by
  unfold groundFacts at h
  have facts : ∀ (es : List Equation) (table : Table),
      p ∈ es.foldl (fun facts e =>
        let facts := if e.right.isGround then (e.left, e.right) :: facts else facts
        if e.left.isGround then (e.right, e.left) :: facts else facts) table →
      p ∈ table ∨ ∃ e ∈ es, (p = (e.left, e.right) ∧ e.right.isGround = true) ∨
        (p = (e.right, e.left) ∧ e.left.isGround = true) := by
    intro es
    induction es with
    | nil => exact fun table h => .inl h
    | cons e es ih =>
        intro table h
        rw [List.foldl_cons] at h
        rcases ih _ h with h | ⟨q, hq, h⟩
        · dsimp only at h
          split at h <;> split at h <;> grind
        · exact .inr ⟨q, List.mem_cons_of_mem e hq, h⟩
  exact (facts _ [] h).resolve_left (by simp)

lemma over_read (hes : ∀ e ∈ c.equations.toList, e.left.Frameless ∧ e.right.Frameless)
    (hstore : ∀ b ∈ c.store.toList, b.2.Over allowed) (ht : t.Over allowed) :
    (c.read (.standard order) t).Over allowed := by
  refine Term.Over.evaluate ((ht.apply hstore).replace fun p hp => ?_)
  have ground : ∀ {u : Term}, u.Frameless → u.isGround = true → u.Over allowed :=
    fun hu hg => ⟨hu, by simp [isGround_iff.mp hg]⟩
  obtain ⟨e, he, ⟨rfl, hg⟩ | ⟨rfl, hg⟩⟩ := mem_groundFacts hp
  · exact ground (hes e he).2 hg
  · exact ground (hes e he).1 hg

lemma over_expand? {r : Expansion}
    (hes : ∀ e ∈ c.equations.toList, e.left.Frameless ∧ e.right.Frameless)
    (hstore : ∀ b ∈ c.store.toList, b.2.Over allowed) (ht : t.Over allowed)
    (h : c.expand? (.standard order) narrowing t = some r) : r.Over allowed := by
  unfold expand? at h
  split at h
  · cases h
  · dsimp only at h
    split at h
    · cases h
    · exact Option.some.inj h ▸ Expansion.over_ofTerm (fun _ => over_read hes hstore) ht

lemma frameless_expand? {r : Expansion}
    (hes : ∀ e ∈ c.equations.toList, e.left.Frameless ∧ e.right.Frameless)
    (hstore : ∀ b ∈ c.store.toList, b.2.Frameless) (ht : t.Frameless)
    (h : c.expand? (.standard order) narrowing t = some r) : r.Over fun _ => True :=
  over_expand? hes (fun b hb => ⟨hstore b hb, fun _ _ => trivial⟩) ⟨ht, fun _ _ => trivial⟩ h

/-! ### Expansion of a constraint -/

/-- What holds in the course of expansion: the constraint is false, or only its store has changed,
without a key getting into a value. -/
def ExpandingFrom (order : SortOrder) (c : Constraint) (s : Expanding) : Prop :=
  s.constraint.Refuted ∨
    (∃ σ, s.constraint = { c with store := σ } ∧
      (Fragment.withoutFrames order).MemSubst σ ∧ σ.Separated (· ∈ c.store.keys)) ∧
    ∀ e ∈ s.conditions, (Fragment.withoutFrames order).MemEq e

lemma expandBinding_from {s : Expanding} {x : Var} (hc : c.Within (.withoutFrames order))
    (hs : ExpandingFrom order c s) (hx : x ∈ c.store.keys) :
    ExpandingFrom order c (expandBinding (.standard order) narrowing s x) := by
  unfold expandBinding
  split
  · next r hr =>
      rcases hs with hs | ⟨⟨σ, hσ, hmem, hsep⟩, hconditions⟩
      · exact .inl (by rw [bind_of_isFalse hs.1]; exact hs)
      · obtain ⟨u, hu, hr⟩ := Option.bind_eq_some_iff.mp hr
        rw [hσ] at hu hr ⊢
        have hover : ∀ b ∈ σ.toList, b.2.Over (· ∉ c.store.keys) :=
          fun b hb => ⟨hmem b hb, (hsep b hb).2⟩
        have hr := over_expand? (hc.setStore hmem).over.equations hover
          (hover (x, u) (Substitution.mem_toList_iff.mpr hu)) hr
        have hterm := hr.term.evaluate
        have hself : r.term.evaluate ≠ .var x := fun heq => hterm.vars x (by simp [heq]) hx
        rcases bind_cases (T := .standard order) (c := { c with store := σ })
          hc.over.undecided hself with ⟨-, hb⟩ | ⟨-, hb⟩
        · refine .inr ⟨⟨_, hb, hmem.insert hterm.frameless, hsep.insert hx hterm.vars⟩, fun e he => ?_⟩
          exact (List.mem_append.mp he).elim (hconditions e)
            fun he => ⟨(hr.conditions e he).1.frameless, (hr.conditions e he).2.frameless⟩
        · exact .inl (hb.symm ▸ refuted_falsify (by exact hc.over.undecided) _)
  · exact hs

lemma expandEquation_mem {e : Equation} {r : Equation × List Equation}
    (hc : c.Within (.withoutFrames order)) (he : (Fragment.withoutFrames order).MemEq e)
    (h : c.expandEquation (.standard order) narrowing e = some r) :
    ∀ q ∈ r.1 :: r.2, (Fragment.withoutFrames order).MemEq q := by
  have conditions : ∀ {r : Expansion}, r.Over (fun _ => True) →
      ∀ q ∈ r.conditions, (Fragment.withoutFrames order).MemEq q := fun hr q hq =>
    ⟨(hr.conditions q hq).1.frameless, (hr.conditions q hq).2.frameless⟩
  unfold expandEquation at h
  split at h
  · cases h
  · next l hl _ =>
      have hl := frameless_expand? hc.over.equations hc.over.store he.1 hl
      cases h
      exact List.forall_mem_cons.mpr
        ⟨⟨hl.term.frameless.evaluate, Frameless.evaluate he.2⟩, conditions hl⟩
  · next r _ hr =>
      have hr := frameless_expand? hc.over.equations hc.over.store he.2 hr
      cases h
      exact List.forall_mem_cons.mpr
        ⟨⟨Frameless.evaluate he.1, hr.term.frameless.evaluate⟩, conditions hr⟩
  · next l r hl hr =>
      have hl := frameless_expand? hc.over.equations hc.over.store he.1 hl
      have hr := frameless_expand? hc.over.equations hc.over.store he.2 hr
      cases h
      refine List.forall_mem_cons.mpr
        ⟨⟨hl.term.frameless.evaluate, hr.term.frameless.evaluate⟩, fun q hq => ?_⟩
      exact (List.mem_append.mp hq).elim (conditions hl q) (conditions hr q)

/-- Bindings and equations expanded once give a constraint that can be brought into normal
form. -/
theorem expandOnce_sound (hc : c.Settled (.withoutFrames order)) (hf : c.isFalse = false) :
    (c.expandOnce (.standard order) narrowing).1.Sound (.withoutFrames order) := by
  have hw := hc.within hf
  have hn := (hc.resolve_left fun hr => absurd hr.1 (by simp [hf])).2
  have bindings : ∀ (xs : List Var) (s : Expanding), (∀ x ∈ xs, x ∈ c.store.keys) →
      ExpandingFrom order c s →
      ExpandingFrom order c (xs.foldl (expandBinding (.standard order) narrowing) s) := by
    intro xs
    induction xs with
    | nil => exact fun _ _ hs => hs
    | cons x xs ih =>
        intro s hxs hs
        rw [List.forall_mem_cons] at hxs
        exact ih _ hxs.2 (expandBinding_from hw hs hxs.1)
  have hs := bindings c.store.keys ⟨c, [], false⟩ (fun _ => id)
    (.inr ⟨⟨c.store, by cases c; rfl, hw.over.store, hn.acyclic.separated⟩, by simp⟩)
  unfold expandOnce
  dsimp only
  generalize c.store.keys.foldl (expandBinding (.standard order) narrowing) ⟨c, [], false⟩ = s at hs
  have reset : ∀ b : Constraint, b.Refuted → b.updateTruth.Refuted := fun b hb => by
    rw [updateTruth_of_isFalse hb.1]
    exact hb
  rcases hs with hr | ⟨⟨σ, hσ, hmem, hsep⟩, hconditions⟩
  · refine .inl (reset _ (Refuted.setNormal ?_ false))
    rw [insertAll_of_isFalse (by exact hr.1)]
    exact hr
  · have hσw : s.constraint.Within (.withoutFrames order) := by
      rw [hσ]
      exact hw.setStore hmem
    have hexp : ∀ e ∈ s.constraint.equations.toList, ∀ q ∈
        ((s.constraint.expandEquation (.standard order) narrowing e).map (·.1)).getD e ::
          ((s.constraint.expandEquation (.standard order) narrowing e).map (·.2)).getD [],
        (Fragment.withoutFrames order).MemEq q := by
      intro e he
      cases h : s.constraint.expandEquation (.standard order) narrowing e with
      | none => simpa using hσw.over.equations e he
      | some r => exact expandEquation_mem hσw (hσw.over.equations e he) h
    have hs' : (expandEquations (.standard order) narrowing s).constraint.Within
        (.withoutFrames order) := by
      refine .intro ⟨hσw.over.undecided, hσw.over.consistent, fun q hq => ?_, hσw.over.buffer,
        hσw.over.store⟩ hσw.pending
      obtain ⟨r, hr, rfl⟩ := List.mem_map.mp (EquationSet.mem_ofList.mp hq)
      obtain ⟨e, he, rfl⟩ := List.mem_map.mp hr
      exact hexp e he _ List.mem_cons_self
    have hcond : ∀ q ∈ (expandEquations (.standard order) narrowing s).conditions,
        (Fragment.withoutFrames order).MemEq q := by
      intro q hq
      rcases List.mem_append.mp hq with hq | hq
      · exact hconditions q hq
      · obtain ⟨r, hr, hq⟩ := List.mem_flatMap.mp hq
        obtain ⟨e, he, rfl⟩ := List.mem_map.mp hr
        exact hexp e he q (List.mem_cons_of_mem _ hq)
    have hext := extends_insertAll (T := .standard order)
      (expandEquations (.standard order) narrowing s).constraint
      (expandEquations (.standard order) narrowing s).conditions
    have hfinal := (hs'.insertAll hcond).setNormal false
    refine .inr ⟨hfinal.updateTruth, ?_, ?_, fun hnormal => ?_⟩
    · rw [updateTruth_eq hfinal.over.undecided]
      exact hext.guarded.trans (by simpa [expandEquations, hσ] using hn.unguarded)
    · rw [updateTruth_eq hfinal.over.undecided]
      have : (expandEquations (.standard order) narrowing s).constraint.store = σ := by
        simp [expandEquations, hσ]
      exact (hext.store.trans this).symm ▸ hsep.acyclic
    · rw [updateTruth_eq hfinal.over.undecided] at hnormal
      exact absurd hnormal Bool.false_ne_true

/-- An expanded constraint is false or in normal form. -/
theorem expandAndSimplify_settled {fuel n m : Nat} (hc : c.Settled (.withoutFrames order))
    (h : c.expandAndSimplify (.standard order) fuel narrowing n = .ok (d, m)) :
    d.Settled (.withoutFrames order) := by
  obtain ⟨b, hb, hrun⟩ := Engine.lift_bind_eq_ok.mp h
  have hsettled := settled_of_normalize hc.sound hb
  clear hb h
  induction fuel generalizing b n with
  | zero => exact absurd hrun Engine.throw_ne_ok
  | succ fuel ih =>
      rw [expandAndSimplifyNormal] at hrun
      split at hrun
      · obtain ⟨rfl, rfl⟩ := Engine.pure_eq_ok.mp hrun
        exact hsettled
      · next hf =>
          dsimp only at hrun
          obtain ⟨a, l, ha, hrest⟩ := Engine.bind_eq_ok.mp hrun
          have ha' := simplify_settled (expandOnce_sound hsettled (Bool.not_eq_true _ ▸ hf)) ha
          split at hrest
          · exact ih a hrest ha'
          · obtain ⟨rfl, rfl⟩ := Engine.pure_eq_ok.mp hrest
            exact ha'

/-! ### Alternatives -/

section Alternatives

variable {T : Theory} {F : Fragment T} {fuel n m : Nat} {cs ds : List Constraint}

lemma extendBy_cases {as : List Constraint} (h : extendBy T fuel cs as n = .ok (ds, m)) :
    ∀ d ∈ ds, d.isFalse = false ∧ ∃ c ∈ cs, ∃ a ∈ as, ∃ e k l, (c.conjoin T a).normalize T = .ok e ∧
      e.simplify T fuel false k = .ok (d, l) := by
  obtain ⟨rows, k, hrows, h⟩ := Engine.bind_eq_ok.mp h
  obtain ⟨rfl, rfl⟩ := Engine.pure_eq_ok.mp h
  intro d hd
  obtain ⟨hd, hf⟩ := List.mem_filter.mp hd
  obtain ⟨row, hrow, hd⟩ := List.mem_flatten.mp hd
  obtain ⟨c, hc, i, j, hrow⟩ := Engine.mem_of_mapM hrows row hrow
  obtain ⟨a, ha, k, l, hd⟩ := Engine.mem_of_mapM hrow d hd
  obtain ⟨e, he, hd⟩ := Engine.lift_bind_eq_ok.mp hd
  exact ⟨by simpa using hf, c, hc, a, ha, e, k, l, he, hd⟩

/-- Constraints in normal form, extended by alternatives one disjunction after the other, are in
normal form; false constraints are extended by nothing. -/
lemma extend_settled {D : List (List Constraint)} (hcs : ∀ c ∈ cs, c.Settled F)
    (hD : (∀ c ∈ cs, c.Refuted) ∨ ∀ as ∈ D, ∀ a ∈ as, a.Within F)
    (h : D.foldlM (extendBy T fuel) cs n = .ok (ds, m)) : ∀ d ∈ ds, d.Settled F := by
  induction D generalizing cs n with
  | nil =>
      obtain ⟨rfl, -⟩ := Engine.pure_eq_ok.mp h
      exact hcs
  | cons as D ih =>
      rw [List.foldlM_cons] at h
      obtain ⟨bs, k, hbs, h⟩ := Engine.bind_eq_ok.mp h
      have hcases := extendBy_cases hbs
      refine ih ?_ ?_ h
      · intro b hb
        obtain ⟨-, c, hc, a, ha, e, i, j, he, hb⟩ := hcases b hb
        refine simplify_settled (settled_of_normalize ?_ he).sound hb
        rcases hD with hr | hD
        · rw [conjoin_of_isFalse (hr c hc).1]
          exact .inl (hr c hc)
        · exact (hcs c hc).sound.conjoin (.inr (hD as List.mem_cons_self a ha))
      · refine hD.imp (fun hr b hb => ?_) fun hD as has => hD as (List.mem_cons_of_mem _ has)
        obtain ⟨hf, c, hc, a, ha, e, i, j, he, hb⟩ := hcases b hb
        rw [conjoin_of_isFalse (hr c hc).1, normalize, if_pos (by simp [(hr c hc).1])] at he
        cases he
        rw [simplify_of_isFalse (hr c hc).1 hb] at hf
        exact absurd (hr c hc).1 (by simp [hf])

/-- The alternatives of a constraint in normal form are in normal form. -/
theorem alternatives_settled (hc : c.Settled F) (h : c.alternatives T fuel n = .ok (ds, m)) :
    ∀ d ∈ ds, d.Settled F := by
  unfold alternatives at h
  split at h
  · obtain ⟨rfl, rfl⟩ := Engine.pure_eq_ok.mp h
    simpa using hc
  · obtain ⟨b, hb, hrun⟩ := Engine.lift_bind_eq_ok.mp h
    have hbase : ({ c with pending := [], normal := false } : Constraint).Sound F := by
      refine hc.imp (fun hr => hr) fun ⟨hw, hn⟩ => ?_
      exact ⟨.intro ⟨hw.over.undecided, hw.over.consistent, hw.over.equations, hw.over.buffer,
        hw.over.store⟩ (by simp), hn.unguarded, hn.acyclic,
        fun hnormal => absurd hnormal Bool.false_ne_true⟩
    refine extend_settled (by simpa using settled_of_normalize hbase hb) ?_ hrun
    refine hc.imp (fun hr => ?_) fun ⟨hw, _⟩ => hw.pending
    rw [normalize, if_pos (by exact Bool.or_eq_true .. ▸ .inl (Bool.or_eq_true .. ▸ .inl hr.1))] at hb
    cases hb
    exact List.forall_mem_singleton.mpr hr

end Alternatives

end Constraint

end SolvedForm

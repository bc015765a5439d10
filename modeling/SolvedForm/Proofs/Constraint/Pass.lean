import SolvedForm.Proofs.Fragment

/-!
One pass over the equations of a constraint, and what comes of it.

* `Constraint.Scanned`: the three ways in which a pass ends, with the equations passed over, the
  one that ends it and those not reached; `Constraint.scanned` says that `scan` ends so.
* `Theory.extend`: the store with a new binding worked into its values; `Constraint.compose_cases`
  says that composition makes it, or a store with a contradictory binding.
* `Constraint.Renormalized`, `Constraint.renormalized`: one pass of `renormalize`. Over an acyclic
  store no variable is bound twice.
-/

namespace SolvedForm

/-! ### Equations passed over -/

/-- The equations of a list that stay open under a store. -/
def Theory.remaining (T : Theory) (σ : Substitution) (es : List Equation) : List Equation :=
  (es.map fun e => e.instantiate T.evaluate σ).filter fun e => e.truth T.order = .unknown

/-- Under the store the equation says nothing, or it stays open and gives no binding. -/
def Theory.Passes (T : Theory) (σ : Substitution) (e : Equation) : Prop :=
  (e.instantiate T.evaluate σ).truth T.order = .true ∨
    (e.instantiate T.evaluate σ).truth T.order = .unknown ∧
      (e.instantiate T.evaluate σ).binding? T.order = none

/-- An equation without bound variable that can be read as a binding is not passed over. -/
lemma Theory.not_passes {T : Theory} {σ : Substitution} {e : Equation} {b : Var × Term}
    (h : ∀ x, x ∈ e.left.vars ∨ x ∈ e.right.vars → x ∉ σ.keys) (hne : e.left ≠ e.right)
    (hb : e.binding? T.order = some b) : ¬ T.Passes σ e := by
  unfold Passes
  rw [Equation.instantiate_eq_self h]
  rintro (ht | ⟨-, hb'⟩)
  · exact hne (Equation.truth_eq_true_iff.mp ht)
  · cases hb.symm.trans hb'

lemma Theory.mem_remaining {T : Theory} {σ : Substitution} {es : List Equation} {q : Equation} :
    q ∈ T.remaining σ es ↔
      ∃ e ∈ es, e.instantiate T.evaluate σ = q ∧ q.truth T.order = .unknown := by
  simp only [remaining, List.mem_filter, List.mem_map, decide_eq_true_eq]
  exact ⟨fun ⟨⟨e, he, hq⟩, ht⟩ => ⟨e, he, hq, ht⟩, fun ⟨e, he, hq, ht⟩ => ⟨⟨e, he, hq⟩, ht⟩⟩

/-- The store with a new binding worked into its values. -/
def Theory.extend (T : Theory) (σ : Substitution) (x : Var) (t : Term) : Substitution :=
  (σ.mapValues (T.instantiate (.single x t))).insert x t

/-- Under an acyclic store a binding that an instance can be read as is allowed, it is new, and its
value contains no bound variable. -/
lemma Fragment.fresh_of_binding {T : Theory} {F : Fragment T} {σ : Substitution} {e : Equation}
    {x : Var} {t : Term} (hσ : F.MemSubst σ) (hac : σ.Acyclic) (he : F.MemEq e)
    (htruth : (e.instantiate T.evaluate σ).truth T.order = .unknown)
    (hb : (e.instantiate T.evaluate σ).binding? T.order = some (x, t)) :
    F.Binds x t ∧ x ∉ σ.keys ∧ (∀ y ∈ t.vars, y ∉ σ.keys) ∧ x ∉ t.vars := by
  obtain ⟨horient, hocc⟩ := Equation.binding?_eq_some_iff.mp hb
  have hmem := memEq_instantiate hσ he
  refine ⟨F.binds_of_orient hmem.1 hmem.2 htruth horient, ?_⟩
  have free : ∀ y, y ∈ (e.instantiate T.evaluate σ).left.vars ∨
      y ∈ (e.instantiate T.evaluate σ).right.vars → y ∉ σ.keys := by
    rw [Equation.instantiate_eq_map]
    intro y hy
    exact hy.elim (not_mem_keys hσ hac he.1) (not_mem_keys hσ hac he.2)
  rcases Equation.orient_cases horient with hq | hq <;> rw [hq] at free
  · exact ⟨free x (.inl (by simp)), fun y hy => free y (.inr hy), hocc⟩
  · exact ⟨free x (.inr (by simp)), fun y hy => free y (.inl hy), hocc⟩

namespace Constraint

variable {T : Theory} {σ : Substitution} {kept : EquationSet} {e : Equation} {es : List Equation}

/-- How a pass over equations ends: all are passed over, or a first part is and the equation
after it is false or gives a binding. -/
inductive Scanned (T : Theory) (σ : Substitution) (kept : EquationSet) (es : List Equation) :
    Pass → Prop where
  | settled : (∀ e ∈ es, T.Passes σ e) →
      Scanned T σ kept es (.settled (kept.insertAll (T.remaining σ es)))
  | refuted {pre post : List Equation} {p : Equation} : es = pre ++ p :: post →
      (∀ e ∈ pre, T.Passes σ e) → (p.instantiate T.evaluate σ).truth T.order = .false →
      Scanned T σ kept es (.refuted
        (((kept.insertAll (T.remaining σ pre)).insert (p.instantiate T.evaluate σ)).insertAll post)
        (p.instantiate T.evaluate σ))
  | solved {pre post : List Equation} {p : Equation} {x : Var} {t : Term} :
      es = pre ++ p :: post → (∀ e ∈ pre, T.Passes σ e) →
      (p.instantiate T.evaluate σ).truth T.order = .unknown →
      (p.instantiate T.evaluate σ).binding? T.order = some (x, t) →
      Scanned T σ kept es (.solved ((kept.insertAll (T.remaining σ pre)).insertAll post) x t)

/-- An equation that is passed over may stand before the others. -/
lemma Scanned.cons {kept' : EquationSet} {pass : Pass} (he : T.Passes σ e)
    (hkept : ∀ fs, kept'.insertAll fs = kept.insertAll (T.remaining σ [e] ++ fs))
    (h : Scanned T σ kept' es pass) : Scanned T σ kept (e :: es) pass := by
  have remaining_cons : ∀ fs, T.remaining σ (e :: fs) = T.remaining σ [e] ++ T.remaining σ fs := by
    intro fs
    simp [Theory.remaining, ← List.filter_append]
  cases h with
  | settled passes =>
      rw [hkept, ← remaining_cons]
      exact .settled (List.forall_mem_cons.mpr ⟨he, passes⟩)
  | refuted split passes hp =>
      rw [hkept, ← remaining_cons]
      exact .refuted (by rw [split, List.cons_append]) (List.forall_mem_cons.mpr ⟨he, passes⟩) hp
  | solved split passes hp hb =>
      rw [hkept, ← remaining_cons]
      exact .solved (by rw [split, List.cons_append]) (List.forall_mem_cons.mpr ⟨he, passes⟩) hp hb

lemma scanned : Scanned T σ kept es (scan T σ kept es) := by
  induction es generalizing kept with
  | nil => exact .settled (by simp)
  | cons e es ih =>
      simp only [scan]
      split
      · next he =>
          refine Scanned.cons (.inl he) (fun fs => ?_) ih
          simp [Theory.remaining, he]
      · next he => exact Scanned.refuted (List.nil_append _).symm (by simp) he
      · next he =>
          split
          · next x t hb => exact Scanned.solved (List.nil_append _).symm (by simp) he hb
          · next hb =>
              refine Scanned.cons (.inr ⟨he, hb⟩) (fun fs => ?_) ih
              simp [Theory.remaining, he, EquationSet.insertAll]

/-! ### Bindings -/

variable {F : Fragment T} {c d : Constraint} {x : Var} {t : Term}

lemma falsify_eq (h : c.isFalse = false) (e : Equation) :
    c.falsify e = { c with truth := .false, contradiction := some e } := by
  rw [falsify, if_neg (by simp [h])]

lemma isFalse_falsify (c : Constraint) (e : Equation) : (c.falsify e).isFalse = true := by
  unfold falsify
  split
  · assumption
  · rfl

/-- A binding that says something is made, and it may be contradictory. -/
lemma bind_cases (hc : c.isFalse = false) (ht : t ≠ .var x) :
    Equation.truth T.order ⟨.var x, t⟩ ≠ .false ∧
        c.bind T x t = { c with store := c.store.insert x t } ∨
      Equation.truth T.order ⟨.var x, t⟩ = .false ∧
        c.bind T x t = { c with store := c.store.insert x t }.falsify ⟨.var x, t⟩ := by
  unfold bind
  rw [if_neg (by simp [hc])]
  split
  · next h => exact absurd (Equation.truth_eq_true_iff.mp h).symm ht
  · next h => exact .inr ⟨h, rfl⟩
  · next h => exact .inl ⟨by simp [h], rfl⟩

/-! ### Composition -/

/-- One binding of the store, with a new one worked into its value. -/
def composeBinding (T : Theory) (τ : Substitution) (c : Constraint) (b : Var × Term) :
    Constraint :=
  match τ.substitute? b.2 with
  | some u => c.bind T b.1 (T.evaluate u)
  | none => c

lemma composeBinding_of_isFalse (h : c.isFalse = true) (τ : Substitution) (b : Var × Term) :
    c.composeBinding T τ b = c := by
  unfold composeBinding bind
  split
  · rw [if_pos h]
  · rfl

lemma foldl_composeBinding_of_isFalse {τ : Substitution} {bs : List (Var × Term)}
    (h : c.isFalse = true) : bs.foldl (composeBinding T τ) c = c := by
  induction bs with
  | nil => rfl
  | cons b bs ih => rw [List.foldl_cons, composeBinding_of_isFalse h, ih]

lemma composeBinding_cases {τ : Substitution} {y : Var} {u : Term} (hc : c.isFalse = false)
    (hu : c.store.find? y = some u) (hself : T.instantiate τ u ≠ .var y) :
    c.composeBinding T τ (y, u) = { c with store := c.store.insert y (T.instantiate τ u) } ∨
      Equation.truth T.order ⟨.var y, T.instantiate τ u⟩ = .false ∧
        c.composeBinding T τ (y, u) =
          { c with store := c.store.insert y (T.instantiate τ u) }.falsify
            ⟨.var y, T.instantiate τ u⟩ := by
  unfold composeBinding Substitution.substitute?
  unfold Theory.instantiate at hself ⊢
  split
  · next v hv =>
      split at hv
      · next ht =>
          rw [if_pos ht] at hself ⊢
          obtain rfl := Option.some.inj hv
          exact (bind_cases hc hself).imp_left And.right
      · cases hv
  · next hv =>
      split at hv
      · cases hv
      · next ht =>
          rw [if_neg ht, Substitution.insert_eq_self hu]
          exact .inl (by cases c; rfl)

/-- Bindings made anew one after the other: all values are changed in place, or some new
binding is contradictory. -/
lemma foldl_composeBinding {τ : Substitution} {bs cs : List (Var × Term)}
    (hc : c.isFalse = false) (hs : c.store.toList = bs ++ cs)
    (hself : ∀ b ∈ cs, T.instantiate τ b.2 ≠ .var b.1) :
    (∃ σ, σ.toList = bs ++ cs.map (fun b => (b.1, T.instantiate τ b.2)) ∧
        cs.foldl (composeBinding T τ) c = { c with store := σ }) ∨
      ∃ σ, ∃ b ∈ cs, σ.find? b.1 = some (T.instantiate τ b.2) ∧
        Equation.truth T.order ⟨.var b.1, T.instantiate τ b.2⟩ = .false ∧
        cs.foldl (composeBinding T τ) c =
          { c with store := σ }.falsify ⟨.var b.1, T.instantiate τ b.2⟩ := by
  induction cs generalizing bs c with
  | nil => exact .inl ⟨c.store, by simpa using hs, by cases c; rfl⟩
  | cons b cs ih =>
      obtain ⟨y, u⟩ := b
      have hu : c.store.find? y = some u :=
        Substitution.mem_toList_iff.mp (hs ▸ List.mem_append_right bs List.mem_cons_self)
      rw [List.foldl_cons]
      rcases composeBinding_cases hc hu (hself _ List.mem_cons_self) with h | ⟨hf, h⟩
      · have hs' : (c.store.insert y (T.instantiate τ u)).toList =
            (bs ++ [(y, T.instantiate τ u)]) ++ cs := by
          rw [Substitution.toList_insert_of_append hs, List.append_assoc]
          rfl
        rw [h]
        rcases ih (c := { c with store := c.store.insert y (T.instantiate τ u) }) hc hs'
          fun b hb => hself b (List.mem_cons_of_mem _ hb) with ⟨σ, hσ, hd⟩ | ⟨σ, b, hb, hσ, hf, hd⟩
        · exact .inl ⟨σ, by rw [hσ, List.append_assoc]; rfl, hd⟩
        · exact .inr ⟨σ, b, List.mem_cons_of_mem _ hb, hσ, hf, hd⟩
      · rw [h, foldl_composeBinding_of_isFalse (isFalse_falsify _ _)]
        exact .inr ⟨_, (y, u), List.mem_cons_self, by simp [Substitution.find?_insert], hf, rfl⟩

/-- Composition goes through the bindings and then adds the new one, unless it has come upon a
contradiction. -/
lemma compose_eq (hx : x ∉ c.store.keys) : compose T c x t =
    .ok (if (c.store.toList.foldl (composeBinding T (.single x t)) c).isFalse then
      c.store.toList.foldl (composeBinding T (.single x t)) c
    else { c.store.toList.foldl (composeBinding T (.single x t)) c with
      store := (c.store.toList.foldl (composeBinding T (.single x t)) c).store.insert x t }) := by
  unfold compose
  rw [if_neg (by simpa [Substitution.contains_iff] using hx)]
  rfl

/-- A new binding extends the store, or some value becomes contradictory by it. -/
lemma compose_cases (hc : c.isFalse = false) (hx : x ∉ c.store.keys)
    (hself : ∀ b ∈ c.store.toList, T.instantiate (.single x t) b.2 ≠ .var b.1) :
    compose T c x t = .ok { c with store := T.extend c.store x t } ∨
      ∃ σ, ∃ b ∈ c.store.toList, σ.find? b.1 = some (T.instantiate (.single x t) b.2) ∧
        Equation.truth T.order ⟨.var b.1, T.instantiate (.single x t) b.2⟩ = .false ∧
        compose T c x t = .ok ({ c with store := σ }.falsify
          ⟨.var b.1, T.instantiate (.single x t) b.2⟩) := by
  have hd := compose_eq (T := T) (t := t) hx
  rcases foldl_composeBinding hc (List.nil_append _).symm hself with
    ⟨σ, hσ, h⟩ | ⟨σ, b, hb, hσ, hf, h⟩
  · obtain rfl : σ = c.store.mapValues (T.instantiate (.single x t)) :=
      Substitution.ext_toList hσ
    rw [h] at hd
    exact .inl (by rw [hd, if_neg (by simpa [isFalse] using hc)]; rfl)
  · rw [h] at hd
    exact .inr ⟨σ, b, hb, hσ, hf, by rw [hd, if_pos (isFalse_falsify _ _)]⟩

/-! ### One pass of solving -/

/-- The unfolding of `renormalize`, without the facts that its termination rests on. -/
lemma renormalize_eq (c : Constraint) : renormalize T c =
    match scan T c.store .empty c.equations.toList with
    | .settled kept => .ok { c with equations := kept }
    | .refuted kept e => .ok ({ c with equations := kept }.falsify e)
    | .solved kept x t =>
      match compose T c x t with
      | .error fault => .error fault
      | .ok d =>
        if d.isFalse then .ok { d with equations := kept }
        else renormalize T { d with equations := kept } := by
  rw [renormalize]
  split
  · next hpass => exact hpass ▸ rfl
  · next hpass => exact hpass ▸ rfl
  · next hpass => exact hpass ▸ rfl

lemma not_mem_keys_of_extend (hσ : F.MemSubst σ) (hac : σ.Acyclic) (hτ : F.Binds x t)
    (ht : ∀ y ∈ t.vars, y ∉ σ.keys) {b : Var × Term} (hb : b ∈ σ.toList) {y : Var}
    (hy : y ∈ (T.instantiate (.single x t) b.2).vars) : y ∉ σ.keys := by
  rcases Fragment.vars_instantiate (Fragment.memSubst_single hτ) (F.mem_value (hσ b hb)) hy with
    ⟨hy, -⟩ | ⟨z, u, -, hu, hy⟩
  · exact hac b hb y hy
  · rw [Substitution.find?_single] at hu
    split at hu
    · cases hu
      exact ht y hy
    · cases hu

/-- One pass of solving: it settles the equations, finds one of them false or a binding
contradictory, or extends the store and goes on. -/
inductive Renormalized (T : Theory) (c : Constraint) : Except Fault Constraint → Prop where
  | settled : (∀ e ∈ c.equations.toList, T.Passes c.store e) →
      Renormalized T c
        (.ok { c with equations := .ofList (T.remaining c.store c.equations.toList) })
  | refuted {pre post : List Equation} {p : Equation} : c.equations.toList = pre ++ p :: post →
      (∀ e ∈ pre, T.Passes c.store e) →
      (p.instantiate T.evaluate c.store).truth T.order = .false →
      Renormalized T c (.ok ({ c with
        equations := ((EquationSet.ofList (T.remaining c.store pre)).insert
          (p.instantiate T.evaluate c.store)).insertAll post }.falsify
            (p.instantiate T.evaluate c.store)))
  | clash {pre post : List Equation} {p : Equation} {x : Var} {t : Term} {σ : Substitution}
      {b : Var × Term} : c.equations.toList = pre ++ p :: post →
      (p.instantiate T.evaluate c.store).truth T.order = .unknown →
      (p.instantiate T.evaluate c.store).binding? T.order = some (x, t) →
      b ∈ c.store.toList → σ.find? b.1 = some (T.instantiate (.single x t) b.2) →
      Equation.truth T.order ⟨.var b.1, T.instantiate (.single x t) b.2⟩ = .false →
      Renormalized T c (.ok ({ c with
        store := σ
        equations := (EquationSet.ofList (T.remaining c.store pre)).insertAll post }.falsify
          ⟨.var b.1, T.instantiate (.single x t) b.2⟩))
  | solved {pre post : List Equation} {p : Equation} {x : Var} {t : Term} :
      c.equations.toList = pre ++ p :: post → (∀ e ∈ pre, T.Passes c.store e) →
      (p.instantiate T.evaluate c.store).truth T.order = .unknown →
      (p.instantiate T.evaluate c.store).binding? T.order = some (x, t) →
      Renormalized T c (renormalize T { c with
        store := T.extend c.store x t
        equations := (EquationSet.ofList (T.remaining c.store pre)).insertAll post })

lemma mem_kept {pre post : List Equation} {q : Equation} :
    q ∈ ((EquationSet.ofList (T.remaining σ pre)).insertAll post).toList ↔
      (∃ e ∈ pre, e.instantiate T.evaluate σ = q ∧ q.truth T.order = .unknown) ∨ q ∈ post := by
  rw [EquationSet.mem_insertAll, EquationSet.mem_ofList, Theory.mem_remaining]

/-- What a pass keeps is less than what it had. -/
lemma size_kept_lt {pre post : List Equation} {p : Equation}
    (split : c.equations.toList = pre ++ p :: post) :
    ((EquationSet.ofList (T.remaining σ pre)).insertAll post).size < c.equations.size := by
  have h₁ := EquationSet.size_insertAll_le (EquationSet.ofList (T.remaining σ pre)) post
  have h₂ := EquationSet.size_insertAll_le .empty (T.remaining σ pre)
  have h₃ : (T.remaining σ pre).length ≤ pre.length := by
    simpa [Theory.remaining] using List.length_filter_le (fun e => decide (e.truth T.order = .unknown))
      (pre.map fun e => e.instantiate T.evaluate σ)
  have h₄ : c.equations.size = pre.length + (post.length + 1) := by
    rw [EquationSet.size, split, List.length_append, List.length_cons]
  change (EquationSet.ofList (T.remaining σ pre)).size ≤ 0 + _ at h₂
  omega

/-- A binding that a pass finds is allowed, it is new, and its value contains no bound
variable. -/
lemma fresh_of_binding (h : c.Over F) (hac : c.store.Acyclic) (he : F.MemEq e)
    (htruth : (e.instantiate T.evaluate c.store).truth T.order = .unknown)
    (hb : (e.instantiate T.evaluate c.store).binding? T.order = some (x, t)) :
    F.Binds x t ∧ x ∉ c.store.keys ∧ (∀ y ∈ t.vars, y ∉ c.store.keys) ∧ x ∉ t.vars :=
  Fragment.fresh_of_binding h.store hac he htruth hb

/-- One pass of solving, where every binding that it may find is for a variable without one and turns
no binding of the store into one of a variable to itself. -/
lemma renormalized_of_fresh (hopen : c.isFalse = false)
    (hnew : ∀ p ∈ c.equations.toList, ∀ x t,
      (p.instantiate T.evaluate c.store).truth T.order = .unknown →
      (p.instantiate T.evaluate c.store).binding? T.order = some (x, t) →
      x ∉ c.store.keys ∧ ∀ b ∈ c.store.toList, T.instantiate (.single x t) b.2 ≠ .var b.1) :
    Renormalized T c (renormalize T c) := by
  rw [renormalize]
  have hscan := @scanned T c.store .empty c.equations.toList
  split
  · next hpass =>
      rw [hpass] at hscan
      cases hscan with
      | settled passes => exact .settled passes
  · next hpass =>
      rw [hpass] at hscan
      cases hscan with
      | refuted split passes hp => exact .refuted split passes hp
  · next kept x t hpass =>
      rw [hpass] at hscan
      cases hscan with
      | @solved pre post p _ _ split passes hp hb =>
          obtain ⟨hx, hself⟩ := hnew p (by simp [split]) x t hp hb
          rcases compose_cases hopen hx hself with hc | ⟨σ, b, hb', hσ, hf, hc⟩
          · split
            · next hd => rw [hc] at hd; cases hd
            · next d hd =>
                rw [hc] at hd
                cases hd
                rw [if_neg (by simpa [isFalse] using hopen)]
                exact .solved split passes hp hb
          · split
            · next hd => rw [hc] at hd; cases hd
            · next d hd =>
                rw [hc] at hd
                cases hd
                rw [if_pos (isFalse_falsify _ _)]
                have hcl := Renormalized.clash split hp hb hb' hσ hf
                rw [falsify_eq (by simpa [isFalse] using hopen)] at hcl ⊢
                exact hcl

lemma renormalized (h : c.Over F) (hac : c.store.Acyclic) :
    Renormalized T c (renormalize T c) := by
  refine renormalized_of_fresh h.undecided fun p hp x t htruth hb => ?_
  obtain ⟨hbinds, hx, ht, -⟩ := fresh_of_binding h hac (h.equations p hp) htruth hb
  refine ⟨hx, fun b hb' heq => ?_⟩
  exact not_mem_keys_of_extend h.store hac hbinds ht hb' (y := b.1) (by simp [heq])
    (Substitution.mem_keys_of_mem hb')

/-- The store extended by a new binding is again allowed and acyclic. -/
lemma memSubst_extend (hσ : F.MemSubst σ) (hτ : F.Binds x t) : F.MemSubst (T.extend σ x t) := by
  refine Fragment.MemSubst.insert ?_ hτ
  intro b hb
  obtain ⟨a, ha, rfl⟩ := List.mem_map.mp hb
  exact Fragment.binds_instantiate (Fragment.memSubst_single hτ) (hσ a ha)

lemma acyclic_extend (hσ : F.MemSubst σ) (hac : σ.Acyclic) (hτ : F.Binds x t)
    (ht : ∀ y ∈ t.vars, y ∉ σ.keys) (hocc : x ∉ t.vars) : (T.extend σ x t).Acyclic := by
  intro b hb y hy hk
  have hk : y = x ∨ y ∈ σ.keys := by simpa [Theory.extend, Substitution.mem_keys_insert] using hk
  rcases Substitution.mem_toList_insert.mp hb with rfl | ⟨-, hb⟩
  · rcases hk with rfl | hk
    · exact hocc hy
    · exact ht y hy hk
  · obtain ⟨a, ha, rfl⟩ := List.mem_map.mp hb
    rcases hk with rfl | hk
    · rcases Fragment.vars_instantiate (Fragment.memSubst_single hτ) (F.mem_value (hσ a ha)) hy with
        ⟨-, hk⟩ | ⟨z, u, -, hu, hy⟩
      · simp at hk
      · rw [Substitution.find?_single] at hu
        split at hu
        · cases hu
          exact hocc hy
        · cases hu
    · exact not_mem_keys_of_extend hσ hac hτ ht ha hy hk

end Constraint

end SolvedForm

import SolvedForm.Constraint.Implication
import SolvedForm.Proofs.Constraint.Orientation
import SolvedForm.Proofs.Constraint.Renaming
import SolvedForm.Proofs.Term.Nodes

/-!
No variable is bound twice.

* `Theory.Conservative`: evaluation brings in no variable as a subterm.
* `BindsOnce`, `Engine.BindsOnce`, `Solving.BindsOnce`: computations that do not end in the fault of a
  second binding, with a property of their answers.
* `Constraint.Untangled`: no key of the store is a subterm of a value.
* `Constraint.bindsOnce_compose`, `Constraint.bindsOnce_normalize`: in an untangled constraint every
  new binding is for a variable without one, and the constraint stays untangled.
* `Constraint.bindsOnce_simplify`, `Constraint.bindsOnce_orient`,
  `Constraint.bindsOnce_expandAndSimplify`, `Constraint.bindsOnce_alternatives`,
  `Constraint.bindsOnce_implies`: so it is for the operations that solve.
-/

namespace SolvedForm

/-- Evaluation brings in no variable as a subterm. -/
def Theory.Conservative (T : Theory) : Prop :=
  ∀ {p : Var → Prop} {t : Term}, t.Nodes p → (T.evaluate t).Nodes p

/-! ### Computations -/

section Computations

variable {α β σ : Type} {Q : α → Prop} {R : β → Prop}

/-- The outcome is not that a variable is bound a second time; if it is an answer, then one with a
given property. -/
def BindsOnce (Q : α → Prop) : Except Fault α → Prop
  | .ok a => Q a
  | .error fault => ∀ x, fault ≠ .boundTwice x

/-- Every run of the computation has such an outcome. -/
def Engine.BindsOnce (Q : α → Prop) (x : Engine α) : Prop :=
  ∀ n, SolvedForm.BindsOnce (fun r => Q r.1) (x n)

/-- Every run of the computation has such an outcome, whatever the solver answers. -/
def Solving.BindsOnce (Q : α → Prop) (x : Solving σ α) : Prop :=
  ∀ s, Engine.BindsOnce (fun r => Q r.1) (x s)

lemma BindsOnce.mono {Q' : α → Prop} {r : Except Fault α} (h : BindsOnce Q r)
    (hQ : ∀ a, Q a → Q' a) : BindsOnce Q' r := by
  cases r with
  | ok a => exact hQ a h
  | error _ => exact h

lemma BindsOnce.bind {r : Except Fault α} {f : α → Except Fault β} (h : BindsOnce Q r)
    (hf : ∀ a, Q a → BindsOnce R (f a)) : BindsOnce R (r >>= f) := by
  cases r with
  | ok a => exact hf a h
  | error _ => exact h

namespace Engine.BindsOnce

lemma mono {Q' : α → Prop} {x : Engine α} (h : BindsOnce Q x) (hQ : ∀ a, Q a → Q' a) :
    BindsOnce Q' x := fun n => (h n).mono fun _ => hQ _

lemma pure {a : α} (h : Q a) : BindsOnce Q (Pure.pure a) := fun _ => h

lemma bind {x : Engine α} {f : α → Engine β} (h : BindsOnce Q x)
    (hf : ∀ a, Q a → BindsOnce R (f a)) : BindsOnce R (x >>= f) := fun n =>
  SolvedForm.BindsOnce.bind (f := fun r : α × Nat => f r.1 r.2) (h n) fun r hr => hf r.1 hr r.2

lemma outOfFuel : BindsOnce Q (throw .outOfFuel) := nofun

/-- A computation that draws no fresh variable. -/
lemma lift {r : Except Fault α} (h : SolvedForm.BindsOnce Q r) :
    BindsOnce Q (liftM r : Engine α) := fun n =>
  SolvedForm.BindsOnce.bind (f := fun a => .ok (a, n)) h fun _ ha => ha

/-- A computation that does nothing but draw fresh variables. -/
lemma minting {x : Minting α} : BindsOnce (fun _ => True) x.toEngine := fun _ => trivial

lemma mapM {f : α → Engine β} {as : List α} (h : ∀ a ∈ as, BindsOnce R (f a)) :
    BindsOnce (fun bs => ∀ b ∈ bs, R b) (as.mapM f) := by
  induction as with
  | nil => exact .pure (List.forall_mem_nil R)
  | cons a as ih =>
      rw [List.forall_mem_cons] at h
      rw [List.mapM_cons]
      exact h.1.bind fun b hb => (ih h.2).bind fun bs hbs =>
        .pure (List.forall_mem_cons.mpr ⟨hb, hbs⟩)

/-- One computation after the other, each of which goes on from the answer before. -/
lemma foldlM {f : β → α → Engine β} {as : List α} {b : β} (hb : R b)
    (h : ∀ b, R b → ∀ a ∈ as, BindsOnce R (f b a)) : BindsOnce R (as.foldlM f b) := by
  induction as generalizing b with
  | nil => exact .pure hb
  | cons a as ih =>
      rw [List.foldlM_cons]
      exact (h b hb a List.mem_cons_self).bind fun b' hb' =>
        ih hb' fun b hb a ha => h b hb a (List.mem_cons_of_mem _ ha)

end Engine.BindsOnce

namespace Solving.BindsOnce

lemma pure {a : α} (h : Q a) : BindsOnce Q (Pure.pure a : Solving σ α) := fun _ _ => h

lemma bind {x : Solving σ α} {f : α → Solving σ β} (h : BindsOnce Q x)
    (hf : ∀ a, Q a → BindsOnce R (f a)) : BindsOnce R (x >>= f) := fun s =>
  Engine.BindsOnce.bind (f := fun r : α × σ => f r.1 r.2) (h s) fun r hr => hf r.1 hr r.2

lemma lift {x : Engine α} (h : Engine.BindsOnce Q x) : BindsOnce Q (liftM x : Solving σ α) :=
  fun s => Engine.BindsOnce.bind (f := fun a => Pure.pure (a, s)) h fun _ ha => .pure ha

lemma ask {question : StateM σ Bool} : BindsOnce (fun _ => True) (Solver.ask question) :=
  fun _ _ => trivial

lemma outOfFuel : BindsOnce Q (throw .outOfFuel : Solving σ α) := fun _ => nofun

end Solving.BindsOnce

end Computations

namespace Constraint

variable {T : Theory} {c d : Constraint} {x : Var} {t : Term} {e : Equation} {es : List Equation}
  {fold narrowing : Bool} {fuel : Nat}

/-- No key of the store is a subterm of a value. -/
def Untangled (c : Constraint) : Prop := c.store.Untangled

lemma untangled_empty : empty.Untangled := Substitution.untangled_empty

/-! ### Insertion -/

lemma store_falsify (c : Constraint) (e : Equation) : (c.falsify e).store = c.store := by
  unfold falsify
  split <;> rfl

lemma store_conjoin (c d : Constraint) : (c.conjoin T d).store = c.store := by
  unfold conjoin
  split
  · rfl
  · split
    · exact store_falsify c _
    · exact ((extends_foldl extends_insertEquation _ c).trans (extends_addPending _ _)).store

lemma Untangled.congr (h : c.Untangled) (hd : d.store = c.store) : d.Untangled := by
  rw [Untangled, hd]
  exact h

lemma Untangled.insertAll (h : c.Untangled) (es : List Equation) : (c.insertAll T es).Untangled :=
  h.congr (extends_insertAll c es).store

/-! ### Removal and renaming -/

lemma Untangled.removeBindings (h : c.Untangled) (xs : List Var) :
    (c.removeBindings T xs).Untangled := by
  obtain ⟨σ, hσ, heq⟩ := removeBindings_eq (T := T) c xs
  have hapart : σ.Apart (· ∈ c.store.keys) := fun b hb => Substitution.Untangled.apart h b (hσ b hb)
  exact heq ▸ Untangled.congr (c := { c with store := σ }) hapart.untangled (store_updateTruth _)

/-- A variable that a renaming of this kind makes a subterm of a value comes from a subterm of the
old value, and so for keys. -/
lemma Untangled.rename {ρ : Var → Var} (h : c.Untangled) (hρ : c.MovesApart ρ) :
    (c.rename ρ).Untangled := by
  have renamed : ∀ {b : Var × Term}, b ∈ (c.rename ρ).store.toList →
      ∃ a ∈ c.store.toList, (ρ a.1, a.2.rename ρ) = b := fun hb =>
    List.mem_map.mp (Substitution.mem_of_mem_ofList hb)
  intro b hb
  obtain ⟨a, ha, rfl⟩ := renamed hb
  have hmentioned : a.2.Nodes fun y => c.Mentions y :=
    .of_vars fun y hy => .inl ⟨a, ha, .inr hy⟩
  refine .rename (((h a ha).and hmentioned).mono fun y hy hk => hy.1 ?_)
  obtain ⟨u, hu⟩ := Substitution.mem_keys_iff.mp hk
  obtain ⟨a', ha', heq⟩ := renamed (Substitution.mem_toList_iff.mpr hu)
  have hky : a'.1 = y :=
    hρ.eq_of_mentions (.inl ⟨a', ha', .inl rfl⟩) hy.2 (congrArg Prod.fst heq)
  exact hky ▸ Substitution.mem_keys_of_mem ha'

/-! ### Single bindings -/

lemma mem_store_bind {b : Var × Term} (h : b ∈ (c.bind T x t).store.toList) :
    b ∈ c.store.toList ∨ b = (x, t) := by
  unfold bind at h
  split at h
  · exact .inl h
  · split at h
    · exact .inl (Substitution.mem_toList_erase.mp h).2
    · rw [store_falsify] at h
      exact (Substitution.mem_toList_insert.mp h).elim .inr fun h => .inl h.2
    · exact (Substitution.mem_toList_insert.mp h).elim .inr fun h => .inl h.2

/-- A binding of a key to a term without keys as subterms. -/
lemma apart_bind {key : Var → Prop} (h : c.store.Apart key) (hx : key x)
    (ht : t.Nodes fun y => ¬ key y) : (c.bind T x t).store.Apart key := fun b hb =>
  (mem_store_bind hb).elim (h b) fun hb => hb ▸ ⟨hx, ht⟩

lemma apart_foldl_bind {key : Var → Prop} {bs : List (Var × Term)} (h : c.store.Apart key)
    (hbs : ∀ b ∈ bs, key b.1 ∧ b.2.Nodes fun y => ¬ key y) :
    (bs.foldl (fun d b => d.bind T b.1 b.2) c).store.Apart key := by
  induction bs generalizing c with
  | nil => exact h
  | cons b bs ih =>
      rw [List.forall_mem_cons] at hbs
      exact ih (apart_bind h hbs.1.1 hbs.1.2) hbs.2

/-! ### Composition -/

/-- A term for a new key: neither that variable nor a key is one of its subterms. -/
lemma nodes_instantiate_single (hT : T.Conservative) {K : List Var} {u : Term}
    (ht : t.Nodes fun y => y ≠ x ∧ y ∉ K) (hu : u.Nodes (· ∉ K)) :
    (T.instantiate (.single x t) u).Nodes fun y => y ≠ x ∧ y ∉ K :=
  .instantiate hT (by simpa using ht) (hu.mono fun y hy hx => ⟨by simpa using hx, hy⟩)

lemma untangled_extend (hT : T.Conservative) {σ : Substitution} (hσ : σ.Untangled)
    (ht : t.Nodes fun y => y ≠ x ∧ y ∉ σ.keys) : (T.extend σ x t).Untangled := by
  have outside : ∀ {u : Term}, (u.Nodes fun y => y ≠ x ∧ y ∉ σ.keys) →
      u.Nodes (· ∉ (T.extend σ x t).keys) := fun hu =>
    hu.mono fun y hy => by simpa [Theory.extend, Substitution.mem_keys_insert] using hy
  intro b hb
  rcases Substitution.mem_toList_insert.mp hb with rfl | ⟨-, hb⟩
  · exact outside ht
  · obtain ⟨a, ha, rfl⟩ := List.mem_map.mp hb
    exact outside (nodes_instantiate_single hT ht (hσ a ha))

lemma apart_composeBinding {key : Var → Prop} {τ : Substitution} {b : Var × Term}
    (h : c.store.Apart key) (hb : key b.1)
    (ht : (T.instantiate τ b.2).Nodes fun y => ¬ key y) :
    (c.composeBinding T τ b).store.Apart key := by
  unfold composeBinding Substitution.substitute?
  unfold Theory.instantiate at ht
  split at ht
  · next htouch =>
      rw [if_pos htouch]
      exact apart_bind h hb ht
  · next htouch =>
      rw [if_neg htouch]
      exact h

/-- No binding of an untangled store becomes one of a variable to itself. -/
lemma Untangled.instantiate_ne (hT : T.Conservative) (hσ : c.Untangled)
    (ht : t.Nodes fun y => y ≠ x ∧ y ∉ c.store.keys) :
    ∀ b ∈ c.store.toList, T.instantiate (.single x t) b.2 ≠ .var b.1 := fun b hb heq =>
  (Term.Nodes.var_iff.mp (heq ▸ nodes_instantiate_single hT ht (hσ b hb))).2
    (Substitution.mem_keys_of_mem hb)

/-- A new binding is worked into an untangled store, which stays so. -/
theorem bindsOnce_compose (hT : T.Conservative) (hc : c.isFalse = false) (hσ : c.Untangled)
    (hx : x ∉ c.store.keys) (ht : t.Nodes fun y => y ≠ x ∧ y ∉ c.store.keys) :
    BindsOnce Untangled (compose T c x t) := by
  have hinst : ∀ b ∈ c.store.toList,
      (T.instantiate (.single x t) b.2).Nodes fun y => y ≠ x ∧ y ∉ c.store.keys :=
    fun b hb => nodes_instantiate_single hT ht (hσ b hb)
  rcases compose_cases hc hx (hσ.instantiate_ne hT ht) with h | ⟨σ, b, -, -, -, h⟩
  · rw [h]
    exact untangled_extend hT hσ ht
  · -- a contradiction is found before the new variable becomes a key
    have fold_apart : ∀ (bs : List (Var × Term)) (d : Constraint), (∀ b ∈ bs, b ∈ c.store.toList) →
        d.store.Apart (· ∈ c.store.keys) →
        (bs.foldl (composeBinding T (.single x t)) d).store.Apart (· ∈ c.store.keys) := by
      intro bs
      induction bs with
      | nil => exact fun _ _ hd => hd
      | cons b bs ih =>
          intro d hbs hd
          rw [List.forall_mem_cons] at hbs
          exact ih _ hbs.2 (apart_composeBinding hd (Substitution.mem_keys_of_mem hbs.1)
            ((hinst b hbs.1).mono fun y hy => hy.2))
    rw [compose_eq hx] at h ⊢
    split at h
    · next hf =>
        rw [if_pos hf]
        exact (fold_apart _ c (fun _ => id) (Substitution.Untangled.apart hσ)).untangled
    · next hf =>
        have hd := isFalse_falsify { c with store := σ } ⟨.var b.1, T.instantiate (.single x t) b.2⟩
        rw [← Except.ok.inj h] at hd
        exact absurd hd hf

/-! ### The normal form -/

/-- An equation under an untangled store that can be read as a binding gives one for a new
variable. -/
lemma fresh_of_binding_nodes (hT : T.Conservative) (hσ : c.Untangled)
    (hb : (e.instantiate T.evaluate c.store).binding? T.order = some (x, t)) :
    x ∉ c.store.keys ∧ t.Nodes fun y => y ≠ x ∧ y ∉ c.store.keys := by
  have hocc := (Equation.binding?_eq_some_iff.mp hb).2
  have hnew : t.Nodes (· ≠ x) := .of_vars fun y hy heq => hocc (heq ▸ hy)
  have hside : ∀ u, (T.instantiate c.store u).Nodes (· ∉ c.store.keys) := fun u =>
    .instantiate hT hσ (.of_vars fun _ _ hy => hy)
  rw [Equation.instantiate_eq_map] at hb
  rcases Equation.binding?_cases hb with hq | hq
  · have hl : T.instantiate c.store e.left = .var x := congrArg Equation.left hq
    have hr : T.instantiate c.store e.right = t := congrArg Equation.right hq
    exact ⟨Term.Nodes.var_iff.mp (hl ▸ hside e.left), hnew.and (hr ▸ hside e.right)⟩
  · have hl : T.instantiate c.store e.left = t := congrArg Equation.left hq
    have hr : T.instantiate c.store e.right = .var x := congrArg Equation.right hq
    exact ⟨Term.Nodes.var_iff.mp (hr ▸ hside e.right), hnew.and (hl ▸ hside e.left)⟩

lemma Untangled.renormalized (hT : T.Conservative) (hc : c.isFalse = false) (hσ : c.Untangled) :
    Renormalized T c (renormalize T c) :=
  renormalized_of_fresh hc fun _ _ _ _ _ hb =>
    have ⟨hx, ht⟩ := fresh_of_binding_nodes hT hσ hb
    ⟨hx, hσ.instantiate_ne hT ht⟩

/-- What holds of each pass over an untangled store that comes to an answer holds of all passes
together: either nothing can be read as a binding, or the answer is false, or a new variable is bound
and the passes go on. -/
theorem Untangled.renormalize_induction (hT : T.Conservative)
    {motive : Constraint → Constraint → Prop}
    (settled : ∀ c, (∀ e ∈ c.equations.toList, T.Passes c.store e) →
      motive c { c with equations := .ofList (T.remaining c.store c.equations.toList) })
    (refuted : ∀ c d, d.isFalse = true → motive c d)
    (solved : ∀ (c d : Constraint) (pre post : List Equation) (p : Equation) (x : Var) (t : Term),
      c.equations.toList = pre ++ p :: post →
      (p.instantiate T.evaluate c.store).binding? T.order = some (x, t) → x ∉ c.store.keys →
      motive { c with
        store := T.extend c.store x t
        equations := (EquationSet.ofList (T.remaining c.store pre)).insertAll post } d →
      motive c d)
    (hc : c.isFalse = false) (hσ : c.Untangled) (h : SolvedForm.Constraint.renormalize T c = .ok d) :
    motive c d := by
  -- each binding found uses up an equation
  induction hn : c.equations.size using Nat.strongRecOn generalizing c with
  | _ n ih =>
      have hr := hσ.renormalized hT hc
      rw [h] at hr
      generalize hd : (Except.ok d : Except Fault Constraint) = r at hr
      cases hr with
      | settled passes =>
          cases hd
          exact settled c passes
      | refuted =>
          cases hd
          exact refuted c _ (isFalse_falsify _ _)
      | clash =>
          cases hd
          exact refuted c _ (isFalse_falsify _ _)
      | @solved pre post p x t hsplit _ _ hb =>
          obtain ⟨hx, ht⟩ := fresh_of_binding_nodes hT hσ hb
          exact solved c d pre post p x t hsplit hb hx <|
            ih _ (hn ▸ size_kept_lt hsplit) hc (untangled_extend hT hσ ht) hd.symm rfl

theorem bindsOnce_renormalize (hT : T.Conservative) (hc : c.isFalse = false) (hσ : c.Untangled) :
    BindsOnce Untangled (renormalize T c) := by
  -- each binding found uses up an equation
  induction hn : c.equations.size using Nat.strongRecOn generalizing c with
  | _ n ih =>
      have hscan := @scanned T c.store .empty c.equations.toList
      rw [renormalize]
      split
      · exact hσ
      · exact hσ.congr (store_falsify _ _)
      · next kept x t hpass =>
          rw [hpass] at hscan
          cases hscan with
          | solved hsplit _ _ hb =>
              obtain ⟨hx, ht⟩ := fresh_of_binding_nodes hT hσ hb
              have hcomp := bindsOnce_compose hT hc hσ hx ht
              split
              · next fault hd =>
                  rw [hd] at hcomp
                  exact hcomp
              · next d hd =>
                  rw [hd] at hcomp
                  split
                  · exact hcomp
                  · next hf =>
                      exact ih _ (hn ▸ size_kept_lt hsplit) (Bool.not_eq_true _ ▸ hf) hcomp rfl

theorem bindsOnce_normalize (hT : T.Conservative) (hσ : c.Untangled) :
    BindsOnce Untangled (c.normalize T) := by
  unfold normalize
  split
  · exact hσ
  · next hgo =>
      simp only [Bool.or_eq_true, not_or, Bool.not_eq_true] at hgo
      have hrun := bindsOnce_renormalize (c := { c with normal := true }.drain) hT hgo.1.1 hσ
      cases hr : renormalize T { c with normal := true }.drain with
      | error fault =>
          rw [hr] at hrun
          exact hrun
      | ok d =>
          rw [hr] at hrun
          exact Untangled.congr hrun (store_updateTruth d)

lemma bindsOnce_addAll (hT : T.Conservative) (hσ : c.Untangled) (es : List Equation) :
    BindsOnce Untangled (c.addAll T es) :=
  bindsOnce_normalize hT (hσ.insertAll es)

lemma bindsOnce_addConstraint (hT : T.Conservative) (hσ : c.Untangled) (d : Constraint) :
    BindsOnce Untangled (c.addConstraint T d) :=
  bindsOnce_normalize hT (hσ.congr (store_conjoin c d))

/-! ### Simplification -/

/-- A round binds nothing. -/
lemma bindsOnce_round {solve : List (List Equation) → Engine (List Constraint)}
    (hsolve : ∀ as, (solve as).BindsOnce fun _ => True) {kept : EquationSet} :
    (round T fold solve c kept es).BindsOnce fun d => d.store = c.store := by
  induction es generalizing c kept with
  | nil => exact .pure rfl
  | cons e es ih =>
      have goes_on : ∀ {b : Constraint}, b.store = c.store →
          (round T fold solve b kept es).BindsOnce fun d => d.store = c.store :=
        fun hb => ih.mono fun d hd => hd.trans hb
      rw [round]
      refine Engine.BindsOnce.minting.bind fun a _ => ?_
      cases a with
      | error failure => exact .pure (store_falsify _ _)
      | ok answer =>
          cases answer with
          | unique parts =>
              dsimp only
              split
              · exact ih
              · exact goes_on (extends_insertAll _ _).store
          | disjunction common alternatives =>
              refine (hsolve alternatives).bind fun ds _ => ?_
              rcases ds with _ | ⟨a, _ | ⟨_, _⟩⟩
              · exact .pure (store_falsify _ _)
              · exact goes_on ((store_conjoin _ a).trans (extends_insertAll _ _).store)
              · exact goes_on (extends_insertAll { c with normal := false } common).store

theorem bindsOnce_simplifySince (hT : T.Conservative) {last : Option Snapshot} (hσ : c.Untangled) :
    (simplifySince T fold fuel last c).BindsOnce Untangled := by
  induction fuel generalizing c last with
  | zero => exact .outOfFuel
  | succ fuel ih =>
      -- the alternatives of a disjunction start from an empty store
      have hsolve : ∀ as, (satisfiable T fold fuel as).BindsOnce fun _ => True := fun as =>
        (Engine.BindsOnce.mapM fun es _ => ih (untangled_empty.insertAll es)).bind
          fun _ _ => .pure trivial
      rw [simplifySince]
      refine (Engine.BindsOnce.lift (bindsOnce_normalize hT hσ)).bind fun b hb => ?_
      split
      · exact .pure hb
      · refine (bindsOnce_round (c := b.takeOut) hsolve).bind fun a ha => ?_
        have ha : a.Untangled := hb.congr ha
        split
        · exact .pure ha
        · exact ih ha

lemma bindsOnce_simplify (hT : T.Conservative) (hσ : c.Untangled) :
    (c.simplify T fuel fold).BindsOnce Untangled :=
  bindsOnce_simplifySince hT hσ

/-! ### Orientation -/

/-- No key of a flipped store is a subterm of one of its values. -/
lemma apart_flipped {targets : List Var} {σ : Substitution} {fl : Orientation.Flips}
    (hσ : σ.Untangled) (h : Orientation.flips targets σ = .ok fl) :
    ∀ b ∈ fl.apply σ, fl.Key σ b.1 ∧ b.2.Nodes fun y => ¬ fl.Key σ y := by
  have turned : ∀ b ∈ fl.bindings.toList, b.2.Nodes fun y => ¬ fl.Key σ y := fun b hb => by
    obtain ⟨z, hz, hfree⟩ := Orientation.exists_free_of_turned h hb
    rwa [hz, Term.Nodes.var_iff]
  rintro ⟨x, u⟩ hb
  rcases (Orientation.mem_flipped_iff h).mp hb with hb | ⟨t, ht, hremoved, hk, rfl⟩
  · exact ⟨.inl (Substitution.mem_keys_of_mem hb), turned _ hb⟩
  · have hx : x ∈ σ.keys := Substitution.mem_keys_of_mem ht
    refine ⟨.inr ⟨hx, hremoved, hk⟩, .apply turned ?_⟩
    exact (hσ _ ht).mono fun x hx hfl hkey => hkey.elim hfl fun hk => hx hk.1

theorem bindsOnce_orient (hT : T.Conservative) (hσ : c.Untangled) (targets : List Var) :
    BindsOnce (fun r => ∀ d, r = .ok d → d.Untangled) (c.orient T targets) := by
  rw [orient_eq]
  split
  · rintro _ ⟨⟩
    exact hσ
  · split
    · exact fun _ h => nomatch h
    · next fl hfl =>
        have hflipped := apart_foldl_bind (T := T) (c := { c with store := .empty })
          (by simp [Substitution.Apart]) (apart_flipped hσ hfl)
        refine BindsOnce.bind (bindsOnce_normalize hT (by exact hflipped.untangled)) fun d hd => ?_
        rintro _ ⟨⟩
        exact hd

lemma bindsOnce_isMatching (hT : T.Conservative) (hσ : c.Untangled) (xs : List Var) :
    BindsOnce (fun r => ∀ b d, r = .ok (b, d) → d.Untangled) (c.isMatching T xs) := by
  unfold isMatching
  refine BindsOnce.bind (bindsOnce_orient hT hσ xs) fun r hr => ?_
  match r with
  | .error failure => exact fun _ _ h => nomatch h
  | .ok d =>
      rintro _ _ ⟨⟩
      exact hr d rfl

/-! ### Expansion -/

lemma nodes_read (hT : T.Conservative) {p : Var → Prop} (hσ : ∀ b ∈ c.store.toList, b.2.Nodes p)
    (ht : t.Nodes p) : (c.read T t).Nodes p := by
  refine hT (.replace (fun r hr => ?_) (.apply hσ (ht.mono fun _ hx _ => hx)))
  have ground : ∀ {u : Term}, u.isGround = true → u.Nodes p := fun hu =>
    .of_vars (by simp [Term.isGround_iff.mp hu])
  obtain ⟨e, -, ⟨rfl, hg⟩ | ⟨rfl, hg⟩⟩ := mem_groundFacts hr
  · exact ground hg
  · exact ground hg

lemma apart_expandBinding (hT : T.Conservative) {key : Var → Prop} {s : Expanding}
    (hs : s.constraint.store.Apart key) (hx : key x) :
    (expandBinding T narrowing s x).constraint.store.Apart key := by
  unfold expandBinding
  split
  · next r hr =>
      obtain ⟨u, hu, hr⟩ := Option.bind_eq_some_iff.mp hr
      have hvalues : ∀ b ∈ s.constraint.store.toList, b.2.Nodes fun y => ¬ key y :=
        fun b hb => (hs b hb).2
      unfold expand? at hr
      split at hr
      · cases hr
      · dsimp only at hr
        split at hr
        · cases hr
        · obtain rfl := Option.some.inj hr
          refine apart_bind hs hx (hT (Expansion.nodes_ofTerm (fun _ => nodes_read hT hvalues) ?_))
          exact hvalues (x, u) (Substitution.mem_toList_iff.mpr hu)
  · exact hs

lemma untangled_expandOnce (hT : T.Conservative) (hσ : c.Untangled) :
    (c.expandOnce T narrowing).1.Untangled := by
  have bindings : ∀ (xs : List Var) (s : Expanding), (∀ x ∈ xs, x ∈ c.store.keys) →
      s.constraint.store.Apart (· ∈ c.store.keys) →
      (xs.foldl (expandBinding T narrowing) s).constraint.store.Apart (· ∈ c.store.keys) := by
    intro xs
    induction xs with
    | nil => exact fun _ _ hs => hs
    | cons x xs ih =>
        intro s hxs hs
        rw [List.forall_mem_cons] at hxs
        exact ih _ hxs.2 (apart_expandBinding hT hs hxs.1)
  have hs := bindings c.store.keys ⟨c, [], false⟩ (fun _ => id) (Substitution.Untangled.apart hσ)
  exact Untangled.congr hs.untangled ((store_updateTruth _).trans (extends_insertAll _ _).store)

theorem bindsOnce_expandAndSimplify (hT : T.Conservative) (hσ : c.Untangled) :
    (c.expandAndSimplify T fuel narrowing).BindsOnce Untangled := by
  have turns : ∀ c : Constraint, c.Untangled →
      (c.expandAndSimplifyNormal T narrowing fuel).BindsOnce Untangled := by
    induction fuel with
    | zero => exact fun _ _ => .outOfFuel
    | succ fuel ih =>
        intro c hσ
        rw [expandAndSimplifyNormal]
        split
        · exact .pure hσ
        · refine (bindsOnce_simplify hT (untangled_expandOnce hT hσ)).bind fun d hd => ?_
          split
          · exact ih d hd
          · exact .pure hd
  exact (Engine.BindsOnce.lift (bindsOnce_normalize hT hσ)).bind turns

/-! ### Alternatives -/

theorem bindsOnce_alternatives (hT : T.Conservative) (hσ : c.Untangled) :
    (c.alternatives T fuel).BindsOnce fun ds => ∀ d ∈ ds, d.Untangled := by
  have extend : ∀ {cs : List Constraint}, (∀ c ∈ cs, c.Untangled) → ∀ as : List Constraint,
      (extendBy T fuel cs as).BindsOnce fun ds => ∀ d ∈ ds, d.Untangled := by
    intro cs hcs as
    refine (Engine.BindsOnce.mapM fun c hc => Engine.BindsOnce.mapM fun a _ =>
      (Engine.BindsOnce.lift (bindsOnce_addConstraint hT (hcs c hc) a)).bind fun e he =>
        bindsOnce_simplify hT he).bind fun rows hrows => .pure fun d hd => ?_
    obtain ⟨row, hrow, hd⟩ := List.mem_flatten.mp (List.mem_filter.mp hd).1
    exact hrows row hrow d hd
  unfold alternatives
  split
  · exact .pure (List.forall_mem_singleton.mpr hσ)
  · refine (Engine.BindsOnce.lift (bindsOnce_normalize hT (by exact hσ))).bind fun b hb => ?_
    exact .foldlM (List.forall_mem_singleton.mpr hb) fun cs hcs as _ => extend hcs as

/-! ### Implication -/

lemma bindsOnce_replace (hT : T.Conservative) (table : Term.Table) :
    BindsOnce Untangled (c.replace T table) := by
  unfold replace
  split
  · exact untangled_empty
  · exact bindsOnce_normalize hT (by exact untangled_empty.insertAll _)

lemma bindsOnce_subtract (hT : T.Conservative) (hd : d.Untangled) :
    (c.subtract T fuel d).BindsOnce Untangled := by
  unfold subtract
  split
  · exact .pure hd
  · have hdiff : (c.difference T d).Untangled := untangled_empty.congr
      ((extends_foldl extends_insertEquation _ _).store.trans (extends_insertAll _ _).store)
    refine (bindsOnce_simplify hT hdiff).bind fun r hr => ?_
    split
    · exact .pure hr
    · exact (Engine.BindsOnce.lift (bindsOnce_replace hT _)).bind fun a ha =>
        bindsOnce_simplify hT ha

variable {σ : Type} {solver : Solver σ} {limits : TimeLimits} {only : List Var} {s : σ}

/-- The obligations that come of an obligation between untangled constraints are such again. -/
lemma bindsOnce_discharge (hT : T.Conservative) {left right : Constraint} (hl : left.Untangled)
    (hr : right.Untangled) :
    (discharge T solver limits fuel only left right).BindsOnce fun r =>
      ∀ cases, r = .ok (.split cases) → ∀ o ∈ cases, o.1.Untangled ∧ o.2.Untangled := by
  unfold discharge
  split
  · exact .pure fun _ h => nomatch h
  · refine (Solving.BindsOnce.lift (.lift (bindsOnce_orient hT hr only))).bind fun r hr => ?_
    match r with
    | .error failure => exact .pure fun _ h => nomatch h
    | .ok right =>
        refine (Solving.BindsOnce.lift (bindsOnce_subtract hT (hr right rfl))).bind fun a ha => ?_
        refine (Solving.BindsOnce.lift (.lift (bindsOnce_orient hT ha only))).bind fun r hr => ?_
        match r with
        | .error failure => exact .pure fun _ h => nomatch h
        | .ok residue =>
            dsimp only
            split
            · refine Solving.BindsOnce.ask.bind fun unsat _ => .pure ?_
              cases unsat <;> exact fun _ h => nomatch h
            · split
              · exact .pure fun _ h => nomatch h
              · split
                · next t ht =>
                    refine (Solving.BindsOnce.lift (.lift (bindsOnce_addAll hT hl _))).bind
                      fun left₁ h₁ => ?_
                    refine (Solving.BindsOnce.lift (.lift (bindsOnce_addAll hT hl _))).bind
                      fun left₂ h₂ => .pure ?_
                    rintro _ ⟨⟩
                    simpa using ⟨⟨h₁, hr residue rfl⟩, h₂, hr residue rfl⟩
                · refine Solving.BindsOnce.ask.bind fun proved _ => .pure ?_
                  cases proved <;> exact fun _ h => nomatch h

theorem bindsOnce_dischargeAll (hT : T.Conservative) {os : List Obligation}
    (hos : ∀ o ∈ os, o.1.Untangled ∧ o.2.Untangled) :
    (dischargeAll T solver limits only fuel os).BindsOnce fun _ => True := by
  induction fuel generalizing os with
  | zero =>
      cases os with
      | nil => exact .pure trivial
      | cons o os => exact .outOfFuel
  | succ fuel ih =>
      cases os with
      | nil => exact .pure trivial
      | cons o os =>
          rw [List.forall_mem_cons] at hos
          rw [dischargeAll]
          refine (bindsOnce_discharge hT hos.1.1 hos.1.2).bind fun r hr => ?_
          match r with
          | .error failure => exact .pure trivial
          | .ok .settled => exact ih hos.2
          | .ok .failed => exact .pure trivial
          | .ok (.split cases) =>
              exact ih fun o ho => (List.mem_append.mp ho).elim (hos.2 o) (hr cases rfl o)

theorem bindsOnce_implies (hT : T.Conservative) (hc : c.Untangled) (hd : d.Untangled) :
    (implies T solver limits fuel c d only).BindsOnce fun _ => True :=
  bindsOnce_dischargeAll hT (List.forall_mem_singleton.mpr ⟨hc, hd⟩)

end Constraint

end SolvedForm

import SolvedForm.Proofs.Constraint.Expansion

/-!
The terms that a constraint stores.

* `Constraint.Carries`: the equations of a constraint have one property and its bindings another.
* `Theory.Transfers`, `Constraint.carries_normalize`: the normal form keeps that, where instances of
  equations and the bindings read off them have the properties again.
* `Theory.Preserves`, `Theory.Stores`: what is put into constraints belongs to one class of terms, and
  what they store to another one; neither rewriting nor solving leaves these classes.
* `Constraint.Stored`: the terms of a constraint belong to a class, and the alternatives that are
  pending in it have a property.
* `Constraint.Throughout`: the terms of a constraint belong to a class, and a property holds of it;
  the alternatives pending in it are not false, and the same is true of them.
* `Constraint.stored_normalize`, `Constraint.stored_simplifySince`, `Constraint.stored_alternatives`:
  solving keeps that.
-/

namespace SolvedForm

/-- Instances of equations with the property `E` have it again, and the bindings that are read off
them, and that others are worked into, have the property `B`. -/
structure Theory.Transfers (T : Theory) (E : Equation → Prop) (B : Var → Term → Prop) : Prop where
  instantiate {σ : Substitution} {e : Equation} (hσ : ∀ b ∈ σ.toList, B b.1 b.2) :
    E e → E (e.instantiate T.evaluate σ)
  binding {e : Equation} {x : Var} {t : Term} : E e → e.binding? T.order = some (x, t) → B x t
  compose {x y : Var} {t u : Term} : B x t → B y u →
    B y (T.evaluate ((Substitution.single x t).apply u))

namespace Constraint

/-- The equations of the constraint have the property `E`, its bindings have `B`, and all alternatives
of its disjunctions have `A`. -/
structure Carries (E : Equation → Prop) (B : Var → Term → Prop) (A : Constraint → Prop)
    (c : Constraint) : Prop where
  equations : ∀ e ∈ c.equations.toList, E e
  buffer : ∀ e ∈ c.buffer.toList, E e
  store : ∀ b ∈ c.store.toList, B b.1 b.2
  pending : ∀ D ∈ c.pending, ∀ a ∈ D, A a

variable {T : Theory} {E : Equation → Prop} {B : Var → Term → Prop} {A : Constraint → Prop}
  {c d : Constraint} {x : Var} {t : Term} {e : Equation} {es : List Equation}

lemma carries_empty : empty.Carries E B A :=
  ⟨by simp [empty], by simp [empty], by simp [empty], by simp [empty]⟩

namespace Carries

/-! ### Insertion -/

lemma insertEquation (h : c.Carries E B A) (he : E e) : (c.insertEquation e).Carries E B A := by
  have mem_insert : ∀ {es : EquationSet}, (∀ q ∈ es.toList, E q) →
      ∀ q ∈ (es.insert e).toList, E q := fun hes q hq =>
    (EquationSet.mem_insert.mp hq).elim (hes q) fun hq => hq ▸ he
  rcases insertEquation_cases c e with ⟨h', -⟩ | ⟨-, -, h'⟩ | ⟨-, -, h'⟩ <;> rw [h']
  · exact h
  · exact ⟨h.equations, mem_insert h.buffer, h.store, h.pending⟩
  · exact ⟨mem_insert h.equations, h.buffer, h.store, h.pending⟩

lemma foldl_insertEquation (h : c.Carries E B A) (hes : ∀ e ∈ es, E e) :
    (es.foldl Constraint.insertEquation c).Carries E B A := by
  induction es generalizing c with
  | nil => exact h
  | cons e es ih =>
      rw [List.forall_mem_cons] at hes
      exact ih (h.insertEquation hes.1) hes.2

lemma falsify (h : c.Carries E B A) (e : Equation) : (c.falsify e).Carries E B A := by
  unfold Constraint.falsify
  split
  · exact h
  · exact ⟨h.equations, h.buffer, h.store, h.pending⟩

lemma updateTruth (h : c.Carries E B A) : c.updateTruth.Carries E B A := by
  unfold Constraint.updateTruth
  split
  · exact h
  · exact ⟨h.equations, h.buffer, h.store, h.pending⟩

/-! ### The normal form -/

lemma setStore {σ : Substitution} (h : c.Carries E B A) (hσ : ∀ b ∈ σ.toList, B b.1 b.2) :
    ({ c with store := σ }).Carries E B A := ⟨h.equations, h.buffer, hσ, h.pending⟩

lemma bind (h : c.Carries E B A) (ht : B x t) : (c.bind T x t).Carries E B A := by
  have hinsert : ({ c with store := c.store.insert x t }).Carries E B A := by
    refine h.setStore fun b hb => ?_
    rcases Substitution.mem_toList_insert.mp hb with rfl | ⟨-, hb⟩
    · exact ht
    · exact h.store b hb
  unfold Constraint.bind
  split
  · exact h
  · split
    · exact h.setStore fun b hb => h.store b (Substitution.mem_toList_erase.mp hb).2
    · exact hinsert.falsify _
    · exact hinsert

end Carries

lemma carries_compose (hT : T.Transfers E B) (hc : c.Carries E B A) (ht : B x t)
    (h : compose T c x t = .ok d) : d.Carries E B A := by
  have hfold : ∀ (bs : List (Var × Term)) (c : Constraint), (∀ b ∈ bs, B b.1 b.2) →
      c.Carries E B A → (bs.foldl (composeBinding T (.single x t)) c).Carries E B A := by
    intro bs
    induction bs with
    | nil => exact fun _ _ hc => hc
    | cons b bs ih =>
        intro c hbs hc
        rw [List.forall_mem_cons] at hbs
        refine ih _ hbs.2 ?_
        unfold composeBinding Substitution.substitute?
        split
        · next u hu =>
            split at hu
            · cases hu
              exact hc.bind (hT.compose ht hbs.1)
            · cases hu
        · exact hc
  have hstore := hfold c.store.toList c hc.store hc
  by_cases hx : x ∈ c.store.keys
  · rw [compose, if_pos (Substitution.contains_iff.mpr hx)] at h
    cases h
  · rw [compose_eq hx] at h
    cases h
    split
    · exact hstore
    · refine hstore.setStore fun b hb => ?_
      rcases Substitution.mem_toList_insert.mp hb with rfl | ⟨-, hb⟩
      · exact ht
      · exact hstore.store b hb

lemma carries_renormalize (hT : T.Transfers E B) (hc : c.Carries E B A)
    (h : renormalize T c = .ok d) : d.Carries E B A := by
  -- each binding found uses up an equation
  induction hn : c.equations.size using Nat.strongRecOn generalizing c with
  | _ n ih =>
      have hscan := @scanned T c.store .empty c.equations.toList
      have remaining : ∀ {es : List Equation}, (∀ e ∈ es, E e) →
          ∀ q ∈ T.remaining c.store es, E q := by
        intro es hes q hq
        obtain ⟨e, he, rfl, -⟩ := Theory.mem_remaining.mp hq
        exact hT.instantiate hc.store (hes e he)
      have hes := hc.equations
      rw [renormalize] at h
      split at h
      · next kept hpass =>
          rw [hpass] at hscan
          cases hscan
          cases h
          exact ⟨fun q hq => remaining hes q (EquationSet.mem_ofList.mp hq), hc.buffer, hc.store,
            hc.pending⟩
      · next kept e hpass =>
          rw [hpass] at hscan
          cases hscan with
          | @refuted pre post p hsplit _ _ =>
              rw [hsplit, List.forall_mem_append, List.forall_mem_cons] at hes
              cases h
              refine Carries.falsify ?_ _
              refine ⟨fun q hq => ?_, hc.buffer, hc.store, hc.pending⟩
              rcases EquationSet.mem_insertAll.mp hq with hq | hq
              · rcases EquationSet.mem_insert.mp hq with hq | rfl
                · exact remaining hes.1 q (EquationSet.mem_ofList.mp hq)
                · exact hT.instantiate hc.store hes.2.1
              · exact hes.2.2 q hq
      · next kept x t hpass =>
          rw [hpass] at hscan
          cases hscan with
          | @solved pre post p _ _ hsplit _ _ hb =>
              rw [hsplit, List.forall_mem_append, List.forall_mem_cons] at hes
              have ht : B x t := hT.binding (hT.instantiate hc.store hes.2.1) hb
              have hkept : ∀ q ∈ ((EquationSet.ofList (T.remaining c.store pre)).insertAll
                  post).toList, E q := by
                intro q hq
                rcases EquationSet.mem_insertAll.mp hq with hq | hq
                · exact remaining hes.1 q (EquationSet.mem_ofList.mp hq)
                · exact hes.2.2 q hq
              split at h
              · cases h
              · next a ha =>
                  have ha := carries_compose hT hc ht ha
                  have ha' : ({ a with equations := (EquationSet.ofList
                      (T.remaining c.store pre)).insertAll post }).Carries E B A :=
                    ⟨hkept, ha.buffer, ha.store, ha.pending⟩
                  split at h
                  · cases h
                    exact ha'
                  · exact ih _ (hn ▸ size_kept_lt hsplit) ha' h rfl

theorem carries_normalize (hT : T.Transfers E B) (hc : c.Carries E B A)
    (h : c.normalize T = .ok d) : d.Carries E B A := by
  unfold normalize at h
  split at h
  · cases h
    exact hc
  · have hdrain : ({ c with normal := true }.drain).Carries E B A :=
      ⟨fun q hq => (EquationSet.mem_insertAll.mp hq).elim (hc.equations q) (hc.buffer q),
        by simp [drain], hc.store, hc.pending⟩
    cases hr : renormalize T { c with normal := true }.drain with
    | error fault => simp [hr, Except.map] at h
    | ok a =>
        rw [hr] at h
        cases h
        exact (carries_renormalize hT hdrain hr).updateTruth

end Constraint

/-! ### Classes of terms -/

/-- Every term put in belongs to the class `Q` and every term stored to `P`; the ways in which a
theory rewrites terms do not leave these classes. -/
structure Theory.Preserves (T : Theory) (Q P : Term → Prop) : Prop where
  of_stored {t : Term} : P t → Q t
  mem_true : Q (.bool true)
  mem_conjuncts {t : Term} : Q t → ∀ u ∈ t.conjuncts, Q u
  evaluate {t : Term} : Q t → P (T.evaluate t)
  apply {σ : Substitution} (hσ : ∀ b ∈ σ.toList, P b.2) {t : Term} : P t → Q (σ.apply t)

/-- Nor does solving over the theory leave them, with every variable among the terms put in. -/
structure Theory.Stores (T : Theory) (Q P : Term → Prop) : Prop extends T.Preserves Q P where
  mem_var (x : Var) : Q (.var x)
  unique {fold : Bool} {e : Equation} {parts : List Equation} {n m : Nat} :
    P e.left → P e.right → T.unifier fold e n = (.ok (.unique parts), m) →
      ∀ q ∈ parts, Q q.left ∧ Q q.right
  disjunction {fold : Bool} {e : Equation} {common : List Equation}
    {alternatives : List (List Equation)} {n m : Nat} :
    P e.left → P e.right → T.unifier fold e n = (.ok (.disjunction common alternatives), m) →
      ∀ qs ∈ common :: alternatives, ∀ q ∈ qs, Q q.left ∧ Q q.right

namespace Theory.Preserves

variable {T : Theory} {Q P : Term → Prop} {σ : Substitution} {t : Term} {e : Equation}

lemma instantiate (hT : T.Preserves Q P) (hσ : ∀ b ∈ σ.toList, P b.2) (ht : P t) :
    P (T.instantiate σ t) := by
  unfold Theory.instantiate
  split
  · exact hT.evaluate (hT.apply hσ ht)
  · exact ht

lemma instantiateEquation (hT : T.Preserves Q P) (hσ : ∀ b ∈ σ.toList, P b.2)
    (he : P e.left ∧ P e.right) :
    P (e.instantiate T.evaluate σ).left ∧ P (e.instantiate T.evaluate σ).right := by
  rw [Equation.instantiate_eq_map]
  exact ⟨hT.instantiate hσ he.1, hT.instantiate hσ he.2⟩

lemma obligations (hT : T.Preserves Q P) (he : Q e.left ∧ Q e.right) :
    ∀ q ∈ T.obligations e, P q.left ∧ P q.right := by
  have hsplit : ∀ q ∈ e.split, Q q.left ∧ Q q.right := by
    unfold Equation.split
    split
    · exact List.forall_mem_map.mpr fun u hu => ⟨hT.mem_conjuncts he.1 u hu, hT.mem_true⟩
    · split
      · exact List.forall_mem_map.mpr fun u hu => ⟨hT.mem_conjuncts he.2 u hu, hT.mem_true⟩
      · exact List.forall_mem_singleton.mpr he
  exact List.forall_mem_map.mpr fun q hq =>
    ⟨hT.evaluate (hsplit q hq).1, hT.evaluate (hsplit q hq).2⟩

lemma transfers (hT : T.Preserves Q P) :
    T.Transfers (fun e => P e.left ∧ P e.right) fun _ t => P t where
  instantiate hσ he := hT.instantiateEquation hσ he
  binding he hb := by
    rcases Equation.binding?_cases hb with hq | hq <;> rw [hq] at he
    · exact he.2
    · exact he.1
  compose ht hu := hT.evaluate (hT.apply (by simpa using ht) hu)

end Theory.Preserves

namespace Constraint

/-- The terms of the equations and bindings belong to the class, and all alternatives of the
disjunctions have the property. -/
abbrev Stored (P : Term → Prop) (A : Constraint → Prop) (c : Constraint) : Prop :=
  c.Carries (fun e => P e.left ∧ P e.right) (fun _ t => P t) A

/-- The terms of the constraint belong to the class, and it has the property. None of its
alternatives is false, and the same is true of each. -/
inductive Throughout (P : Term → Prop) (G : Constraint → Prop) : Constraint → Prop where
  | intro {c : Constraint} : G c → (∀ e ∈ c.equations.toList, P e.left ∧ P e.right) →
      (∀ e ∈ c.buffer.toList, P e.left ∧ P e.right) → (∀ b ∈ c.store.toList, P b.2) →
      (∀ D ∈ c.pending, ∀ a ∈ D, a.isFalse = false) →
      (∀ D ∈ c.pending, ∀ a ∈ D, Throughout P G a) → Throughout P G c

/-- What is asked of the alternatives of a constraint. -/
abbrev Alternative (P : Term → Prop) (G : Constraint → Prop) (a : Constraint) : Prop :=
  a.isFalse = false ∧ a.Throughout P G

variable {T : Theory} {Q P : Term → Prop} {A G : Constraint → Prop} {c d : Constraint} {x : Var}
  {t : Term} {e : Equation} {es : List Equation} {kept : EquationSet} {cs ds : List Constraint}
  {fold : Bool} {fuel n m : Nat}

lemma Throughout.holds (h : c.Throughout P G) : G c := by
  cases h
  assumption

lemma Throughout.stored (h : c.Throughout P G) : c.Stored P (Alternative P G) := by
  cases h with
  | intro _ hes hbuffer hstore hopen hpending =>
      exact ⟨hes, hbuffer, hstore, fun D hD a ha => ⟨hopen D hD a ha, hpending D hD a ha⟩⟩

lemma Stored.throughout (h : c.Stored P (Alternative P G)) (hG : G c) : c.Throughout P G :=
  .intro hG h.equations h.buffer h.store (fun D hD a ha => (h.pending D hD a ha).1)
    fun D hD a ha => (h.pending D hD a ha).2

lemma stored_empty : empty.Stored P A := carries_empty

/-! ### Insertion -/

lemma Stored.insertAll (hT : T.Preserves Q P) (h : c.Stored P A)
    (hes : ∀ e ∈ es, Q e.left ∧ Q e.right) : (c.insertAll T es).Stored P A := by
  rw [insertAll_eq_foldl]
  refine h.foldl_insertEquation fun q hq => ?_
  obtain ⟨e, he, hq⟩ := List.mem_flatMap.mp hq
  exact hT.obligations (hes e he) q hq

lemma Stored.content (hT : T.Stores Q P) (h : d.Stored P A) :
    ∀ e ∈ d.content T, P e.left ∧ P e.right := by
  intro e he
  rcases List.mem_append.mp he with he | he
  · obtain ⟨q, hq, he⟩ := List.mem_flatMap.mp he
    obtain ⟨b, hb, rfl⟩ := List.mem_map.mp hq
    exact hT.obligations ⟨hT.mem_var b.1, hT.of_stored (h.store b hb)⟩ e he
  · exact h.equations e he

lemma Stored.conjoin (hT : T.Stores Q P) (hc : c.Stored P A) (hd : d.Stored P A) :
    (c.conjoin T d).Stored P A := by
  unfold Constraint.conjoin
  split
  · exact hc
  · split
    · exact hc.falsify _
    · have hcontent := hc.foldl_insertEquation (hd.content hT)
      unfold addPending
      split
      · exact hcontent
      · exact ⟨hcontent.equations, hcontent.buffer, hcontent.store, fun D hD =>
          (List.mem_append.mp hD).elim (hcontent.pending D) (hd.pending D)⟩

/-! ### The normal form -/

theorem stored_normalize (hT : T.Preserves Q P) (hc : c.Stored P A) (h : c.normalize T = .ok d) :
    d.Stored P A := carries_normalize hT.transfers hc h

/-! ### Simplification -/

lemma stored_round (hT : T.Stores Q P) {solve : List (List Equation) → Engine (List Constraint)}
    (hsolve : ∀ as k ds l, (∀ es ∈ as, ∀ e ∈ es, Q e.left ∧ Q e.right) →
      solve as k = .ok (ds, l) → ∀ a ∈ ds, A a ∧ a.Stored P A)
    (hc : c.Stored P A) (hkept : ∀ e ∈ kept.toList, P e.left ∧ P e.right)
    (hes : ∀ e ∈ es, P e.left ∧ P e.right) (h : round T fold solve c kept es n = .ok (d, m)) :
    d.Stored P A := by
  induction es generalizing c kept n with
  | nil =>
      obtain ⟨rfl, -⟩ := Engine.pure_eq_ok.mp h
      exact ⟨hkept, hc.buffer, hc.store, hc.pending⟩
  | cons e es ih =>
      rw [List.forall_mem_cons] at hes
      have hinsert : ∀ q ∈ (kept.insert e).toList, P q.left ∧ P q.right := fun q hq =>
        (EquationSet.mem_insert.mp hq).elim (hkept q) fun hq => hq ▸ hes.1
      -- a failure leaves the equations that have not been dealt with
      have stuck : ∀ (b : Bool) (q : Equation), (({ c with normal := b }.putBack
          ((kept.insert e).insertAll es)).falsify q).Stored P A := by
        refine fun b q => Carries.falsify ?_ q
        exact ⟨fun q hq => (EquationSet.mem_insertAll.mp hq).elim (hinsert q) (hes.2 q),
          hc.buffer, hc.store, hc.pending⟩
      have hc' : ({ c with normal := false }).Stored P A :=
        ⟨hc.equations, hc.buffer, hc.store, hc.pending⟩
      rcases round_cases h with ⟨failure, -, rfl⟩ | ⟨k, -, h⟩ | ⟨parts, k, -, hu, h⟩ |
        ⟨common, as, k, ds, l, hu, hds, h⟩
      · exact stuck c.normal _
      · exact ih hc hinsert hes.2 h
      · exact ih (hc'.insertAll hT.toPreserves (hT.unique hes.1.1 hes.1.2 hu)) hkept hes.2 h
      · have hmem := hT.disjunction hes.1.1 hes.1.2 hu
        rw [List.forall_mem_cons] at hmem
        have hcommon := hc'.insertAll hT.toPreserves hmem.1
        have hds := hsolve as k ds l hmem.2 hds
        rcases h with ⟨-, rfl⟩ | ⟨a, rfl, h⟩ | ⟨b, rfl, h⟩
        · exact stuck false _
        · exact ih (hcommon.conjoin hT (hds a List.mem_cons_self).2) hkept hes.2 h
        · refine ih ?_ hkept hes.2 h
          refine ⟨hcommon.equations, hcommon.buffer, hcommon.store, fun D hD => ?_⟩
          rcases List.mem_append.mp hD with hD | hD
          · exact hcommon.pending D hD
          · rw [List.mem_singleton.mp hD]
            exact fun a ha => (hds a ha).1

/-- The property holds of whatever simplification makes of the alternatives of an equation. -/
def HoldsOfSolved (T : Theory) (G : Constraint → Prop) : Prop :=
  ∀ {fold : Bool} {fuel : Nat} {es : List Equation} {n m : Nat} {d : Constraint},
    simplifySince T fold fuel none (empty.insertAll T es) n = .ok (d, m) → G d

theorem stored_simplifySince (hT : T.Stores Q P) (hG : HoldsOfSolved T G) {last : Option Snapshot}
    (hc : c.Stored P (Alternative P G)) (h : simplifySince T fold fuel last c n = .ok (d, m)) :
    d.Stored P (Alternative P G) := by
  induction fuel generalizing last c n d m with
  | zero => exact absurd h Engine.throw_ne_ok
  | succ fuel ih =>
      have hsolve : ∀ as k ds l, (∀ es ∈ as, ∀ e ∈ es, Q e.left ∧ Q e.right) →
          satisfiable T fold fuel as k = .ok (ds, l) →
          ∀ a ∈ ds, Alternative P G a ∧ a.Stored P (Alternative P G) := by
        intro as k ds l has h a ha
        obtain ⟨bs, j, hbs, h⟩ := Engine.bind_eq_ok.mp h
        obtain ⟨rfl, -⟩ := Engine.pure_eq_ok.mp h
        obtain ⟨ha, hopen⟩ := List.mem_filter.mp ha
        obtain ⟨es, hes, i, i', ha⟩ := Engine.mem_of_mapM hbs a ha
        have hstored := ih (stored_empty.insertAll hT.toPreserves (has es hes)) ha
        exact ⟨⟨by simpa using hopen, hstored.throughout (hG ha)⟩, hstored⟩
      obtain ⟨b, hb, h⟩ := simplifySince_cases h
      have hb := stored_normalize hT.toPreserves hc hb
      rcases h with ⟨-, rfl, -⟩ | ⟨-, -, a, k, ha, h⟩
      · exact hb
      · have ha := stored_round (c := b.takeOut) hT hsolve
          ⟨by simp [takeOut], hb.buffer, hb.store, hb.pending⟩ (by simp) hb.equations ha
        rcases h with ⟨-, rfl, -⟩ | ⟨-, h⟩
        · exact ha
        · exact ih ha h

lemma stored_simplify (hT : T.Stores Q P) (hG : HoldsOfSolved T G) (hc : c.Stored P (Alternative P G))
    (h : c.simplify T fuel fold n = .ok (d, m)) : d.Stored P (Alternative P G) :=
  stored_simplifySince hT hG hc h

/-! ### Alternatives -/

lemma stored_foldlM_extendBy (hT : T.Stores Q P) (hG : HoldsOfSolved T G) {D : List (List Constraint)}
    (hcs : ∀ c ∈ cs, c.Stored P (Alternative P G)) (hD : ∀ C ∈ D, ∀ a ∈ C, Alternative P G a)
    (h : D.foldlM (extendBy T fuel) cs n = .ok (ds, m)) :
    ∀ d ∈ ds, d.Stored P (Alternative P G) := by
  induction D generalizing cs n with
  | nil =>
      obtain ⟨rfl, -⟩ := Engine.pure_eq_ok.mp h
      exact hcs
  | cons C D ih =>
      rw [List.forall_mem_cons] at hD
      rw [List.foldlM_cons] at h
      obtain ⟨bs, k, hbs, h⟩ := Engine.bind_eq_ok.mp h
      refine ih (fun b hb => ?_) hD.2 h
      obtain ⟨-, c, hc, a, ha, e, i, j, he, hb⟩ := extendBy_cases hbs b hb
      have hconjoin := (hcs c hc).conjoin hT (hD.1 a ha).2.stored
      exact stored_simplify hT hG (stored_normalize hT.toPreserves hconjoin he) hb

theorem stored_alternatives (hT : T.Stores Q P) (hG : HoldsOfSolved T G)
    (hc : c.Stored P (Alternative P G)) (h : c.alternatives T fuel n = .ok (ds, m)) :
    ∀ d ∈ ds, d.Stored P (Alternative P G) := by
  unfold alternatives at h
  split at h
  · obtain ⟨rfl, -⟩ := Engine.pure_eq_ok.mp h
    exact List.forall_mem_singleton.mpr hc
  · obtain ⟨b, hb, hrun⟩ := Engine.lift_bind_eq_ok.mp h
    have hbase : ({ c with pending := [], normal := false }).Stored P (Alternative P G) :=
      ⟨hc.equations, hc.buffer, hc.store, by simp⟩
    exact stored_foldlM_extendBy hT hG
      (List.forall_mem_singleton.mpr (stored_normalize hT.toPreserves hbase hb)) hc.pending hrun

end Constraint

end SolvedForm

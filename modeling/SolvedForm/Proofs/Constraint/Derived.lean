import SolvedForm.Proofs.Constraint.Finality
import SolvedForm.Proofs.Constraint.Session
import SolvedForm.Proofs.Constraint.Stored
import SolvedForm.Proofs.Term.Canonical

/-!
The constraints that operations derive from the empty one, over a class of terms.

* `Theory.Stable`: classes of terms that no operation leaves.
* `Constraint.Change`, `Constraint.Derived`: one operation with terms of a class and renamings of a
  kind, and what such operations lead to.
* `Constraint.Derived.throughout`: what all operations keep holds of every derived constraint and of
  all alternatives that are pending in it.
* `Theory.stable_frameless`, `Theory.stable_canonical`: the terms without frames make such a class,
  and so do all terms.
-/

namespace SolvedForm

open Term

/-- Every term put in belongs to the class `Q` and every term stored to `P`; no operation over the
theory leaves these classes. -/
structure Theory.Stable (T : Theory) (Q P : Term → Prop) : Prop extends T.Stores Q P where
  stored_var (x : Var) : P (.var x)
  stored_apply {σ : Substitution} (hσ : ∀ b ∈ σ.toList, P b.2) {t : Term} : P t → P (σ.apply t)
  stored_rename (ρ : Var → Var) {t : Term} : P t → P (t.rename ρ)
  expand {c : Constraint} {narrowing : Bool} {t : Term} {r : Expansion} :
    (∀ e ∈ c.equations.toList, P e.left ∧ P e.right) → (∀ b ∈ c.store.toList, P b.2) → P t →
      c.expand? T narrowing t = some r → Q r.term ∧ ∀ e ∈ r.conditions, Q e.left ∧ Q e.right

namespace Constraint

variable {T : Theory} {Q P : Term → Prop} {A G : Constraint → Prop} {c d : Constraint} {x : Var}
  {narrowing : Bool} {fuel n m : Nat}

/-! ### Expansion -/

/-- In the course of expansion the constraint stores terms of the class, and the conditions may be
put into it. -/
structure Expanding.Stored (Q P : Term → Prop) (A : Constraint → Prop) (s : Expanding) : Prop where
  constraint : s.constraint.Stored P A
  conditions : ∀ e ∈ s.conditions, Q e.left ∧ Q e.right

lemma Expanding.Stored.binding {s : Expanding} (hT : T.Stable Q P) (hs : s.Stored Q P A) (x : Var) :
    (expandBinding T narrowing s x).Stored Q P A := by
  unfold expandBinding
  split
  · next r hr =>
      obtain ⟨u, hu, hr⟩ := Option.bind_eq_some_iff.mp hr
      have hu := hs.constraint.store (x, u) (Substitution.mem_toList_iff.mpr hu)
      obtain ⟨hterm, hconditions⟩ := hT.expand hs.constraint.equations hs.constraint.store hu hr
      exact ⟨hs.constraint.bind (hT.evaluate hterm), fun e he =>
        (List.mem_append.mp he).elim (hs.conditions e) (hconditions e)⟩
  · exact hs

lemma stored_expandEquation (hT : T.Stable Q P) {e : Equation} {r : Equation × List Equation}
    (hc : c.Stored P A) (he : P e.left ∧ P e.right) (h : c.expandEquation T narrowing e = some r) :
    (P r.1.left ∧ P r.1.right) ∧ ∀ q ∈ r.2, Q q.left ∧ Q q.right := by
  have side {t : Term} {r : Expansion} (ht : P t) (h : c.expand? T narrowing t = some r) :
      Q r.term ∧ ∀ e ∈ r.conditions, Q e.left ∧ Q e.right :=
    hT.expand hc.equations hc.store ht h
  have evaluate {t : Term} (ht : P t) : P (T.evaluate t) := hT.evaluate (hT.of_stored ht)
  unfold expandEquation at h
  split at h
  · cases h
  · next l hl _ =>
      obtain ⟨hterm, hconditions⟩ := side he.1 hl
      cases h
      exact ⟨⟨hT.evaluate hterm, evaluate he.2⟩, hconditions⟩
  · next r _ hr =>
      obtain ⟨hterm, hconditions⟩ := side he.2 hr
      cases h
      exact ⟨⟨evaluate he.1, hT.evaluate hterm⟩, hconditions⟩
  · next l r hl hr =>
      obtain ⟨hleft, hl⟩ := side he.1 hl
      obtain ⟨hright, hr⟩ := side he.2 hr
      cases h
      exact ⟨⟨hT.evaluate hleft, hT.evaluate hright⟩, fun q hq =>
        (List.mem_append.mp hq).elim (hl q) (hr q)⟩

lemma Expanding.Stored.equations {s : Expanding} (hT : T.Stable Q P) (hs : s.Stored Q P A) :
    (expandEquations T narrowing s).Stored Q P A := by
  have hexpand {e : Equation} {r : Equation × List Equation}
      (he : e ∈ s.constraint.equations.toList)
      (h : s.constraint.expandEquation T narrowing e = some r) :
      (P r.1.left ∧ P r.1.right) ∧ ∀ q ∈ r.2, Q q.left ∧ Q q.right :=
    stored_expandEquation hT hs.constraint (hs.constraint.equations e he) h
  refine ⟨⟨fun q hq => ?_, hs.constraint.buffer, hs.constraint.store, hs.constraint.pending⟩,
    fun q hq => ?_⟩
  · obtain ⟨r, hr, rfl⟩ := List.mem_map.mp (EquationSet.mem_ofList.mp hq)
    obtain ⟨e, he, rfl⟩ := List.mem_map.mp hr
    dsimp only
    cases h : s.constraint.expandEquation T narrowing e with
    | none => exact hs.constraint.equations e he
    | some r => exact (hexpand he h).1
  · rcases List.mem_append.mp hq with hq | hq
    · exact hs.conditions q hq
    · obtain ⟨r, hr, hq⟩ := List.mem_flatMap.mp hq
      obtain ⟨e, he, rfl⟩ := List.mem_map.mp hr
      dsimp only at hq
      cases h : s.constraint.expandEquation T narrowing e with
      | none => simp [h] at hq
      | some r =>
          rw [h] at hq
          exact (hexpand he h).2 q hq

lemma stored_expandOnce (hT : T.Stable Q P) (hc : c.Stored P A) :
    (c.expandOnce T narrowing).1.Stored P A := by
  have bindings : ∀ (xs : List Var) (s : Expanding), s.Stored Q P A →
      (xs.foldl (expandBinding T narrowing) s).Stored Q P A := by
    intro xs
    induction xs with
    | nil => exact fun _ hs => hs
    | cons x xs ih => exact fun s hs => ih _ (hs.binding hT x)
  have hs : (expandEquations T narrowing
      (c.store.keys.foldl (expandBinding T narrowing) ⟨c, [], false⟩)).Stored Q P A :=
    (bindings c.store.keys ⟨c, [], false⟩ ⟨hc, by simp⟩).equations hT
  have hinsert := hs.constraint.insertAll hT.toPreserves hs.conditions
  exact Carries.updateTruth ⟨hinsert.equations, hinsert.buffer, hinsert.store, hinsert.pending⟩

theorem stored_expandAndSimplify (hT : T.Stable Q P) (hG : HoldsOfSolved T G)
    (hc : c.Stored P (Alternative P G)) (h : c.expandAndSimplify T fuel narrowing n = .ok (d, m)) :
    d.Stored P (Alternative P G) := by
  obtain ⟨b, hnormal, hrun⟩ := Engine.lift_bind_eq_ok.mp h
  have hb := stored_normalize hT.toPreserves hc hnormal
  clear hnormal h
  induction fuel generalizing b n with
  | zero => exact absurd hrun Engine.throw_ne_ok
  | succ fuel ih =>
      rw [expandAndSimplifyNormal] at hrun
      split at hrun
      · obtain ⟨rfl, -⟩ := Engine.pure_eq_ok.mp hrun
        exact hb
      · dsimp only at hrun
        obtain ⟨a, l, ha, hrest⟩ := Engine.bind_eq_ok.mp hrun
        have ha := stored_simplify hT.toStores hG (stored_expandOnce hT hb) ha
        split at hrest
        · exact ih a hrest ha
        · obtain ⟨rfl, -⟩ := Engine.pure_eq_ok.mp hrest
          exact ha

/-! ### Orientation, removal and renaming -/

lemma stored_orient (hT : T.Stable Q P) {targets : List Var} (hc : c.Stored P A)
    (h : c.orient T targets = .ok (.ok d)) : d.Stored P A := by
  rcases orient_cases h with ⟨-, rfl⟩ | ⟨-, fl, hfl, h⟩
  · exact hc
  · have turned : ∀ b ∈ fl.bindings.toList, P b.2 := fun b hb => by
      obtain ⟨z, hz, -⟩ := (Orientation.flips_spec hfl).2 b hb
      exact hz ▸ hT.stored_var z
    have flipped : ∀ b ∈ fl.apply c.store, P b.2 := by
      rintro ⟨x, u⟩ hb
      rcases (Orientation.mem_flipped_iff hfl).mp hb with hb | ⟨t, ht, -, -, rfl⟩
      · exact turned _ hb
      · exact hT.stored_apply turned (hc.store _ ht)
    have bound : ∀ (bs : List (Var × Term)) (d : Constraint), (∀ b ∈ bs, P b.2) → d.Stored P A →
        (bs.foldl (fun d b => d.bind T b.1 b.2) d).Stored P A := by
      intro bs
      induction bs with
      | nil => exact fun _ _ hd => hd
      | cons b bs ih =>
          intro d hbs hd
          rw [List.forall_mem_cons] at hbs
          exact ih _ hbs.2 (hd.bind hbs.1)
    have hd := bound _ _ flipped (hc.setStore (σ := .empty) (by simp))
    refine stored_normalize hT.toPreserves ?_ h
    exact ⟨hd.equations, hd.buffer, hd.store, hd.pending⟩

lemma Stored.removeBindings (hc : c.Stored P A) (xs : List Var) :
    (c.removeBindings T xs).Stored P A := by
  obtain ⟨σ, hσ, h⟩ := removeBindings_eq (T := T) c xs
  rw [h]
  exact (hc.setStore fun b hb => hc.store b (hσ b hb)).updateTruth

lemma Stored.rename (hT : T.Stable Q P) (hc : c.Stored P A) (ρ : Var → Var) :
    (c.rename ρ).Stored P A := by
  refine ⟨fun q hq => ?_, hc.buffer, fun b hb => ?_, hc.pending⟩
  · obtain ⟨e, he, rfl⟩ := List.mem_map.mp (EquationSet.mem_ofList.mp hq)
    exact ⟨hT.stored_rename ρ (hc.equations e he).1, hT.stored_rename ρ (hc.equations e he).2⟩
  · obtain ⟨p, hp, rfl⟩ := List.mem_map.mp (Substitution.mem_of_mem_ofList hb)
    exact hT.stored_rename ρ (hc.store p hp)

/-! ### Operations -/

/-- One operation on a constraint, which may put in the constraint `b` or terms of the class, or
rename variables as allowed. An operation that takes turns may take any number of them, and start
from any number for fresh variables, as long as it ends. -/
inductive Change (T : Theory) (Q : Term → Prop) (R : Constraint → (Var → Var) → Prop)
    (b c : Constraint) : Constraint → Prop where
  | add {d : Constraint} {e : Equation} : Q e.left ∧ Q e.right → c.add T e = .ok d →
      Change T Q R b c d
  | addConditions {d : Constraint} {ts : List Term} : (∀ t ∈ ts, Q t) →
      c.addConditions T ts = .ok d → Change T Q R b c d
  | addSubstitution {d : Constraint} {σ : Substitution} : (∀ b ∈ σ.toList, Q b.2) →
      c.addSubstitution T σ = .ok d → Change T Q R b c d
  | addConstraint {d : Constraint} : c.addConstraint T b = .ok d → Change T Q R b c d
  | addAllThenSimplify {d : Constraint} {es : List Equation} {fuel n m : Nat} :
      (∀ e ∈ es, Q e.left ∧ Q e.right) → c.addAllThenSimplify T fuel es n = .ok (d, m) →
      Change T Q R b c d
  | simplify {d : Constraint} {fold : Bool} {fuel n m : Nat} :
      c.simplify T fuel fold n = .ok (d, m) → Change T Q R b c d
  | expandAndSimplify {d : Constraint} {narrowing : Bool} {fuel n m : Nat} :
      c.expandAndSimplify T fuel narrowing n = .ok (d, m) → Change T Q R b c d
  | orient {d : Constraint} {targets : List Var} : c.orient T targets = .ok (.ok d) →
      Change T Q R b c d
  | isMatching {d : Constraint} {xs : List Var} {matching : Bool} :
      c.isMatching T xs = .ok (.ok (matching, d)) → Change T Q R b c d
  | removeBindings (xs : List Var) : Change T Q R b c (c.removeBindings T xs)
  | rename {ρ : Var → Var} : R c ρ → Change T Q R b c (c.rename ρ)
  | alternatives {d : Constraint} {ds : List Constraint} {fuel n m : Nat} :
      c.alternatives T fuel n = .ok (ds, m) → d ∈ ds → Change T Q R b c d

/-- The constraints that such operations derive from the empty one. What is put in is derived as
well, and an alternative that is pending may be taken out. -/
inductive Derived (T : Theory) (Q : Term → Prop) (R : Constraint → (Var → Var) → Prop) :
    Constraint → Prop where
  | empty : Derived T Q R empty
  | change {b c d : Constraint} : Derived T Q R c → Derived T Q R b → Change T Q R b c d →
      Derived T Q R d
  | alternative {c a : Constraint} {D : List Constraint} : Derived T Q R c → D ∈ c.pending →
      a ∈ D → Derived T Q R a

variable {R : Constraint → (Var → Var) → Prop} {b : Constraint}

lemma Change.update (h : Change T Q R b c d) : Update T b c d := by
  cases h with
  | add _ h => exact .add _ h
  | addConditions _ h => exact .addConditions _ h
  | addSubstitution _ h => exact .addSubstitution _ h
  | addConstraint h => exact .addConstraint h
  | addAllThenSimplify _ h => exact .addAllThenSimplify _ _ _ _ h
  | simplify h => exact .simplify _ _ _ _ h
  | expandAndSimplify h => exact .expandAndSimplify _ _ _ _ h
  | orient h => exact .orient _ h
  | isMatching h => exact .isMatching _ _ h
  | removeBindings xs => exact .removeBindings xs
  | rename => exact .rename _
  | alternatives h hd => exact .alternatives _ _ _ _ h hd

/-- Where variables are only renamed apart, it is an operation of a session. -/
lemma Change.operation (hR : ∀ {c : Constraint} {ρ : Var → Var}, R c ρ → c.MovesApart ρ)
    (h : Change T Q R b c d) : ∃ made, d ∈ made ∧ Operation T [c, b] (.ok made) := by
  have hc : c ∈ [c, b] := List.mem_cons_self
  have hb : b ∈ [c, b] := by simp
  have single {r : Except Fault Constraint} (h : r = .ok d)
      (hop : Operation T [c, b] (r.map fun d => [d])) :
      ∃ made, d ∈ made ∧ Operation T [c, b] (.ok made) :=
    ⟨[d], List.mem_singleton_self d, by rw [h] at hop; exact hop⟩
  have run {r : Except Fault (Constraint × Nat)} {m : Nat} (h : r = .ok (d, m))
      (hop : Operation T [c, b] (r.map fun r => [r.1])) :
      ∃ made, d ∈ made ∧ Operation T [c, b] (.ok made) :=
    ⟨[d], List.mem_singleton_self d, by rw [h] at hop; exact hop⟩
  cases h with
  | add _ h => exact single h (.add _ hc)
  | addConditions _ h => exact single h (.addConditions _ hc)
  | addSubstitution _ h => exact single h (.addSubstitution _ hc)
  | addConstraint h => exact single h (.addConstraint hc hb)
  | addAllThenSimplify _ h => exact run h (.addAllThenSimplify _ _ _ hc)
  | simplify h => exact run h (.simplify _ _ _ hc)
  | expandAndSimplify h => exact run h (.expandAndSimplify _ _ _ hc)
  | @orient _ targets h =>
      have hop := Operation.orient (T := T) targets hc
      rw [h] at hop
      exact ⟨[d], List.mem_singleton_self d, hop⟩
  | @isMatching _ xs _ h =>
      have hop := Operation.isMatching (T := T) xs hc
      rw [h] at hop
      exact ⟨[d], List.mem_singleton_self d, hop⟩
  | removeBindings xs => exact ⟨_, List.mem_singleton_self _, .removeBindings xs hc⟩
  | rename hρ => exact ⟨_, List.mem_singleton_self _, .rename hc (hR hρ)⟩
  | @alternatives _ ds fuel n _ h hd =>
      have hop := Operation.alternatives (T := T) fuel n hc
      rw [h] at hop
      exact ⟨ds, hd, hop⟩

/-- An operation stores terms of the class. -/
theorem Change.stored (hT : T.Stable Q P) (hG : HoldsOfSolved T G)
    (hb : b.Stored P (Alternative P G)) (hc : c.Stored P (Alternative P G))
    (h : Change T Q R b c d) : d.Stored P (Alternative P G) := by
  have hT' := hT.toStores
  have hpre := hT.toPreserves
  cases h with
  | add he h =>
      exact stored_normalize hpre (hc.insertAll hpre (List.forall_mem_singleton.mpr he)) h
  | addConditions hts h =>
      exact stored_normalize hpre
        (hc.insertAll hpre (List.forall_mem_map.mpr fun t ht => ⟨hts t ht, hT.mem_true⟩)) h
  | addSubstitution hσ h =>
      exact stored_normalize hpre
        (hc.insertAll hpre (List.forall_mem_map.mpr fun b hb => ⟨hT.mem_var b.1, hσ b hb⟩)) h
  | addConstraint h => exact stored_normalize hpre (hc.conjoin hT' hb) h
  | addAllThenSimplify hes h => exact stored_simplify hT' hG (hc.insertAll hpre hes) h
  | simplify h => exact stored_simplify hT' hG hc h
  | expandAndSimplify h => exact stored_expandAndSimplify hT hG hc h
  | orient h => exact stored_orient hT hc h
  | isMatching h => exact stored_orient hT hc (isMatching_orient h)
  | removeBindings xs => exact hc.removeBindings xs
  | rename => exact hc.rename hT _
  | alternatives h hd => exact stored_alternatives hT' hG hc h _ hd

/-- What all operations keep, and what holds of solved alternatives, holds of all that is
derived. -/
theorem Derived.throughout (hT : T.Stable Q P) (hG : HoldsOfSolved T G) (hempty : G Constraint.empty)
    (hchange : ∀ {b c d : Constraint}, G b → G c → Change T Q R b c d → G d)
    (h : c.Derived T Q R) : c.Throughout P G := by
  induction h with
  | empty => exact stored_empty.throughout hempty
  | change _ _ hstep hc hb =>
      exact (hstep.stored hT hG hb.stored hc.stored).throughout
        (hchange hb.holds hc.holds hstep)
  | alternative _ hD ha hc => exact (hc.stored.pending _ hD _ ha).2

end Constraint

/-! ### Classes of terms -/

variable (order : SortOrder)

/-- Terms without frames, stored as they are. -/
lemma Theory.stable_frameless : (Theory.standard order).Stable Frameless Frameless where
  of_stored := id
  mem_var := .var
  mem_true := .bool true
  mem_conjuncts := hereditary_frameless.conjuncts
  evaluate := Frameless.evaluate
  apply hσ _ := Frameless.apply fun x u hu => hσ (x, u) (Substitution.mem_toList_iff.mpr hu)
  unique hl hr h := Decomposition.structural_unique hereditary_frameless hl hr h
  disjunction hl hr h := Decomposition.structural_disjunction hereditary_frameless hl hr h
  stored_var := .var
  stored_apply hσ _ := Frameless.apply fun x u hu => hσ (x, u) (Substitution.mem_toList_iff.mpr hu)
  stored_rename ρ _ := Frameless.rename ρ
  expand hes hstore ht h :=
    have hr := Constraint.frameless_expand? hes hstore ht h
    ⟨hr.term.frameless, fun e he =>
      ⟨(hr.conditions e he).1.frameless, (hr.conditions e he).2.frameless⟩⟩

/-- Terms of all kinds, whose maps are in order when they are stored. -/
lemma Theory.stable_canonical :
    (Theory.standard order).Stable (fun _ => True) Canonical where
  of_stored _ := trivial
  mem_var _ := trivial
  mem_true := trivial
  mem_conjuncts _ _ _ := trivial
  evaluate _ := canonical_evaluate _
  apply _ _ _ := trivial
  unique _ _ _ _ _ := ⟨trivial, trivial⟩
  disjunction _ _ _ _ _ _ _ := ⟨trivial, trivial⟩
  stored_var := .var
  stored_apply hσ _ := Canonical.apply hσ
  stored_rename ρ _ _ := canonical_rename ρ _
  expand _ _ _ _ := ⟨trivial, fun _ _ => ⟨trivial, trivial⟩⟩

end SolvedForm

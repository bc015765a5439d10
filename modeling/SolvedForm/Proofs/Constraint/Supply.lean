import SolvedForm.Constraint.Alternatives
import SolvedForm.Proofs.Constraint.Simplification
import SolvedForm.Proofs.Unification.Progress

/-!
The numbers for fresh variables.

* `Engine.Ascends`: a computation that does not go back to a number given out before.
* `Engine.Leads`: where one computation ends without drawing a fresh variable, so does another, and
  their answers are related.
* `Engine.Tallies`: two computations end alike, with related answers and the same number, or fail alike.
* `Constraint.ascends_simplifySince`, `Constraint.ascends_extendBy`: solving goes on in this way where
  the unifier does.
* `Unifier.ascends_structural`: the structural unifier does.
-/

namespace SolvedForm

variable {α α' β β' : Type}

/-! ### Computations -/

namespace Engine

/-- The next number for a fresh variable is not lower after the computation than before. -/
def Ascends (x : Engine α) : Prop := ∀ n a m, x n = .ok (a, m) → n ≤ m

lemma ascends_pure (a : α) : Ascends (pure a) := fun _ _ _ h => (pure_eq_ok.mp h).2 ▸ Nat.le_refl _

lemma ascends_throw (fault : Fault) : Ascends (throw fault : Engine α) := fun _ _ _ h =>
  absurd h throw_ne_ok

lemma ascends_lift (x : Except Fault α) : Ascends (liftM x : Engine α) := by
  intro n a m h
  cases x with
  | error => cases h
  | ok => exact Nat.le_of_eq (Prod.mk.inj (Except.ok.inj h)).2

lemma Ascends.bind {x : Engine α} {f : α → Engine β} (hx : x.Ascends) (hf : ∀ a, (f a).Ascends) :
    (x >>= f).Ascends := by
  intro n b m h
  obtain ⟨a, k, ha, hb⟩ := bind_eq_ok.mp h
  exact Nat.le_trans (hx n a k ha) (hf a k b m hb)

lemma ascends_mapM {f : α → Engine β} (hf : ∀ a, (f a).Ascends) (as : List α) :
    (as.mapM f).Ascends := by
  induction as with
  | nil =>
      rw [List.mapM_nil]
      exact ascends_pure []
  | cons a as ih =>
      rw [List.mapM_cons]
      exact (hf a).bind fun b => ih.bind fun bs => ascends_pure (b :: bs)

/-! ### Computations side by side -/

variable {R : α → α' → Prop} {R' : β → β' → Prop} {n : Nat} {x : Engine α} {x' : Engine α'}

/-- Where the first computation, from the number `n` for fresh variables, ends without drawing one, so
does the second, and the answers are related. -/
def Leads (R : α → α' → Prop) (n : Nat) (x : Engine α) (x' : Engine α') : Prop :=
  ∀ a, x n = .ok (a, n) → ∃ a', x' n = .ok (a', n) ∧ R a a'

lemma leads_pure {a : α} {a' : α'} (h : R a a') : Leads R n (pure a) (pure a') := by
  intro b hb
  obtain ⟨rfl, -⟩ := pure_eq_ok.mp hb
  exact ⟨a', rfl, h⟩

lemma Leads.bind {f : α → Engine β} {f' : α' → Engine β'} (h : Leads R n x x') (hx : x.Ascends)
    (hf : ∀ a, (f a).Ascends) (hff : ∀ a a', R a a' → Leads R' n (f a) (f' a')) :
    Leads R' n (x >>= f) (x' >>= f') := by
  intro b hb
  obtain ⟨a, k, ha, hb⟩ := bind_eq_ok.mp hb
  obtain rfl : k = n := Nat.le_antisymm (hf a k b n hb) (hx n a k ha)
  obtain ⟨a', ha', haa⟩ := h a ha
  obtain ⟨b', hb', hbb⟩ := hff a a' haa b hb
  exact ⟨b', bind_eq_ok.mpr ⟨a', k, ha', hb'⟩, hbb⟩

lemma leads_mapM {f : α → Engine β} {f' : α' → Engine β'} {as : List α} {as' : List α'}
    (h : List.Forall₂ R as as') (hf : ∀ a, (f a).Ascends)
    (hff : ∀ a ∈ as, ∀ a', R a a' → Leads R' n (f a) (f' a')) :
    Leads (List.Forall₂ R') n (as.mapM f) (as'.mapM f') := by
  induction h with
  | nil =>
      rw [List.mapM_nil, List.mapM_nil]
      exact leads_pure .nil
  | @cons a a' as as' haa _ ih =>
      rw [List.forall_mem_cons] at hff
      rw [List.mapM_cons, List.mapM_cons]
      refine (hff.1 a' haa).bind (hf a) (fun b => ?_) fun b b' hbb => ?_
      · exact (ascends_mapM hf as).bind fun bs => ascends_pure (b :: bs)
      · exact (ih hff.2).bind (ascends_mapM hf as) (fun bs => ascends_pure (b :: bs))
          fun bs bs' hbs => leads_pure (.cons hbb hbs)

/-- The outcomes of two computations: the same fault, or related answers with the same number for the
next fresh variable. -/
inductive Tallies (R : α → α' → Prop) : Except Fault (α × Nat) → Except Fault (α' × Nat) → Prop where
  | ok {a : α} {a' : α'} (n : Nat) : R a a' → Tallies R (.ok (a, n)) (.ok (a', n))
  | error (fault : Fault) : Tallies R (.error fault) (.error fault)

lemma Tallies.bind {f : α → Engine β} {f' : α' → Engine β'} (h : Tallies R (x n) (x' n))
    (hx : x.Ascends) (hff : ∀ a a' m, n ≤ m → R a a' → Tallies R' (f a m) (f' a' m)) :
    Tallies R' ((x >>= f) n) ((x' >>= f') n) := by
  change Tallies R' ((x n).bind fun r => f r.1 r.2) ((x' n).bind fun r => f' r.1 r.2)
  cases hr : x n with
  | error fault =>
      rw [hr] at h
      generalize x' n = r' at h ⊢
      cases h
      exact .error fault
  | ok r =>
      have hle := hx n r.1 r.2 hr
      rw [hr] at h
      generalize x' n = r' at h ⊢
      cases h with
      | ok m haa => exact hff _ _ m hle haa

lemma Tallies.map_eq {γ : Type} {r : Except Fault (α × Nat)} {r' : Except Fault (α' × Nat)} {f : α → γ}
    {f' : α' → γ} (h : Tallies R r r') (hff : ∀ a a', R a a' → f' a' = f a) :
    (r'.map fun p => (f' p.1, p.2)) = r.map fun p => (f p.1, p.2) := by
  cases h with
  | error fault => rfl
  | ok n haa => exact congrArg (fun c => Except.ok (c, n)) (hff _ _ haa)

lemma tallies_mapM {f : α → Engine β} {f' : α' → Engine β'} {as : List α} {as' : List α'}
    (h : List.Forall₂ R as as') (hf : ∀ a, (f a).Ascends)
    (hff : ∀ a ∈ as, ∀ a' m, n ≤ m → R a a' → Tallies R' (f a m) (f' a' m)) :
    Tallies (List.Forall₂ R') (as.mapM f n) (as'.mapM f' n) := by
  induction h generalizing n with
  | nil => exact .ok n .nil
  | @cons a a' as as' haa _ ih =>
      rw [List.forall_mem_cons] at hff
      rw [List.mapM_cons, List.mapM_cons]
      refine (hff.1 a' n (Nat.le_refl n) haa).bind (hf a) fun b b' m hm hbb => ?_
      refine (ih fun a ha a' k hk => hff.2 a ha a' k (Nat.le_trans hm hk)).bind (ascends_mapM hf as)
        fun bs bs' k _ hbs => .ok k (.cons hbb hbs)

end Engine

/-- The unifier gives out no number twice. -/
def Unifier.Ascends (unifier : Unifier) : Prop :=
  ∀ (fold : Bool) (e : Equation) (n : Nat), n ≤ (unifier fold e n).2

lemma Unifier.ascends_structural (order : SortOrder) : (Unifier.structural order).Ascends :=
  structural_supply_le order

namespace Constraint

variable {T : Theory} {fold : Bool}

/-! ### Solving -/

lemma ascends_round (hT : T.unifier.Ascends)
    {solve : List (List Equation) → Engine (List Constraint)} (hsolve : ∀ as, (solve as).Ascends)
    (c : Constraint) (kept : EquationSet) (es : List Equation) :
    (c.round T fold solve kept es).Ascends := by
  induction es generalizing c kept with
  | nil => exact Engine.ascends_pure _
  | cons e es ih =>
      have hunifier : Engine.Ascends (T.unifier fold e).toEngine := fun n _ _ h =>
        (Prod.mk.inj (Except.ok.inj h)).2 ▸ hT fold e n
      rw [round]
      refine hunifier.bind fun r => ?_
      split
      · exact Engine.ascends_pure _
      · split
        · exact ih _ _
        · exact ih _ _
      · refine (hsolve _).bind fun ds => ?_
        split
        · exact Engine.ascends_pure _
        · exact ih _ _
        · exact ih _ _

lemma ascends_simplifySince (hT : T.unifier.Ascends) (fuel : Nat) (last : Option Snapshot)
    (c : Constraint) : (c.simplifySince T fold fuel last).Ascends := by
  induction fuel generalizing last c with
  | zero => exact Engine.ascends_throw _
  | succ fuel ih =>
      rw [simplifySince]
      refine (Engine.ascends_lift _).bind fun d => ?_
      split
      · exact Engine.ascends_pure d
      · refine (ascends_round hT (fun as => ?_) _ _ _).bind fun e => ?_
        · exact (Engine.ascends_mapM (fun es => ih none _) as).bind fun ds => Engine.ascends_pure _
        · split
          · exact Engine.ascends_pure e
          · exact ih _ e

lemma ascends_satisfiable (hT : T.unifier.Ascends) (fuel : Nat) (as : List (List Equation)) :
    (satisfiable T fold fuel as).Ascends :=
  (Engine.ascends_mapM (fun _ => ascends_simplifySince hT fuel none _) as).bind fun _ =>
    Engine.ascends_pure _

/-- An alternative put in and worked out. -/
lemma ascends_extend (hT : T.unifier.Ascends) (fuel : Nat) (c d : Constraint) :
    Engine.Ascends (do let e ← c.addConstraint T d; e.simplify T fuel false) :=
  (Engine.ascends_lift _).bind fun e => ascends_simplifySince hT fuel none e

lemma ascends_extendBy (hT : T.unifier.Ascends) (fuel : Nat) (cs ds : List Constraint) :
    (extendBy T fuel cs ds).Ascends := by
  unfold extendBy
  refine Engine.Ascends.bind ?_ fun rows => Engine.ascends_pure _
  exact Engine.ascends_mapM (fun c => Engine.ascends_mapM (ascends_extend hT fuel c) ds) cs

lemma ascends_foldlM_extendBy (hT : T.unifier.Ascends) (fuel : Nat) (D : List (List Constraint))
    (cs : List Constraint) : (D.foldlM (extendBy T fuel) cs).Ascends := by
  induction D generalizing cs with
  | nil => exact Engine.ascends_pure cs
  | cons ds D ih =>
      rw [List.foldlM_cons]
      exact (ascends_extendBy hT fuel cs ds).bind ih

end Constraint

end SolvedForm

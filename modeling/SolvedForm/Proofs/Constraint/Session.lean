import Mathlib
import SolvedForm.Proofs.Constraint.BoundOnce

/-!
Sessions: operations on constraints one after the other, over terms of every kind.

* `Constraint.Operation`: an operation on constraints at hand, with its outcome.
* `Constraint.Session`: what is at hand after some operations.
* `Constraint.Session.untangled`: the invariant of all operations.
* `Constraint.Session.boundTwice_ne`: no operation ever binds a bound variable.
-/

namespace SolvedForm.Constraint

variable {pool : List Constraint} {T : Theory}

/-- An operation on constraints at hand, over a theory, and its outcome: a fault, or the constraints
that it makes. An operation that takes turns may be given any number of them, and any number from
which to start for fresh variables; implication may ask any solver. A renaming is asked to move
variables to different ones that the bindings and equations do not contain. -/
inductive Operation (T : Theory) (pool : List Constraint) : Except Fault (List Constraint) → Prop where
  | empty : Operation T pool (.ok [.empty])
  | add {c : Constraint} (e : Equation) : c ∈ pool →
      Operation T pool ((c.add T e).map fun d => [d])
  | addConditions {c : Constraint} (ts : List Term) : c ∈ pool →
      Operation T pool ((c.addConditions T ts).map fun d => [d])
  | addSubstitution {c : Constraint} (σ : Substitution) : c ∈ pool →
      Operation T pool ((c.addSubstitution T σ).map fun d => [d])
  | addConstraint {c b : Constraint} : c ∈ pool → b ∈ pool →
      Operation T pool ((c.addConstraint T b).map fun d => [d])
  | addAllThenSimplify {c : Constraint} (es : List Equation) (fuel n : Nat) : c ∈ pool →
      Operation T pool ((c.addAllThenSimplify T fuel es n).map fun r => [r.1])
  | simplify {c : Constraint} (fold : Bool) (fuel n : Nat) : c ∈ pool →
      Operation T pool ((c.simplify T fuel fold n).map fun r => [r.1])
  | expandAndSimplify {c : Constraint} (narrowing : Bool) (fuel n : Nat) : c ∈ pool →
      Operation T pool ((c.expandAndSimplify T fuel narrowing n).map fun r => [r.1])
  | orient {c : Constraint} (targets : List Var) : c ∈ pool →
      Operation T pool ((c.orient T targets).map fun r => r.toOption.toList)
  | isMatching {c : Constraint} (xs : List Var) : c ∈ pool →
      Operation T pool ((c.isMatching T xs).map fun r => r.toOption.toList.map (·.2))
  | removeBindings {c : Constraint} (xs : List Var) : c ∈ pool →
      Operation T pool (.ok [c.removeBindings T xs])
  | rename {c : Constraint} {ρ : Var → Var} : c ∈ pool → c.MovesApart ρ →
      Operation T pool (.ok [c.rename ρ])
  | alternatives {c : Constraint} (fuel n : Nat) : c ∈ pool →
      Operation T pool ((c.alternatives T fuel n).map (·.1))
  | implies {c d : Constraint} {σ : Type} (solver : Solver σ) (limits : TimeLimits) (fuel : Nat)
      (only : List Var) (s : σ) (n : Nat) : c ∈ pool → d ∈ pool →
      Operation T pool ((c.implies T solver limits fuel d only s n).map fun _ => [])

/-- The constraints at hand after finitely many operations, from none at the start. -/
inductive Session (T : Theory) : List Constraint → Prop where
  | start : Session T []
  | step {pool made : List Constraint} : Session T pool → Operation T pool (.ok made) →
      Session T (made ++ pool)

/-- An operation on untangled constraints binds no variable twice and makes untangled
constraints. -/
theorem Operation.bindsOnce {r : Except Fault (List Constraint)} (hT : T.Conservative)
    (hpool : ∀ c ∈ pool, c.Untangled) (h : Operation T pool r) :
    BindsOnce (fun made => ∀ d ∈ made, d.Untangled) r := by
  have answer : ∀ {α : Type} {Q : α → Prop} {r : Except Fault α} {made : α → List Constraint},
      BindsOnce Q r → (∀ a, Q a → ∀ d ∈ made a, d.Untangled) →
      BindsOnce (fun made => ∀ d ∈ made, d.Untangled) (r.map made) := by
    intro α Q r made hr hmade
    cases r with
    | ok a => exact hmade a hr
    | error _ => exact hr
  have single : ∀ {r : Except Fault Constraint}, BindsOnce Untangled r →
      BindsOnce (fun made => ∀ d ∈ made, d.Untangled) (r.map fun d => [d]) := fun hr =>
    answer hr fun _ => List.forall_mem_singleton.mpr
  have run : ∀ {x : Engine Constraint} {n : Nat}, x.BindsOnce Untangled →
      BindsOnce (fun made => ∀ d ∈ made, d.Untangled) ((x n).map fun r => [r.1]) := fun hx =>
    answer (hx _) fun _ => List.forall_mem_singleton.mpr
  cases h with
  | empty => exact List.forall_mem_singleton.mpr untangled_empty
  | add e hc => exact single (bindsOnce_addAll hT (hpool _ hc) _)
  | addConditions ts hc => exact single (bindsOnce_addAll hT (hpool _ hc) _)
  | addSubstitution σ hc => exact single (bindsOnce_addAll hT (hpool _ hc) _)
  | addConstraint hc hb => exact single (bindsOnce_addConstraint hT (hpool _ hc) _)
  | addAllThenSimplify es fuel n hc =>
      exact run (bindsOnce_simplify hT ((hpool _ hc).insertAll es))
  | simplify fold fuel n hc => exact run (bindsOnce_simplify hT (hpool _ hc))
  | expandAndSimplify narrowing fuel n hc =>
      exact run (bindsOnce_expandAndSimplify hT (hpool _ hc))
  | orient targets hc =>
      refine answer (bindsOnce_orient hT (hpool _ hc) targets) fun r hr d hd => ?_
      match r with
      | .error failure => cases hd
      | .ok a => exact List.mem_singleton.mp hd ▸ hr a rfl
  | isMatching xs hc =>
      refine answer (bindsOnce_isMatching hT (hpool _ hc) xs) fun r hr d hd => ?_
      match r with
      | .error failure => cases hd
      | .ok (b, a) => exact List.mem_singleton.mp hd ▸ hr b a rfl
  | removeBindings xs hc => exact List.forall_mem_singleton.mpr ((hpool _ hc).removeBindings xs)
  | rename hc hρ => exact List.forall_mem_singleton.mpr ((hpool _ hc).rename hρ)
  | alternatives fuel n hc => exact answer (bindsOnce_alternatives hT (hpool _ hc) n) fun _ hr => hr
  | implies solver limits fuel only s n hc hd =>
      exact answer (bindsOnce_implies hT (hpool _ hc) (hpool _ hd) s n) fun _ _ => by simp

/-- Every constraint of a session is untangled. -/
theorem Session.untangled (hT : T.Conservative) (h : Session T pool) : ∀ c ∈ pool, c.Untangled := by
  induction h with
  | start => simp
  | step _ hop ih =>
      have hmade := Operation.bindsOnce hT ih hop
      exact fun c hc => (List.mem_append.mp hc).elim (hmade c) (ih c)

/-- With the built-in evaluator, and whatever the sorts and the unifier, no operation of a session
comes upon a variable that is bound already and about to be bound again. -/
theorem Session.boundTwice_ne {order : SortOrder} {unifier : Unifier}
    {r : Except Fault (List Constraint)}
    (h : Session ⟨order, Term.evaluate, unifier⟩ pool)
    (hr : Operation ⟨order, Term.evaluate, unifier⟩ pool r) (x : Var) :
    r ≠ .error (.boundTwice x) := by
  have hT : Theory.Conservative ⟨order, Term.evaluate, unifier⟩ := fun ht => ht.evaluate
  have hrun := Operation.bindsOnce hT (h.untangled hT) hr
  rintro rfl
  exact hrun x rfl

/-- A bound frame that stays in place, inside a value and then in an equation, does no harm. -/
theorem Session.boundTwice_ne_frame :
    let T : Theory := .standard Subsorts.builtin.order
    let x : Var := ⟨"X", .map, false, none⟩
    let m : Var := ⟨"M", .map, false, none⟩
    let rest : Term := .app ⟨"rest", 0, none, .function⟩ []
    let σ : Substitution := .ofList [(x, .map [(.int 1, .int 2)] (some m)), (m, rest)]
    ∃ c, empty.addSubstitution T σ = .ok c ∧ m ∈ c.store.keys ∧
      c.store.find? x = some (.map [(.int 1, .int 2)] (some m)) ∧
      ∀ y, (c.add T ⟨.var x, .var m⟩).map (fun d => [d]) ≠ .error (.boundTwice y) := by
  intro T x m rest σ
  have hc : empty.addSubstitution T σ = .ok { store := σ } := by cbv
  have hmade : Operation T [.empty] (.ok [{ store := σ }]) := by
    have h := Operation.addSubstitution (T := T) σ (List.mem_singleton_self empty)
    rwa [hc] at h
  have hsession : Session T [{ store := σ }, .empty] := .step (.step .start .empty) hmade
  exact ⟨_, hc, by decide, by decide, fun y =>
    hsession.boundTwice_ne (.add _ List.mem_cons_self) y⟩

end SolvedForm.Constraint

import Mathlib
import SolvedForm.Proofs.Constraint.Expansion
import SolvedForm.Proofs.Constraint.Renaming

/-!
The constraints that can be reached, and their normal form.

* `Constraint.Reachable`: what the operations on constraints make of the empty constraint, over
  terms without frames.
* `Constraint.Reachable.settled`: the invariant of all operations.
* `Constraint.reachable_normalForm`: every reachable constraint that is not false is in normal
  form.
-/

namespace SolvedForm

lemma Fragment.symmetric_withoutFrames (order : SortOrder) :
    (withoutFrames order).Symmetric where
  swap _ := .var _
  join _ _ := .var _

namespace Constraint

/-- The renaming moves variables to different variables that do not occur in the constraint, and
keeps their sorts and their anonymity. -/
structure FreshRenaming (c : Constraint) (ρ : Var → Var) : Prop where
  injective {x y : Var} : ρ x ≠ x → ρ y ≠ y → ρ x = ρ y → x = y
  fresh {x : Var} : ρ x ≠ x → ¬ c.Mentions (ρ x)
  sort (x : Var) : (ρ x).sort = x.sort
  anonymous (x : Var) : (ρ x).anonymous = x.anonymous

/-- On the variables of the constraint such a renaming is injective. -/
lemma FreshRenaming.renaming {c : Constraint} {ρ : Var → Var} (h : c.FreshRenaming ρ) :
    Term.Renaming ρ c.Mentions where
  injective hx hy heq := MovesApart.eq_of_mentions ⟨h.injective, h.fresh⟩ hx hy heq
  sort _ := h.sort _
  anonymous _ := h.anonymous _

/-- The constraints that the operations make, started from the empty constraint, over the
standard theory of a sort order and terms without frames. An operation that takes turns may take
any number of them, and start from any number for fresh variables, as long as it ends. -/
inductive Reachable (order : SortOrder) : Constraint → Prop where
  | empty : Reachable order empty
  | add {c d : Constraint} {e : Equation} : Reachable order c →
      e.left.Frameless → e.right.Frameless → c.add (.standard order) e = .ok d →
      Reachable order d
  | addConditions {c d : Constraint} {ts : List Term} : Reachable order c →
      (∀ t ∈ ts, t.Frameless) → c.addConditions (.standard order) ts = .ok d →
      Reachable order d
  | addSubstitution {c d : Constraint} {σ : Substitution} : Reachable order c →
      (∀ b ∈ σ.toList, b.2.Frameless) → c.addSubstitution (.standard order) σ = .ok d →
      Reachable order d
  | addConstraint {b c d : Constraint} : Reachable order c → Reachable order b →
      c.addConstraint (.standard order) b = .ok d → Reachable order d
  | addAllThenSimplify {c d : Constraint} {es : List Equation} {fuel n m : Nat} :
      Reachable order c → (∀ e ∈ es, e.left.Frameless ∧ e.right.Frameless) →
      c.addAllThenSimplify (.standard order) fuel es n = .ok (d, m) → Reachable order d
  | simplify {c d : Constraint} {fold : Bool} {fuel n m : Nat} : Reachable order c →
      c.simplify (.standard order) fuel fold n = .ok (d, m) → Reachable order d
  | expandAndSimplify {c d : Constraint} {narrowing : Bool} {fuel n m : Nat} :
      Reachable order c → c.expandAndSimplify (.standard order) fuel narrowing n = .ok (d, m) →
      Reachable order d
  | orient {c d : Constraint} {targets : List Var} : Reachable order c →
      c.orient (.standard order) targets = .ok (.ok d) → Reachable order d
  | isMatching {c d : Constraint} {xs : List Var} {matching : Bool} : Reachable order c →
      c.isMatching (.standard order) xs = .ok (.ok (matching, d)) → Reachable order d
  | removeBindings {c : Constraint} {xs : List Var} : Reachable order c →
      Reachable order (c.removeBindings (.standard order) xs)
  | rename {c : Constraint} {ρ : Var → Var} : Reachable order c → c.FreshRenaming ρ →
      Reachable order (c.rename ρ)
  | alternatives {c d : Constraint} {ds : List Constraint} {fuel n m : Nat} :
      Reachable order c → c.alternatives (.standard order) fuel n = .ok (ds, m) → d ∈ ds →
      Reachable order d

variable {order : SortOrder} {c : Constraint}

/-- Every operation leaves a constraint false or in normal form. -/
theorem Reachable.settled (h : c.Reachable order) : c.Settled (.withoutFrames order) := by
  induction h with
  | empty => exact settled_empty
  | add _ hl hr h ih =>
      exact settled_of_normalize (ih.sound.insertAll (by simpa using ⟨hl, hr⟩)) h
  | addConditions _ hts h ih =>
      refine settled_of_normalize (ih.sound.insertAll ?_) h
      exact List.forall_mem_map.mpr fun t ht => ⟨hts t ht, .bool true⟩
  | addSubstitution _ hσ h ih =>
      refine settled_of_normalize (ih.sound.insertAll ?_) h
      exact List.forall_mem_map.mpr fun b hb => ⟨.var b.1, hσ b hb⟩
  | addConstraint _ _ h ihc ihb =>
      exact settled_of_normalize (ihc.sound.conjoin (ihb.imp_right (·.1))) h
  | addAllThenSimplify _ hes h ih => exact simplify_settled (ih.sound.insertAll hes) h
  | simplify _ h ih => exact simplify_settled ih.sound h
  | expandAndSimplify _ h ih => exact expandAndSimplify_settled ih h
  | orient _ h ih => exact orient_settled (Fragment.symmetric_withoutFrames order) ih h
  | isMatching _ h ih =>
      exact orient_settled (Fragment.symmetric_withoutFrames order) ih (isMatching_orient h)
  | removeBindings _ ih => exact removeBindings_settled ih
  | rename _ hρ ih => exact rename_settled hρ.renaming ih
  | alternatives _ h hd ih => exact alternatives_settled ih h _ hd

/-- Every reachable constraint that is not false is in normal form: it is flagged so, is not
guarded and has an empty buffer, its store is solved and its equations are open, and it is true
exactly when neither an equation nor a disjunction is left. -/
theorem reachable_normalForm (h : c.Reachable order) (hc : c.isFalse = false) :
    c.NormalForm order :=
  (h.settled.resolve_left fun hr => absurd hr.1 (by simp [hc])).2

/-- A sum under a binding that has been turned round is in normal form. -/
theorem reachable_normalForm_oriented :
    let T : Theory := .standard Subsorts.builtin.order
    let x : Var := ⟨"X", .int, false, none⟩
    let y : Var := ⟨"Y", .int, false, none⟩
    let w : Var := ⟨"W", .int, false, none⟩
    let sum (v : Var) : Equation := ⟨.ofOperator .add [.var v, .var w], .int 3⟩
    ∃ c d : Constraint, empty.addAllThenSimplify T 2 [⟨.var x, .var y⟩, sum x] 0 = .ok (c, 0) ∧
      c.orient T [y] = .ok (.ok d) ∧ d.store.toList = [(y, .var x)] ∧
      d.equations.toList = [sum x] ∧ d.isFalse = false ∧ d.NormalForm T.order := by
  intro T x y w sum
  have hc : empty.addAllThenSimplify T 2 [⟨.var x, .var y⟩, sum x] 0 = .ok
      ({ equations := .ofList [sum y], store := .single x (.var y), truth := .unknown }, 0) := by
    cbv
  have hd : orient T [y]
      { equations := .ofList [sum y], store := .single x (.var y), truth := .unknown } = .ok (.ok
      { equations := .ofList [sum x], store := .single y (.var x), truth := .unknown }) := by
    cbv
  have hsum : (sum x).left.Frameless ∧ (sum x).right.Frameless :=
    ⟨.app _ (by simpa using ⟨.var x, .var w⟩), .int 3⟩
  refine ⟨_, _, hc, hd, rfl, rfl, rfl,
    reachable_normalForm (.orient (.addAllThenSimplify .empty ?_ hc) hd) rfl⟩
  simpa using ⟨⟨Term.Frameless.var x, Term.Frameless.var y⟩, hsum⟩

end Constraint

end SolvedForm

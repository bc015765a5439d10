import SolvedForm.Proofs.Meaning

/-!
The constraints that are made over a fragment by adding equations and simplifying.

* `Constraint.BuiltOver`: these constraints, from the empty one.
* `Constraint.BuiltOver.settled`, `Constraint.BuiltOver.truthful`, `Constraint.BuiltOver.pending`:
  they are false or in normal form, false only where no meaning satisfies them, and without
  disjunctions.
-/

namespace SolvedForm.Constraint

/-- The constraints made over a fragment by adding equations and simplifying, from the empty one. -/
inductive BuiltOver {T : Theory} (F : Fragment T) : Constraint → Prop where
  | empty : BuiltOver F empty
  | add {c d : Constraint} {e : Equation} : BuiltOver F c → F.MemEq e → c.add T e = .ok d →
      BuiltOver F d
  | simplify {c d : Constraint} {fuel n m : Nat} : BuiltOver F c →
      c.simplify T fuel false n = .ok (d, m) → BuiltOver F d

variable {T : Theory} {F : Fragment T} {c : Constraint} {β : Type}

lemma BuiltOver.settled (h : c.BuiltOver F) : c.Settled F := by
  induction h with
  | empty => exact settled_empty
  | add _ he h ih =>
      exact settled_of_normalize (ih.sound.insertAll (List.forall_mem_singleton.mpr he)) h
  | simplify _ h ih => exact simplify_settled ih.sound h

lemma BuiltOver.truthful (M : Meaning F β) (h : c.BuiltOver F) : M.Truthful c := by
  induction h with
  | empty => exact fun h => absurd h Bool.false_ne_true
  | add hc he h ih => exact (Meaning.sat_addAll hc.settled ih (List.forall_mem_singleton.mpr he) h).2
  | simplify hc h ih => exact (Meaning.sat_simplify hc.settled.sound ih h).2

/-- No disjunction comes up where the unifier makes none. -/
lemma BuiltOver.pending_of_decisive (hF : F.Decisive) (h : c.BuiltOver F) (hc : c.isFalse = false) :
    c.pending = [] := by
  induction h with
  | empty => rfl
  | @add c d e hb he h ih =>
      have hsound := hb.settled.sound.insertAll (List.forall_mem_singleton.mpr he)
      refine (pending_of_normalize hsound h hc).trans ((pending_insertAll c _).trans (ih ?_))
      rw [← Bool.not_eq_true]
      intro hf
      rw [Constraint.add, addAll, insertAll_of_isFalse hf, normalize, if_pos (by simp [hf])] at h
      cases h
      exact Bool.false_ne_true (hc.symm.trans hf)
  | simplify hb h ih =>
      exact (pending_of_simplifySince hF hb.settled.sound h hc).trans (ih (isFalse_of_simplify h hc))

lemma BuiltOver.pending (M : Meaning F β) (h : c.BuiltOver F) (hc : c.isFalse = false) :
    c.pending = [] :=
  h.pending_of_decisive M.decisive hc

end SolvedForm.Constraint

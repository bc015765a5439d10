import SolvedForm.Proofs.Constraint.Simplification
import SolvedForm.Proofs.Unification.Progress

/-!
A round without folding, taken apart.

* `Theory.TakesApart`: equations with the parts that the unifier finds for them, one after the other.
* `Constraint.gather`: what a round makes of equations once their parts are known.
* `Constraint.exists_takesApart`, `Constraint.round_of_takesApart`: a round in which no contradiction
  comes up has found the parts of all equations and gathered them, and the other way round.
* `Constraint.Gathered`, `Constraint.gathered`: the equations gathered are those kept and the
  obligations of the parts of the others, in whatever order the equations were gone through.
-/

namespace SolvedForm

/-- Each of the equations has the given parts; they are found one after the other, between two numbers
for the next fresh variable. -/
inductive Theory.TakesApart (T : Theory) : Nat → List (Equation × List Equation) → Nat → Prop where
  | nil (n : Nat) : TakesApart T n [] n
  | cons {e : Equation} {parts : List Equation} {ps : List (Equation × List Equation)} {n k m : Nat} :
      T.unifier false e n = (.ok (.unique parts), k) → TakesApart T k ps m →
      TakesApart T n ((e, parts) :: ps) m

/-- The equation comes of equations with given parts: it is one of those that are left alone, or an
obligation of a part of another one. -/
def Theory.Gathers (T : Theory) (ps : List (Equation × List Equation)) (q : Equation) : Prop :=
  ∃ p ∈ ps, p.2 = [p.1] ∧ q = p.1 ∨ p.2 ≠ [p.1] ∧ q ∈ p.2.flatMap T.obligations

namespace Constraint

variable {T : Theory} {c d : Constraint} {kept : EquationSet} {es : List Equation}
  {ps : List (Equation × List Equation)} {n m : Nat}
  {solve : List (List Equation) → Engine (List Constraint)}

/-- What a round makes of equations with given parts. -/
def gather (T : Theory) (c : Constraint) (kept : EquationSet) :
    List (Equation × List Equation) → Constraint
  | [] => c.putBack kept
  | p :: ps =>
    if p.2 = [p.1] then gather T c (kept.insert p.1) ps
    else gather T ({ c with normal := false }.insertAll T p.2) kept ps

/-! ### A round finds the parts -/

lemma exists_takesApart (hT : T.unifier.Decisive) (h : c.round T false solve kept es n = .ok (d, m))
    (hd : d.isFalse = false) :
    ∃ ps, ps.map (·.1) = es ∧ T.TakesApart n ps m ∧ d = c.gather T kept ps := by
  induction es generalizing c kept n with
  | nil =>
      obtain ⟨rfl, rfl⟩ := Engine.pure_eq_ok.mp h
      exact ⟨[], rfl, .nil n, rfl⟩
  | cons e es ih =>
      rcases round_cases h with ⟨failure, -, rfl⟩ | ⟨k, hu, h⟩ | ⟨parts, k, hne, hu, h⟩ |
        ⟨_, _, _, _, _, hu, -⟩
      · exact absurd hd (by simp [isFalse_falsify])
      · obtain ⟨ps, rfl, hps, rfl⟩ := ih h
        exact ⟨(e, [e]) :: ps, rfl, .cons hu hps, (if_pos rfl).symm⟩
      · obtain ⟨ps, rfl, hps, rfl⟩ := ih h
        exact ⟨(e, parts) :: ps, rfl, .cons hu hps, (if_neg hne).symm⟩
      · exact absurd hu hT

lemma round_of_takesApart (h : T.TakesApart n ps m) :
    c.round T false solve kept (ps.map (·.1)) n = .ok (c.gather T kept ps, m) := by
  induction h generalizing c kept with
  | nil => rfl
  | @cons e parts ps n k m hu _ ih =>
      rw [List.map_cons, gather]
      by_cases hp : parts = [e]
      · subst hp
        rw [round_of_kept hu, ih, if_pos rfl]
      · rw [round_of_parts hu hp, ih, if_neg hp]

/-! ### What is gathered -/

/-- The second constraint has gathered equations with given parts: into its equations those that are
left alone, into its buffer the obligations of the others. -/
structure Gathered (T : Theory) (c : Constraint) (kept : EquationSet)
    (ps : List (Equation × List Equation)) (d : Constraint) : Prop where
  undecided : d.isFalse = false
  unguarded : d.guarded = false
  store : d.store = c.store
  pending : d.pending = c.pending
  normal : d.normal = true ↔ c.normal = true ∧ ∀ p ∈ ps, p.2 = [p.1]
  mem_equations (q : Equation) : q ∈ d.equations.toList ++ d.buffer.toList ↔
    q ∈ kept.toList ++ c.buffer.toList ∨ T.Gathers ps q
  unchanged : d.normal = true → d = c.putBack (kept.insertAll (ps.map (·.1)))

lemma gathered (hc : c.Collecting) : Gathered T c kept ps (c.gather T kept ps) := by
  induction ps generalizing c kept with
  | nil =>
      refine ⟨hc.undecided, rfl, rfl, rfl, by simp [gather, putBack], ?_, fun _ => rfl⟩
      simp [gather, putBack, Theory.Gathers]
  | cons p ps ih =>
      have gathers_cons : ∀ q, T.Gathers (p :: ps) q ↔
          (p.2 = [p.1] ∧ q = p.1 ∨ p.2 ≠ [p.1] ∧ q ∈ p.2.flatMap T.obligations) ∨
            T.Gathers ps q := fun q => by
        simp only [Theory.Gathers, List.exists_mem_cons_iff]
      rw [gather]
      split
      · next hp =>
          have h : Gathered T c (kept.insert p.1) ps _ := ih hc
          refine ⟨h.undecided, h.unguarded, h.store, h.pending, ?_, ?_, h.unchanged⟩
          · rw [h.normal, List.forall_mem_cons]
            simp [hp]
          · intro q
            rw [h.mem_equations, gathers_cons]
            simp only [List.mem_append, EquationSet.mem_insert, hp, true_and, ne_eq, not_true_eq_false,
              false_and, or_false]
            tauto
      · next hp =>
          have hc' : ({ c with normal := false }).Collecting :=
            ⟨hc.undecided, hc.guarded, hc.equations⟩
          obtain ⟨hcollect, hbuffer⟩ := hc'.insertAll (T := T) p.2
          have hext : ({ c with normal := false }).Extends
              ({ c with normal := false }.insertAll T p.2) := extends_insertAll _ _
          have hlost := normal_of_extends hext
          have h : Gathered T _ kept ps _ := ih hcollect
          have hnormal : (gather T ({ c with normal := false }.insertAll T p.2) kept ps).normal =
              false := by
            rw [← Bool.not_eq_true, h.normal, hlost]
            simp
          refine ⟨h.undecided, h.unguarded, h.store.trans hext.store, ?_, ?_, ?_, ?_⟩
          · exact h.pending.trans (pending_insertAll _ _)
          · rw [hnormal, List.forall_mem_cons]
            simp [hp]
          · intro q
            rw [h.mem_equations, gathers_cons, hbuffer]
            simp only [List.mem_append, EquationSet.mem_insertAll, hp, false_and, ne_eq,
              not_false_eq_true, true_and, false_or]
            tauto
          · exact fun hn => absurd (hnormal.symm.trans hn) Bool.false_ne_true

end Constraint

end SolvedForm

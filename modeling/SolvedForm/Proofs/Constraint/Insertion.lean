import SolvedForm.Proofs.Fragment

/-!
Equations and constraints put in without solving.

* `Constraint.Extends`: a constraint that has come from another one by insertion. Store and
  guard are those of the other one, and the flag of the normal form is lost with every change.
* `Constraint.extends_insertAll`, `Constraint.extends_addPending`, `Constraint.extends_conjoin`:
  what is put in by the operations is put in so.
* `Constraint.Within.insertAll`, `Constraint.Within.addPending`, `Constraint.Within.conjoin`: the
  constraint stays within its fragment.
* `Constraint.Collecting`: a constraint in the course of a round, whose buffer takes in what is put
  into it.
-/

namespace SolvedForm.Constraint

variable {T : Theory} {F : Fragment T} {c d : Constraint} {e : Equation} {es : List Equation}

/-- The second constraint has come from the first by putting things in. -/
structure Extends (c d : Constraint) : Prop where
  store : d.store = c.store
  guarded : d.guarded = c.guarded
  changed : d = c ∨ d.normal = false

lemma Extends.refl (c : Constraint) : c.Extends c := ⟨rfl, rfl, .inl rfl⟩

lemma Extends.trans {b : Constraint} (h : b.Extends c) (h' : c.Extends d) : b.Extends d where
  store := h'.store.trans h.store
  guarded := h'.guarded.trans h.guarded
  changed := h'.changed.elim (fun hd => hd ▸ h.changed) .inr

lemma isFalse_eq_false_of_unknown (h : c.truth = .unknown) : c.isFalse = false := by
  simp [isFalse, h]

/-! ### One equation -/

/-- An equation is refused, or it goes to the buffer of a guarded constraint, or to the
equations of an unguarded one. -/
lemma insertEquation_cases (c : Constraint) (e : Equation) :
    (c.insertEquation e = c ∧
        (c.isFalse = true ∨ e ∈ c.equations.toList ∨ c.guarded = true ∧ e ∈ c.buffer.toList)) ∨
      c.isFalse = false ∧ c.guarded = true ∧ c.insertEquation e =
        { c with buffer := c.buffer.insert e, normal := false, truth := .unknown } ∨
      c.isFalse = false ∧ c.guarded = false ∧ c.insertEquation e =
        { c with equations := c.equations.insert e, normal := false, truth := .unknown } := by
  unfold insertEquation
  split
  · next h =>
      simp only [Bool.or_eq_true, Bool.and_eq_true, EquationSet.contains_iff] at h
      exact .inl ⟨rfl, or_assoc.mp h⟩
  · next h =>
      have hc : c.isFalse = false := by
        simp only [Bool.or_eq_true, not_or, Bool.not_eq_true] at h
        exact h.1.1
      split
      · next hg => exact .inr (.inl ⟨hc, hg, rfl⟩)
      · next hg => exact .inr (.inr ⟨hc, Bool.not_eq_true _ ▸ hg, rfl⟩)

lemma extends_insertEquation (c : Constraint) (e : Equation) : c.Extends (c.insertEquation e) := by
  rcases insertEquation_cases c e with ⟨h, -⟩ | ⟨-, -, h⟩ | ⟨-, -, h⟩ <;> rw [h]
  · exact .refl c
  · exact ⟨rfl, rfl, .inr rfl⟩
  · exact ⟨rfl, rfl, .inr rfl⟩

lemma pending_insertEquation (c : Constraint) (e : Equation) :
    (c.insertEquation e).pending = c.pending := by
  rcases insertEquation_cases c e with ⟨h, -⟩ | ⟨-, -, h⟩ | ⟨-, -, h⟩ <;> rw [h]

lemma Within.insertEquation (h : c.Within F) (he : F.MemEq e) : (c.insertEquation e).Within F := by
  have mem_insert : ∀ {E : EquationSet}, (∀ q ∈ E.toList, F.MemEq q) →
      ∀ q ∈ (E.insert e).toList, F.MemEq q := fun hE q hq =>
    (EquationSet.mem_insert.mp hq).elim (hE q) fun hq => hq ▸ he
  rcases insertEquation_cases c e with ⟨h', -⟩ | ⟨-, -, h'⟩ | ⟨-, -, h'⟩ <;> rw [h']
  · exact h
  · exact .intro ⟨rfl, h.over.consistent, h.over.equations, mem_insert h.over.buffer,
      h.over.store⟩ h.pending
  · exact .intro ⟨rfl, h.over.consistent, mem_insert h.over.equations, h.over.buffer,
      h.over.store⟩ h.pending

/-! ### Several equations -/

lemma extends_foldl {α : Type} {f : Constraint → α → Constraint}
    (hf : ∀ (c : Constraint) (a : α), c.Extends (f c a)) (as : List α) (c : Constraint) :
    c.Extends (as.foldl f c) := by
  induction as generalizing c with
  | nil => exact .refl c
  | cons a as ih => exact (hf c a).trans (ih (f c a))

lemma extends_insertAll (c : Constraint) (es : List Equation) : c.Extends (c.insertAll T es) :=
  extends_foldl (fun c e => extends_foldl extends_insertEquation (T.obligations e) c) es c

lemma Within.foldl_insertEquation (h : c.Within F) (hes : ∀ e ∈ es, F.MemEq e) :
    (es.foldl Constraint.insertEquation c).Within F := by
  induction es generalizing c with
  | nil => exact h
  | cons e es ih =>
      rw [List.forall_mem_cons] at hes
      exact ih (h.insertEquation hes.1) hes.2

/-- Inserting equations is inserting all their obligations as they stand. -/
lemma insertAll_eq_foldl (c : Constraint) (es : List Equation) :
    c.insertAll T es = (es.flatMap T.obligations).foldl Constraint.insertEquation c := by
  induction es generalizing c with
  | nil => rfl
  | cons e es ih =>
      rw [List.flatMap_cons, List.foldl_append]
      exact ih _

lemma Within.insertAll (h : c.Within F) (hes : ∀ e ∈ es, F.MemEq e) :
    (c.insertAll T es).Within F := by
  rw [insertAll_eq_foldl]
  refine h.foldl_insertEquation fun q hq => ?_
  obtain ⟨e, he, hq⟩ := List.mem_flatMap.mp hq
  exact Fragment.memEq_obligations (hes e he) q hq

/-! ### What insertion leaves alone -/

lemma pending_insertAll (c : Constraint) (es : List Equation) :
    (c.insertAll T es).pending = c.pending := by
  rw [insertAll_eq_foldl]
  induction es.flatMap T.obligations generalizing c with
  | nil => rfl
  | cons e es ih => rw [List.foldl_cons, ih, pending_insertEquation]

lemma equations_insertEquation (hg : c.guarded = true) :
    (c.insertEquation e).equations = c.equations := by
  rcases insertEquation_cases c e with ⟨h, -⟩ | ⟨-, -, h⟩ | ⟨-, hg', -⟩
  · rw [h]
  · rw [h]
  · simp [hg] at hg'

/-- What is put into a guarded constraint goes to its buffer. -/
lemma equations_insertAll (hg : c.guarded = true) :
    (c.insertAll T es).equations = c.equations := by
  rw [insertAll_eq_foldl]
  induction es.flatMap T.obligations generalizing c with
  | nil => rfl
  | cons e es ih =>
      rw [List.foldl_cons, ih ((extends_insertEquation c e).guarded.trans hg),
        equations_insertEquation hg]

lemma mem_buffer_insertEquation {q : Equation} (h : q ∈ (c.insertEquation e).buffer.toList) :
    q ∈ c.buffer.toList ∨ q = e := by
  rcases insertEquation_cases c e with ⟨h', -⟩ | ⟨-, -, h'⟩ | ⟨-, -, h'⟩ <;> rw [h'] at h
  · exact .inl h
  · exact EquationSet.mem_insert.mp h
  · exact .inl h

/-- Only the obligations of what is put in come to the buffer. -/
lemma mem_buffer_insertAll {q : Equation} (h : q ∈ (c.insertAll T es).buffer.toList) :
    q ∈ c.buffer.toList ∨ q ∈ es.flatMap T.obligations := by
  rw [insertAll_eq_foldl] at h
  generalize es.flatMap T.obligations = qs at h ⊢
  induction qs generalizing c with
  | nil => exact .inl h
  | cons e es ih =>
      rcases ih h with h | h
      · exact (mem_buffer_insertEquation h).imp_right fun hq => List.mem_cons.mpr (.inl hq)
      · exact .inr (List.mem_cons_of_mem _ h)

/-- What is put into an open constraint that is not guarded joins its equations, unless all of it is
there already. -/
lemma insertAll_cases (hc : c.isFalse = false) (hg : c.guarded = false) (es : List Equation) :
    c.insertAll T es = c ∧ c.equations.insertAll (es.flatMap T.obligations) = c.equations ∨
      c.insertAll T es = { c with
        equations := c.equations.insertAll (es.flatMap T.obligations)
        normal := false
        truth := .unknown } := by
  rw [insertAll_eq_foldl]
  induction es.flatMap T.obligations generalizing c with
  | nil => exact .inl ⟨rfl, rfl⟩
  | cons q qs ih =>
      rw [List.foldl_cons, EquationSet.insertAll, List.foldl_cons, ← EquationSet.insertAll]
      rcases insertEquation_cases c q with ⟨heq, hin⟩ | ⟨-, hg', -⟩ | ⟨-, -, heq⟩
      · have hq : q ∈ c.equations.toList := by simpa [hc, hg] using hin
        rw [heq, EquationSet.insert_of_mem hq]
        exact ih hc hg
      · exact absurd (hg.symm.trans hg') Bool.false_ne_true
      · rw [heq]
        rcases ih (c := { c with equations := _, normal := false, truth := .unknown }) rfl hg with
          ⟨h, hE⟩ | h
        · rw [h, hE]
          exact .inr rfl
        · exact .inr h

/-! ### Disjunctions and whole constraints -/

lemma extends_addPending (c : Constraint) (D : List (List Constraint)) :
    c.Extends (c.addPending D) := by
  unfold addPending
  split
  · exact .refl c
  · exact ⟨rfl, rfl, .inr rfl⟩

lemma Within.addPending {D : List (List Constraint)} (h : c.Within F)
    (hD : ∀ C ∈ D, ∀ d ∈ C, d.Within F) : (c.addPending D).Within F := by
  unfold Constraint.addPending
  split
  · exact h
  · exact .intro ⟨rfl, h.over.consistent, h.over.equations, h.over.buffer, h.over.store⟩
      fun C hC => (List.mem_append.mp hC).elim (h.pending C) (hD C)

lemma conjoin_eq (h : d.contradiction = none) (hc : c.isFalse = false) :
    c.conjoin T d = ((d.content T).foldl insertEquation c).addPending d.pending := by
  rw [conjoin, if_neg (by simp [hc])]
  simp only [h]

lemma extends_conjoin (h : d.Within F) (hc : c.isFalse = false) : c.Extends (c.conjoin T d) := by
  rw [conjoin_eq h.over.consistent hc]
  exact (extends_foldl extends_insertEquation _ c).trans (extends_addPending _ _)

lemma Within.conjoin (hc : c.Within F) (h : d.Within F) : (c.conjoin T d).Within F := by
  rw [conjoin_eq h.over.consistent hc.over.undecided]
  exact (hc.foldl_insertEquation h.over.content).addPending h.pending

/-! ### In the course of a round -/

/-- What is put into the constraint goes to its buffer. -/
structure Collecting (c : Constraint) : Prop where
  undecided : c.isFalse = false
  guarded : c.guarded = true
  equations : c.equations = .empty

namespace Collecting

lemma insertEquation (h : c.Collecting) (e : Equation) :
    (c.insertEquation e).Collecting ∧ (c.insertEquation e).buffer = c.buffer.insert e := by
  rcases insertEquation_cases c e with ⟨heq, hin⟩ | ⟨-, -, heq⟩ | ⟨-, hg, -⟩
  · have he : e ∈ c.buffer.toList := by
      simpa [h.undecided, h.guarded, h.equations] using hin
    rw [heq]
    exact ⟨h, by simp [EquationSet.insert, he]⟩
  · rw [heq]
    exact ⟨⟨rfl, h.guarded, h.equations⟩, rfl⟩
  · exact absurd (hg.symm.trans h.guarded) Bool.false_ne_true

lemma foldl_insertEquation (h : c.Collecting) (es : List Equation) :
    (es.foldl Constraint.insertEquation c).Collecting ∧
      (es.foldl Constraint.insertEquation c).buffer = c.buffer.insertAll es := by
  induction es generalizing c with
  | nil => exact ⟨h, rfl⟩
  | cons e es ih =>
      obtain ⟨he, hb⟩ := h.insertEquation e
      obtain ⟨hes, hbs⟩ := ih he
      exact ⟨hes, hbs.trans (congrArg (EquationSet.insertAll · es) hb)⟩

lemma insertAll (h : c.Collecting) (es : List Equation) : (c.insertAll T es).Collecting ∧
    (c.insertAll T es).buffer = c.buffer.insertAll (es.flatMap T.obligations) := by
  rw [insertAll_eq_foldl]
  exact h.foldl_insertEquation _

lemma conjoin (h : c.Collecting) (hd : d.contradiction = none) : (c.conjoin T d).Collecting ∧
    (c.conjoin T d).buffer = c.buffer.insertAll (d.content T) := by
  obtain ⟨hc, hb⟩ := h.foldl_insertEquation (d.content T)
  rw [conjoin_eq hd h.undecided]
  unfold addPending
  split
  · exact ⟨hc, hb⟩
  · exact ⟨⟨rfl, hc.guarded, hc.equations⟩, hb⟩

end Collecting

end SolvedForm.Constraint

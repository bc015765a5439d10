import SolvedForm.Proofs.Equation
import SolvedForm.Proofs.Term.Frames

/-!
Classes of terms that solving does not leave.

* `Fragment`: a class of terms, with the bindings allowed between them, closed under what a
  theory does to terms: evaluation, substitution, splitting and unification.
* `Fragment.mem_instantiate`, `Fragment.binds_instantiate`, `Fragment.not_mem_keys`: instances
  stay in the fragment, and under an acyclic substitution they contain no key.
* `Constraint.Over`, `Constraint.Within`: all terms of an undecided constraint belong to the
  fragment, for the latter those of its pending disjunctions as well.
-/

namespace SolvedForm

/-- A class of terms, and the bindings between them, that a theory does not leave. -/
structure Fragment (T : Theory) where
  /-- The term belongs to the class. -/
  Mem : Term → Prop
  /-- The variable may be bound to the term. -/
  Binds : Var → Term → Prop
  frameless {t : Term} : Mem t → t.Frameless
  mem_true : Mem (.bool true)
  mem_var {x : Var} {t : Term} : Binds x t → Mem (.var x)
  mem_value {x : Var} {t : Term} : Binds x t → Mem t
  mem_conjuncts {t : Term} : Mem t → ∀ u ∈ t.conjuncts, Mem u
  mem_evaluate {t : Term} : Mem t → Mem (T.evaluate t)
  vars_evaluate {t : Term} : Mem t → ∀ x ∈ (T.evaluate t).vars, x ∈ t.vars
  mem_apply {σ : Substitution} (hσ : ∀ b ∈ σ.toList, Binds b.1 b.2) {t : Term} :
    Mem t → Mem (σ.apply t)
  binds_evaluate {x : Var} {t : Term} : Binds x t → Binds x (T.evaluate t)
  binds_apply {σ : Substitution} (hσ : ∀ b ∈ σ.toList, Binds b.1 b.2) {x : Var} {t : Term} :
    Binds x t → Binds x (σ.apply t)
  binds_of_orient {e : Equation} {x : Var} {t : Term} : Mem e.left → Mem e.right →
    e.truth T.order = .unknown → e.orient T.order = some (x, t) → Binds x t
  unique {fold : Bool} {e : Equation} {parts : List Equation} {n m : Nat} :
    Mem e.left → Mem e.right → T.unifier fold e n = (.ok (.unique parts), m) →
      ∀ q ∈ parts, Mem q.left ∧ Mem q.right
  disjunction {fold : Bool} {e : Equation} {common : List Equation}
    {alternatives : List (List Equation)} {n m : Nat} :
    Mem e.left → Mem e.right →
      T.unifier fold e n = (.ok (.disjunction common alternatives), m) →
      ∀ qs ∈ common :: alternatives, ∀ q ∈ qs, Mem q.left ∧ Mem q.right

namespace Fragment

variable {T : Theory} (F : Fragment T)

/-- Both sides of the equation belong to the class. -/
def MemEq (e : Equation) : Prop := F.Mem e.left ∧ F.Mem e.right

/-- All bindings of the substitution are allowed. -/
def MemSubst (σ : Substitution) : Prop := ∀ b ∈ σ.toList, F.Binds b.1 b.2

/-- Without folding, the unifier makes no disjunction of an equation between terms of the class. -/
def Decisive : Prop :=
  ∀ {e : Equation} {common : List Equation} {alternatives : List (List Equation)} {n m : Nat},
    F.MemEq e → T.unifier false e n ≠ (.ok (.disjunction common alternatives), m)

variable {F} {σ : Substitution} {x : Var} {t : Term} {e : Equation}

lemma MemSubst.find? (hσ : F.MemSubst σ) (h : σ.find? x = some t) : F.Binds x t :=
  hσ (x, t) (Substitution.mem_toList_iff.mpr h)

lemma memSubst_empty : F.MemSubst .empty := by simp [MemSubst]

lemma memSubst_single (h : F.Binds x t) : F.MemSubst (.single x t) := by
  simpa [MemSubst] using h

lemma MemSubst.insert (hσ : F.MemSubst σ) (h : F.Binds x t) : F.MemSubst (σ.insert x t) := by
  intro b hb
  rcases Substitution.mem_toList_insert.mp hb with rfl | ⟨-, hb⟩
  · exact h
  · exact hσ b hb

lemma memEq_of_binds (h : F.Binds x t) : F.MemEq ⟨.var x, t⟩ := ⟨F.mem_var h, F.mem_value h⟩

/-! ### Instances -/

lemma mem_instantiate (hσ : F.MemSubst σ) (ht : F.Mem t) : F.Mem (T.instantiate σ t) := by
  unfold Theory.instantiate
  split
  · exact F.mem_evaluate (F.mem_apply hσ ht)
  · exact ht

lemma memEq_instantiate (hσ : F.MemSubst σ) (he : F.MemEq e) :
    F.MemEq (e.instantiate T.evaluate σ) := by
  rw [Equation.instantiate_eq_map]
  exact ⟨mem_instantiate hσ he.1, mem_instantiate hσ he.2⟩

lemma binds_instantiate (hσ : F.MemSubst σ) (ht : F.Binds x t) :
    F.Binds x (T.instantiate σ t) := by
  unfold Theory.instantiate
  split
  · exact F.binds_evaluate (F.binds_apply hσ ht)
  · exact ht

/-- A variable of an instance is an unbound variable of the term, or it comes with a value. -/
lemma vars_instantiate (hσ : F.MemSubst σ) (ht : F.Mem t) (hx : x ∈ (T.instantiate σ t).vars) :
    (x ∈ t.vars ∧ x ∉ σ.keys) ∨ ∃ y u, y ∈ t.vars ∧ σ.find? y = some u ∧ x ∈ u.vars := by
  unfold Theory.instantiate at hx
  split at hx
  · exact Term.mem_vars_apply (F.frameless ht) (F.vars_evaluate (F.mem_apply hσ ht) x hx)
  · next h =>
      exact .inl ⟨hx, Substitution.touches_eq_false_iff.mp (Bool.not_eq_true _ ▸ h) x hx⟩

/-- Under an acyclic substitution an instance contains no key. -/
lemma not_mem_keys (hσ : F.MemSubst σ) (hac : σ.Acyclic) (ht : F.Mem t)
    (hx : x ∈ (T.instantiate σ t).vars) : x ∉ σ.keys := by
  rcases vars_instantiate hσ ht hx with ⟨-, hk⟩ | ⟨y, u, -, hu, hxu⟩
  · exact hk
  · exact hac.not_mem_keys hu hxu

/-! ### Obligations -/

lemma memEq_split (he : F.MemEq e) : ∀ q ∈ e.split, F.MemEq q := by
  unfold Equation.split
  split
  · rw [List.forall_mem_map]
    exact fun u hu => ⟨F.mem_conjuncts he.1 u hu, F.mem_true⟩
  · split
    · rw [List.forall_mem_map]
      exact fun u hu => ⟨F.mem_conjuncts he.2 u hu, F.mem_true⟩
    · simpa using he

lemma memEq_obligations (he : F.MemEq e) : ∀ q ∈ T.obligations e, F.MemEq q := by
  rw [Theory.obligations, List.forall_mem_map]
  exact fun q hq => ⟨F.mem_evaluate (memEq_split he q hq).1, F.mem_evaluate (memEq_split he q hq).2⟩

end Fragment

/-! ### Constraints -/

namespace Constraint

variable {T : Theory}

/-- The constraint is undecided, and the terms of its equations and bindings belong to the
fragment. -/
structure Over (F : Fragment T) (c : Constraint) : Prop where
  undecided : c.isFalse = false
  consistent : c.contradiction = none
  equations : ∀ e ∈ c.equations.toList, F.MemEq e
  buffer : ∀ e ∈ c.buffer.toList, F.MemEq e
  store : F.MemSubst c.store

/-- The constraint is over the fragment, and so are all alternatives of its disjunctions. -/
inductive Within (F : Fragment T) : Constraint → Prop where
  | intro {c : Constraint} : c.Over F → (∀ D ∈ c.pending, ∀ d ∈ D, Within F d) → Within F c

variable {F : Fragment T} {c d : Constraint}

lemma Within.over (h : c.Within F) : c.Over F := by
  cases h
  assumption

lemma Within.pending (h : c.Within F) : ∀ D ∈ c.pending, ∀ d ∈ D, d.Within F := by
  cases h
  assumption

lemma Within.setNormal (h : c.Within F) (b : Bool) : ({ c with normal := b }).Within F :=
  .intro ⟨h.over.undecided, h.over.consistent, h.over.equations, h.over.buffer, h.over.store⟩
    h.pending

lemma Within.setStore {σ : Substitution} (h : c.Within F) (hσ : F.MemSubst σ) :
    ({ c with store := σ }).Within F :=
  .intro ⟨h.over.undecided, h.over.consistent, h.over.equations, h.over.buffer, hσ⟩ h.pending

lemma within_empty : empty.Within F :=
  .intro ⟨rfl, rfl, by simp [empty], by simp [empty], Fragment.memSubst_empty⟩ (by simp [empty])

/-- A constraint over a fragment is over every larger fragment. -/
lemma Within.mono {G : Fragment T} (hmem : ∀ t, F.Mem t → G.Mem t)
    (hbinds : ∀ x t, F.Binds x t → G.Binds x t) (h : c.Within F) : c.Within G := by
  induction h with
  | intro h _ ih =>
      exact .intro ⟨h.undecided, h.consistent,
        fun e he => (h.equations e he).imp (hmem _) (hmem _),
        fun e he => (h.buffer e he).imp (hmem _) (hmem _),
        fun b hb => hbinds _ _ (h.store b hb)⟩ ih

lemma Over.bindingEquations (h : d.Over F) : ∀ e ∈ d.bindingEquations, F.MemEq e := by
  rw [Constraint.bindingEquations, List.forall_mem_map]
  exact fun b hb => Fragment.memEq_of_binds (h.store b hb)

lemma Over.content (h : d.Over F) : ∀ e ∈ d.content T, F.MemEq e := by
  intro e he
  rcases List.mem_append.mp he with he | he
  · obtain ⟨b, hb, he⟩ := List.mem_flatMap.mp he
    exact Fragment.memEq_obligations (h.bindingEquations b hb) e he
  · exact h.equations e he

end Constraint

end SolvedForm

import Mathlib
import SolvedForm.Proofs.Constraint.Termination

/-!
Simplification of free constructor terms is unification.

* `Constraint.sat_iff_unifies`: a constraint that has been simplified from equations has their
  unifiers as its solutions.
* `Constraint.addAllThenSimplify_mostGeneral`: the truth is decided, it is the truth about
  unifiability, and the bindings of a true constraint are a most general unifier.
* `Constraint.mostGeneral_frames_needed`: why frames of maps have to be excepted.
-/

namespace SolvedForm

namespace Constraint

variable {d : Subsorts} {allowed : Var → Prop} {es : List Equation} {c : Constraint} {fuel n m : Nat}

/-- The solutions of a constraint that has been simplified from free equations are their
unifiers, and a constraint that is false has none. -/
lemma sat_iff_unifies (hes : ∀ e ∈ es, (Fragment.free d.order allowed).MemEq e)
    (h : empty.addAllThenSimplify (.standard d.order) fuel es n = .ok (c, m)) (u : Substitution) :
    ((Meaning.instances d allowed u).Sat c ↔ u.Unifies es) ∧
      (Meaning.instances d allowed u).Truthful c := by
  have hsound := (settled_empty (F := .free d.order allowed)).sound.insertAll hes
  have hfalse : (empty.insertAll (.standard d.order) es).isFalse = false :=
    (within_empty.insertAll hes).over.undecided
  obtain ⟨hsat, htrue⟩ := Meaning.sat_simplify (M := .instances d allowed u) hsound
    (fun hf => absurd (hfalse.symm.trans hf) Bool.false_ne_true) h
  refine ⟨hsat.trans ((Meaning.satAll_insertAll rfl hes).trans ?_), htrue⟩
  exact and_iff_right ⟨⟨by simp [Meaning.Solves, empty], by simp [empty]⟩, by simp [empty]⟩

/-- For free equations there is a constraint that every long enough simplification arrives at. It
is true or false, and true exactly when the equations have a unifier. When it is true, nothing but
bindings is left, and these are a most general unifier: every unifier absorbs them, on all terms
where it replaces each frame that is bound to a variable by a variable or a map. -/
theorem addAllThenSimplify_mostGeneral (d : Subsorts) {es : List Equation}
    (hes : ∀ e ∈ es, e.left.Free ∧ e.right.Free) :
    ∃ c : Constraint,
      (∃ bound, ∀ fuel, bound < fuel → ∀ n,
        empty.addAllThenSimplify (.standard d.order) fuel es n = .ok (c, n)) ∧
      (c.truth = .true ∨ c.truth = .false) ∧
      (c.truth = .true ↔ ∃ u : Substitution, u.Unifies es) ∧
      (c.truth = .true →
        c.equations = .empty ∧ c.buffer = .empty ∧ c.pending = [] ∧ c.store.Acyclic ∧
        c.store.Unifies es ∧
        ∀ u : Substitution, u.Unifies es → ∀ t : Term,
          t.Framed (fun x => ∀ y, c.store.find? x = some (.var y) →
            (u.apply (.var x)).isFrame = true) →
          u.apply (c.store.apply t) = u.apply t) := by
  -- solving does not leave the variables of the equations
  let xs : List Var := es.flatMap fun e => e.left.vars ++ e.right.vars
  have hmem : ∀ e ∈ es, (Fragment.free d.order (· ∈ xs)).MemEq e := fun e he =>
    ⟨⟨(hes e he).1, fun x hx => List.mem_flatMap.mpr ⟨e, he, List.mem_append_left _ hx⟩⟩,
      ⟨(hes e he).2, fun x hx => List.mem_flatMap.mpr ⟨e, he, List.mem_append_right _ hx⟩⟩⟩
  have hsound := (settled_empty (F := .free d.order (· ∈ xs))).sound.insertAll hmem
  have hfirst : ∀ b, (empty.insertAll (.standard d.order) es).normalize (.standard d.order) =
        .ok b → b.truth = .unknown →
      xs.length < b.store.size + (xs.length + 1) ∧ b.unchangedSince none = false :=
    fun _ _ _ => ⟨by omega, rfl⟩
  obtain ⟨c, hopen, hends⟩ := simplifySince_ends hsound (pending_insertAll _ _) hfirst
  have hrun : empty.addAllThenSimplify (.standard d.order) (xs.length + 2) es 0 = .ok (c, 0) :=
    hends _ (Nat.lt_succ_self _) 0
  have hsettled : c.Settled (.free d.order (· ∈ xs)) := simplify_settled hsound hrun
  have solves : ∀ u : Substitution, u.Unifies es ↔
      (Meaning.instances d (· ∈ xs) u).Sat c := fun u => (sat_iff_unifies hmem hrun u).1.symm
  -- the bindings of a true constraint solve themselves
  have unifies : c.truth = .true → c.store.Unifies es := fun h => by
    obtain ⟨hE, -, -, hac, hσ⟩ := hsettled.solved_of_true h
    rw [solves, Meaning.Sat, hE]
    exact ⟨fun b hb => hac.apply_var hb (hσ b hb).2.1.frameless, by simp⟩
  refine ⟨c, ⟨_, hends⟩, ?_, ⟨fun h => ⟨c.store, unifies h⟩, ?_⟩, fun h => ?_⟩
  · cases h : c.truth with
    | true => exact .inl rfl
    | false => exact .inr rfl
    | unknown => exact absurd h hopen
  · rintro ⟨u, hu⟩
    cases h : c.truth with
    | true => rfl
    | false =>
        exact absurd ((solves u).mp hu) ((sat_iff_unifies hmem hrun u).2 (by simp [isFalse, h]))
    | unknown => exact absurd h hopen
  · obtain ⟨hE, hB, hP, hac, -⟩ := hsettled.solved_of_true h
    refine ⟨hE, hB, hP, hac, unifies h, fun u hu t ht => Substitution.apply_absorb ?_ ht⟩
    exact fun x v hx => ((solves u).mp hu).1 (x, v) (Substitution.mem_toList_iff.mpr hx)

/-- A pair whose first component is a successor, equated to a pair of two variables. -/
theorem addAllThenSimplify_mostGeneral_pair :
    let x : Var := ⟨"X", .top, false, none⟩
    let y : Var := ⟨"Y", .top, false, none⟩
    let pair (s t : Term) : Term := .app ⟨"pair", 2, none, .constructor⟩ [s, t]
    let succ (t : Term) : Term := .app ⟨"succ", 1, none, .constructor⟩ [t]
    let es : List Equation := [⟨pair (.var x) (.var y), pair (succ (.var y)) (.int 1)⟩]
    (∀ e ∈ es, e.left.Free ∧ e.right.Free) ∧ ∃ c : Constraint,
      (∃ bound, ∀ fuel, bound < fuel → ∀ n, empty.addAllThenSimplify
        (.standard Subsorts.builtin.order) fuel es n = .ok (c, n)) ∧
      c.truth = .true ∧ c.store.Unifies es := by
  intro x y pair succ es
  have hx : (Term.var x).Free := .var rfl
  have hy : (Term.var y).Free := .var rfl
  have hsucc : (succ (.var y)).Free := .app rfl rfl rfl (by simpa using hy)
  have hfree : ∀ e ∈ es, e.left.Free ∧ e.right.Free := by
    simp only [es, List.forall_mem_singleton]
    exact ⟨.app rfl rfl rfl (by simpa using ⟨hx, hy⟩),
      .app rfl rfl rfl (by simpa using ⟨hsucc, .int 1⟩)⟩
  obtain ⟨c, hends, -, htrue, hmgu⟩ := addAllThenSimplify_mostGeneral Subsorts.builtin hfree
  have hu : (Substitution.ofList [(x, succ (.int 1)), (y, .int 1)]).Unifies es := by
    simp only [Substitution.Unifies, es, List.forall_mem_singleton]
    cbv
  have h := htrue.mpr ⟨_, hu⟩
  exact ⟨hfree, c, hends, h, (hmgu h).2.2.2.2.1⟩

/-- Not every term can be admitted: a unifier that gives a frame a value that is no map leaves the
frame as it is, and so does not absorb a binding of the frame to a variable. -/
theorem mostGeneral_frames_needed :
    let x : Var := ⟨"F", .top, false, none⟩
    let y : Var := ⟨"G", .top, false, none⟩
    let es : List Equation := [⟨.var x, .var y⟩]
    let u : Substitution := .ofList [(x, .int 1), (y, .int 1)]
    let t : Term := .map [] (some x)
    (∀ e ∈ es, e.left.Free ∧ e.right.Free) ∧ ∃ c : Constraint,
      (∀ fuel n, empty.addAllThenSimplify (.standard Subsorts.builtin.order) (fuel + 1) es n =
        .ok (c, n)) ∧
      c.truth = .true ∧ u.Unifies es ∧ u.apply (c.store.apply t) ≠ u.apply t := by
  intro x y es u t
  have hb : (empty.insertAll (.standard Subsorts.builtin.order) es).normalize
      (.standard Subsorts.builtin.order) = .ok { store := .single x (.var y) } := by cbv
  refine ⟨by simpa [es] using ⟨Term.Free.var rfl, Term.Free.var rfl⟩, _,
    fun fuel n => simplifySince_of_decided hb Truth.noConfusion, rfl, ?_, by decide⟩
  simp only [Substitution.Unifies, es, List.forall_mem_singleton]
  decide

end Constraint

end SolvedForm

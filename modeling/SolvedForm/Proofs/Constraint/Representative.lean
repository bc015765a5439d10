import Mathlib
import SolvedForm.Proofs.Constraint.Orientation

/-!
When orientation fails.

* `Orientation.Stranded`: a target that is the value of some key, all keys of that value being
  targets as well.
* `Orientation.stranded_of_flips`: the failing step stops at a stranded target.
* `Orientation.Stranded.flips_ne_ok`: a stranded target cannot be turned, whatever the order of the
  bindings.
* `Constraint.orient_fails_iff`: orientation fails exactly when some target is stranded, names one, and
  leaves the constraint as it is.
-/

namespace SolvedForm

namespace Orientation

variable {targets : List Var} {σ : Substitution} {fl : Flips} {failure : OrientationFailure}

/-- The target is the value of some key, and all keys with this value are targets: no variable
outside the targets can represent it. -/
structure Stranded (targets : List Var) (σ : Substitution) (y : Var) : Prop where
  target : y ∈ targets
  value : ∃ x, (x, .var y) ∈ σ.toList
  keys : ∀ x, (x, .var y) ∈ σ.toList → x ∈ targets

/-! ### A failing run stops at a stranded target -/

lemma stranded_of_flip {b : Var × Term} (hb : b ∈ σ.toList)
    (h : flip targets σ fl b.1 b.2 = .error failure) : Stranded targets σ failure.var := by
  have hstep : Step targets σ fl b (.error failure) := h ▸ step_flip b
  cases hstep with
  | fail hy hkeys => exact ⟨hy, ⟨_, hb⟩, hkeys⟩

theorem stranded_of_flips (h : flips targets σ = .error failure) :
    Stranded targets σ failure.var := by
  have run : ∀ (rest : List (Var × Term)) (fl : Flips), (∀ b ∈ rest, b ∈ σ.toList) →
      rest.foldlM (fun fl b => flip targets σ fl b.1 b.2) fl = .error failure →
      Stranded targets σ failure.var := by
    intro rest
    induction rest with
    | nil => exact fun _ _ h => nomatch h
    | cons b rest ih =>
        intro fl hrest h
        rw [List.forall_mem_cons] at hrest
        rw [List.foldlM_cons] at h
        cases hb : flip targets σ fl b.1 b.2 with
        | error failure' =>
            rw [hb] at h
            cases h
            exact stranded_of_flip hrest.1 hb
        | ok fl' =>
            rw [hb] at h
            exact ih fl' hrest.2 h
  exact run σ.toList ⟨.empty, []⟩ (fun _ => id) h

/-! ### A stranded target makes every run fail -/

/-- Had all bindings been gone through, the stranded target would be bound to a variable that is no
target. It would share its value with that variable, or be the value itself; but it has no value, and
is the value of targets alone. -/
theorem Stranded.flips_ne_ok {y : Var} (hy : Stranded targets σ y) (hac : σ.Acyclic) :
    flips targets σ ≠ .ok fl := by
  intro h
  obtain ⟨x, hxy⟩ := hy.value
  have hfree : y ∉ σ.keys := hac _ hxy y (by simp)
  obtain ⟨u, hu⟩ := Substitution.mem_keys_iff.mp (flips_cover h hxy hy.target)
  have hb := Substitution.mem_toList_iff.mpr hu
  obtain ⟨z, rfl, hz, -⟩ := (flips_spec h).2 _ hb
  obtain ⟨_, w, ⟨⟩, hzw, rfl | hyw⟩ := flips_origin h _ hb
  · exact hz (hy.keys z hzw)
  · exact hfree (Substitution.mem_keys_of_mem hyw)

lemma flips_fails_iff (hac : σ.Acyclic) :
    (∃ failure, flips targets σ = .error failure) ↔ ∃ y, Stranded targets σ y := by
  constructor
  · exact fun ⟨failure, h⟩ => ⟨failure.var, stranded_of_flips h⟩
  · rintro ⟨y, hy⟩
    cases h : flips targets σ with
    | error failure => exact ⟨failure, rfl⟩
    | ok fl => exact absurd h (hy.flips_ne_ok hac)

end Orientation

namespace Constraint

open SolvedForm.Orientation

variable {T : Theory} {c d : Constraint} {targets : List Var} {failure : OrientationFailure}

/-- Orientation fails where the flips fail, unless there is nothing to do. -/
lemma orient_eq_error_iff : c.orient T targets = .ok (.error failure) ↔
    (c.isFalse || targets.all c.store.contains) = false ∧
      flips targets c.store = .error failure := by
  rw [orient_eq]
  split
  · next hc => simp [hc]
  · next hc =>
      rw [Bool.not_eq_true] at hc
      rw [hc]
      cases hfl : flips targets c.store with
      | error failure' => simp
      | ok fl =>
          simp only [reduceCtorEq, and_false, iff_false]
          intro h
          obtain ⟨d, -, h⟩ := exceptBind_eq_ok.mp h
          cases h

/-- Orientation fails exactly when some target is the value of a key and all keys of that value are
targets. The failure names such a target, and the constraint stays as it is. -/
theorem orient_fails_iff (hf : c.isFalse = false) (hac : c.store.Acyclic) :
    ((∃ failure, c.orient T targets = .ok (.error failure)) ↔ ∃ y, Stranded targets c.store y) ∧
      ∀ failure, c.orient T targets = .ok (.error failure) →
        Stranded targets c.store failure.var ∧
          (orientInPlace T targets).run c = .ok (.error failure, c) := by
  refine ⟨⟨?_, ?_⟩, fun failure h => ?_⟩
  · exact fun ⟨failure, h⟩ => (flips_fails_iff hac).mp ⟨failure, (orient_eq_error_iff.mp h).2⟩
  · rintro ⟨y, hy⟩
    obtain ⟨failure, hfl⟩ := (flips_fails_iff hac).mpr ⟨y, hy⟩
    refine ⟨failure, orient_eq_error_iff.mpr ⟨?_, hfl⟩⟩
    -- a stranded target is a value, and so no key
    obtain ⟨x, hxy⟩ := hy.value
    have hk : y ∉ c.store.keys := hac _ hxy y (by simp)
    simp only [hf, Bool.false_or, List.all_eq_false]
    exact ⟨y, hy.target, by simpa [Substitution.contains_iff] using hk⟩
  · obtain ⟨hgo, hfl⟩ := orient_eq_error_iff.mp h
    refine ⟨stranded_of_flips hfl, ?_⟩
    rw [orientInPlace_eq, if_neg (by simp [hgo]), hfl]

/-- With both keys of a value among the targets the value has no representative. With one of them
left out it has. -/
theorem orient_fails_iff_shared :
    let T : Theory := .standard Subsorts.builtin.order
    let a : Var := ⟨"A", .int, false, none⟩
    let b : Var := ⟨"B", .int, false, none⟩
    let v : Var := ⟨"V", .int, false, none⟩
    let c : Constraint := { store := .ofList [(a, .var v), (b, .var v)] }
    c.isFalse = false ∧ c.store.Acyclic ∧ Stranded [a, b, v] c.store v ∧
      (orientInPlace T [a, b, v]).run c = .ok (.error ⟨v⟩, c) ∧
      ¬ ∃ failure, c.orient T [a, v] = .ok (.error failure) := by
  intro T a b v c
  have hf : c.isFalse = false := rfl
  have hac : c.store.Acyclic := Substitution.acyclic_iff.mpr (by decide)
  have hfails : c.orient T [a, b, v] = .ok (.error ⟨v⟩) := by cbv
  obtain ⟨hstranded, hrun⟩ := (orient_fails_iff hf hac).2 _ hfails
  refine ⟨hf, hac, hstranded, hrun, fun hfails => ?_⟩
  obtain ⟨y, hy⟩ := (orient_fails_iff hf hac).1.mp hfails
  obtain ⟨x, hxy⟩ := hy.value
  have hlist : c.store.toList = [(a, .var v), (b, .var v)] := rfl
  obtain rfl : y = v := by
    simp only [hlist, List.mem_cons, Prod.mk.injEq, Term.var.injEq, List.not_mem_nil, or_false] at hxy
    exact hxy.elim And.right And.right
  exact absurd (hy.keys b (by decide)) (by decide)

end Constraint

end SolvedForm

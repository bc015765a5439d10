import Mathlib.Data.List.Perm.Subperm
import SolvedForm.Proofs.Fragment.Free

/-!
Simplification of free constructor terms comes to an end.

* `Constraint.round_free`: a round over the equations of a normal form leaves none of them as it
  is; all that is left are equations which can be read as bindings.
* `Constraint.normalize_binds`: solving binds a variable where an equation is not passed over.
* `Constraint.normalize_leftover`: the normal form after such a round is false, without equations,
  or has more bindings.
* `Constraint.truth_of_simplifySince`: whatever simplification ends with, its truth is decided.
* `Constraint.EndsAfter`, `Constraint.endsAfter_of_round`: all runs that are long enough come to the
  same answer, and so do those with one turn more before them.
* `Constraint.simplifySince_ends`: as there are only so many variables, the truth is decided after
  finitely many turns, whatever the number of turns allowed beyond that.
-/

namespace SolvedForm

open Decomposition

/-- The equation is between free terms over a class of variables and cannot be decomposed. -/
structure Equation.Leftover (allowed : Var → Prop) (e : Equation) : Prop where
  left : e.left.FreeOver allowed
  right : e.right.FreeOver allowed
  residual : Residual e

variable {d : Subsorts} {allowed : Var → Prop} {e q : Equation} {es : List Equation}

lemma Equation.Leftover.ne (h : e.Leftover allowed) : e.left ≠ e.right := by
  cases h.residual with
  | left hne => exact hne
  | right hne => exact hne
  | kept hne => exact hne

/-- An equation between free terms is its only obligation. -/
lemma obligations_of_free {order : SortOrder} (hl : e.left.Free) (hr : e.right.Free) :
    (Theory.standard order).obligations e = [e] := by
  have hsplit : e.split = [e] := by
    unfold Equation.split
    split
    · next h => rw [hl.conjuncts, List.map_singleton, ← h]
    · split
      · next h =>
          rw [hr.conjuncts, List.map_singleton]
          have hconj : e.right.asConj = none := by
            unfold Term.asConj
            split
            · next heq =>
                rw [heq] at hr
                rw [if_neg (by simp [heq, Term.Free.not_applies (Term.Free.app_iff.mp hr).1])]
            · rfl
          rw [hconj] at h
          cases h.2
      · rfl
  have heval : (Theory.standard order).evaluated e = e := by
    change e.map Term.evaluate = e
    cases e
    simp only [Equation.map]
    rw [Term.Free.evaluate hl, Term.Free.evaluate hr]
  rw [Theory.obligations, hsplit, List.map_singleton, heval]

/-- The unifier refutes an equation between free terms or makes leftover parts of it. -/
lemma unifier_free (d : Subsorts) (hl : e.left.FreeOver allowed) (hr : e.right.FreeOver allowed) :
    ∃ r : Except Unification.Failure (List Equation),
      (∀ n, (Theory.standard d.order).unifier false e n = (r.map .unique, n)) ∧
        ∀ parts, r = .ok parts → ∀ q ∈ parts, q.Leftover allowed := by
  obtain ⟨r, hd, hrun⟩ := (Reading.instances d allowed .empty).decides_structural false hl hr
  refine ⟨r, hrun, ?_⟩
  rintro parts rfl q hq
  have hmem := structural_unique (hereditary_free.over allowed) hl hr (hrun 0) q hq
  exact ⟨hmem.1, hmem.2, hd.1 q hq⟩

/-- A leftover equation without keys of the store can be read as a binding: it is not passed over. -/
lemma Equation.Leftover.not_passes (d : Subsorts) {σ : Substitution} {q : Equation}
    (h : q.Leftover (· ∉ σ.keys)) : ¬ (Theory.standard d.order).Passes σ q := by
  obtain ⟨b, hb⟩ := binding?_of_residual d h.left.1 h.right.1 h.residual
  exact Theory.not_passes (fun x hx => hx.elim (h.left.2 x) (h.right.2 x)) h.ne hb

namespace Constraint

variable {c : Constraint}

/-! ### One round -/

/-- What a round makes of equations between free terms that give no binding: it finds one of them
false, or no equation is left but those in the buffer, which are leftover. -/
theorem round_free (d : Subsorts) (hg : c.guarded = true) (hempty : c.equations = .empty)
    (hes : ∀ e ∈ es, (e.left.FreeOver allowed ∧ e.right.FreeOver allowed) ∧
      e.binding? d.order = none) :
    ∃ a, (∀ solve n, c.round (.standard d.order) false solve .empty es n = .ok (a, n)) ∧
      (a.isFalse = true ∨ a.equations = .empty ∧ a.pending = c.pending ∧
        ∀ q ∈ a.buffer.toList, q ∈ c.buffer.toList ∨ q.Leftover allowed) := by
  induction es generalizing c with
  | nil => exact ⟨c.putBack .empty, fun _ _ => rfl, .inr ⟨rfl, rfl, fun q hq => .inl hq⟩⟩
  | cons e es ih =>
      rw [List.forall_mem_cons] at hes
      obtain ⟨⟨⟨hl, hr⟩, hb⟩, hes⟩ := hes
      obtain ⟨r, hrun, hparts⟩ := unifier_free d hl hr
      match r with
      | .error failure =>
          exact ⟨(c.putBack ((EquationSet.empty.insert e).insertAll es)).falsify
            ((Theory.standard d.order).evaluated failure.pair),
            fun solve n => round_of_failure (hrun n), .inl (isFalse_falsify _ _)⟩
      | .ok parts =>
          have hparts := hparts parts rfl
          -- the equation itself is not leftover, so something has become of it
          have hne : parts ≠ [e] := by
            rintro rfl
            obtain ⟨b, hb'⟩ :=
              binding?_of_residual d hl.1 hr.1 (hparts e List.mem_cons_self).residual
            rw [hb] at hb'
            cases hb'
          have hext := extends_insertAll (T := .standard d.order) { c with normal := false } parts
          obtain ⟨a, ha, hres⟩ := ih (hext.guarded.trans hg)
            ((equations_insertAll (c := { c with normal := false }) hg).trans hempty) hes
          refine ⟨a, fun solve n => (round_of_parts (hrun n) hne).trans (ha solve n),
            hres.imp_right fun ⟨hE, hP, hB⟩ =>
              ⟨hE, hP.trans (pending_insertAll _ _), fun q hq => ?_⟩⟩
          rcases hB q hq with hq | hq
          · refine (mem_buffer_insertAll hq).imp_right fun hq => ?_
            obtain ⟨p, hp, hq⟩ := List.mem_flatMap.mp hq
            have hp := hparts p hp
            rw [obligations_of_free hp.left.1 hp.right.1, List.mem_singleton] at hq
            exact hq ▸ hp
          · exact .inr hq

/-! ### The normal form after a round -/

section Size

variable {T : Theory} {F : Fragment T} {b c : Constraint} {σ : Substitution} {x : Var} {t : Term}

lemma size_extend (hx : x ∉ σ.keys) : (T.extend σ x t).size = σ.size + 1 := by
  rw [Substitution.size, Theory.extend, Substitution.toList_insert_of_not_mem (by simpa),
    List.length_append, Substitution.toList_mapValues, List.length_map]
  rfl

/-- Solving takes no binding back. -/
lemma size_le_of_renormalize (hc : c.Within F) (hac : c.store.Acyclic)
    (h : renormalize T c = .ok b) : b.isFalse = true ∨ c.store.size ≤ b.store.size := by
  induction hn : c.equations.size using Nat.strongRecOn generalizing c with
  | _ n ih =>
      have hr := renormalized hc.over hac
      rw [h] at hr
      generalize hb : (Except.ok b : Except Fault Constraint) = r at hr
      cases hr with
      | settled =>
          cases hb
          exact .inr (Nat.le_refl _)
      | refuted =>
          cases hb
          exact .inl (isFalse_falsify _ _)
      | clash =>
          cases hb
          exact .inl (isFalse_falsify _ _)
      | @solved pre post p x t split passes hp hbind =>
          obtain ⟨hw, hac'⟩ := hc.extend hac split hp hbind
          have hmem : F.MemEq p := hc.over.equations p (by simp [split])
          obtain ⟨-, hx, -⟩ := fresh_of_binding hc.over hac hmem hp hbind
          refine (ih _ (hn ▸ size_kept_lt split) hw hac' hb.symm rfl).imp_right fun hle => ?_
          rw [size_extend hx] at hle
          exact Nat.le_of_succ_le hle

/-- Where something has come to a constraint, solving finds it false, binds a variable, or passes over
every equation. -/
lemma normalize_binds (hw : c.Within F) (hac : c.store.Acyclic) (hg : c.guarded = false)
    (hn : c.normal = false) (h : c.normalize T = .ok b) :
    b.isFalse = true ∨ c.store.size < b.store.size ∨
      (∀ e ∈ c.drain.equations.toList, T.Passes c.store e) ∧
        b.equations = .ofList (T.remaining c.store c.drain.equations.toList) := by
  rw [normalize, if_neg (by simp [hw.over.undecided, hn, hg])] at h
  have hw' := (hw.setNormal true).drain
  have hr := renormalized hw'.over hac
  cases hb : renormalize T { c with normal := true }.drain with
  | error fault =>
      rw [hb] at h
      cases h
  | ok a =>
      rw [hb] at h hr
      cases h
      rw [isFalse_updateTruth, store_updateTruth, equations_updateTruth]
      generalize ha : (Except.ok a : Except Fault Constraint) = r at hr
      cases hr with
      | settled passes =>
          cases ha
          exact .inr (.inr ⟨passes, rfl⟩)
      | refuted =>
          cases ha
          exact .inl (isFalse_falsify _ _)
      | clash =>
          cases ha
          exact .inl (isFalse_falsify _ _)
      | @solved pre post p x t split passes hp hbind =>
          obtain ⟨hw'', hac''⟩ := hw'.extend hac split hp hbind
          have hmem := hw'.over.equations p (by simp [split])
          obtain ⟨-, hx, -⟩ := fresh_of_binding hw'.over hac hmem hp hbind
          refine (size_le_of_renormalize hw'' hac'' ha.symm).imp_right fun hle => .inl ?_
          rwa [size_extend hx] at hle

end Size

variable {b : Constraint}

/-- Leftover equations that mention no bound variable give at least one binding, unless one of them
is false or there is none. -/
theorem normalize_leftover (hw : c.Within (.free d.order allowed)) (hac : c.store.Acyclic)
    (hg : c.guarded = false) (hn : c.normal = false) (hempty : c.equations = .empty)
    (hleft : ∀ q ∈ c.buffer.toList, q.Leftover (· ∉ c.store.keys))
    (h : c.normalize (.standard d.order) = .ok b) :
    b.isFalse = true ∨ b.equations = .empty ∨ c.store.size < b.store.size := by
  rcases normalize_binds hw hac hg hn h with hf | hsize | ⟨passes, hequations⟩
  · exact .inl hf
  · exact .inr (.inr hsize)
  · -- no leftover equation is passed over, so there is none
    have hdrain : c.drain.equations = c.buffer := by
      rw [drain, hempty]
      exact EquationSet.insertAll_toList c.buffer
    have hnil : c.buffer.toList = [] :=
      List.eq_nil_iff_forall_not_mem.mpr fun q hq =>
        (hleft q hq).not_passes d (passes q (by rwa [hdrain]))
    refine .inr (.inl ?_)
    rw [hequations, hdrain, hnil]
    rfl

/-! ### Turns -/

section Turns

variable {T : Theory} {fold : Bool} {fuel n m : Nat} {last : Option Snapshot} {a : Constraint}

lemma simplifySince_of_stop (hb : c.normalize T = .ok b)
    (hstop : b.truth ≠ .unknown ∨ b.unchangedSince last = true) :
    c.simplifySince T fold (fuel + 1) last n = .ok (b, n) := by
  rw [simplifySince]
  refine Engine.lift_bind_eq_ok.mpr ⟨b, hb, ?_⟩
  rw [if_pos (by simpa using hstop)]
  rfl

lemma simplifySince_of_decided (hb : c.normalize T = .ok b) (hd : b.truth ≠ .unknown) :
    c.simplifySince T fold (fuel + 1) last n = .ok (b, n) :=
  simplifySince_of_stop hb (.inl hd)

lemma simplifySince_of_round {r : Constraint × Nat} (hb : c.normalize T = .ok b)
    (hopen : b.truth = .unknown) (hun : b.unchangedSince last = false)
    (ha : b.takeOut.round T fold (satisfiable T fold fuel) .empty b.equations.toList n = .ok (a, m))
    (hr : (if a.isFalse then .ok (a, m)
      else a.simplifySince T fold fuel (some (b.store, b.equations)) m) = .ok r) :
    c.simplifySince T fold (fuel + 1) last n = .ok r := by
  rw [simplifySince]
  refine Engine.lift_bind_eq_ok.mpr ⟨b, hb, ?_⟩
  rw [if_neg (by simp [hopen, hun])]
  refine Engine.bind_eq_ok.mpr ⟨a, m, ha, ?_⟩
  split at hr
  · next hf =>
      rw [if_pos hf]
      exact hr
  · next hf =>
      rw [if_neg hf]
      exact hr

/-- All runs with more than `k` turns come to the same answer. -/
def EndsAfter (T : Theory) (fold : Bool) (last : Option Snapshot) (c : Constraint) (k : Nat)
    (a : Constraint) : Prop :=
  ∀ fuel, k < fuel → ∀ n, c.simplifySince T fold fuel last n = .ok (a, n)

lemma endsAfter_of_stop {k : Nat} (hb : c.normalize T = .ok b)
    (hstop : b.truth ≠ .unknown ∨ b.unchangedSince last = true) :
    c.EndsAfter T fold last k b := by
  intro fuel hfuel n
  obtain ⟨fuel, rfl⟩ := Nat.exists_eq_add_one.mpr (Nat.zero_lt_of_lt hfuel)
  exact simplifySince_of_stop hb hstop

lemma EndsAfter.mono {j k : Nat} (h : c.EndsAfter T fold last j a) (hle : j ≤ k) :
    c.EndsAfter T fold last k a := fun fuel hfuel => h fuel (Nat.lt_of_le_of_lt hle hfuel)

/-- A round that leaves a false constraint is the last one. -/
lemma endsAfter_of_isFalse {k : Nat} (hb : c.normalize T = .ok b) (hopen : b.truth = .unknown)
    (hun : b.unchangedSince last = false)
    (ha : ∀ fuel, k < fuel → ∀ n, b.takeOut.round T fold (satisfiable T fold fuel) .empty
      b.equations.toList n = .ok (a, n))
    (haf : a.isFalse = true) : c.EndsAfter T fold last (k + 1) a := by
  intro fuel hfuel n
  obtain ⟨fuel, rfl⟩ := Nat.exists_eq_add_one.mpr (Nat.zero_lt_of_lt hfuel)
  exact simplifySince_of_round hb hopen hun (ha fuel (Nat.lt_of_succ_lt_succ hfuel) n) (if_pos haf)

/-- What the turns after a round come to is what all of them come to. -/
lemma endsAfter_of_round {k : Nat} {a' : Constraint} (hb : c.normalize T = .ok b)
    (hopen : b.truth = .unknown) (hun : b.unchangedSince last = false)
    (ha : ∀ fuel, k < fuel → ∀ n, b.takeOut.round T fold (satisfiable T fold fuel) .empty
      b.equations.toList n = .ok (a, n))
    (haf : a.isFalse ≠ true) (hrest : a.EndsAfter T fold (some (b.store, b.equations)) k a') :
    c.EndsAfter T fold last (k + 1) a' := by
  intro fuel hfuel n
  obtain ⟨fuel, rfl⟩ := Nat.exists_eq_add_one.mpr (Nat.zero_lt_of_lt hfuel)
  have hfuel := Nat.lt_of_succ_lt_succ hfuel
  refine simplifySince_of_round hb hopen hun (ha fuel hfuel n) ?_
  rw [if_neg haf]
  exact hrest fuel hfuel n

end Turns

lemma unchangedSince_of_size_lt {σ : Substitution} {E : EquationSet} (h : σ.size < b.store.size) :
    b.unchangedSince (some (σ, E)) = false := by
  have hne : (σ.size == b.store.size) = false := by simpa using Nat.ne_of_lt h
  simp [unchangedSince, Substitution.equiv, hne]

/-- A constraint that binds only certain variables binds no more than there are of these. -/
lemma size_store_le {xs : List Var} (h : b.store.keys ⊆ xs) : b.store.size ≤ xs.length := by
  have hle := (List.subperm_of_subset b.store.nodup h).length_le
  rwa [List.length_map] at hle

/-- What is bound in a constraint over a fragment may be bound. -/
lemma Within.keys_subset {T : Theory} {F : Fragment T} {xs : List Var} (h : b.Within F)
    (hxs : ∀ x t, F.Binds x t → x ∈ xs) : b.store.keys ⊆ xs := by
  intro x hx
  obtain ⟨y, hy, rfl⟩ := List.mem_map.mp hx
  exact hxs _ _ (h.over.store y hy)

lemma truth_of_isEmpty {order : SortOrder} (h : b.NormalForm order) (hE : b.equations = .empty)
    (hp : b.pending = []) : b.truth = .true := by
  rw [h.truth, hE, hp]
  rfl

/-- A round over an undecided normal form leads to a false constraint, or to one of which the normal
form is decided or has more bindings. -/
theorem turn_free (hw : b.Within (.free d.order allowed))
    (hnf : b.NormalForm d.order) (hp : b.pending = []) (hopen : b.truth = .unknown) :
    ∃ a, (∀ solve n, b.takeOut.round (.standard d.order) false solve .empty b.equations.toList n =
        .ok (a, n)) ∧
      (a.isFalse = true ∨ a.Sound (.free d.order allowed) ∧ a.pending = [] ∧
        ∀ b', a.normalize (.standard d.order) = .ok b' → b'.truth = .unknown →
          b.store.size < b'.store.size) := by
  have hes : ∀ e ∈ b.equations.toList, (e.left.FreeOver (· ∉ b.store.keys) ∧
      e.right.FreeOver (· ∉ b.store.keys)) ∧ e.binding? d.order = none := fun e he =>
    ⟨⟨⟨(hw.over.equations e he).1.1, fun x hx => hnf.untouched e he x (.inl hx)⟩,
      ⟨(hw.over.equations e he).2.1, fun x hx => hnf.untouched e he x (.inr hx)⟩⟩,
      hnf.unbound e he⟩
  obtain ⟨a, hrun, hres⟩ := round_free (c := b.takeOut) d rfl rfl hes
  refine ⟨a, hrun, or_iff_not_imp_left.mpr fun haf => ?_⟩
  obtain ⟨hE, hP, hB⟩ := hres.resolve_left haf
  have hsolve : ∀ as k ds l, (∀ es ∈ as, ∀ e ∈ es, (Fragment.free d.order allowed).MemEq e) →
      satisfiable (.standard d.order) false 0 as k = .ok (ds, l) →
      ∀ a ∈ ds, a.Within (.free d.order allowed) :=
    fun _ _ _ _ => satisfiable_within fun hc h => simplifySince_settled hc h
  obtain ⟨haw, hag, has, han⟩ := (round_result hsolve hw.takeOut (by simp) hw.over.equations
    (hrun _ 0)).resolve_left fun hr => haf hr.1
  -- the round has done something, as there were equations
  have hnormal : a.normal = false := by
    rw [Bool.eq_false_iff]
    intro hn
    rw [han hn] at hE
    rw [truth_of_isEmpty hnf ((EquationSet.insertAll_toList _).symm.trans hE) hp] at hopen
    cases hopen
  have has : a.store = b.store := has
  have hac : a.store.Acyclic := has ▸ hnf.acyclic
  have hB : ∀ q ∈ a.buffer.toList, q.Leftover (· ∉ a.store.keys) := by
    rw [has]
    exact fun q hq => (hB q hq).resolve_left fun h => by simp [takeOut, hnf.drained] at h
  have hsound : a.Sound (.free d.order allowed) :=
    .inr ⟨haw, hag, hac, fun hn => absurd (hn.symm.trans hnormal) Bool.noConfusion⟩
  have hpending : a.pending = [] := hP.trans hp
  refine ⟨hsound, hpending, fun b' hb' hopen' => ?_⟩
  have hf := isFalse_eq_false_of_unknown hopen'
  rcases normalize_leftover haw hac hag hnormal hE hB hb' with hf' | hE' | hsize
  · cases hf.symm.trans hf'
  · have hnf' := ((settled_of_normalize hsound hb').resolve_left fun hr => by simp [hr.1] at hf).2
    rw [truth_of_isEmpty hnf' hE' ((pending_of_normalize hsound hb' hf).trans hpending)] at hopen'
    cases hopen'
  · rwa [has] at hsize

/-- Whatever simplification of a constraint without disjunctions ends with is true or false. -/
theorem truth_of_simplifySince (hc : c.Sound (.free d.order allowed))
    (hp : c.isFalse = false → c.pending = [])
    (hlast : ∀ b, c.normalize (.standard d.order) = .ok b → b.truth = .unknown →
      b.unchangedSince last = false)
    (h : c.simplifySince (.standard d.order) false fuel last n = .ok (a, m)) :
    a.truth ≠ .unknown := by
  induction fuel generalizing c last n with
  | zero => exact absurd h Engine.throw_ne_ok
  | succ fuel ih =>
      obtain ⟨b, hb, ⟨hstop, rfl, -⟩ | ⟨hopen, -, a', k, hrun, h⟩⟩ := simplifySince_cases h
      · rcases hstop with hdec | hun
        · exact hdec
        · exact fun hopen => Bool.false_ne_true ((hlast a hb hopen).symm.trans hun)
      · have hbf := isFalse_eq_false_of_unknown hopen
        have hcf : c.isFalse = false := by
          rw [← Bool.not_eq_true]
          intro hcf
          rw [normalize, if_pos (by simp [hcf])] at hb
          cases hb
          exact Bool.false_ne_true (hbf.symm.trans hcf)
        obtain ⟨hw, hnf⟩ := (settled_of_normalize hc hb).resolve_left fun hr => by simp [hr.1] at hbf
        obtain ⟨_, hrun', hres⟩ :=
          turn_free hw hnf ((pending_of_normalize hc hb hbf).trans (hp hcf)) hopen
        cases Except.ok.inj (hrun.symm.trans (hrun' _ _))
        rcases h with ⟨haf, rfl, -⟩ | ⟨haf, h⟩
        · exact fun ha => by simp [isFalse, ha] at haf
        · obtain ⟨hsound, hpending, hgrow⟩ := hres.resolve_left (by simp [haf])
          exact ih hsound (fun _ => hpending)
            (fun b' hb' hopen' => unchangedSince_of_size_lt (hgrow b' hb' hopen')) h

/-- The truth is decided after as many turns as there are variables to be bound, and further turns
do not change the answer. -/
theorem simplifySince_ends {xs : List Var} {k : Nat} {last : Option Snapshot}
    (hc : c.Sound (.free d.order (· ∈ xs))) (hp : c.pending = [])
    (hlast : ∀ b, c.normalize (.standard d.order) = .ok b → b.truth = .unknown →
      xs.length < b.store.size + k ∧ b.unchangedSince last = false) :
    ∃ a, a.truth ≠ .unknown ∧ c.EndsAfter (.standard d.order) false last k a := by
  induction k generalizing c last with
  | zero =>
      obtain ⟨b, hb, hs⟩ := normalize_settled hc
      have hdec : b.truth ≠ .unknown := fun hopen => by
        have hle := size_store_le ((hs.within (isFalse_eq_false_of_unknown hopen)).keys_subset
          fun x _ hx => hx.1.2 x (by simp))
        exact absurd (hlast b hb hopen).1 (by omega)
      exact ⟨b, hdec, endsAfter_of_stop hb (.inl hdec)⟩
  | succ k ih =>
      obtain ⟨b, hb, hs⟩ := normalize_settled hc
      by_cases hopen : b.truth = .unknown
      · obtain ⟨hlt, hun⟩ := hlast b hb hopen
        have hbf := isFalse_eq_false_of_unknown hopen
        obtain ⟨hw, hnf⟩ := hs.resolve_left fun hr => by simp [hr.1] at hbf
        obtain ⟨a, hrun, hres⟩ := turn_free hw hnf ((pending_of_normalize hc hb hbf).trans hp) hopen
        by_cases haf : a.isFalse = true
        · exact ⟨a, fun h => by simp [isFalse, h] at haf,
            endsAfter_of_isFalse hb hopen hun (fun _ _ => hrun _) haf⟩
        · obtain ⟨hsound, hpending, hgrow⟩ := hres.resolve_left haf
          obtain ⟨a', ha', hrun'⟩ := ih hsound hpending
            fun b' hb' hopen' => by
              have hsize := hgrow b' hb' hopen'
              have hun' : b'.unchangedSince (some (b.store, b.equations)) = false :=
                unchangedSince_of_size_lt hsize
              exact ⟨by omega, hun'⟩
          exact ⟨a', ha', endsAfter_of_round hb hopen hun (fun _ _ => hrun _) haf hrun'⟩
      · exact ⟨b, hopen, endsAfter_of_stop hb (.inl hopen)⟩

end Constraint

end SolvedForm

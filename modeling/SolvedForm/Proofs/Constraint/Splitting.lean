import SolvedForm.Proofs.Constraint.Reachable
import SolvedForm.Proofs.Constraint.WorkList
import SolvedForm.Proofs.Model.Exactness

/-!
Proofs that are split on variables come to an end.

* `Constraint.LeavesOpen`, `Constraint.leavesOpen_of_residue`: the variables that a constraint does
  not bind; what is left of another constraint has no others.
* `Constraint.size_lt_of_add`: a truth value added for such a variable makes the store larger, or
  the constraint false; `Constraint.room` measures it.
* `Constraint.SplitsTo`, `Constraint.SplitsOn`: one split of an obligation, and the terms on which
  its proof is split.
* `Constraint.OnVariables`: obligations of which the proof is split on variables alone. They are
  answered, or split into such obligations with less room.
* `Constraint.Mapless`: constraints without maps, whatever operations have led to them.
* `Constraint.implies_ends`: the proof of an implication that is split on variables alone comes to
  an end.
-/

namespace SolvedForm

open Term

lemma Fragment.symmetric_mapFree (order : SortOrder) (allowed : Var → Prop) :
    (mapFree order allowed).Symmetric where
  swap h := ⟨⟨.var _, h.2.2 _ (by simp)⟩, .var _, by simpa using h.1.2⟩
  join h h' := ⟨h.1, .var _, by simpa using h'.1.2⟩

lemma Term.MapFreeOver.part {allowed : Var → Prop} {s t : Term} (ht : t.MapFreeOver allowed)
    (h : Part s t) : s.MapFreeOver allowed :=
  Part.closed (P := MapFreeOver allowed) (fun h => app_iff.mp h)
    (fun h => absurd h.1 MapFree.not_map) (fun h => lookup_iff.mp h) ht h

namespace Constraint

variable {order : SortOrder} {xs only : List Var} {x : Var} {t : Term} {σ : Type}
  {solver : Solver σ} {limits : TimeLimits} {fuel n m : Nat} {o o' : Obligation}
  {left right goal rest residue d : Constraint}

/-! ### What is left is about variables that are not bound -/

/-- The variable is one of the given ones, and the constraint does not bind it. -/
def LeavesOpen (c : Constraint) (xs : List Var) (x : Var) : Prop := x ∈ xs ∧ x ∉ c.store.keys

/-- With what a normal form knows worked in, a term has only variables that the normal form does not
bind. -/
lemma leavesOpen_replace_facts (hw : left.Within (.mapFree order (· ∈ xs)))
    (hn : left.NormalForm order) (ht : t.MapFreeOver (· ∈ xs)) :
    (t.replace left.facts).MapFreeOver (left.LeavesOpen xs) := by
  have bound : ∀ x ∈ left.store.keys, ∃ u, (.var x, u) ∈ left.facts := by
    intro x hx
    obtain ⟨b, hb, rfl⟩ := List.mem_map.mp hx
    exact ⟨b.2, List.mem_append_left _ (List.mem_map.mpr ⟨b, hb, rfl⟩)⟩
  refine Term.MapFreeOver.replace (fun s u h => ?_) ⟨ht.1, fun x hx => ?_⟩
  · rcases List.mem_append.mp h with h | h
    · obtain ⟨b, hb, heq⟩ := List.mem_map.mp h
      cases heq
      obtain ⟨hfree, hvars⟩ := (hw.over.store b hb).2
      exact ⟨hfree, fun x hx => ⟨hvars x hx, hn.acyclic b hb x hx⟩⟩
    · obtain ⟨e, he, ⟨heq, -⟩ | ⟨heq, -⟩⟩ := mem_groundFacts h <;> cases heq
      · obtain ⟨hfree, hvars⟩ := (hw.over.equations e he).2
        exact ⟨hfree, fun x hx => ⟨hvars x hx, hn.untouched e he x (.inr hx)⟩⟩
      · obtain ⟨hfree, hvars⟩ := (hw.over.equations e he).1
        exact ⟨hfree, fun x hx => ⟨hvars x hx, hn.untouched e he x (.inl hx)⟩⟩
  · exact or_iff_not_imp_right.mpr fun hx' => ⟨ht.2 x hx, fun hk => hx' (bound x hk)⟩

lemma Settled.mono_mapFree {c : Constraint} {p q : Var → Prop} (h : c.Settled (.mapFree order p))
    (hpq : ∀ x, p x → q x) : c.Settled (.mapFree order q) :=
  h.imp_right fun ⟨hw, hn⟩ => ⟨hw.mono (F := .mapFree order p) (G := .mapFree order q)
    (fun _ ht => ⟨ht.1, fun x hx => hpq x (ht.2 x hx)⟩)
    fun _ _ hb => ⟨⟨hb.1.1, hpq _ hb.1.2⟩, hb.2.1, fun x hx => hpq x (hb.2.2 x hx)⟩, hn⟩

section Residue

variable (hleft : left.Settled (.mapFree order (· ∈ xs))) (hleftf : left.isFalse = false)
include hleft hleftf

/-- Subtraction of a constraint without disjunctions ends. -/
lemma subtract_ends_of_settled (hgoal : goal.Settled (.mapFree order (· ∈ xs)))
    (hp : goal.isFalse = false → goal.pending = []) :
    ∃ rest k, ∀ fuel, k < fuel → ∀ n,
      left.subtract (.standard order) fuel goal n = .ok (rest, n) := by
  cases hgf : goal.isFalse with
  | true => exact ⟨goal, 0, fun fuel _ n => by rw [subtract, if_pos hgf]; rfl⟩
  | false =>
      exact subtract_ends (fun e he => ((hleft.within hleftf).over.listed e he).imp (·.1) (·.1))
        (fun e he => ((hgoal.within hgf).over.listed e he).imp (·.1) (·.1)) (hp hgf)

/-- What subtraction leaves is about variables that are not bound. -/
lemma leavesOpen_subtract (hgoal : goal.Settled (.mapFree order (· ∈ xs)))
    (hp : goal.isFalse = false → goal.pending = [])
    (h : left.subtract (.standard order) fuel goal n = .ok (rest, m)) :
    rest.Settled (.mapFree order (left.LeavesOpen xs)) ∧
      (rest.isFalse = false → rest.pending = []) := by
  obtain ⟨hw, hn⟩ := hleft.resolve_left fun hr => absurd hr.1 (by simp [hleftf])
  cases hgf : goal.isFalse with
  | true =>
      obtain rfl := subtract_of_isFalse hgf h
      have hrefuted := hgoal.resolve_right fun hr => by simp [hr.1.over.undecided] at hgf
      exact ⟨.inl hrefuted, fun hf => absurd (hgf.symm.trans hf) Bool.noConfusion⟩
  | false =>
      have hlists := (hgoal.within hgf).lists
      have hopen := fun t ht => leavesOpen_replace_facts (t := t) hw hn ht
      refine ⟨subtract_settled_of_replace hlists hgf h hopen (Fragment.decisive_mapFree order _)
        (hp hgf), fun hf => ?_⟩
      have hmem : ∀ t, (Fragment.mapFree order (· ∈ xs)).Mem t →
          (Fragment.mapFree order (· ∈ xs)).Mem (t.replace left.facts) := fun t ht =>
        (hopen t ht).imp_right fun hvars x hx => (hvars x hx).1
      exact (pending_of_subtract hmem hlists hgf h (Fragment.decisive_mapFree order _) hf).trans
        (hp hgf)

/-- So is the residue of an obligation. -/
lemma leavesOpen_of_residue (hright : right.Settled (.mapFree order (· ∈ xs)))
    (hp : right.isFalse = false → right.pending = [])
    (h : Residue (.standard order) fuel only left right residue) :
    residue.Settled (.mapFree order (left.LeavesOpen xs)) ∧
      (residue.isFalse = false → residue.pending = []) := by
  obtain ⟨-, goal, rest, n, m, hgoal, hrest, hresidue⟩ := h
  have hF := fun allowed => Fragment.symmetric_mapFree order allowed
  have hgoalp : goal.isFalse = false → goal.pending = [] := fun hf =>
    (pending_of_orient (hF _) hright hgoal hf).trans (hp (isFalse_of_orient hgoal hf))
  obtain ⟨hs, hrestp⟩ :=
    leavesOpen_subtract hleft hleftf (orient_settled (hF _) hright hgoal) hgoalp hrest
  refine ⟨orient_settled (hF _) hs hresidue, fun hf => ?_⟩
  exact (pending_of_orient (hF _) hs hresidue hf).trans (hrestp (isFalse_of_orient hresidue hf))

end Residue

/-- The condition that a constraint offers for a split is in the class of its terms. -/
lemma mapFreeOver_of_innermostCondition {allowed : Var → Prop}
    (hc : residue.Within (.mapFree order allowed)) (h : residue.innermostCondition = some t) :
    t.MapFreeOver allowed := by
  obtain ⟨e, he, u, p, hu, hp, rfl⟩ := exists_of_innermostCondition h
  obtain ⟨hl, hr⟩ := hc.over.listed e he
  rcases hu with hu | hu
  · exact (Term.MapFreeOver.part hl (.of_innermostConditional hu)).part (.of_asConditional hp)
  · exact (Term.MapFreeOver.part hr (.of_innermostConditional hu)).part (.of_asConditional hp)

/-! ### Splits on variables -/

/-- A truth value added for a variable that a normal form does not bind makes the store larger, or
the constraint false. -/
lemma size_lt_of_add {allowed : Var → Prop} {b : Bool} (hw : left.Within (.mapFree order allowed))
    (hn : left.NormalForm order) (hx : allowed x) (hfree : x ∉ left.store.keys)
    (h : left.add (.standard order) ⟨.var x, .bool b⟩ = .ok d) :
    d.isFalse = true ∨ left.store.size < d.store.size := by
  let e : Equation := ⟨.var x, .bool b⟩
  have hbinding : e.binding? order = some (x, .bool b) := rfl
  have hinsert : left.insertAll (.standard order) [e] = left.insertEquation e := by
    cases b <;> rfl
  rw [add, addAll, hinsert] at h
  have hw' : (left.insertEquation e).Within (.mapFree order allowed) :=
    hinsert ▸ hw.insertAll (List.forall_mem_singleton.mpr
      ⟨⟨.var x, by simpa [e] using hx⟩, .bool b, by simp [e]⟩)
  rcases insertEquation_cases left e with ⟨-, hf | he | ⟨hg, -⟩⟩ | ⟨-, hg, -⟩ | ⟨-, hg, heq⟩
  · exact absurd hf (by simp [hw.over.undecided])
  · exact absurd (hn.unbound e he) (by simp [hbinding])
  · exact absurd hg (by simp [hn.unguarded])
  · exact absurd hg (by simp [hn.unguarded])
  · rw [heq] at h hw'
    rcases normalize_binds hw' hn.acyclic hg rfl h with hf | hsize | ⟨passes, -⟩
    · exact .inl hf
    · exact .inr hsize
    · have he : e ∈ (left.equations.insert e).toList := EquationSet.mem_insert.mpr (.inr rfl)
      exact absurd (passes e (EquationSet.mem_insertAll.mpr (.inl he)))
        (Theory.not_passes (by simpa [e] using hfree) (by simp [e]) hbinding)

/-- How many of the given variables may still be bound, and one more for a constraint that is not
false. -/
def room (xs : List Var) (c : Constraint) : Nat :=
  if c.isFalse then 0 else xs.length + 1 - c.store.size

lemma room_lt {c : Constraint} (hd : d.Settled (.mapFree order (· ∈ xs))) (hc : c.isFalse = false)
    (hcs : c.Settled (.mapFree order (· ∈ xs)))
    (h : d.isFalse = true ∨ c.store.size < d.store.size) : d.room xs < c.room xs := by
  have size_le : ∀ {b : Constraint}, b.Settled (.mapFree order (· ∈ xs)) → b.isFalse = false →
      b.store.size ≤ xs.length := fun hb hf =>
    size_store_le ((hb.within hf).keys_subset fun _ _ hx => hx.1.2)
  have hle := size_le hcs hc
  have hroom : c.room xs = xs.length + 1 - c.store.size := by simp [room, hc]
  cases hdf : d.isFalse with
  | true =>
      have hnone : d.room xs = 0 := by simp [room, hdf]
      omega
  | false =>
      have hdroom : d.room xs = xs.length + 1 - d.store.size := by simp [room, hdf]
      have hdle := size_le hd hdf
      have hlt := h.resolve_left (by simp [hdf])
      omega

/-- An obligation is split on a term, and this is one of the two cases. -/
inductive SplitsTo (T : Theory) (only : List Var) : Obligation → Term → Obligation → Prop where
  | intro {left right residue d : Constraint} {fuel : Nat} {t : Term} {b : Bool} :
      Residue T fuel only left right residue → residue.isFalse = false →
      residue.bindsOnly only = false → residue.innermostCondition = some t →
      left.add T ⟨t, .bool b⟩ = .ok d → SplitsTo T only (left, right) t (d, residue)

/-- The proof of an obligation is split on a term, at once or later. -/
inductive SplitsOn (T : Theory) (only : List Var) : Obligation → Term → Prop where
  | here {o o' : Obligation} {t : Term} : SplitsTo T only o t o' → SplitsOn T only o t
  | later {o o' : Obligation} {t u : Term} : SplitsTo T only o u o' → SplitsOn T only o' t →
      SplitsOn T only o t

/-- An obligation between constraints without maps and disjunctions over given variables, of which
the proof is only split on variables. -/
structure OnVariables (order : SortOrder) (xs only : List Var) (o : Obligation) : Prop where
  left : o.1.Settled (.mapFree order (· ∈ xs))
  right : o.2.Settled (.mapFree order (· ∈ xs))
  pending : o.2.isFalse = false → o.2.pending = []
  splits : ∀ t, SplitsOn (.standard order) only o t → ∃ x, t = .var x

/-- A case of a split of such an obligation is such an obligation again, and there is less room in
it. -/
lemma OnVariables.split (ho : OnVariables order xs only (left, right))
    (hres : Residue (.standard order) fuel only left right residue) (hf : residue.isFalse = false)
    (hbinds : residue.bindsOnly only = false) (ht : residue.innermostCondition = some t)
    (b : Bool) :
    ∃ d, left.add (.standard order) ⟨t, .bool b⟩ = .ok d ∧
      OnVariables order xs only (d, residue) ∧ d.room xs < left.room xs := by
  obtain ⟨hw, hn⟩ := ho.left.resolve_left fun hr => absurd hr.1 (by simp [hres.1])
  obtain ⟨hs, hp⟩ := leavesOpen_of_residue ho.left hres.1 ho.right ho.pending hres
  obtain ⟨htfree, htvars⟩ := mapFreeOver_of_innermostCondition (hs.within hf) ht
  have hmem : ∀ e ∈ [⟨t, .bool b⟩], (Fragment.mapFree order (· ∈ xs)).MemEq e :=
    List.forall_mem_singleton.mpr ⟨⟨htfree, fun x hx => (htvars x hx).1⟩, .bool b, by simp⟩
  obtain ⟨d, hd, hds⟩ := normalize_settled (ho.left.sound.insertAll hmem)
  have hsplit := SplitsTo.intro hres hf hbinds ht hd
  obtain ⟨x, rfl⟩ := ho.splits t (.here hsplit)
  obtain ⟨hx, hfree⟩ := htvars x (by simp)
  refine ⟨d, hd, ⟨hds, hs.mono_mapFree fun _ hx => hx.1, hp, fun t ht => ?_⟩,
    room_lt hds hres.1 ho.left (size_lt_of_add hw hn hx hfree hd)⟩
  exact ho.splits t (.later hsplit ht)

section Answers

variable {k : Nat} (ho : OnVariables order xs only (left, right)) (hleft : left.isFalse = false)
include ho hleft

/-- Once its residue has been found, such an obligation is answered or split into such obligations
with less room. -/
lemma OnVariables.exists_answers_of_residue
    (hgoal : right.orient (.standard order) only = .ok (.ok goal))
    (hrest : ∀ fuel, k < fuel → ∀ n, left.subtract (.standard order) fuel goal n = .ok (rest, n))
    (hresidue : rest.orient (.standard order) only = .ok (.ok residue)) :
    ∃ os, Answers (.standard order) solver limits only k (left, right) os ∧
      ∀ o' ∈ os, OnVariables order xs only o' ∧ o'.1.room xs < left.room xs := by
  by_cases hno : residue.isFalse = true ∨ residue.bindsOnly only = true ∨
      residue.innermostCondition = none
  · refine ⟨[], fun fuel hfuel s n => ?_, by simp⟩
    obtain ⟨r, s', hrun, hr⟩ :=
      discharge_of_no_split hleft hgoal (hrest fuel hfuel n) hresidue hno
    exact ⟨r, s', n, hrun, fun os h => absurd h (hr os)⟩
  · simp only [not_or, Bool.not_eq_true] at hno
    obtain ⟨hf, hbinds, ht⟩ := hno
    obtain ⟨t, ht⟩ := Option.ne_none_iff_exists'.mp ht
    have hres : Residue (.standard order) (k + 1) only left right residue :=
      ⟨hleft, goal, rest, 0, 0, hgoal, hrest (k + 1) (Nat.lt_succ_self k) 0, hresidue⟩
    obtain ⟨left₁, h₁, hcase₁⟩ := ho.split hres hf hbinds ht true
    obtain ⟨left₂, h₂, hcase₂⟩ := ho.split hres hf hbinds ht false
    refine ⟨[(left₁, residue), (left₂, residue)], fun fuel hfuel s n => ⟨_, s, n,
      discharge_of_condition hleft hgoal (hrest fuel hfuel n) hresidue hf hbinds ht h₁ h₂, ?_⟩, ?_⟩
    · rintro os ⟨⟩
      rfl
    · exact List.forall_mem_cons.mpr ⟨hcase₁, List.forall_mem_singleton.mpr hcase₂⟩

end Answers

/-- Such an obligation is answered or split into such obligations with less room. -/
theorem OnVariables.exists_answers (ho : OnVariables order xs only o) :
    ∃ k os, Answers (.standard order) solver limits only k o os ∧
      ∀ o' ∈ os, OnVariables order xs only o' ∧ o'.1.room xs < o.1.room xs := by
  obtain ⟨left, right⟩ := o
  have hF := fun allowed => Fragment.symmetric_mapFree order allowed
  cases hleft : left.isFalse with
  | true =>
      refine ⟨0, [], fun fuel _ s n => ⟨.ok .settled, s, n, ?_, nofun⟩, by simp⟩
      rw [discharge, if_pos hleft]
      rfl
  | false =>
      obtain ⟨r, hgoal⟩ := orient_ok (hF _) ho.right only
      match r with
      | .error failure =>
          exact ⟨0, [], fun fuel _ s n => ⟨_, s, n, discharge_of_failure hleft hgoal, nofun⟩,
            by simp⟩
      | .ok goal =>
          have hgoals := orient_settled (hF _) ho.right hgoal
          have hgoalp : goal.isFalse = false → goal.pending = [] := fun hf =>
            (pending_of_orient (hF _) ho.right hgoal hf).trans
              (ho.pending (isFalse_of_orient hgoal hf))
          obtain ⟨rest, k, hrest⟩ := subtract_ends_of_settled ho.left hleft hgoals hgoalp
          obtain ⟨hs, -⟩ := leavesOpen_subtract ho.left hleft hgoals hgoalp
            (hrest (k + 1) (Nat.lt_succ_self k) 0)
          obtain ⟨r, hresidue⟩ := orient_ok (hF _) hs only
          match r with
          | .error failure =>
              exact ⟨k, [], fun fuel hfuel s n => ⟨_, s, n,
                discharge_of_residue_failure hleft hgoal (hrest fuel hfuel n) hresidue, nofun⟩,
                by simp⟩
          | .ok residue => exact ⟨k, ho.exists_answers_of_residue hleft hgoal hrest hresidue⟩

/-! ### Implication -/

/-- A settled constraint without disjunctions is over terms without maps, where it lists no others. -/
lemma Settled.mapFree {F : Fragment (.standard order)} {allowed : Var → Prop} {c : Constraint}
    (h : c.Settled F) (hp : c.isFalse = false → c.pending = [])
    (hfree : c.isFalse = false → ∀ e ∈ c.listed, (Fragment.mapFree order allowed).MemEq e) :
    c.Settled (.mapFree order allowed) := by
  refine h.imp_right fun ⟨hw, hn⟩ => ⟨?_, hn⟩
  have hlisted := hfree hw.over.undecided
  refine .intro ⟨hw.over.undecided, hw.over.consistent, fun e he => ?_, ?_, fun b hb => ?_⟩ ?_
  · exact hlisted e (List.mem_append_right _ he)
  · simp [hn.drained]
  · obtain ⟨hl, hr⟩ := hlisted _ (List.mem_append_left _ (List.mem_map_of_mem hb))
    exact ⟨⟨hl.1, by simpa using hl.2⟩, hr⟩
  · simp [hp hw.over.undecided]

/-- A constraint without maps: it is false, or in normal form over terms without maps and without
disjunctions, which equations between maps alone give rise to. -/
structure Mapless (order : SortOrder) (c : Constraint) : Prop where
  settled : c.Settled (.mapFree order fun _ => True)
  pending : c.isFalse = false → c.pending = []

/-- Whatever operations have led to it. -/
lemma Reachable.mapless {c : Constraint} (h : c.Reachable order)
    (hfree : ∀ e ∈ c.listed, e.left.MapFree ∧ e.right.MapFree)
    (hp : c.isFalse = false → c.pending = []) : c.Mapless order :=
  ⟨h.settled.mapFree hp fun _ e he =>
    ⟨⟨(hfree e he).1, fun _ _ => trivial⟩, (hfree e he).2, fun _ _ => trivial⟩, hp⟩

lemma Mapless.restrict {c : Constraint} (h : c.Mapless order)
    (hxs : ∀ e ∈ c.listed, ∀ x ∈ e.left.vars ++ e.right.vars, x ∈ xs) :
    c.Settled (.mapFree order (· ∈ xs)) := by
  refine h.settled.mapFree h.pending fun hf e he => ?_
  obtain ⟨hl, hr⟩ := (h.settled.within hf).over.listed e he
  exact ⟨⟨hl.1, fun x hx => hxs e he x (List.mem_append_left _ hx)⟩, hr.1,
    fun x hx => hxs e he x (List.mem_append_right _ hx)⟩

/-- The proof of an implication between constraints without maps ends when the conditions on which
it is split are variables: each split binds one of finitely many variables for good, whatever the
solver answers and whatever variables are to be chosen. -/
theorem implies_ends (hleft : left.Mapless order) (hright : right.Mapless order)
    (hsplit : ∀ t, SplitsOn (.standard order) only (left, right) t → ∃ x, t = .var x) :
    ∃ k, ∀ fuel, k < fuel → ∀ s n, ∃ a,
      left.implies (.standard order) solver limits fuel right only s n = .ok a := by
  let xs := listedVars left right
  have hxs : ∀ e ∈ left.listed ++ right.listed, ∀ x ∈ e.left.vars ++ e.right.vars, x ∈ xs :=
    fun e he x hx => List.mem_flatMap.mpr ⟨e, he, hx⟩
  rw [List.forall_mem_append] at hxs
  have ho : OnVariables order xs only (left, right) :=
    ⟨hleft.restrict hxs.1, hright.restrict hxs.2, hright.pending, hsplit⟩
  have hstep : ∀ (a : Nat) (o : Obligation), a = o.1.room xs ∧ OnVariables order xs only o →
      ∃ k os, Answers (.standard order) solver limits only k o os ∧
        ∀ o' ∈ os, ∃ b < a, b = o'.1.room xs ∧ OnVariables order xs only o' := by
    rintro _ o ⟨rfl, ho⟩
    obtain ⟨k, os, hanswers, hcases⟩ := ho.exists_answers
    exact ⟨k, os, hanswers, fun o' ho' => ⟨_, (hcases o' ho').2, rfl, (hcases o' ho').1⟩⟩
  obtain ⟨k, l, hdrains⟩ := drains_of_wellFounded wellFounded_lt hstep ⟨rfl, ho⟩
  refine ⟨k + l, fun fuel hfuel s n => ?_⟩
  have hqueue : ∀ q ∈ [(l, (left, right))], Drains (.standard order) solver limits only k q.1 q.2 :=
    List.forall_mem_singleton.mpr hdrains
  exact dischargeAll_ends hqueue (by simpa using hfuel)

/-- A conditional on a variable: the proof is split once, and neither case has a conditional
left. -/
theorem implies_ends_choice :
    let T : Theory := .standard Subsorts.builtin.order
    let b : Var := ⟨"B", .bool, false, none⟩
    let f (t : Term) : Term := .app ⟨"f", 1, some .int, .function⟩ [t]
    let choice : Term := .ofOperator .ite [.var b, .int 1, .int 2]
    ∃ right : Constraint, empty.add T ⟨f choice, .int 3⟩ = .ok right ∧
      SplitsOn T [] (empty, right) (.var b) ∧
      ∀ {σ : Type} (solver : Solver σ) (limits : TimeLimits), ∃ k, ∀ fuel, k < fuel → ∀ s n, ∃ a,
        empty.implies T solver limits fuel right [] s n = .ok a := by
  intro T b f choice
  let goal (t : Term) : Constraint :=
    { equations := .ofList [⟨f t, .int 3⟩], truth := .unknown }
  let known (v : Bool) : Constraint := { store := .single b (.bool v) }
  let value (v : Bool) : Term := .int (if v then 1 else 2)
  have hright : empty.add T ⟨f choice, .int 3⟩ = .ok (goal choice) := by cbv
  have hadd : ∀ v, empty.add T ⟨.var b, .bool v⟩ = .ok (known v) := by
    rintro (_ | _) <;> cbv
  -- two turns are enough for both simplifications, and with fewer there is no residue
  have hrun : ∀ fuel n, empty.subtract T (fuel + 2) (goal choice) n = .ok (goal choice, n) := by
    intro fuel n
    cbv
  have hfirst : ∀ {residue fuel}, Residue T fuel [] empty (goal choice) residue →
      residue = goal choice := by
    refine Residue.eq_of_runs (by simp) (by simp) (fun fuel hfuel n => ?_) hrun
    interval_cases fuel <;> cbv
  have hcase : ∀ {residue fuel} v, Residue T fuel [] (known v) (goal choice) residue →
      residue = goal (value v) := by
    intro residue fuel v
    refine Residue.eq_of_runs (k := 2) (by simp) (by simp) (fun fuel hfuel n => ?_) fun fuel n => ?_
    · interval_cases fuel <;> cases v <;> cbv
    · cases v <;> cbv
  have hstart : ∀ {t o}, SplitsTo T [] (empty, goal choice) t o →
      t = .var b ∧ ∃ v, o = (known v, goal choice) := by
    rintro t o (@⟨_, _, residue, d, fuel, _, v, hres, -, -, ht, hd⟩)
    obtain rfl := hfirst hres
    cases ht
    exact ⟨rfl, v, congrArg (·, goal choice) (Except.ok.inj (hd.symm.trans (hadd v)))⟩
  have hdone : ∀ {v t o}, ¬ SplitsTo T [] (known v, goal choice) t o := by
    rintro v t o (@⟨_, _, residue, d, fuel, _, b, hres, -, -, ht, -⟩)
    obtain rfl := hcase v hres
    cases ht
  have hsplit : ∀ t, SplitsOn T [] (empty, goal choice) t → ∃ x, t = .var x := by
    intro t h
    cases h with
    | here h => exact ⟨b, (hstart h).1⟩
    | later h h' =>
        obtain ⟨v, rfl⟩ := (hstart h).2
        cases h' with
        | here h => exact absurd h hdone
        | later h => exact absurd h hdone
  have hres : Residue T 2 [] empty (goal choice) (goal choice) :=
    ⟨rfl, goal choice, goal choice, 0, 0, rfl, hrun 0 0, rfl⟩
  refine ⟨goal choice, hright, .here (.intro hres rfl rfl rfl (hadd true)), fun solver limits => ?_⟩
  have hfree : (f choice).MapFree := by
    simp [f, choice, Term.ofOperator, MapFree.var, MapFree.int]
  have hgoal : (goal choice).Reachable Subsorts.builtin.order :=
    .add .empty hfree.frameless (.int 3) hright
  refine implies_ends (Reachable.empty.mapless ?_ fun _ => rfl) (hgoal.mapless ?_ fun _ => rfl) hsplit
  · simp [listed, bindingEquations, empty, Substitution.empty, EquationSet.empty]
  · exact List.forall_mem_singleton.mpr ⟨hfree, .int 3⟩

end Constraint

end SolvedForm

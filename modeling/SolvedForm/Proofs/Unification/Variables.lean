import Mathlib
import SolvedForm.Proofs.Term.Ranges
import SolvedForm.Proofs.Unification.Progress

/-!
The variables of what a decomposition leaves.

* `Var.MintedIn`: the fresh variables with numbers in a range.
* `Decomposition.Progress.Gains`: a progress goes on from another one with equations over a class of
  variables and the fresh ones given out in between; the first of these is shared by two maps.
* `Decomposition.gains_decompose`: without folding, every decomposition goes on so.
* `Unifier.structural_gains`: what that says of the parts of an equation.
-/

namespace SolvedForm

lemma Var.fresh_injective {n m : Nat} {sort : SortName} (h : Var.fresh n sort = Var.fresh m sort) : n = m :=
  Nat.repr_injective ((String.append_right_inj "_").mp (congrArg Var.name h))

/-- The variable is a fresh one with a number from `n` on and below `m`. -/
def Var.MintedIn (n m : Nat) (x : Var) : Prop := ∃ k, n ≤ k ∧ k < m ∧ x = .fresh k .map

lemma Var.MintedIn.mono {n m n' m' : Nat} {x : Var} (h : x.MintedIn n m) (hn : n' ≤ n)
    (hm : m ≤ m') : x.MintedIn n' m' := by
  obtain ⟨k, hk, hk', rfl⟩ := h
  exact ⟨k, Nat.le_trans hn hk, Nat.lt_of_lt_of_le hk' hm, rfl⟩

/-- All variables of the equation belong to a class. -/
abbrev Equation.Ranges (allowed : Var → Prop) (e : Equation) : Prop :=
  e.left.Ranges allowed ∧ e.right.Ranges allowed

namespace Decomposition

variable {allowed : Var → Prop} {order : SortOrder} {p q r : Progress} {s t : Term}
  {ss ts : List Term} {es fs : List Entry} {x : Var} {e : Equation}

/-- The second progress has the equations of the first one and others, with variables of a class and
fresh ones given out since. Where there is one, the first of them is the frame of a map that some
variable of the class is equated to. -/
structure Progress.Gains (allowed : Var → Prop) (p q : Progress) : Prop where
  supply : p.supply ≤ q.supply
  kept : p.equations ⊆ q.equations
  ranges : ∀ e ∈ q.equations, e ∈ p.equations ∨
    e.Ranges fun x => allowed x ∨ x.MintedIn p.supply q.supply
  minted : p.supply < q.supply →
    ∃ x es, allowed x ∧ ⟨.var x, .map es (some (.fresh p.supply .map))⟩ ∈ q.equations

namespace Progress.Gains

lemma refl (p : Progress) : p.Gains allowed p :=
  ⟨Nat.le_refl _, List.Subset.refl _, fun _ => .inl, fun h => absurd h (Nat.lt_irrefl _)⟩

lemma trans (h : p.Gains allowed q) (h' : q.Gains allowed r) : p.Gains allowed r where
  supply := Nat.le_trans h.supply h'.supply
  kept := List.Subset.trans h.kept h'.kept
  ranges e he := by
    have widen : ∀ {n m : Nat} {t : Term}, p.supply ≤ n → m ≤ r.supply →
        (t.Ranges fun x => allowed x ∨ x.MintedIn n m) →
        t.Ranges fun x => allowed x ∨ x.MintedIn p.supply r.supply := fun hn hm ht =>
      ht.mono fun x hx => hx.imp_right fun hx => hx.mono hn hm
    rcases h'.ranges e he with he | he
    · exact (h.ranges e he).imp_right fun he =>
        ⟨widen (Nat.le_refl _) h'.supply he.1, widen (Nat.le_refl _) h'.supply he.2⟩
    · exact .inr ⟨widen h.supply (Nat.le_refl _) he.1, widen h.supply (Nat.le_refl _) he.2⟩
  minted hlt := by
    rcases Nat.lt_or_eq_of_le h.supply with hpq | hpq
    · obtain ⟨x, es, hx, hmem⟩ := h.minted hpq
      exact ⟨x, es, hx, h'.kept hmem⟩
    · rw [hpq] at hlt ⊢
      exact h'.minted hlt

/-- Equations over the class are added. -/
lemma push (hl : e.left.Ranges allowed) (hr : e.right.Ranges allowed) :
    p.Gains allowed (p.push [e]) where
  supply := Nat.le_refl _
  kept := List.subset_append_left _ _
  ranges q hq := (List.mem_append.mp hq).imp_right fun hq => by
    rw [List.mem_singleton.mp hq]
    exact ⟨hl.mono fun _ => .inl, hr.mono fun _ => .inl⟩
  minted h := absurd h (Nat.lt_irrefl _)

end Progress.Gains

lemma gains_equateVar (hl : e.left.Ranges allowed) (hr : e.right.Ranges allowed)
    (h : equateVar order x t e p = .ok q) : p.Gains allowed q :=
  (equateVar_ok h).1 ▸ .push hl hr

lemma gains_settleAmbiguous {y z : Option Var} (hs : (Term.map es y).Ranges allowed)
    (ht : (Term.map fs z).Ranges allowed) (h : settleAmbiguous false t es y fs z p = .ok q) :
    p.Gains allowed q := by
  obtain ⟨hes, hy⟩ := Term.Ranges.map_iff.mp hs
  obtain ⟨hfs, hz⟩ := Term.Ranges.map_iff.mp ht
  unfold settleAmbiguous at h
  simp only [Bool.false_and, Bool.not_false, ↓reduceIte] at h
  exact Except.ok.inj h ▸ .push (.ofEntries hes hy) (.ofEntries hfs hz)

/-- Two frames that share a fresh one. -/
lemma gains_mint {y z : Var} (hy : allowed y) (hz : allowed z)
    (hes : ∀ e ∈ es, e.1.Ranges allowed ∧ e.2.Ranges allowed)
    (hfs : ∀ f ∈ fs, f.1.Ranges allowed ∧ f.2.Ranges allowed) :
    p.Gains allowed (({ p with supply := p.supply + 1 }.push
      [⟨.var y, .ofEntries fs (some (.fresh p.supply .map))⟩]).push
      [⟨.ofEntries es (some (.fresh p.supply .map)), .var z⟩]) := by
  have widen : ∀ {t : Term}, t.Ranges allowed →
      t.Ranges fun x => allowed x ∨ x.MintedIn p.supply (p.supply + 1) := fun ht =>
    ht.mono fun _ => .inl
  have hmap : ∀ {es : List Entry}, (∀ e ∈ es, e.1.Ranges allowed ∧ e.2.Ranges allowed) →
      (Term.ofEntries es (some (.fresh p.supply .map))).Ranges fun x =>
        allowed x ∨ x.MintedIn p.supply (p.supply + 1) := fun hes =>
    .ofEntries (fun e he => ⟨widen (hes e he).1, widen (hes e he).2⟩) fun x hx =>
      .inr ⟨p.supply, Nat.le_refl _, Nat.lt_succ_self _, (Option.some.inj hx).symm⟩
  refine ⟨Nat.le_succ _, fun q hq => List.mem_append_left _ (List.mem_append_left _ hq),
    fun q hq => ?_, fun _ => ⟨y, _, hy, List.mem_append_left _ (List.mem_append_right _
      List.mem_cons_self)⟩⟩
  rcases List.mem_append.mp hq with hq | hq
  · refine (List.mem_append.mp hq).imp_right fun hq => ?_
    rw [List.mem_singleton.mp hq]
    exact ⟨widen (Term.Ranges.var_iff.mpr hy), hmap hfs⟩
  · rw [List.mem_singleton.mp hq]
    exact .inr ⟨hmap hes, widen (Term.Ranges.var_iff.mpr hz)⟩

/-- Leftovers go to the frames, which are variables of the maps, or share a fresh one. -/
lemma gains_settleRest {y z : Option Var} (hs : (Term.map es y).Ranges allowed)
    (ht : (Term.map fs z).Ranges allowed) (h : settleRest order s t es y fs z p = .ok q) :
    p.Gains allowed q := by
  obtain ⟨hes, hy⟩ := Term.Ranges.map_iff.mp hs
  obtain ⟨hfs, hz⟩ := Term.Ranges.map_iff.mp ht
  have left (w : Option Var) (hw : ∀ x, w = some x → allowed x) :
      (Term.ofEntries es w).Ranges allowed := .ofEntries hes hw
  have right (w : Option Var) (hw : ∀ x, w = some x → allowed x) :
      (Term.ofEntries fs w).Ranges allowed := .ofEntries hfs hw
  unfold settleRest at h
  match y, z with
  | none, none =>
      simp only at h
      split at h
      · exact absurd h fail_ne_ok
      · exact absurd h fail_ne_ok
      · exact Except.ok.inj h ▸ .refl p
  | some x, none =>
      simp only at h
      split at h
      · exact absurd h fail_ne_ok
      · exact gains_equateVar (Term.Ranges.var_iff.mpr (hy x rfl)) (right none nofun) h
  | none, some x =>
      simp only at h
      split at h
      · exact absurd h fail_ne_ok
      · exact gains_equateVar (left none nofun) (Term.Ranges.var_iff.mpr (hz x rfl)) h
  | some x, some x' =>
      have hx := Term.Ranges.var_iff.mpr (hy x rfl)
      have hx' := Term.Ranges.var_iff.mpr (hz x' rfl)
      simp only at h
      split at h
      · split at h
        · exact absurd h fail_ne_ok
        · exact absurd h fail_ne_ok
        · exact Except.ok.inj h ▸ .refl p
      · split at h
        · exact gains_equateVar hx hx' h
        · exact gains_equateVar hx (right _ hz) h
        · exact gains_equateVar (left _ hy) hx' h
        · obtain ⟨r, hr, h⟩ := exceptBind_eq_ok.mp h
          rw [(equateVar_ok h).1, (equateVar_ok hr).1]
          exact gains_mint (hy x rfl) (hz x' rfl) hes hfs

/-- Every decomposition with the left side `s` goes on so. -/
def GainsAt (allowed : Var → Prop) (order : SortOrder) (s : Term) : Prop :=
  ∀ ⦃t p q⦄, s.Ranges allowed → t.Ranges allowed → decompose order false s t p = .ok q →
    p.Gains allowed q

lemma gains_decomposeArgs (ih : ∀ s ∈ ss, GainsAt allowed order s)
    (hss : ∀ s ∈ ss, s.Ranges allowed) (hts : ∀ t ∈ ts, t.Ranges allowed)
    (h : decomposeArgs order false ss ts p = .ok q) : p.Gains allowed q := by
  induction ss generalizing ts p with
  | nil =>
      rw [decomposeArgs.eq_2 _ _ _ _ _ (by simp)] at h
      exact Except.ok.inj h ▸ .refl p
  | cons s ss ihs =>
      cases ts with
      | nil =>
          rw [decomposeArgs.eq_2 _ _ _ _ _ (by simp)] at h
          exact Except.ok.inj h ▸ .refl p
      | cons t ts =>
          rw [decomposeArgs] at h
          obtain ⟨r, hr, h⟩ := exceptBind_eq_ok.mp h
          rw [List.forall_mem_cons] at ih hss hts
          exact (ih.1 hss.1 hts.1 hr).trans (ihs ih.2 hss.2 hts.2 h)

lemma gains_decomposeEntries (ih : ∀ e ∈ es, GainsAt allowed order e.2)
    (hes : ∀ e ∈ es, e.1.Ranges allowed ∧ e.2.Ranges allowed)
    (hfs : ∀ f ∈ fs, f.1.Ranges allowed ∧ f.2.Ranges allowed)
    (h : decomposeEntries order false es fs p = .ok q) : p.Gains allowed q := by
  induction es generalizing p with
  | nil => exact Except.ok.inj h ▸ .refl p
  | cons e es ihe =>
      obtain ⟨k, v⟩ := e
      rw [List.forall_mem_cons] at ih hes
      rw [decomposeEntries] at h
      cases hw : List.lookup k fs with
      | some w =>
          simp only [hw] at h
          obtain ⟨r, hr, hrest⟩ := exceptBind_eq_ok.mp h
          obtain ⟨f, hf, rfl⟩ := Term.mem_of_valueAt hw
          exact (ih.1 hes.1.2 (hfs f hf).2 hr).trans (ihe ih.2 hes.2 hrest)
      | none =>
          simp only [hw] at h
          exact ihe ih.2 hes.2 h

/-- The case of one term, when its arguments and values have been dealt with. -/
lemma gainsAt_of_parts
    (hargs : ∀ f ss, s = .app f ss → ∀ a ∈ ss, GainsAt allowed order a)
    (hentries : ∀ es x, s = .map es x → ∀ e ∈ es, GainsAt allowed order e.2) :
    GainsAt allowed order s := by
  intro t p q hs ht h
  have hd := decomposed order false s t
  generalize decompose order false s t = run at hd h
  cases hd with
  | same => exact Except.ok.inj h ▸ .refl p
  | left => exact gains_equateVar hs ht h
  | right => exact gains_equateVar hs ht h
  | clash => exact absurd h fail_ne_ok
  | args =>
      exact gains_decomposeArgs (hargs _ _ rfl) (Term.Ranges.app_iff.mp hs)
        (Term.Ranges.app_iff.mp ht) h
  | sizes => exact absurd h fail_ne_ok
  | @entries es fs x y =>
      obtain ⟨hes, hx⟩ := Term.Ranges.map_iff.mp hs
      obtain ⟨hfs, hy⟩ := Term.Ranges.map_iff.mp ht
      obtain ⟨r, hr, h⟩ := exceptBind_eq_ok.mp h
      have hleft : (Term.map (leftover es fs) x).Ranges allowed :=
        Term.Ranges.map_iff.mpr ⟨fun e he => hes e (mem_of_mem_leftover he), hx⟩
      have hright : (Term.map (leftover fs es) y).Ranges allowed :=
        Term.Ranges.map_iff.mpr ⟨fun f hf => hfs f (mem_of_mem_leftover hf), hy⟩
      refine (gains_decomposeEntries (hentries _ _ rfl) hes hfs hr).trans ?_
      unfold settle at h
      split at h
      · exact gains_settleAmbiguous hleft hright h
      · exact gains_settleRest hleft hright h
  | kept => exact (keep_ok h).1 ▸ .push hs ht

theorem gains_decompose (allowed : Var → Prop) (order : SortOrder) (s : Term) :
    GainsAt allowed order s := induction_parts (fun _ => gainsAt_of_parts) s

end Decomposition

/-- The parts of an equation have its variables and the fresh ones given out for them. The first of
these is the frame of a map that some variable of the equation is equated to. -/
lemma Unifier.structural_gains {allowed : Var → Prop} {order : SortOrder} {e : Equation}
    {parts : List Equation} {n m : Nat} (he : e.Ranges allowed)
    (h : Unifier.structural order false e n = (.ok (.unique parts), m)) :
    (∀ q ∈ parts, q.Ranges fun x => allowed x ∨ x.MintedIn n m) ∧
      (n < m → ∃ x es, allowed x ∧ ⟨.var x, .map es (some (.fresh n .map))⟩ ∈ parts) := by
  obtain ⟨q, hq, rfl, rfl⟩ := Decomposition.structural_parts h
  have hgains := Decomposition.gains_decompose allowed order e.left he.1 he.2 hq
  exact ⟨fun e he => (hgains.ranges e he).resolve_left (by simp), hgains.minted⟩

end SolvedForm

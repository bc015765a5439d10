import SolvedForm.Proofs.Constraint.AtRest
import SolvedForm.Proofs.Constraint.Equivariance
import SolvedForm.Proofs.Constraint.Gathered
import SolvedForm.Proofs.Unification.Variables

/-!
Simplification of a simplified constraint changes nothing.

* `Constraint.Ranges`: the variables of a constraint belong to a class, which solving does not leave.
* `Var.Behind`: the variables that are not fresh ones still to be given out.
* `Constraint.Open`: a constraint that a turn of simplification starts from.
* `Constraint.Open.mintless`: a turn that comes back to the constraint it started from has drawn no
  fresh variable.
* `Constraint.Open.repeats`: a further turn comes back to the constraint as well, in whatever order the
  equations are gone through.
* `Constraint.Derived.simplify_again`: so simplification is idempotent.
-/

namespace SolvedForm

open Term

variable {order : SortOrder} {p p' : Var → Prop} {a b c d : Constraint} {e : Equation}
  {ps : List (Equation × List Equation)} {last : Option Constraint.Snapshot} {fuel n m : Nat}

lemma Theory.preserves_ranges (order : SortOrder) (p : Var → Prop) :
    (Theory.standard order).Preserves (Ranges p) (Ranges p) where
  of_stored := id
  mem_true := by simp [Ranges]
  mem_conjuncts ht := conjuncts_closed Ranges.app_iff.mp ht
  evaluate := Ranges.evaluate
  apply hσ _ := Ranges.apply hσ

lemma Theory.conservative_standard (order : SortOrder) : (Theory.standard order).Conservative :=
  fun ht => ht.evaluate

namespace Constraint

/-! ### The variables of a constraint -/

/-- All variables of the constraint, also those of its buffer, belong to a class. -/
structure Ranges (p : Var → Prop) (c : Constraint) : Prop where
  store : ∀ b ∈ c.store.toList, p b.1 ∧ b.2.Ranges p
  equations : ∀ e ∈ c.equations.toList ++ c.buffer.toList, e.Ranges p

namespace Ranges

lemma values (h : c.Ranges p) : ∀ b ∈ c.store.toList, b.2.Ranges p := fun b hb => (h.store b hb).2

lemma instantiate (h : c.Ranges p) (he : e.Ranges p) :
    (e.instantiate (Theory.standard order).evaluate c.store).Ranges p :=
  (Theory.preserves_ranges order p).instantiateEquation h.values he

/-- A new binding brings in no variable. -/
lemma renormalize (hσ : c.Untangled) (hc : c.isFalse = false) (hr : c.Ranges p)
    (h : Constraint.renormalize (.standard order) c = .ok d) : d.isFalse = false → d.Ranges p := by
  refine Untangled.renormalize_induction (T := .standard order)
    (motive := fun c d => c.Ranges p → d.isFalse = false → d.Ranges p)
    (Theory.conservative_standard order) (fun c passes hr _ => ?_)
    (fun c d hd _ hopen => absurd (hd.symm.trans hopen) Bool.noConfusion)
    (fun c d pre post q x t hsplit hb hx ih hr => ih ?_) hc hσ h hr
  · have remaining : ∀ e ∈ (Theory.standard order).remaining c.store c.equations.toList,
        e.Ranges p := fun e he => by
      obtain ⟨q, hq, rfl, -⟩ := Theory.mem_remaining.mp he
      exact hr.instantiate (hr.equations q (List.mem_append_left _ hq))
    exact ⟨hr.store, fun e he => (List.mem_append.mp he).elim
      (fun he => remaining e (EquationSet.mem_ofList.mp he))
      fun he => hr.equations e (List.mem_append_right _ he)⟩
  · have hopen : ∀ e ∈ c.equations.toList, e.Ranges p := fun e he =>
      hr.equations e (List.mem_append_left _ he)
    have hq : (q.instantiate (Theory.standard order).evaluate c.store).Ranges p :=
      hr.instantiate (hopen q (by simp [hsplit]))
    obtain ⟨hpx, ht⟩ : p x ∧ t.Ranges p := by
      rcases Equation.binding?_cases hb with heq | heq <;> rw [heq] at hq
      · exact ⟨Term.Ranges.var_iff.mp hq.1, hq.2⟩
      · exact ⟨Term.Ranges.var_iff.mp hq.2, hq.1⟩
    refine ⟨fun b hb => ?_, fun e he => ?_⟩
    · rcases Substitution.mem_toList_insert.mp hb with rfl | ⟨-, hb⟩
      · exact ⟨hpx, ht⟩
      · obtain ⟨v, hv, rfl⟩ := List.mem_map.mp hb
        exact ⟨(hr.store v hv).1, (Theory.preserves_ranges order p).instantiate
          (by simpa using ht) (hr.store v hv).2⟩
    · rcases List.mem_append.mp he with he | he
      · rcases mem_kept.mp he with ⟨q, hq, rfl, -⟩ | he
        · exact hr.instantiate (hopen q (by simp [hsplit, hq]))
        · exact hopen e (by simp [hsplit, he])
      · exact hr.equations e (List.mem_append_right _ he)

lemma normalize (hσ : c.Untangled) (hr : c.Ranges p)
    (h : c.normalize (.standard order) = .ok d) (hd : d.isFalse = false) : d.Ranges p := by
  unfold Constraint.normalize at h
  split at h
  · cases h
    exact hr
  · next hgo =>
      simp only [Bool.or_eq_true, not_or, Bool.not_eq_true] at hgo
      have hdrain : ({ c with normal := true }.drain).Ranges p := by
        refine ⟨hr.store, fun e he => hr.equations e ?_⟩
        simpa [drain, EquationSet.mem_insertAll] using he
      cases hrun : Constraint.renormalize (.standard order) { c with normal := true }.drain with
      | error fault => simp [hrun, Except.map] at h
      | ok r =>
          rw [hrun] at h
          cases h
          rw [isFalse_updateTruth] at hd
          have hranges := hdrain.renormalize (by exact hσ) (by exact hgo.1.1) hrun hd
          rw [updateTruth_eq hd]
          exact ⟨hranges.store, hranges.equations⟩

end Ranges

/-! ### The passes after a round -/

/-- One pass goes over all equations, and no other one is needed. -/
def PassesOnce (T : Theory) (c d : Constraint) : Prop :=
  (∀ e ∈ c.equations.toList, T.Passes c.store e) ∧
    d = { c with equations := .ofList (T.remaining c.store c.equations.toList) }

/-- Where the passes bind no variable, there is only one. -/
lemma Untangled.passesOnce (hσ : c.Untangled) (hc : c.isFalse = false)
    (h : renormalize (.standard order) c = .ok d) (hd : d.isFalse = false)
    (hsize : d.store.size ≤ c.store.size) : c.PassesOnce (.standard order) d := by
  have hcases : d.isFalse = false →
      c.PassesOnce (.standard order) d ∨ c.store.size < d.store.size := by
    refine Untangled.renormalize_induction (T := .standard order)
      (motive := fun c d => d.isFalse = false →
        c.PassesOnce (.standard order) d ∨ c.store.size < d.store.size)
      (Theory.conservative_standard order) (fun c passes _ => .inl ⟨passes, rfl⟩)
      (fun c d hd hopen => absurd (hd.symm.trans hopen) Bool.noConfusion)
      (fun c d pre post q x t _ _ hx ih hopen => .inr ?_) hc hσ h
    have hextend := size_extend (T := .standard order) (t := t) hx
    rcases ih hopen with ⟨-, rfl⟩ | hlt
    · exact hextend ▸ Nat.lt_succ_self _
    · dsimp only at hlt
      omega
  exact (hcases hd).resolve_right (Nat.not_lt.mpr hsize)

/-- A pass that goes over all equations is the last one. -/
lemma PassesOnce.renormalize {T : Theory} (h : c.PassesOnce T d) :
    Constraint.renormalize T c = .ok d := by
  obtain ⟨passes, rfl⟩ := h
  have hscan := @scanned T c.store .empty c.equations.toList
  rw [renormalize_eq]
  generalize scan T c.store .empty c.equations.toList = pass at hscan ⊢
  cases hscan with
  | settled => rfl
  | @refuted pre post q hsplit _ hq =>
      rcases passes q (by simp [hsplit]) with ht | ⟨ht, -⟩ <;>
        exact absurd (hq.symm.trans ht) (by simp)
  | @solved pre post q x t hsplit _ hq hb =>
      rcases passes q (by simp [hsplit]) with ht | ⟨-, hn⟩
      · exact absurd (hq.symm.trans ht) (by simp)
      · exact absurd (hb.symm.trans hn) (by simp)

/-- The pass does not depend on the order of the equations. -/
lemma PassesOnce.congr {T : Theory} (h : c.PassesOnce T d) (hstore : a.store = c.store)
    (hpool : ∀ q, q ∈ a.equations.toList ↔ q ∈ c.equations.toList) :
    ∃ r, a.PassesOnce T r ∧ ∀ q, q ∈ r.equations.toList ↔ q ∈ d.equations.toList := by
  refine ⟨_, ⟨fun e he => hstore ▸ h.1 e ((hpool e).mp he), rfl⟩, fun q => ?_⟩
  rw [h.2, EquationSet.mem_ofList, EquationSet.mem_ofList, Theory.mem_remaining,
    Theory.mem_remaining, hstore]
  simp only [hpool]

lemma truth_updateTruth_congr (hc : c.isFalse = false) (hd : d.isFalse = false)
    (hpending : c.pending = d.pending)
    (hequations : ∀ q, q ∈ c.equations.toList ↔ q ∈ d.equations.toList) :
    c.updateTruth.truth = d.updateTruth.truth := by
  have hempty : c.equations.isEmpty = d.equations.isEmpty := by
    rw [Bool.eq_iff_iff, EquationSet.isEmpty_iff, EquationSet.isEmpty_iff]
    simp only [hequations]
  rw [updateTruth_eq hc, updateTruth_eq hd]
  simp only [hempty, hpending]

lemma normal_of_renormalize (hσ : c.Untangled) (hc : c.isFalse = false)
    (h : renormalize (.standard order) c = .ok d) : d.isFalse = false → d.normal = c.normal :=
  Untangled.renormalize_induction (T := .standard order)
    (motive := fun c d => d.isFalse = false → d.normal = c.normal)
    (Theory.conservative_standard order) (fun _ _ _ => rfl)
    (fun _ _ hd hopen => absurd (hd.symm.trans hopen) Bool.noConfusion)
    (fun _ _ _ _ _ _ _ _ _ _ ih hopen => ih hopen) hc hσ h

lemma normal_of_normalize (hσ : c.Untangled) (hg : c.guarded = false)
    (h : c.normalize (.standard order) = .ok d) (hd : d.isFalse = false) : d.normal = true := by
  unfold normalize at h
  split at h
  · next hgo =>
      cases h
      simpa [hd, hg] using hgo
  · next hgo =>
      simp only [Bool.or_eq_true, not_or, Bool.not_eq_true] at hgo
      cases hrun : renormalize (.standard order) { c with normal := true }.drain with
      | error fault => simp [hrun, Except.map] at h
      | ok r =>
          rw [hrun] at h
          cases h
          rw [isFalse_updateTruth] at hd
          rw [updateTruth_eq hd]
          exact normal_of_renormalize (by exact hσ) (by exact hgo.1.1) hrun hd

/-- The normal form of what is false or flagged as normal is itself. -/
lemma normalize_self {T : Theory} (h : c.isFalse = true ∨ c.normal = true) :
    c.normalize T = .ok c := by
  rw [normalize, if_pos]
  rcases h with h | h <;> simp [h]

end Constraint

/-! ### Fresh variables still to come -/

/-- The variable is not a fresh one with a number from `n` on. -/
def Var.Behind (n : Nat) (x : Var) : Prop := ∀ k, n ≤ k → x ≠ .fresh k .map

lemma Var.Behind.mono {x : Var} (h : x.Behind n) (hm : n ≤ m) : x.Behind m := fun k hk =>
  h k (Nat.le_trans hm hk)

lemma Var.MintedIn.behind {x : Var} (h : x.MintedIn n m) : x.Behind m := by
  obtain ⟨j, -, hj, rfl⟩ := h
  exact fun k hk heq => absurd (Var.fresh_injective heq) (by omega)

/-- The parts of equations have their variables and the fresh ones given out for them. If there is
one, it is the frame of a map that some variable of the equations is equated to. -/
lemma Theory.TakesApart.gains (h : (Theory.standard order).TakesApart n ps m)
    (hps : ∀ q ∈ ps, q.1.Ranges p) :
    n ≤ m ∧ (∀ q ∈ ps, ∀ e ∈ q.2, e.Ranges fun x => p x ∨ x.MintedIn n m) ∧
      (n < m → ∃ k, n ≤ k ∧ ∃ q ∈ ps, ∃ x es, p x ∧
        ⟨.var x, .map es (some (.fresh k .map))⟩ ∈ q.2) := by
  induction h with
  | nil n => exact ⟨Nat.le_refl n, by simp, fun h => absurd h (Nat.lt_irrefl n)⟩
  | @cons e parts ps n k m hu _ ih =>
      rw [List.forall_mem_cons] at hps
      obtain ⟨hkm, hranges, hminted⟩ := ih hps.2
      have hnk : n ≤ k := by
        have hle := Unifier.structural_supply_le order false e n
        rwa [show Unifier.structural order false e n = _ from hu] at hle
      obtain ⟨hparts, hmint⟩ := Unifier.structural_gains hps.1 hu
      have widen : ∀ {n' m' : Nat} {q : Equation}, n ≤ n' → m' ≤ m →
          (q.Ranges fun x => p x ∨ x.MintedIn n' m') → q.Ranges fun x => p x ∨ x.MintedIn n m :=
        fun hn hm hq => ⟨hq.1.mono fun x => Or.imp_right fun hx => hx.mono hn hm,
          hq.2.mono fun x => Or.imp_right fun hx => hx.mono hn hm⟩
      refine ⟨Nat.le_trans hnk hkm, List.forall_mem_cons.mpr ⟨fun q hq => ?_, fun q hq r hr => ?_⟩,
        fun hnm => ?_⟩
      · exact widen (Nat.le_refl n) hkm (hparts q hq)
      · exact widen hnk (Nat.le_refl m) (hranges q hq r hr)
      · rcases Nat.lt_or_eq_of_le hnk with hlt | rfl
        · obtain ⟨x, es, hx, hmem⟩ := hmint hlt
          exact ⟨n, Nat.le_refl n, _, List.mem_cons_self, x, es, hx, hmem⟩
        · obtain ⟨j, hj, q, hq, hmem⟩ := hminted hnm
          exact ⟨j, hj, q, List.mem_cons_of_mem _ hq, hmem⟩

/-- What comes of equations has their variables and the fresh ones given out for them. -/
lemma Theory.TakesApart.ranges_gathers (h : (Theory.standard order).TakesApart n ps m)
    (hps : ∀ q ∈ ps, q.1.Ranges p) (hp : ∀ x, p x ∨ x.MintedIn n m → p' x)
    (he : (Theory.standard order).Gathers ps e) : e.Ranges p' := by
  obtain ⟨q, hq, ⟨-, rfl⟩ | ⟨-, he⟩⟩ := he
  · exact ⟨(hps q hq).1.mono fun x hx => hp x (.inl hx), (hps q hq).2.mono fun x hx => hp x (.inl hx)⟩
  · obtain ⟨r, hr, he⟩ := List.mem_flatMap.mp he
    obtain ⟨hleft, hright⟩ := (h.gains hps).2.1 q hq r hr
    exact (Theory.preserves_ranges order _).obligations ⟨hleft.mono hp, hright.mono hp⟩ e he

/-- A map with an unbound frame keeps it. -/
lemma Theory.exists_instantiate_map (order : SortOrder) {σ : Substitution} {x : Var}
    (hx : x ∉ σ.keys) (es : List Entry) :
    ∃ fs, (Theory.standard order).instantiate σ (.map es (some x)) = .map fs (some x) := by
  have hframe : σ.apply (.var x) = .var x := by
    rw [Substitution.apply_var, Substitution.find?_eq_none_iff.mpr hx, Option.getD_none]
  unfold instantiate
  split
  · rw [Substitution.apply_map, reframe]
    simp only [hframe]
    exact ⟨_, evaluate_map (Sorted.ofList compareEntry _) (some x)⟩
  · exact ⟨es, rfl⟩

namespace Constraint

/-! ### Turns that come back -/

/-- A constraint that a turn of simplification starts from: nothing of it is under way or decided, and
no fresh variable with a number from `n` on occurs in it. -/
structure Open (n : Nat) (b : Constraint) : Prop where
  unknown : b.truth = .unknown
  normal : b.normal = true
  unguarded : b.guarded = false
  drained : b.buffer = .empty
  untangled : b.Untangled
  behind : b.Ranges (Var.Behind n)

lemma Open.undecided (h : b.Open n) : b.isFalse = false := isFalse_eq_false_of_unknown h.unknown

lemma open_of_normalize (hc : c.Between) (hσ : c.Untangled) (hr : c.Ranges (Var.Behind n))
    (h : c.normalize (.standard order) = .ok b) (hb : b.truth = .unknown) : b.Open n := by
  have hopen := isFalse_eq_false_of_unknown hb
  have hrest := atRest_normalize hc h
  have hbinds := bindsOnce_normalize (Theory.conservative_standard order) hσ
  rw [h] at hbinds
  exact ⟨hb, normal_of_normalize hσ hc.unguarded h hopen, hrest.unguarded, hrest.drained hopen, hbinds,
    hr.normalize hσ h hopen⟩

lemma Open.collecting (h : b.Open n) : b.takeOut.Collecting := ⟨h.undecided, rfl, rfl⟩

/-- What a round over the equations of the constraint gathers comes of them. -/
lemma Open.mem_gather (h : b.Open n) (T : Theory) (ps : List (Equation × List Equation))
    (q : Equation) :
    q ∈ (b.takeOut.gather T .empty ps).equations.toList ++
        (b.takeOut.gather T .empty ps).buffer.toList ↔ T.Gathers ps q := by
  rw [(gathered h.collecting).mem_equations]
  have hbuffer : b.takeOut.buffer = .empty := h.drained
  simp [hbuffer]

/-- A round brings in no variables but the fresh ones given out in it. -/
lemma Open.ranges_gather (h : b.Open n) (hps : (Theory.standard order).TakesApart n ps m)
    (heq : ps.map (·.1) = b.equations.toList) :
    (b.takeOut.gather (.standard order) .empty ps).Ranges (Var.Behind m) := by
  have hequations : ∀ q ∈ ps, q.1.Ranges (Var.Behind n) := fun q hq =>
    h.behind.equations q.1 (List.mem_append_left _ (heq ▸ List.mem_map_of_mem hq))
  have hmono : ∀ x, Var.Behind n x → Var.Behind m x := fun x hx =>
    hx.mono (hps.gains hequations).1
  refine ⟨fun v hv => ?_, fun e he => ?_⟩
  · rw [(gathered h.collecting).store] at hv
    exact ⟨hmono _ (h.behind.store v hv).1, (h.behind.store v hv).2.mono hmono⟩
  · exact hps.ranges_gathers hequations (fun x hx => hx.elim (hmono x) Var.MintedIn.behind)
      ((h.mem_gather _ _ e).mp he)

/-- What a pass makes of a round over the equations of the constraint, where it binds nothing and the
round has not kept all of them. -/
lemma Open.passesOnce (h : b.Open n) (hn : (b.takeOut.gather (.standard order) .empty ps).normal = false)
    (hd : (b.takeOut.gather (.standard order) .empty ps).normalize (.standard order) = .ok d)
    (hopen : d.isFalse = false) (hsize : d.store.size ≤ b.store.size) :
    ∃ r, PassesOnce (.standard order)
      ({ b.takeOut.gather (.standard order) .empty ps with normal := true }.drain) r ∧
        d = r.updateTruth := by
  have hg : Gathered (.standard order) b.takeOut .empty ps _ := gathered h.collecting
  rw [normalize, if_neg (by simp [hg.undecided, hn, hg.unguarded])] at hd
  cases hrun : renormalize (.standard order)
      { b.takeOut.gather (.standard order) .empty ps with normal := true }.drain with
  | error fault => simp [hrun, Except.map] at hd
  | ok r =>
      rw [hrun] at hd
      cases hd
      rw [isFalse_updateTruth] at hopen
      rw [store_updateTruth] at hsize
      refine ⟨r, Untangled.passesOnce ?_ hg.undecided hrun hopen ?_, rfl⟩
      · exact h.untangled.congr hg.store
      · exact hsize.trans_eq (congrArg Substitution.size hg.store.symm)

lemma unchangedSince_iff {σ : Substitution} {E : EquationSet} :
    d.unchangedSince (some (σ, E)) = true ↔
      σ.equiv d.store = true ∧ ∀ e, e ∈ E.toList ↔ e ∈ d.equations.toList := by
  rw [← EquationSet.equiv_iff, unchangedSince, Option.any_some, Bool.and_eq_true]

lemma size_of_unchangedSince {σ : Substitution} {E : EquationSet}
    (h : d.unchangedSince (some (σ, E)) = true) : d.store.size = σ.size := by
  have hequiv := (unchangedSince_iff.mp h).1
  rw [Substitution.equiv, Bool.and_eq_true, beq_iff_eq] at hequiv
  exact hequiv.1.symm

/-- The variable and the map that shares a fresh frame make an equation which is not split, and of
which the frame is not lost. -/
lemma Open.frame_ne (order : SortOrder) {x : Var} {k : Nat} (h : b.Open n) (hk : n ≤ k)
    (hx : x.Behind n) (es : List Entry) :
    ∃ q, (Theory.standard order).obligations ⟨.var x, .map es (some (.fresh k .map))⟩ = [q] ∧
      (q.instantiate (Theory.standard order).evaluate b.store).left.Ranges (Var.Behind n) ∧
      ¬ (q.instantiate (Theory.standard order).evaluate b.store).right.Ranges (Var.Behind n) := by
  refine ⟨⟨.var x, (Term.map es (some (.fresh k .map))).evaluate⟩, rfl, ?_⟩
  have hkey : Var.fresh k .map ∉ b.store.keys := fun hmem => by
    obtain ⟨t, ht⟩ := Substitution.mem_keys_iff.mp hmem
    exact (h.behind.store _ (Substitution.mem_toList_iff.mpr ht)).1 k hk rfl
  rw [Equation.instantiate_eq_map, Equation.map_left, Equation.map_right, evaluate_map]
  obtain ⟨fs, hfs⟩ := Theory.exists_instantiate_map order hkey
    (Sorted.ofList compareEntry (es.map fun e => (e.1.evaluate, e.2.evaluate)))
  refine ⟨(Theory.preserves_ranges order _).instantiate h.behind.values
    (Term.Ranges.var_iff.mpr hx), fun hr => ?_⟩
  rw [ofEntries, hfs] at hr
  exact (Term.Ranges.map_iff.mp hr).2 _ rfl k hk rfl

/-- A turn that comes back to the constraint it started from has drawn no fresh variable. -/
theorem Open.mintless (h : b.Open n) (hps : (Theory.standard order).TakesApart n ps m)
    (heq : ps.map (·.1) = b.equations.toList)
    (hd : (b.takeOut.gather (.standard order) .empty ps).normalize (.standard order) = .ok d)
    (hopen : d.isFalse = false) (hback : d.unchangedSince (some (b.store, b.equations)) = true) :
    m = n := by
  have hequations : ∀ q ∈ ps, q.1.Ranges (Var.Behind n) := fun q hq =>
    h.behind.equations q.1 (List.mem_append_left _ (heq ▸ List.mem_map_of_mem hq))
  obtain ⟨hle, -, hminted⟩ := hps.gains hequations
  by_contra hne
  obtain ⟨k, hk, q, hq, x, es, hx, hmem⟩ := hminted (by omega)
  obtain ⟨e, he, hleft, hright⟩ := h.frame_ne order hk hx es
  have hg : Gathered (.standard order) b.takeOut .empty ps _ := gathered h.collecting
  by_cases hkept : q.2 = [q.1]
  · -- the frame would occur in the equation itself
    rw [hkept, List.mem_singleton] at hmem
    have hfresh := (hequations q hq).2
    rw [← hmem] at hfresh
    exact (Term.Ranges.map_iff.mp hfresh).2 _ rfl k hk rfl
  · have hn : (b.takeOut.gather (.standard order) .empty ps).normal = false := by
      rw [← Bool.not_eq_true, hg.normal]
      exact fun hall => hkept (hall.2 q hq)
    obtain ⟨r, ⟨passes, rfl⟩, rfl⟩ :=
      h.passesOnce hn hd hopen (size_of_unchangedSince hback).le
    have hin : e ∈ (b.takeOut.gather (.standard order) .empty ps).equations.toList ++
        (b.takeOut.gather (.standard order) .empty ps).buffer.toList := by
      refine (h.mem_gather _ _ e).mpr ⟨q, hq, .inr ⟨hkept, List.mem_flatMap.mpr ⟨_, hmem, ?_⟩⟩⟩
      rw [he]
      exact List.mem_cons_self
    have hstore : (b.takeOut.gather (.standard order) .empty ps).store = b.store := hg.store
    rcases passes e (EquationSet.mem_insertAll.mpr (List.mem_append.mp hin)) with ht | ⟨ht, -⟩
    · -- an equation of the frame to a term without it is not true
      have ht := Equation.truth_eq_true_iff.mp ht
      simp only [drain] at ht
      rw [hstore] at ht
      exact hright (ht ▸ hleft)
    · -- and it would be an equation of the constraint
      have hr : e.instantiate (Theory.standard order).evaluate b.store ∈ b.equations.toList := by
        refine ((unchangedSince_iff.mp hback).2 _).mpr ?_
        rw [equations_updateTruth]
        refine EquationSet.mem_ofList.mpr (Theory.mem_remaining.mpr ⟨e,
          EquationSet.mem_insertAll.mpr (List.mem_append.mp hin), ?_, ?_⟩)
        · simp only [drain]
          rw [hstore]
        · simp only [drain] at ht
          rwa [hstore] at ht
      exact hright (h.behind.equations _ (List.mem_append_left _ hr)).2

/-- The equations of a list, each with the parts that the unifier finds for it. -/
def withParts (T : Theory) (n : Nat) (es : List Equation) : List (Equation × List Equation) :=
  es.map fun e => (e, match (T.unifier false e n).1 with
    | .ok (.unique parts) => parts
    | _ => [])

/-- Where no fresh variable is drawn, the parts depend on the equations alone. -/
lemma takesApart_iff {T : Theory} (hT : T.unifier.Ascends) :
    T.TakesApart n ps n ↔ ∀ q ∈ ps, T.unifier false q.1 n = (.ok (.unique q.2), n) := by
  have ascends : ∀ {n m : Nat} {ps : List (Equation × List Equation)}, T.TakesApart n ps m →
      n ≤ m := by
    intro n m ps h
    induction h with
    | nil n => exact Nat.le_refl n
    | @cons e parts ps n k m hu _ ih => exact Nat.le_trans (by simpa [hu] using hT false e n) ih
  constructor
  · intro h
    induction ps with
    | nil => simp
    | cons q ps ih =>
        cases h with
        | @cons e parts _ _ k _ hu h =>
            have hk : n ≤ k := by simpa [hu] using hT false e n
            obtain rfl : k = n := Nat.le_antisymm (ascends h) hk
            exact List.forall_mem_cons.mpr ⟨hu, ih h⟩
  · intro h
    induction ps with
    | nil => exact .nil n
    | cons q ps ih =>
        rw [List.forall_mem_cons] at h
        exact .cons h.1 (ih h.2)

lemma eq_withParts {T : Theory} (hT : T.unifier.Ascends) (h : T.TakesApart n ps n) :
    ps = withParts T n (ps.map (·.1)) := by
  rw [withParts, List.map_map]
  refine (List.map_id ps).symm.trans (List.map_congr_left fun q hq => ?_)
  simp only [id, Function.comp_apply, (takesApart_iff hT).mp h q hq]

/-- The same equations in another order have the same parts. -/
lemma exists_takesApart_of_mem_iff {T : Theory} {es : List Equation} (hT : T.unifier.Ascends)
    (h : T.TakesApart n ps n) (hes : ∀ e, e ∈ es ↔ e ∈ ps.map (·.1)) :
    ∃ ps', ps'.map (·.1) = es ∧ T.TakesApart n ps' n ∧ ∀ q, q ∈ ps' ↔ q ∈ ps := by
  have hmem : ∀ q, q ∈ withParts T n es ↔ q ∈ ps := fun q => by
    rw [eq_withParts hT h, withParts, withParts]
    simp only [List.mem_map, hes]
  refine ⟨withParts T n es, ?_, ?_, hmem⟩
  · rw [withParts, List.map_map]
    exact List.map_id _
  · exact (takesApart_iff hT).mpr fun q hq => (takesApart_iff hT).mp h q ((hmem q).mp hq)

/-- The constraint comes back after a turn over its equations that starts from the number `n` for fresh
variables and draws none. -/
def ComesBack (T : Theory) (n : Nat) (d : Constraint) : Prop :=
  ∃ ps e, ps.map (·.1) = d.equations.toList ∧ T.TakesApart n ps n ∧
    (d.takeOut.gather T .empty ps).normalize T = .ok e ∧
    e.unchangedSince (some (d.store, d.equations)) = true ∧ e.same d = true

lemma comesBack_of_normalize {T : Theory} (heq : ps.map (·.1) = d.equations.toList)
    (hps : T.TakesApart n ps n) (h : (d.takeOut.gather T .empty ps).normalize T = .ok c)
    (hstore : c.store = d.store) (htruth : c.truth = d.truth) (hpending : c.pending = d.pending)
    (hequations : ∀ q, q ∈ d.equations.toList ↔ q ∈ c.equations.toList) : d.ComesBack T n := by
  refine ⟨ps, c, heq, hps, h, unchangedSince_iff.mpr ⟨?_, hequations⟩,
    same_iff.mpr ⟨htruth, ?_, EquationSet.equiv_iff.mpr fun q => (hequations q).symm, ?_⟩⟩
  · rw [hstore]
    exact Substitution.equiv_self _
  · rw [hstore]
    exact Substitution.equiv_self _
  · rw [hpending]
    exact sameDisjunctions_self _

/-- A constraint that a turn has come back to comes back again. The equations are now gone through in
another order, which makes the same equations. -/
theorem Open.comesBack (h : b.Open n) (hd : d.Open n)
    (hps : (Theory.standard order).TakesApart n ps n) (heq : ps.map (·.1) = b.equations.toList)
    (hnormal : (b.takeOut.gather (.standard order) .empty ps).normalize (.standard order) = .ok d)
    (hback : d.unchangedSince (some (b.store, b.equations)) = true) :
    d.ComesBack (.standard order) n := by
  obtain ⟨-, hsame⟩ := unchangedSince_iff.mp hback
  obtain ⟨ps', hfirst, htakes, hmem⟩ :=
    exists_takesApart_of_mem_iff (Unifier.ascends_structural order) hps (heq ▸ fun q => (hsame q).symm)
  have hgathers : ∀ q, (Theory.standard order).Gathers ps' q ↔ (Theory.standard order).Gathers ps q :=
    fun q => exists_congr fun r => and_congr_left' (hmem r)
  have hg : Gathered (.standard order) b.takeOut .empty ps _ := gathered h.collecting
  have hg' : Gathered (.standard order) d.takeOut .empty ps' _ := gathered hd.collecting
  -- the same equations are taken apart in both turns
  have hflags : (d.takeOut.gather (.standard order) .empty ps').normal =
      (b.takeOut.gather (.standard order) .empty ps).normal := by
    have hb : b.takeOut.normal = true := h.normal
    have hd : d.takeOut.normal = true := hd.normal
    rw [Bool.eq_iff_iff, hg.normal, hg'.normal, hb, hd]
    simp only [true_and, hmem]
  cases hn : (b.takeOut.gather (.standard order) .empty ps).normal with
  | true =>
      have hstays := hg'.unchanged (hflags.trans hn)
      rw [hfirst, putBack_takeOut hd.unguarded] at hstays
      refine comesBack_of_normalize hfirst htakes ?_ rfl rfl rfl fun _ => Iff.rfl
      rw [hstays]
      exact normalize_self (.inr hd.normal)
  | false =>
      obtain ⟨r, hr, hdr⟩ :=
        h.passesOnce hn hnormal hd.undecided (size_of_unchangedSince hback).le
      have hstore : d.store = b.store := by
        rw [hdr, store_updateTruth, hr.2]
        exact hg.store
      have hpool : ∀ q,
          q ∈ ({ d.takeOut.gather (.standard order) .empty ps' with normal := true }.drain
            ).equations.toList ↔
          q ∈ ({ b.takeOut.gather (.standard order) .empty ps with normal := true }.drain
            ).equations.toList := fun q => by
        have hb := h.mem_gather (.standard order) ps q
        have hd := hd.mem_gather (.standard order) ps' q
        rw [List.mem_append] at hb hd
        simp only [drain, EquationSet.mem_insertAll, hb, hd, hgathers]
      obtain ⟨e, he, hequations⟩ := hr.congr
        (a := { d.takeOut.gather (.standard order) .empty ps' with normal := true }.drain)
        (hg'.store.trans (hstore.trans hg.store.symm)) hpool
      have hopen : e.isFalse = false := he.2 ▸ hg'.undecided
      have hpending : e.pending = r.pending := by
        rw [he.2, hr.2]
        refine hg'.pending.trans ?_
        change d.pending = _
        rw [hdr, pending_updateTruth, hr.2]
      have hrun : (d.takeOut.gather (.standard order) .empty ps').normalize (.standard order) =
          .ok e.updateTruth := by
        rw [normalize, if_neg (by simp [hg'.undecided, hflags, hn, hg'.unguarded]), he.renormalize]
        rfl
      refine comesBack_of_normalize hfirst htakes hrun ?_ ?_ ?_ fun q => ?_
      · rw [store_updateTruth, he.2]
        exact hg'.store
      · rw [hdr]
        exact truth_updateTruth_congr hopen (hr.2 ▸ hg.undecided) hpending hequations
      · rw [hdr, pending_updateTruth, pending_updateTruth, hpending]
      · rw [hdr, equations_updateTruth, equations_updateTruth]
        exact (hequations q).symm

/-! ### Simplification -/

/-- What is simplified once more stays the same, and no fresh variable is drawn. -/
def Stable (order : SortOrder) (n : Nat) (d : Constraint) : Prop :=
  ∃ e, e.same d = true ∧
    ∀ fuel, 1 < fuel → d.simplify (.standard order) fuel false n = .ok (e, n)

lemma stable_of_decided (hn : d.isFalse = true ∨ d.normal = true) (ht : d.truth ≠ .unknown) :
    d.Stable order n :=
  ⟨d, same_self d, fun fuel hfuel => by
    obtain ⟨fuel, rfl⟩ := Nat.exists_eq_add_one.mpr (Nat.zero_lt_of_lt hfuel)
    exact simplifySince_of_decided (normalize_self hn) ht⟩

lemma Open.stable (hd : d.Open n) (h : d.ComesBack (.standard order) n) : d.Stable order n := by
  obtain ⟨ps, e, heq, hps, hnormal, hback, hsame⟩ := h
  refine ⟨e, hsame, fun fuel hfuel => ?_⟩
  obtain ⟨fuel, rfl⟩ : ∃ k, fuel = k + 1 + 1 := ⟨fuel - 2, by omega⟩
  have hround : d.takeOut.round (.standard order) false
      (satisfiable (.standard order) false (fuel + 1)) .empty (ps.map (·.1)) n = .ok (_, n) :=
    round_of_takesApart hps
  rw [heq] at hround
  refine simplifySince_of_round (normalize_self (.inr hd.normal)) hd.unknown rfl hround ?_
  rw [if_neg (by simp [(gathered hd.collecting).undecided])]
  exact simplifySince_of_stop hnormal (.inr hback)

/-- The constraint is what a round has left, and the snapshot is of the constraint the turn started
from. -/
def FollowsFrom (order : SortOrder) (s : Snapshot) (n : Nat) (c : Constraint) : Prop :=
  ∃ (b : Constraint) (k : Nat) (ps : List (Equation × List Equation)), b.Open k ∧
    s = (b.store, b.equations) ∧ (Theory.standard order).TakesApart k ps n ∧
    ps.map (·.1) = b.equations.toList ∧ c = b.takeOut.gather (.standard order) .empty ps

/-- Each turn starts from the constraint that the turn before has left, so a run that ends can go on
with turns which change nothing. -/
theorem simplifySince_stable (hc : c.Between) (hσ : c.Untangled)
    (hr : c.isFalse = false → c.Ranges (Var.Behind n))
    (hlast : ∀ s, last = some s → FollowsFrom order s n c)
    (h : c.simplifySince (.standard order) false fuel last n = .ok (d, m)) :
    d.Stable order m := by
  induction fuel generalizing last c n with
  | zero => exact absurd h Engine.throw_ne_ok
  | succ fuel ih =>
      obtain ⟨b, hb, h⟩ := simplifySince_cases h
      have hopen : b.truth = .unknown → b.Open n := fun ht => by
        refine open_of_normalize hc hσ (hr ?_) hb ht
        by_contra hf
        rw [Bool.not_eq_false] at hf
        rw [normalize_self (.inl hf)] at hb
        cases hb
        simp [isFalse, ht] at hf
      by_cases ht : b.truth = .unknown
      swap
      · obtain ⟨-, rfl, rfl⟩ := h.resolve_right fun h => ht h.1
        refine stable_of_decided ?_ ht
        cases hf : d.isFalse with
        | true => exact .inl rfl
        | false => exact .inr (normal_of_normalize hσ hc.unguarded hb hf)
      · have hb' := hopen ht
        rcases h with ⟨hstop, rfl, rfl⟩ | ⟨-, -, a, k, ha, h⟩
        · have hback := hstop.resolve_left fun hne => hne ht
          cases last with
          | none => exact absurd hback (by simp [unchangedSince])
          | some s =>
              obtain ⟨b₀, k, ps, hb₀, rfl, hps, heq, rfl⟩ := hlast s rfl
              obtain rfl : m = k := hb₀.mintless hps heq hb hb'.undecided hback
              exact hb'.stable (hb₀.comesBack hb' hps heq hb hback)
        · rcases h with ⟨hf, rfl, rfl⟩ | ⟨hf, h⟩
          · refine stable_of_decided (.inl hf) fun ht => ?_
            simp [isFalse, ht] at hf
          · obtain ⟨ps, heq, hps, rfl⟩ := exists_takesApart
              (Unifier.structural_decisive order) ha hf
            refine ih (between_round ?_ ha) ?_ (fun _ => hb'.ranges_gather hps heq) ?_ h
            · exact ⟨by simp [takeOut, ht], fun _ => hb'.drained⟩
            · exact hb'.untangled.congr (gathered hb'.collecting).store
            · exact fun s hs => ⟨b, n, ps, hb', (Option.some.inj hs).symm, hps, heq, rfl⟩

/-- Simplification of a simplified constraint comes to an end and gives the same constraint, where no
variable that is a fresh one still to be given out occurs in the constraint at first. -/
theorem Derived.simplify_again (h : c.Derived (.standard order) (fun _ => True) MovesApart)
    (hfresh : ∀ k, n ≤ k → ¬ c.Mentions (.fresh k .map))
    (hd : c.simplify (.standard order) fuel false n = .ok (d, m)) :
    ∃ e, e.same d = true ∧
      ∀ fuel, 1 < fuel → d.simplify (.standard order) fuel false m = .ok (e, m) := by
  have hwell := (h.throughout_wellFormed (Theory.stable_canonical order)).holds
  refine simplifySince_stable hwell.atRest.between hwell.untangled (fun hopen => ?_)
    (by rintro s ⟨⟩) hd
  have hbehind : ∀ x, c.Mentions x → Var.Behind n x := fun x hx k hk heq => hfresh k hk (heq ▸ hx)
  refine ⟨fun b hb => ⟨hbehind _ (.inl ⟨b, hb, .inl rfl⟩), fun x hx => hbehind x
    (.inl ⟨b, hb, .inr hx⟩)⟩, fun e he => ?_⟩
  rw [hwell.atRest.drained hopen, EquationSet.toList_empty, List.append_nil] at he
  exact ⟨fun x hx => hbehind x (.inr ⟨e, he, .inl hx⟩), fun x hx => hbehind x
    (.inr ⟨e, he, .inr hx⟩)⟩

/-- Two maps share a fresh frame beside an equation that stays open. -/
theorem Derived.simplify_again_frames :
    let T : Theory := .standard Subsorts.builtin.order
    let con (name : String) : Term := .app ⟨name, 0, none, .constructor⟩ []
    let call (name : String) : Term := .app ⟨name, 0, none, .function⟩ []
    let frame (name : String) : Var := ⟨name, .map, false, none⟩
    ∃ b c d : Constraint, Constraint.empty.add T ⟨call "f", call "g"⟩ = .ok b ∧
      b.add T ⟨.map [(con "a", .int 1)] (some (frame "X")),
        .map [(con "b", .int 2)] (some (frame "Y"))⟩ = .ok c ∧
      c.Derived T (fun _ => True) MovesApart ∧ (∀ k, 0 ≤ k → ¬ c.Mentions (.fresh k .map)) ∧
      c.simplify T 4 false 0 = .ok (d, 1) ∧ d.truth = .unknown ∧ d.store.size = 2 ∧
      ∃ e, e.same d = true ∧ ∀ fuel, 1 < fuel → d.simplify T fuel false 1 = .ok (e, 1) := by
  intro T con call frame
  let e₁ : Equation := ⟨call "f", call "g"⟩
  let e₂ : Equation := ⟨.map [(con "a", .int 1)] (some (frame "X")),
    .map [(con "b", .int 2)] (some (frame "Y"))⟩
  let b : Constraint := { equations := .ofList [e₁], truth := .unknown }
  let c : Constraint := { equations := .ofList [e₁, e₂], truth := .unknown }
  have hb : Constraint.empty.add T e₁ = .ok b := by cbv
  have hc : b.add T e₂ = .ok c := by cbv
  have hderived : c.Derived T (fun _ => True) MovesApart :=
    .change (.change .empty .empty (.add ⟨trivial, trivial⟩ hb)) .empty (.add ⟨trivial, trivial⟩ hc)
  have hfresh : ∀ k, 0 ≤ k → ¬ c.Mentions (.fresh k .map) := by
    rintro k - (⟨v, hv, -⟩ | ⟨q, hq, hv⟩)
    · cases hv
    · have hframe : ∀ name, frame name ≠ Var.fresh k .map := fun name heq =>
        absurd (congrArg Var.anonymous heq) (by simp [frame, Var.fresh])
      rcases List.mem_pair.mp (EquationSet.mem_ofList.mp hq) with rfl | rfl
      · simp [e₁, call] at hv
      · simp [e₂, con, hframe] at hv
  have hrun : (c.simplify T 4 false 0).toOption.any (fun r => r.2 == 1 &&
      decide (r.1.truth = .unknown) && r.1.store.size == 2) = true := by decide +kernel
  obtain ⟨⟨d, n⟩, hd, htest⟩ := exists_eq_ok_of_any hrun
  obtain ⟨⟨rfl, htruth⟩, hsize⟩ : (n = 1 ∧ d.truth = .unknown) ∧ d.store.size = 2 := by
    simpa using htest
  exact ⟨b, c, d, hb, hc, hderived, hfresh, hd, htruth, hsize, hderived.simplify_again hfresh hd⟩

/-- A frame that is a fresh variable still to be given out: the first simplification draws two others
and stops, the second one draws it and fails. -/
theorem simplify_again_collision :
    let T : Theory := .standard Subsorts.builtin.order
    let con (name : String) : Term := .app ⟨name, 0, none, .constructor⟩ []
    let call (name : String) : Term := .app ⟨name, 0, none, .function⟩ []
    let X : Var := ⟨"X", .top, false, none⟩
    let Y : Var := ⟨"Y", .top, false, none⟩
    let M : Var := .fresh 2 .map
    let N : Var := ⟨"N", .map, false, none⟩
    let a (frame : Var) : Term := .map [(con "a", .int 1)] (some frame)
    let b (frame : Var) : Term := .map [(con "b", .int 2)] (some frame)
    let k (x : Var) (t : Term) : Term :=
      .app ⟨"k", 2, none, .constructor⟩ [.map [(con "c", .int 1)] (some x), t]
    let es : List Equation :=
      [⟨.var X, k Y (a M)⟩, ⟨.var Y, k X (b N)⟩, ⟨.var M, call "f"⟩, ⟨.var N, call "g"⟩,
        ⟨.var X, .var Y⟩, ⟨.var Y, .var X⟩,
        ⟨call "f", b (.fresh 0 .map)⟩, ⟨a (.fresh 0 .map), call "g"⟩,
        ⟨call "g", a (.fresh 1 .map)⟩, ⟨b (.fresh 1 .map), call "f"⟩]
    ∃ c d d' : Constraint, es.foldlM (Constraint.add T) .empty = .ok c ∧
      c.simplify T 4 false 0 = .ok (d, 2) ∧ d.truth = .unknown ∧
      d.simplify T 4 false 2 = .ok (d', 3) ∧ d'.truth = .false := by
  intro T con call X Y M N a b k es
  have hrun : ((es.foldlM (Constraint.add T) .empty).toOption.any fun c =>
      (c.simplify T 4 false 0).toOption.any fun r =>
        (r.1.simplify T 4 false 2).toOption.any fun r' =>
          r.2 == 2 && decide (r.1.truth = .unknown) && (r'.2 == 3 && decide (r'.1.truth = .false))) =
      true := by
    decide +kernel
  obtain ⟨c, hc, hrun⟩ := exists_eq_ok_of_any hrun
  obtain ⟨⟨d, n⟩, hd, hrun⟩ := exists_eq_ok_of_any hrun
  obtain ⟨⟨d', n'⟩, hd', htest⟩ := exists_eq_ok_of_any hrun
  obtain ⟨⟨rfl, htruth⟩, rfl, htruth'⟩ :
      (n = 2 ∧ d.truth = .unknown) ∧ n' = 3 ∧ d'.truth = .false := by simpa using htest
  exact ⟨c, d, d', hc, hd, htruth, hd', htruth'⟩

end Constraint

end SolvedForm

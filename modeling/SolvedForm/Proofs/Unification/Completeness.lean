import Mathlib
import SolvedForm.Proofs.Unification.Grounding
import SolvedForm.Proofs.Unification.Soundness
import SolvedForm.Proofs.Unification.Variables

/-!
Structural unification loses no solution.

* `Substitution.Ground`, `Substitution.ExtendsBy`: values without variables, and a substitution that
  binds the fresh frames of a range of numbers as well.
* `Decomposition.Completes`: a run fails at most on sorts, and a solution of what was found before
  can be extended to one of its outcome.
* `Decomposition.exists_pairs`: the entries of two maps that become equal can be paired.
* `Decomposition.completes_settle`, `Decomposition.completes_decompose`: what is left over between two
  maps that become equal, and terms that become equal.
* `Unifier.structural_complete`: where two terms become equal, the unifier finds an answer that
  holds, or complains of their sorts.
-/

namespace SolvedForm

open Term

variable {u v w : Substitution} {n m l : Nat}

/-! ### Fresh frames -/

namespace Substitution

/-- The substitution `w` binds what `u` binds, and the fresh frames with numbers from `n` to below `m`
to maps without frame. -/
structure ExtendsBy (w u : Substitution) (n m : Nat) : Prop where
  values : w.Extends u
  keys : ∀ z ∈ w.keys, z ∈ u.keys ∨ ∃ k, n ≤ k ∧ k < m ∧ z = .fresh k .map
  frames : ∀ k, n ≤ k → k < m → ∃ rest, w.find? (.fresh k .map) = some (.map rest none)

/-- No fresh frame with a number from `n` to below `m` is bound. -/
def Spares (u : Substitution) (n m : Nat) : Prop := ∀ k, n ≤ k → k < m → .fresh k .map ∉ u.keys

lemma ExtendsBy.refl (u : Substitution) (n : Nat) : u.ExtendsBy u n n :=
  ⟨.refl u, fun _ => .inl, fun _ hn hm => absurd hm (Nat.not_lt.mpr hn)⟩

lemma ExtendsBy.trans (h : v.ExtendsBy u n m) (h' : w.ExtendsBy v m l) (hn : n ≤ m) (hl : m ≤ l) :
    w.ExtendsBy u n l where
  values := h'.values.trans h.values
  keys z hz := by
    rcases h'.keys z hz with hz | ⟨k, hm, hk, rfl⟩
    · rcases h.keys z hz with hz | ⟨k, hk, hm, rfl⟩
      · exact .inl hz
      · exact .inr ⟨k, hk, by omega, rfl⟩
    · exact .inr ⟨k, by omega, hk, rfl⟩
  frames k hk hl := by
    by_cases hm : k < m
    · obtain ⟨rest, hrest⟩ := h.frames k hk hm
      exact ⟨rest, h'.values.find? hrest⟩
    · exact h'.frames k (Nat.le_of_not_lt hm) hl

lemma Spares.mono (h : u.Spares n l) (hm : m ≤ l) : u.Spares n m :=
  fun k hk hkm => h k hk (by omega)

lemma Spares.extend (h : u.Spares n l) (hw : w.ExtendsBy u n m) (hn : n ≤ m) : w.Spares m l := by
  intro k hm hl hk
  rcases hw.keys _ hk with hk | ⟨j, -, hj, heq⟩
  · exact h k (by omega) hl hk
  · exact absurd (Var.fresh_injective heq) (by omega)

/-- The next fresh frame is bound to a map. -/
lemma extendsBy_insert {rest : List Entry} (h : .fresh n .map ∉ u.keys) :
    (u.insert (.fresh n .map) (.map rest none)).ExtendsBy u n (n + 1) where
  values := extends_insert h
  keys z hz := (mem_keys_insert.mp hz).symm.imp_right fun hz => ⟨n, by omega, by omega, hz⟩
  frames k hk hn := by
    obtain rfl : k = n := by omega
    exact ⟨rest, by rw [find?_insert, if_pos rfl]⟩

end Substitution

namespace Decomposition

variable {order : SortOrder} {fold : Bool} {p q : Progress} {s t left right : Term}
  {es fs : List Entry} {x y : Option Var} {z : Var} {e : Equation} {qs : List Equation}
  {result : Except Stuck Progress} {run : Progress → Except Stuck Progress}

/-! ### Runs that lose no solution -/

/-- The number of the next fresh variable after a run. -/
def supplyOf : Except Stuck Progress → Nat
  | .ok q => q.supply
  | .error stuck => stuck.supply

/-- The progress is solved, whatever else is bound. -/
def Progress.Holds (u : Substitution) (p : Progress) : Prop := ∀ w, w.Extends u → p.SolvedBy w

/-- The run failed on sorts, or what it found holds when the frames that it made are bound. -/
def Completed (u : Substitution) (n : Nat) : Except Stuck Progress → Prop
  | .error stuck => ∃ l r, stuck.failure = .sortClash l r
  | .ok q => ∃ w, w.ExtendsBy u n q.supply ∧ w.Ground ∧ q.Holds w

/-- A run from `p` draws numbers in order, and it loses no solution of `p` that extends `u`. -/
structure Completes (u : Substitution) (p : Progress) (result : Except Stuck Progress) : Prop where
  climbs : p.supply ≤ supplyOf result
  completed {v : Substitution} : v.Extends u → v.Ground → p.Holds v →
    v.Spares p.supply (supplyOf result) → Completed v p.supply result

lemma Completed.of_extendsBy (hn : n ≤ m) (hm : m ≤ supplyOf result) (hv : v.ExtendsBy u n m)
    (h : Completed v m result) : Completed u n result := by
  cases result with
  | error stuck => exact h
  | ok q =>
      obtain ⟨w, hw, hground, hq⟩ := h
      exact ⟨w, hv.trans hw hn hm, hground, hq⟩

lemma climbs_bind (h : n ≤ supplyOf result) (h' : ∀ q, q.supply ≤ supplyOf (run q)) :
    n ≤ supplyOf (result >>= run) := by
  cases result with
  | error stuck => exact h
  | ok q => exact Nat.le_trans h (h' q)

lemma Completes.bind (h : Completes u p result) (h' : ∀ q, Completes u q (run q)) :
    Completes u p (result >>= run) := by
  refine ⟨climbs_bind h.climbs fun q => (h' q).climbs, fun {v} hv hground hp hspares => ?_⟩
  cases result with
  | error stuck => exact h.completed hv hground hp hspares
  | ok q =>
      have hq : q.supply ≤ supplyOf (run q) := (h' q).climbs
      obtain ⟨w, hw, hground, hq'⟩ := h.completed hv hground hp (hspares.mono hq)
      exact .of_extendsBy h.climbs hq hw
        ((h' q).completed (hw.values.trans hv) hground hq' (hspares.extend hw h.climbs))

/-- A run that makes a fresh frame, for which some map can be put. -/
lemma Completes.mint (hclimbs : p.supply + 1 ≤ supplyOf result)
    (h : ∀ {v : Substitution}, v.Extends u → v.Ground → .fresh p.supply .map ∉ v.keys → ∃ rest,
      let w := v.insert (.fresh p.supply .map) (.map rest none)
      w.Ground ∧ Completes w { p with supply := p.supply + 1 } result) : Completes u p result := by
  refine ⟨Nat.le_of_succ_le hclimbs, fun {v} hv hground hp hspares => ?_⟩
  have hz : .fresh p.supply .map ∉ v.keys := hspares p.supply (Nat.le_refl _) hclimbs
  obtain ⟨rest, hground, hrun⟩ := h hv hground hz
  have hw : (v.insert (.fresh p.supply .map) (.map rest none)).ExtendsBy v p.supply (p.supply + 1) :=
    Substitution.extendsBy_insert hz
  have hholds : Progress.Holds (v.insert (.fresh p.supply .map) (.map rest none))
      { p with supply := p.supply + 1 } := fun w' hw' => by
    have hp' := hp w' (hw'.trans hw.values)
    exact ⟨hp'.equations, hp'.alternatives⟩
  exact .of_extendsBy (Nat.le_succ _) hclimbs hw
    (hrun.completed (.refl _) hground hholds (hspares.extend hw (Nat.le_succ _)))

/-- A run that binds no frame. -/
lemma completes_of_holds (hsupply : q.supply = p.supply)
    (h : ∀ v : Substitution, v.Extends u → p.SolvedBy v → q.SolvedBy v) : Completes u p (.ok q) := by
  refine ⟨Nat.le_of_eq hsupply.symm, fun {v} hv hground hp _ => ⟨v, ?_, hground, fun w hw => ?_⟩⟩
  · rw [hsupply]
    exact .refl v p.supply
  · exact h w (hw.trans hv) (hp w hw)

lemma completes_ok : Completes u p (.ok p) := completes_of_holds rfl fun _ _ h => h

lemma completes_push (h : ∀ v : Substitution, v.Extends u → v.Unifies qs) :
    Completes u p (.ok (p.push qs)) :=
  completes_of_holds rfl fun v hv hp => Progress.solvedBy_push.mpr ⟨hp, h v hv⟩

lemma completes_push_single (h : ∀ v : Substitution, v.Extends u → v.apply e.left = v.apply e.right) :
    Completes u p (.ok (p.push [e])) :=
  completes_push fun v hv => List.forall_mem_singleton.mpr (h v hv)

lemma climbs_equateVar (h : n ≤ p.supply) : n ≤ supplyOf (equateVar order z t e p) := by
  unfold equateVar
  split
  · exact h
  · split <;> exact h

/-- An equation between a variable and a term that become equal fails at most on sorts. -/
lemma completes_equateVar (hz : z ∈ u.keys) (ht : t.Grounded u) (hne : t ≠ .var z)
    (h : u.apply (.var z) = u.apply t) (he : e = ⟨.var z, t⟩ ∨ e = ⟨t, .var z⟩) :
    Completes u p (equateVar order z t e p) := by
  have hsides : ∀ v : Substitution, v.Extends u → v.apply e.left = v.apply e.right := fun v hv => by
    have heq := Grounded.apply_eq_of_extends (.var hz) ht h hv
    rcases he with rfl | rfl
    · exact heq
    · exact heq.symm
  unfold equateVar
  split
  · exact ⟨Nat.le_refl _, fun _ _ _ _ => ⟨_, _, rfl⟩⟩
  · split
    · next ho => exact absurd h (ht.ne_of_occursRigidly hne ho)
    · exact completes_push_single hsides

/-- Two terms that become equal have no different heads. -/
lemma completes_keep (hs : s.Grounded u) (ht : t.Grounded u) (h : u.apply s = u.apply t) :
    Completes u p (keep ⟨s, t⟩ p) := by
  unfold keep
  split
  · next hc => exact absurd h (hs.ne_of_headsClash ht hc)
  · exact completes_push_single fun v hv => hs.apply_eq_of_extends ht h hv

/-! ### What is left over between two maps -/

/-- The entries of two maps that become equal can be paired. -/
lemma exists_pairs (h : (u.images es).Perm (u.images fs))
    (hes : ∀ e ∈ es, e.1.Grounded u ∧ e.2.Grounded u)
    (hfs : ∀ f ∈ fs, f.1.Grounded u ∧ f.2.Grounded u) :
    ∃ qs, Pairing.Pairs es fs qs ∧ ∀ v : Substitution, v.Extends u → v.Unifies qs := by
  induction es generalizing fs with
  | nil => exact ⟨[], .nil, by simp [Substitution.Unifies]⟩
  | cons e es ih =>
      rw [List.forall_mem_cons] at hes
      obtain ⟨f, hf, heq⟩ := Substitution.mem_images.mp (h.subset List.mem_cons_self)
      obtain ⟨hkey, hvalue⟩ := Prod.mk.injEq .. ▸ heq
      obtain ⟨rest, hpick⟩ := Pairing.exists_mem_picks hf
      have hperm := Pairing.perm_of_mem_picks hpick
      have hrest : (u.images es).Perm (u.images rest) := by
        have himages : (u.images (e :: es)).Perm (u.images (f :: rest)) := h.trans (hperm.symm.map _)
        rw [Substitution.images, Substitution.images, List.map_cons, List.map_cons, heq] at himages
        exact himages.cons_inv
      obtain ⟨qs, hpairs, hqs⟩ := ih hrest hes.2 fun g hg =>
        hfs g (hperm.subset (List.mem_cons_of_mem f hg))
      have hdistinct : e.1.provablyDistinct f.1 = false := by
        rw [← Bool.not_eq_true]
        exact fun hd => hes.1.1.ne_of_provablyDistinct (hfs f hf).1 hd hkey.symm
      refine ⟨_, .cons hpick hdistinct hpairs, fun v hv => List.forall_mem_append.mpr ⟨?_, hqs v hv⟩⟩
      intro q hq
      have hq := (List.mem_filter.mp hq).1
      simp only [List.mem_cons, List.not_mem_nil, or_false] at hq
      rcases hq with rfl | rfl
      · exact hes.1.1.apply_eq_of_extends (hfs f hf).1 hkey.symm hv
      · exact hes.1.2.apply_eq_of_extends (hfs f hf).2 hvalue.symm hv

/-- Entries whose keys may coincide: the equation that remains holds, and so does a pairing. -/
lemma completes_settleAmbiguous (hs : (Term.map es x).Grounded u) (ht : (Term.map fs y).Grounded u)
    (h : u.apply (.map es x) = u.apply (.map fs y)) :
    Completes u p (settleAmbiguous fold right es x fs y p) := by
  have residual : Completes u p (.ok (p.push [⟨.ofEntries es x, .ofEntries fs y⟩])) :=
    completes_push_single fun v hv => by
      rw [Substitution.apply_ofEntries_eq_map, Substitution.apply_ofEntries_eq_map]
      exact hs.apply_eq_of_extends ht h hv
  rw [settleAmbiguous_eq]
  split
  · exact residual
  · next hfold =>
      rw [Bool.not_eq_true', Bool.not_eq_false] at hfold
      simp only [Bool.and_eq_true, Option.isNone_iff_eq_none, beq_iff_eq] at hfold
      obtain ⟨⟨⟨⟨-, hnone⟩, rfl⟩, rfl⟩, -⟩ := hfold
      obtain ⟨qs, hpairs, hqs⟩ := exists_pairs (hs.images_perm ht h) hs.entries ht.entries
      have found : (Pairing.firstN (maxAlternatives + 1) es fs).length < maxAlternatives + 1 →
          qs ∈ Pairing.firstN (maxAlternatives + 1) es fs := Pairing.mem_firstN hpairs
      split
      · next hnil =>
          rw [hnil] at found
          exact absurd (found (by decide)) List.not_mem_nil
      · next only honly =>
          simp only [honly, List.length_singleton, List.mem_singleton] at found
          exact completes_push (found (by decide) ▸ hqs)
      · split
        · exact residual
        · next hfew =>
            refine completes_of_holds rfl fun v hv hp => ⟨hp.equations, fun as has => ?_⟩
            obtain rfl := Option.some.inj has
            exact ⟨qs, found (by omega), hqs v hv⟩

/-- Two frames share a fresh one, which the rest of both is put for. -/
lemma completes_shared {a b : Var} (hs : (Term.map es (some a)).Grounded u)
    (ht : (Term.map fs (some b)).Grounded u)
    (h : u.apply (.map es (some a)) = u.apply (.map fs (some b)))
    (hdisjoint : ∀ c ∈ u.images es, c ∉ u.images fs) :
    Completes u p (do
      let z := Var.fresh p.supply .map
      let p ← equateVar order a (.ofEntries fs (some z)) ⟨.var a, .ofEntries fs (some z)⟩
        { p with supply := p.supply + 1 }
      equateVar order b (.ofEntries es (some z)) ⟨.ofEntries es (some z), .var b⟩ p) := by
  refine .mint (climbs_bind (climbs_equateVar (Nat.le_refl _)) fun _ =>
    climbs_equateVar (Nat.le_refl _)) fun {v} hv hground hz => ?_
  obtain ⟨rest, hw, hes, hfs, ha, hb⟩ := Grounded.exists_shared hground (hs.extend hv) (ht.extend hv)
    (hs.apply_eq_of_extends ht h hv)
    (by rwa [Grounded.images_eq hs.entries hv, Grounded.images_eq ht.entries hv]) hz
  refine ⟨rest, hw, (completes_equateVar ?_ hfs.ofEntries nofun ha (.inl rfl)).bind fun q =>
    completes_equateVar ?_ hes.ofEntries nofun hb (.inr rfl)⟩
  · exact Substitution.mem_keys_insert.mpr (.inr (hv.mem_keys (hs.mem_keys a (by simp))))
  · exact Substitution.mem_keys_insert.mpr (.inr (hv.mem_keys (ht.mem_keys b (by simp))))

/-- Entries whose keys cannot coincide: each goes to the frame of the other map, or to one that both
share. -/
lemma completes_settleRest (hu : u.Ground) (hs : (Term.map es x).Grounded u)
    (ht : (Term.map fs y).Grounded u) (h : u.apply (.map es x) = u.apply (.map fs y))
    (hdisjoint : ∀ c ∈ u.images es, c ∉ u.images fs) :
    Completes u p (settleRest order left right es x fs y p) := by
  have hmeet := (hs.apply_map_eq_iff ht).mp h
  simp only [Substitution.mem_allEntries] at hmeet
  have hleft : ∀ c ∈ u.images es, c ∈ u.frameEntries y := fun c hc =>
    ((hmeet c).mp (.inl hc)).resolve_left (hdisjoint c hc)
  have hright : ∀ c ∈ u.images fs, c ∈ u.frameEntries x := fun c hc =>
    ((hmeet c).mpr (.inl hc)).resolve_left fun hc' => hdisjoint c hc' hc
  have nil_of : ∀ {gs : List Entry}, (∀ c ∈ u.images gs, c ∈ u.frameEntries none) → gs = [] := by
    intro gs hgs
    cases gs with
    | nil => rfl
    | cons g gs => exact absurd (hgs _ List.mem_cons_self) List.not_mem_nil
  -- a frame becomes the entries of the other map where its own map has none
  have hx : ∀ {a}, x = some a → es = [] → u.apply (.var a) = u.apply (.ofEntries fs y) := by
    rintro a rfl rfl
    refine Grounded.apply_frame_eq hu (hs.frame a rfl) ht.frame fun c => ?_
    rw [Substitution.mem_allEntries, ← hmeet]
    exact (or_iff_right List.not_mem_nil).symm
  have hy : ∀ {b}, y = some b → fs = [] → u.apply (.var b) = u.apply (.ofEntries es x) := by
    rintro b rfl rfl
    refine Grounded.apply_frame_eq hu (ht.frame b rfl) hs.frame fun c => ?_
    rw [Substitution.mem_allEntries, hmeet]
    exact (or_iff_right List.not_mem_nil).symm
  cases x with
  | none =>
      obtain rfl := nil_of hright
      cases y with
      | none =>
          obtain rfl := nil_of hleft
          exact completes_ok
      | some b =>
          have hb : b ∈ u.keys := ht.mem_keys b (by simp)
          exact completes_equateVar hb hs.ofEntries nofun (hy rfl rfl) (.inr rfl)
  | some a =>
      have ha : a ∈ u.keys := hs.mem_keys a (by simp)
      cases y with
      | none =>
          obtain rfl := nil_of hleft
          exact completes_equateVar ha ht.ofEntries nofun (hx rfl rfl) (.inl rfl)
      | some b =>
          have hb : b ∈ u.keys := ht.mem_keys b (by simp)
          unfold settleRest
          simp only
          split
          · next hab =>
              subst hab
              split
              · exact absurd (hleft _ List.mem_cons_self) (hs.disjoint_frameEntries List.mem_cons_self)
              · exact absurd (hright _ List.mem_cons_self) (ht.disjoint_frameEntries List.mem_cons_self)
              · exact completes_ok
          · next hab =>
              split
              · have hba : u.apply (.var b) = u.apply (.ofEntries [] (some b)) :=
                  Grounded.apply_frame_eq hu (ht.frame b rfl) ht.frame fun c => .rfl
                exact completes_equateVar ha (.var hb) (by simpa using Ne.symm hab)
                  ((hx rfl rfl).trans hba.symm) (.inl rfl)
              · exact completes_equateVar ha ht.ofEntries nofun (hx rfl rfl) (.inl rfl)
              · exact completes_equateVar hb hs.ofEntries nofun (hy rfl rfl) (.inr rfl)
              · exact completes_shared hs ht h hdisjoint

/-- What is left over between two maps that become equal. -/
theorem completes_settle (hu : u.Ground) (hs : (Term.map es x).Grounded u)
    (ht : (Term.map fs y).Grounded u) (h : u.apply (.map es x) = u.apply (.map fs y)) :
    Completes u p (settle order fold left right es x fs y p) := by
  unfold settle
  split
  · exact completes_settleAmbiguous hs ht h
  · next hd =>
      refine completes_settleRest hu hs ht h fun c hes hfs => ?_
      obtain ⟨e, he, rfl⟩ := Substitution.mem_images.mp hes
      obtain ⟨f, hf, heq⟩ := Substitution.mem_images.mp hfs
      simp only [ambiguous, List.any_eq_true, Bool.not_eq_true', not_exists, not_and,
        Bool.not_eq_false] at hd
      exact (hs.entries e he).1.ne_of_provablyDistinct (ht.entries f hf).1 (hd e he f hf)
        (congrArg Prod.fst heq).symm

/-! ### Decomposition -/

/-- The decomposition of an equation with the left side `s` loses no solution. -/
def CompletesAt (u : Substitution) (order : SortOrder) (fold : Bool) (s : Term) : Prop :=
  ∀ ⦃t p⦄, s.Grounded u → t.Grounded u → u.apply s = u.apply t →
    Completes u p (decompose order fold s t p)

lemma completes_decomposeArgs {ss ts : List Term} (ih : ∀ s ∈ ss, CompletesAt u order fold s)
    (hss : ∀ s ∈ ss, s.Grounded u) (hts : ∀ t ∈ ts, t.Grounded u)
    (h : ss.map u.apply = ts.map u.apply) : Completes u p (decomposeArgs order fold ss ts p) := by
  induction ss generalizing ts p with
  | nil => exact completes_ok
  | cons s ss ihs =>
      cases ts with
      | nil => exact completes_ok
      | cons t ts =>
          rw [List.forall_mem_cons] at ih hss hts
          obtain ⟨hst, h⟩ := List.cons.injEq .. ▸ h
          exact (ih.1 hss.1 hts.1 hst).bind fun q => ihs ih.2 hss.2 hts.2 h

lemma completes_decomposeEntries (ih : ∀ e ∈ es, CompletesAt u order fold e.2)
    (hes : ∀ e ∈ es, e.2.Grounded u) (hfs : ∀ f ∈ fs, f.2.Grounded u) (h : u.Matches es fs) :
    Completes u p (decomposeEntries order fold es fs p) := by
  induction es generalizing p with
  | nil => exact completes_ok
  | cons e es ihe =>
      obtain ⟨k, v⟩ := e
      rw [List.forall_mem_cons] at ih hes
      obtain ⟨hvalue, h⟩ := List.forall_mem_cons.mp h
      rw [decomposeEntries]
      cases hw : List.lookup k fs with
      | none => exact ihe ih.2 hes.2 h
      | some w =>
          exact (ih.1 hes.1 (hfs _ (mem_of_lookup hw)) (hvalue w hw)).bind fun q => ihe ih.2 hes.2 h

/-- The decomposition of the equation between two terms that become equal loses no solution. -/
theorem completes_decompose (hu : u.Ground) (s : Term) : CompletesAt u order fold s := by
  -- the case of one term, when its arguments and values have been dealt with
  have step : ∀ s : Term, (∀ f ss, s = .app f ss → ∀ a ∈ ss, CompletesAt u order fold a) →
      (∀ es x, s = .map es x → ∀ e ∈ es, CompletesAt u order fold e.2) →
      CompletesAt u order fold s := by
    intro s hargs hentries t p hs ht h
    have hd := decomposed order fold s t
    generalize decompose order fold s t = run at hd
    cases hd with
    | same => exact completes_ok
    | left hne =>
        exact completes_equateVar (hs.mem_keys _ (by simp)) ht hne.symm h (.inl rfl)
    | right hne =>
        exact completes_equateVar (ht.mem_keys _ (by simp)) hs hne h.symm (.inr rfl)
    | clash hf hg hclash =>
        rw [Substitution.apply_app, Substitution.apply_app] at h
        obtain ⟨rfl, hargs⟩ := Term.app.injEq .. ▸ h
        have hlength := congrArg List.length hargs
        rw [List.length_map, List.length_map] at hlength
        exact absurd hclash (by simp [hlength])
    | args =>
        rw [Substitution.apply_app, Substitution.apply_app] at h
        exact completes_decomposeArgs (hargs _ _ rfl) hs.args ht.args (Term.app.injEq .. ▸ h).2
    | @sizes es fs x y hsizes =>
        simp only [sizesDiffer, Bool.and_eq_true, Option.isNone_iff_eq_none, bne_iff_ne] at hsizes
        obtain ⟨⟨rfl, rfl⟩, hne⟩ := hsizes
        exact absurd (hs.length_eq ht h) hne
    | @entries es fs x y =>
        have hvalues := completes_decomposeEntries (p := p) (hentries _ _ rfl)
          (fun e he => (hs.entries e he).2) (fun f hf => (ht.entries f hf).2) (hs.matches_of_eq ht h)
        exact hvalues.bind fun q => completes_settle hu (hs.sublist List.filter_sublist)
          (ht.sublist List.filter_sublist) (hs.apply_leftover_eq ht h)
    | kept => exact completes_keep hs ht h
  induction s using Term.ind with
  | app f args ih =>
      refine step _ ?_ (by simp)
      rintro _ _ ⟨⟩
      exact ih
  | map entries frame ih =>
      refine step _ (by simp) ?_
      rintro _ _ ⟨⟩
      exact fun e he => (ih e he).2
  | var | bool | int | lookup => exact step _ (by simp) (by simp)

end Decomposition

/-! ### The unifier -/

/-- Where a substitution without variables in its values makes two terms equal, the unifier complains
of their sorts, or the substitution extends to the frames that were made and solves the answer. -/
theorem Unifier.structural_complete {order : SortOrder} {fold : Bool} {s t : Term} {n : Nat}
    {u : Substitution} (hu : u.Ground) (hkeys : ∀ z ∈ u.keys, z ∈ s.vars ∨ z ∈ t.vars)
    (hs : s.Grounded u) (ht : t.Grounded u) (h : u.apply s = u.apply t)
    (hfresh : ∀ k, n ≤ k → k < (Unifier.structural order fold ⟨s, t⟩ n).2 →
      Var.fresh k .map ∉ s.vars ∧ Var.fresh k .map ∉ t.vars) :
    (∃ l r m, Unifier.structural order fold ⟨s, t⟩ n = (.error (.sortClash l r), m)) ∨
      ∃ answer m w, Unifier.structural order fold ⟨s, t⟩ n = (.ok answer, m) ∧
        w.ExtendsBy u n m ∧ w.Ground ∧ answer.SolvedBy w := by
  have hrun : Decomposition.Completes u ⟨[], none, n⟩
      (Decomposition.decompose order fold s t ⟨[], none, n⟩) :=
    Decomposition.completes_decompose hu s hs ht h
  have hspares : ∀ m, m = (Unifier.structural order fold ⟨s, t⟩ n).2 → u.Spares n m := by
    rintro m rfl k hk hm hz
    exact (hkeys _ hz).elim (hfresh k hk hm).1 (hfresh k hk hm).2
  have hholds : Decomposition.Progress.Holds u ⟨[], none, n⟩ := fun w _ => ⟨by
    simp [Substitution.Unifies], nofun⟩
  unfold structural at hspares ⊢
  simp only at hspares ⊢
  cases hd : Decomposition.decompose order fold s t ⟨[], none, n⟩ with
  | error stuck =>
      rw [hd] at hrun hspares
      obtain ⟨l, r, hfailure⟩ := hrun.completed (.refl u) hu hholds (hspares _ rfl)
      exact .inl ⟨l, r, stuck.supply, by simp [hfailure]⟩
  | ok q =>
      rw [hd] at hrun hspares
      obtain ⟨w, hw, hground, hq⟩ := hrun.completed (.refl u) hu hholds (hspares _ rfl)
      exact .inr ⟨q.answer, q.supply, w, rfl, hw, hground,
        Decomposition.Progress.solvedBy_answer.mpr (hq w (.refl w))⟩

/-- Two maps with different keys and a common rest: the rest is put for the frame that they share. -/
theorem Unifier.structural_complete_frames :
    let x : Var := ⟨"X", .map, false, none⟩
    let y : Var := ⟨"Y", .map, false, none⟩
    let z : Var := .fresh 0 .map
    let s : Term := .map [(.int 1, .int 2)] (some x)
    let t : Term := .map [(.int 3, .int 4)] (some y)
    let u : Substitution := .ofList [(x, .map [(.int 3, .int 4), (.int 5, .int 6)] none),
      (y, .map [(.int 1, .int 2), (.int 5, .int 6)] none)]
    u.apply s = u.apply t ∧ ∃ w : Substitution, w.ExtendsBy u 0 1 ∧ w.Ground ∧
      (Unification.unique [⟨.var x, .map [(.int 3, .int 4)] (some z)⟩,
        ⟨.map [(.int 1, .int 2)] (some z), .var y⟩]).SolvedBy w := by
  intro x y z s t u
  have hrun : Unifier.structural Subsorts.builtin.order true ⟨s, t⟩ 0 =
      (.ok (.unique [⟨.var x, .map [(.int 3, .int 4)] (some z)⟩,
        ⟨.map [(.int 1, .int 2)] (some z), .var y⟩]), 1) := by cbv
  have heq : u.apply s = u.apply t := by cbv
  have hvalue : ∀ i j k l : Int64, compareEntry (.int i, .int j) (.int k, .int l) = .lt →
      (Term.map [(.int i, .int j), (.int k, .int l)] none).Canonical ∧
        (Term.map [(.int i, .int j), (.int k, .int l)] none).vars = [] := by
    intro i j k l h
    refine ⟨.map _ (by simpa [Sorted.Increasing] using h) ?_ ?_, rfl⟩ <;>
      simp only [List.forall_mem_cons, List.not_mem_nil, false_imp_iff, implies_true, and_true] <;>
      exact ⟨.int _, .int _⟩
  have hu : u.Ground := by
    have hlist : u.toList = [(x, .map [(.int 3, .int 4), (.int 5, .int 6)] none),
        (y, .map [(.int 1, .int 2), (.int 5, .int 6)] none)] := by decide
    rw [Substitution.Ground, hlist]
    simp only [List.forall_mem_cons, List.not_mem_nil, false_imp_iff, implies_true, and_true]
    exact ⟨hvalue 3 4 5 6 (by decide), hvalue 1 2 5 6 (by decide)⟩
  have hground : ∀ (i j : Int64) (v : Var) (rest : List Entry), u.find? v = some (.map rest none) →
      ((u.allEntries [(.int i, .int j)] (some v)).map (·.1)).Nodup →
      (Term.map [(.int i, .int j)] (some v)).Grounded u := fun i j v rest hv hkeys =>
    .map (fun w hw => Option.some.inj hw ▸ ⟨rest, hv⟩) hkeys
      (by simpa using Grounded.int i) (by simpa using Grounded.int j)
  have hs : s.Grounded u :=
    hground 1 2 x [(.int 3, .int 4), (.int 5, .int 6)] (by decide) (by decide)
  have ht : t.Grounded u :=
    hground 3 4 y [(.int 1, .int 2), (.int 5, .int 6)] (by decide) (by decide)
  have hfresh : ∀ k, 0 ≤ k → k < (Unifier.structural Subsorts.builtin.order true ⟨s, t⟩ 0).2 →
      Var.fresh k .map ∉ s.vars ∧ Var.fresh k .map ∉ t.vars := by
    intro k _ hk
    rw [hrun] at hk
    obtain rfl : k = 0 := by simpa using hk
    decide
  refine ⟨heq, ?_⟩
  rcases Unifier.structural_complete hu (by decide) hs ht heq hfresh with
    ⟨l, r, m, h⟩ | ⟨answer, m, w, h, hw⟩
  · rw [hrun] at h
    cases h
  · rw [hrun] at h
    cases h
    exact ⟨w, hw⟩

end SolvedForm

import SolvedForm.Proofs.Equivariance
import SolvedForm.Proofs.Unification.Progress
import SolvedForm.Proofs.Unification.Reading

/-!
Decomposition does not see the names of variables.

* `Decomposition.Mints`: a run that draws a fresh variable.
* `Decomposition.Alike`: two decompositions both fail, or both make equations, those of the second
  being those of the first under other names.
* `Decomposition.decompose_rename`: without folding, the decomposition of an equation and that of the
  renamed equation are alike, unless a fresh variable is drawn.
* `Unifier.structural_rename`: so are the answers of the unifier.
-/

namespace SolvedForm

open Term

variable {order : SortOrder} {ρ : Var → Var} {S : Var → Prop} {x : Var} {e : Equation}
  {s t : Term} {ss ts : List Term} {es fs : List Entry} {y z : Option Var}

/-- Renamed entries, in the old order. -/
abbrev Entry.renameAll (ρ : Var → Var) (es : List Entry) : List Entry :=
  es.map fun e => (e.1.rename ρ, e.2.rename ρ)

namespace Decomposition

lemma occursRigidly_rename (hρ : Renaming ρ S) (hx : S x) (ht : t.Ranges S) :
    occursRigidly (ρ x) (t.rename ρ) = occursRigidly x t := by
  induction t using Term.ind with
  | var y =>
      rw [rename_var, occursRigidly, occursRigidly]
      exact decide_eq_decide.mpr ⟨hρ.injective (Ranges.var_iff.mp ht) hx, congrArg ρ⟩
  | app f args ih =>
      have hargs := Ranges.app_iff.mp ht
      have hany : occursRigidlyArgs (ρ x) (args.map (rename ρ)) = occursRigidlyArgs x args := by
        rw [Bool.eq_iff_iff, Reading.occursRigidlyArgs_iff, Reading.occursRigidlyArgs_iff]
        simp only [List.mem_map, exists_exists_and_eq_and]
        exact exists_congr fun a => and_congr_right fun ha => by rw [ih a ha (hargs a ha)]
      rw [rename_app, occursRigidly, occursRigidly, hany]
  | map es y ih =>
      obtain ⟨hes, hy⟩ := Ranges.map_iff.mp ht
      have hany : occursRigidlyEntries (ρ x) (Sorted.ofList compareEntry (Entry.renameAll ρ es)) =
          occursRigidlyEntries x es := by
        rw [Bool.eq_iff_iff, occursRigidlyEntries_iff, occursRigidlyEntries_iff]
        simp only [mem_ofEntries_iff, List.mem_map, exists_exists_and_eq_and]
        exact exists_congr fun e => and_congr_right fun he => by
          rw [(ih e he).1 (hes e he).1, (ih e he).2 (hes e he).2]
      have hempty : (Sorted.ofList compareEntry (Entry.renameAll ρ es)).isEmpty = es.isEmpty := by
        rw [Bool.eq_iff_iff, List.isEmpty_iff, List.isEmpty_iff, List.eq_nil_iff_forall_not_mem,
          List.eq_nil_iff_forall_not_mem]
        simp only [mem_ofEntries_iff]
        exact ⟨fun h e he => h _ (List.mem_map.mpr ⟨e, he, rfl⟩), fun h f hf => by
          obtain ⟨e, he, -⟩ := List.mem_map.mp hf
          exact h e he⟩
      have hframe : (y.map ρ = some (ρ x)) = (y = some x) := by
        cases y with
        | none => simp
        | some w =>
            rw [Option.map_some, Option.some.injEq, Option.some.injEq, eq_iff_iff]
            exact ⟨hρ.injective (hy w rfl) hx, congrArg ρ⟩
      rw [rename_map, Term.ofEntries, occursRigidly, occursRigidly, hany, hempty]
      simp only [hframe]
  | bool | int | lookup => rfl

/-! ### Runs -/

/-- Both decompositions fail, or the equations of the second are those of the first under other
names, and those of the first are between terms that evaluation treats alike. -/
inductive Alike (ρ : Var → Var) (S : Var → Prop) : Except Unification.Failure (List Equation) →
    Except Unification.Failure (List Equation) → Prop where
  | ok {es : List Equation} : (∀ e ∈ es, e.Follows ρ S) →
      Alike ρ S (.ok es) (.ok (es.map (·.map (rename ρ))))
  | error (failure failure' : Unification.Failure) : Alike ρ S (.error failure) (.error failure')

/-- The run draws a fresh variable, whether or not it fails then. -/
def Mints (run : Progress → Except Stuck Progress) : Prop :=
  ∀ p, match run p with
    | .ok q => p.supply < q.supply
    | .error stuck => p.supply < stuck.supply

/-- The first run draws a fresh variable, or the two runs come to answers that are alike, whatever has
been found before. -/
def RunsAlike (ρ : Var → Var) (S : Var → Prop) (run run' : Progress → Except Stuck Progress) :
    Prop :=
  Mints run ∨ ∃ r r', run = (·.finish r) ∧ run' = (·.finish r') ∧ Alike ρ S r r'

lemma runsAlike_ok : RunsAlike ρ S .ok .ok :=
  .inr ⟨.ok [], .ok [], funext fun p => congrArg Except.ok p.push_nil.symm,
    funext fun p => congrArg Except.ok p.push_nil.symm, .ok (List.forall_mem_nil _)⟩

lemma runsAlike_fail (failure failure' : Unification.Failure) :
    RunsAlike ρ S (·.fail failure) (·.fail failure') :=
  .inr ⟨.error failure, .error failure', rfl, rfl, .error failure failure'⟩

lemma runsAlike_push (he : e.Follows ρ S) :
    RunsAlike ρ S (fun p => .ok (p.push [e])) (fun p => .ok (p.push [e.map (rename ρ)])) :=
  .inr ⟨.ok [e], .ok [e.map (rename ρ)], rfl, rfl, .ok (List.forall_mem_singleton.mpr he)⟩

/-- What goes on after a run that has drawn a fresh variable does not give it back. -/
lemma Mints.bind {run next : Progress → Except Stuck Progress} (h : Mints run)
    (hnext : ∀ p : Progress, p.AdvancesTo false (next p)) : Mints fun p => run p >>= next := by
  intro p
  have hp := h p
  beta_reduce
  generalize run p = r at hp ⊢
  cases r with
  | error stuck => exact hp
  | ok q =>
      have hq := hnext q
      change match next q with
        | .ok r => p.supply < r.supply
        | .error stuck => p.supply < stuck.supply
      generalize next q = r at hq ⊢
      cases r with
      | error stuck => exact Nat.lt_of_lt_of_le hp hq
      | ok r => exact Nat.lt_of_lt_of_le hp hq.supply

/-- A run that starts with the number after the next draws the next one. -/
lemma mints_draw {next : Progress → Progress → Except Stuck Progress}
    (h : ∀ p q : Progress, q.AdvancesTo false (next p q)) :
    Mints fun p => next p { p with supply := p.supply + 1 } := by
  intro p
  have hp := h p { p with supply := p.supply + 1 }
  beta_reduce
  generalize next p _ = r at hp ⊢
  cases r with
  | error stuck => exact hp
  | ok q => exact hp.supply

/-- Runs after runs that are alike are alike. -/
lemma RunsAlike.bind {run run' next next' : Progress → Except Stuck Progress}
    (h : RunsAlike ρ S run run') (hnext : RunsAlike ρ S next next')
    (hadvances : ∀ p : Progress, p.AdvancesTo false (next p)) :
    RunsAlike ρ S (fun p => run p >>= next) (fun p => run' p >>= next') := by
  rcases h with hmints | ⟨r, r', rfl, rfl, h⟩
  · exact .inl (hmints.bind hadvances)
  · cases h with
    | error failure failure' => exact runsAlike_fail failure failure'
    | @ok es hes =>
        rcases hnext with hmints | ⟨q, q', rfl, rfl, hnext⟩
        · exact .inl fun p => hmints (p.push es)
        · cases hnext with
          | error failure failure' => exact runsAlike_fail failure failure'
          | @ok fs hfs =>
              have happend : ∀ (p : Progress) (gs hs : List Equation),
                  (p.push gs).push hs = p.push (gs ++ hs) := fun p gs hs => by simp [Progress.push]
              refine .inr ⟨.ok (es ++ fs), .ok ((es ++ fs).map (·.map (rename ρ))), ?_, ?_,
                .ok (List.forall_mem_append.mpr ⟨hes, hfs⟩)⟩
              · exact funext fun p => congrArg Except.ok (happend p es fs)
              · rw [List.map_append]
                exact funext fun p => congrArg Except.ok (happend p _ _)

lemma runsAlike_equateVar (hρ : Renaming ρ S) (hx : S x) (ht : t.Ranges S) (he : e.Follows ρ S) :
    RunsAlike ρ S (equateVar order x t e)
      (equateVar order (ρ x) (t.rename ρ) (e.map (rename ρ))) := by
  unfold equateVar
  rw [hρ.sort hx, sort_rename hρ ht, occursRigidly_rename hρ hx ht]
  split_ifs
  · exact runsAlike_fail _ _
  · exact runsAlike_fail _ _
  · exact runsAlike_push he

lemma runsAlike_keep (hρ : Renaming ρ S) (he : e.Follows ρ S) :
    RunsAlike ρ S (keep e) (keep (e.map (rename ρ))) := by
  unfold keep
  rw [Equation.map_left, Equation.map_right,
    headsClash_rename hρ.injective he.1.toCanonicalOver he.2.toCanonicalOver]
  split_ifs
  · exact runsAlike_fail _ _
  · exact runsAlike_push he

/-- The equation between two terms is decomposed in the same way under other names. -/
abbrev DecomposesAlike (order : SortOrder) (ρ : Var → Var) (S : Var → Prop) (s t : Term) : Prop :=
  RunsAlike ρ S (decompose order false s t) (decompose order false (s.rename ρ) (t.rename ρ))

lemma runsAlike_decomposeArgs (ih : ∀ s ∈ ss, ∀ t ∈ ts, DecomposesAlike order ρ S s t) :
    RunsAlike ρ S (decomposeArgs order false ss ts)
      (decomposeArgs order false (ss.map (rename ρ)) (ts.map (rename ρ))) := by
  induction ss generalizing ts with
  | nil => exact runsAlike_ok
  | cons s ss ihs =>
      cases ts with
      | nil => exact runsAlike_ok
      | cons t ts =>
          exact (ih s List.mem_cons_self t List.mem_cons_self).bind
            (ihs fun s hs t ht => ih s (List.mem_cons_of_mem _ hs) t (List.mem_cons_of_mem _ ht))
            fun p => advances_decomposeArgs (fun s _ => advances_decompose order false s) p

/-! ### Maps -/

/-- The values under the first key come first. -/
lemma decomposeEntries_cons (fold : Bool) (k v : Term) :
    decomposeEntries order fold ((k, v) :: es) fs = fun p =>
      (match valueAt k fs with
        | some w => decompose order fold v w p
        | none => .ok p) >>= decomposeEntries order fold es fs := by
  funext p
  rw [decomposeEntries]
  unfold valueAt
  cases List.lookup k fs <;> rfl

lemma runsAlike_decomposeEntries (hρ : Renaming ρ S) (hes : ∀ e ∈ es, e.1.CanonicalOver S)
    (hfs : ∀ f ∈ fs, f.1.CanonicalOver S)
    (ih : ∀ e ∈ es, ∀ f ∈ fs, DecomposesAlike order ρ S e.2 f.2) :
    RunsAlike ρ S (decomposeEntries order false es fs)
      (decomposeEntries order false (Entry.renameAll ρ es) (Entry.renameAll ρ fs)) := by
  induction es with
  | nil => exact runsAlike_ok
  | cons e es ihe =>
      obtain ⟨k, v⟩ := e
      rw [List.forall_mem_cons] at hes ih
      have hrest := ihe hes.2 ih.2
      have hadvances : ∀ p : Progress, p.AdvancesTo false (decomposeEntries order false es fs p) :=
        fun p => advances_decomposeEntries (fun e _ => advances_decompose order false e.2) p
      have hfirst : RunsAlike ρ S
          (fun p => match valueAt k fs with
            | some w => decompose order false v w p
            | none => .ok p)
          (fun p => match (valueAt k fs).map (rename ρ) with
            | some w => decompose order false (v.rename ρ) w p
            | none => .ok p) := by
        cases hw : valueAt k fs with
        | none => exact runsAlike_ok
        | some w =>
            obtain ⟨f, hf, rfl⟩ := mem_of_valueAt hw
            exact ih.1 f hf
      have hcons := hfirst.bind hrest hadvances
      rw [← valueAt_rename hρ.injective hes.1 hfs] at hcons
      rw [Entry.renameAll, List.map_cons, decomposeEntries_cons, decomposeEntries_cons]
      exact hcons

lemma leftover_rename (hρ : Renaming ρ S) (hes : ∀ e ∈ es, e.1.CanonicalOver S)
    (hfs : ∀ f ∈ fs, f.1.CanonicalOver S) :
    leftover (Entry.renameAll ρ es) (Entry.renameAll ρ fs) = Entry.renameAll ρ (leftover es fs) := by
  unfold leftover Entry.renameAll
  rw [List.filter_map]
  refine congrArg _ (List.filter_congr fun e he => ?_)
  have hany : (fs.map fun f => (f.1.rename ρ, f.2.rename ρ)).any (fun f => f.1 = e.1.rename ρ) =
      fs.any fun f => f.1 = e.1 := by
    rw [Bool.eq_iff_iff, List.any_eq_true, List.any_eq_true]
    simp only [List.mem_map, exists_exists_and_eq_and, decide_eq_true_eq]
    exact exists_congr fun f => and_congr_right fun hf =>
      rename_eq_rename_iff hρ.injective (hfs f hf) (hes e he)
  exact congrArg _ hany

lemma ambiguous_rename (hρ : Renaming ρ S) (hes : ∀ e ∈ es, e.1.CanonicalOver S)
    (hfs : ∀ f ∈ fs, f.1.CanonicalOver S) :
    ambiguous (Entry.renameAll ρ es) (Entry.renameAll ρ fs) = ambiguous es fs := by
  unfold ambiguous
  rw [Bool.eq_iff_iff, List.any_eq_true, List.any_eq_true]
  simp only [List.mem_map, exists_exists_and_eq_and, List.any_eq_true]
  exact exists_congr fun e => and_congr_right fun he => exists_congr fun f =>
    and_congr_right fun hf => by rw [provablyDistinct_rename hρ.injective (hes e he) (hfs f hf)]

section Leftovers

variable (hk : KeepsOrder ρ S) (hes : ∀ e ∈ es, e.1.Follows ρ S ∧ e.2.Follows ρ S)
  (hy : ∀ x, y = some x → S x) (hfs : ∀ f ∈ fs, f.1.Follows ρ S ∧ f.2.Follows ρ S)
  (hz : ∀ x, z = some x → S x)
include hk hes hy hfs hz

lemma runsAlike_settleAmbiguous (s t : Term) :
    RunsAlike ρ S (settleAmbiguous false t es y fs z)
      (settleAmbiguous false s (Entry.renameAll ρ es) (y.map ρ) (Entry.renameAll ρ fs)
        (z.map ρ)) := by
  have hpush := runsAlike_push (e := ⟨.ofEntries es y, .ofEntries fs z⟩)
    ⟨Follows.ofEntries hk hes hy, Follows.ofEntries hk hfs hz⟩
  rw [Equation.map, rename_ofEntries, rename_ofEntries] at hpush
  exact hpush

/-- The leftovers go to the frames in the same way, unless two frames share a fresh one. -/
lemma runsAlike_settleRest (hρ : Renaming ρ S) {s t s' t' : Term} :
    RunsAlike ρ S (settleRest order s t es y fs z)
      (settleRest order s' t' (Entry.renameAll ρ es) (y.map ρ) (Entry.renameAll ρ fs) (z.map ρ)) := by
  have left : ∀ x {gs : List Entry} {w : Option Var}, S x →
      (∀ e ∈ gs, e.1.Follows ρ S ∧ e.2.Follows ρ S) → (∀ x, w = some x → S x) →
      RunsAlike ρ S (equateVar order x (.ofEntries gs w) ⟨.var x, .ofEntries gs w⟩)
        (equateVar order (ρ x) (.ofEntries (Entry.renameAll ρ gs) (w.map ρ))
          ⟨.var (ρ x), .ofEntries (Entry.renameAll ρ gs) (w.map ρ)⟩) := by
    intro x gs w hx hgs hw
    have hmap := Follows.ofEntries hk hgs hw
    have h : RunsAlike ρ S (equateVar order x (.ofEntries gs w) ⟨.var x, .ofEntries gs w⟩) _ :=
      runsAlike_equateVar hρ hx hmap.ranges ⟨.var hx, hmap⟩
    rwa [Equation.map, rename_ofEntries] at h
  have right : ∀ x {gs : List Entry} {w : Option Var}, S x →
      (∀ e ∈ gs, e.1.Follows ρ S ∧ e.2.Follows ρ S) → (∀ x, w = some x → S x) →
      RunsAlike ρ S (equateVar order x (.ofEntries gs w) ⟨.ofEntries gs w, .var x⟩)
        (equateVar order (ρ x) (.ofEntries (Entry.renameAll ρ gs) (w.map ρ))
          ⟨.ofEntries (Entry.renameAll ρ gs) (w.map ρ), .var (ρ x)⟩) := by
    intro x gs w hx hgs hw
    have hmap := Follows.ofEntries hk hgs hw
    have h : RunsAlike ρ S (equateVar order x (.ofEntries gs w) ⟨.ofEntries gs w, .var x⟩) _ :=
      runsAlike_equateVar hρ hx hmap.ranges ⟨hmap, .var hx⟩
    rwa [Equation.map, rename_ofEntries] at h
  rcases y with _ | x <;> rcases z with _ | y
  · cases es with
    | cons => exact runsAlike_fail _ _
    | nil =>
        cases fs with
        | cons => exact runsAlike_fail _ _
        | nil => exact runsAlike_ok
  · cases fs with
    | cons => exact runsAlike_fail _ _
    | nil => exact right y (hz y rfl) hes (by simp)
  · cases es with
    | cons => exact runsAlike_fail _ _
    | nil => exact left x (hy x rfl) hfs (by simp)
  · have hx := hy x rfl
    have hy := hz y rfl
    have hiff : ρ x = ρ y ↔ x = y := ⟨hρ.injective hx hy, congrArg ρ⟩
    unfold settleRest
    simp only [Option.map_some, hiff]
    by_cases hxy : x = y
    · simp only [hxy, ↓reduceIte]
      cases es with
      | cons => exact runsAlike_fail _ _
      | nil =>
          cases fs with
          | cons => exact runsAlike_fail _ _
          | nil => exact runsAlike_ok
    · simp only [hxy, ↓reduceIte]
      cases es with
      | nil =>
          cases fs with
          | nil => exact runsAlike_equateVar hρ hx (Ranges.var_iff.mpr hy) ⟨.var hx, .var hy⟩
          | cons => exact left x hx hfs hz
      | cons =>
          cases fs with
          | nil => exact right y hy hes ‹_›
          | cons f fs =>
              have hshare : ∀ {s t : Progress → Term} (p q : Progress), q.AdvancesTo false
                  (equateVar order x (s p) ⟨.var x, s p⟩ q >>=
                    equateVar order y (t p) ⟨t p, .var y⟩) := fun p q =>
                (advances_equateVar q).bind fun r => advances_equateVar r
              exact .inl (mints_draw hshare)

lemma runsAlike_settle (hρ : Renaming ρ S) {s t s' t' : Term} :
    RunsAlike ρ S (settle order false s t es y fs z)
      (settle order false s' t' (Entry.renameAll ρ es) (y.map ρ) (Entry.renameAll ρ fs)
        (z.map ρ)) := by
  unfold settle
  rw [ambiguous_rename hρ (fun e he => (hes e he).1.toCanonicalOver)
    fun f hf => (hfs f hf).1.toCanonicalOver]
  split_ifs
  · exact runsAlike_settleAmbiguous hk hes hy hfs hz s' t'
  · exact runsAlike_settleRest hk hes hy hfs hz hρ

end Leftovers

/-- The case of two maps, when their values have been dealt with. -/
lemma runsAlike_maps (hρ : Renaming ρ S) (hs : (Term.map es y).Follows ρ S)
    (ht : (Term.map fs z).Follows ρ S)
    (ih : ∀ e ∈ es, ∀ f ∈ fs, DecomposesAlike order ρ S e.2 f.2) {s t s' t' : Term} :
    RunsAlike ρ S
      (fun p => decomposeEntries order false es fs p >>=
        settle order false s t (leftover es fs) y (leftover fs es) z)
      (fun p => decomposeEntries order false (Entry.renameAll ρ es) (Entry.renameAll ρ fs) p >>=
        settle order false s' t' (leftover (Entry.renameAll ρ es) (Entry.renameAll ρ fs)) (y.map ρ)
          (leftover (Entry.renameAll ρ fs) (Entry.renameAll ρ es)) (z.map ρ)) := by
  have hes : ∀ e ∈ es, e.1.CanonicalOver S := fun e he => (hs.entries e he).1.toCanonicalOver
  have hfs : ∀ f ∈ fs, f.1.CanonicalOver S := fun f hf => (ht.entries f hf).1.toCanonicalOver
  rw [leftover_rename hρ hes hfs, leftover_rename hρ hfs hes]
  exact (runsAlike_decomposeEntries hρ hes hfs ih).bind
    (runsAlike_settle hs.keepsOrder (fun e he => hs.entries e (mem_of_mem_leftover he))
      (Ranges.map_iff.mp hs.ranges).2 (fun f hf => ht.entries f (mem_of_mem_leftover hf))
      (Ranges.map_iff.mp ht.ranges).2 hρ)
    fun p => advances_settle p

/-- The case of one term, when its arguments and its values have been dealt with. -/
lemma decomposesAlike_of_parts (hρ : Renaming ρ S) (hs : s.Follows ρ S) (ht : t.Follows ρ S)
    (hargs : ∀ f ss, s = .app f ss → ∀ a ∈ ss, ∀ b, b.Follows ρ S → DecomposesAlike order ρ S a b)
    (hentries : ∀ es y, s = .map es y → ∀ e ∈ es, ∀ b, b.Follows ρ S →
      DecomposesAlike order ρ S e.2 b) : DecomposesAlike order ρ S s t := by
  unfold DecomposesAlike
  rw [funext fun p => decompose.eq_def order false s t p,
    funext fun p => decompose.eq_def order false (s.rename ρ) (t.rename ρ) p]
  by_cases hst : s = t
  · subst hst
    simp only [↓reduceIte]
    exact runsAlike_ok
  · have hst' : s.rename ρ ≠ t.rename ρ := fun h =>
      hst (rename_injective hρ.injective hs.toCanonicalOver ht.toCanonicalOver h)
    simp only [hst, hst', ↓reduceIte]
    have keep_alike : RunsAlike ρ S (keep ⟨s, t⟩) (keep ⟨s.rename ρ, t.rename ρ⟩) :=
      runsAlike_keep hρ ⟨hs, ht⟩
    have left_alike : ∀ x, s = .var x →
        RunsAlike ρ S (equateVar order x t ⟨s, t⟩)
          (equateVar order (ρ x) (t.rename ρ) ⟨s.rename ρ, t.rename ρ⟩) := fun x hx =>
      runsAlike_equateVar hρ (hs.ranges x (by simp [hx])) ht.ranges ⟨hs, ht⟩
    have right_alike : ∀ y, t = .var y →
        RunsAlike ρ S (equateVar order y s ⟨s, t⟩)
          (equateVar order (ρ y) (s.rename ρ) ⟨s.rename ρ, t.rename ρ⟩) := fun y hy =>
      runsAlike_equateVar hρ (ht.ranges y (by simp [hy])) hs.ranges ⟨hs, ht⟩
    cases s <;> cases t <;>
      simp only [rename_var, rename_bool, rename_int, rename_app, rename_lookup, rename_map,
        Term.ofEntries] at * <;>
      first
      | exact left_alike _ rfl
      | exact right_alike _ rfl
      | exact keep_alike
      | skip
    · next f ss g ts =>
        have hts := Follows.app_iff.mp ht
        rw [List.length_map, List.length_map]
        split_ifs
        · exact runsAlike_fail _ _
        · exact runsAlike_decomposeArgs fun a ha b hb => hargs f ss rfl a ha b (hts b hb)
        · exact keep_alike
    · next es y fs z =>
        have hes := (Term.map.inj ((rename_map ρ es y).symm.trans hs.rename_map)).1
        have hfs := (Term.map.inj ((rename_map ρ fs z).symm.trans ht.rename_map)).1
        rw [hes, hfs]
        have hsizes : sizesDiffer (Entry.renameAll ρ es) (y.map ρ) (Entry.renameAll ρ fs) (z.map ρ) =
            sizesDiffer es y fs z := by
          simp only [sizesDiffer, Option.isNone_map, List.length_map]
        rw [hsizes]
        split_ifs
        · exact runsAlike_fail _ _
        · exact runsAlike_maps hρ hs ht fun e he f hf =>
            hentries es y rfl e he f.2 (ht.entries f hf).2

/-- Terms are decomposed in the same way under other names. -/
theorem decompose_rename (order : SortOrder) (hρ : Renaming ρ S) (hs : s.Follows ρ S)
    (ht : t.Follows ρ S) : DecomposesAlike order ρ S s t := by
  induction s using induction_parts generalizing t with
  | step s hargs hentries =>
      refine decomposesAlike_of_parts hρ hs ht ?_ ?_
      · rintro f ss rfl a ha b hb
        exact hargs f ss rfl a ha (Follows.app_iff.mp hs a ha) hb
      · rintro es y rfl e he b hb
        exact hentries es y rfl e he (hs.entries e he).2 hb

end Decomposition

/-- The unifier draws a fresh variable, or it makes no alternatives and its answer for the renamed
equation is alike. -/
theorem Unifier.structural_rename (order : SortOrder) (hρ : Renaming ρ S)
    (hl : e.left.Follows ρ S) (hr : e.right.Follows ρ S) :
    (∀ n, n < (Unifier.structural order false e n).2) ∨
      ∃ r r', Decomposition.Alike ρ S r r' ∧
        (∀ n, Unifier.structural order false e n = (r.map .unique, n)) ∧
        ∀ n, Unifier.structural order false (e.map (rename ρ)) n = (r'.map .unique, n) := by
  rcases Decomposition.decompose_rename order hρ hl hr with hmints | ⟨r, r', hrun, hrun', h⟩
  · refine .inl fun n => ?_
    have hn := hmints ⟨[], none, n⟩
    unfold Unifier.structural
    cases hd : Decomposition.decompose order false e.left e.right ⟨[], none, n⟩ with
    | error stuck =>
        rw [hd] at hn
        exact hn
    | ok p =>
        rw [hd] at hn
        exact hn
  · refine .inr ⟨r, r', h, fun n => ?_, fun n => ?_⟩
    · unfold Unifier.structural
      rw [hrun]
      cases r <;> rfl
    · unfold Unifier.structural
      rw [Equation.map_left, Equation.map_right, hrun']
      cases r' <;> rfl

end SolvedForm

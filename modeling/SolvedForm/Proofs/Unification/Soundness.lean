import Mathlib
import SolvedForm.Proofs.Term.Part
import SolvedForm.Proofs.Unification.Maps

/-!
Structural unification invents no solution.

* `Unification.SolvedBy`: a substitution solves all equations of an answer that hold in any case, and
  those of some alternative.
* `Decomposition.Regular`: what is asked of two terms so that their maps and constructors can be
  compared part by part.
* `Decomposition.Finds`: a run keeps what is found before and finds a further fact, for every solution
  of its outcome; `Decomposition.finds_settle` says so of what is left over between two maps, and
  `Decomposition.findsAt_decompose` of a decomposition.
* `Unifier.structural_sound`: a solution of the answer makes the two terms equal.
-/

namespace SolvedForm

open Term

/-- The substitution solves the equations that hold in any case, and all of some alternative. -/
def Unification.SolvedBy (u : Substitution) : Unification → Prop
  | .unique es => u.Unifies es
  | .disjunction common alternatives => u.Unifies common ∧ ∃ es ∈ alternatives, u.Unifies es

namespace Decomposition

variable {u : Substitution} {order : SortOrder} {fold : Bool} {p q : Progress} {s t left right : Term}
  {es fs : List Entry} {x y : Option Var} {z : Var} {e : Equation} {qs : List Equation}

/-- In no map are there two entries with the same key, frames have the sort of maps, and constructors
with the same name and the same number of arguments are the same symbol. -/
structure Regular (s t : Term) : Prop where
  keys {es : List Entry} {x : Option Var} : Part (.map es x) s ∨ Part (.map es x) t →
    (es.map (·.1)).Nodup
  frames {es : List Entry} {x : Var} : Part (.map es (some x)) s ∨ Part (.map es (some x)) t →
    x.sort = .map
  symbols {f g : Symbol} {ss ts : List Term} : Part (.app f ss) s → Part (.app g ts) t →
    f.isConstructor = true → g.isConstructor = true → f.name = g.name → ss.length = ts.length → f = g

lemma Regular.parts {s' t' : Term} (h : Regular s t) (hs : Part s' s) (ht : Part t' t) :
    Regular s' t' where
  keys hm := h.keys (hm.imp (·.trans hs) (·.trans ht))
  frames hm := h.frames (hm.imp (·.trans hs) (·.trans ht))
  symbols hf hg := h.symbols (hf.trans hs) (hg.trans ht)

/-- The substitution solves what has been found so far. -/
structure Progress.SolvedBy (u : Substitution) (p : Progress) : Prop where
  equations : u.Unifies p.equations
  alternatives : ∀ as, p.alternatives = some as → ∃ es ∈ as, u.Unifies es

lemma Progress.solvedBy_answer : p.answer.SolvedBy u ↔ p.SolvedBy u := by
  unfold answer
  cases h : p.alternatives with
  | none => exact ⟨fun hp => ⟨hp, by simp [h]⟩, fun hp => hp.equations⟩
  | some as =>
      refine ⟨fun hp => ⟨hp.1, fun bs hbs => ?_⟩, fun hp => ⟨hp.equations, hp.alternatives as h⟩⟩
      exact Option.some.inj (h.symm.trans hbs) ▸ hp.2

lemma Progress.solvedBy_push : (p.push qs).SolvedBy u ↔ p.SolvedBy u ∧ u.Unifies qs := by
  constructor
  · intro h
    obtain ⟨hp, hqs⟩ := List.forall_mem_append.mp h.equations
    exact ⟨⟨hp, h.alternatives⟩, hqs⟩
  · exact fun h => ⟨List.forall_mem_append.mpr ⟨h.1.equations, h.2⟩, h.1.alternatives⟩

/-! ### What a run finds -/

/-- Whatever solves the outcome of the run solves what had been found before, and has a given
property. -/
def Finds (u : Substitution) (fact : Prop) (run : Progress → Except Stuck Progress) : Prop :=
  ∀ ⦃p q⦄, run p = .ok q → q.SolvedBy u → p.SolvedBy u ∧ fact

lemma finds_fail {fact : Prop} (failure : Progress → Unification.Failure) :
    Finds u fact fun p => p.fail (failure p) := fun _ _ h => absurd h fail_ne_ok

lemma finds_ok {fact : Prop} (h : fact) : Finds u fact .ok := fun _ _ hq hs =>
  ⟨Except.ok.inj hq ▸ hs, h⟩

lemma finds_push : Finds u (u.Unifies qs) fun p => .ok (p.push qs) := fun _ _ hq hs =>
  Progress.solvedBy_push.mp (Except.ok.inj hq ▸ hs)

lemma finds_equateVar : Finds u (u.apply e.left = u.apply e.right) (equateVar order z t e) :=
  fun p _ hq hs => by
    have h := Progress.solvedBy_push.mp ((equateVar_ok hq).1 ▸ hs)
    exact ⟨h.1, h.2 e List.mem_cons_self⟩

lemma finds_keep : Finds u (u.apply e.left = u.apply e.right) (keep e) := fun p _ hq hs => by
  have h := Progress.solvedBy_push.mp ((keep_ok hq).1 ▸ hs)
  exact ⟨h.1, h.2 e List.mem_cons_self⟩

lemma Finds.mono {first second : Prop} {run : Progress → Except Stuck Progress}
    (h : Finds u first run) (himp : first → second) : Finds u second run := fun _ _ hq hs =>
  (h hq hs).imp_right himp

lemma Finds.bind {first second : Prop} {run run' : Progress → Except Stuck Progress}
    (h : Finds u first run) (h' : Finds u second run') :
    Finds u (first ∧ second) fun p => run p >>= run' := fun _ _ hq hs => by
  obtain ⟨r, hr, hq⟩ := exceptBind_eq_ok.mp hq
  obtain ⟨hr', hsecond⟩ := h' hq hs
  obtain ⟨hp, hfirst⟩ := h hr hr'
  exact ⟨hp, hfirst, hsecond⟩

/-! ### What is left over between two maps -/

/-- A solved pairing makes the entries of two maps the same. -/
lemma images_eq_of_pairs (h : Pairing.Pairs es fs qs) (hlength : es.length = fs.length)
    (hqs : u.Unifies qs) : ∀ c, c ∈ u.images es ↔ c ∈ u.images fs := by
  induction h with
  | nil =>
      obtain rfl := List.length_eq_zero_iff.mp hlength.symm
      exact fun _ => .rfl
  | @cons e f es fs rest qs hp _ _ ih =>
      have hperm := Pairing.perm_of_mem_picks hp
      obtain ⟨hsides, hqs⟩ := List.forall_mem_append.mp hqs
      have side : ∀ q ∈ [(⟨e.1, f.1⟩ : Equation), ⟨e.2, f.2⟩], u.apply q.left = u.apply q.right := by
        intro q hq
        by_cases hne : q.left = q.right
        · rw [hne]
        · exact hsides q (List.mem_filter.mpr ⟨hq, by simpa using hne⟩)
      have hkey : u.apply e.1 = u.apply f.1 := side ⟨e.1, f.1⟩ (by simp)
      have hvalue : u.apply e.2 = u.apply f.2 := side ⟨e.2, f.2⟩ (by simp)
      have hrest : es.length = rest.length :=
        Nat.succ.inj (hlength.trans hperm.length_eq.symm)
      intro c
      have hfs : c ∈ u.images fs ↔ c ∈ u.images (f :: rest) :=
        ((hperm.map fun e => (u.apply e.1, u.apply e.2)).mem_iff).symm
      rw [hfs, Substitution.images, Substitution.images, List.map_cons, List.map_cons, hkey, hvalue,
        List.mem_cons, List.mem_cons]
      exact or_congr_right (ih hrest hqs c)

lemma finds_settleAmbiguous {p q : Progress}
    (h : settleAmbiguous fold right es x fs y p = .ok q) (hs : q.SolvedBy u) :
    p.SolvedBy u ∧ u.apply (.map es x) = u.apply (.map fs y) := by
  have residual : ∀ {q : Progress},
      .ok (p.push [⟨.ofEntries es x, .ofEntries fs y⟩]) = (.ok q : Except Stuck Progress) →
      q.SolvedBy u → p.SolvedBy u ∧ u.apply (.map es x) = u.apply (.map fs y) := by
    intro q hq hs
    obtain ⟨hp, he⟩ := finds_push hq hs
    rw [← Substitution.apply_ofEntries_eq_map, ← Substitution.apply_ofEntries_eq_map]
    exact ⟨hp, he _ List.mem_cons_self⟩
  rw [settleAmbiguous_eq] at h
  split at h
  · exact residual h hs
  · next hfold =>
      rw [Bool.not_eq_true', Bool.not_eq_false] at hfold
      simp only [Bool.and_eq_true, Option.isNone_iff_eq_none, beq_iff_eq] at hfold
      obtain ⟨⟨⟨⟨-, hnone⟩, rfl⟩, rfl⟩, hlength⟩ := hfold
      have paired : ∀ qs ∈ Pairing.firstN (maxAlternatives + 1) es fs, u.Unifies qs →
          u.apply (.map es none) = u.apply (.map fs none) := fun qs hqs hu => by
        rw [Substitution.apply_map, Substitution.apply_map]
        exact ofEntries_congr
          (images_eq_of_pairs (Pairing.pairs_of_mem_firstN hqs) hlength hu)
      split at h
      · exact absurd h fail_ne_ok
      · next only honly =>
          obtain ⟨hp, hu⟩ := finds_push h hs
          exact ⟨hp, paired only (by simp [honly]) hu⟩
      · split at h
        · exact residual h hs
        · cases h
          obtain ⟨qs, hqs, hu⟩ := hs.alternatives _ rfl
          exact ⟨⟨hs.equations, by simp [hnone]⟩, paired qs hqs hu⟩

/-- The entries that are left over go to the frames of the other map. -/
lemma finds_settleRest {p q : Progress} (hx : ∀ z, x = some z → (u.apply (.var z)).isFrame = true)
    (h : settleRest order left right es x fs y p = .ok q) (hs : q.SolvedBy u) :
    p.SolvedBy u ∧ u.apply (.map es x) = u.apply (.map fs y) := by
  -- a frame that stands for a map takes the entries of that map
  have takes : ∀ {z gs w}, u.apply (.var z) = u.apply (.ofEntries gs w) → ∀ es,
      u.apply (.map es (some z)) = u.apply (.map (es ++ gs) w) := fun hz es =>
    Substitution.apply_map_of_frame (hz.trans Substitution.apply_ofEntries_eq_map)
  unfold settleRest at h
  split at h
  · split at h
    · exact absurd h fail_ne_ok
    · exact absurd h fail_ne_ok
    · exact ⟨Except.ok.inj h ▸ hs, rfl⟩
  · split at h
    · exact absurd h fail_ne_ok
    · obtain ⟨hp, hz⟩ := finds_equateVar h hs
      exact ⟨hp, takes hz []⟩
  · split at h
    · exact absurd h fail_ne_ok
    · obtain ⟨hp, hz⟩ := finds_equateVar h hs
      exact ⟨hp, (takes hz.symm []).symm⟩
  · next v w =>
      split at h
      · next hvw =>
          subst hvw
          split at h
          · exact absurd h fail_ne_ok
          · exact absurd h fail_ne_ok
          · exact ⟨Except.ok.inj h ▸ hs, rfl⟩
      · split at h
        · obtain ⟨hp, hz⟩ := finds_equateVar h hs
          refine ⟨hp, ?_⟩
          have hz : u.apply (.var v) = u.apply (.var w) := hz
          have hframe := hx v rfl
          rw [Substitution.apply_map, Substitution.apply_map, reframe, reframe, ← hz]
          cases hv : u.apply (.var v) with
          | var | map => rfl
          | bool | int | app | lookup =>
              rw [hv] at hframe
              cases hframe
        · obtain ⟨hp, hz⟩ := finds_equateVar h hs
          exact ⟨hp, takes hz []⟩
        · obtain ⟨hp, hz⟩ := finds_equateVar h hs
          exact ⟨hp, (takes hz.symm []).symm⟩
        · obtain ⟨r, hr, h⟩ := exceptBind_eq_ok.mp h
          obtain ⟨hr', hw⟩ := finds_equateVar h hs
          obtain ⟨hp, hv⟩ := finds_equateVar hr hr'
          refine ⟨⟨hp.equations, hp.alternatives⟩, ?_⟩
          rw [takes hv, takes hw.symm]
          exact Substitution.apply_map_congr fun e => by
            rw [List.mem_append, List.mem_append, or_comm]

/-- What is left over between two maps is equal under every solution of what remains of it. -/
theorem finds_settle {p q : Progress} (hx : ∀ z, x = some z → (u.apply (.var z)).isFrame = true)
    (h : settle order fold left right es x fs y p = .ok q) (hs : q.SolvedBy u) :
    p.SolvedBy u ∧ u.apply (.map es x) = u.apply (.map fs y) := by
  unfold settle at h
  split at h
  · exact finds_settleAmbiguous h hs
  · exact finds_settleRest hx h hs

/-! ### Decomposition -/

/-- What the decomposition of an equation with the left side `s` finds is the equation. -/
def FindsAt (u : Substitution) (order : SortOrder) (fold : Bool) (s : Term) : Prop :=
  ∀ ⦃t⦄, Regular s t → Finds u (u.apply s = u.apply t) (decompose order fold s t)

lemma finds_decomposeArgs {ss ts : List Term} (ih : ∀ s ∈ ss, FindsAt u order fold s)
    (hregular : ∀ s ∈ ss, ∀ t ∈ ts, Regular s t) (hlength : ss.length = ts.length) :
    Finds u (ss.map u.apply = ts.map u.apply) (decomposeArgs order fold ss ts) := by
  induction ss generalizing ts with
  | nil =>
      obtain rfl : ts = [] := List.length_eq_zero_iff.mp hlength.symm
      exact finds_ok rfl
  | cons s ss ihs =>
      cases ts with
      | nil => cases hlength
      | cons t ts =>
          rw [List.forall_mem_cons] at ih
          have hst := hregular s List.mem_cons_self t List.mem_cons_self
          have hrest : ∀ s ∈ ss, ∀ t ∈ ts, Regular s t := fun s hs t ht =>
            hregular s (List.mem_cons_of_mem _ hs) t (List.mem_cons_of_mem _ ht)
          refine ((ih.1 hst).bind (ihs ih.2 hrest (Nat.succ.inj hlength))).mono fun h => ?_
          rw [List.map_cons, List.map_cons, h.1, h.2]

lemma finds_decomposeEntries (ih : ∀ e ∈ es, FindsAt u order fold e.2)
    (hregular : ∀ e ∈ es, ∀ f ∈ fs, Regular e.2 f.2) :
    Finds u (u.Matches es fs) (decomposeEntries order fold es fs) := by
  induction es with
  | nil => exact finds_ok (by simp [Substitution.Matches])
  | cons e es ihe =>
      obtain ⟨k, v⟩ := e
      rw [List.forall_mem_cons] at ih hregular
      have hrest := ihe ih.2 hregular.2
      have matches_cons : (∀ w, List.lookup k fs = some w → u.apply v = u.apply w) →
          u.Matches es fs → u.Matches ((k, v) :: es) fs := fun h hes =>
        List.forall_mem_cons.mpr ⟨h, hes⟩
      intro p q hq hs
      rw [decomposeEntries] at hq
      cases hw : List.lookup k fs with
      | none =>
          simp only [hw] at hq
          exact (hrest hq hs).imp_right (matches_cons (by simp [hw]))
      | some w =>
          simp only [hw] at hq
          have hvalue := ih.1 (hregular.1 (k, w) (mem_of_lookup hw))
          obtain ⟨hp, hvw, hes⟩ := hvalue.bind hrest hq hs
          exact ⟨hp, matches_cons (fun w' hw' => Option.some.inj (hw.symm.trans hw') ▸ hvw) hes⟩

/-- What the decomposition of an equation finds is the equation, where frames are replaced by
variables and maps. -/
theorem findsAt_decompose (hu : ∀ z : Var, z.sort = .map → (u.apply (.var z)).isFrame = true)
    (s : Term) : FindsAt u order fold s := by
  -- the case of one term, when its arguments and values have been dealt with
  have step : ∀ s : Term, (∀ f ss, s = .app f ss → ∀ a ∈ ss, FindsAt u order fold a) →
      (∀ es x, s = .map es x → ∀ e ∈ es, FindsAt u order fold e.2) → FindsAt u order fold s := by
    intro s hargs hentries t hregular
    have hd := decomposed order fold s t
    generalize decompose order fold s t = run at hd
    cases hd with
    | same => exact finds_ok rfl
    | left => exact finds_equateVar
    | right => exact finds_equateVar
    | clash => exact finds_fail _
    | @args f g ss ts hf hg hname hlength =>
        have hparts : ∀ s ∈ ss, ∀ t ∈ ts, Regular s t := fun s hs t ht =>
          hregular.parts (.arg hs .refl) (.arg ht .refl)
        refine (finds_decomposeArgs (hargs _ _ rfl) hparts hlength).mono fun h => ?_
        rw [Substitution.apply_app, Substitution.apply_app, h,
          hregular.symbols .refl .refl hf hg hname hlength]
    | sizes => exact finds_fail _
    | @entries es fs x y =>
        have hparts : ∀ e ∈ es, ∀ f ∈ fs, Regular e.2 f.2 := fun e he f hf =>
          hregular.parts (.value he .refl) (.value hf .refl)
        have hframe : ∀ z, x = some z → (u.apply (.var z)).isFrame = true := by
          rintro z rfl
          exact hu z (hregular.frames (.inl .refl))
        refine ((finds_decomposeEntries (hentries _ _ rfl) hparts).bind fun _ _ =>
          finds_settle hframe).mono fun h => ?_
        exact h.1.apply_map_eq (hregular.keys (.inr .refl)) h.2
    | kept => exact finds_keep
  induction s using Term.ind with
  | app f args ih =>
      refine step _ ?_ nofun
      rintro _ _ ⟨⟩
      exact ih
  | map entries frame ih =>
      refine step _ nofun ?_
      rintro _ _ ⟨⟩
      exact fun e he => (ih e he).2
  | var | bool | int | lookup => exact step _ nofun nofun

end Decomposition

/-! ### The unifier -/

/-- A substitution that binds variables of the sort of maps to variables and maps only, and solves an
answer of the unifier, makes the two terms equal. -/
theorem Unifier.structural_sound {order : SortOrder} {fold : Bool} {s t : Term} {n m : Nat}
    {answer : Unification} {u : Substitution} (hregular : Decomposition.Regular s t)
    (h : Unifier.structural order fold ⟨s, t⟩ n = (.ok answer, m))
    (hu : ∀ b ∈ u.toList, b.1.sort = .map → b.2.isFrame = true) (hs : answer.SolvedBy u) :
    u.apply s = u.apply t := by
  have hframe : ∀ z : Var, z.sort = .map → (u.apply (.var z)).isFrame = true := by
    intro z hz
    rw [Substitution.apply_var]
    cases hv : u.find? z with
    | none => rfl
    | some v => exact hu (z, v) (Substitution.mem_toList_iff.mpr hv) hz
  obtain ⟨q, hq, rfl⟩ := Decomposition.structural_ok h
  exact (Decomposition.findsAt_decompose hframe s hregular hq
    (Decomposition.Progress.solvedBy_answer.mp hs)).2

/-- Two maps with different keys share a fresh frame, which a solution makes the empty map. -/
theorem Unifier.structural_sound_frames :
    let x : Var := ⟨"X", .map, false, none⟩
    let y : Var := ⟨"Y", .map, false, none⟩
    let z : Var := .fresh 0 .map
    let s : Term := .map [(.int 1, .int 2)] (some x)
    let t : Term := .map [(.int 3, .int 4)] (some y)
    let u : Substitution := .ofList [(x, .map [(.int 3, .int 4)] none),
      (y, .map [(.int 1, .int 2)] none), (z, .map [] none)]
    Unifier.structural Subsorts.builtin.order true ⟨s, t⟩ 0 =
        (.ok (.unique [⟨.var x, .map [(.int 3, .int 4)] (some z)⟩,
          ⟨.map [(.int 1, .int 2)] (some z), .var y⟩]), 1) ∧
      u.apply s = u.apply t := by
  intro x y z s t u
  have hrun : Unifier.structural Subsorts.builtin.order true ⟨s, t⟩ 0 =
      (.ok (.unique [⟨.var x, .map [(.int 3, .int 4)] (some z)⟩,
        ⟨.map [(.int 1, .int 2)] (some z), .var y⟩]), 1) := by cbv
  have hmap : ∀ {i j : Int64} {v : Var} {r : Term}, Term.Part r (.map [(.int i, .int j)] (some v)) →
      r = .map [(.int i, .int j)] (some v) ∨ r = .int i ∨ r = .int j := by
    intro i j v r h
    cases h with
    | refl => exact .inl rfl
    | key he h =>
        obtain rfl := List.mem_singleton.mp he
        cases h
        exact .inr (.inl rfl)
    | value he h =>
        obtain rfl := List.mem_singleton.mp he
        cases h
        exact .inr (.inr rfl)
  have hregular : Decomposition.Regular s t := by
    refine ⟨fun h => ?_, fun h => ?_, fun hf => ?_⟩
    · rcases h with h | h <;> rcases hmap h with h | h | h <;> cases h <;> simp
    · rcases h with h | h <;> rcases hmap h with h | h | h <;> cases h <;> rfl
    · rcases hmap hf with h | h | h <;> cases h
  have hu : ∀ b ∈ u.toList, b.2.isFrame = true := by decide
  refine ⟨hrun, Unifier.structural_sound hregular hrun (fun b hb _ => hu b hb) ?_⟩
  intro e he
  simp only [List.mem_cons, List.not_mem_nil, or_false] at he
  rcases he with rfl | rfl <;> cbv

end SolvedForm

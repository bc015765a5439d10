import SolvedForm.Proofs.Unification.Symmetry

/-!
Equations that a decomposition cannot take apart any further.

* `Decomposition.Irreducible`: without folding, the decomposition of the equation gives back just the
  equation.
* `Entry.length_eq_shared_add_leftover`: the entries of a map have keys in common with another map, or
  are left over.
* `Decomposition.irreducible_residual`: the equation between what is left over of two maps whose keys may
  coincide cannot be taken apart.
* `Decomposition.yields_decompose`: every decomposition leaves irreducible equations.
* `Unifier.structural_irreducible`: so the unifier gives back each of its equations as it is.
-/

namespace SolvedForm

open Term

namespace Decomposition

variable {order : SortOrder} {p q : Progress} {s t left right : Term} {ss ts : List Term}
  {es fs : List Entry} {x y : Option Var} {z : Var} {e : Equation}
  {run run' : Progress → Except Stuck Progress}

/-- Without folding, the decomposition of the equation leaves the equation as it is. -/
def Irreducible (order : SortOrder) (e : Equation) : Prop :=
  ∀ p : Progress, decompose order false e.left e.right p = .ok (p.push [e])

/-- The run adds irreducible equations to irreducible ones. -/
def Yields (order : SortOrder) (run : Progress → Except Stuck Progress) : Prop :=
  ∀ ⦃p q⦄, run p = .ok q → (∀ e ∈ p.equations, Irreducible order e) →
    ∀ e ∈ q.equations, Irreducible order e

lemma yields_ok : Yields order .ok := fun _ _ h hp => Except.ok.inj h ▸ hp

lemma yields_fail (failure : Unification.Failure) : Yields order (·.fail failure) :=
  fun _ _ h => absurd h fail_ne_ok

lemma yields_push (he : Irreducible order e) : Yields order fun p => .ok (p.push [e]) := by
  intro p q h hp d hd
  cases h
  rcases List.mem_append.mp hd with hd | hd
  · exact hp d hd
  · exact List.mem_singleton.mp hd ▸ he

lemma Yields.bind (h : Yields order run) (h' : Yields order run') :
    Yields order fun p => run p >>= run' := by
  intro p q hq hp
  obtain ⟨r, hr, hq⟩ := exceptBind_eq_ok.mp hq
  exact h' hq (h hr hp)

/-! ### Equations that are not decomposed -/

/-- An equation between a variable and another term, with the variable on the left. -/
lemma irreducible_left (hne : .var z ≠ t) (h : admits order z t = true) :
    Irreducible order ⟨.var z, t⟩ := by
  intro p
  rw [decompose_var_left order false hne, equateVar_of_admits h]

/-- An equation between a term that is no variable and a variable on the right. -/
lemma irreducible_right (hs : s.asVar = none) (h : admits order z s = true) :
    Irreducible order ⟨s, .var z⟩ := by
  intro p
  rw [decompose_var_right order false hs, equateVar_of_admits h]

lemma yields_equateVar (h : admits order z t = true → Irreducible order e) :
    Yields order (equateVar order z t e) := by
  cases ha : admits order z t with
  | true =>
      rw [equateVar_of_admits ha]
      exact yields_push (h ha)
  | false =>
      obtain ⟨failure, hrun⟩ := exists_fail_of_not_admits (e := e) ha
      rw [hrun]
      exact yields_fail failure

/-- A run that keeps or refuses an equation, whatever has been found before. -/
lemma yields_keep (h : decompose order false s t = keep ⟨s, t⟩) : Yields order (keep ⟨s, t⟩) := by
  intro p q hq
  obtain ⟨rfl, hc⟩ := keep_ok hq
  have he : Irreducible order ⟨s, t⟩ := fun r => by rw [h, keep, if_neg (by simpa using hc)]
  exact yields_push he rfl

end Decomposition

/-! ### The entries left over between two maps -/

namespace Entry

variable {es fs : List Entry}

lemma length_eq_shared_add_leftover (es fs : List Entry) :
    es.length = (shared es fs).length + (Decomposition.leftover es fs).length := by
  induction es with
  | nil => rfl
  | cons e es ih =>
      unfold shared Decomposition.leftover at ih ⊢
      rw [List.filterMap_cons, List.filter_cons, List.length_cons, ih]
      cases h : valueAt e.1 fs with
      | none =>
          have hnone : fs.any (·.1 = e.1) = false := List.any_eq_false.mpr fun f hf => by
            have hne : e.1 ≠ f.1 := by simpa using List.lookup_eq_none_iff.mp h f hf
            simpa using hne.symm
          simp only [Option.map_none, hnone, Bool.not_false, ↓reduceIte, List.length_cons]
          omega
      | some w =>
          have hsome : fs.any (·.1 = e.1) = true :=
            List.any_eq_true.mpr ⟨(e.1, w), Decomposition.mem_of_lookup h, by simp⟩
          simp only [Option.map_some, hsome, Bool.not_true, Bool.false_eq_true, ↓reduceIte,
            List.length_cons]
          omega

/-- Two maps without repeated keys are of the same size when their leftovers are, and the other way
round. -/
lemma length_leftover_eq_iff (hes : KeysIncrease es) (hfs : KeysIncrease fs) :
    (Decomposition.leftover es fs).length = (Decomposition.leftover fs es).length ↔
      es.length = fs.length := by
  have hshared : (shared fs es).length = (shared es fs).length := by
    rw [shared_swap hes hfs, List.length_map]
  have hl := length_eq_shared_add_leftover es fs
  have hr := length_eq_shared_add_leftover fs es
  omega

lemma shared_eq_nil (h : ∀ e ∈ es, ∀ f ∈ fs, f.1 ≠ e.1) : shared es fs = [] := by
  rw [shared, List.filterMap_eq_nil_iff]
  intro e he
  rw [Option.map_eq_none_iff, Option.eq_none_iff_forall_ne_some]
  exact fun w hw => h e he (e.1, w) (Decomposition.mem_of_lookup hw) rfl

end Entry

namespace Decomposition

variable {order : SortOrder} {p q : Progress} {s t left right : Term} {ss ts : List Term}
  {es fs : List Entry} {x y : Option Var} {z : Var} {e : Equation}

lemma leftover_of_disjoint (h : ∀ e ∈ es, ∀ f ∈ fs, f.1 ≠ e.1) : leftover es fs = es := by
  rw [leftover, List.filter_eq_self]
  intro e he
  simpa using h e he

/-- Maps without common keys are settled as they are. -/
lemma decompose_of_disjoint {fold : Bool} (hne : Term.map es x ≠ .map fs y)
    (hsizes : sizesDiffer es x fs y = false) (h : ∀ e ∈ es, ∀ f ∈ fs, f.1 ≠ e.1) :
    decompose order fold (.map es x) (.map fs y) =
      settle order fold (.map es x) (.map fs y) es x fs y := by
  funext p
  have h' : ∀ f ∈ fs, ∀ e ∈ es, e.1 ≠ f.1 := fun f hf e he => (h e he f hf).symm
  rw [decompose.eq_def]
  simp only [hne, hsizes, ↓reduceIte, Bool.false_eq_true, decomposeEntries_eq,
    Entry.shared_eq_nil h, leftover_of_disjoint h, leftover_of_disjoint h']
  rfl

lemma ofEntries_of_increase (h : Entry.KeysIncrease es) (x : Option Var) :
    ofEntries es x = .map es x :=
  ofEntries_eq_map_iff.mpr (Entry.keysIncrease_iff.mp h).1

/-- The equation between the leftovers of two maps, where keys may still coincide. -/
lemma irreducible_residual (hes : Entry.KeysIncrease es) (hfs : Entry.KeysIncrease fs)
    (hsizes : sizesDiffer es x fs y = false)
    (hambiguous : ambiguous (leftover es fs) (leftover fs es) = true) :
    Irreducible order ⟨.ofEntries (leftover es fs) x, .ofEntries (leftover fs es) y⟩ := by
  have hl : Entry.KeysIncrease (leftover es fs) := hes.filter _
  have hr : Entry.KeysIncrease (leftover fs es) := hfs.filter _
  have hdisjoint : ∀ e ∈ leftover es fs, ∀ f ∈ leftover fs es, f.1 ≠ e.1 := fun e he f hf =>
    (mem_leftover.mp he).2 f (mem_leftover.mp hf).1
  have hne : Term.map (leftover es fs) x ≠ .map (leftover fs es) y := by
    rintro heq
    obtain ⟨e, he, -⟩ := List.any_eq_true.mp hambiguous
    exact hdisjoint e he e ((Term.map.inj heq).1 ▸ he) rfl
  have hrest : sizesDiffer (leftover es fs) x (leftover fs es) y = false := by
    simp only [sizesDiffer, bne_eq_false_iff_eq, Bool.and_eq_false_iff] at hsizes ⊢
    exact hsizes.imp_right (Entry.length_leftover_eq_iff hes hfs).mpr
  intro p
  rw [ofEntries_of_increase hl, ofEntries_of_increase hr,
    decompose_of_disjoint hne hrest hdisjoint, settle, if_pos hambiguous, settleAmbiguous,
    ofEntries_of_increase hl, ofEntries_of_increase hr]
  rfl

/-- The leftovers go to the frames, or stay as they are. -/
lemma yields_settle (hes : Entry.KeysIncrease es) (hfs : Entry.KeysIncrease fs)
    (hsizes : sizesDiffer es x fs y = false) :
    Yields order (settle order false left right (leftover es fs) x (leftover fs es) y) := by
  have frameL (z : Var) (gs : List Entry) (w : Option Var) : Yields order
      (equateVar order z (.ofEntries gs w) ⟨.var z, .ofEntries gs w⟩) :=
    yields_equateVar (irreducible_left Term.noConfusion)
  have frameR (z : Var) (gs : List Entry) (w : Option Var) : Yields order
      (equateVar order z (.ofEntries gs w) ⟨.ofEntries gs w, .var z⟩) :=
    yields_equateVar (irreducible_right rfl)
  rw [funext fun p => settle.eq_def order false left right (leftover es fs) x (leftover fs es) y p]
  split_ifs with hambiguous
  · exact yields_push (irreducible_residual hes hfs hsizes hambiguous)
  · generalize leftover es fs = ls, leftover fs es = rs
    cases x with
    | none =>
        cases y with
        | none =>
            cases ls <;> cases rs <;> first | exact yields_fail _ | exact yields_ok
        | some b =>
            cases rs with
            | nil => exact frameR _ _ _
            | cons => exact yields_fail _
    | some a =>
        cases y with
        | none =>
            cases ls with
            | nil => exact frameL _ _ _
            | cons => exact yields_fail _
        | some b =>
            unfold settleRest
            by_cases hab : a = b
            · simp only [hab, ↓reduceIte]
              cases ls <;> cases rs <;> first | exact yields_fail _ | exact yields_ok
            · simp only [hab, ↓reduceIte]
              cases ls with
              | nil =>
                  cases rs with
                  | nil => exact yields_equateVar (irreducible_left (by simpa using hab))
                  | cons => exact frameL _ _ _
              | cons =>
                  cases rs with
                  | nil => exact frameR _ _ _
                  | cons => exact fun p _ hq hp => (frameL _ _ _).bind (frameR _ _ _) hq hp

/-! ### Decomposition -/

lemma yields_foldlM {α : Type} {step : α → Progress → Except Stuck Progress} {as : List α}
    (h : ∀ a ∈ as, Yields order (step a)) :
    Yields order fun p => as.foldlM (fun p a => step a p) p := by
  induction as with
  | nil => exact yields_ok
  | cons a as ih =>
      rw [List.forall_mem_cons] at h
      simp only [List.foldlM_cons]
      exact h.1.bind (ih h.2)

lemma yields_decomposeArgs
    (ih : ∀ s ∈ ss, ∀ t ∈ ts, Yields order (decompose order false s t)) :
    Yields order (decomposeArgs order false ss ts) := by
  induction ss generalizing ts with
  | nil => cases ts <;> exact yields_ok
  | cons s ss ihs =>
      cases ts with
      | nil => exact yields_ok
      | cons t ts =>
          exact (ih s List.mem_cons_self t List.mem_cons_self).bind
            (ihs fun s hs t ht => ih s (List.mem_cons_of_mem _ hs) t (List.mem_cons_of_mem _ ht))

/-- The case of one term, when its arguments and its values have been dealt with. -/
lemma yields_of_parts (hs : s.Keyed) (ht : t.Keyed)
    (hargs : ∀ f ss, s = .app f ss → ∀ a ∈ ss, ∀ b, b.Keyed →
      Yields order (decompose order false a b))
    (hentries : ∀ es x, s = .map es x → ∀ e ∈ es, ∀ b, b.Keyed →
      Yields order (decompose order false e.2 b)) : Yields order (decompose order false s t) := by
  have hrun := funext fun p => decompose.eq_def order false s t p
  by_cases hst : s = t
  · subst hst
    simp only [↓reduceIte] at hrun
    exact hrun ▸ yields_ok
  · simp only [hst, ↓reduceIte] at hrun
    cases s <;> cases t <;>
      first
      | exact hrun ▸ yields_equateVar (irreducible_left hst)
      | exact hrun ▸ yields_equateVar (irreducible_right rfl)
      | exact hrun ▸ yields_keep hrun
      | skip
    · next f ss g ts =>
        dsimp only at hrun
        split_ifs at hrun
        · exact hrun ▸ yields_fail _
        · exact hrun ▸ yields_decomposeArgs fun a ha b hb => hargs f ss rfl a ha b (ht.arg b hb)
        · exact hrun ▸ yields_keep hrun
    · next es x fs y =>
        dsimp only at hrun
        cases hsizes : sizesDiffer es x fs y with
        | true =>
            simp only [hsizes, ↓reduceIte] at hrun
            exact hrun ▸ yields_fail _
        | false =>
            simp only [hsizes, Bool.false_eq_true, ↓reduceIte, decomposeEntries_eq] at hrun
            rw [hrun]
            refine (yields_foldlM fun c hc => ?_).bind
              (yields_settle hs.keysIncrease ht.keysIncrease hsizes)
            obtain ⟨he, hf⟩ := (Entry.mem_shared ht.keysIncrease).mp hc
            exact hentries es x rfl _ he _ (ht.entries _ hf).2

/-- Between terms without repeated keys every decomposition leaves irreducible equations. -/
theorem yields_decompose (hs : s.Keyed) (ht : t.Keyed) :
    Yields order (decompose order false s t) := by
  induction s using induction_parts generalizing t with
  | step s hargs hentries =>
      refine yields_of_parts hs ht ?_ ?_
      · rintro f ss rfl a ha b hb
        exact hargs f ss rfl a ha (hs.arg a ha) hb
      · rintro es x rfl e he b hb
        exact hentries es x rfl e he (hs.entries e he).2 hb

end Decomposition

/-! ### The unifier -/

/-- The equations that the unifier leaves of two terms without repeated keys cannot be taken apart any
further: without folding, it gives back each of them as it is. -/
theorem Unifier.structural_irreducible {order : SortOrder} {l r : Term} (hl : l.Keyed) (hr : r.Keyed)
    {parts : List Equation} {n m : Nat}
    (h : Unifier.structural order false ⟨l, r⟩ n = (.ok (.unique parts), m)) :
    ∀ e ∈ parts, ∀ k, Unifier.structural order false e k = (.ok (.unique [e]), k) := by
  obtain ⟨q, hq, hanswer⟩ := Decomposition.structural_ok h
  have hparts : q.equations = parts := by
    unfold Decomposition.Progress.answer at hanswer
    split at hanswer
    · exact Unification.unique.inj hanswer
    · cases hanswer
  intro e he k
  have hirreducible : Decomposition.Irreducible order e :=
    Decomposition.yields_decompose hl hr hq (by simp) e (hparts ▸ he)
  rw [Unifier.structural, hirreducible]
  rfl

/-- Two maps with symbolic keys and a function under a common one, beside two maps that share a fresh
frame: none of the equations that are left can be taken apart any further. -/
theorem Unifier.structural_irreducible_residual :
    let x : Term := .var ⟨"X", .top, false, none⟩
    let y : Term := .var ⟨"Y", .top, false, none⟩
    let f (t : Term) : Term := .app ⟨"f", 1, some .int, .function⟩ [t]
    let frame (name : String) : Option Var := some ⟨name, .map, false, none⟩
    let pair (s t : Term) : Term := .app ⟨"pair", 2, none, .constructor⟩ [s, t]
    let l : Term := pair (.map [(x, .int 1), (.int 2, f x)] (frame "F")) (.map [(.int 1, x)] (frame "L"))
    let r : Term := pair (.map [(y, .int 5), (.int 2, .int 4)] (frame "G"))
      (.map [(.int 2, y)] (frame "R"))
    let order := Subsorts.builtin.order
    let residual : Equation := ⟨.map [(x, .int 1)] (frame "F"), .map [(y, .int 5)] (frame "G")⟩
    l.Keyed ∧ r.Keyed ∧ ∃ parts, Unifier.structural order false ⟨l, r⟩ 0 = (.ok (.unique parts), 1) ∧
      parts.length = 4 ∧ residual ∈ parts ∧
      ∀ e ∈ parts, ∀ k, Unifier.structural order false e k = (.ok (.unique [e]), k) := by
  intro x y f frame pair l r order residual
  have hpair {s t : Term} (hs : s.Keyed) (ht : t.Keyed) : (pair s t).Keyed :=
    .app _ (by simpa using ⟨hs, ht⟩)
  have hf : (f x).Keyed := .app _ (by simpa using Keyed.var _)
  have hl : l.Keyed := hpair
    (.map _ (by decide) (by simpa using ⟨.var _, .int _⟩) (by simpa using ⟨.int _, hf⟩))
    (.map _ (by decide) (by simpa using .int _) (by simpa using .var _))
  have hr : r.Keyed := hpair
    (.map _ (by decide) (by simpa using ⟨.var _, .int _⟩) (by simpa using ⟨.int _, .int _⟩))
    (.map _ (by decide) (by simpa using .int _) (by simpa using .var _))
  have hrun : Unifier.structural order false ⟨l, r⟩ 0 = (.ok (.unique [⟨f x, .int 4⟩, residual,
      ⟨.var ⟨"L", .map, false, none⟩, .map [(.int 2, y)] (some (.fresh 0 .map))⟩,
      ⟨.map [(.int 1, x)] (some (.fresh 0 .map)), .var ⟨"R", .map, false, none⟩⟩]), 1) := by cbv
  exact ⟨hl, hr, _, hrun, rfl, by simp, structural_irreducible hl hr hrun⟩

end SolvedForm

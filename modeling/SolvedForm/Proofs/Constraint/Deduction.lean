import SolvedForm.Proofs.Constraint.Renaming
import SolvedForm.Proofs.Constraint.Termination
import SolvedForm.Proofs.Model.Implication

/-!
Implication is decided exactly on free constructor terms.

* `Term.Free.replace_eq_apply`: to rewrite by the bindings of a store is to substitute.
* `Constraint.subtract_free`, `Constraint.residue_free`: what is left to show beyond a true constraint
  has the same unifiers, among those of the true constraint; it is false, or all bindings.
* `Constraint.bindsOnly_iff_exists`: what is left binds given variables only exactly when some choice
  of values for them makes the second constraint hold.
* `Constraint.implies_iff_exists`: an implication is proved exactly when some choice of values for
  the given variables makes all bindings and equations of the second constraint hold under the store
  of the first.
-/

namespace SolvedForm

/-! ### Rewriting by a store -/

/-- The bindings of a store as a table of replacements replace variables only. -/
lemma Substitution.find?_table (σ : Substitution) (t : Term) :
    Term.Table.find? (σ.toList.map fun b => (.var b.1, b.2)) t = t.asVar.bind σ.find? := by
  have lookup_eq : ∀ bs : List (Var × Term),
      List.lookup t (bs.map fun b => (Term.var b.1, b.2)) =
        t.asVar.bind fun x => List.lookup x bs := by
    intro bs
    induction bs with
    | nil => cases t <;> rfl
    | cons b bs ih =>
        rw [List.map_cons, List.lookup_cons, ih]
        cases t with
        | var x =>
            have hbeq : (Term.var x == Term.var b.1) = (x == b.1) := by
              rw [Bool.eq_iff_iff, beq_iff_eq, beq_iff_eq, Term.var.injEq]
            rw [hbeq]
            rfl
        | bool | int | app | map | lookup => rfl
  exact lookup_eq σ.toList

/-- To replace the keys of a store by their values is to substitute. -/
lemma Term.Free.replace_eq_apply {σ : Substitution} {t : Term} (ht : t.Free) :
    t.replace (σ.toList.map fun b => (.var b.1, b.2)) = σ.apply t := by
  unfold replace
  induction ht with
  | @var x =>
      rw [rewrite, Substitution.find?_table, Substitution.apply_var]
      cases h : σ.find? x <;> simp [asVar, h]
  | bool | int => rw [rewrite, Substitution.find?_table]; rfl
  | @app f args hf hs ha _ ih =>
      rw [rewrite, Substitution.find?_table, rewriteArgs_eq_map, List.map_congr_left ih,
        Substitution.apply_app, Substitution.find?_table]
      rfl

/-- There is no conditional in a free term. -/
lemma Term.Free.innermostConditional {t : Term} (ht : t.Free) : t.innermostConditional = none := by
  induction ht with
  | var | bool | int => rfl
  | @app f args hf _ _ _ ih =>
      have hargs : ∀ ts : List Term, (∀ t ∈ ts, t.innermostConditional = none) →
          innermostConditionalArgs ts = none := by
        intro ts
        induction ts with
        | nil => exact fun _ => rfl
        | cons t ts iht =>
            intro hts
            rw [List.forall_mem_cons] at hts
            rw [innermostConditionalArgs, hts.1, iht hts.2]
            rfl
      have hroot : asConditional (.app f args) = none := by
        unfold asConditional
        split
        · rw [if_neg (by simp [not_applies hf])]
        · rfl
      rw [Term.innermostConditional, hargs args ih, hroot]
      rfl

/-- Instances under an acyclic store of free terms contain none of its keys. -/
lemma Term.FreeOver.apply {d : Subsorts} {allowed : Var → Prop} {σ : Substitution} {t : Term}
    (ht : t.FreeOver allowed) (hσ : (Fragment.free d.order allowed).MemSubst σ) (hac : σ.Acyclic) :
    (σ.apply t).FreeOver (· ∉ σ.keys) := by
  refine ⟨((Fragment.free d.order allowed).mem_apply hσ ht).1, fun x hx => ?_⟩
  rcases Term.mem_vars_apply ht.1.frameless hx with ⟨-, hk⟩ | ⟨y, u, -, hu, hxu⟩
  · exact hk
  · exact hac.not_mem_keys hu hxu

lemma Fragment.symmetric_free (d : Subsorts) (allowed : Var → Prop) :
    (free d.order allowed).Symmetric where
  swap h := ⟨h.2, h.1⟩
  join h h' := ⟨h.1, h'.1⟩

namespace Constraint

/-- There is no conditional in free terms on which a proof could be split. -/
lemma Within.innermostCondition_eq_none {order : SortOrder} {allowed : Var → Prop} {c : Constraint}
    (hc : c.Within (.free order allowed)) : c.innermostCondition = none := by
  have hterms : ∀ t ∈ (c.equations.toList.flatMap fun e => [e.left, e.right]) ++
      c.store.toList.map (·.2), t.innermostConditional = none := by
    intro t ht
    rcases List.mem_append.mp ht with ht | ht
    · obtain ⟨e, he, ht⟩ := List.mem_flatMap.mp ht
      rcases List.mem_pair.mp ht with rfl | rfl
      · exact (hc.over.equations e he).1.1.innermostConditional
      · exact (hc.over.equations e he).2.1.innermostConditional
    · obtain ⟨b, hb, rfl⟩ := List.mem_map.mp ht
      exact (hc.over.store b hb).2.1.innermostConditional
  rw [innermostCondition, List.findSome?_eq_none_iff.mpr hterms]
  rfl

/-! ### Subtraction -/

variable {d : Subsorts} {left right goal rest residue : Constraint} {u w : Substitution}
  {only : List Var} {fuel n m : Nat}

/-- The solutions of a constraint over free terms are the unifiers of what it lists. -/
lemma sat_instances_iff (d : Subsorts) (allowed : Var → Prop) {c : Constraint} :
    (Meaning.instances d allowed u).Sat c ↔ u.Unifies c.listed :=
  sat_iff_listed

/-- Without equations a constraint knows its bindings. -/
lemma facts_of_no_equations (h : left.equations = .empty) :
    left.facts = left.store.toList.map fun b => (.var b.1, b.2) := by
  rw [facts, groundFacts, h]
  exact List.append_nil _

/-- Rewritten by an acyclic store, free terms contain none of its keys. -/
lemma listed_replaced {σ : Substitution} {c : Constraint}
    (hσ : (Fragment.free d.order fun _ => True).MemSubst σ) (hac : σ.Acyclic)
    (hc : c.Within (.free d.order fun _ => True)) :
    ∀ e ∈ c.listed.map (·.map (Term.replace (σ.toList.map fun b => (.var b.1, b.2)))),
      (Fragment.free d.order (· ∉ σ.keys)).MemEq e := by
  refine List.forall_mem_map.mpr fun e he => ?_
  obtain ⟨hl, hr⟩ := hc.over.listed e he
  rw [Fragment.MemEq, Equation.map_left, Equation.map_right, hl.1.replace_eq_apply,
    hr.1.replace_eq_apply]
  exact ⟨hl.apply hσ hac, hr.apply hσ hac⟩

/-- Rewritten by a true constraint and simplified again, a constraint is false, or its truth is
decided and no key of the true constraint is left. -/
lemma settled_simplify_replace {a b : Constraint}
    (hleft : left.Settled (.free d.order fun _ => True)) (htrue : left.truth = .true)
    (ha : a.Within (.free d.order fun _ => True)) (hp : a.pending = [])
    (hb : a.replace (.standard d.order) left.facts = .ok b)
    (h : b.simplify (.standard d.order) fuel false n = .ok (rest, m)) (hrf : rest.isFalse = false) :
    rest.Settled (.free d.order (· ∉ left.store.keys)) ∧ rest.truth = .true := by
  obtain ⟨hE, -, -, hac, hσ⟩ := hleft.solved_of_true htrue
  rw [replace_eq ha.over.consistent, facts_of_no_equations hE] at hb
  have hready : (a.replaced (.standard d.order)
      (left.store.toList.map fun b => (.var b.1, b.2))).Ready (.free d.order (· ∉ left.store.keys)) :=
    ready_anew (within_empty.insertAll (listed_replaced hσ hac ha)) (extends_insertAll _ _)
      (by rw [hp]; nofun)
  have hbs := settled_of_normalize (.inr hready) hb
  refine ⟨simplify_settled hbs.sound h, ?_⟩
  have hdecided := truth_of_simplifySince hbs.sound
    (fun hbf => (pending_of_normalize (.inr hready) hb hbf).trans hp) (fun _ _ _ => rfl) h
  cases htr : rest.truth with
  | true => rfl
  | false => simp [isFalse, htr] at hrf
  | unknown => exact absurd htr hdecided

/-- What is left to show beyond a true constraint has the same unifiers, among those of the true
constraint. It is false, or it consists of bindings between terms without keys of the true
constraint. -/
theorem subtract_free (hleft : left.Settled (.free d.order fun _ => True))
    (htrue : left.truth = .true) (hgoal : goal.Settled (.free d.order fun _ => True))
    (hf : goal.isFalse = false) (hp : goal.pending = [])
    (h : left.subtract (.standard d.order) fuel goal n = .ok (rest, m)) :
    (∀ u : Substitution, u.Unifies left.listed →
      (u.Unifies goal.listed ↔ rest.isFalse = false ∧ u.Unifies rest.listed)) ∧
    (rest.isFalse = false →
      rest.Settled (.free d.order (· ∉ left.store.keys)) ∧ rest.truth = .true) := by
  have hgoal := (hgoal.within hf).lists
  constructor
  · intro u hu
    simp only [← sat_instances_iff d fun _ => True] at hu ⊢
    obtain ⟨hE, -, -, -, hσ⟩ := hleft.solved_of_true htrue
    -- to replace along the facts is to apply the store
    have hfacts : ∀ t, (Fragment.free d.order fun _ => True).Mem t →
        t.replace left.facts = left.store.apply t := fun t ht => by
      rw [facts_of_no_equations hE, ht.1.replace_eq_apply]
    obtain ⟨hsat, htruthful⟩ := sat_subtract
      (fun t ht => hfacts t ht ▸ Fragment.mem_apply _ hσ ht) hgoal hf h
      (fun t ht => hfacts t ht ▸ Meaning.val_apply _ hσ hu.1 ht) hu
    rw [← hsat]
    exact ⟨fun hs => ⟨Bool.eq_false_iff.mpr fun hrf => htruthful hrf hs, hs⟩, And.right⟩
  · intro hrf
    obtain ⟨a, k, ha, h⟩ := ((subtract_cases h).resolve_left (by simp [hf])).2
    have hready := difference_ready (c := left) hgoal
    rcases h with ⟨haf, rfl⟩ | ⟨haf, b, hb, h⟩
    · exact absurd (hrf.symm.trans haf) Bool.false_ne_true
    · have haw := (simplify_settled (.inr hready) ha).within haf
      have hap : a.pending = [] :=
        ((Meaning.instances d _ .empty).pending_of_simplifySince (.inr hready) ha haf).trans hp
      exact settled_simplify_replace hleft htrue haw hap hb h hrf

/-! ### What is left of an obligation -/

/-- What is left of an obligation over free terms has the same unifiers, among those of the known
constraint. It is false, or it consists of bindings without keys of the known constraint, none of
which leads to a variable to be chosen. -/
theorem residue_free (hleft : left.Settled (.free d.order fun _ => True))
    (htrue : left.truth = .true) (hright : right.Settled (.free d.order fun _ => True))
    (hp : right.isFalse = false → right.pending = [])
    (h : Residue (.standard d.order) fuel only left right residue) :
    (∀ u : Substitution, u.Unifies left.listed →
      (right.isFalse = false ∧ u.Unifies right.listed ↔
        residue.isFalse = false ∧ u.Unifies residue.listed)) ∧
    (residue.isFalse = false →
      residue.Settled (.free d.order (· ∉ left.store.keys)) ∧ residue.equations = .empty ∧
        residue.pending = [] ∧ ∀ x y, (x, .var y) ∈ residue.store.toList → y ∉ only) := by
  obtain ⟨-, goal, rest, n, m, hgoal, hrest, hresidue⟩ := h
  have hF := Fragment.symmetric_free d
  have hgs := orient_settled (hF _) hright hgoal
  have subtracted : goal.isFalse = false →
      (∀ u : Substitution, u.Unifies left.listed →
        (u.Unifies goal.listed ↔ rest.isFalse = false ∧ u.Unifies rest.listed)) ∧
      (rest.isFalse = false →
        rest.Settled (.free d.order (· ∉ left.store.keys)) ∧ rest.truth = .true) := fun hgf =>
    subtract_free hleft htrue hgs hgf ((pending_of_orient (hF _) hright hgoal hgf).trans
      (hp (isFalse_of_orient hgoal hgf))) hrest
  constructor
  · intro u hu
    constructor
    · rintro ⟨hrf, hs⟩
      obtain ⟨hgf, hs⟩ := Meaning.sat_orient (M := .instances d (fun _ => True) u) (hF _) hright
        hgoal hrf ((sat_instances_iff ..).mpr hs)
      obtain ⟨hunifies, hsettled⟩ := subtracted hgf
      obtain ⟨hrf, hs⟩ := (hunifies u hu).mp ((sat_instances_iff ..).mp hs)
      obtain ⟨hrf, hs⟩ := Meaning.sat_orient (M := .instances d (· ∉ left.store.keys) u) (hF _)
        (hsettled hrf).1 hresidue hrf ((sat_instances_iff ..).mpr hs)
      exact ⟨hrf, (sat_instances_iff ..).mp hs⟩
    · rintro ⟨hf, hs⟩
      have hrf := isFalse_of_orient hresidue hf
      have hgf := isFalse_of_subtract hrest hrf
      obtain ⟨hunifies, hsettled⟩ := subtracted hgf
      have hs := Meaning.sat_of_orient (M := .instances d (· ∉ left.store.keys) u) (hF _)
        (hsettled hrf).1 hresidue hf ((sat_instances_iff ..).mpr hs)
      have hs := (hunifies u hu).mpr ⟨hrf, (sat_instances_iff ..).mp hs⟩
      have hs := Meaning.sat_of_orient (M := .instances d (fun _ => True) u) (hF _) hright hgoal hgf
        ((sat_instances_iff ..).mpr hs)
      exact ⟨isFalse_of_orient hgoal hgf, (sat_instances_iff ..).mp hs⟩
  · intro hf
    have hrf := isFalse_of_orient hresidue hf
    obtain ⟨hrs, hrt⟩ := (subtracted (isFalse_of_subtract hrest hrf)).2 hrf
    obtain ⟨hE, horiented⟩ := oriented_of_true (hF _) hrs hrt hresidue hf
    obtain ⟨-, -, hrp, -, -⟩ := hrs.solved_of_true hrt
    exact ⟨orient_settled (hF _) hrs hresidue, hE,
      (pending_of_orient (hF _) hrs hresidue hf).trans hrp, horiented⟩

/-! ### Values for the variables to be chosen -/

/-- The store of the known constraint goes on to solve itself whatever is chosen for variables that
do not occur in it. -/
lemma unifies_comp (hleft : left.Settled (.free d.order fun _ => True)) (htrue : left.truth = .true)
    (hw : ∀ x ∈ w.keys, ¬ left.Mentions x) : (left.store.comp w).Unifies left.listed := by
  obtain ⟨hE, -, -, hac, hσ⟩ := hleft.solved_of_true htrue
  have hkept : ∀ b ∈ left.store.toList, w.apply (.var b.1) = .var b.1 ∧ w.apply b.2 = b.2 :=
    fun b hb => by
      have hfree : b.2.Frameless := (hσ b hb).2.1.frameless
      refine ⟨Term.apply_eq_self (.var _) fun x hx => ?_,
        Term.apply_eq_self hfree.canonical fun x hx => ?_⟩
      · exact fun hk => hw x hk (.inl ⟨b, hb, .inl (by simpa using hx)⟩)
      · exact fun hk => hw x hk (.inl ⟨b, hb, .inr hx⟩)
  rw [listed, hE]
  refine List.forall_mem_append.mpr ⟨List.forall_mem_map.mpr fun b hb => ?_, by simp⟩
  have hfree : b.2.Frameless := (hσ b hb).2.1.frameless
  rw [Substitution.apply_comp (.var _), Substitution.apply_comp hfree, (hkept b hb).1,
    (hkept b hb).2, hac.apply_var hb hfree]

/-- Bindings of variables to be chosen only can be chosen. -/
lemma unifies_of_bindsOnly (hres : residue.Settled (.free d.order (· ∉ left.store.keys)))
    (hf : residue.isFalse = false) (hE : residue.equations = .empty) :
    (left.store.comp residue.store).Unifies residue.listed := by
  obtain ⟨hw, hn⟩ := hres.resolve_left fun hr => absurd hr.1 (by simp [hf])
  rw [listed, hE]
  refine List.forall_mem_append.mpr ⟨List.forall_mem_map.mpr fun b hb => ?_, by simp⟩
  have hfree : b.2.Frameless := (hw.over.store b hb).2.1.frameless
  rw [Substitution.apply_comp (.var _), Substitution.apply_comp hfree, hn.acyclic.apply_var hb hfree]

/-- Where a choice makes what is left to show hold, nothing but variables to be chosen is bound: a
variable that is not chosen could only have the value of another such variable, and such a binding
does not hold. -/
lemma keys_of_unifies (hres : residue.Settled (.free d.order (· ∉ left.store.keys)))
    (hf : residue.isFalse = false)
    (horiented : ∀ x y, (x, .var y) ∈ residue.store.toList → y ∉ only)
    (hw : ∀ x ∈ w.keys, x ∈ only) (hs : (left.store.comp w).Unifies residue.listed) :
    ∀ x ∈ residue.store.keys, x ∈ only := by
  obtain ⟨hwithin, hn⟩ := hres.resolve_left fun hr => absurd hr.1 (by simp [hf])
  -- a variable that is neither chosen nor bound by the known constraint is its own value
  have kept : ∀ y, y ∉ only → y ∉ left.store.keys → (left.store.comp w).apply (.var y) = .var y := by
    intro y hy hk
    have hyw : y ∉ w.keys := fun h => hy (hw y h)
    rw [Substitution.apply_var, Substitution.find?_comp, Substitution.find?_eq_none_iff.mpr hyw,
      Substitution.find?_eq_none_iff.mpr hk]
    rfl
  intro x hx
  by_contra hxo
  obtain ⟨t, ht⟩ := Substitution.mem_keys_iff.mp hx
  have hb := Substitution.mem_toList_iff.mpr ht
  obtain ⟨hxfree, htfree⟩ := hwithin.over.store _ hb
  have hxk : x ∉ left.store.keys := hxfree.2 x (by simp)
  have hval : (left.store.comp w).apply (.var x) = (left.store.comp w).apply t :=
    hs ⟨.var x, t⟩ (List.mem_append_left _ (List.mem_map_of_mem hb))
  rw [kept x hxo hxk] at hval
  obtain ⟨y, rfl⟩ := Term.exists_var_of_apply hval.symm
  rw [kept y (horiented x y hb) (htfree.2 y (by simp))] at hval
  obtain rfl : x = y := Term.var.inj hval
  exact hn.acyclic _ hb x (by simp) hx

/-- The values of a choice, and then those of the known constraint, are the values of the
composition. -/
lemma unifies_comp_iff {σ : Substitution} (hright : right.Within (.free d.order fun _ => True)) :
    (σ.comp w).Unifies right.listed ↔
      ∀ e ∈ right.listed, σ.apply (w.apply e.left) = σ.apply (w.apply e.right) :=
  forall₂_congr fun e he => by
    obtain ⟨hl, hr⟩ := hright.over.listed e he
    rw [Substitution.apply_comp hl.1.frameless, Substitution.apply_comp hr.1.frameless]

/-- What is left to show binds variables to be chosen only exactly when they can be chosen so that
the second constraint holds. -/
theorem bindsOnly_iff_exists (hleft : left.Settled (.free d.order fun _ => True))
    (htrue : left.truth = .true) (hright : right.Settled (.free d.order fun _ => True))
    (hp : right.isFalse = false → right.pending = []) (honly : ∀ x ∈ only, ¬ left.Mentions x)
    (h : Residue (.standard d.order) fuel only left right residue) :
    residue.bindsOnly only = true ↔ right.isFalse = false ∧ ∃ w : Substitution,
      (∀ x ∈ w.keys, x ∈ only) ∧
        ∀ e ∈ right.listed,
          left.store.apply (w.apply e.left) = left.store.apply (w.apply e.right) := by
  obtain ⟨hunifies, hsolved⟩ := residue_free hleft htrue hright hp h
  constructor
  · intro hbinds
    simp only [bindsOnly, isSubstitution, Bool.and_eq_true, Bool.not_eq_true',
      List.all_eq_true, List.contains_eq_mem, decide_eq_true_eq] at hbinds
    obtain ⟨⟨⟨hf, -⟩, -⟩, hkeys⟩ := hbinds
    obtain ⟨hrs, hE, -, -⟩ := hsolved hf
    have hstore := unifies_comp hleft htrue fun x hx => honly x (hkeys x hx)
    obtain ⟨hrf, hs⟩ := (hunifies _ hstore).mpr ⟨hf, unifies_of_bindsOnly hrs hf hE⟩
    exact ⟨hrf, residue.store, hkeys, (unifies_comp_iff (hright.within hrf)).mp hs⟩
  · rintro ⟨hrf, w, hw, hs⟩
    have hstore := unifies_comp hleft htrue fun x hx => honly x (hw x hx)
    have hs := (unifies_comp_iff (hright.within hrf)).mpr hs
    obtain ⟨hf, hs⟩ := (hunifies _ hstore).mp ⟨hrf, hs⟩
    obtain ⟨hrs, hE, hP, horiented⟩ := hsolved hf
    have hkeys := keys_of_unifies hrs hf horiented hw hs
    simpa [bindsOnly, isSubstitution, hf, hE, hP] using hkeys

/-! ### Implication -/

/-- An implication that is answered by its first obligation. -/
lemma implies_cases {T : Theory} {σ : Type} {solver : Solver σ} {limits : TimeLimits} {s s' : σ}
    {b : Bool} (h : left.implies T solver limits fuel right only s n = .ok ((.ok b, s'), m)) :
    ∃ k o, Discharged T solver limits k only left right o ∧
      (o = .settled → b = true) ∧ (o = .failed → b = false) := by
  unfold implies at h
  cases fuel with
  | zero => cases h
  | succ k =>
      rw [dischargeAll] at h
      obtain ⟨r, s₁, j, hr, h⟩ := Solving.bind_eq_ok.mp h
      match r with
      | .error failure => cases (Solving.pure_eq_ok.mp h).1
      | .ok .settled =>
          have hb : b = true := by
            simp only [dischargeAll] at h
            cases (Solving.pure_eq_ok.mp h).1
            rfl
          exact ⟨k, _, discharged hr, fun _ => hb, nofun⟩
      | .ok .failed =>
          cases (Solving.pure_eq_ok.mp h).1
          exact ⟨k, _, discharged hr, nofun, fun _ => rfl⟩
      | .ok (.split cases) => exact ⟨k, _, discharged hr, nofun, nofun⟩

/-- Over free terms and without a solver, an obligation is settled when what is left of it binds
variables to be chosen only, and otherwise the proof fails. -/
lemma Discharged.of_free {σ : Type} {limits : TimeLimits} {o : Outcome}
    (hleft : left.Settled (.free d.order fun _ => True)) (htrue : left.truth = .true)
    (hright : right.Settled (.free d.order fun _ => True))
    (hp : right.isFalse = false → right.pending = [])
    (h : Discharged (.standard d.order) (.none : Solver σ) limits fuel only left right o) :
    ∃ residue, Residue (.standard d.order) fuel only left right residue ∧
      (o = .settled ∧ residue.bindsOnly only = true ∨
        o = .failed ∧ residue.bindsOnly only = false) := by
  obtain ⟨hE, -, hP, -, -⟩ := hleft.solved_of_true htrue
  have hf : left.isFalse = false := by simp [isFalse, htrue]
  cases h with
  | vacuous hfalse => exact absurd (hf.symm.trans hfalse) Bool.false_ne_true
  | refuted hres hunsat =>
      have hsub : left.isSubstitution = true := by simp [isSubstitution, hf, hE, hP]
      rw [checkUnsat, if_neg (by simp [hf]), if_pos hsub] at hunsat
      exact absurd hunsat Bool.false_ne_true
  | bound hres hbinds => exact ⟨_, hres, .inl ⟨rfl, hbinds⟩⟩
  | proved _ _ hproved => exact absurd hproved Bool.false_ne_true
  | split hres hrf hcondition =>
      obtain ⟨hsettled, -⟩ := (residue_free hleft htrue hright hp hres).2 hrf
      rw [(hsettled.within hrf).innermostCondition_eq_none] at hcondition
      cases hcondition
  | failed hres hbinds => exact ⟨_, hres, .inr ⟨rfl, hbinds⟩⟩

/-- An implication between constraints over free terms is proved without a solver exactly when the
first constraint is false or some choice of values for the given variables makes the two sides of
all bindings and equations of the second, which is not false, equal under the store of the first. -/
theorem implies_iff_exists {σ : Type} (d : Subsorts) {limits : TimeLimits} {s s' : σ} {b : Bool}
    (hleft : left.BuiltOver (.free d.order fun _ => True)) (hdecided : left.truth ≠ .unknown)
    (hright : right.BuiltOver (.free d.order fun _ => True))
    (honly : ∀ x ∈ only, ¬ left.Mentions x)
    (h : left.implies (.standard d.order) .none limits fuel right only s n = .ok ((.ok b, s'), m)) :
    b = true ↔ left.isFalse = true ∨ right.isFalse = false ∧ ∃ w : Substitution,
      (∀ x ∈ w.keys, x ∈ only) ∧
        ∀ e ∈ right.listed,
          left.store.apply (w.apply e.left) = left.store.apply (w.apply e.right) := by
  obtain ⟨k, o, hdischarged, hsettled, hfailed⟩ := implies_cases h
  cases htrue : left.truth with
  | unknown => exact absurd htrue hdecided
  | false =>
      have hf : left.isFalse = true := by simp [isFalse, htrue]
      refine iff_of_true (hsettled ?_) (.inl hf)
      cases hdischarged with
      | vacuous | refuted | bound | proved => rfl
      | split hres | failed hres => exact absurd (hf.symm.trans hres.1) Bool.false_ne_true.symm
  | true =>
      have hf : left.isFalse = false := by simp [isFalse, htrue]
      have hpending := hright.pending (.instances d _ .empty)
      obtain ⟨residue, hres, ho⟩ :=
        hdischarged.of_free hleft.settled htrue hright.settled hpending
      rw [hf, or_iff_right Bool.false_ne_true,
        ← bindsOnly_iff_exists hleft.settled htrue hright.settled hpending honly hres]
      rcases ho with ⟨rfl, hbinds⟩ | ⟨rfl, hbinds⟩
      · exact iff_of_true (hsettled rfl) hbinds
      · rw [hfailed rfl, hbinds]

/-- The successor of one variable is that of another one, when the latter can be chosen. -/
theorem implies_iff_exists_successor :
    let T : Theory := .standard Subsorts.builtin.order
    let x : Var := ⟨"X", .top, false, none⟩
    let y : Var := ⟨"Y", .top, false, none⟩
    let z : Var := ⟨"Z", .top, false, none⟩
    let succ (t : Term) : Term := .app ⟨"succ", 1, none, .constructor⟩ [t]
    ∃ left right : Constraint, empty.add T ⟨.var x, succ (.var y)⟩ = .ok left ∧
      empty.add T ⟨.var x, succ (.var z)⟩ = .ok right ∧
      left.implies T (Solver.none : Solver Unit) {} 9 right [z] () 0 = .ok ((.ok true, ()), 0) ∧
      ∃ w : Substitution, (∀ v ∈ w.keys, v ∈ [z]) ∧
        ∀ e ∈ right.listed,
          left.store.apply (w.apply e.left) = left.store.apply (w.apply e.right) := by
  intro T x y z succ
  have hfree : ∀ v : Var, v.sort = .top → (Term.var v).FreeOver (fun _ => True) ∧
      (succ (.var v)).FreeOver (fun _ => True) := fun v hv =>
    ⟨⟨.var hv, by simp⟩, ⟨.app rfl rfl rfl (by simpa using Term.Free.var hv), by simp⟩⟩
  have hleft : empty.add T ⟨.var x, succ (.var y)⟩ =
      .ok { store := .single x (succ (.var y)) } := by cbv
  have hright : empty.add T ⟨.var x, succ (.var z)⟩ =
      .ok { store := .single x (succ (.var z)) } := by cbv
  have hrun : implies T (Solver.none : Solver Unit) {} 9 { store := .single x (succ (.var y)) }
      { store := .single x (succ (.var z)) } [z] () 0 = .ok ((.ok true, ()), 0) := by cbv
  have hx := (hfree x rfl).1
  have hexists := (implies_iff_exists Subsorts.builtin
    (.add .empty (by exact ⟨hx, (hfree y rfl).2⟩) hleft) Truth.noConfusion
    (.add .empty (by exact ⟨hx, (hfree z rfl).2⟩) hright)
    (by simp [Mentions, succ]; decide) hrun).mp rfl
  exact ⟨_, _, hleft, hright, hrun, (hexists.resolve_left (by decide)).2⟩

end Constraint

end SolvedForm

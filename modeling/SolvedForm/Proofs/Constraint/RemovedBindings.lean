import SolvedForm.Proofs.Constraint.Loose
import SolvedForm.Proofs.Constraint.Materialization
import SolvedForm.Proofs.Constraint.RenamedAlternatives

/-!
The alternatives of a constraint after bindings have been removed.

* `Constraint.removed`, `Constraint.removeBindings_eq_without`: the bindings that removal leaves out.
* `Constraint.Loose.alternatives`: without bindings that nothing depends on, a constraint has the
  alternatives without these bindings.
* `Constraint.Derived.alternatives_removeBindings`: so removal changes neither how many there are nor
  whether they come to an end.
* `Constraint.alternatives_removeBindings_mentioned`, `Constraint.alternatives_removeBindings_sort`,
  `Constraint.alternatives_removeBindings_fresh`: alternatives that a binding excludes come back with its
  removal where they mention its variable, where its value alone comes to have a wrong sort, and where
  its variable is given out again.
-/

namespace SolvedForm.Constraint

open Term

variable {T : Theory} {order : SortOrder} {a c d : Constraint} {xs V : List Var} {x : Var}
  {as cs ds : List Constraint} {D : List (List Constraint)} {fuel n : Nat}

/-! ### Removal -/

/-- Those of given variables that are bound to values which fit their sorts. -/
def removed (order : SortOrder) (V : List Var) (c : Constraint) : List Var :=
  V.filter fun x => (c.store.find? x).any fun t => order.le t.sort x.sort

lemma mem_removed : x ∈ c.removed order V ↔
    x ∈ V ∧ ∃ t, c.store.find? x = some t ∧ order.le t.sort x.sort = true := by
  simp [removed, Option.any_eq_true]

lemma removeBindings_eq_without (c : Constraint) (V : List Var) :
    c.removeBindings T V = (c.without (c.removed T.order V)).updateTruth := by
  unfold removeBindings
  refine congrArg Constraint.updateTruth ?_
  induction V generalizing c with
  | nil => cases c; simp [removed, without]
  | cons x V ih =>
      rw [List.foldl_cons, ih]
      cases hfind : c.store.find? x with
      | none => simp [removed, hfind]
      | some t =>
          cases hle : T.order.le t.sort x.sort with
          | false => simp [removed, hfind, hle]
          | true =>
              -- the binding is gone before the others are looked at
              have hcons : c.removed T.order (x :: V) = x :: c.removed T.order V := by
                simp [removed, hfind, hle]
              have hsame : ∀ b ∈ (c.store.erase x).toList,
                  b.1 ∈ ({ c with store := c.store.erase x } : Constraint).removed T.order V ↔
                    b.1 ∈ c.removed T.order V := fun b hb => by
                rw [mem_removed, mem_removed, Substitution.find?_erase,
                  if_neg (Substitution.mem_toList_erase.mp hb).1]
              simp only [hle, ↓reduceIte]
              rw [hcons, without, without, Substitution.without_cons,
                Substitution.without_congr hsame]

lemma pending_removeBindings : (c.removeBindings T V).pending = c.pending := by
  rw [removeBindings_eq_without, pending_updateTruth]
  rfl

/-- Nothing is known of a constraint with disjunctions beforehand, so removal does not change that. -/
lemma removeBindings_of_pending (hc : c.isFalse = false) (hrest : c.AtRest) (hD : c.pending ≠ []) :
    c.removeBindings T V = c.without (c.removed T.order V) := by
  have htruth : c.truth = .unknown := by
    cases ht : c.truth with
    | true => exact absurd (hrest.decided ht) hD
    | false => simp [isFalse, ht] at hc
    | unknown => rfl
  rw [removeBindings_eq_without, updateTruth_eq (by exact hc)]
  simp [without, hD, htruth]

/-! ### Putting in an alternative -/

/-- Given variables occur in nothing that the constraint gives to another one. -/
structure Spares (order : SortOrder) (xs : List Var) (a : Constraint) : Prop where
  evaluated : a.Evaluated
  content : ∀ e ∈ a.content (.standard order), e.Ranges (· ∉ xs)

lemma Evaluated.spares (ha : a.Evaluated) (h : ∀ x ∈ xs, ¬ a.Mentions x) : a.Spares order xs := by
  refine ⟨ha, fun e he => ?_⟩
  rcases List.mem_append.mp he with he | he
  · obtain ⟨q, hq, he⟩ := List.mem_flatMap.mp he
    obtain ⟨b, hb, rfl⟩ := List.mem_map.mp hq
    refine (Theory.preserves_ranges order _).obligations ⟨?_, ?_⟩ e he
    · exact Term.Ranges.var_iff.mpr fun hx => h b.1 hx (.inl ⟨b, hb, .inl rfl⟩)
    · exact fun x hxb hx => h x hx (.inl ⟨b, hb, .inr hxb⟩)
  · exact ⟨fun x hxe hx => h x hx (.inr ⟨e, he, .inl hxe⟩),
      fun x hxe hx => h x hx (.inr ⟨e, he, .inr hxe⟩)⟩

lemma Loose.conjoin (h : c.Loose order xs) (ha : a.Spares order xs) :
    (c.conjoin (.standard order) a).Loose order xs where
  untangled := h.untangled.congr (store_conjoin c a)
  evaluated := h.evaluated.conjoin ha.evaluated
  apart := by
    rw [← conjoin_without]
    unfold Constraint.conjoin
    split
    · exact h.apart
    · split
      · exact h.apart.falsify _
      · have hcontent := h.apart.foldl_insertEquation ha.content
        unfold addPending
        split
        · exact hcontent
        · exact ⟨hcontent.equations, hcontent.buffer, hcontent.store, fun _ _ _ _ => trivial⟩
  held := by
    rw [store_conjoin]
    exact h.held

/-- An alternative joins the constraint, and the whole is simplified. -/
lemma Agrees.extend (h : Agrees order xs c d) (hn : ∀ x ∈ xs, x.Behind n)
    (ha : a.Spares order xs) :
    Engine.Tallies (Agrees order xs)
      ((do let e ← c.addConstraint (.standard order) a; e.simplify (.standard order) fuel false :
        Engine Constraint) n)
      ((do let e ← d.addConstraint (.standard order) a; e.simplify (.standard order) fuel false :
        Engine Constraint) n) := by
  obtain ⟨c', d', hc', hd', hagrees⟩ : ∃ c' d', c.addConstraint (.standard order) a = .ok c' ∧
      d.addConstraint (.standard order) a = .ok d' ∧ Agrees order xs c' d' := by
    cases h with
    | refuted hc hd =>
        refine ⟨c, d, ?_, ?_, .refuted hc hd⟩
        · rw [addConstraint, conjoin_of_isFalse hc, normalize_self (.inl hc)]
        · rw [addConstraint, conjoin_of_isFalse hd, normalize_self (.inl hd)]
    | loose _ hloose =>
        obtain ⟨c', d', hc', hd', hagrees, -⟩ := (hloose.conjoin ha).normalize
        refine ⟨c', d', hc', ?_, hagrees⟩
        rw [addConstraint, conjoin_without, hd']
  rw [Engine.bind_of_ok (m := n) (by rw [hc']; rfl), Engine.bind_of_ok (m := n) (by rw [hd']; rfl)]
  exact hagrees.simplifySince hn none (by simp)

/-- All alternatives of a disjunction join the constraint, each one on its own. -/
lemma Agrees.extendEach (h : Agrees order xs c d) (hn : ∀ x ∈ xs, x.Behind n)
    (has : ∀ a ∈ as, a.Spares order xs) :
    Engine.Tallies (List.Forall₂ (Agrees order xs))
      ((as.mapM fun a => do
        let e ← c.addConstraint (.standard order) a
        e.simplify (.standard order) fuel false : Engine (List Constraint)) n)
      ((as.mapM fun a => do
        let e ← d.addConstraint (.standard order) a
        e.simplify (.standard order) fuel false : Engine (List Constraint)) n) := by
  refine Engine.tallies_mapM (R := Eq) (List.forall₂_refl as)
    (ascends_extend (Unifier.ascends_structural order) fuel c) fun a ha a' m hm heq => ?_
  subst heq
  exact h.extend (fun x hx => (hn x hx).mono hm) (has a ha)

lemma tallies_extendBy (hcs : List.Forall₂ (Agrees order xs) cs ds) (hn : ∀ x ∈ xs, x.Behind n)
    (has : ∀ a ∈ as, a.Spares order xs) :
    Engine.Tallies (List.Forall₂ (Agrees order xs)) (extendBy (.standard order) fuel cs as n)
      (extendBy (.standard order) fuel ds as n) := by
  have hascends := fun c => Engine.ascends_mapM
    (ascends_extend (T := .standard order) (Unifier.ascends_structural order) fuel c) as
  refine (Engine.tallies_mapM hcs hascends fun c _ d m hm h =>
    h.extendEach (fun x hx => (hn x hx).mono hm) has).bind (Engine.ascends_mapM hascends cs)
      fun rows rows' m _ h => .ok m (List.rel_filter (fun c d h => ?_) (List.rel_flatten h))
  cases h with
  | refuted hc hd => simp [hc, hd]
  | loose => rfl

lemma tallies_foldlM_extendBy (hcs : List.Forall₂ (Agrees order xs) cs ds)
    (hn : ∀ x ∈ xs, x.Behind n) (hD : ∀ as ∈ D, ∀ a ∈ as, a.Spares order xs) :
    Engine.Tallies (List.Forall₂ (Agrees order xs)) (D.foldlM (extendBy (.standard order) fuel) cs n)
      (D.foldlM (extendBy (.standard order) fuel) ds n) := by
  induction D generalizing cs ds n with
  | nil => exact .ok n hcs
  | cons as D ih =>
      rw [List.forall_mem_cons] at hD
      rw [List.foldlM_cons, List.foldlM_cons]
      exact (tallies_extendBy hcs hn hD.1).bind
        (ascends_extendBy (Unifier.ascends_structural order) fuel cs as) fun cs ds m hm h =>
          ih h (fun x hx => (hn x hx).mono hm) hD.2

/-- Without the bindings a constraint has the same alternatives, without these bindings. -/
theorem Loose.alternatives (h : c.Loose order xs) (hn : ∀ x ∈ xs, x.Behind n)
    (hD : ∀ D ∈ c.pending, ∀ a ∈ D, a.Spares order xs) (hpending : c.pending ≠ []) :
    Engine.Tallies (List.Forall₂ (Agrees order xs)) (c.alternatives (.standard order) fuel n)
      ((c.without xs).alternatives (.standard order) fuel n) := by
  have hbase : ({ c with pending := [], normal := false } : Constraint).Loose order xs :=
    h.of_store rfl (h.evaluated.of_eq rfl rfl) h.apart.equations h.apart.buffer
  obtain ⟨b, b', hb, hb', hagrees, -⟩ := hbase.normalize
  have hnormal : ({ c.without xs with pending := [], normal := false } : Constraint).normalize
      (.standard order) = .ok b' := hb'
  rw [Constraint.alternatives, Constraint.alternatives, if_neg (by simp [hpending]),
    if_neg (by simp [without, hpending]), Engine.bind_of_ok (m := n) (by rw [hb]; rfl),
    Engine.bind_of_ok (m := n) (by rw [hnormal]; rfl)]
  exact tallies_foldlM_extendBy (.cons hagrees .nil) hn hD

/-! ### Derived constraints -/

/-- What remains of a derived constraint does not depend on the bindings removed, where it does not
mention their variables and the values keep their sorts. -/
lemma Derived.loose (h : c.Derived (.standard order) (fun _ => True) MovesApart)
    (hc : c.isFalse = false) (hmention : ∀ x ∈ xs, ¬ (c.without xs).Mentions x)
    (hall : ∀ x ∈ xs, ∃ t, c.store.find? x = some t ∧ order.Keeps x t) : c.Loose order xs := by
  have hwell := (h.throughout_wellFormed (Theory.stable_canonical order)).holds
  refine ⟨hwell.untangled, (h.throughout_evaluated (Theory.stable_canonical order) id).holds,
    ⟨fun e he => ⟨fun x hx hxs => hmention x hxs (.inr ⟨e, he, .inl hx⟩),
      fun x hx hxs => hmention x hxs (.inr ⟨e, he, .inr hx⟩)⟩, ?_,
      fun b hb x hx hxs => hmention x hxs (.inl ⟨b, hb, .inr hx⟩), fun _ _ _ _ => trivial⟩, ?_⟩
  · rw [show (c.without xs).buffer = .empty from hwell.atRest.drained hc]
    simp
  · rintro ⟨x, t⟩ hb hx
    obtain ⟨t', ht', hkeeps⟩ := hall x hx
    obtain rfl : t = t' := Option.some.inj ((Substitution.mem_toList_iff.mp hb).symm.trans ht')
    rcases hkeeps with ⟨y, rfl, hcovers⟩ | hadmits
    · have hy : c.store.find? y = none :=
        Substitution.find?_eq_none_iff.mpr (Term.Nodes.var_iff.mp (hwell.untangled _ hb))
      refine .inl ⟨y, fun hys => ?_, hcovers, by rw [Substitution.apply_var, hy, Option.getD_none]⟩
      obtain ⟨u, hu, -⟩ := hall y hys
      simp [hy] at hu
    · exact .inr hadmits

/-- Removing bindings leaves the number of alternatives as it is, where nothing that remains mentions
the variables removed, no fresh variable will be one of them, and none of the bindings removed is the
only one that new bindings can contradict. -/
theorem Derived.alternatives_removeBindings
    (h : c.Derived (.standard order) (fun _ => True) MovesApart) (hc : c.isFalse = false)
    (hV : ∀ x ∈ V, ∀ t, c.store.find? x = some t → order.le t.sort x.sort = true →
      ¬ (c.removeBindings (.standard order) V).Concerns x ∧ x.Behind n ∧ order.Keeps x t) :
    ((c.removeBindings (.standard order) V).alternatives (.standard order) fuel n).map
        (fun r => (r.1.length, r.2)) =
      (c.alternatives (.standard order) fuel n).map fun r => (r.1.length, r.2) := by
  have hwell := h.throughout_wellFormed (Theory.stable_canonical order)
  have hevaluated := h.throughout_evaluated (Theory.stable_canonical order) id
  by_cases hpending : c.pending = []
  · rw [Constraint.alternatives, Constraint.alternatives,
      if_pos (by simp [pending_removeBindings, hpending]), if_pos (by simp [hpending])]
    rfl
  rw [removeBindings_of_pending hc hwell.holds.atRest hpending] at hV ⊢
  generalize hxs : c.removed (Theory.standard order).order V = xs at hV ⊢
  have hremoved : ∀ x ∈ xs, ¬ (c.without xs).Concerns x ∧ x.Behind n ∧
      ∃ t, c.store.find? x = some t ∧ order.Keeps x t := fun x hx => by
    obtain ⟨hx, t, ht, hle⟩ := mem_removed.mp (hxs ▸ hx)
    obtain ⟨hconcerns, hbehind, hkeeps⟩ := hV x hx t ht hle
    exact ⟨hconcerns, hbehind, t, ht, hkeeps⟩
  have hloose : c.Loose order xs :=
    h.loose hc (fun x hx hm => (hremoved x hx).1 (.inl hm)) fun x hx => (hremoved x hx).2.2
  have hspares : ∀ D ∈ c.pending, ∀ a ∈ D, a.Spares order xs := fun D hD a ha =>
    (hevaluated.stored.pending D hD a ha).2.holds.spares fun x hx hm =>
      (hremoved x hx).1 (.inr ⟨D, hD, a, ha, hm⟩)
  have hbehind : ∀ x ∈ xs, x.Behind n := fun x hx => (hremoved x hx).2.1
  exact (hloose.alternatives hbehind hspares hpending).map_eq fun _ _ h => h.length_eq.symm

/-- Values that contain a variable of the disjunction, which it does not mention, and a ground value are
removed; the binding that excludes one of the two combinations stays. -/
theorem Derived.alternatives_removeBindings_beside :
    let T : Theory := .standard Subsorts.builtin.order
    let P : Var := ⟨"P", .top, false, none⟩
    let V : List Var := [named "X" .bool, P, named "N" .int]
    ∃ c : Constraint, c.Derived T (fun _ => True) MovesApart ∧ c.isFalse = false ∧
      (∀ x ∈ V, ∀ t, c.store.find? x = some t → T.order.le t.sort x.sort = true →
        ¬ (c.removeBindings T V).Concerns x ∧ x.Behind 0 ∧ T.order.Keeps x t) ∧
      c.store.size = 4 ∧ (c.removeBindings T V).store = .single (named "B" .bool) (.bool true) ∧
      c.pending.map List.length = [2] ∧
      ∃ ds, c.alternatives T 4 0 = .ok (ds, 0) ∧ ds.length = 1 ∧
        ((c.removeBindings T V).alternatives T 4 0).map (fun r => (r.1.length, r.2)) =
          (c.alternatives T 4 0).map fun r => (r.1.length, r.2) := by
  intro T P V
  let pair : Term := .app ⟨"pair", 2, none, .constructor⟩ [.var (named "A" .bool), .bool true]
  let σ : Substitution :=
    .ofList [(named "X" .bool, .var (named "A" .bool)), (P, pair), (named "N" .int, .int 5),
      (named "B" .bool, .bool true)]
  let c : Constraint := { oneTrue with store := σ }
  have hadd : oneTrue.addSubstitution T σ = .ok c := by cbv
  have hc : c.Derived T (fun _ => True) MovesApart :=
    .change derived_oneTrue .empty (.addSubstitution (fun _ _ => trivial) hadd)
  let kept : Constraint := { oneTrue with store := .single (named "B" .bool) (.bool true) }
  have hkept : c.removeBindings T V = kept := by cbv
  have hmentions : ∀ x, kept.Mentions x → x = named "B" .bool := by
    rintro x (⟨b, hb, hx⟩ | ⟨e, he, -⟩)
    · rw [List.mem_singleton.mp hb] at hx
      simpa using hx
    · cases he
  have hconcerns : ∀ x ∈ V, ¬ kept.Concerns x ∧ x.Behind 0 := by
    intro x hx
    have hx : x.anonymous = false ∧ x ≠ named "A" .bool ∧ x ≠ named "B" .bool := by
      revert x
      decide
    refine ⟨fun hm => ?_, fun k _ hk => ?_⟩
    · exact (hm.mentions_or rfl).elim (fun hm => hx.2.2 (hmentions x hm)) fun hm =>
        hm.elim hx.2.1 hx.2.2
    · simp [hk, Var.fresh] at hx
  have hkeeps : ∀ x t, c.store.find? x = some t → T.order.Keeps x t := by
    intro x t ht
    have ht := Substitution.mem_of_mem_ofList (Substitution.mem_toList_iff.mpr ht)
    simp only [List.mem_cons, Prod.mk.injEq, List.not_mem_nil, or_false] at ht
    rcases ht with ⟨rfl, rfl⟩ | ⟨rfl, rfl⟩ | ⟨rfl, rfl⟩ | ⟨rfl, rfl⟩
    · exact Subsorts.wellFormed_builtin.keeps_var rfl
    · exact Subsorts.keeps_of_top rfl
    · exact SortOrder.keeps_of_ground (by simp) (Subsorts.compatible_self _ _)
    · exact SortOrder.keeps_of_ground (by simp) (Subsorts.compatible_self _ _)
  have hV : ∀ x ∈ V, ∀ t, c.store.find? x = some t → T.order.le t.sort x.sort = true →
      ¬ (c.removeBindings T V).Concerns x ∧ x.Behind 0 ∧ T.order.Keeps x t := fun x hx t ht _ => by
    rw [hkept]
    exact ⟨(hconcerns x hx).1, (hconcerns x hx).2, hkeeps x t ht⟩
  have hrun : (c.alternatives T 4 0).toOption.any
      (fun r => r.2 == 0 && r.1.length == 1) = true := by decide +kernel
  obtain ⟨⟨ds, n⟩, hds, htest⟩ := exists_eq_ok_of_any hrun
  obtain ⟨rfl, hlength⟩ : n = 0 ∧ ds.length = 1 := by simpa using htest
  exact ⟨c, hc, rfl, hV, rfl, hkept ▸ rfl, rfl, ds, hds, hlength,
    hc.alternatives_removeBindings rfl hV⟩

/-- The alternatives mention the variable removed. -/
theorem alternatives_removeBindings_mentioned :
    let T : Theory := .standard Subsorts.builtin.order
    let V : List Var := [named "B" .bool]
    ∃ c : Constraint, c.Derived T (fun _ => True) MovesApart ∧ c.isFalse = false ∧
      (c.alternatives T 4 0).map (fun r => r.1.length) = .ok 1 ∧
      ((c.removeBindings T V).alternatives T 4 0).map (fun r => r.1.length) = .ok 2 := by
  intro T V
  let c : Constraint := { oneTrue with store := .single (named "B" .bool) (.bool true) }
  have hadd : oneTrue.add T ⟨.var (named "B" .bool), .bool true⟩ = .ok c := by cbv
  exact ⟨c, .change derived_oneTrue .empty (.add ⟨trivial, trivial⟩ hadd), rfl, by decide +kernel,
    by decide +kernel⟩

/-- Nothing mentions the variable removed, but its value is the only one that comes to have a wrong
sort. -/
theorem alternatives_removeBindings_sort :
    let T : Theory := .standard Subsorts.builtin.order
    let V : List Var := [named "X" .int]
    ∃ c : Constraint, c.Derived T (fun _ => True) MovesApart ∧ c.isFalse = false ∧
      (∀ x ∈ V, ¬ (c.removeBindings T V).Concerns x ∧ x.Behind 0) ∧
      (c.alternatives T 4 0).map (fun r => r.1.length) = .ok 1 ∧
      ((c.removeBindings T V).alternatives T 4 0).map (fun r => r.1.length) = .ok 2 := by
  intro T V
  let t : Term := .ofOperator .ite [.var (named "A" .bool), .int 1, .bool true]
  have hruns : (oneTrue.add T ⟨.var (named "X" .int), t⟩).toOption.any (fun c =>
      !c.isFalse && (c.removeBindings T V).store.toList.isEmpty &&
      (c.removeBindings T V).equations.toList.isEmpty &&
      (c.alternatives T 4 0).map (fun r => r.1.length) = .ok 1 &&
      ((c.removeBindings T V).alternatives T 4 0).map (fun r => r.1.length) = .ok 2) = true := by
    decide +kernel
  obtain ⟨c, hadd, htest⟩ := exists_eq_ok_of_any hruns
  simp only [Bool.and_eq_true, Bool.not_eq_true', List.isEmpty_iff, decide_eq_true_eq] at htest
  obtain ⟨⟨⟨⟨hc, hstore⟩, hequations⟩, hone⟩, htwo⟩ := htest
  refine ⟨c, .change derived_oneTrue .empty (.add ⟨trivial, trivial⟩ hadd), hc, fun x hx => ?_, hone,
    htwo⟩
  obtain rfl : x = named "X" .int := List.mem_singleton.mp hx
  refine ⟨fun hconcerns => ?_, fun k _ hk => ?_⟩
  · have hnormal : (oneTrue.insertAll T [⟨.var (named "X" .int), t⟩]).normalize T = .ok c := hadd
    have hpending : (c.removeBindings T V).pending = oneTrue.pending := by
      rw [pending_removeBindings, pending_normalize hnormal, pending_insertAll]
    rcases hconcerns.mentions_or hpending with hm | hx | hx
    · simp [Mentions, hstore, hequations] at hm
    · revert hx
      decide
    · revert hx
      decide
  · simp [named, Var.fresh] at hk

/-- Nothing mentions the variable removed, but it is the next fresh one. -/
theorem alternatives_removeBindings_fresh :
    let T : Theory := .standard Subsorts.builtin.order
    let V : List Var := [.fresh 0 .map]
    ∃ c : Constraint, c.Derived T (fun _ => True) MovesApart ∧ c.isFalse = false ∧
      (∀ x ∈ V, ¬ (c.removeBindings T V).Concerns x ∧
        ∀ t, c.store.find? x = some t → T.order.Keeps x t) ∧
      (c.alternatives T 4 0).map (fun r => r.1.length) = .ok 1 ∧
      ((c.removeBindings T V).alternatives T 4 0).map (fun r => r.1.length) = .ok 2 := by
  intro T V
  let key (name : String) (frame : Option Var) : Term :=
    .map [(.app ⟨name, 0, none, .constructor⟩ [], .int 0)] frame
  let F : Var := named "F" .map
  let pair (s t : Term) : Term := .app ⟨"pair", 2, none, .constructor⟩ [s, t]
  let e : Equation := ⟨pair (key "c" (some F)) (.var F),
    pair (key "d" (some (named "G" .map))) (key "d" none)⟩
  let c₁ : Constraint := { oneTrue with store := .single (.fresh 0 .map) (key "a" none) }
  let c : Constraint := { c₁ with equations := .ofList [e] }
  have hadd₁ : oneTrue.add T ⟨.var (.fresh 0 .map), key "a" none⟩ = .ok c₁ := by cbv
  have hadd : c₁.add T e = .ok c := by cbv
  have hc : c.Derived T (fun _ => True) MovesApart :=
    .change (.change derived_oneTrue .empty (.add ⟨trivial, trivial⟩ hadd₁)) .empty
      (.add ⟨trivial, trivial⟩ hadd)
  have hremoved : c.removeBindings T V = { oneTrue with equations := .ofList [e] } := by cbv
  refine ⟨c, hc, rfl, fun x hx => ?_, by decide +kernel, by decide +kernel⟩
  obtain rfl : x = .fresh 0 .map := List.mem_singleton.mp hx
  refine ⟨?_, fun t ht => ?_⟩
  · rw [hremoved]
    intro hconcerns
    rcases hconcerns.mentions_or rfl with (⟨b, hb, -⟩ | ⟨q, hq, hx⟩) | hx | hx
    · cases hb
    · rw [List.mem_singleton.mp hq] at hx
      revert hx
      decide
    · revert hx
      decide
    · revert hx
      decide
  · rw [Substitution.find?_single, if_pos rfl] at ht
    obtain rfl := Option.some.inj ht
    exact SortOrder.keeps_of_ground (by decide) (Subsorts.compatible_self _ _)

end SolvedForm.Constraint

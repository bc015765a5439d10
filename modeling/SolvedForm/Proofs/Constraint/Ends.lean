import SolvedForm.Proofs.Constraint.Derived
import SolvedForm.Proofs.Constraint.Descent

/-!
Simplification of whatever operations derive over terms without frames comes to an end.

* `Constraint.Throughout.exists_within`: a constraint over terms without frames is one over finitely
  many variables.
* `Constraint.simplify_ends_of_acyclic`: simplification ends also where the flag of the normal form is
  wrong, as after a renaming that does not keep sorts.
* `Constraint.Derived.simplify_ends`: with and without folding, simplification of a derived constraint
  ends, and that of all alternatives does that come up.
-/

namespace SolvedForm

/-- In a term without frames all variables are subterms. -/
lemma Term.Nodes.vars {p : Var → Prop} {t : Term} (h : t.Nodes p) (ht : t.Frameless) :
    ∀ x ∈ t.vars, p x := by
  induction h with
  | var hx => simpa using hx
  | bool | int => simp
  | app f _ ih =>
      intro x hx
      obtain ⟨a, ha, hx⟩ := mem_vars_app.mp hx
      exact ih a ha (Frameless.app_iff.mp ht a ha) x hx
  | map frame _ _ ihk ihv =>
      intro x hx
      obtain rfl := hereditary_frameless.frame ht
      rcases mem_vars_map.mp hx with ⟨e, he, hx | hx⟩ | hx
      · exact ihk e he (ht.entries e he).1 x hx
      · exact ihv e he (ht.entries e he).2 x hx
      · cases hx
  | lookup _ _ ihm ihk =>
      intro x hx
      cases ht with
      | lookup hm hk => exact (mem_vars_lookup.mp hx).elim (ihm hm x) (ihk hk x)

namespace Constraint

open Term

variable {T : Theory} {order : SortOrder} {a c d : Constraint} {xs ys : List Var} {fold : Bool}

/-! ### Finitely many variables -/

/-- What holds of each element with some variables, and with more, holds of all with some. -/
lemma exists_vars {α : Type} {P : List Var → α → Prop} (as : List α)
    (hmono : ∀ {xs ys : List Var} {a : α}, xs ⊆ ys → P xs a → P ys a) (h : ∀ a ∈ as, ∃ xs, P xs a) :
    ∃ xs, ∀ a ∈ as, P xs a := by
  induction as with
  | nil => exact ⟨[], by simp⟩
  | cons a as ih =>
      rw [List.forall_mem_cons] at h
      obtain ⟨xs, ha⟩ := h.1
      obtain ⟨ys, has⟩ := ih h.2
      exact ⟨xs ++ ys, List.forall_mem_cons.mpr ⟨hmono (List.subset_append_left xs ys) ha,
        fun b hb => hmono (List.subset_append_right xs ys) (has b hb)⟩⟩

lemma mem_framelessOver {t : Term} (h : xs ⊆ ys) :
    (Fragment.framelessOver order (· ∈ xs)).Mem t → (Fragment.framelessOver order (· ∈ ys)).Mem t :=
  fun ht => ⟨ht.1, fun x hx => h (ht.2 x hx)⟩

lemma binds_framelessOver {x : Var} {t : Term} (h : xs ⊆ ys) :
    (Fragment.framelessOver order (· ∈ xs)).Binds x t →
      (Fragment.framelessOver order (· ∈ ys)).Binds x t :=
  fun hb => ⟨⟨hb.1.1, h hb.1.2⟩, hb.2.1, fun y hy => h (hb.2.2 y hy)⟩

/-- A coherent constraint over terms without frames, with alternatives of the same kind, has finitely
many variables. -/
lemma Throughout.exists_within {G : Constraint → Prop} (hG : ∀ {c}, G c → c.Coherent)
    (h : c.Throughout Frameless G) (hc : c.isFalse = false) :
    ∃ xs : List Var, c.Within (.framelessOver order (· ∈ xs)) := by
  induction h with
  | @intro c hg hes hbuffer hstore hopen hpending ih =>
      obtain ⟨xs, hxs⟩ := exists_vars c.pending.flatten
        (P := fun xs a => a.Within (.framelessOver order (· ∈ xs)))
        (fun hsub ha => ha.mono (fun _ => mem_framelessOver hsub) fun _ _ => binds_framelessOver hsub)
        fun a ha => by
          obtain ⟨D, hD, ha⟩ := List.mem_flatten.mp ha
          exact ih D hD a ha (hopen D hD a ha)
      obtain ⟨ys, hys⟩ := exists_vars (c.equations.toList ++ c.buffer.toList)
        (P := fun ys e => (Fragment.framelessOver order (· ∈ ys)).MemEq e)
        (fun hsub he => ⟨mem_framelessOver hsub he.1, mem_framelessOver hsub he.2⟩)
        fun e he => by
          have he := (List.mem_append.mp he).elim (hes e) (hbuffer e)
          exact ⟨e.left.vars ++ e.right.vars, ⟨he.1, fun x => List.mem_append_left _⟩,
            he.2, fun x => List.mem_append_right _⟩
      obtain ⟨zs, hzs⟩ := exists_vars c.store.toList
        (P := fun zs b => (Fragment.framelessOver order (· ∈ zs)).Binds b.1 b.2)
        (fun hsub => binds_framelessOver hsub)
        fun b hb => ⟨b.1 :: b.2.vars, ⟨.var _, List.mem_cons_self⟩, hstore b hb,
          fun x => List.mem_cons_of_mem _⟩
      have hx : xs ⊆ xs ++ (ys ++ zs) := List.subset_append_left _ _
      have hy : ys ⊆ xs ++ (ys ++ zs) :=
        List.subset_append_of_subset_right xs (List.subset_append_left ys zs)
      have hz : zs ⊆ xs ++ (ys ++ zs) :=
        List.subset_append_of_subset_right xs (List.subset_append_right ys zs)
      have hopen' : ∀ e ∈ c.equations.toList ++ c.buffer.toList,
          (Fragment.framelessOver order (· ∈ xs ++ (ys ++ zs))).MemEq e := fun e he =>
        ⟨mem_framelessOver hy (hys e he).1, mem_framelessOver hy (hys e he).2⟩
      refine ⟨xs ++ (ys ++ zs), .intro ⟨hc, (hG hg).contradiction_eq_none hc,
        fun e he => hopen' e (List.mem_append_left _ he),
        fun e he => hopen' e (List.mem_append_right _ he),
        fun b hb => binds_framelessOver hz (hzs b hb)⟩ fun D hD a ha => ?_⟩
      exact (hxs a (List.mem_flatten.mpr ⟨D, hD, ha⟩)).mono (fun _ => mem_framelessOver hx)
        fun _ _ => binds_framelessOver hx

/-! ### The first turn -/

/-- Simplification over an acyclic store ends, whether or not a constraint that is flagged as normal
is in normal form. -/
theorem simplify_ends_of_acyclic (hc : c.Within (.framelessOver order (· ∈ xs)))
    (hac : c.store.Acyclic) (fold : Bool) :
    ∃ a k, ∀ fuel, k < fuel → ∀ n, c.simplify (.standard order) fuel fold n = .ok (a, n) := by
  by_cases hflags : c.normal = false ∧ c.guarded = false
  · exact simplify_ends_of_frameless
      (.inr ⟨hc, hflags.2, hac, fun hn => absurd hn (by simp [hflags.1])⟩) fold
  · have hnormal : c.normalize (.standard order) = .ok c := by
      rw [normalize, if_pos]
      rcases hn : c.normal with _ | _ <;> simp_all
    by_cases hopen : c.truth = .unknown
    swap
    · exact ⟨c, 0, endsAfter_of_stop hnormal (.inl hopen)⟩
    have hsolve : ∀ e ∈ c.equations.toList, ∀ common as n m,
        (Theory.standard order).unifier fold e n = (.ok (.disjunction common as), m) →
        ∃ ds k, ∀ fuel, k < fuel → ∀ n,
          satisfiable (.standard order) fold fuel as n = .ok (ds, n) := by
      intro e he common as n m hu
      have hmem := hc.over.equations e he
      exact satisfiable_ends fun qs hqs => simplify_ends_of_frameless (.inr (ready_insertAll_empty
        ((Fragment.framelessOver order _).disjunction hmem.1 hmem.2 hu qs
          (List.mem_cons_of_mem _ hqs)))) fold
    obtain ⟨a, j, hrun⟩ := round_ends (c := c.takeOut)
      (fun e he => ⟨(hc.over.equations e he).1.1, (hc.over.equations e he).2.1⟩) hsolve
    by_cases haf : a.isFalse = true
    · exact ⟨a, j + 1, endsAfter_of_isFalse hnormal hopen rfl hrun haf⟩
    · suffices hrest : ∃ a' k,
          a.EndsAfter (.standard order) fold (some (c.store, c.equations)) k a' by
        obtain ⟨a', k, hrest⟩ := hrest
        exact ⟨a', max j k + 1, endsAfter_of_round hnormal hopen rfl
          (fun fuel hfuel => hrun fuel (by omega)) haf (hrest.mono (Nat.le_max_right j k))⟩
      have hsettled : ∀ as k ds l,
          (∀ es ∈ as, ∀ e ∈ es, (Fragment.framelessOver order (· ∈ xs)).MemEq e) →
          satisfiable (.standard order) fold (j + 1) as k = .ok (ds, l) →
          ∀ a ∈ ds, a.Within (.framelessOver order (· ∈ xs)) :=
        fun _ _ _ _ => satisfiable_within fun hc h => simplifySince_settled hc h
      obtain ⟨haw, hag, hastore, han⟩ := (round_result hsettled hc.takeOut (by simp)
        hc.over.equations (hrun (j + 1) (Nat.lt_succ_self j) 0)).resolve_left fun hr => haf hr.1
      have hastore : a.store = c.store := hastore
      cases hn : a.normal with
      | true =>
          -- the round has changed nothing, which the next turn notices
          have hequations : a.equations = c.equations := by
            rw [han hn]
            exact EquationSet.insertAll_toList _
          refine ⟨a, 0, endsAfter_of_stop (by rw [normalize, if_pos (by simp [hn])]) (.inr ?_)⟩
          simp [unchangedSince, hastore, hequations]
      | false =>
          have hsound : a.Sound (.framelessOver order (· ∈ xs)) :=
            .inr ⟨haw, hag, hastore ▸ hac, fun h => absurd (hn.symm.trans h) Bool.false_ne_true⟩
          obtain ⟨b, hb, -⟩ := normalize_settled hsound
          exact simplifySince_ends_of_frameless hsound hb _

/-! ### Derived constraints -/

/-- What operations derive over terms without frames is coherent, and no key of its store is a subterm
of a value. -/
lemma Derived.untangled (h : c.Derived (.standard order) Frameless MovesApart) :
    c.Throughout Frameless fun c => c.Coherent ∧ c.Untangled := by
  have hT : (Theory.standard order).Conservative := fun ht => ht.evaluate
  refine h.throughout (Theory.stable_frameless order) (fun {fold fuel es n m d} h => ?_)
    ⟨coherent_empty, untangled_empty⟩ fun {b c d} hb hc hstep => ?_
  · have hrun : SolvedForm.BindsOnce (fun r => Untangled r.1) (simplifySince (.standard order) fold
        fuel none (Constraint.empty.insertAll (.standard order) es) n) :=
      bindsOnce_simplifySince hT (untangled_empty.insertAll es) n
    rw [h] at hrun
    exact ⟨coherent_simplifySince ((keepsVerdict_insertAll _ es).coherent coherent_empty) h, hrun⟩
  · obtain ⟨made, hd, hop⟩ := hstep.operation id
    have hmade := hop.bindsOnce hT (by simpa using ⟨hc.2, hb.2⟩)
    exact ⟨hstep.update.keepsVerdict.coherent hc.1, hmade d hd⟩

/-- Over terms without frames, simplification of every constraint that operations derive comes to an
end, with folding and without, and so does that of every alternative on the way. -/
theorem Derived.simplify_ends (h : c.Derived (.standard order) Frameless MovesApart) (fold : Bool) :
    ∃ a k, ∀ fuel, k < fuel → ∀ n, c.simplify (.standard order) fuel fold n = .ok (a, n) := by
  have hall := h.untangled
  cases hc : c.isFalse with
  | true =>
      have hnormal : c.normalize (.standard order) = .ok c := by rw [normalize, if_pos (by simp [hc])]
      exact ⟨c, 0, endsAfter_zero_of_isFalse hnormal hc⟩
  | false =>
      obtain ⟨xs, hw⟩ := hall.exists_within (fun hG => hG.1) hc
      refine simplify_ends_of_acyclic hw (fun b hb x hx => ?_) fold
      exact (hall.holds.2 b hb).vars (hall.stored.store b hb) x hx

/-- Two keys that pair with two others in two ways, one of them renamed. -/
theorem Derived.simplify_ends_keys :
    let T : Theory := .standard Subsorts.builtin.order
    let x : Var := ⟨"X", .int, false, none⟩
    let y : Var := ⟨"Y", .int, false, none⟩
    let z : Var := ⟨"Z", .int, false, none⟩
    let keys (s t : Term) : Term := .map [(s, .int 0), (t, .int 0)] none
    let e : Equation := ⟨keys (.var x) (.var y), keys (.int 1) (.int 2)⟩
    ∃ b c : Constraint, Constraint.empty.add T e = .ok b ∧
      c = b.rename (fun v => if v = x then z else v) ∧ c.Derived T Frameless MovesApart ∧
      c.equations.toList = [⟨keys (.var y) (.var z), keys (.int 1) (.int 2)⟩] ∧
      ∃ a k, ∀ fuel, k < fuel → ∀ n, c.simplify T fuel true n = .ok (a, n) := by
  intro T x y z keys e
  let unsplit : Constraint := { equations := .ofList [e], truth := .unknown }
  let ρ : Var → Var := fun v => if v = x then z else v
  have hframeless : ∀ {s t : Term}, s.Frameless → t.Frameless →
      ofEntries [(s, .int 0), (t, .int 0)] none = keys s t → (keys s t).Frameless :=
    fun hs ht h => h ▸ .ofEntries (by simpa using ⟨⟨hs, .int 0⟩, ht, .int 0⟩)
  have hb : Constraint.empty.add T e = .ok unsplit := by cbv
  have hadd : Change T Frameless MovesApart Constraint.empty Constraint.empty unsplit :=
    .add ⟨hframeless (.var x) (.var y) (by cbv), hframeless (.int 1) (.int 2) (by cbv)⟩ hb
  have hmoves : unsplit.MovesApart ρ := by
    have moved : ∀ {v}, ρ v ≠ v → v = x := fun {v} hv => by
      by_contra hne
      exact hv (if_neg hne)
    refine ⟨fun hv hw _ => (moved hv).trans (moved hw).symm, fun hv => ?_⟩
    rw [moved hv]
    rintro (⟨b, hb, -⟩ | ⟨q, hq, hz⟩)
    · simp [unsplit] at hb
    · obtain rfl : q = e := by simpa [unsplit, EquationSet.mem_ofList] using hq
      revert hz
      decide
  have hc : (unsplit.rename ρ).Derived T Frameless MovesApart :=
    .change (.change .empty .empty hadd) .empty (.rename hmoves)
  exact ⟨_, _, hb, rfl, hc, by cbv, hc.simplify_ends true⟩

end Constraint

end SolvedForm

import Mathlib
import SolvedForm.Proofs.Constraint.Expansion
import SolvedForm.Proofs.Model.Proper

/-!
What the expansion of lookups means.

* `Interpretation.Satisfies`: the bindings and equations of a constraint hold.
* `Constraint.agrees_read`: under a constraint that is satisfied, a term is read as one of the same
  value.
* `Expansion.agrees_ofTerm`: an expansion has the value of the term where its conditions hold.
* `Constraint.expand?_value`: so it is with what a constraint makes of a term, and without conditions
  when narrowing.
-/

namespace SolvedForm

open Term

variable {α : Type} {I : Interpretation α} {narrowing : Bool} {read : Term → Term}
  {t m k m' k' : Term} {r : Expansion}

/-- The terms of the constraint have a proper meaning, and all its bindings and equations hold. -/
structure Interpretation.Satisfies (I : Interpretation α) (c : Constraint) : Prop where
  store : ∀ b ∈ c.store.toList, I.Agrees (.var b.1) b.2
  equations : ∀ e ∈ c.equations.toList, I.Holds e

/-- Under a constraint that is satisfied, a term is read as one of the same value. -/
lemma Constraint.agrees_read {order : SortOrder} {c : Constraint} (hc : I.Satisfies c)
    (ht : I.Proper t) : I.Agrees t (c.read (.standard order) t) := by
  have happly := ht.apply hc.store
  have hfacts : ∀ p ∈ c.groundFacts, I.Agrees p.1 p.2 := fun p hp => by
    obtain ⟨e, he, ⟨rfl, -⟩ | ⟨rfl, -⟩⟩ := mem_groundFacts hp
    · exact ⟨(hc.equations e he).right, (hc.equations e he).value.symm⟩
    · exact ⟨(hc.equations e he).left, (hc.equations e he).value⟩
  have hreplace := happly.proper.replace hfacts
  exact (happly.trans hreplace).trans hreplace.proper.evaluate

namespace Expansion

/-- The conditions of the expansion hold. -/
def Granted (I : Interpretation α) (conditions : List Equation) : Prop :=
  ∀ e ∈ conditions, I.value e.left = I.value e.right

lemma granted_append {es fs : List Equation} : Granted I (es ++ fs) ↔ Granted I es ∧ Granted I fs :=
  List.forall_mem_append

/-! ### One lookup -/

/-- The entry that a lookup is expanded to has the key, by itself or by the condition. -/
lemma agrees_ofLookup (hm : I.Agrees m m') (hk : I.Agrees k k')
    (h : ofLookup narrowing m' k' = some r) (hr : Granted I r.conditions) :
    I.Agrees (.lookup m k) r.term := by
  have hlookup : I.value (.lookup m' k') = I.value (.lookup m k) := by
    rw [Interpretation.value_lookup, Interpretation.value_lookup, hm.value, hk.value]
  unfold ofLookup at h
  split at h
  · next es frame =>
      have entry : ∀ e ∈ es, I.value k' = I.value e.1 → I.Agrees (.lookup m k) e.2 := fun e he heq =>
        ⟨(hm.proper.entries e he).2, (hm.proper.value_lookup he heq).symm.trans hlookup⟩
      split at h
      · next v hv =>
          cases h
          exact entry (k', v) (Decomposition.mem_of_lookup hv) rfl
      · split at h
        · cases h
        · split at h
          · next e heq =>
              have he : e ∈ es := (List.mem_filter.mp (heq ▸ List.mem_singleton_self e)).1
              cases h
              exact entry e he (hr _ List.mem_cons_self)
          · cases h
  · cases h

lemma conditions_ofLookup (h : ofLookup true m k = some r) : r.conditions = [] := by
  unfold ofLookup at h
  split at h
  · split at h
    · cases h
      rfl
    · cases h
  · cases h

/-! ### All lookups of a term -/

/-- Where terms are read as terms of the same value, an expansion whose conditions hold has the value of
the term. -/
theorem agrees_ofTerm (hread : ∀ u, I.Proper u → I.Agrees u (read u)) (ht : I.Proper t)
    (hconditions : Granted I (ofTerm read narrowing t).conditions) :
    I.Agrees t (ofTerm read narrowing t).term := by
  induction t using Term.ind with
  | var | bool | int => exact .refl ht
  | app f args ih =>
      have hargs : (∀ a ∈ (ofArgs read narrowing args).1, I.Proper a) ∧
          (ofArgs read narrowing args).1.map I.value = args.map I.value := by
        have ht := ht.arg
        rw [ofTerm] at hconditions
        clear * - ih ht hconditions
        induction args with
        | nil => simp [ofArgs]
        | cons a args iha =>
            rw [List.forall_mem_cons] at ih ht
            rw [ofArgs] at hconditions ⊢
            obtain ⟨ha, hargs⟩ := granted_append.mp hconditions
            obtain ⟨hproper, hvalue⟩ := ih.1 ht.1 ha
            obtain ⟨hproper', hvalue'⟩ := iha ih.2 hargs ht.2
            exact ⟨List.forall_mem_cons.mpr ⟨hproper, hproper'⟩, by
              rw [List.map_cons, List.map_cons, hvalue, hvalue']⟩
      rw [ofTerm]
      exact .app ht hargs.1 hargs.2
  | map es frame ih =>
      have hentries : (∀ e ∈ (ofEntries read narrowing es).1, I.Proper e.1 ∧ I.Proper e.2) ∧
          (ofEntries read narrowing es).1.map I.entry = es.map I.entry := by
        have ht := ht.entries
        rw [ofTerm] at hconditions
        clear * - ih ht hconditions
        induction es with
        | nil => simp [ofEntries]
        | cons e es ihe =>
            obtain ⟨k, v⟩ := e
            rw [List.forall_mem_cons] at ih ht
            rw [ofEntries] at hconditions ⊢
            obtain ⟨he, hes⟩ := granted_append.mp hconditions
            obtain ⟨hk, hv⟩ := granted_append.mp he
            have hk := ih.1.1 ht.1.1 hk
            have hv := ih.1.2 ht.1.2 hv
            obtain ⟨hproper, hentry⟩ := ihe ih.2 hes ht.2
            refine ⟨List.forall_mem_cons.mpr ⟨⟨hk.proper, hv.proper⟩, hproper⟩, ?_⟩
            rw [List.map_cons, List.map_cons, hentry, Interpretation.entry, Interpretation.entry,
              hk.value, hv.value]
      have hmap := Interpretation.Agrees.map ht hentries.1 hentries.2
      rw [ofTerm]
      exact ⟨hmap.proper.ofEntries, Interpretation.value_ofEntries.trans hmap.value⟩
  | lookup m k ihm ihk =>
      rw [ofTerm] at hconditions ⊢
      split at hconditions
      · next r hr =>
          obtain ⟨hparts, hr'⟩ := granted_append.mp hconditions
          obtain ⟨hm, hk⟩ := granted_append.mp hparts
          have hm := ihm ht.of_lookup.1 hm
          have hk := ihk ht.of_lookup.2 hk
          have hagrees := agrees_ofLookup (hm.trans (hread _ hm.proper))
            (hk.trans (hread _ hk.proper)) hr hr'
          exact hagrees
      · obtain ⟨hm, hk⟩ := granted_append.mp hconditions
        have hm := ihm ht.of_lookup.1 hm
        have hk := ihk ht.of_lookup.2 hk
        exact ⟨.lookup hm.proper hk.proper, by
          rw [Interpretation.value_lookup, Interpretation.value_lookup, hm.value, hk.value]⟩

/-- No condition comes up when narrowing. -/
lemma conditions_ofTerm (t : Term) : (ofTerm read true t).conditions = [] := by
  induction t using Term.ind with
  | var | bool | int => rfl
  | app f args ih =>
      rw [ofTerm]
      induction args with
      | nil => rfl
      | cons a args iha =>
          rw [List.forall_mem_cons] at ih
          simpa [ofArgs, ih.1] using iha ih.2
  | map es frame ih =>
      rw [ofTerm]
      induction es with
      | nil => rfl
      | cons e es ihe =>
          rw [List.forall_mem_cons] at ih
          simpa [ofEntries, ih.1.1, ih.1.2] using ihe ih.2
  | lookup m k ihm ihk =>
      rw [ofTerm]
      split
      · next r hr => simp [ihm, ihk, conditions_ofLookup hr]
      · simp [ihm, ihk]

end Expansion

/-- The expansion of a term has the value of the term in every interpretation that satisfies the
constraint and the conditions of the expansion, where the operators take the values of their operands and
no two entries of one map have the same key. When narrowing there are no conditions. -/
theorem Constraint.expand?_value {order : SortOrder} {c : Constraint}
    (h : c.expand? (.standard order) narrowing t = some r) :
    (∀ {α : Type} (I : Interpretation α), I.Proper t → I.Satisfies c →
      (∀ e ∈ r.conditions, I.value e.left = I.value e.right) → I.value r.term = I.value t) ∧
    (narrowing = true → r.conditions = []) := by
  unfold expand? at h
  split at h
  · cases h
  · dsimp only at h
    split at h
    · cases h
    · cases h
      refine ⟨fun I ht hc hr => ?_, ?_⟩
      · exact (Expansion.agrees_ofTerm (fun _ => agrees_read hc) ht hr).value
      · rintro rfl
        exact Expansion.conditions_ofTerm t

/-- A lookup that a binding and an equation resolve, and one that is folded: with `M = {1 |-> V, 2 |-> 20}`
and `g(Y) = 1`, the sum of `M[g(Y)]` and `{3 |-> 30}[K]` is `V + 30` where `K = 3`. -/
theorem Constraint.expand?_value_sum :
    let m : Var := ⟨"M", .map, false, none⟩
    let v : Var := ⟨"V", .int, false, none⟩
    let k : Var := ⟨"K", .int, false, none⟩
    let g : Term := .app ⟨"g", 1, some .int, .function⟩ [.var ⟨"Y", .int, false, none⟩]
    let T := Theory.standard Subsorts.builtin.order
    let entries : Term := .map [(.int 1, .var v), (.int 2, .int 20)] none
    let t : Term := .ofOperator .add [.lookup (.var m) g, .lookup (.map [(.int 3, .int 30)] none) (.var k)]
    let r : Expansion := ⟨.ofOperator .add [.var v, .int 30], [⟨.var k, .int 3⟩]⟩
    ∃ (c : Constraint) (I : Interpretation MapValue),
      (Constraint.empty.add T ⟨.var m, entries⟩ >>=
        fun c => c.add T ⟨g, .int 1⟩) = .ok c ∧
        c.expand? T false t = some r ∧ I.Proper t ∧ I.Satisfies c ∧
        (∀ e ∈ r.conditions, I.value e.left = I.value e.right) ∧ I.value r.term = I.value t ∧
        I.value t = .int 35 := by
  intro m v k g T entries t r
  let c : Constraint :=
    { equations := .ofList [⟨g, .int 1⟩]
      store := .ofList [(m, entries)]
      truth := .unknown }
  let J : Interpretation MapValue := .ofMapValues (fun x => .int (if x = v then 5 else 3))
    fun _ _ => .int 1
  -- the variable stands for the map that it is bound to
  let I : Interpretation MapValue := J.withVar fun x => if x = m then J.value entries else J.var x
  have hentries : I.Agrees (.var m) entries := by
    refine ⟨.of_entries (by simpa using ⟨⟨.int 1, .var v⟩, .int 2, .int 20⟩) nofun ?_, ?_⟩
    · simp [Interpretation.keys, Interpretation.frameEntries]
    · have hm : I.value (.var m) = J.value entries := if_pos (c := m = m) (e := J.var m) rfl
      rw [hm]
      refine Interpretation.value_withVar fun x hx => if_neg ?_
      rintro rfl
      exact absurd hx (by decide)
  have hg : I.value g = .int 1 := Interpretation.value_app _ _
  have hgp : I.Proper g :=
    .app (by simpa using .var _) fun o _ ho => by cases ho
  have hfirst : I.value (.lookup (.var m) g) = .int 5 := by
    rw [Interpretation.value_lookup, ← hentries.value, ← Interpretation.value_lookup,
      hentries.proper.value_lookup (e := (.int 1, .var v)) (by simp) hg]
    rfl
  have hproper : I.Proper (.map [(.int 3, .int 30)] none) := by
    refine .of_entries (by simpa using ⟨.int 3, .int 30⟩) nofun ?_
    simp [Interpretation.keys, Interpretation.frameEntries]
  have hsecond : I.value (.lookup (.map [(.int 3, .int 30)] none) (.var k)) = .int 30 :=
    hproper.value_lookup List.mem_cons_self rfl
  have hrun : c.expand? T false t = some r := by cbv
  have ht : I.Proper t := by
    refine .app (by simpa using ⟨.lookup (.var m) hgp, .lookup hproper (.var k)⟩) ?_
    rintro o - ho
    obtain rfl : o = .add := by simpa [Operator.ofLabel_label] using ho.symm
    exact ⟨5, 30, by rw [List.map_cons, List.map_singleton, hfirst, hsecond]⟩
  have hc : I.Satisfies c := by
    refine ⟨fun b hb => ?_, fun e he => ?_⟩
    · obtain rfl : b = (m, entries) := List.mem_singleton.mp hb
      exact hentries
    · obtain rfl : e = ⟨g, .int 1⟩ := List.mem_singleton.mp he
      exact ⟨hgp, .int 1, hg⟩
  have hr : ∀ e ∈ r.conditions, I.value e.left = I.value e.right :=
    List.forall_mem_singleton.mpr rfl
  have hvalue : I.value t = .int 35 := by
    refine (Interpretation.value_op rfl (Operator.ofLabel_label .add) _).trans ?_
    rw [List.map_cons, List.map_singleton, hfirst, hsecond]
    rfl
  exact ⟨c, I, by cbv, hrun, ht, hc, hr, (expand?_value hrun).1 I ht hc hr, hvalue⟩

end SolvedForm

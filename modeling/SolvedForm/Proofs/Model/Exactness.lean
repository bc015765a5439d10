import SolvedForm.Proofs.Constraint.Descent
import SolvedForm.Proofs.Model.Implication

/-!
What is left to show of a constraint is exactly what a known constraint leaves open.

* `Fragment.decisive_mapFree`: an equation between terms without maps never stands for a disjunction.
* `Vocabulary.arithmetic`: variables and functions for integers and truth values.
* `Constraint.subtract_ends`: between constraints without maps and disjunctions, subtraction comes to
  an end.
* `Constraint.subtract_exact`: in the models of the known constraint, what is left holds exactly where
  the other constraint holds.
-/

namespace SolvedForm

open Term

variable {order : SortOrder} {V : Vocabulary} {t : Term}

lemma Vocabulary.WellSorted.mapFree (h : V.WellSorted t) : t.MapFree := by
  induction h with
  | var => exact .var _
  | bool b => exact .bool b
  | int i => exact .int i
  | con _ _ _ ih => exact .app _ ih
  | fn _ _ ih => exact .app _ ih
  | op _ _ _ ih => exact .app _ ih

lemma Fragment.decisive_mapFree (order : SortOrder) (allowed : Var → Prop) :
    (mapFree order allowed).Decisive := by
  exact fun _ => Unifier.structural_decisive order

/-- All variables for integers and truth values, and all functions that are not built in and have such
results. -/
def Vocabulary.arithmetic : Vocabulary where
  MemVar x := x.sort = .int ∨ x.sort = .bool
  MemCon _ := False
  MemFn f := f.isConstructor = false ∧ Operator.ofLabel f.name = none ∧
    (f.resultSort = some .int ∨ f.resultSort = some .bool)
  var_sort h := by rcases h with h | h <;> rw [h] <;> decide
  isConstructor := False.elim
  con_sort := False.elim
  unique := False.elim
  uninterpreted h :=
    ⟨h.1, h.2.1, h.2.2.elim (fun h => ⟨_, h, by decide⟩) fun h => ⟨_, h, by decide⟩⟩

namespace Constraint

variable {c d r : Constraint} {fuel n m : Nat}

/-! ### Subtraction ends -/

/-- The variables of what two constraints list. -/
def listedVars (c d : Constraint) : List Var :=
  (c.listed ++ d.listed).flatMap fun e => e.left.vars ++ e.right.vars

section MapFree

variable (hc : ∀ e ∈ c.listed, e.left.MapFree ∧ e.right.MapFree)
  (hd : ∀ e ∈ d.listed, e.left.MapFree ∧ e.right.MapFree) (hp : d.pending = [])

include hd hp in
lemma lists_mapFree : d.Lists (.mapFree order (· ∈ listedVars c d)) := by
  refine ⟨fun e he => ?_, by simp [hp]⟩
  have hmem : ∀ x ∈ e.left.vars ++ e.right.vars, x ∈ listedVars c d := fun x hx =>
    List.mem_flatMap.mpr ⟨e, List.mem_append_right _ he, hx⟩
  exact ⟨⟨(hd e he).1, fun x hx => hmem x (List.mem_append_left _ hx)⟩,
    ⟨(hd e he).2, fun x hx => hmem x (List.mem_append_right _ hx)⟩⟩

include hc in
lemma mapFree_replace_facts (ht : t.MapFreeOver (· ∈ listedVars c d)) :
    (t.replace c.facts).MapFreeOver (· ∈ listedVars c d) := by
  have hmem : ∀ e ∈ c.listed, ∀ x ∈ e.left.vars ++ e.right.vars, x ∈ listedVars c d :=
    fun e he x hx => List.mem_flatMap.mpr ⟨e, List.mem_append_left _ he, hx⟩
  refine Term.MapFreeOver.replace (fun s u h => ?_) ⟨ht.1, fun x hx => .inl (ht.2 x hx)⟩
  rcases mem_facts h with he | he
  · exact ⟨(hc _ he).2, fun x hx => hmem _ he x (List.mem_append_right _ hx)⟩
  · exact ⟨(hc _ he).1, fun x hx => hmem _ he x (List.mem_append_left _ hx)⟩

include hc hd hp in
/-- Subtraction between constraints without maps and disjunctions ends, and more fuel does not change
the answer. -/
theorem subtract_ends : ∃ r k, ∀ fuel, k < fuel → ∀ n,
    c.subtract (.standard order) fuel d n = .ok (r, n) := by
  have hlists : d.Lists (.mapFree order (· ∈ listedVars c d)) := lists_mapFree hd hp
  have hmem : ∀ t, (Fragment.mapFree order (· ∈ listedVars c d)).Mem t →
      (Fragment.mapFree order (· ∈ listedVars c d)).Mem (t.replace c.facts) := fun t ht =>
    mapFree_replace_facts hc ht
  by_cases hdf : d.isFalse = true
  · exact ⟨d, 0, fun fuel _ n => by rw [subtract, if_pos hdf]; rfl⟩
  · have hready := difference_ready (c := c) hlists
    obtain ⟨a, k, ha⟩ := simplify_ends_of_mapFree (.inr hready) false
    by_cases haf : a.isFalse = true
    · refine ⟨a, k, fun fuel hfuel n => ?_⟩
      rw [subtract, if_neg hdf, Engine.bind_of_ok (ha fuel hfuel n), if_pos haf]
      rfl
    · have hw := (simplify_settled (.inr hready) (ha (k + 1) (Nat.lt_succ_self k) 0)).within
        (Bool.not_eq_true _ ▸ haf)
      obtain ⟨b, hb, hbs⟩ := normalize_settled (.inr (replaced_ready hmem hw.lists hw.pending))
      rw [← replace_eq hw.over.consistent] at hb
      obtain ⟨r, l, hr⟩ := simplify_ends_of_mapFree hbs.sound false
      refine ⟨r, max k l, fun fuel hfuel n => ?_⟩
      rw [subtract, if_neg hdf, Engine.bind_of_ok (ha fuel (by omega) n), if_neg haf]
      exact Engine.lift_bind_eq_ok.mpr ⟨b, hb, hr fuel (by omega) n⟩

include hc hd hp in
/-- What is left is false, or it consists of bindings and equations alone. -/
lemma bare_of_subtract (h : c.subtract (.standard order) fuel d n = .ok (r, m))
    (hr : r.isFalse = false) : r.buffer = .empty ∧ r.pending = [] := by
  have hlists : d.Lists (.mapFree order (· ∈ listedVars c d)) := lists_mapFree hd hp
  have hmem := fun t ht => mapFree_replace_facts (t := t) (d := d) hc ht
  have hdf := isFalse_of_subtract h hr
  have hsettled := subtract_settled hmem hlists hdf h
  obtain ⟨-, hn⟩ := hsettled.resolve_left fun hrefuted => absurd hrefuted.1 (by simp [hr])
  exact ⟨hn.drained,
    (pending_of_subtract hmem hlists hdf h (Fragment.decisive_mapFree order _) hr).trans hp⟩

end MapFree

/-! ### Subtraction is exact -/

/-- Subtraction between constraints over well-sorted terms, the second without disjunctions, comes to
an end, and what it leaves is exact: a model of the known constraint satisfies the other constraint
when it satisfies what is left. When that is false, no model of the known constraint satisfies the
other one. -/
theorem subtract_exact (hc : ∀ e ∈ c.listed, V.WellSorted e.left ∧ V.WellSorted e.right)
    (hd : ∀ e ∈ d.listed, V.WellSorted e.left ∧ V.WellSorted e.right) (hp : d.pending = []) :
    (∃ r k, ∀ fuel, k < fuel → ∀ n,
      c.subtract (.standard Subsorts.builtin.order) fuel d n = .ok (r, n)) ∧
    ∀ fuel n r m, c.subtract (.standard Subsorts.builtin.order) fuel d n = .ok (r, m) →
      (r.isFalse = false → r.buffer = .empty ∧ r.pending = []) ∧
      (∀ {α : Type} (M : Model α), M.Fulfils c → (M.Fulfils d ↔ M.Fulfils r)) ∧
      (r.isFalse = true → ∀ {α : Type} (M : Model α), M.Fulfils c → ¬ M.Fulfils d) := by
  have hcfree : ∀ e ∈ c.listed, e.left.MapFree ∧ e.right.MapFree := fun e he =>
    ⟨(hc e he).1.mapFree, (hc e he).2.mapFree⟩
  have hdfree : ∀ e ∈ d.listed, e.left.MapFree ∧ e.right.MapFree := fun e he =>
    ⟨(hd e he).1.mapFree, (hd e he).2.mapFree⟩
  refine ⟨subtract_ends hcfree hdfree hp, fun fuel n r m h => ?_⟩
  have exact_iff : ∀ {α : Type} (M : Model α), M.Fulfils c → (M.Fulfils d ↔ M.Fulfils r) := by
    intro α M hM
    cases hdf : d.isFalse with
    | true => rw [subtract_of_isFalse hdf h]
    | false =>
        have hlists : d.Lists (.wellSorted V) := ⟨hd, by simp [hp]⟩
        obtain ⟨hsat, hfalse⟩ := satisfies_subtract_iff hc hlists hdf h hM.2
        refine ⟨fun hd => ⟨?_, hsat.mpr hd.2⟩, fun hr => ⟨hdf, hsat.mp hr.2⟩⟩
        exact Bool.eq_false_iff.mpr fun hr => hfalse hr (hsat.mpr hd.2)
  refine ⟨bare_of_subtract hcfree hdfree hp h, exact_iff, fun hr α M hM hd => ?_⟩
  exact Bool.false_ne_true (((exact_iff M hM).mp hd).1.symm.trans hr)

/-- A binding and an equation are known, and the other constraint is about a function of the bound
variable. -/
theorem subtract_exact_function :
    let T : Theory := .standard Subsorts.builtin.order
    let x : Var := ⟨"X", .int, false, none⟩
    let y : Var := ⟨"Y", .int, false, none⟩
    let f (t : Term) : Term := .app ⟨"f", 1, some .int, .function⟩ [t]
    let positive : Term := .ofOperator .gt [.var x, .int 0]
    let next : Term := .ofOperator .add [.var x, .int 1]
    ∃ c d r : Constraint,
      empty.addAllThenSimplify T 3 [⟨.var y, next⟩, ⟨positive, .bool true⟩] 0 = .ok (c, 0) ∧
      empty.addAllThenSimplify T 3 [⟨f (.var y), .int 3⟩, ⟨positive, .bool true⟩] 0 = .ok (d, 0) ∧
      c.subtract T 3 d 0 = .ok (r, 0) ∧ r.listed = [⟨f next, .int 3⟩] ∧
      ∀ {α : Type} (M : Model α), M.Fulfils c → (M.Fulfils d ↔ M.Fulfils r) := by
  intro T x y f positive next
  let c : Constraint :=
    { store := .single y next, equations := .ofList [⟨positive, .bool true⟩], truth := .unknown }
  let d : Constraint :=
    { equations := .ofList [⟨f (.var y), .int 3⟩, ⟨positive, .bool true⟩], truth := .unknown }
  let r : Constraint := { equations := .ofList [⟨f next, .int 3⟩], truth := .unknown }
  have hc : empty.addAllThenSimplify T 3 [⟨.var y, next⟩, ⟨positive, .bool true⟩] 0 =
      .ok (c, 0) := by cbv
  have hd : empty.addAllThenSimplify T 3 [⟨f (.var y), .int 3⟩, ⟨positive, .bool true⟩] 0 =
      .ok (d, 0) := by cbv
  have hrun : c.subtract T 3 d 0 = .ok (r, 0) := by cbv
  have hx : Vocabulary.arithmetic.WellSorted (.var x) := .var (.inl rfl)
  have hy : Vocabulary.arithmetic.WellSorted (.var y) := .var (.inl rfl)
  have hnext : Vocabulary.arithmetic.WellSorted next :=
    .op (o := .add) ⟨rfl, rfl, rfl⟩ rfl (by simpa using ⟨hx, .int 1⟩)
  have hpositive : Vocabulary.arithmetic.WellSorted positive :=
    .op (o := .gt) ⟨rfl, rfl, rfl⟩ rfl (by simpa using ⟨hx, .int 0⟩)
  have hf : Vocabulary.arithmetic.WellSorted (f (.var y)) :=
    .fn ⟨rfl, by decide, .inl rfl⟩ (by simpa using hy)
  have hcs : ∀ e ∈ c.listed, Vocabulary.arithmetic.WellSorted e.left ∧
      Vocabulary.arithmetic.WellSorted e.right := by
    have hlisted : c.listed = [⟨.var y, next⟩, ⟨positive, .bool true⟩] := by cbv
    rw [hlisted]
    simpa using ⟨⟨hy, hnext⟩, hpositive, .bool true⟩
  have hds : ∀ e ∈ d.listed, Vocabulary.arithmetic.WellSorted e.left ∧
      Vocabulary.arithmetic.WellSorted e.right := by
    have hlisted : d.listed = [⟨f (.var y), .int 3⟩, ⟨positive, .bool true⟩] := by cbv
    rw [hlisted]
    simpa using ⟨⟨hf, .int 3⟩, hpositive, .bool true⟩
  obtain ⟨-, hexact⟩ := subtract_exact hcs hds rfl
  exact ⟨c, d, r, hc, hd, hrun, by cbv, fun M => (hexact 3 0 r 0 hrun).2.1 M⟩

end Constraint

end SolvedForm

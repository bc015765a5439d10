import SolvedForm.Proofs.Model.Evaluation

/-!
Evaluation of truth values and integers.

Here an operator is known by its label alone, and the sorts of its arguments are those of their
values; whatever result sort the symbol declares does not matter.

* `Term.Scalar`: the terms of truth values and integers, with the sorts of their values.
* `Term.Scalar.value_ofSort`: in every model such a term has a value of its sort.
* `Term.Scalar.value_evaluate`: evaluation keeps it.
-/

namespace SolvedForm

open Term

/-- Literals, variables of the sorts of truth values and integers, functions that are not built in with
one of these result sorts, and operators applied to arguments that they accept. -/
inductive Term.Scalar : Term → SortName → Prop where
  | var {x : Var} : x.sort = .bool ∨ x.sort = .int → Scalar (.var x) x.sort
  | bool (b : Bool) : Scalar (.bool b) .bool
  | int (i : Int64) : Scalar (.int i) .int
  | fn {f : Symbol} {ts : List Term} {s : SortName} {ss : List SortName} :
      f.isConstructor = false → Operator.ofLabel f.name = none → f.resultSort = some s →
      s = .bool ∨ s = .int → ss.length = ts.length → (∀ p ∈ ss.zip ts, Scalar p.2 p.1) →
      Scalar (.app f ts) s
  | op {f : Symbol} {o : Operator} {ts : List Term} {ss : List SortName} :
      f.isConstructor = false → f.name = o.label → o.Accepts ss → ss.length = ts.length →
      (∀ p ∈ ss.zip ts, Scalar p.2 p.1) → Scalar (.app f ts) (o.sortOf ss)

namespace Term.Scalar

variable {α : Type} {M : Model α} {f : Symbol} {o : Operator} {ss : List SortName} {ts : List Term}
  {a b t u : Term} {r s : SortName}

/-! ### Arguments -/

lemma function (h : (Term.app f ts).Scalar s) : f.isConstructor = false := by
  cases h with
  | fn hf => exact hf
  | op hf => exact hf

/-- Every argument has its sort. -/
lemma exists_mem_zip (hlength : ss.length = ts.length) (ht : t ∈ ts) : ∃ r, (r, t) ∈ ss.zip ts := by
  obtain ⟨i, hi, rfl⟩ := List.mem_iff_getElem.mp ht
  exact ⟨ss[i], List.mem_iff_getElem.mpr ⟨i, by simpa [hlength], by simp⟩⟩

lemma of_zip (hlength : ss.length = ts.length) (hzip : ∀ p ∈ ss.zip ts, p.2.Scalar p.1)
    (ht : t ∈ ts) : ∃ r, t.Scalar r := by
  obtain ⟨r, hr⟩ := exists_mem_zip hlength ht
  exact ⟨r, hzip (r, t) hr⟩

lemma arg (h : (Term.app f ts).Scalar s) (ht : t ∈ ts) : ∃ r, t.Scalar r := by
  cases h with
  | fn _ _ _ _ hlength hzip => exact of_zip hlength hzip ht
  | op _ _ _ hlength hzip => exact of_zip hlength hzip ht

/-! ### Values -/

lemma forall₂_value (hlength : ss.length = ts.length)
    (h : ∀ p ∈ ss.zip ts, (M.value p.2).OfSort p.1) :
    List.Forall₂ (fun s t => (M.value t).OfSort s) ss ts :=
  List.forall₂_iff_zip.mpr ⟨hlength, fun hp => h _ hp⟩

/-- In every model the value of the term is of its sort. -/
lemma value_ofSort (M : Model α) (h : t.Scalar s) : (M.value t).OfSort s := by
  induction h with
  | @var x => exact M.var_sort x
  | bool | int => rfl
  | fn hf hlabel hs =>
      rw [Model.value_fn hf hlabel]
      exact M.fn_sort hs _
  | op hf hname hacc hlength _ ih =>
      rw [Model.value_op hf hname]
      exact Operator.eval_ofSort hacc (List.forall₂_map_right_iff.mpr (forall₂_value hlength ih))

lemma head_shows (M : Model α) (h : t.Scalar s) {head : Head} (hh : t.head = some head) :
    head.Shows (M.value t) := by
  cases t with
  | bool | int =>
      cases hh
      rfl
  | app f ts => simp [Term.head, h.function] at hh
  | var | lookup => cases hh
  | map => cases h

/-- Only literals can be told apart. -/
lemma value_ne_of_provablyDistinct (M : Model α) (ha : a.Scalar r) (hb : b.Scalar s)
    (h : a.provablyDistinct b = true) : M.value a ≠ M.value b := by
  refine value_ne_of_headsClash (ha.head_shows M) (hb.head_shows M) ?_
  cases a with
  | app f ts =>
      cases b with
      | app => simpa [provablyDistinct, ha.function] using h
      | var | bool | int | map | lookup => exact h
  | var | bool | int | map | lookup => exact h

/-- The operand of a negation is a truth value. -/
lemma operand (M : Model α) (h : t.Scalar s) (happlies : t.applies .neg = true) :
    ∃ c x, t.args = [c] ∧ M.value c = .bool x := by
  cases h with
  | fn _ hlabel =>
      rw [applies, appliesLabel, Bool.and_eq_true, beq_iff_eq] at happlies
      rw [happlies.2, Operator.ofLabel_label] at hlabel
      cases hlabel
  | @op f o ts ss _ hname hacc hlength hzip =>
      rw [applies, appliesLabel, Bool.and_eq_true, beq_iff_eq, hname] at happlies
      have ho : o = .neg := by
        simpa [Operator.ofLabel_label] using congrArg Operator.ofLabel happlies.2
      subst ho
      obtain rfl : ss = [.bool] := hacc
      obtain ⟨c, rfl⟩ := List.length_eq_one_iff.mp hlength.symm
      obtain ⟨x, hx⟩ := ((hzip (.bool, c) List.mem_cons_self).value_ofSort M).eq_bool
      exact ⟨c, x, rfl, hx⟩
  | var | bool | int => cases happlies

/-! ### Evaluation -/

lemma of_reduce (hts : ∀ t ∈ ts, ∃ r, t.Scalar r) (h : o.reduce ts = some u) : ∃ r, u.Scalar r := by
  rcases Operator.reduce_cases h with ⟨b, rfl⟩ | ⟨i, rfl⟩ | hu | ⟨a, ha, hu⟩
  · exact ⟨_, .bool b⟩
  · exact ⟨_, .int i⟩
  · exact hts u hu
  · obtain ⟨r, ha⟩ := hts a ha
    cases a with
    | app => exact ha.arg hu
    | var | bool | int | map | lookup => cases hu

lemma value_reduce (M : Model α) (hacc : o.Accepts ss) (hlength : ss.length = ts.length)
    (hzip : ∀ p ∈ ss.zip ts, p.2.Scalar p.1) (h : o.reduce ts = some u) :
    M.value u = o.eval (ts.map M.value) := by
  refine Operator.value_reduce hacc (forall₂_value hlength fun p hp => (hzip p hp).value_ofSort M)
    (fun a ha => ?_) (fun a ha b hb => ?_) h
  · obtain ⟨r, ha⟩ := of_zip hlength hzip ha
    exact ha.operand M
  · obtain ⟨r, ha⟩ := of_zip hlength hzip ha
    obtain ⟨s, hb⟩ := of_zip hlength hzip hb
    exact ha.value_ne_of_provablyDistinct M hb

/-- A step at the root keeps the sort and the value. -/
lemma reduceRoot (ht : t.Scalar s) (h : t.reduceRoot = some u) :
    u.Scalar s ∧ ∀ {α : Type} (M : Model α), M.value u = M.value t := by
  cases ht with
  | fn hf hlabel => simp [Term.reduceRoot, hf, hlabel] at h
  | @op f o ts ss hf hname hacc hlength hzip =>
      have hu : o.reduce ts = some u := by
        simpa [Term.reduceRoot, hf, hname, Operator.ofLabel_label] using h
      have hvalue : ∀ {α : Type} (M : Model α), M.value u = M.value (.app f ts) := fun M => by
        rw [value_reduce M hacc hlength hzip hu, Model.value_op hf hname]
      obtain ⟨r, hr⟩ := of_reduce (fun t ht => of_zip hlength hzip ht) hu
      -- a value has one sort
      have hsort := (op hf hname hacc hlength hzip).value_ofSort (default : Model Unit)
      rw [← hvalue] at hsort
      exact ⟨(hr.value_ofSort default).unique hsort ▸ hr, hvalue⟩
  | var | bool | int => cases h

/-- Evaluation keeps the sort and the value. -/
lemma evaluate (ht : t.Scalar s) :
    t.evaluate.Scalar s ∧ ∀ {α : Type} (M : Model α), M.value t.evaluate = M.value t := by
  have root : ∀ {t t' : Term} {s : SortName}, t'.Scalar s →
      (∀ {α : Type} (M : Model α), M.value t' = M.value t) → (t'.reduceRoot.getD t').Scalar s ∧
        ∀ {α : Type} (M : Model α), M.value (t'.reduceRoot.getD t') = M.value t := by
    intro t t' s ht' hvalue
    cases h : t'.reduceRoot with
    | none => exact ⟨ht', hvalue⟩
    | some u =>
        obtain ⟨hu, hvalue'⟩ := reduceRoot ht' h
        exact ⟨hu, fun M => (hvalue' M).trans (hvalue M)⟩
  -- what the arguments become, and the values of the application
  have arguments : ∀ {f : Symbol} {ts : List Term} {ss : List SortName}, ss.length = ts.length →
      (∀ p ∈ ss.zip ts, p.2.evaluate.Scalar p.1 ∧
        ∀ {α : Type} (M : Model α), M.value p.2.evaluate = M.value p.2) →
      (∀ p ∈ ss.zip (ts.map Term.evaluate), p.2.Scalar p.1) ∧
        ∀ {α : Type} (M : Model α),
          M.value (.app f (ts.map Term.evaluate)) = M.value (.app f ts) := by
    intro f ts ss hlength ih
    refine ⟨fun p hp => ?_, fun M => ?_⟩
    · rw [List.zip_map_right] at hp
      obtain ⟨q, hq, rfl⟩ := List.mem_map.mp hp
      exact (ih q hq).1
    · rw [Model.value_app, Model.value_app, List.map_map]
      refine congrArg (M.applySymbol f) (List.map_congr_left fun t ht => ?_)
      obtain ⟨r, hr⟩ := exists_mem_zip hlength ht
      exact (ih (r, t) hr).2 M
  induction ht with
  | var hx => exact ⟨.var hx, fun _ => rfl⟩
  | bool b => exact ⟨.bool b, fun _ => rfl⟩
  | int i => exact ⟨.int i, fun _ => rfl⟩
  | fn hf hlabel hs hsort hlength _ ih =>
      obtain ⟨hzip, hvalue⟩ := arguments hlength ih
      rw [evaluate_app]
      exact root (.fn hf hlabel hs hsort (by simpa) hzip) hvalue
  | op hf hname hacc hlength _ ih =>
      obtain ⟨hzip, hvalue⟩ := arguments hlength ih
      rw [evaluate_app]
      exact root (.op hf hname hacc (by simpa) hzip) hvalue

lemma sort_eq (h : t.Scalar s) : s = .bool ∨ s = .int := by
  induction h with
  | var hx => exact hx
  | bool => exact .inl rfl
  | int => exact .inr rfl
  | fn _ _ _ hs => exact hs
  | @op f o ts ss _ _ hacc hlength _ ih =>
      cases o with
      | ite =>
          obtain ⟨r, rfl⟩ := hacc
          match ts, hlength with
          | [c, a, b], _ => exact ih (r, a) (by simp)
      | add | sub | mul => exact .inr rfl
      | conj | disj | neg | eq | lt | le | gt | ge => exact .inl rfl

/-- Evaluation keeps the value of a term in every model, which is a truth value or an integer without
bounds: literal arithmetic that leaves the range of the literals is left as it is, and everything else is
exact. -/
theorem value_evaluate (ht : t.Scalar s) (M : Model α) :
    M.value t.evaluate = M.value t ∧
      ((∃ x, M.value t = .bool x) ∨ ∃ i : Int, M.value t = .int i) := by
  refine ⟨ht.evaluate.2 M, ?_⟩
  have hvalue := ht.value_ofSort M
  rcases ht.sort_eq with rfl | rfl
  · exact .inl hvalue.eq_bool
  · exact .inr hvalue.eq_int

/-- A sum above the greatest literal, beside a product that vanishes whatever the function is. -/
theorem value_evaluate_limit :
    let add (s t : Term) : Term := .app ⟨"_+Int_", 2, some .int, .function⟩ [s, t]
    let sub (s t : Term) : Term := .app ⟨"_-Int_", 2, none, .function⟩ [s, t]
    let mul (s t : Term) : Term := .app ⟨"_*Int_", 2, some .int, .function⟩ [s, t]
    let f (t : Term) : Term := .app ⟨"f", 1, some .int, .function⟩ [t]
    let b : Var := ⟨"B", .bool, false, none⟩
    let above : Term := add (.int 9223372036854775807) (.int 1)
    let t : Term := sub above (mul (.int 0) (f (.var b)))
    let M : Model Unit := default
    t.evaluate = above ∧ M.value t.evaluate = .int 9223372036854775808 ∧
      M.value t.evaluate = M.value t ∧
        ((∃ x, M.value t = .bool x) ∨ ∃ i : Int, M.value t = .int i) := by
  intro add sub mul f b above t M
  have arithmetic {o : Operator} {f : Symbol} {a c : Term} (hf : f.isConstructor = false)
      (hname : f.name = o.label) (ho : o.Accepts [.int, .int]) (ha : a.Scalar .int)
      (hc : c.Scalar .int) : (Term.app f [a, c]).Scalar (o.sortOf [.int, .int]) :=
    .op hf hname ho rfl (by simpa using ⟨ha, hc⟩)
  have habove : above.Scalar .int := arithmetic (o := .add) rfl rfl rfl (.int _) (.int 1)
  have hf : (f (.var b)).Scalar .int :=
    .fn rfl rfl rfl (.inr rfl) (List.length_singleton (a := SortName.bool))
      (List.forall_mem_singleton.mpr (.var (.inl rfl)))
  have hproduct : (mul (.int 0) (f (.var b))).Scalar .int :=
    arithmetic (o := .mul) rfl rfl rfl (.int 0) hf
  have ht : t.Scalar .int := arithmetic (o := .sub) rfl rfl rfl habove hproduct
  have hlimit : t.evaluate = above := by decide
  refine ⟨hlimit, ?_, ht.value_evaluate M⟩
  rw [hlimit]
  rfl

end Term.Scalar

end SolvedForm

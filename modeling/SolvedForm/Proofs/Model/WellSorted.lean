import SolvedForm.Proofs.Fragment.Frameless
import SolvedForm.Proofs.Model.Value

/-!
Well-sorted terms.

* `Vocabulary`: the variables and symbols in use; name and number of arguments determine a
  constructor.
* `Vocabulary.WellSorted`: terms without maps and lookups over a vocabulary, the operators applied
  to arguments of their sorts.
* `Vocabulary.WellSorted.app`: an application stays well-sorted when its arguments are exchanged for
  others of the same sorts.
* `Vocabulary.WellSorted.value_ofSort`: in every model the value of a term is of the sort of the
  term.
* `Vocabulary.Equivalent`, `Vocabulary.WellSorted.rewrite`: terms that may take the place of one
  another in given models, and rewriting that only makes use of such.
-/

namespace SolvedForm

/-- The symbol is a function that is not built in, with a result sort other than the top sort. -/
structure Symbol.Uninterpreted (f : Symbol) : Prop where
  function : f.isConstructor = false
  unlabelled : Operator.ofLabel f.name = none
  sort : ∃ s, f.resultSort = some s ∧ s ≠ .top

/-- The symbol stands for the operator, and has its result sort. -/
structure Symbol.Denotes (f : Symbol) (o : Operator) : Prop where
  function : f.isConstructor = false
  name : f.name = o.label
  sort : f.resultSort = o.resultSort

/-- The variables and symbols in use. No variable has the top sort, and constructors have result
sorts of their own, each determined by its name and the number of its arguments. -/
structure Vocabulary where
  /-- The variable is in use. -/
  MemVar : Var → Prop
  /-- The symbol is one of the constructors. -/
  MemCon : Symbol → Prop
  /-- The symbol is one of the functions that are not built in. -/
  MemFn : Symbol → Prop
  var_sort {x : Var} : MemVar x → x.sort ≠ .top
  isConstructor {f : Symbol} : MemCon f → f.isConstructor = true
  con_sort {f : Symbol} : MemCon f →
    ∃ s, f.resultSort = some s ∧ s ≠ .top ∧ s ≠ .bool ∧ s ≠ .int
  unique {f g : Symbol} : MemCon f → MemCon g → f.name = g.name → f.arity = g.arity → f = g
  uninterpreted {f : Symbol} : MemFn f → f.Uninterpreted

/-- Terms without maps and lookups over the vocabulary: constructors are applied at their arities,
and operators to arguments that they accept. -/
inductive Vocabulary.WellSorted (V : Vocabulary) : Term → Prop where
  | var {x : Var} : V.MemVar x → V.WellSorted (.var x)
  | bool (b : Bool) : V.WellSorted (.bool b)
  | int (i : Int64) : V.WellSorted (.int i)
  | con {f : Symbol} {args : List Term} : V.MemCon f → f.arity = args.length →
      (∀ t ∈ args, V.WellSorted t) → V.WellSorted (.app f args)
  | fn {f : Symbol} {args : List Term} : V.MemFn f →
      (∀ t ∈ args, V.WellSorted t) → V.WellSorted (.app f args)
  | op {f : Symbol} {o : Operator} {args : List Term} : f.Denotes o →
      o.Accepts (args.map Term.sort) → (∀ t ∈ args, V.WellSorted t) → V.WellSorted (.app f args)

/-! ### Sorts of applications -/

/-- The sort of an application depends on the sorts of the arguments alone. -/
lemma Term.sort_app_congr {f : Symbol} {ss ts : List Term} (h : ss.map sort = ts.map sort) :
    (Term.app f ss).sort = (Term.app f ts).sort := by
  have hlength : ss.length = ts.length := by simpa using congrArg List.length h
  -- only an application to three terms can be a conditional
  have sort_app : ∀ {args : List Term}, args.length ≠ 3 →
      (Term.app f args).sort = f.resultSort.getD .top := by
    intro args hargs
    rw [sort]
    rintro a b c rfl
    exact hargs rfl
  by_cases h3 : ss.length = 3
  · obtain ⟨a, b, c, rfl⟩ := List.length_eq_three.mp h3
    obtain ⟨a', b', c', rfl⟩ := List.length_eq_three.mp (hlength.symm.trans h3)
    obtain ⟨-, hb, -⟩ : a.sort = a'.sort ∧ b.sort = b'.sort ∧ c.sort = c'.sort := by simpa using h
    cases hs : f.resultSort <;> simp [sort, hs, hb, applies, appliesLabel]
  · rw [sort_app h3, sort_app (hlength ▸ h3)]

namespace Vocabulary.WellSorted

open Term

variable {V : Vocabulary} {f : Symbol} {o : Operator} {ss ts : List Term} {t : Term}
  {α : Type} {M : Model α}

/-- A conditional has the sort of its branches, any other operator that of its own. -/
lemma sort_op (hf : f.Denotes o) (h : o.Accepts (ss.map Term.sort)) :
    (Term.app f ss).sort = o.sortOf (ss.map Term.sort) := by
  have hs := hf.sort
  cases o with
  | ite =>
      obtain ⟨s, hss⟩ := h
      have hlength : ss.length = 3 := by simpa using congrArg List.length hss
      match ss, hlength with
      | [c, a, b], _ =>
          have happ : (Term.app f [c, a, b]).applies .ite = true := by
            simp [applies, appliesLabel, hf.function, hf.name]
          have hnone : f.resultSort = none := hs
          simp [Term.sort, hnone, happ, Operator.sortOf]
  | _ => exact sort_of_resultSort hs

/-- The arguments of an application may be exchanged for others of the same sorts. -/
lemma app (h : V.WellSorted (.app f ss)) (hts : ∀ t ∈ ts, V.WellSorted t)
    (hsort : ts.map Term.sort = ss.map Term.sort) : V.WellSorted (.app f ts) := by
  have hlength : ts.length = ss.length := by simpa using congrArg List.length hsort
  cases h with
  | con hf ha => exact .con hf (by rw [ha, hlength]) hts
  | fn hf => exact .fn hf hts
  | op hf hacc => exact .op hf (by rwa [hsort]) hts

lemma args (h : V.WellSorted (.app f ss)) : ∀ t ∈ ss, V.WellSorted t := by
  cases h with
  | con _ _ h => exact h
  | fn _ h => exact h
  | op _ _ h => exact h

lemma not_map {es : List Entry} {frame : Option Var} : ¬ V.WellSorted (.map es frame) := nofun

lemma frameless (h : V.WellSorted t) : t.Frameless := by
  induction h with
  | var => exact .var _
  | bool b => exact .bool b
  | int i => exact .int i
  | con _ _ _ ih => exact .app _ ih
  | fn _ _ ih => exact .app _ ih
  | op _ _ _ ih => exact .app _ ih

lemma hereditary (V : Vocabulary) : Decomposition.Hereditary V.WellSorted where
  app := args
  frame h := absurd h not_map
  entries h := absurd h not_map
  rest h := absurd h not_map

/-- No well-sorted term has the top sort. -/
lemma sort_ne_top (h : V.WellSorted t) : t.sort ≠ .top := by
  have bool_ne : SortName.bool ≠ .top := by decide
  have int_ne : SortName.int ≠ .top := by decide
  induction h with
  | var hx => exact V.var_sort hx
  | bool => exact bool_ne
  | int => exact int_ne
  | con hf =>
      obtain ⟨s, hs, hne, -⟩ := V.con_sort hf
      rwa [sort_of_resultSort hs]
  | fn hf =>
      obtain ⟨s, hs, hne⟩ := (V.uninterpreted hf).sort
      rwa [sort_of_resultSort hs]
  | @op f o args hf hacc _ ih =>
      rw [sort_op hf hacc]
      cases o with
      | ite =>
          obtain ⟨s, hss⟩ := hacc
          have hlength : args.length = 3 := by simpa using congrArg List.length hss
          match args, hlength with
          | [c, a, b], _ => exact ih a (by simp)
      | add | sub | mul => exact int_ne
      | conj | disj | neg | eq | lt | le | gt | ge => exact bool_ne

/-- In every model the value of a term is of the sort of the term. -/
theorem value_ofSort (M : Model α) (h : V.WellSorted t) : (M.value t).OfSort t.sort := by
  induction h with
  | @var x => exact M.var_sort x
  | bool | int => rfl
  | con hf =>
      obtain ⟨s, hs, -, hb, hi⟩ := V.con_sort hf
      rw [sort_of_resultSort hs, Model.value_con (V.isConstructor hf)]
      exact ⟨hs, hb, hi⟩
  | fn hf =>
      have hf := V.uninterpreted hf
      obtain ⟨s, hs, -⟩ := hf.sort
      rw [sort_of_resultSort hs, Model.value_fn hf.function hf.unlabelled]
      exact M.fn_sort hs _
  | op hf hacc _ ih =>
      rw [sort_op hf hacc, Model.value_op hf.function hf.name]
      refine Operator.eval_ofSort hacc ?_
      rw [List.forall₂_map_left_iff, List.forall₂_map_right_iff, List.forall₂_same]
      exact ih

end Vocabulary.WellSorted

/-! ### Rewriting -/

namespace Vocabulary

open Term

variable {V : Vocabulary} {K : ∀ {α : Type}, Model α → Prop} {s t u : Term}

/-- The second term can take the place of the first in certain models: it is well-sorted, of the
same sort, and has the same value in each of them. -/
structure Equivalent (V : Vocabulary) (K : ∀ {α : Type}, Model α → Prop) (t u : Term) : Prop where
  wellSorted : V.WellSorted u
  sort : u.sort = t.sort
  value {α : Type} (M : Model α) : K M → M.value u = M.value t

lemma Equivalent.refl (ht : V.WellSorted t) : V.Equivalent K t t := ⟨ht, rfl, fun _ _ => rfl⟩

lemma Equivalent.trans (h : V.Equivalent K s t) (h' : V.Equivalent K t u) : V.Equivalent K s u :=
  ⟨h'.wellSorted, h'.sort.trans h.sort, fun M hM => (h'.value M hM).trans (h.value M hM)⟩

/-- The arguments of an application may be exchanged for equivalent ones. -/
lemma Equivalent.app {f : Symbol} {args : List Term} {g : Term → Term}
    (ht : V.WellSorted (.app f args)) (h : ∀ t ∈ args, V.Equivalent K t (g t)) :
    V.Equivalent K (.app f args) (.app f (args.map g)) := by
  have hsort : (args.map g).map Term.sort = args.map Term.sort := by
    rw [List.map_map]
    exact List.map_congr_left fun t ht => (h t ht).sort
  refine ⟨ht.app (List.forall_mem_map.mpr fun t ht => (h t ht).wellSorted) hsort,
    sort_app_congr hsort, fun M hM => ?_⟩
  rw [Model.value_app, Model.value_app, List.map_map]
  exact congrArg (M.applySymbol f) (List.map_congr_left fun t ht => (h t ht).value M hM)

/-- Rewriting leads to an equivalent term when all its replacements do. -/
theorem WellSorted.rewrite {before : Term → Option Term} {after : Term → Term}
    (hbefore : ∀ t u, V.WellSorted t → before t = some u → V.Equivalent K t u)
    (hafter : ∀ t, V.WellSorted t → V.Equivalent K t (after t)) (ht : V.WellSorted t) :
    V.Equivalent K t (t.rewrite before after) := by
  have pick : ∀ {t u}, V.WellSorted t → V.Equivalent K t u →
      V.Equivalent K t ((before t).getD (after u)) := by
    intro t u ht h
    cases hb : before t with
    | none => exact h.trans (hafter u h.wellSorted)
    | some w => exact hbefore t w ht hb
  have step : ∀ {f args}, V.WellSorted (.app f args) →
      (∀ t ∈ args, V.Equivalent K t (t.rewrite before after)) →
      V.Equivalent K (.app f args) ((Term.app f args).rewrite before after) := by
    intro f args ht ih
    rw [Term.rewrite, rewriteArgs_eq_map]
    exact pick ht (.app ht ih)
  induction ht with
  | var hx => exact pick (.var hx) (.refl (.var hx))
  | bool b => exact pick (.bool b) (.refl (.bool b))
  | int i => exact pick (.int i) (.refl (.int i))
  | con hf ha hargs ih => exact step (.con hf ha hargs) ih
  | fn hf hargs ih => exact step (.fn hf hargs) ih
  | op hf hacc hargs ih => exact step (.op hf hacc hargs) ih

end Vocabulary

end SolvedForm

import SolvedForm.Substitution
import SolvedForm.Term.Evaluate
import SolvedForm.Proofs.Sorted
import SolvedForm.Proofs.Term.Comparison

/-!
How substitution, evaluation and renaming act on the immediate subterms of a term, and where
its variables sit.

* `Term.ofEntries_inj`, `Term.ofEntries_eq_map_iff`: when maps made from entries are equal, and which
  maps are made so.
* `Substitution.apply_app`, `Term.evaluate_app`, `Term.rename_app` and their companions: the
  three ways of rewriting, one kind of term at a time.
* `Term.mem_vars_app`, `Term.mem_vars_ofEntries`: the variables of a compound term.
* `Term.sort_of_resultSort`, `Term.sort_of_not_applies`: the sort of an application.
-/

namespace SolvedForm

namespace Term

/-! ### Maps made from entries -/

section OfEntries

variable {es fs : List Entry} {x y : Option Var}

lemma mem_ofEntries_iff {e : Entry} : e ∈ Sorted.ofList compareEntry es ↔ e ∈ es :=
  Sorted.mem_ofList_iff

lemma ofEntries_congr (h : ∀ e, e ∈ es ↔ e ∈ fs) : ofEntries es x = ofEntries fs x := by
  rw [ofEntries, ofEntries, Sorted.ofList_congr h]

lemma ofEntries_inj : ofEntries es x = ofEntries fs y ↔ (∀ e, e ∈ es ↔ e ∈ fs) ∧ x = y := by
  constructor
  · intro h
    obtain ⟨hes, hxy⟩ := Term.map.injEq .. ▸ h
    have hmem : ∀ e, e ∈ Sorted.ofList compareEntry es ↔ e ∈ Sorted.ofList compareEntry fs :=
      fun e => by rw [hes]
    exact ⟨fun e => by simpa only [mem_ofEntries_iff] using hmem e, hxy⟩
  · rintro ⟨h, rfl⟩
    exact ofEntries_congr h

/-- A map whose entries are increasing is the one made from its own entries, and no other map is. -/
lemma ofEntries_eq_map_iff : ofEntries es x = .map es x ↔ Sorted.Increasing compareEntry es := by
  rw [ofEntries, Term.map.injEq, and_iff_left rfl]
  exact ⟨fun h => h ▸ Sorted.increasing_ofList es, Sorted.ofList_eq_self⟩

end OfEntries

/-! ### Variables of compound terms -/

lemma mem_varsArgs {x : Var} {ts : List Term} : x ∈ varsArgs ts ↔ ∃ t ∈ ts, x ∈ t.vars := by
  induction ts with
  | nil => simp [varsArgs]
  | cons t ts ih => simp [varsArgs, ih]

lemma mem_varsEntries {x : Var} {es : List Entry} :
    x ∈ varsEntries es ↔ ∃ e ∈ es, x ∈ e.1.vars ∨ x ∈ e.2.vars := by
  induction es with
  | nil => simp [varsEntries]
  | cons e es ih => simp [varsEntries, ih, or_assoc]

@[simp] lemma vars_var (x : Var) : (Term.var x).vars = [x] := rfl

@[simp] lemma vars_bool (b : Bool) : (Term.bool b).vars = [] := rfl

@[simp] lemma vars_int (i : Int64) : (Term.int i).vars = [] := rfl

@[simp] lemma mem_vars_app {x : Var} {f : Symbol} {args : List Term} :
    x ∈ (Term.app f args).vars ↔ ∃ t ∈ args, x ∈ t.vars := mem_varsArgs

@[simp] lemma mem_vars_map {x : Var} {es : List Entry} {frame : Option Var} :
    x ∈ (Term.map es frame).vars ↔
      (∃ e ∈ es, x ∈ e.1.vars ∨ x ∈ e.2.vars) ∨ frame = some x := by
  cases frame <;> simp [vars, mem_varsEntries, eq_comm]

@[simp] lemma mem_vars_lookup {x : Var} {m k : Term} :
    x ∈ (Term.lookup m k).vars ↔ x ∈ m.vars ∨ x ∈ k.vars := by
  simp [vars]

@[simp] lemma mem_vars_ofEntries {x : Var} {es : List Entry} {frame : Option Var} :
    x ∈ (ofEntries es frame).vars ↔
      (∃ e ∈ es, x ∈ e.1.vars ∨ x ∈ e.2.vars) ∨ frame = some x := by
  simp [ofEntries, mem_ofEntries_iff]

/-! ### Sorts of applications -/

lemma sort_of_resultSort {f : Symbol} {args : List Term} {s : SortName}
    (h : f.resultSort = some s) : (Term.app f args).sort = s := by
  match args with
  | [_, _, _] | [] | [_] | [_, _] | _ :: _ :: _ :: _ :: _ => simp [sort, h]

lemma sort_of_not_applies {f : Symbol} {args : List Term}
    (h : (Term.app f args).applies .ite = false) :
    (Term.app f args).sort = f.resultSort.getD .top := by
  match args with
  | [_, _, _] =>
      unfold sort
      split <;> simp [*]
  | [] | [_] | [_, _] | _ :: _ :: _ :: _ :: _ => rfl

/-! ### Evaluation -/

@[simp] lemma evaluate_var (x : Var) : (Term.var x).evaluate = .var x := rfl

@[simp] lemma evaluate_bool (b : Bool) : (Term.bool b).evaluate = .bool b := rfl

@[simp] lemma evaluate_int (i : Int64) : (Term.int i).evaluate = .int i := rfl

lemma evaluate_app (f : Symbol) (args : List Term) :
    (Term.app f args).evaluate =
      (reduceRoot (.app f (args.map evaluate))).getD (.app f (args.map evaluate)) := by
  simp only [evaluate, rewrite, rewriteArgs_eq_map, Option.getD_none]
  rfl

lemma evaluate_map (es : List Entry) (frame : Option Var) :
    (Term.map es frame).evaluate =
      ofEntries (es.map fun e => (e.1.evaluate, e.2.evaluate)) frame := by
  cases frame <;> simp only [evaluate, rewrite, rewriteEntries_eq_map, Option.getD_none] <;> rfl

lemma evaluate_lookup (m k : Term) :
    (Term.lookup m k).evaluate =
      (reduceRoot (.lookup m.evaluate k.evaluate)).getD (.lookup m.evaluate k.evaluate) := rfl

/-! ### Renaming -/

@[simp] lemma rename_var (ρ : Var → Var) (x : Var) : rename ρ (.var x) = .var (ρ x) := rfl

@[simp] lemma rename_bool (ρ : Var → Var) (b : Bool) : rename ρ (.bool b) = .bool b := rfl

@[simp] lemma rename_int (ρ : Var → Var) (i : Int64) : rename ρ (.int i) = .int i := rfl

@[simp] lemma rename_app (ρ : Var → Var) (f : Symbol) (args : List Term) :
    rename ρ (.app f args) = .app f (args.map (rename ρ)) := by
  simp only [rename, rewrite, rewriteArgs_eq_map, Option.getD_none, id]
  rfl

lemma rename_map (ρ : Var → Var) (es : List Entry) (frame : Option Var) :
    rename ρ (.map es frame) =
      ofEntries (es.map fun e => (rename ρ e.1, rename ρ e.2)) (frame.map ρ) := by
  cases frame <;> simp only [rename, rewrite, rewriteEntries_eq_map, Option.getD_none, id, reframe] <;>
    rfl

@[simp] lemma rename_lookup (ρ : Var → Var) (m k : Term) :
    rename ρ (.lookup m k) = .lookup (rename ρ m) (rename ρ k) := rfl

end Term

namespace Substitution

open Term

/-! ### Substitution -/

@[simp] lemma apply_var (σ : Substitution) (x : Var) :
    σ.apply (.var x) = (σ.find? x).getD (.var x) := rfl

@[simp] lemma apply_bool (σ : Substitution) (b : Bool) : σ.apply (.bool b) = .bool b := rfl

@[simp] lemma apply_int (σ : Substitution) (i : Int64) : σ.apply (.int i) = .int i := rfl

@[simp] lemma apply_app (σ : Substitution) (f : Symbol) (args : List Term) :
    σ.apply (.app f args) = .app f (args.map σ.apply) := by
  simp only [apply, rewrite, rewriteArgs_eq_map, Option.getD_none, id]
  rfl

lemma apply_map (σ : Substitution) (es : List Entry) (frame : Option Var) :
    σ.apply (.map es frame) =
      reframe (es.map fun e => (σ.apply e.1, σ.apply e.2)) frame fun x => σ.apply (.var x) := by
  simp only [apply, rewrite, rewriteEntries_eq_map, Option.getD_none, id]

@[simp] lemma apply_lookup (σ : Substitution) (m k : Term) :
    σ.apply (.lookup m k) = .lookup (σ.apply m) (σ.apply k) := rfl

end Substitution

end SolvedForm

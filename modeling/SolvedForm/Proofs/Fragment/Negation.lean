import SolvedForm.Proofs.Fragment.MapFree
import SolvedForm.Proofs.Term.Canonical

/-!
Terms with one negation.

The label alone makes a function symbol the negation, so that there are negations of different
arities and result sorts. Two of them cancel, whatever their symbols are.

* `Term.NegatedBy`: all negations in a term are by symbols of a given class, and of one operand.
* `Term.Uniform`: the terms without maps in which they are by one symbol.
* `Fragment.uniform`: they make a fragment.
-/

namespace SolvedForm

open Decomposition

/-- Every negation inside the term is by a symbol of the class, and of one operand. -/
inductive Term.NegatedBy (S : Symbol → Prop) : Term → Prop where
  | var (x : Var) : NegatedBy S (.var x)
  | bool (b : Bool) : NegatedBy S (.bool b)
  | int (i : Int64) : NegatedBy S (.int i)
  | app {f : Symbol} {args : List Term} :
      ((Term.app f args).applies .neg = true → S f ∧ ∃ a, args = [a]) →
      (∀ t ∈ args, NegatedBy S t) → NegatedBy S (.app f args)
  | map {entries : List Entry} (frame : Option Var) : (∀ e ∈ entries, NegatedBy S e.1) →
      (∀ e ∈ entries, NegatedBy S e.2) → NegatedBy S (.map entries frame)
  | lookup {m k : Term} : NegatedBy S m → NegatedBy S k → NegatedBy S (.lookup m k)

namespace Term.NegatedBy

variable {S : Symbol → Prop} {f : Symbol} {args : List Term} {es : List Entry}
  {frame : Option Var} {t u m k : Term} {σ : Substitution}

lemma of_app (h : (Term.app f args).NegatedBy S) : ∀ t ∈ args, t.NegatedBy S := by
  cases h
  assumption

lemma negation (h : (Term.app f args).NegatedBy S) (hf : (Term.app f args).applies .neg = true) :
    S f ∧ ∃ a, args = [a] := by
  cases h with
  | app h _ => exact h hf

lemma neg (hf : S f) (ht : t.NegatedBy S) : (Term.app f [t]).NegatedBy S :=
  .app (fun _ => ⟨hf, t, rfl⟩) (List.forall_mem_singleton.mpr ht)

lemma other (hf : (Term.app f args).applies .neg = false) (hargs : ∀ t ∈ args, t.NegatedBy S) :
    (Term.app f args).NegatedBy S :=
  .app (fun h => absurd (hf.symm.trans h) Bool.false_ne_true) hargs

lemma entries (h : (Term.map es frame).NegatedBy S) :
    ∀ e ∈ es, e.1.NegatedBy S ∧ e.2.NegatedBy S := by
  cases h with
  | map _ hk hv => exact fun e he => ⟨hk e he, hv e he⟩

lemma mono {S' : Symbol → Prop} (h : t.NegatedBy S) (hS : ∀ f, S f → S' f) : t.NegatedBy S' := by
  induction h with
  | var x => exact .var x
  | bool b => exact .bool b
  | int i => exact .int i
  | app hf _ ih => exact .app (fun h => (hf h).imp_left (hS _)) ih
  | map frame _ _ ihk ihv => exact .map frame ihk ihv
  | lookup _ _ ihm ihk => exact .lookup ihm ihk

/-- A condition on the negations among the parts of a term. -/
lemma of_parts (h : ∀ {f : Symbol} {args : List Term}, Part (.app f args) t →
    (Term.app f args).applies .neg = true → S f ∧ ∃ a, args = [a]) : t.NegatedBy S := by
  induction t using Term.ind with
  | var x => exact .var x
  | bool b => exact .bool b
  | int i => exact .int i
  | app f args ih => exact .app (h .refl) fun t ht => ih t ht fun hs => h (.arg ht hs)
  | map es frame ih =>
      exact .map frame (fun e he => (ih e he).1 fun hs => h (.key he hs))
        fun e he => (ih e he).2 fun hs => h (.value he hs)
  | lookup m k ihm ihk =>
      exact .lookup (ihm fun hs => h (.table hs)) (ihk fun hs => h (.index hs))

lemma lookup_iff : (Term.lookup m k).NegatedBy S ↔ m.NegatedBy S ∧ k.NegatedBy S :=
  ⟨fun h => by cases h; exact ⟨‹_›, ‹_›⟩, fun h => .lookup h.1 h.2⟩

lemma of_part {s : Term} (h : t.NegatedBy S) (hs : Part s t) : s.NegatedBy S :=
  Part.closed of_app entries lookup_iff.mp h hs

lemma ofEntries (frame : Option Var) (h : ∀ e ∈ es, e.1.NegatedBy S ∧ e.2.NegatedBy S) :
    (ofEntries es frame).NegatedBy S :=
  .map frame (fun e he => (h e (mem_ofEntries_iff.mp he)).1)
    fun e he => (h e (mem_ofEntries_iff.mp he)).2

/-- Whether an application is a negation does not depend on its arguments. -/
lemma mapArgs {g : Term → Term} (h : (Term.app f args).NegatedBy S)
    (hargs : ∀ a ∈ args, (g a).NegatedBy S) : (Term.app f (args.map g)).NegatedBy S := by
  refine .app (fun hf => ?_) (List.forall_mem_map.mpr hargs)
  obtain ⟨hS, a, rfl⟩ := h.negation hf
  exact ⟨hS, g a, rfl⟩

lemma reduceRoot (ht : t.NegatedBy S) (h : t.reduceRoot = some u) : u.NegatedBy S :=
  reduceRoot_closed .bool .int of_app (fun h e he => (h.entries e he).2)
    (fun h => (lookup_iff.mp h).1) ht h

lemma evaluate (h : t.NegatedBy S) : t.evaluate.NegatedBy S := by
  have root : ∀ {s : Term}, s.NegatedBy S → (s.reduceRoot.getD s).NegatedBy S := by
    intro s hs
    cases h : s.reduceRoot with
    | none => exact hs
    | some u => exact hs.reduceRoot h
  induction h with
  | var x => exact .var x
  | bool b => exact .bool b
  | int i => exact .int i
  | app hf hargs ih =>
      rw [evaluate_app]
      exact root (mapArgs (.app hf hargs) ih)
  | map frame _ _ ihk ihv =>
      rw [evaluate_map]
      exact ofEntries frame (List.forall_mem_map.mpr fun e he => ⟨ihk e he, ihv e he⟩)
  | lookup _ _ ihm ihk => exact root (.lookup ihm ihk)

/-- Instances of terms without maps. -/
lemma apply (hσ : ∀ x u, σ.find? x = some u → u.NegatedBy S) (ht : t.MapFree)
    (h : t.NegatedBy S) : (σ.apply t).NegatedBy S := by
  induction ht with
  | var x =>
      rw [Substitution.apply_var]
      cases hx : σ.find? x with
      | none => exact .var x
      | some u => exact hσ x u hx
  | bool b => exact .bool b
  | int i => exact .int i
  | app f _ ih =>
      rw [Substitution.apply_app]
      exact h.mapArgs fun a ha => ih a ha (h.of_app a ha)
  | lookup _ _ ihm ihk =>
      obtain ⟨hm, hk⟩ := lookup_iff.mp h
      exact .lookup (ihm hm) (ihk hk)

end Term.NegatedBy

/-! ### The fragment -/

/-- There is no map inside the term, and all negations are by the symbol `neg`, of one operand. -/
def Term.Uniform (neg : Symbol) (t : Term) : Prop := t.MapFree ∧ t.NegatedBy (· = neg)

namespace Term.Uniform

variable {neg : Symbol} {t : Term} {σ : Substitution}

lemma var (x : Var) : (Term.var x).Uniform neg := ⟨.var x, .var x⟩

lemma negation (h : t.Uniform neg) : (Term.app neg [t]).Uniform neg :=
  ⟨.app neg (List.forall_mem_singleton.mpr h.1), .neg rfl h.2⟩

lemma other {f : Symbol} {args : List Term} (hf : (Term.app f args).applies .neg = false)
    (h : ∀ t ∈ args, t.Uniform neg) : (Term.app f args).Uniform neg :=
  ⟨.app f fun t ht => (h t ht).1, .other hf fun t ht => (h t ht).2⟩

lemma evaluate (h : t.Uniform neg) : t.evaluate.Uniform neg := ⟨h.1.evaluate, h.2.evaluate⟩

lemma apply (hσ : ∀ x u, σ.find? x = some u → u.Uniform neg) (h : t.Uniform neg) :
    (σ.apply t).Uniform neg :=
  ⟨h.1.apply fun x u hu => (hσ x u hu).1, h.2.apply (fun x u hu => (hσ x u hu).2) h.1⟩

end Term.Uniform

lemma hereditary_uniform (neg : Symbol) : Hereditary (Term.Uniform neg) where
  app h t ht := ⟨Term.MapFree.app_iff.mp h.1 t ht, h.2.of_app t ht⟩
  frame h := absurd h.1 Term.MapFree.not_map
  entries h := absurd h.1 Term.MapFree.not_map
  rest h := absurd h.1 Term.MapFree.not_map

/-- Terms without maps whose negations are all by the symbol `neg`, of one operand. -/
def Fragment.uniform (order : SortOrder) (neg : Symbol) : Fragment (Theory.standard order) :=
  .ofHereditary order (hereditary_uniform neg) (fun h => h.1.frameless) ⟨.bool true, .bool true⟩
    Term.Uniform.evaluate (fun hσ => Term.Uniform.apply hσ) fun _ => True

end SolvedForm

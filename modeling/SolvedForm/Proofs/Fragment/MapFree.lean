import SolvedForm.Proofs.Fragment.Free

/-!
The fragment of terms without maps.

* `Term.MapFree`: terms with no map inside; lookups and applications of all kinds are allowed.
* `Term.MapFreeOver`: such terms with variables of a given class.
* `Fragment.ofHereditary`: a class of frameless terms that is closed under parts, evaluation and
  substitution, with variables of a given class, makes a fragment.
* `Fragment.mapFree`, `Fragment.framelessOver`: the fragments of terms without maps, and of terms
  without frames.
-/

namespace SolvedForm

open Decomposition

/-- There is no map inside the term. -/
inductive Term.MapFree : Term → Prop where
  | var (x : Var) : MapFree (.var x)
  | bool (b : Bool) : MapFree (.bool b)
  | int (i : Int64) : MapFree (.int i)
  | app (f : Symbol) {args : List Term} : (∀ t ∈ args, MapFree t) → MapFree (.app f args)
  | lookup {m k : Term} : MapFree m → MapFree k → MapFree (.lookup m k)

namespace Term.MapFree

variable {f : Symbol} {args : List Term} {t u m k : Term}

@[simp] lemma app_iff : (Term.app f args).MapFree ↔ ∀ t ∈ args, t.MapFree :=
  ⟨fun h => by cases h; assumption, .app f⟩

@[simp] lemma lookup_iff : (Term.lookup m k).MapFree ↔ m.MapFree ∧ k.MapFree :=
  ⟨fun h => by cases h; exact ⟨‹_›, ‹_›⟩, fun h => .lookup h.1 h.2⟩

@[simp] lemma not_map {es : List Entry} {frame : Option Var} : ¬ (Term.map es frame).MapFree :=
  nofun

lemma frameless (h : t.MapFree) : t.Frameless := by
  induction h with
  | var x => exact .var x
  | bool b => exact .bool b
  | int i => exact .int i
  | app f _ ih => exact .app f ih
  | lookup _ _ ihm ihk => exact .lookup ihm ihk

lemma apply {σ : Substitution} (hσ : ∀ x u, σ.find? x = some u → u.MapFree) (h : t.MapFree) :
    (σ.apply t).MapFree := by
  induction h with
  | var x =>
      rw [Substitution.apply_var]
      cases hx : σ.find? x with
      | none => exact .var x
      | some u => exact hσ x u hx
  | bool b => exact .bool b
  | int i => exact .int i
  | app f _ ih =>
      rw [Substitution.apply_app]
      exact .app f (List.forall_mem_map.mpr ih)
  | lookup _ _ ihm ihk => exact .lookup ihm ihk

lemma rename (ρ : Var → Var) (h : t.MapFree) : (t.rename ρ).MapFree := by
  induction h with
  | var x => exact .var (ρ x)
  | bool b => exact .bool b
  | int i => exact .int i
  | app f _ ih =>
      rw [rename_app]
      exact .app f (List.forall_mem_map.mpr ih)
  | lookup _ _ ihm ihk => exact .lookup ihm ihk

lemma reduceRoot (ht : t.MapFree) (h : t.reduceRoot = some u) : u.MapFree :=
  reduceRoot_closed .bool .int (fun h => app_iff.mp h) (fun h => absurd h not_map)
    (fun h => (lookup_iff.mp h).1) ht h

lemma evaluate (h : t.MapFree) : t.evaluate.MapFree := by
  have root : ∀ {s : Term}, s.MapFree → (s.reduceRoot.getD s).MapFree := by
    intro s hs
    cases h : s.reduceRoot with
    | none => exact hs
    | some u => exact hs.reduceRoot h
  induction h with
  | var x => exact .var x
  | bool b => exact .bool b
  | int i => exact .int i
  | app f _ ih =>
      rw [evaluate_app]
      exact root (.app f (List.forall_mem_map.mpr ih))
  | lookup _ _ ihm ihk => exact root (.lookup ihm ihk)

end Term.MapFree

lemma hereditary_mapFree : Hereditary Term.MapFree where
  app h := Term.MapFree.app_iff.mp h
  frame h := absurd h Term.MapFree.not_map
  entries h := absurd h Term.MapFree.not_map
  rest h := absurd h Term.MapFree.not_map

/-- The term is without maps, and its variables belong to a class. -/
def Term.MapFreeOver (allowed : Var → Prop) (t : Term) : Prop :=
  t.MapFree ∧ ∀ x ∈ t.vars, allowed x

/-! ### The fragment -/

/-- A class of frameless terms that is closed under parts, evaluation and substitution, with
variables of a given class; all bindings between such terms are allowed. -/
def Fragment.ofHereditary (order : SortOrder) {P : Term → Prop} (hP : Hereditary P)
    (frameless : ∀ {t}, P t → t.Frameless) (mem_true : P (.bool true))
    (mem_evaluate : ∀ {t}, P t → P t.evaluate)
    (mem_apply : ∀ {σ : Substitution}, (∀ x u, σ.find? x = some u → P u) →
      ∀ {t}, P t → P (σ.apply t))
    (allowed : Var → Prop) : Fragment (Theory.standard order) where
  Mem t := P t ∧ ∀ x ∈ t.vars, allowed x
  Binds x t := (P (.var x) ∧ allowed x) ∧ P t ∧ ∀ y ∈ t.vars, allowed y
  frameless h := frameless h.1
  mem_true := ⟨mem_true, by simp⟩
  mem_var h := ⟨h.1.1, by simpa using h.1.2⟩
  mem_value h := h.2
  mem_conjuncts h := (hP.over allowed).conjuncts h
  mem_evaluate := evaluate
  vars_evaluate _ _ := Term.mem_vars_evaluate
  mem_apply := apply
  binds_evaluate h := ⟨h.1, evaluate h.2⟩
  binds_apply hσ _ _ h := ⟨h.1, apply hσ h.2⟩
  binds_of_orient hl hr _ h := by
    rcases Equation.orient_cases h with rfl | rfl
    · exact ⟨⟨hl.1, hl.2 _ (by simp)⟩, hr⟩
    · exact ⟨⟨hr.1, hr.2 _ (by simp)⟩, hl⟩
  unique hl hr h := structural_unique (hP.over allowed) hl hr h
  disjunction hl hr h := structural_disjunction (hP.over allowed) hl hr h
where
  /-- Evaluation stays within the class and brings no variable in. -/
  evaluate {t : Term} (ht : P t ∧ ∀ x ∈ t.vars, allowed x) :
      P t.evaluate ∧ ∀ x ∈ t.evaluate.vars, allowed x :=
    ⟨mem_evaluate ht.1, fun x hx => ht.2 x (Term.mem_vars_evaluate hx)⟩
  /-- Instances have the variables of the term and of the values. -/
  apply {σ : Substitution}
      (hσ : ∀ b ∈ σ.toList, (P (.var b.1) ∧ allowed b.1) ∧ P b.2 ∧ ∀ y ∈ b.2.vars, allowed y)
      {t : Term} (ht : P t ∧ ∀ x ∈ t.vars, allowed x) :
      P (σ.apply t) ∧ ∀ x ∈ (σ.apply t).vars, allowed x := by
    have hu : ∀ x u, σ.find? x = some u → P u ∧ ∀ y ∈ u.vars, allowed y := fun x u h =>
      (hσ (x, u) (Substitution.mem_toList_iff.mpr h)).2
    refine ⟨mem_apply (fun x u h => (hu x u h).1) ht.1, fun x hx => ?_⟩
    rcases Term.mem_vars_apply (frameless ht.1) hx with ⟨hx, -⟩ | ⟨y, u, -, h, hx⟩
    · exact ht.2 x hx
    · exact (hu y u h).2 x hx

/-- Terms without maps, with variables of a given class. -/
def Fragment.mapFree (order : SortOrder) (allowed : Var → Prop) :
    Fragment (Theory.standard order) :=
  .ofHereditary order hereditary_mapFree Term.MapFree.frameless (.bool true)
    Term.MapFree.evaluate (fun hσ => Term.MapFree.apply hσ) allowed

/-- Terms without frames, with variables of a given class. -/
def Fragment.framelessOver (order : SortOrder) (allowed : Var → Prop) :
    Fragment (Theory.standard order) :=
  .ofHereditary order hereditary_frameless (fun ht => ht) (.bool true) Term.Frameless.evaluate
    (fun hσ => Term.Frameless.apply hσ) allowed

lemma Term.MapFreeOver.over {allowed : Var → Prop} {t : Term} (h : t.MapFreeOver allowed) :
    t.Over allowed :=
  ⟨h.1.frameless, h.2⟩

namespace Term.MapFreeOver

variable {allowed : Var → Prop} {f : Symbol} {args : List Term} {t m k : Term}

lemma app_iff : (Term.app f args).MapFreeOver allowed ↔ ∀ t ∈ args, t.MapFreeOver allowed := by
  simp only [MapFreeOver, MapFree.app_iff, mem_vars_app]
  constructor
  · exact fun h t ht => ⟨h.1 t ht, fun x hx => h.2 x ⟨t, ht, hx⟩⟩
  · intro h
    refine ⟨fun t ht => (h t ht).1, ?_⟩
    rintro x ⟨t, ht, hx⟩
    exact (h t ht).2 x hx

lemma lookup_iff :
    (Term.lookup m k).MapFreeOver allowed ↔ m.MapFreeOver allowed ∧ k.MapFreeOver allowed := by
  simp only [MapFreeOver, MapFree.lookup_iff, mem_vars_lookup, or_imp, forall_and]
  exact and_and_and_comm

/-- Replacements along a table bring in what the table has on its right sides, and they leave no
variable that the table has on a left side. -/
lemma replace {table : Table} (htable : ∀ s u, (s, u) ∈ table → u.MapFreeOver allowed)
    (h : t.MapFreeOver fun x => allowed x ∨ ∃ u, (.var x, u) ∈ table) :
    (t.replace table).MapFreeOver allowed := by
  have listed : ∀ {s u : Term}, table.find? s = some u → u.MapFreeOver allowed := by
    intro s u hs
    obtain ⟨before, after, heq, -⟩ := List.lookup_eq_some_iff.mp hs
    exact htable s u (by simp [heq])
  -- a term is replaced as a whole, or looked up again when its parts have been replaced
  have step : ∀ {s u : Term}, (table.find? u = none → u.MapFreeOver allowed) →
      ((table.find? s).getD ((table.find? u).getD u)).MapFreeOver allowed := by
    intro s u hu
    cases hs : table.find? s with
    | some w => exact listed hs
    | none =>
        cases hu' : table.find? u with
        | some w => exact listed hu'
        | none => exact hu hu'
  unfold Term.replace
  induction t using Term.ind with
  | var x =>
      refine step fun hx => ⟨.var x, ?_⟩
      rintro y hy
      obtain rfl : y = x := by simpa using hy
      refine (h.2 y hy).resolve_right ?_
      rintro ⟨u, hu⟩
      simpa using List.lookup_eq_none_iff.mp hx _ hu
  | bool b => exact step fun _ => ⟨.bool b, nofun⟩
  | int i => exact step fun _ => ⟨.int i, nofun⟩
  | app f args ih =>
      rw [rewrite, rewriteArgs_eq_map]
      exact step fun _ =>
        app_iff.mpr (List.forall_mem_map.mpr fun a ha => ih a ha (app_iff.mp h a ha))
  | map es frame ih => exact absurd h.1 MapFree.not_map
  | lookup m k ihm ihk =>
      obtain ⟨hm, hk⟩ := lookup_iff.mp h
      exact step fun _ => lookup_iff.mpr ⟨ihm hm, ihk hk⟩

end Term.MapFreeOver

end SolvedForm

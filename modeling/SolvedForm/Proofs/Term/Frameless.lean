import SolvedForm.Proofs.Operator
import SolvedForm.Proofs.Substitution

/-!
Terms whose maps are canonical and have no frame.

* `Term.Frameless`: the class, closed under substitution (`Frameless.apply`), evaluation
  (`Frameless.evaluate`) and renaming (`Frameless.rename`).
* `Term.Over`: frameless terms with variables of a given class.
* `Term.mem_vars_evaluate`, `Term.mem_vars_rename`: evaluation brings no variable in, and a renaming
  only the new names.
* `Term.apply_eq_self`: a substitution that touches no variable changes nothing.
-/

namespace SolvedForm

open Term

/-! ### What a step of evaluation answers -/

namespace Term

lemma mem_of_valueAt {k v : Term} {es : List Entry} (h : valueAt k es = some v) :
    ∃ e ∈ es, e.2 = v := by
  induction es with
  | nil => cases h
  | cons e es ih =>
      rw [valueAt, List.lookup_cons] at h
      split at h
      · exact ⟨e, List.mem_cons_self, Option.some.inj h⟩
      · obtain ⟨f, hf, hv⟩ := ih h
        exact ⟨f, List.mem_cons_of_mem _ hf, hv⟩

/-- A property of terms that literals have and that passes to the immediate subterms passes
along a step at the root. -/
lemma reduceRoot_closed {P : Term → Prop} (bool : ∀ b, P (.bool b)) (int : ∀ i, P (.int i))
    (app : ∀ {f args}, P (.app f args) → ∀ a ∈ args, P a)
    (map : ∀ {es frame}, P (.map es frame) → ∀ e ∈ es, P e.2)
    (lookup : ∀ {m k}, P (.lookup m k) → P m) {t u : Term} (ht : P t)
    (h : t.reduceRoot = some u) : P u := by
  unfold reduceRoot at h
  split at h
  · next f args =>
      split at h
      · cases h
      · obtain ⟨o, -, ho⟩ := Option.bind_eq_some_iff.mp h
        rcases Operator.reduce_cases ho with ⟨b, rfl⟩ | ⟨i, rfl⟩ | hu | ⟨a, ha, hu⟩
        · exact bool b
        · exact int i
        · exact app ht u hu
        · cases a with
          | app g args' => exact app (app ht _ ha) u hu
          | _ => cases hu
  · next es frame k =>
      obtain ⟨e, he, rfl⟩ := mem_of_valueAt h
      exact map (lookup ht) e he
  · cases h

lemma mem_vars_reduceRoot {t u : Term} (h : t.reduceRoot = some u) {x : Var} (hx : x ∈ u.vars) :
    x ∈ t.vars := by
  refine reduceRoot_closed (P := fun s => ∀ y ∈ s.vars, y ∈ t.vars) ?_ ?_ ?_ ?_ ?_
    (fun _ => id) h x hx
  · simp
  · simp
  · intro f args hs a ha y hy
    exact hs y (mem_vars_app.mpr ⟨a, ha, hy⟩)
  · intro es frame hs e he y hy
    exact hs y (mem_vars_map.mpr (.inl ⟨e, he, .inr hy⟩))
  · intro m k hs y hy
    exact hs y (mem_vars_lookup.mpr (.inl hy))

/-- Evaluation brings no variable in. -/
lemma mem_vars_evaluate {t : Term} {x : Var} (hx : x ∈ t.evaluate.vars) : x ∈ t.vars := by
  have root : ∀ {s : Term}, x ∈ (s.reduceRoot.getD s).vars → x ∈ s.vars := by
    intro s hs
    cases h : s.reduceRoot with
    | none => simpa [h] using hs
    | some u => exact mem_vars_reduceRoot h (by simpa [h] using hs)
  induction t using Term.ind with
  | var y => exact hx
  | bool b => exact hx
  | int i => exact hx
  | app f args ih =>
      rw [evaluate_app] at hx
      obtain ⟨_, hb, hx⟩ := mem_vars_app.mp (root hx)
      obtain ⟨a, ha, rfl⟩ := List.mem_map.mp hb
      exact mem_vars_app.mpr ⟨a, ha, ih a ha hx⟩
  | map es frame ih =>
      rw [evaluate_map, mem_vars_ofEntries] at hx
      refine mem_vars_map.mpr (hx.imp_left ?_)
      rintro ⟨_, hf, hx⟩
      obtain ⟨e, he, rfl⟩ := List.mem_map.mp hf
      exact ⟨e, he, hx.imp (ih e he).1 (ih e he).2⟩
  | lookup m k ihm ihk =>
      rw [evaluate_lookup] at hx
      exact mem_vars_lookup.mpr ((mem_vars_lookup.mp (root hx)).imp ihm ihk)

/-! ### Frameless terms -/

/-- All maps inside the term are canonical, and none has a frame. -/
inductive Frameless : Term → Prop where
  | var (x : Var) : Frameless (.var x)
  | bool (b : Bool) : Frameless (.bool b)
  | int (i : Int64) : Frameless (.int i)
  | app (f : Symbol) {args : List Term} : (∀ t ∈ args, Frameless t) → Frameless (.app f args)
  | map {entries : List Entry} : Sorted.Increasing compareEntry entries →
      (∀ e ∈ entries, Frameless e.1) → (∀ e ∈ entries, Frameless e.2) →
      Frameless (.map entries none)
  | lookup {m k : Term} : Frameless m → Frameless k → Frameless (.lookup m k)

namespace Frameless

@[simp] lemma app_iff {f : Symbol} {args : List Term} :
    (Term.app f args).Frameless ↔ ∀ t ∈ args, t.Frameless :=
  ⟨fun h => by cases h; assumption, .app f⟩

@[simp] lemma lookup_iff {m k : Term} :
    (Term.lookup m k).Frameless ↔ m.Frameless ∧ k.Frameless :=
  ⟨fun h => by cases h; exact ⟨‹_›, ‹_›⟩, fun h => .lookup h.1 h.2⟩

lemma ofEntries {es : List Entry} (h : ∀ e ∈ es, e.1.Frameless ∧ e.2.Frameless) :
    (ofEntries es none).Frameless :=
  .map (Sorted.increasing_ofList es) (fun e he => (h e (mem_ofEntries_iff.mp he)).1)
    fun e he => (h e (mem_ofEntries_iff.mp he)).2

lemma entries {es : List Entry} {frame : Option Var} (h : (Term.map es frame).Frameless) :
    ∀ e ∈ es, e.1.Frameless ∧ e.2.Frameless := by
  cases h with
  | map _ hk hv => exact fun e he => ⟨hk e he, hv e he⟩

lemma apply {σ : Substitution} (hσ : ∀ x u, σ.find? x = some u → u.Frameless) {t : Term}
    (h : t.Frameless) : (σ.apply t).Frameless := by
  induction h with
  | var x =>
      rw [Substitution.apply_var]
      cases hx : σ.find? x with
      | none => exact .var x
      | some u => exact hσ x u hx
  | bool b => exact .bool b
  | int i => exact .int i
  | app f _ ih =>
      rw [Substitution.apply_app]
      exact .app f (List.forall_mem_map.mpr ih)
  | map _ _ _ ihk ihv =>
      rw [Substitution.apply_map]
      exact ofEntries (List.forall_mem_map.mpr fun e he => ⟨ihk e he, ihv e he⟩)
  | lookup _ _ ihm ihk => exact .lookup ihm ihk

lemma reduceRoot {t u : Term} (ht : t.Frameless) (h : t.reduceRoot = some u) : u.Frameless :=
  reduceRoot_closed .bool .int (fun h => app_iff.mp h) (fun h e he => (h.entries e he).2)
    (fun h => (lookup_iff.mp h).1) ht h

lemma evaluate {t : Term} (h : t.Frameless) : t.evaluate.Frameless := by
  have root : ∀ {s : Term}, s.Frameless → (s.reduceRoot.getD s).Frameless := by
    intro s hs
    cases h : s.reduceRoot with
    | none => exact hs
    | some u => exact hs.reduceRoot h
  induction h with
  | var x => exact .var x
  | bool b => exact .bool b
  | int i => exact .int i
  | app f _ ih =>
      rw [evaluate_app]
      exact root (.app f (List.forall_mem_map.mpr ih))
  | map _ _ _ ihk ihv =>
      rw [evaluate_map]
      exact ofEntries (List.forall_mem_map.mpr fun e he => ⟨ihk e he, ihv e he⟩)
  | lookup _ _ ihm ihk => exact root (.lookup ihm ihk)

lemma rename (ρ : Var → Var) {t : Term} (h : t.Frameless) : (t.rename ρ).Frameless := by
  induction h with
  | var x => exact .var (ρ x)
  | bool b => exact .bool b
  | int i => exact .int i
  | app f _ ih =>
      rw [rename_app]
      exact .app f (List.forall_mem_map.mpr ih)
  | map _ _ _ ihk ihv =>
      rw [rename_map]
      exact ofEntries (List.forall_mem_map.mpr fun e he => ⟨ihk e he, ihv e he⟩)
  | lookup _ _ ihm ihk => exact .lookup ihm ihk

end Frameless

/-- The term is frameless, and all its variables belong to a class. -/
structure Over (allowed : Var → Prop) (t : Term) : Prop where
  frameless : t.Frameless
  vars : ∀ x ∈ t.vars, allowed x

namespace Over

variable {allowed : Var → Prop}

lemma app_iff {f : Symbol} {args : List Term} :
    (Term.app f args).Over allowed ↔ ∀ t ∈ args, t.Over allowed := by
  constructor
  · exact fun h t ht => ⟨Frameless.app_iff.mp h.frameless t ht,
      fun x hx => h.vars x (mem_vars_app.mpr ⟨t, ht, hx⟩)⟩
  · refine fun h => ⟨.app f fun t ht => (h t ht).frameless, fun x hx => ?_⟩
    obtain ⟨t, ht, hx⟩ := mem_vars_app.mp hx
    exact (h t ht).vars x hx

lemma lookup_iff {m k : Term} :
    (Term.lookup m k).Over allowed ↔ m.Over allowed ∧ k.Over allowed := by
  constructor
  · exact fun h => ⟨⟨(Frameless.lookup_iff.mp h.frameless).1,
      fun x hx => h.vars x (mem_vars_lookup.mpr (.inl hx))⟩,
      ⟨(Frameless.lookup_iff.mp h.frameless).2,
      fun x hx => h.vars x (mem_vars_lookup.mpr (.inr hx))⟩⟩
  · exact fun ⟨hm, hk⟩ => ⟨.lookup hm.frameless hk.frameless,
      fun x hx => (mem_vars_lookup.mp hx).elim (hm.vars x) (hk.vars x)⟩

lemma entries {es : List Entry} {frame : Option Var} (h : (Term.map es frame).Over allowed) :
    ∀ e ∈ es, e.1.Over allowed ∧ e.2.Over allowed := fun e he =>
  ⟨⟨(h.frameless.entries e he).1, fun x hx => h.vars x (mem_vars_map.mpr (.inl ⟨e, he, .inl hx⟩))⟩,
    ⟨(h.frameless.entries e he).2, fun x hx => h.vars x (mem_vars_map.mpr (.inl ⟨e, he, .inr hx⟩))⟩⟩

lemma ofEntries {es : List Entry} (h : ∀ e ∈ es, e.1.Over allowed ∧ e.2.Over allowed) :
    (ofEntries es none).Over allowed := by
  refine ⟨Frameless.ofEntries fun e he => ⟨(h e he).1.frameless, (h e he).2.frameless⟩, ?_⟩
  intro x hx
  obtain ⟨e, he, hx⟩ := (mem_vars_ofEntries.mp hx).resolve_right (by simp)
  exact hx.elim ((h e he).1.vars x) ((h e he).2.vars x)

lemma evaluate {t : Term} (h : t.Over allowed) : t.evaluate.Over allowed :=
  ⟨h.frameless.evaluate, fun x hx => h.vars x (mem_vars_evaluate hx)⟩

end Over

/-! ### Variables under a renaming or a substitution -/

lemma mem_rename_vars {ρ : Var → Var} {t : Term} {x : Var} :
    x ∈ (t.rename ρ).vars ↔ ∃ y ∈ t.vars, ρ y = x := by
  induction t using Term.ind with
  | var y => simp [eq_comm]
  | bool b => simp
  | int i => simp
  | app f args ih =>
      simp only [rename_app, mem_vars_app]
      constructor
      · rintro ⟨_, hb, hx⟩
        obtain ⟨a, ha, rfl⟩ := List.mem_map.mp hb
        obtain ⟨y, hy, rfl⟩ := (ih a ha).mp hx
        exact ⟨y, ⟨a, ha, hy⟩, rfl⟩
      · rintro ⟨y, ⟨a, ha, hy⟩, rfl⟩
        exact ⟨_, List.mem_map_of_mem ha, (ih a ha).mpr ⟨y, hy, rfl⟩⟩
  | map es frame ih =>
      simp only [rename_map, mem_vars_ofEntries, mem_vars_map, Option.map_eq_some_iff]
      constructor
      · rintro (⟨_, hf, hx⟩ | ⟨y, hy, rfl⟩)
        · obtain ⟨e, he, rfl⟩ := List.mem_map.mp hf
          rcases hx with hx | hx
          · obtain ⟨y, hy, rfl⟩ := (ih e he).1.mp hx
            exact ⟨y, .inl ⟨e, he, .inl hy⟩, rfl⟩
          · obtain ⟨y, hy, rfl⟩ := (ih e he).2.mp hx
            exact ⟨y, .inl ⟨e, he, .inr hy⟩, rfl⟩
        · exact ⟨y, .inr hy, rfl⟩
      · rintro ⟨y, ⟨e, he, hy | hy⟩ | hy, rfl⟩
        · exact .inl ⟨_, List.mem_map_of_mem he, .inl ((ih e he).1.mpr ⟨y, hy, rfl⟩)⟩
        · exact .inl ⟨_, List.mem_map_of_mem he, .inr ((ih e he).2.mpr ⟨y, hy, rfl⟩)⟩
        · exact .inr ⟨y, hy, rfl⟩
  | lookup m k ihm ihk =>
      rw [rename_lookup, mem_vars_lookup, ihm, ihk]
      simp only [mem_vars_lookup, or_and_right, exists_or]

lemma mem_vars_rename {ρ : Var → Var} {t : Term} (_ : t.Frameless) {x : Var} :
    x ∈ (t.rename ρ).vars ↔ ∃ y ∈ t.vars, ρ y = x := mem_rename_vars

lemma Frameless.canonical {t : Term} (h : t.Frameless) : t.Canonical := by
  induction h with
  | var x => exact .var x
  | bool b => exact .bool b
  | int i => exact .int i
  | app f _ ih => exact .app f ih
  | map hes _ _ ihk ihv => exact .map none hes ihk ihv
  | lookup _ _ ihm ihk => exact .lookup ihm ihk

/-- A substitution changes nothing where no variable is bound. -/
lemma apply_eq_self {σ : Substitution} {t : Term} (h : t.Canonical)
    (hσ : ∀ x ∈ t.vars, x ∉ σ.keys) : σ.apply t = t := by
  have unbound : ∀ {x}, x ∉ σ.keys → σ.apply (.var x) = .var x := fun hx => by
    simp [Substitution.find?_eq_none_iff.mpr hx]
  induction h with
  | var x => exact unbound (hσ x (by simp))
  | bool b => rfl
  | int i => rfl
  | app f _ ih =>
      rw [Substitution.apply_app, List.map_congr_left fun a ha => ih a ha fun x hx =>
        hσ x (mem_vars_app.mpr ⟨a, ha, hx⟩), List.map_id']
  | @map es frame hes _ _ ihk ihv =>
      have hmap : ∀ e ∈ es, (σ.apply e.1, σ.apply e.2) = e := fun e he =>
        Prod.ext (ihk e he fun x hx => hσ x (mem_vars_map.mpr (.inl ⟨e, he, .inl hx⟩)))
          (ihv e he fun x hx => hσ x (mem_vars_map.mpr (.inl ⟨e, he, .inr hx⟩)))
      have hframe : reframe es frame (fun x => σ.apply (.var x)) = ofEntries es frame := by
        cases frame with
        | none => rfl
        | some x => rw [reframe, unbound (hσ x (mem_vars_map.mpr (.inr rfl)))]
      rw [Substitution.apply_map, List.map_congr_left hmap, List.map_id', hframe,
        ofEntries_eq_map_iff.mpr hes]
  | lookup _ _ ihm ihk =>
      rw [Substitution.apply_lookup, ihm fun x hx => hσ x (mem_vars_lookup.mpr (.inl hx)),
        ihk fun x hx => hσ x (mem_vars_lookup.mpr (.inr hx))]

/-- Only the instance of a variable is a variable. -/
lemma exists_var_of_apply {σ : Substitution} {t : Term} {y : Var} (h : σ.apply t = .var y) :
    ∃ z, t = .var z := by
  cases t with
  | var z => exact ⟨z, rfl⟩
  | bool | int => cases h
  | app f args => rw [Substitution.apply_app] at h; cases h
  | map es frame =>
      rw [Substitution.apply_map] at h
      unfold reframe at h
      split at h
      · cases h
      · split at h <;> cases h
  | lookup m k => rw [Substitution.apply_lookup] at h; cases h

end Term

/-- An acyclic substitution without frames gives its keys the values they are bound to. -/
lemma Substitution.Acyclic.apply_var {σ : Substitution} (h : σ.Acyclic) {b : Var × Term}
    (hb : b ∈ σ.toList) (hf : b.2.Frameless) : σ.apply (.var b.1) = σ.apply b.2 := by
  rw [Substitution.apply_var, Substitution.mem_toList_iff.mp hb, Option.getD_some,
    Term.apply_eq_self hf.canonical (h b hb)]

end SolvedForm

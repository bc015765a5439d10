import SolvedForm.Proofs.Equation
import SolvedForm.Proofs.Constraint.Expansion
import SolvedForm.Proofs.Term.Frames

/-!
Variables as subterms, apart from frames.

A frame that is bound to something other than a variable or a map stays in place, so a bound variable
may go on occurring as a frame. As a subterm it does not survive its substitution.

* `Term.Nodes`: all variables that are subterms of a term satisfy a condition.
* `Term.Nodes.apply`, `Term.Nodes.evaluate`, `Term.Nodes.replace`, `Term.Nodes.rename`: how the
  condition passes along the ways of rewriting.
* `Expansion.nodes_ofTerm`: the expansion of a term brings in no other subterms than reading does.
* `Substitution.Untangled`: no key is a subterm of a value.
-/

namespace SolvedForm

variable {p q : Var → Prop}

/-- All variables that are subterms of the term satisfy a condition; of frames nothing is asked. -/
inductive Term.Nodes (p : Var → Prop) : Term → Prop where
  | var {x : Var} : p x → Nodes p (.var x)
  | bool (b : Bool) : Nodes p (.bool b)
  | int (i : Int64) : Nodes p (.int i)
  | app (f : Symbol) {args : List Term} : (∀ t ∈ args, Nodes p t) → Nodes p (.app f args)
  | map {es : List Entry} (frame : Option Var) : (∀ e ∈ es, Nodes p e.1) →
      (∀ e ∈ es, Nodes p e.2) → Nodes p (.map es frame)
  | lookup {m k : Term} : Nodes p m → Nodes p k → Nodes p (.lookup m k)

namespace Term.Nodes

variable {x : Var} {t : Term} {es : List Entry} {frame : Option Var}

/-! ### Immediate subterms -/

@[simp] lemma var_iff : (Term.var x).Nodes p ↔ p x :=
  ⟨fun h => by cases h; assumption, .var⟩

lemma app_iff {f : Symbol} {args : List Term} : (Term.app f args).Nodes p ↔ ∀ t ∈ args, t.Nodes p :=
  ⟨fun h => by cases h; assumption, .app f⟩

lemma lookup_iff {m k : Term} : (Term.lookup m k).Nodes p ↔ m.Nodes p ∧ k.Nodes p :=
  ⟨fun h => by cases h; exact ⟨‹_›, ‹_›⟩, fun h => .lookup h.1 h.2⟩

lemma entries (h : (Term.map es frame).Nodes p) : ∀ e ∈ es, e.1.Nodes p ∧ e.2.Nodes p := by
  cases h with
  | map _ hk hv => exact fun e he => ⟨hk e he, hv e he⟩

lemma ofEntries (frame : Option Var) (h : ∀ e ∈ es, e.1.Nodes p ∧ e.2.Nodes p) :
    (ofEntries es frame).Nodes p :=
  .map frame (fun e he => (h e (mem_ofEntries_iff.mp he)).1)
    fun e he => (h e (mem_ofEntries_iff.mp he)).2

/-- A map whose frame has been given a value has the subterms of its entries, and those of the map
that the value may be. -/
lemma reframe {image : Var → Term} (h : ∀ e ∈ es, e.1.Nodes p ∧ e.2.Nodes p)
    (himage : ∀ x rest y, frame = some x → image x = .map rest y → (image x).Nodes p) :
    (reframe es frame image).Nodes p := by
  unfold Term.reframe
  split
  · exact ofEntries none h
  · next x =>
      split
      · exact ofEntries _ h
      · next rest y hmap =>
          have hrest := (hmap ▸ himage x rest y rfl hmap).entries
          exact ofEntries y fun e he => (List.mem_append.mp he).elim (h e) (hrest e)
      · exact ofEntries _ h

lemma mono (h : t.Nodes p) (hpq : ∀ x, p x → q x) : t.Nodes q := by
  induction h with
  | var hx => exact .var (hpq _ hx)
  | bool b => exact .bool b
  | int i => exact .int i
  | app f _ ih => exact .app f ih
  | map frame _ _ ihk ihv => exact .map frame ihk ihv
  | lookup _ _ ihm ihk => exact .lookup ihm ihk

lemma and (hp : t.Nodes p) (hq : t.Nodes q) : t.Nodes fun x => p x ∧ q x := by
  induction hp with
  | var hx => exact .var ⟨hx, var_iff.mp hq⟩
  | bool b => exact .bool b
  | int i => exact .int i
  | app f _ ih => exact .app f fun t ht => ih t ht (app_iff.mp hq t ht)
  | map frame _ _ ihk ihv =>
      exact .map frame (fun e he => ihk e he (hq.entries e he).1)
        fun e he => ihv e he (hq.entries e he).2
  | lookup _ _ ihm ihk => exact .lookup (ihm (lookup_iff.mp hq).1) (ihk (lookup_iff.mp hq).2)

/-- A condition on all variables of a term is one on those that are subterms. -/
lemma of_vars (h : ∀ x ∈ t.vars, p x) : t.Nodes p := by
  induction t using Term.ind with
  | var x => exact .var (h x (by simp))
  | bool b => exact .bool b
  | int i => exact .int i
  | app f args ih => exact .app f fun t ht => ih t ht fun x hx => h x (mem_vars_app.mpr ⟨t, ht, hx⟩)
  | map es frame ih =>
      exact .map frame
        (fun e he => (ih e he).1 fun x hx => h x (mem_vars_map.mpr (.inl ⟨e, he, .inl hx⟩)))
        fun e he => (ih e he).2 fun x hx => h x (mem_vars_map.mpr (.inl ⟨e, he, .inr hx⟩))
  | lookup m k ihm ihk =>
      exact .lookup (ihm fun x hx => h x (mem_vars_lookup.mpr (.inl hx)))
        (ihk fun x hx => h x (mem_vars_lookup.mpr (.inr hx)))

/-! ### Ways of rewriting -/

/-- Of a term under a substitution, the unbound variables and the values count. -/
lemma apply {σ : Substitution} (hσ : ∀ b ∈ σ.toList, b.2.Nodes p)
    (ht : t.Nodes fun x => x ∉ σ.keys → p x) : (σ.apply t).Nodes p := by
  have value : ∀ {x u}, σ.find? x = some u → u.Nodes p := fun hu =>
    hσ _ (Substitution.mem_toList_iff.mpr hu)
  induction ht with
  | @var x hx =>
      rw [Substitution.apply_var]
      cases hu : σ.find? x with
      | none => exact .var (hx (Substitution.find?_eq_none_iff.mp hu))
      | some u => exact value hu
  | bool b => exact .bool b
  | int i => exact .int i
  | app f _ ih =>
      rw [Substitution.apply_app]
      exact .app f (List.forall_mem_map.mpr ih)
  | map frame _ _ ihk ihv =>
      rw [Substitution.apply_map]
      refine reframe (List.forall_mem_map.mpr fun e he => ⟨ihk e he, ihv e he⟩)
        fun x rest y _ hmap => ?_
      -- an unbound frame keeps its place
      rw [Substitution.apply_var] at hmap ⊢
      cases hu : σ.find? x with
      | none => simp [hu] at hmap
      | some u => exact value hu
  | lookup _ _ ihm ihk => exact .lookup ihm ihk

/-- Evaluation brings in no variable as a subterm. -/
lemma evaluate (ht : t.Nodes p) : t.evaluate.Nodes p := by
  have root : ∀ {s : Term}, s.Nodes p → (s.reduceRoot.getD s).Nodes p := by
    intro s hs
    cases h : s.reduceRoot with
    | none => exact hs
    | some u =>
        exact reduceRoot_closed .bool .int (fun h => app_iff.mp h) (fun h e he => (h.entries e he).2)
          (fun h => (lookup_iff.mp h).1) hs h
  induction ht with
  | var hx => exact .var hx
  | bool b => exact .bool b
  | int i => exact .int i
  | app f _ ih =>
      rw [evaluate_app]
      exact root (.app f (List.forall_mem_map.mpr ih))
  | map frame _ _ ihk ihv =>
      rw [evaluate_map]
      exact ofEntries frame (List.forall_mem_map.mpr fun e he => ⟨ihk e he, ihv e he⟩)
  | lookup _ _ ihm ihk => exact root (.lookup ihm ihk)

/-- Replacement brings in the subterms of the replacements only. -/
lemma replace {table : Table} (htable : ∀ r ∈ table, r.2.Nodes p) (ht : t.Nodes p) :
    (t.replace table).Nodes p := by
  have listed : ∀ {u v : Term}, table.find? u = some v → v.Nodes p := by
    intro u v h
    obtain ⟨r, hr, rfl⟩ := mem_of_table_find? h
    exact htable r hr
  -- a term is replaced as a whole, or looked up again when its parts have been replaced
  have step : ∀ {u v : Term}, v.Nodes p →
      ((table.find? u).getD ((table.find? v).getD v)).Nodes p := by
    intro u v hv
    cases hu : table.find? u with
    | some w => exact listed hu
    | none =>
        cases hv' : table.find? v with
        | some w => exact listed hv'
        | none => exact hv
  unfold Term.replace
  induction ht with
  | var hx => exact step (.var hx)
  | bool b => exact step (.bool b)
  | int i => exact step (.int i)
  | app f _ ih =>
      rw [rewrite, rewriteArgs_eq_map]
      exact step (.app f (List.forall_mem_map.mpr ih))
  | map frame _ _ ihk ihv =>
      rw [rewrite, rewriteEntries_eq_map]
      refine step (reframe (List.forall_mem_map.mpr fun e he => ⟨ihk e he, ihv e he⟩) ?_)
      intro x rest y _ hmap
      cases hx : table.find? (.var x) with
      | none => simp [hx] at hmap
      | some u => exact listed hx
  | lookup _ _ ihm ihk =>
      rw [rewrite]
      exact step (.lookup ihm ihk)

lemma rename {ρ : Var → Var} (ht : t.Nodes fun x => p (ρ x)) : (t.rename ρ).Nodes p := by
  induction ht with
  | var hx => exact .var hx
  | bool b => exact .bool b
  | int i => exact .int i
  | app f _ ih =>
      rw [rename_app]
      exact .app f (List.forall_mem_map.mpr ih)
  | map frame _ _ ihk ihv =>
      simp only [Term.rename, rewrite, rewriteEntries_eq_map, Option.getD_none, id]
      exact reframe (List.forall_mem_map.mpr fun e he => ⟨ihk e he, ihv e he⟩) (by simp)
  | lookup _ _ ihm ihk => exact .lookup ihm ihk

end Term.Nodes

/-! ### Expansion -/

namespace Expansion

variable {narrowing : Bool} {read : Term → Term} {t : Term}

lemma nodes_ofLookup {m k : Term} {r : Expansion} (hm : m.Nodes p)
    (h : ofLookup narrowing m k = some r) : r.term.Nodes p := by
  unfold ofLookup at h
  split at h
  · split at h
    · next v hv =>
        obtain ⟨e, he, rfl⟩ := Term.mem_of_valueAt hv
        cases h
        exact (hm.entries e he).2
    · split at h
      · cases h
      · split at h
        · next e heq =>
            cases h
            exact (hm.entries e (List.mem_filter.mp (heq ▸ List.mem_singleton_self e)).1).2
        · cases h
  · cases h

/-- The expansion of a term has no other subterms than the reading of terms gives. -/
theorem nodes_ofTerm (hread : ∀ t : Term, t.Nodes p → (read t).Nodes p) (ht : t.Nodes p) :
    (ofTerm read narrowing t).term.Nodes p := by
  induction ht with
  | var hx => exact .var hx
  | bool b => exact .bool b
  | int i => exact .int i
  | @app f args _ ih =>
      have hargs : ∀ a ∈ (ofArgs read narrowing args).1, a.Nodes p := by
        clear * - ih
        induction args with
        | nil => simp [ofArgs]
        | cons a args iha =>
            rw [List.forall_mem_cons] at ih
            exact List.forall_mem_cons.mpr ⟨ih.1, iha ih.2⟩
      exact .app f hargs
  | @map es frame _ _ ihk ihv =>
      have hentries : ∀ e ∈ (ofEntries read narrowing es).1, e.1.Nodes p ∧ e.2.Nodes p := by
        clear * - ihk ihv
        induction es with
        | nil => simp [ofEntries]
        | cons e es ihe =>
            rw [List.forall_mem_cons] at ihk ihv
            exact List.forall_mem_cons.mpr ⟨⟨ihk.1, ihv.1⟩, ihe ihk.2 ihv.2⟩
      exact .ofEntries frame hentries
  | @lookup m k _ _ ihm ihk =>
      rw [ofTerm]
      split
      · next r hr => exact (nodes_ofLookup (hread _ ihm) hr : r.term.Nodes p)
      · exact .lookup ihm ihk

end Expansion

/-! ### Substitutions -/

namespace Substitution

variable {σ : Substitution} {key : Var → Prop}

/-- No key is a subterm of a value. As the frame of a map inside a value a key may remain. -/
def Untangled (σ : Substitution) : Prop := ∀ b ∈ σ.toList, b.2.Nodes (· ∉ σ.keys)

/-- All keys belong to a class of variables of which no subterm of a value is. -/
def Apart (key : Var → Prop) (σ : Substitution) : Prop :=
  ∀ b ∈ σ.toList, key b.1 ∧ b.2.Nodes fun x => ¬ key x

lemma Apart.untangled (h : σ.Apart key) : σ.Untangled := by
  intro b hb
  refine (h b hb).2.mono fun x hx hk => ?_
  obtain ⟨u, hu⟩ := mem_keys_iff.mp hk
  exact hx (h (x, u) (mem_toList_iff.mpr hu)).1

lemma Untangled.apart (h : σ.Untangled) : σ.Apart (· ∈ σ.keys) :=
  fun b hb => ⟨mem_keys_of_mem hb, h b hb⟩

lemma untangled_empty : empty.Untangled := by simp [Untangled]

end Substitution

/-- Instances under a substitution have the unbound variables of the term and the subterms of the
values. -/
lemma Term.Nodes.instantiate {T : Theory}
    (hT : ∀ {q : Var → Prop} {t : Term}, t.Nodes q → (T.evaluate t).Nodes q) {σ : Substitution}
    {t : Term} (hσ : ∀ b ∈ σ.toList, b.2.Nodes p) (ht : t.Nodes fun x => x ∉ σ.keys → p x) :
    (T.instantiate σ t).Nodes p := by
  unfold Theory.instantiate
  split
  · exact hT (ht.apply hσ)
  · next h =>
      have huntouched : t.Nodes (· ∉ σ.keys) :=
        .of_vars (Substitution.touches_eq_false_iff.mp (Bool.not_eq_true _ ▸ h))
      exact (ht.and huntouched).mono fun x hx => hx.1 hx.2

end SolvedForm

import SolvedForm.Proofs.Term.Frames

/-!
Terms over a class of variables.

* `Term.Ranges`: all variables of a term, frames included, belong to a class.
* `Term.Ranges.evaluate`, `Term.Ranges.apply`: what evaluation and substitution make of such terms is
  over the class again, whatever maps and frames they have.
* `Term.CanonicalOver`: such terms whose maps are in order.
-/

namespace SolvedForm

/-- All variables of the term belong to a class. -/
def Term.Ranges (p : Var → Prop) (t : Term) : Prop := ∀ x ∈ t.vars, p x

namespace Term.Ranges

variable {p q : Var → Prop} {f : Symbol} {args : List Term} {es : List Entry} {x : Var}
  {frame : Option Var} {t m k : Term}

@[simp] lemma var_iff : (Term.var x).Ranges p ↔ p x := by simp [Ranges]

lemma app_iff : (Term.app f args).Ranges p ↔ ∀ t ∈ args, t.Ranges p := by
  simp only [Ranges, mem_vars_app]
  constructor
  · exact fun h t ht x hx => h x ⟨t, ht, hx⟩
  · rintro h x ⟨t, ht, hx⟩
    exact h t ht x hx

lemma map_iff : (Term.map es frame).Ranges p ↔
    (∀ e ∈ es, e.1.Ranges p ∧ e.2.Ranges p) ∧ ∀ x, frame = some x → p x := by
  simp only [Ranges, mem_vars_map]
  constructor
  · exact fun h => ⟨fun e he => ⟨fun x hx => h x (.inl ⟨e, he, .inl hx⟩),
      fun x hx => h x (.inl ⟨e, he, .inr hx⟩)⟩, fun x hx => h x (.inr hx)⟩
  · rintro ⟨hes, hframe⟩ x (⟨e, he, hx | hx⟩ | hx)
    · exact (hes e he).1 x hx
    · exact (hes e he).2 x hx
    · exact hframe x hx

lemma lookup_iff : (Term.lookup m k).Ranges p ↔ m.Ranges p ∧ k.Ranges p := by
  simp only [Ranges, mem_vars_lookup, or_imp, forall_and]

lemma ofEntries (hes : ∀ e ∈ es, e.1.Ranges p ∧ e.2.Ranges p) (hframe : ∀ x, frame = some x → p x) :
    (ofEntries es frame).Ranges p :=
  map_iff.mpr ⟨fun e he => hes e (mem_ofEntries_iff.mp he), hframe⟩

lemma mono (h : t.Ranges p) (hpq : ∀ x, p x → q x) : t.Ranges q := fun x hx => hpq x (h x hx)

lemma evaluate (h : t.Ranges p) : t.evaluate.Ranges p := fun x hx => h x (mem_vars_evaluate hx)

/-- A frame is replaced by its value or stays. -/
lemma reframe {image : Var → Term} (hes : ∀ e ∈ es, e.1.Ranges p ∧ e.2.Ranges p)
    (hframe : ∀ x, frame = some x → p x ∧ (image x).Ranges p) :
    (reframe es frame image).Ranges p := by
  intro x hx
  rcases mem_vars_reframe hx with ⟨e, he, hx | hx⟩ | ⟨y, hy, hx | ⟨rfl, -⟩⟩
  · exact (hes e he).1 x hx
  · exact (hes e he).2 x hx
  · exact (hframe y hy).2 x hx
  · exact (hframe x hy).1

/-- Instances have the variables of the term and of the values. -/
lemma apply {σ : Substitution} (hσ : ∀ b ∈ σ.toList, b.2.Ranges p) (h : t.Ranges p) :
    (σ.apply t).Ranges p := by
  have of_var : ∀ {x}, p x → (σ.apply (.var x)).Ranges p := by
    intro x hx
    rw [Substitution.apply_var]
    cases hu : σ.find? x with
    | none => exact var_iff.mpr hx
    | some u => exact hσ (x, u) (Substitution.mem_toList_iff.mpr hu)
  induction t using Term.ind with
  | var x => exact of_var (var_iff.mp h)
  | bool | int => exact h
  | app f args ih =>
      rw [Substitution.apply_app]
      exact app_iff.mpr (List.forall_mem_map.mpr fun a ha => ih a ha (app_iff.mp h a ha))
  | map es frame ih =>
      obtain ⟨hes, hframe⟩ := map_iff.mp h
      rw [Substitution.apply_map]
      exact reframe (List.forall_mem_map.mpr fun e he =>
        ⟨(ih e he).1 (hes e he).1, (ih e he).2 (hes e he).2⟩) fun x hx =>
          ⟨hframe x hx, of_var (hframe x hx)⟩
  | lookup m k ihm ihk =>
      rw [Substitution.apply_lookup]
      exact lookup_iff.mpr ⟨ihm (lookup_iff.mp h).1, ihk (lookup_iff.mp h).2⟩

end Term.Ranges

/-- The maps of the term are in order, and all its variables, frames included, belong to a class. -/
structure Term.CanonicalOver (p : Var → Prop) (t : Term) : Prop where
  canonical : t.Canonical
  ranges : t.Ranges p

lemma Term.Over.canonicalOver {p : Var → Prop} {t : Term} (h : t.Over p) : t.CanonicalOver p :=
  ⟨h.frameless.canonical, h.vars⟩

namespace Term.CanonicalOver

variable {p : Var → Prop} {f : Symbol} {args : List Term} {es : List Entry} {y : Option Var}
  {t m k : Term}

lemma app_iff : (Term.app f args).CanonicalOver p ↔ ∀ t ∈ args, t.CanonicalOver p := by
  constructor
  · rintro ⟨hc, hp⟩ t ht
    cases hc with
    | app _ hargs => exact ⟨hargs t ht, Ranges.app_iff.mp hp t ht⟩
  · exact fun h => ⟨.app f fun t ht => (h t ht).canonical,
      Ranges.app_iff.mpr fun t ht => (h t ht).ranges⟩

lemma lookup_iff : (Term.lookup m k).CanonicalOver p ↔ m.CanonicalOver p ∧ k.CanonicalOver p := by
  constructor
  · rintro ⟨hc, hp⟩
    cases hc with
    | lookup hm hk => exact ⟨⟨hm, (Ranges.lookup_iff.mp hp).1⟩, hk, (Ranges.lookup_iff.mp hp).2⟩
  · exact fun ⟨hm, hk⟩ => ⟨.lookup hm.canonical hk.canonical,
      Ranges.lookup_iff.mpr ⟨hm.ranges, hk.ranges⟩⟩

lemma entries (h : (Term.map es y).CanonicalOver p) :
    ∀ e ∈ es, e.1.CanonicalOver p ∧ e.2.CanonicalOver p := by
  intro e he
  obtain ⟨hk, hv⟩ := (Ranges.map_iff.mp h.ranges).1 e he
  cases h.canonical with
  | map _ _ hks hvs => exact ⟨⟨hks e he, hk⟩, hvs e he, hv⟩

lemma increasing (h : (Term.map es y).CanonicalOver p) :
    Sorted.Increasing compareEntry es := by
  cases h.canonical with
  | map _ hes _ _ => exact hes

lemma frame {x : Var} (h : (Term.map es (some x)).CanonicalOver p) : p x :=
  (Ranges.map_iff.mp h.ranges).2 x rfl

end Term.CanonicalOver

end SolvedForm

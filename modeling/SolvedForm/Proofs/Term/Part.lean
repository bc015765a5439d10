import Mathlib.Tactic.Common
import SolvedForm.Term.Shape

/-!
The parts of a term.

* `Term.Part`: a term occurs in another one, as a subterm at any depth.
* `Term.Part.trans`: parts of parts are parts.
* `Term.Part.closed`: what passes to the immediate parts of a term passes to all of them.
* `Term.Part.of_innermostConditional`: an innermost conditional is a part.
-/

namespace SolvedForm.Term

/-- The term `s` is a subterm of another one, at any depth; a frame is not a subterm. -/
inductive Part (s : Term) : Term → Prop where
  | refl : Part s s
  | arg {f : Symbol} {args : List Term} {t : Term} : t ∈ args → Part s t → Part s (.app f args)
  | key {es : List Entry} {frame : Option Var} {e : Entry} : e ∈ es → Part s e.1 →
      Part s (.map es frame)
  | value {es : List Entry} {frame : Option Var} {e : Entry} : e ∈ es → Part s e.2 →
      Part s (.map es frame)
  | table {m k : Term} : Part s m → Part s (.lookup m k)
  | index {m k : Term} : Part s k → Part s (.lookup m k)

lemma Part.trans {r s t : Term} (hr : Part r s) (hs : Part s t) : Part r t := by
  induction hs with
  | refl => exact hr
  | arg ht _ ih => exact .arg ht ih
  | key he _ ih => exact .key he ih
  | value he _ ih => exact .value he ih
  | table _ ih => exact .table ih
  | index _ ih => exact .index ih

/-- What passes to the immediate parts of a term passes to all of its parts. -/
lemma Part.closed {P : Term → Prop} {s t : Term}
    (app : ∀ {f : Symbol} {args : List Term}, P (.app f args) → ∀ a ∈ args, P a)
    (map : ∀ {es : List Entry} {frame : Option Var}, P (.map es frame) → ∀ e ∈ es, P e.1 ∧ P e.2)
    (lookup : ∀ {m k : Term}, P (.lookup m k) → P m ∧ P k) (ht : P t) (h : Part s t) : P s := by
  induction h with
  | refl => exact ht
  | arg ha _ ih => exact ih (app ht _ ha)
  | key he _ ih => exact ih (map ht _ he).1
  | value he _ ih => exact ih (map ht _ he).2
  | table _ ih => exact ih (lookup ht).1
  | index _ ih => exact ih (lookup ht).2

/-! ### Conditionals -/

lemma exists_of_innermostConditionalArgs {args : List Term} {u : Term}
    (h : innermostConditionalArgs args = some u) :
    ∃ a ∈ args, a.innermostConditional = some u := by
  induction args with
  | nil => cases h
  | cons a args ih =>
      rw [innermostConditionalArgs, Option.or_eq_some_iff] at h
      rcases h with h | ⟨-, h⟩
      · exact ⟨a, List.mem_cons_self, h⟩
      · obtain ⟨b, hb, h⟩ := ih h
        exact ⟨b, List.mem_cons_of_mem a hb, h⟩

lemma exists_of_innermostConditionalEntries {es : List Entry} {u : Term}
    (h : innermostConditionalEntries es = some u) :
    ∃ e ∈ es, e.1.innermostConditional = some u ∨ e.2.innermostConditional = some u := by
  induction es with
  | nil => cases h
  | cons e es ih =>
      rw [innermostConditionalEntries, Option.or_eq_some_iff, Option.or_eq_some_iff] at h
      rcases h with h | ⟨-, h | ⟨-, h⟩⟩
      · exact ⟨e, List.mem_cons_self, .inl h⟩
      · exact ⟨e, List.mem_cons_self, .inr h⟩
      · obtain ⟨f, hf, h⟩ := ih h
        exact ⟨f, List.mem_cons_of_mem e hf, h⟩

/-- An innermost conditional that is found in a term is a part of it. -/
lemma Part.of_innermostConditional {t u : Term} (h : t.innermostConditional = some u) :
    Part u t := by
  induction t using Term.ind with
  | var | bool | int => cases h
  | app f args ih =>
      rw [innermostConditional, Option.or_eq_some_iff] at h
      rcases h with h | ⟨-, h⟩
      · obtain ⟨a, ha, h⟩ := exists_of_innermostConditionalArgs h
        exact .arg ha (ih a ha h)
      · split at h
        · cases h
          exact .refl
        · cases h
  | map es frame ih =>
      obtain ⟨e, he, h | h⟩ := exists_of_innermostConditionalEntries h
      · exact .key he ((ih e he).1 h)
      · exact .value he ((ih e he).2 h)
  | lookup m k ihm ihk =>
      rw [innermostConditional, Option.or_eq_some_iff] at h
      exact h.elim (fun h => .table (ihm h)) fun h => .index (ihk h.2)

/-- The condition of a conditional is a part of it. -/
lemma Part.of_asConditional {u : Term} {p : Term × Term × Term} (h : u.asConditional = some p) :
    Part p.1 u := by
  unfold asConditional at h
  split at h
  · split at h
    · cases h
      exact .arg List.mem_cons_self .refl
    · cases h
  · cases h

end SolvedForm.Term

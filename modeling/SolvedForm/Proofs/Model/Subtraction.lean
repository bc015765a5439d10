import SolvedForm.Constraint.Implication
import SolvedForm.Proofs.Constraint.Expansion
import SolvedForm.Proofs.Model.Solutions

/-!
What is left to show of a constraint when another one is known.

* `Vocabulary.WellSorted.replace`: replacements along a table of equivalent terms lead to an
  equivalent term.
* `Constraint.equivalent_of_mem_facts`: what a constraint knows of single terms are equivalences in
  the models of the constraint.
* `Constraint.satAll_difference`, `Constraint.satAll_replaced`: what the difference of two constraints
  demands, and replacements that keep the solutions.
* `Constraint.subtract_settled`, `Constraint.pending_of_subtract`, `Constraint.sat_subtract`: what is
  left of a constraint is false or in normal form, has the disjunctions of the constraint, and has its
  solutions among those of the known constraint.
* `Constraint.satisfies_subtract_iff`: the same of models.
-/

namespace SolvedForm

open Term

variable {V : Vocabulary} {K : ∀ {α : Type}, Model α → Prop} {t u : Term}

/-! ### Replacement -/

/-- Replacements by equivalent terms lead to an equivalent term. -/
lemma Vocabulary.WellSorted.replace {table : Table}
    (htable : ∀ t u, (t, u) ∈ table → V.Equivalent K t u) (ht : V.WellSorted t) :
    V.Equivalent K t (t.replace table) := by
  have hfind : ∀ t u, table.find? t = some u → V.Equivalent K t u := by
    intro t u h
    obtain ⟨before, after, heq, -⟩ := List.lookup_eq_some_iff.mp h
    exact htable t u (by simp [heq])
  refine ht.rewrite (fun t u _ h => hfind t u h) fun t ht => ?_
  cases h : table.find? t with
  | none => exact .refl ht
  | some u => exact hfind t u h

namespace Constraint

variable {T : Theory} {F : Fragment T} {a b c d r : Constraint} {es : List Equation} {β : Type}
  {M : Meaning F β}

/-! ### What a constraint lists -/

/-- The bindings and equations of a constraint. -/
def listed (c : Constraint) : List Equation := c.bindingEquations ++ c.equations.toList

/-- What the constraint lists belongs to the fragment, and so do the alternatives of its
disjunctions. -/
structure Lists (F : Fragment T) (c : Constraint) : Prop where
  listed : ∀ e ∈ c.listed, F.MemEq e
  pending : ∀ D ∈ c.pending, ∀ b ∈ D, b.Within F

lemma Over.listed (hc : c.Over F) : ∀ e ∈ c.listed, F.MemEq e := fun e he =>
  (List.mem_append.mp he).elim (hc.bindingEquations e) (hc.equations e)

lemma Within.lists (hc : c.Within F) : c.Lists F := ⟨hc.over.listed, hc.pending⟩

lemma sat_iff_listed : M.Sat c ↔ ∀ e ∈ c.listed, M.Holds e := by
  rw [listed, List.forall_mem_append, bindingEquations, List.forall_mem_map]
  exact Iff.rfl

/-! ### Facts -/

/-- What a constraint knows of single terms are equations that it lists, read from one side to the
other. -/
lemma mem_facts (h : (t, u) ∈ c.facts) : ⟨t, u⟩ ∈ c.listed ∨ ⟨u, t⟩ ∈ c.listed := by
  rcases List.mem_append.mp h with h | h
  · obtain ⟨b, hb, heq⟩ := List.mem_map.mp h
    cases heq
    exact .inl (List.mem_append_left _ (List.mem_map_of_mem hb))
  · obtain ⟨e, he, ⟨heq, -⟩ | ⟨heq, -⟩⟩ := mem_groundFacts h <;> cases heq
    · exact .inl (List.mem_append_right _ he)
    · exact .inr (List.mem_append_right _ he)

/-- What a constraint knows of single terms are equivalences in its models, when the sides of what
it lists are of one sort. -/
lemma equivalent_of_mem_facts (hc : ∀ e ∈ c.listed, (Fragment.wellSorted V).MemEq e)
    (hsort : ∀ e ∈ c.listed, e.left.sort = e.right.sort) (h : (t, u) ∈ c.facts) :
    V.Equivalent (fun M => M.Satisfies c) t u := by
  have holds : ∀ {α : Type} {M : Model α}, M.Satisfies c → ∀ e ∈ c.listed,
      M.value e.left = M.value e.right := fun {α M} hM =>
    (sat_iff_listed (M := M.meaning V)).mp hM
  rcases mem_facts h with he | he
  · exact ⟨(hc _ he).2, (hsort _ he).symm, fun M hM => (holds hM _ he).symm⟩
  · exact ⟨(hc _ he).1, hsort _ he, fun M hM => holds hM _ he⟩

/-- In a normal form the sides of bindings and equations are of one sort. -/
lemma NormalForm.sort_eq (hn : c.NormalForm Subsorts.builtin.order)
    (hc : c.Within (.wellSorted V)) : ∀ e ∈ c.listed, e.left.sort = e.right.sort := by
  intro e he
  rcases List.mem_append.mp he with he | he
  · obtain ⟨b, hb, rfl⟩ := List.mem_map.mp he
    exact (hc.over.store b hb).2.2.symm
  · obtain ⟨hl, hr⟩ := hc.over.equations e he
    exact Subsorts.eq_of_compatible_builtin hl.sort_ne_top hr.sort_ne_top
      (Equation.truth_eq_unknown_iff.mp (hn.undecided e he)).2.1

/-! ### A constraint made anew -/

/-- What has been put into the empty constraint may be given disjunctions and is ready for
solving. -/
lemma ready_anew (hr : r.Within F) (hext : empty.Extends r)
    (hd : ∀ D ∈ d.pending, ∀ b ∈ D, b.Within F) :
    Ready F { r with pending := d.pending, normal := false } :=
  ⟨.intro ⟨hr.over.undecided, hr.over.consistent, hr.over.equations, hr.over.buffer,
    hr.over.store⟩ hd, hext.guarded, hext.store ▸ Substitution.acyclic_empty,
    fun h => absurd h Bool.false_ne_true⟩

lemma Ready.truthful (hc : c.Ready F) : M.Truthful c := fun h =>
  absurd (hc.within.over.undecided.symm.trans h) Bool.false_ne_true

/-! ### The difference -/

lemma difference_ready (hd : d.Lists F) : (c.difference T d).Ready F := by
  unfold difference
  refine ready_anew ?_ ((extends_insertAll _ _).trans (extends_foldl extends_insertEquation _ _))
    hd.pending
  refine (within_empty.insertAll fun e he => ?_).foldl_insertEquation fun e he => ?_
  · exact hd.listed e (List.mem_append_left _ (List.mem_of_mem_filter he))
  · exact hd.listed e (List.mem_append_right _ (List.mem_of_mem_filter he))

/-- The difference demands what the known constraint does not list itself. -/
lemma satAll_difference_iff (hd : d.Lists F) :
    M.SatAll (c.difference T d) ↔
      (∀ b ∈ d.store.toList, b ∉ c.store.toList → M.val (.var b.1) = M.val b.2) ∧
        ∀ e ∈ d.equations.toList, e ∉ c.equations.toList → M.Holds e := by
  have hbindings : ∀ e ∈ d.bindingEquations.filter (fun e =>
      !c.store.toList.any fun b => (⟨.var b.1, b.2⟩ : Equation) = e), F.MemEq e :=
    fun e he => hd.listed e (List.mem_append_left _ (List.mem_of_mem_filter he))
  have hundecided := ((within_empty (F := F)).insertAll hbindings).over.undecided
  have hempty : M.SatAll empty := ⟨⟨nofun, nofun⟩, nofun⟩
  have hlisted : ∀ b : Var × Term,
      (c.store.toList.any fun a => (⟨.var a.1, a.2⟩ : Equation) = ⟨.var b.1, b.2⟩) = false ↔
        b ∉ c.store.toList := fun b => by
    simp only [List.any_eq_false, decide_eq_true_eq, Equation.mk.injEq, Term.var.injEq, ← Prod.ext_iff]
    exact ⟨fun h hb => h b hb rfl, fun h a ha heq => h (heq ▸ ha)⟩
  change M.SatAll (List.foldl insertEquation _ _) ↔ _
  rw [Meaning.satAll_foldl hundecided, Meaning.satAll_insertAll rfl hbindings, and_iff_right hempty]
  simp only [List.mem_filter, Bool.not_eq_true', bindingEquations, List.mem_map]
  refine and_congr ⟨fun h b hb hbc => ?_, ?_⟩ ?_
  · exact h _ ⟨⟨b, hb, rfl⟩, (hlisted b).mpr hbc⟩
  · rintro h _ ⟨⟨b, hb, rfl⟩, hbc⟩
    exact h b hb ((hlisted b).mp hbc)
  · simp only [and_imp, ← Bool.not_eq_true, EquationSet.contains_iff]

/-- Where the known constraint is satisfied, the difference demands what the other constraint
demands. -/
lemma satAll_difference (hd : d.Lists F) (hc : M.Sat c) :
    M.SatAll (c.difference T d) ↔ M.Sat d := by
  rw [satAll_difference_iff hd]
  constructor
  · rintro ⟨hbindings, hequations⟩
    exact ⟨fun b hb => by_contra fun h => h (hbindings b hb fun hbc => h (hc.1 b hbc)),
      fun e he => by_contra fun h => h (hequations e he fun hec => h (hc.2 e hec))⟩
  · exact fun hs => ⟨fun b hb _ => hs.1 b hb, fun e he _ => hs.2 e he⟩

/-! ### Replacement in a constraint -/

/-- The constraint with subterms replaced along a table, put in anew. -/
def replaced (T : Theory) (table : Table) (c : Constraint) : Constraint :=
  { empty.insertAll T (c.listed.map (·.map (Term.replace table))) with
    pending := c.pending
    normal := false }

lemma replace_eq {table : Table} (hc : c.contradiction = none) :
    c.replace T table = (c.replaced T table).normalize T := by
  unfold replace
  rw [hc]
  rfl

/-- Replacements that keep the truth of every equation keep the solutions. -/
lemma satAll_replaced_iff {table : Table}
    (hmem : ∀ e ∈ c.listed.map (·.map (Term.replace table)), F.MemEq e)
    (hsame : ∀ e ∈ c.listed, M.Holds (e.map (Term.replace table)) ↔ M.Holds e) :
    M.SatAll (c.replaced T table) ↔ M.Sat c := by
  have hempty : M.SatAll empty := ⟨⟨nofun, nofun⟩, nofun⟩
  calc M.SatAll (c.replaced T table)
      ↔ M.SatAll empty ∧ ∀ e ∈ c.listed.map (·.map (Term.replace table)), M.Holds e :=
        Meaning.satAll_insertAll rfl hmem
    _ ↔ ∀ e ∈ c.listed, M.Holds e := by
        rw [List.forall_mem_map, forall₂_congr hsame, and_iff_right hempty]
    _ ↔ M.Sat c := sat_iff_listed.symm

/-- Replacements may lead to another fragment, if the disjunctions belong to it already. -/
lemma replaced_ready {G : Fragment T} {table : Table}
    (hmem : ∀ t, F.Mem t → G.Mem (t.replace table)) (hc : c.Lists F)
    (hpending : ∀ D ∈ c.pending, ∀ b ∈ D, b.Within G) : (c.replaced T table).Ready G :=
  ready_anew (within_empty.insertAll (List.forall_mem_map.mpr fun e he =>
    ⟨hmem _ (hc.listed e he).1, hmem _ (hc.listed e he).2⟩)) (extends_insertAll _ _) hpending

/-- Replacements that keep the values of terms keep the solutions. -/
lemma satAll_replaced {table : Table} (hmem : ∀ t, F.Mem t → F.Mem (t.replace table))
    (hval : ∀ t, F.Mem t → M.val (t.replace table) = M.val t) (hc : c.Lists F) :
    M.SatAll (c.replaced T table) ↔ M.Sat c := by
  refine satAll_replaced_iff (List.forall_mem_map.mpr fun e he =>
    ⟨hmem _ (hc.listed e he).1, hmem _ (hc.listed e he).2⟩) fun e he => ?_
  rw [Meaning.Holds, Equation.map_left, Equation.map_right, hval _ (hc.listed e he).1,
    hval _ (hc.listed e he).2, Meaning.Holds]

/-! ### Subtraction -/

/-- Subtraction ends with a false constraint, or it goes through all its stages. -/
lemma subtract_cases {fuel n m : Nat} (h : c.subtract T fuel d n = .ok (r, m)) :
    d.isFalse = true ∧ r = d ∨ d.isFalse = false ∧ ∃ a k,
      (c.difference T d).simplify T fuel false n = .ok (a, k) ∧
        (a.isFalse = true ∧ r = a ∨ a.isFalse = false ∧ ∃ b, a.replace T c.facts = .ok b ∧
          b.simplify T fuel false k = .ok (r, m)) := by
  unfold subtract at h
  split at h
  · next hd =>
      obtain ⟨rfl, -⟩ := Engine.pure_eq_ok.mp h
      exact .inl ⟨hd, rfl⟩
  · next hd =>
      obtain ⟨a, k, ha, h⟩ := Engine.bind_eq_ok.mp h
      refine .inr ⟨Bool.not_eq_true _ ▸ hd, a, k, ha, ?_⟩
      split at h
      · next hf =>
          obtain ⟨rfl, -⟩ := Engine.pure_eq_ok.mp h
          exact .inl ⟨hf, rfl⟩
      · next hf =>
          obtain ⟨b, hb, h⟩ := Engine.lift_bind_eq_ok.mp h
          exact .inr ⟨Bool.not_eq_true _ ▸ hf, b, hb, h⟩

lemma subtract_of_isFalse {fuel n m : Nat} (hd : d.isFalse = true)
    (h : c.subtract T fuel d n = .ok (r, m)) : r = d := by
  rcases subtract_cases h with ⟨-, rfl⟩ | ⟨hf, -⟩
  · rfl
  · exact absurd (hf.symm.trans hd) Bool.false_ne_true

lemma isFalse_of_subtract {fuel n m : Nat} (h : c.subtract T fuel d n = .ok (r, m))
    (hr : r.isFalse = false) : d.isFalse = false := by
  rcases subtract_cases h with ⟨-, rfl⟩ | ⟨hd, -⟩
  · exact hr
  · exact hd

section Stages

variable {fuel n m : Nat} (hmem : ∀ t, F.Mem t → F.Mem (t.replace c.facts)) (hd : d.Lists F)
  (hdf : d.isFalse = false) (h : c.subtract T fuel d n = .ok (r, m))
include hmem hd hdf h

/-- What is left is false or in normal form. -/
theorem subtract_settled : r.Settled F := by
  obtain ⟨a, k, ha, h⟩ := ((subtract_cases h).resolve_left (by simp [hdf])).2
  have hsettled := simplify_settled (.inr (difference_ready hd)) ha
  rcases h with ⟨-, rfl⟩ | ⟨haf, b, hb, h⟩
  · exact hsettled
  · have hw := hsettled.within haf
    rw [replace_eq hw.over.consistent] at hb
    exact simplify_settled (settled_of_normalize (.inr (replaced_ready hmem hw.lists hw.pending)) hb).sound
      h

omit hmem in
/-- Without disjunctions, what is left belongs to any fragment to which the replacements lead. -/
theorem subtract_settled_of_replace {G : Fragment T}
    (hG : ∀ t, F.Mem t → G.Mem (t.replace c.facts)) (hF : F.Decisive) (hp : d.pending = []) :
    r.Settled G := by
  obtain ⟨a, k, ha, h⟩ := ((subtract_cases h).resolve_left (by simp [hdf])).2
  have hready := difference_ready (c := c) hd
  have hsettled := simplify_settled (.inr hready) ha
  rcases h with ⟨haf, rfl⟩ | ⟨haf, b, hb, h⟩
  · exact .inl (hsettled.resolve_right fun hr => by simp [hr.1.over.undecided] at haf)
  · have hw := hsettled.within haf
    have hpa : a.pending = [] := (pending_of_simplifySince hF (.inr hready) ha haf).trans hp
    rw [replace_eq hw.over.consistent] at hb
    exact simplify_settled (settled_of_normalize
      (.inr (replaced_ready hG hw.lists (by simp [hpa]))) hb).sound h

/-- What is left, and not false, has the disjunctions of the other constraint. -/
theorem pending_of_subtract (hF : F.Decisive) (hr : r.isFalse = false) : r.pending = d.pending := by
  obtain ⟨a, k, ha, h⟩ := ((subtract_cases h).resolve_left (by simp [hdf])).2
  have hready := difference_ready (c := c) hd
  rcases h with ⟨hf, rfl⟩ | ⟨haf, b, hb, h⟩
  · exact absurd (hr.symm.trans hf) Bool.false_ne_true
  · have hw := (simplify_settled (.inr hready) ha).within haf
    have hsound : Sound F (a.replaced T c.facts) := .inr (replaced_ready hmem hw.lists hw.pending)
    rw [replace_eq hw.over.consistent] at hb
    have hrb := pending_of_simplifySince hF (settled_of_normalize hsound hb).sound h hr
    have hba := pending_of_normalize hsound hb (isFalse_of_simplify h hr)
    have had := pending_of_simplifySince hF (.inr hready) ha haf
    exact hrb.trans (hba.trans had)

/-- Under a meaning that satisfies the known constraint and does not see its replacements, what is
left demands what the other constraint demands. -/
theorem sat_subtract (hval : ∀ t, F.Mem t → M.val (t.replace c.facts) = M.val t) (hc : M.Sat c) :
    (M.Sat r ↔ M.Sat d) ∧ M.Truthful r := by
  obtain ⟨a, k, ha, h⟩ := ((subtract_cases h).resolve_left (by simp [hdf])).2
  have hready := difference_ready (c := c) hd
  obtain ⟨hsat, htrue⟩ := Meaning.sat_simplify (M := M) (.inr hready) hready.truthful ha
  have hsat : M.Sat a ↔ M.Sat d := hsat.trans (satAll_difference hd hc)
  rcases h with ⟨-, rfl⟩ | ⟨haf, b, hb, h⟩
  · exact ⟨hsat, htrue⟩
  · have hw := (simplify_settled (.inr hready) ha).within haf
    have hreplaced := replaced_ready hmem hw.lists hw.pending
    rw [replace_eq hw.over.consistent] at hb
    have hbs := settled_of_normalize (.inr hreplaced) hb
    obtain ⟨hbsat, hbtrue⟩ :=
      Meaning.sat_normalize (M := M) (.inr hreplaced) hreplaced.truthful hb
    obtain ⟨hrsat, hrtrue⟩ := Meaning.sat_simplify hbs.sound hbtrue h
    refine ⟨?_, hrtrue⟩
    calc M.Sat r ↔ M.SatAll b := hrsat
      _ ↔ M.Sat b := Meaning.satAll_iff_sat hbs hbtrue
      _ ↔ M.SatAll (a.replaced T c.facts) := hbsat
      _ ↔ M.Sat a := satAll_replaced hmem hval hw.lists
      _ ↔ M.Sat d := hsat

end Stages

/-! ### Models -/

section Models

variable {α : Type} {N : Model α} {fuel n m : Nat}
  (hc : ∀ e ∈ c.listed, (Fragment.wellSorted V).MemEq e)
include hc

/-- The sides of what a constraint lists are of one sort when it has a model. -/
lemma sort_eq_of_satisfies (hN : N.Satisfies c) : ∀ e ∈ c.listed, e.left.sort = e.right.sort := by
  intro e he
  have holds : N.value e.left = N.value e.right := (sat_iff_listed (M := N.meaning V)).mp hN e he
  exact ((hc e he).1.value_ofSort N).unique (holds ▸ (hc e he).2.value_ofSort N)

/-- A term with the facts of a constraint worked in is equivalent to it in the models of the
constraint. -/
lemma equivalent_replace_facts (hsort : ∀ e ∈ c.listed, e.left.sort = e.right.sort)
    (ht : V.WellSorted t) : V.Equivalent (fun M => M.Satisfies c) t (t.replace c.facts) :=
  Vocabulary.WellSorted.replace (fun _ _ => equivalent_of_mem_facts hc hsort) ht

/-- In a model of the known constraint, what is left demands what the other constraint demands, and
it is not known to be false unless the other constraint cannot hold. -/
theorem satisfies_subtract_iff (hd : d.Lists (.wellSorted V)) (hdf : d.isFalse = false)
    (h : c.subtract (.standard Subsorts.builtin.order) fuel d n = .ok (r, m))
    (hN : N.Satisfies c) :
    (N.Satisfies r ↔ N.Satisfies d) ∧ (r.isFalse = true → ¬ N.Satisfies r) := by
  have hfacts := fun t => equivalent_replace_facts (t := t) hc (sort_eq_of_satisfies hc hN)
  exact sat_subtract (M := N.meaning V) (fun t ht => (hfacts t ht).wellSorted) hd hdf h
    (fun t ht => (hfacts t ht).value N hN) hN

end Models

end Constraint

end SolvedForm

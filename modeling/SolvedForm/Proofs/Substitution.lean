import Mathlib.Data.List.Nodup
import SolvedForm.Proofs.Term.Subterms

/-!
Substitutions seen through the value of a variable.

* `Substitution.mem_toList_iff`, `Substitution.mem_keys_iff`, `Substitution.touches_iff`: the
  bindings, the keys and the terms that are touched, in terms of `find?`.
* `Substitution.Acyclic`, `Substitution.Separated`: no key occurs in any value.
* `Substitution.toList_ofList`: bindings for different variables are kept as they are listed.
* `Substitution.find?_comp`: the values under a composition.
-/

namespace SolvedForm.Substitution

variable {σ : Substitution} {x y : Var} {t u : Term}

/-! ### Bindings -/

lemma mem_keys_iff : x ∈ σ.keys ↔ ∃ t, σ.find? x = some t := by
  rw [← Option.ne_none_iff_exists', ne_eq, find?_eq_none_iff, not_not]

lemma contains_iff : σ.contains x = true ↔ x ∈ σ.keys := by
  simp [contains]

lemma contains_eq_false_iff : σ.contains x = false ↔ x ∉ σ.keys := by
  simp [contains]

lemma mem_toList_iff : (x, t) ∈ σ.toList ↔ σ.find? x = some t := by
  obtain ⟨bs, h⟩ := σ
  unfold find?
  induction bs with
  | nil => simp
  | cons b bs ih =>
      have h := h
      rw [List.map_cons, List.nodup_cons] at h
      rw [lookup_cons_ite, List.mem_cons]
      by_cases hx : x = b.1
      · subst hx
        have hb : (b.1, t) ∉ bs := fun hm => h.1 (List.mem_map.mpr ⟨_, hm, rfl⟩)
        simp [hb, Prod.ext_iff, eq_comm]
      · simp [hx, Prod.ext_iff, ih h.2]

lemma mem_keys_of_mem {b : Var × Term} (h : b ∈ σ.toList) : b.1 ∈ σ.keys :=
  List.mem_map_of_mem h

@[simp] lemma find?_empty : empty.find? x = none := rfl

@[simp] lemma keys_empty : empty.keys = [] := rfl

@[simp] lemma toList_empty : empty.toList = [] := rfl

lemma find?_single : (single x t).find? y = if y = x then some t else none := by
  simp [single, find?_insert]

@[simp] lemma toList_single : (single x t).toList = [(x, t)] := rfl

@[simp] lemma keys_single : (single x t).keys = [x] := rfl

lemma mem_keys_insert : y ∈ (σ.insert x t).keys ↔ y = x ∨ y ∈ σ.keys :=
  mem_keys_insertList

lemma mem_toList_insert {b : Var × Term} :
    b ∈ (σ.insert x t).toList ↔ b = (x, t) ∨ b.1 ≠ x ∧ b ∈ σ.toList := by
  obtain ⟨y, u⟩ := b
  rw [mem_toList_iff, find?_insert, mem_toList_iff]
  by_cases h : y = x <;> simp [h, @eq_comm _ t]

lemma mem_toList_erase {b : Var × Term} :
    b ∈ (σ.erase x).toList ↔ b.1 ≠ x ∧ b ∈ σ.toList := by
  obtain ⟨y, u⟩ := b
  rw [mem_toList_iff, find?_erase, mem_toList_iff]
  by_cases h : y = x <;> simp [h]

lemma touches_iff : σ.touches t = true ↔ ∃ x ∈ t.vars, x ∈ σ.keys := by
  simp [touches, Term.anyVar_eq_any, contains_iff]

lemma touches_eq_false_iff : σ.touches t = false ↔ ∀ x ∈ t.vars, x ∉ σ.keys := by
  rw [← Bool.not_eq_true, touches_iff]
  simp

/-! ### Lists of bindings for different variables -/

lemma toList_insert_of_not_mem (h : x ∉ σ.keys) : (σ.insert x t).toList = σ.toList ++ [(x, t)] := by
  have insertList_eq : ∀ bs : List (Var × Term), x ∉ bs.map (·.1) →
      insertList x t bs = bs ++ [(x, t)] := by
    intro bs hbs
    induction bs with
    | nil => rfl
    | cons b bs ih =>
        simp only [List.map_cons, List.mem_cons, not_or] at hbs
        rw [insertList, if_neg (Ne.symm hbs.1), ih hbs.2, List.cons_append]
  exact insertList_eq σ.toList h

lemma toList_ofList {bs : List (Var × Term)} (h : (bs.map (·.1)).Nodup) :
    (ofList bs).toList = bs := by
  have foldl_eq : ∀ (bs : List (Var × Term)) (σ : Substitution),
      ((σ.toList ++ bs).map (·.1)).Nodup →
      (bs.foldl (fun σ b => σ.insert b.1 b.2) σ).toList = σ.toList ++ bs := by
    intro bs
    induction bs with
    | nil => simp
    | cons b bs ih =>
        intro σ hσ
        have hb : b.1 ∉ σ.keys := by
          rw [List.map_append, List.map_cons, List.nodup_middle, List.nodup_cons] at hσ
          exact fun hm => hσ.1 (List.mem_append_left _ hm)
        have hi : (σ.insert b.1 b.2).toList = σ.toList ++ [b] := toList_insert_of_not_mem hb
        rw [List.foldl_cons, ih _ (by simpa [hi] using hσ), hi, List.append_assoc]
        rfl
  exact foldl_eq bs empty h

/-- The bindings stay in their order when their variables are renamed to different ones. -/
lemma toList_rename {ρ : Var → Var}
    (h : ∀ b ∈ σ.toList, ∀ b' ∈ σ.toList, ρ b.1 = ρ b'.1 → b.1 = b'.1) :
    (ofList (σ.toList.map fun b => (ρ b.1, b.2.rename ρ))).toList =
      σ.toList.map fun b => (ρ b.1, b.2.rename ρ) := by
  refine toList_ofList ?_
  have hkeys : (σ.toList.map fun b => (ρ b.1, b.2.rename ρ)).map (·.1) = σ.keys.map ρ := by
    simp [keys, Function.comp_def]
  rw [hkeys]
  refine List.Nodup.map_on (fun x hx y hy heq => ?_) σ.nodup
  obtain ⟨b, hb, rfl⟩ := List.mem_map.mp hx
  obtain ⟨b', hb', rfl⟩ := List.mem_map.mp hy
  exact h b hb b' hb' heq

/-- Only listed bindings are made. -/
lemma mem_of_mem_ofList {bs : List (Var × Term)} {b : Var × Term} (h : b ∈ (ofList bs).toList) :
    b ∈ bs := by
  have foldl_mem : ∀ (bs : List (Var × Term)) (σ : Substitution),
      b ∈ (bs.foldl (fun σ b => σ.insert b.1 b.2) σ).toList → b ∈ σ.toList ∨ b ∈ bs := by
    intro bs
    induction bs with
    | nil => exact fun _ => .inl
    | cons a bs ih =>
        intro σ hb
        rcases ih _ hb with hb | hb
        · exact (mem_toList_insert.mp hb).elim (fun h => .inr (h ▸ List.mem_cons_self))
            fun h => .inl h.2
        · exact .inr (List.mem_cons_of_mem a hb)
  exact (foldl_mem bs empty h).resolve_left (by simp)

lemma ext_toList {τ : Substitution} (h : σ.toList = τ.toList) : σ = τ := by
  cases σ
  cases τ
  simpa using h

@[simp] lemma equiv_self (σ : Substitution) : σ.equiv σ = true := by
  simp only [equiv, beq_self_eq_true, Bool.true_and, List.all_eq_true]
  exact fun b hb => decide_eq_true (mem_toList_iff.mp hb)

/-- Binding a bound variable again keeps its place. -/
lemma toList_insert_of_append {bs cs : List (Var × Term)} (h : σ.toList = bs ++ (x, u) :: cs) :
    (σ.insert x t).toList = bs ++ (x, t) :: cs := by
  have insertList_append : ∀ bs : List (Var × Term), x ∉ bs.map (·.1) →
      insertList x t (bs ++ (x, u) :: cs) = bs ++ (x, t) :: cs := by
    intro bs hbs
    induction bs with
    | nil => simp [insertList]
    | cons b bs ih =>
        simp only [List.map_cons, List.mem_cons, not_or] at hbs
        rw [List.cons_append, insertList, if_neg (Ne.symm hbs.1), ih hbs.2, List.cons_append]
  have hn := σ.nodup
  rw [h, List.map_append, List.map_cons, List.nodup_middle, List.nodup_cons] at hn
  change insertList x t σ.toList = _
  rw [h]
  exact insertList_append bs fun hm => hn.1 (List.mem_append_left _ hm)

lemma insert_eq_self (h : σ.find? x = some t) : σ.insert x t = σ := by
  obtain ⟨bs, cs, hs⟩ := List.append_of_mem (mem_toList_iff.mpr h)
  exact ext_toList (by rw [toList_insert_of_append hs, hs])

/-! ### Values changed -/

/-- The substitution with all values changed. -/
def mapValues (f : Term → Term) (σ : Substitution) : Substitution :=
  ⟨σ.toList.map fun b => (b.1, f b.2), by simpa [Function.comp_def] using σ.nodup⟩

@[simp] lemma toList_mapValues (f : Term → Term) (σ : Substitution) :
    (σ.mapValues f).toList = σ.toList.map fun b => (b.1, f b.2) := rfl

@[simp] lemma keys_mapValues (f : Term → Term) (σ : Substitution) :
    (σ.mapValues f).keys = σ.keys := by
  simp [keys, Function.comp_def]

/-! ### Composition -/

lemma toList_comp (σ τ : Substitution) : (σ.comp τ).toList =
    (τ.toList.map fun b => (b.1, σ.apply b.2)) ++ σ.toList.filter fun b => !τ.contains b.1 := by
  refine toList_ofList ?_
  rw [List.map_append, List.map_map, Function.comp_def, List.nodup_append]
  refine ⟨τ.nodup, σ.nodup.sublist (List.filter_sublist.map _), ?_⟩
  rintro x hx _ hkept rfl
  obtain ⟨b, hb, rfl⟩ := List.mem_map.mp hkept
  exact absurd (contains_iff.mpr hx) (by simpa using (List.mem_filter.mp hb).2)

/-- The composition gives a key of the inner substitution the instance of its value. -/
lemma find?_comp (σ τ : Substitution) (x : Var) :
    (σ.comp τ).find? x = ((τ.find? x).map σ.apply).or (σ.find? x) := by
  have mem_iff : ∀ t, (σ.comp τ).find? x = some t ↔
      (∃ u, τ.find? x = some u ∧ σ.apply u = t) ∨ τ.find? x = none ∧ σ.find? x = some t := by
    intro t
    rw [← mem_toList_iff, toList_comp, List.mem_append, List.mem_map, List.mem_filter, mem_toList_iff,
      find?_eq_none_iff, and_comm (a := x ∉ τ.keys)]
    refine or_congr ⟨?_, ?_⟩ (and_congr_right' (by simp [contains_eq_false_iff]))
    · rintro ⟨b, hb, heq⟩
      obtain ⟨rfl, rfl⟩ := Prod.mk.injEq .. ▸ heq
      exact ⟨b.2, mem_toList_iff.mp hb, rfl⟩
    · rintro ⟨u, hu, rfl⟩
      exact ⟨(x, u), mem_toList_iff.mpr hu, rfl⟩
  refine Option.ext fun t => ?_
  rw [mem_iff]
  cases τ.find? x <;> simp

lemma contains_comp (σ τ : Substitution) (x : Var) :
    (σ.comp τ).contains x = (τ.contains x || σ.contains x) := by
  rw [Bool.eq_iff_iff, Bool.or_eq_true, contains_iff, contains_iff, contains_iff]
  simp only [mem_keys_iff, find?_comp]
  cases τ.find? x <;> simp

lemma comp_empty (σ : Substitution) : σ.comp empty = σ := by
  refine ext_toList ?_
  rw [toList_comp, toList_empty, List.map_nil, List.nil_append]
  exact List.filter_eq_self.mpr fun _ _ => rfl

/-! ### Acyclic substitutions -/

/-- No key occurs in any value. -/
def Acyclic (σ : Substitution) : Prop := ∀ b ∈ σ.toList, ∀ x ∈ b.2.vars, x ∉ σ.keys

lemma acyclic_iff : σ.Acyclic ↔ σ.isCyclic = false := by
  simp [Acyclic, isCyclic, touches_eq_false_iff]

lemma Acyclic.not_mem_keys (h : σ.Acyclic) (ht : σ.find? x = some t) (hy : y ∈ t.vars) :
    y ∉ σ.keys :=
  h (x, t) (mem_toList_iff.mpr ht) y hy

lemma acyclic_empty : empty.Acyclic := by simp [Acyclic]

/-- All keys belong to a class of variables to which no variable of a value belongs. -/
def Separated (key : Var → Prop) (σ : Substitution) : Prop :=
  ∀ b ∈ σ.toList, key b.1 ∧ ∀ x ∈ b.2.vars, ¬ key x

lemma Separated.acyclic {key : Var → Prop} (h : σ.Separated key) : σ.Acyclic := by
  intro b hb x hx hk
  obtain ⟨u, hu⟩ := mem_keys_iff.mp hk
  exact (h b hb).2 x hx (h (x, u) (mem_toList_iff.mpr hu)).1

lemma Acyclic.separated (h : σ.Acyclic) : σ.Separated (· ∈ σ.keys) :=
  fun b hb => ⟨mem_keys_of_mem hb, h b hb⟩

lemma Separated.insert {key : Var → Prop} (h : σ.Separated key) (hx : key x)
    (ht : ∀ y ∈ t.vars, ¬ key y) : (σ.insert x t).Separated key := by
  intro b hb
  rcases mem_toList_insert.mp hb with rfl | ⟨-, hb⟩
  · exact ⟨hx, ht⟩
  · exact h b hb

end SolvedForm.Substitution

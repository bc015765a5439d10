import Mathlib.Data.List.Nodup
import Mathlib.Data.List.Perm.Subperm
import SolvedForm.Proofs.Solver.Rendering
import SolvedForm.Proofs.Solver.Values
import SolvedForm.Solver.Translation

/-!
The symbols that variables get.

* `Translating.freeSymbol_not_mem`: the symbol chosen for a new variable is not in use.
* `Translating.Declared`, `Translating.Declared.exists_symbol`: every variable is declared once,
  under a symbol of its own.
* `Translating.Declares`: a translation succeeds, keeps what is declared, declares certain variables
  and no others, and its result stands in a given relation to all that is declared then.
* `Translating.Declares.bind`, `Translating.Declares.mapM`: translations one after the other.
* `Translating.declares_symbolOf`: the translation of a variable.
-/

namespace SolvedForm.Translating

open Formula

variable {ds ds' : List Declaration} {d d' : Declaration} {name : String} {x : Var} {σ : ScriptSort}

/-! ### Candidates -/

/-- The name can stand between bars. -/
def IsPlain (name : String) : Prop := ∀ c ∈ name.toList, c ≠ '|' ∧ c ≠ '\\'

lemma isSymbol_candidate (h : IsPlain name) (n : Nat) : IsSymbol (candidate name n) := by
  cases n with
  | zero => exact ⟨name, rfl, h⟩
  | succ n =>
      refine ⟨name ++ "~" ++ toString (n + 1), String.toList_injective (by simp [candidate]), ?_⟩
      intro c hc
      simp only [String.toList_append, List.mem_append] at hc
      rcases hc with (hc | hc) | hc
      · exact h c hc
      · obtain rfl : c = '~' := by simpa using hc
        decide
      · have hdigit := isDigit_of_mem_toString hc
        constructor <;> rintro rfl <;> exact absurd hdigit (by decide)

lemma candidate_injective (name : String) : Function.Injective (candidate name) := by
  intro m n h
  -- without bars and name what is left is a suffix, or nothing
  have suffix_eq : ∀ n, (candidate name n).toList =
      '|' :: (name.toList ++ ((if n = 0 then [] else '~' :: n.repr.toList) ++ ['|'])) := by
    intro n
    cases n with
    | zero => simp [candidate]
    | succ n => simp [candidate, toString]
  have h := congrArg String.toList h
  rw [suffix_eq, suffix_eq, List.cons.injEq, List.append_right_inj, List.append_left_inj] at h
  split_ifs at h with hm hn hn
  · rw [hm, hn]
  · cases h.2
  · cases h.2
  · exact Nat.repr_injective (String.toList_injective (List.cons.inj h.2).2)

/-- Some candidate is free, as there are more of them than declarations. -/
lemma exists_free (ds : List Declaration) (name : String) :
    ∃ n < ds.length + 1, ∀ d ∈ ds, d.symbol ≠ candidate name n := by
  by_contra hall
  push Not at hall
  have hsub : (List.range (ds.length + 1)).map (candidate name) ⊆ ds.map (·.symbol) := by
    intro s hs
    obtain ⟨n, hn, rfl⟩ := List.mem_map.mp hs
    obtain ⟨d, hd, h⟩ := hall n (List.mem_range.mp hn)
    exact List.mem_map.mpr ⟨d, hd, h⟩
  have hnodup : ((List.range (ds.length + 1)).map (candidate name)).Nodup :=
    List.nodup_range.map (candidate_injective name)
  have hle := (List.subperm_of_subset hnodup hsub).length_le
  rw [List.length_map, List.length_map, List.length_range] at hle
  omega

/-- The symbol that is chosen is a candidate, and it is free. -/
lemma freeSymbol_spec (ds : List Declaration) (name : String) :
    (∃ n, freeSymbol ds name = candidate name n) ∧ ∀ d ∈ ds, d.symbol ≠ freeSymbol ds name := by
  obtain ⟨n, hn, hfree⟩ := exists_free ds name
  have hsome : ((List.range (ds.length + 1)).map (candidate name)).find?
      (fun s => !ds.any fun d => d.symbol == s) ≠ none := by
    rw [ne_eq, List.find?_eq_none]
    push Not
    refine ⟨candidate name n, List.mem_map_of_mem (List.mem_range.mpr hn), ?_⟩
    simpa using hfree
  obtain ⟨s, hs⟩ := Option.ne_none_iff_exists'.mp hsome
  have hsymbol : freeSymbol ds name = s := by
    rw [freeSymbol]
    simp only [hs, Option.getD_some]
  obtain ⟨m, -, rfl⟩ := List.mem_map.mp (List.mem_of_find?_eq_some hs)
  refine ⟨⟨m, hsymbol⟩, fun d hd => ?_⟩
  have hs' := List.find?_some hs
  simp only [Bool.not_eq_true', List.any_eq_false, beq_iff_eq] at hs'
  exact hsymbol ▸ hs' d hd

/-! ### Declarations -/

/-- Every variable is declared once, with its sort, under a symbol of its own. -/
structure Declared (ds : List Declaration) : Prop where
  vars : (ds.map (·.var)).Nodup
  symbols : (ds.map (·.symbol)).Nodup
  quoted : ∀ d ∈ ds, IsSymbol d.symbol
  sort : ∀ d ∈ ds, d.var.sort = d.sort.name

lemma declared_nil : Declared [] := ⟨by simp, by simp, by simp, by simp⟩

/-- A new variable may be declared under a free symbol. -/
lemma Declared.append (h : Declared ds) (hx : x ∉ ds.map (·.var)) (hname : IsPlain x.name)
    (hσ : x.sort = σ.name) : Declared (ds ++ [⟨x, freeSymbol ds x.name, σ⟩]) := by
  obtain ⟨⟨n, hn⟩, hfree⟩ := freeSymbol_spec ds x.name
  refine ⟨?_, ?_, ?_, ?_⟩
  · rw [List.map_append, List.map_singleton]
    exact List.nodup_append.mpr ⟨h.vars, by simp, by simpa using hx⟩
  · rw [List.map_append, List.map_singleton]
    exact List.nodup_append.mpr ⟨h.symbols, by simp, by simpa using hfree⟩
  · rw [List.forall_mem_append, List.forall_mem_singleton]
    exact ⟨h.quoted, hn ▸ isSymbol_candidate hname n⟩
  · rw [List.forall_mem_append, List.forall_mem_singleton]
    exact ⟨h.sort, hσ⟩

lemma Declared.eq_of_var (h : Declared ds) (hd : d ∈ ds) (hd' : d' ∈ ds) (hvar : d.var = d'.var) :
    d = d' :=
  List.inj_on_of_nodup_map h.vars hd hd' hvar

lemma Declared.eq_of_unquote (h : Declared ds) (hd : d ∈ ds) (hd' : d' ∈ ds)
    (hsymbol : unquote d.symbol = unquote d'.symbol) : d = d' :=
  List.inj_on_of_nodup_map h.symbols hd hd'
    ((h.quoted d hd).eq_of_unquote (h.quoted d' hd') hsymbol)

/-- The search finds the only member that passes the test. -/
lemma find?_eq_some_of_unique {α : Type} {as : List α} {p : α → Bool} {a : α} (ha : a ∈ as)
    (hp : p a = true) (hunique : ∀ b ∈ as, p b = true → b = a) : as.find? p = some a := by
  cases hfind : as.find? p with
  | none => exact absurd hp (List.find?_eq_none.mp hfind a ha)
  | some b => rw [hunique b (List.mem_of_find?_eq_some hfind) (List.find?_some hfind)]

/-- The variables that are declared have symbols. -/
lemma Declared.exists_symbol (h : Declared ds) :
    ∃ symbol : Var → String, ∀ d ∈ ds, symbol d.var = unquote d.symbol := by
  refine ⟨fun x => ((ds.find? (·.var = x)).map fun d => unquote d.symbol).getD "", fun d hd => ?_⟩
  have hfind : ds.find? (·.var = d.var) = some d :=
    find?_eq_some_of_unique hd (decide_eq_true rfl)
      fun d' hd' hvar => h.eq_of_var hd' hd (of_decide_eq_true hvar)
  simp only [hfind, Option.map_some, Option.getD_some]

/-! ### Translations -/

variable {α β γ : Type} {m : Translating α} {k : α → Translating β} {xs ys : Var → Prop}
  {P P' : List Declaration → α → Prop}

/-- Whatever has been declared before, the translation succeeds; it declares certain variables and
no others, and its result stands in a relation to what is declared then. -/
def Declares (m : Translating α) (xs : Var → Prop) (P : List Declaration → α → Prop) : Prop :=
  ∀ ds, Declared ds → ∃ a ds', m ds = .ok (a, ds') ∧ Declared ds' ∧ ds <+: ds' ∧
    (∀ x, x ∈ ds'.map (·.var) ↔ x ∈ ds.map (·.var) ∨ xs x) ∧ P ds' a

/-- The relation stays when more is declared. -/
def Persistent (P : List Declaration → α → Prop) : Prop :=
  ∀ ⦃ds ds' a⦄, ds <+: ds' → P ds a → P ds' a

lemma Declares.congr (h : Declares m xs P) (hxs : ∀ x, xs x ↔ ys x)
    (hP : ∀ ds a, P ds a → P' ds a) : Declares m ys P' := by
  intro ds hds
  obtain ⟨a, ds', hrun, hds', hpre, hvars, ha⟩ := h ds hds
  exact ⟨a, ds', hrun, hds', hpre, fun x => (hvars x).trans (or_congr_right (hxs x)),
    hP ds' a ha⟩

lemma declares_pure {a : α} (h : ∀ ds, P ds a) : Declares (pure a) (fun _ => False) P :=
  fun ds hds => ⟨a, ds, rfl, hds, List.prefix_rfl, fun x => by simp, h ds⟩

/-- A translation after another one. -/
lemma Declares.bind {R : α → List Declaration → β → Prop} (h : Declares m xs P)
    (hk : ∀ a, Declares (k a) ys (R a)) (hP : Persistent P) :
    Declares (m >>= k) (fun x => xs x ∨ ys x) (fun ds b => ∃ a, P ds a ∧ R a ds b) := by
  intro ds hds
  obtain ⟨a, ds₁, hrun, hds₁, hpre, hvars, ha⟩ := h ds hds
  obtain ⟨b, ds₂, hrun', hds₂, hpre', hvars', hb⟩ := hk a ds₁ hds₁
  refine ⟨b, ds₂, ?_, hds₂, hpre.trans hpre', fun x => ?_, a, hP hpre' ha, hb⟩
  · change (m ds >>= fun r => k r.1 r.2) = _
    rw [hrun]
    exact hrun'
  · rw [hvars', hvars, or_assoc]

/-- A translation of which the result is worked on. -/
lemma Declares.map (h : Declares m xs P) (g : α → β) :
    Declares (m >>= fun a => pure (g a)) xs fun ds b => ∃ a, P ds a ∧ b = g a := by
  intro ds hds
  obtain ⟨a, ds', hrun, hds', hpre, hvars, ha⟩ := h ds hds
  refine ⟨g a, ds', ?_, hds', hpre, hvars, a, ha, rfl⟩
  change (m ds >>= fun r => (pure (g r.1) : Translating β) r.2) = _
  rw [hrun]
  rfl

/-- Translations of the members of a list. -/
lemma declares_mapM {as : List α} {g : α → Translating β} {xs : α → Var → Prop}
    {R : α → List Declaration → β → Prop} (hg : ∀ a ∈ as, Declares (g a) (xs a) (R a))
    (hR : ∀ a ∈ as, Persistent (R a)) :
    Declares (as.mapM g) (fun x => ∃ a ∈ as, xs a x)
      (fun ds bs => List.Forall₂ (fun a b => R a ds b) as bs) := by
  induction as with
  | nil =>
      rw [List.mapM_nil]
      exact (declares_pure fun ds => .nil).congr (by simp) fun _ _ => id
  | cons a as ih =>
      rw [List.forall_mem_cons] at hg hR
      rw [List.mapM_cons]
      have hrest := ih hg.2 hR.2
      refine (hg.1.bind (fun b => hrest.map (b :: ·)) hR.1).congr (by simp) ?_
      rintro ds _ ⟨b, hb, bs, hbs, rfl⟩
      exact .cons hb hbs

/-- A variable that has a sort of scripts can be declared. -/
lemma scriptSort?_var (h : (Term.var x).scriptSort? = some σ) :
    IsPlain x.name ∧ scriptSort x.sort = some σ ∧ x.sort = σ.name := by
  rw [Term.scriptSort?, Option.ite_none_left_eq_some, not_or] at h
  obtain ⟨⟨hbar, hback⟩, h⟩ := h
  refine ⟨fun c hc => ⟨fun h => hbar (h ▸ hc), fun h => hback (h ▸ hc)⟩, h, ?_⟩
  split_ifs at h with hint hbool
  · cases h
    exact hint
  · cases h
    exact hbool

/-- The symbol of a variable that has been declared, or a free one. -/
lemma symbolOf_eq (h : (Term.var x).scriptSort? = some σ) (ds : List Declaration) :
    symbolOf x ds = .ok (match ds.find? (·.var = x) with
      | some d => (.symbol d.symbol, ds)
      | none => (.symbol (freeSymbol ds x.name), ds ++ [⟨x, freeSymbol ds x.name, σ⟩])) := by
  obtain ⟨hname, hσ, -⟩ := scriptSort?_var h
  have hguard : (x.name.contains '|' || x.name.contains '\\') = false := by
    rw [String.contains_char_eq, String.contains_char_eq]
    simp only [Bool.or_eq_false_iff, decide_eq_false_iff_not]
    exact ⟨fun hc => (hname _ hc).1 rfl, fun hc => (hname _ hc).2 rfl⟩
  unfold symbolOf
  simp only [hσ, hguard, Bool.false_eq_true, if_false]
  change (match ds.find? (·.var = x) with
    | some d => pure (Formula.symbol d.symbol)
    | none => do
      set (ds ++ [⟨x, freeSymbol ds x.name, σ⟩])
      pure (Formula.symbol (freeSymbol ds x.name)) : Translating Formula) ds = _
  cases ds.find? (·.var = x) <;> rfl

/-- A variable is translated to its symbol. -/
theorem declares_symbolOf (h : (Term.var x).scriptSort? = some σ) :
    Declares (symbolOf x) (· = x) fun ds f =>
      ∃ d ∈ ds, d.var = x ∧ d.sort = σ ∧ IsSymbol d.symbol ∧ f = .symbol d.symbol := by
  obtain ⟨hname, -, hsort⟩ := scriptSort?_var h
  intro ds hds
  have hrun := symbolOf_eq h ds
  cases hfind : ds.find? (·.var = x) with
  | some d =>
      have hd := List.mem_of_find?_eq_some hfind
      have hx : d.var = x := by simpa using List.find?_some hfind
      have hmem : x ∈ ds.map (·.var) := List.mem_map.mpr ⟨d, hd, hx⟩
      have hdσ : d.sort = σ := ScriptSort.name_injective ((hds.sort d hd).symm.trans (hx ▸ hsort))
      rw [hfind] at hrun
      exact ⟨.symbol d.symbol, ds, hrun, hds, List.prefix_rfl,
        fun y => ⟨.inl, fun h => h.elim id fun h => h ▸ hmem⟩, d, hd, hx, hdσ, hds.quoted d hd, rfl⟩
  | none =>
      have hx : x ∉ ds.map (·.var) := by
        rintro hmem
        obtain ⟨d, hd, rfl⟩ := List.mem_map.mp hmem
        exact List.find?_eq_none.mp hfind d hd (decide_eq_true rfl)
      have hnew := hds.append hx hname hsort
      have hd := List.mem_append_right ds (List.mem_singleton_self ⟨x, freeSymbol ds x.name, σ⟩)
      rw [hfind] at hrun
      refine ⟨.symbol (freeSymbol ds x.name), ds ++ [⟨x, freeSymbol ds x.name, σ⟩], hrun, hnew,
        List.prefix_append _ _, fun y => ?_, _, hd, rfl, rfl, hnew.quoted _ hd, rfl⟩
      rw [List.map_append, List.mem_append, List.map_singleton, List.mem_singleton]

end SolvedForm.Translating

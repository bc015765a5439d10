import SolvedForm.Proofs.Solver.Translation

/-!
Quantified formulas.

* `Formula.quantify`: a formula that is quantified where there is something to quantify.
* `Formula.binders_quantify`, `Formula.meaning_quantify`: what it introduces, and that it is true
  when the formula is true for some values for the binders.
* `Translating.Declared.exists_values`, `Translating.Declared.exists_env`: values for the symbols of
  some variables are values for these variables, and back.
* `Translating.Declared.meaning_quantify`: the quantified formula says that some values for these
  variables make the formula say something true.
-/

namespace SolvedForm

open SExpr

/-! ### Quantified formulas -/

namespace Formula

/-- The formula, quantified over the symbols of declarations where there are any. -/
def quantify (ds : List Declaration) (f : Formula) : Formula :=
  let binders := ds.map fun d => (d.symbol, d.sort)
  if binders.isEmpty then f else .quantified binders f

variable {ds : List Declaration} {f : Formula} {env env' : Env}

lemma readable_quantify (hds : ∀ d ∈ ds, IsSymbol d.symbol) (hf : f.Readable) :
    (quantify ds f).Readable := by
  rw [quantify]
  split_ifs
  · exact hf
  · exact .quantified (List.forall_mem_map.mpr hds) hf

lemma binder?_binder (b : String × ScriptSort) : binder? (binder b) = some (unquote b.1, b.2) := by
  rw [binder, binder?, sort?_render]
  rfl

/-- A list of binders is no quantified expression itself. -/
lemma binders_map_binder (bs : List (String × ScriptSort)) :
    (SExpr.list (bs.map binder)).binders = [] := by
  have hown : ownBinders (bs.map binder) = [] := by
    cases bs <;> rfl
  rw [SExpr.binders, hown, List.nil_append, bindersAll_eq_nil, List.forall_mem_map]
  exact fun _ _ => rfl

lemma binders_quantify (hf : f.sexpr.binders = []) :
    (quantify ds f).sexpr.binders = ds.map introduced := by
  rw [quantify]
  split_ifs with hempty
  · rw [List.isEmpty_iff, List.map_eq_nil_iff] at hempty
    rw [hf, hempty, List.map_nil]
  · have hinner : bindersAll [.word "exists", .list
        ((ds.map fun d => (d.symbol, d.sort)).map binder), f.sexpr] = [] := by
      rw [bindersAll_eq_nil, List.forall_mem_cons, List.forall_mem_cons, List.forall_mem_singleton]
      exact ⟨rfl, binders_map_binder _, hf⟩
    rw [sexpr, SExpr.binders, hinner, List.append_nil, ownBinders, List.map_map,
      List.filterMap_map, ← List.filterMap_eq_map]
    exact List.filterMap_congr fun d _ => binder?_binder _

lemma extendsTo_nil : env.ExtendsTo [] env' ↔ env' = env :=
  ⟨fun h => funext fun s => h.outside s (by simp), fun h => h ▸ ⟨by simp, by simp⟩⟩

/-- Where the body has a truth value whatever the values of the binders are, the quantified formula
is true when the body is for some values. -/
lemma meaning_quantify
    (hf : ∀ env', env.ExtendsTo (ds.map introduced) env' →
      ∃ b, f.sexpr.meaning env' = some (.bool b)) :
    ∃ b, (quantify ds f).sexpr.meaning env = some (.bool b) ∧
      (b = true ↔ ∃ env', env.ExtendsTo (ds.map introduced) env' ∧
        f.sexpr.meaning env' = some (.bool true)) := by
  rw [quantify]
  split_ifs with hempty
  · rw [List.isEmpty_iff, List.map_eq_nil_iff] at hempty
    subst hempty
    simp only [List.map_nil, extendsTo_nil, forall_eq, exists_eq_left] at hf ⊢
    obtain ⟨b, hb⟩ := hf
    exact ⟨b, hb, by simp [hb]⟩
  · have hbinders : ((ds.map fun d => (d.symbol, d.sort)).map binder).mapM binder? =
        some (ds.map introduced) := by
      rw [mapM_eq_some_iff, List.map_map, List.forall₂_map_left_iff, List.forall₂_map_right_iff,
        List.forall₂_same]
      exact fun d _ => binder?_binder _
    rw [sexpr, SExpr.meaning, SExpr.meanings, SExpr.meanings, SExpr.meanings, SExpr.meanings, form,
      hbinders, Option.bind_some, exists?, if_pos hf]
    exact ⟨_, rfl, by simp⟩

end Formula

namespace Translating

open Formula

variable {ds : List Declaration} {symbol : Var → String} {env env' : Env}
  {A : String → ScriptValue} {d : Declaration} {chosen : Declaration → Bool} {C : Var → Prop}

/-! ### Values for symbols and values for variables -/

/-- The symbols that are introduced for chosen variables. -/
lemma Declared.mem_introduced (h : Declared ds)
    (hsymbol : ∀ d ∈ ds, symbol d.var = unquote d.symbol)
    (hC : ∀ d ∈ ds, chosen d = true ↔ C d.var) {s : String} {σ : ScriptSort} :
    (s, σ) ∈ (ds.filter chosen).map introduced ↔
      ∃ x, x ∈ ds.map (·.var) ∧ C x ∧ symbol x = s ∧ x.sort = σ.name := by
  constructor
  · intro hmem
    obtain ⟨d, hd, hdσ⟩ := List.mem_map.mp hmem
    obtain ⟨hd, hchosen⟩ := List.mem_filter.mp hd
    cases hdσ
    exact ⟨d.var, List.mem_map_of_mem hd, (hC d hd).mp hchosen, hsymbol d hd, h.sort d hd⟩
  · rintro ⟨x, hx, hCx, rfl, hσ⟩
    obtain ⟨d, hd, rfl⟩ := List.mem_map.mp hx
    have hintroduced : introduced d = (symbol d.var, σ) :=
      Prod.ext (hsymbol d hd).symm (ScriptSort.name_injective ((h.sort d hd).symm.trans hσ))
    rw [← hintroduced]
    exact List.mem_map_of_mem (List.mem_filter.mpr ⟨hd, (hC d hd).mpr hCx⟩)

/-- The symbols of the chosen variables are none of those of the others. -/
lemma Declared.ne_of_not_chosen (h : Declared ds) (hd : d ∈ ds) (hchosen : chosen d = false) :
    ∀ b ∈ (ds.filter chosen).map introduced, b.1 ≠ unquote d.symbol := by
  rw [List.forall_mem_map]
  rintro d' hd' hsymbol
  obtain ⟨hd', hchosen'⟩ := List.mem_filter.mp hd'
  rw [h.eq_of_unquote hd' hd hsymbol, hchosen] at hchosen'
  cases hchosen'

/-- The symbols of the variables that are not chosen have values of their sorts. -/
def Assigned (ds : List Declaration) (chosen : Declaration → Bool) (env : Env)
    (A : String → ScriptValue) : Prop :=
  ∀ d ∈ ds, chosen d = false →
    env (unquote d.symbol) = some (A (unquote d.symbol)) ∧ (A (unquote d.symbol)).sort = d.sort

/-- Values for the symbols of the chosen variables are values for these variables. -/
lemma Declared.exists_values (h : Declared ds)
    (hsymbol : ∀ d ∈ ds, symbol d.var = unquote d.symbol)
    (hC : ∀ d ∈ ds, chosen d = true ↔ C d.var) (hA : Assigned ds chosen env A)
    (henv : env.ExtendsTo ((ds.filter chosen).map introduced) env') :
    ∃ ν : Var → ScriptValue, (∀ x, ¬C x → ν x = A (symbol x)) ∧ Agrees ds env' ν := by
  classical
  let ν : Var → ScriptValue := fun x =>
    if C x then (env' (symbol x)).getD (A (symbol x)) else A (symbol x)
  have hfree : ∀ x, ¬C x → ν x = A (symbol x) := fun x hx => if_neg hx
  refine ⟨ν, hfree, fun d hd => ?_⟩
  cases hchosen : chosen d with
  | true =>
      obtain ⟨v, hv, henv'⟩ := henv.binders (introduced d)
        (List.mem_map_of_mem (List.mem_filter.mpr ⟨hd, hchosen⟩))
      have hν : ν d.var = v := by
        simp only [ν, if_pos ((hC d hd).mp hchosen), hsymbol d hd]
        exact congrArg (Option.getD · _) henv'
      exact hν ▸ ⟨henv', hv⟩
  | false =>
      have hnot : ¬C d.var := by simp [← hC d hd, hchosen]
      rw [hfree _ hnot, hsymbol d hd, henv.outside _ (h.ne_of_not_chosen hd hchosen)]
      exact hA d hd hchosen

/-- Values for the chosen variables are values for their symbols. -/
lemma Declared.exists_env (h : Declared ds)
    (hsymbol : ∀ d ∈ ds, symbol d.var = unquote d.symbol)
    (hC : ∀ d ∈ ds, chosen d = true ↔ C d.var) (hA : Assigned ds chosen env A)
    {ν : Var → ScriptValue} (hfree : ∀ x, ¬C x → ν x = A (symbol x))
    (hsort : ∀ x, C x → (ν x).sort.name = x.sort) :
    ∃ env', env.ExtendsTo ((ds.filter chosen).map introduced) env' ∧ Agrees ds env' ν := by
  let env' : Env := fun s =>
    ((ds.filter chosen).find? (unquote ·.symbol = s)).elim (env s) fun d => some (ν d.var)
  -- a symbol stands for one variable only, so the search finds its declaration
  have hin : ∀ d ∈ ds, chosen d = true →
      env' (unquote d.symbol) = some (ν d.var) ∧ (ν d.var).sort = d.sort := by
    intro d hd hchosen
    have hfind : (ds.filter chosen).find? (unquote ·.symbol = unquote d.symbol) = some d :=
      find?_eq_some_of_unique (List.mem_filter.mpr ⟨hd, hchosen⟩) (decide_eq_true rfl)
        fun e he hsymbol =>
          h.eq_of_unquote (List.mem_of_mem_filter he) hd (of_decide_eq_true hsymbol)
    refine ⟨by simp only [env', hfind, Option.elim_some], ScriptSort.name_injective ?_⟩
    exact (hsort d.var ((hC d hd).mp hchosen)).trans (h.sort d hd)
  have hout : ∀ s, (∀ b ∈ (ds.filter chosen).map introduced, b.1 ≠ s) → env' s = env s := by
    intro s hs
    have hfind : (ds.filter chosen).find? (unquote ·.symbol = s) = none := by
      rw [List.find?_eq_none]
      exact fun d hd hsymbol => hs _ (List.mem_map_of_mem hd) (of_decide_eq_true hsymbol)
    simp only [env', hfind, Option.elim_none]
  refine ⟨env', ⟨hout, ?_⟩, fun d hd => ?_⟩
  · rw [List.forall_mem_map]
    intro d hd
    obtain ⟨hd, hchosen⟩ := List.mem_filter.mp hd
    exact ⟨ν d.var, (hin d hd hchosen).2, (hin d hd hchosen).1⟩
  · cases hchosen : chosen d with
    | true => exact hin d hd hchosen
    | false =>
        have hnot : ¬C d.var := by simp [← hC d hd, hchosen]
        rw [hout _ (h.ne_of_not_chosen hd hchosen), hfree _ hnot, hsymbol d hd]
        exact hA d hd hchosen

/-- A quantified formula says that the formula holds for some values for the chosen variables. -/
lemma Declared.meaning_quantify (h : Declared ds)
    (hsymbol : ∀ d ∈ ds, symbol d.var = unquote d.symbol)
    (hC : ∀ d ∈ ds, chosen d = true ↔ C d.var) (hmem : ∀ x, C x → x ∈ ds.map (·.var))
    (hA : Assigned ds chosen env A) {P : (Var → ScriptValue) → Prop} {f : Formula}
    (hf : Says P ds f) :
    ∃ b, (quantify (ds.filter chosen) f).sexpr.meaning env = some (.bool b) ∧
      (b = true ↔ ∃ ν : Var → ScriptValue, (∀ x, ¬C x → ν x = A (symbol x)) ∧
        (∀ x, C x → (ν x).sort.name = x.sort) ∧ P ν) := by
  have hvalue : ∀ env', env.ExtendsTo ((ds.filter chosen).map introduced) env' →
      ∃ b, f.sexpr.meaning env' = some (.bool b) := by
    intro env' henv
    obtain ⟨ν, -, hν⟩ := h.exists_values hsymbol hC hA henv
    obtain ⟨_, hmeaning, b, rfl, -⟩ := hf.value env' ν hν
    exact ⟨b, hmeaning⟩
  obtain ⟨b, hb, hiff⟩ := Formula.meaning_quantify hvalue
  refine ⟨b, hb, hiff.trans ⟨?_, ?_⟩⟩
  · rintro ⟨env', henv, htrue⟩
    obtain ⟨ν, hfree, hν⟩ := h.exists_values hsymbol hC hA henv
    obtain ⟨_, hmeaning, c, rfl, hc⟩ := hf.value env' ν hν
    refine ⟨ν, hfree, fun x hx => ?_, hc.mp ?_⟩
    · obtain ⟨d, hd, rfl⟩ := List.mem_map.mp (hmem x hx)
      rw [(hν d hd).2, h.sort d hd]
    · rw [hmeaning] at htrue
      cases htrue
      rfl
  · rintro ⟨ν, hfree, hsort, hP⟩
    obtain ⟨env', henv, hν⟩ := h.exists_env hsymbol hC hA hfree hsort
    obtain ⟨_, hmeaning, c, rfl, hc⟩ := hf.value env' ν hν
    exact ⟨env', henv, by rw [hmeaning, hc.mpr hP]⟩

end Translating

end SolvedForm

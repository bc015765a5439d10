import SolvedForm.Proofs.Solver.Symbols
import SolvedForm.Proofs.Term.Subterms

/-!
Formulas have the meaning of what they are translated from.

* `Formula.Means`: the value of a formula stands in a given relation to the values of the variables
  that its symbols stand for; `Formula.Says` where it is the truth value of a property of them.
* `Formula.Means.apply`, `Formula.says_join_conj`, `Formula.says_join_disj`: operators, and
  connectives with any number of members.
* `Translating.declares_term`, `Translating.declares_equation`, `Translating.declares_constraint`:
  the translations of terms, of equations and of constraints succeed, declare the variables that
  occur, and mean the same.
-/

namespace SolvedForm

open SExpr

/-! ### The meaning of formulas -/

namespace Formula

/-- The values of the symbols are those of the variables that they stand for, and of the sorts that
were declared. -/
def Agrees (ds : List Declaration) (env : Env) (ν : Var → ScriptValue) : Prop :=
  ∀ d ∈ ds, env (unquote d.symbol) = some (ν d.var) ∧ (ν d.var).sort = d.sort

/-- The formula can be read and introduces no symbols; it has a value, which stands in a relation
to the values of the variables that its symbols stand for. -/
structure Means (R : (Var → ScriptValue) → ScriptValue → Prop) (ds : List Declaration)
    (f : Formula) : Prop where
  readable : f.Readable
  binders : f.sexpr.binders = []
  value : ∀ env ν, Agrees ds env ν → ∃ v, f.sexpr.meaning env = some v ∧ R ν v

/-- The formula has a truth value, that of a property of the values of the variables. -/
abbrev Says (P : (Var → ScriptValue) → Prop) : List Declaration → Formula → Prop :=
  Means fun ν v => ∃ b, v = .bool b ∧ (b = true ↔ P ν)

variable {ds ds' : List Declaration} {R S : (Var → ScriptValue) → ScriptValue → Prop}
  {P : (Var → ScriptValue) → Prop} {f : Formula} {fs : List Formula} {o : Operator}

lemma Means.mono (h : Means R ds f) (hRS : ∀ ν v, R ν v → S ν v) : Means S ds f where
  readable := h.readable
  binders := h.binders
  value env ν hν := by
    obtain ⟨v, hv, hR⟩ := h.value env ν hν
    exact ⟨v, hv, hRS ν v hR⟩

lemma Says.congr {Q : (Var → ScriptValue) → Prop} (h : Says P ds f) (hPQ : ∀ ν, P ν ↔ Q ν) :
    Says Q ds f :=
  h.mono fun ν _ ⟨b, hv, hb⟩ => ⟨b, hv, hb.trans (hPQ ν)⟩

/-- A formula keeps its meaning when more is declared. -/
lemma persistent_means : Translating.Persistent (Means R) := by
  rintro ds ds' f hpre ⟨hread, hbinders, hvalue⟩
  exact ⟨hread, hbinders, fun env ν hν => hvalue env ν fun d hd => hν d (hpre.subset hd)⟩

/-! ### Atoms -/

lemma means_symbol {d : Declaration} (hd : d ∈ ds) (hsymbol : IsSymbol d.symbol) :
    Means (fun ν v => v = ν d.var ∧ v.sort = d.sort) ds (.symbol d.symbol) where
  readable := .symbol hsymbol
  binders := rfl
  value _ ν hν := ⟨ν d.var, (hν d hd).1, rfl, (hν d hd).2⟩

lemma means_bool (b : Bool) : Means (fun _ v => v = .bool b) ds (.bool b) where
  readable := .bool b
  binders := rfl
  value _ _ _ := by cases b <;> exact ⟨_, rfl, rfl⟩

lemma meaning_numeral (n : Nat) (env : Env) : (numeral n).sexpr.meaning env = some (.int n) := by
  -- the other literals have letters
  have hne : ∀ w : String, (∃ c ∈ w.toList, c.isDigit = false) → toString n ≠ w := by
    rintro w ⟨c, hc, hdigit⟩ rfl
    rw [isDigit_of_mem_toString hc] at hdigit
    cases hdigit
  rw [sexpr, meaning, literal?, if_neg (hne _ ⟨'t', by decide⟩), if_neg (hne _ ⟨'f', by decide⟩)]
  exact congrArg (Option.map fun n : Nat => ScriptValue.int n) (Nat.toNat?_repr n)

lemma means_ofInt (i : Int) : Means (fun _ v => v = .int i) ds (.ofInt i) := by
  rw [ofInt]
  split_ifs with hi
  · refine ⟨.apply .sub (by simpa using .numeral _), rfl, fun env ν _ => ⟨.int i, ?_, rfl⟩⟩
    have hi : -(i.natAbs : Int) = i := by omega
    have harg := meaning_numeral i.natAbs env
    have hminus : ("-" : String) ≠ "exists" := by decide
    calc (list [word "-", (numeral i.natAbs).sexpr]).meaning env
        = operation "-" [.int i.natAbs] := meaning_operation hminus (.cons harg .nil)
      _ = some (.int (-i.natAbs)) := rfl
      _ = some (.int i) := by rw [hi]
  · refine ⟨.numeral _, rfl, fun env ν _ => ⟨.int i, ?_, rfl⟩⟩
    have hi : (i.natAbs : Int) = i := by omega
    rw [meaning_numeral, hi]

/-! ### Operators -/

lemma scriptName_ne_exists (o : Operator) : o.scriptName ≠ "exists" := by
  cases o <;> decide

variable {α : Type} {as : List α} {T : α → (Var → ScriptValue) → ScriptValue → Prop}

/-- The operands are readable and introduce nothing, and they have values that stand in the
relations of their meanings. -/
lemma Means.operands (h : List.Forall₂ (fun a f => Means (T a) ds f) as fs) :
    (∀ f ∈ fs, f.Readable ∧ f.sexpr.binders = []) ∧ ∀ env ν, Agrees ds env ν →
      ∃ vs, List.Forall₂ (fun (f : Formula) v => f.sexpr.meaning env = some v) fs vs ∧
        List.Forall₂ (fun a v => T a ν v) as vs := by
  induction h with
  | nil => exact ⟨by simp, fun _ _ _ => ⟨[], .nil, .nil⟩⟩
  | cons h _ ih =>
      refine ⟨List.forall_mem_cons.mpr ⟨⟨h.readable, h.binders⟩, ih.1⟩, fun env ν hν => ?_⟩
      obtain ⟨v, hv, hT⟩ := h.value env ν hν
      obtain ⟨vs, hvs, hTs⟩ := ih.2 env ν hν
      exact ⟨v :: vs, .cons hv hvs, .cons hT hTs⟩

/-- An operator applied to operands with meanings. -/
lemma Means.apply (h : List.Forall₂ (fun a f => Means (T a) ds f) as fs)
    (ho : ∀ ν vs, List.Forall₂ (fun a v => T a ν v) as vs →
      ∃ v, operation o.scriptName vs = some v ∧ R ν v) : Means R ds (.apply o fs) := by
  obtain ⟨hfs, hvalues⟩ := Means.operands h
  refine ⟨.apply o fun f hf => (hfs f hf).1, ?_, fun env ν hν => ?_⟩
  · rw [sexpr, sexprs_eq_map]
    exact binders_operation (scriptName_ne_exists o)
      (List.forall_mem_map.mpr fun f hf => (hfs f hf).2)
  · obtain ⟨vs, hvs, has⟩ := hvalues env ν hν
    obtain ⟨v, hv, hR⟩ := ho ν vs has
    refine ⟨v, ?_, hR⟩
    rw [sexpr, sexprs_eq_map, meaning_operation (scriptName_ne_exists o), hv]
    rwa [List.forall₂_map_left_iff]

/-! ### Connectives -/

variable {Ps : List ((Var → ScriptValue) → Prop)}

/-- The values of formulas that say something are truth values, all of them true where all
properties hold, and some of them where some property holds. -/
lemma exists_bools {ν : Var → ScriptValue} {vs : List ScriptValue}
    (h : List.Forall₂ (fun P v => ∃ b, v = .bool b ∧ (b = true ↔ P ν)) Ps vs) :
    ∃ bs : List Bool, vs = bs.map .bool ∧ (bs.all id = true ↔ ∀ P ∈ Ps, P ν) ∧
      (bs.any id = true ↔ ∃ P ∈ Ps, P ν) := by
  induction h with
  | nil => exact ⟨[], rfl, by simp, by simp⟩
  | cons h _ ih =>
      obtain ⟨b, rfl, hb⟩ := h
      obtain ⟨bs, rfl, hall, hany⟩ := ih
      refine ⟨b :: bs, rfl, ?_, ?_⟩
      · rw [List.all_cons, Bool.and_eq_true, hall, List.forall_mem_cons, id_eq, hb]
      · rw [List.any_cons, Bool.or_eq_true, hany, List.exists_mem_cons_iff, id_eq, hb]

/-- Formulas joined by a conjunction. -/
lemma says_join_conj (h : List.Forall₂ (fun P f => Says P ds f) Ps fs) :
    Says (fun ν => ∀ P ∈ Ps, P ν) ds (.join .conj true fs) := by
  match h with
  | .nil => exact (means_bool true).mono fun ν v hv => ⟨true, hv, by simp⟩
  | .cons h .nil => exact h.mono fun ν v ⟨b, hv, hb⟩ => ⟨b, hv, by simpa using hb⟩
  | .cons h (.cons h' hs) =>
      refine Means.apply (o := .conj) (.cons h (.cons h' hs)) fun ν vs hvs => ?_
      obtain ⟨bs, rfl, hall, -⟩ := exists_bools hvs
      exact ⟨_, operation_and bs, _, rfl, hall⟩

/-- Formulas joined by a disjunction. -/
lemma says_join_disj (h : List.Forall₂ (fun P f => Says P ds f) Ps fs) :
    Says (fun ν => ∃ P ∈ Ps, P ν) ds (.join .disj false fs) := by
  match h with
  | .nil => exact (means_bool false).mono fun ν v hv => ⟨false, hv, by simp⟩
  | .cons h .nil => exact h.mono fun ν v ⟨b, hv, hb⟩ => ⟨b, hv, by simpa using hb⟩
  | .cons h (.cons h' hs) =>
      refine Means.apply (o := .disj) (.cons h (.cons h' hs)) fun ν vs hvs => ?_
      obtain ⟨bs, rfl, -, hany⟩ := exists_bools hvs
      exact ⟨_, operation_or bs, _, rfl, hany⟩

end Formula

/-! ### Terms -/

namespace Translating

open Formula

variable {t : Term} {ts : List Term} {e : Equation} {c : Constraint} {o : Operator}
  {R : (Var → ScriptValue) → ScriptValue → Prop}

lemma terms_eq_mapM (ts : List Term) : terms ts = ts.mapM term := by
  induction ts with
  | nil => rfl
  | cons t ts ih => rw [terms, List.mapM_cons, ih]

/-- An operator applied to terms. -/
lemma declares_apply (hts : ∀ t ∈ ts, Declares (term t) (· ∈ t.vars) (Means t.HasValue))
    (ho : ∀ ν vs, List.Forall₂ (fun t v => t.HasValue ν v) ts vs →
      ∃ v, o.value? vs = some v ∧ R ν v) :
    Declares (ts.mapM term >>= fun fs => pure (.apply o fs)) (fun x => ∃ t ∈ ts, x ∈ t.vars)
      (Means R) := by
  refine ((declares_mapM hts fun _ _ => persistent_means).map _).congr (fun _ => Iff.rfl) ?_
  rintro ds _ ⟨fs, hfs, rfl⟩
  refine Means.apply hfs fun ν vs hvs => ?_
  obtain ⟨v, hv, hR⟩ := ho ν vs hvs
  exact ⟨v, Operator.operation_scriptName hv, hR⟩

/-- A term that has a sort is translated to a formula with its value. -/
theorem declares_term (h : t.scriptSort? ≠ none) :
    Declares (term t) (· ∈ t.vars) (Means t.HasValue) := by
  induction t using Term.ind with
  | var x =>
      obtain ⟨σ, hσ⟩ := Option.ne_none_iff_exists'.mp h
      refine (declares_symbolOf hσ).congr (by simp) ?_
      rintro ds _ ⟨d, hd, rfl, hdσ, hsymbol, rfl⟩
      refine (means_symbol hd hsymbol).mono fun ν v hv => ⟨hv.1 ▸ rfl, ?_⟩
      rw [hσ, hv.2, hdσ]
  | bool b =>
      refine (declares_pure fun ds => ?_).congr (by simp) fun ds f => id
      exact (means_bool b).mono fun ν v hv => hv ▸ ⟨rfl, rfl⟩
  | int i =>
      refine (declares_pure fun ds => ?_).congr (by simp) fun ds f => id
      exact (means_ofInt i.toInt).mono fun ν v hv => hv ▸ ⟨rfl, rfl⟩
  | app f args ih =>
      obtain ⟨hf, hargs, o, ho, hvalue⟩ := Term.scriptSort?_app h
      have hrun : term (.app f args) = args.mapM term >>= fun fs => pure (.apply o fs) := by
        rw [term, hf, if_neg (by decide), ho, terms_eq_mapM]
      rw [hrun]
      exact (declares_apply (fun t ht => ih t ht (hargs t ht)) hvalue).congr
        (fun x => Term.mem_vars_app.symm) fun ds f => id
  | map entries frame _ => exact absurd rfl h
  | lookup m k _ _ => exact absurd rfl h

/-! ### Constraints -/

/-- An equation is translated to a formula that says that it holds. -/
theorem declares_equation (hl : e.left.scriptSort? ≠ none) (hr : e.right.scriptSort? ≠ none) :
    Declares (equation e) (fun x => x ∈ e.left.vars ∨ x ∈ e.right.vars)
      (Says fun ν => e.HoldsUnder ν) := by
  have hrun : equation e =
      [e.left, e.right].mapM term >>= fun fs => pure (.apply .eq fs) := by
    simp [equation]
  rw [hrun]
  refine (declares_apply (by simp [declares_term hl, declares_term hr]) fun ν vs hvs => ?_).congr
    (by simp) fun ds f => id
  obtain _ | ⟨hv, _ | ⟨hw, _ | _⟩⟩ := hvs
  refine ⟨_, rfl, _, rfl, decide_eq_true_iff.trans ⟨fun h => ⟨_, hv.1, h ▸ hw.1⟩, ?_⟩⟩
  rintro ⟨u, hvu, hwu⟩
  exact Option.some.inj ((hv.1.symm.trans hvu).trans (hwu.symm.trans hw.1))

lemma disjunctions_eq_mapM (Cs : List (List Constraint)) :
    disjunctions Cs =
      Cs.mapM fun C => C.mapM constraint >>= fun fs => pure (.join .disj false fs) := by
  have alternatives_eq : ∀ C, alternatives C = C.mapM constraint := by
    intro C
    induction C with
    | nil => rfl
    | cons c C ih => rw [alternatives, List.mapM_cons, ih]
  induction Cs with
  | nil => rfl
  | cons C Cs ih =>
      rw [disjunctions, List.mapM_cons, ih, alternatives_eq, bind_assoc]
      simp only [pure_bind]

lemma constraint_eq (hc : c.isFalse = false) :
    constraint c = (do
      let es ← c.equations.toList.mapM equation
      let bs ← c.store.toList.mapM fun b => equation ⟨.var b.1, b.2⟩
      let ds ← disjunctions c.pending
      return .join .conj true (es ++ bs ++ ds)) := by
  obtain ⟨E, _, σ, v, _, _, _, D⟩ := c
  rw [constraint, if_neg (of_decide_eq_false hc)]

/-- Formulas that say something about the members of a list. -/
lemma declares_each {α : Type} {as : List α} {g : α → Translating Formula} {xs : α → Var → Prop}
    {P : α → (Var → ScriptValue) → Prop} (hg : ∀ a ∈ as, Declares (g a) (xs a) (Says (P a))) :
    Declares (as.mapM g) (fun x => ∃ a ∈ as, xs a x)
      (fun ds fs => List.Forall₂ (fun P f => Says P ds f) (as.map P) fs) := by
  refine (declares_mapM hg fun _ _ => persistent_means).congr (fun _ => Iff.rfl) fun ds fs h => ?_
  rwa [List.forall₂_map_left_iff]

lemma persistent_forall₂ {Ps : List ((Var → ScriptValue) → Prop)} :
    Persistent fun ds fs => List.Forall₂ (fun P f => Says P ds f) Ps fs :=
  fun _ _ _ hpre h => h.imp fun _ _ h => persistent_means hpre h

/-- A disjunction is translated to a formula that says that some alternative holds. -/
lemma declares_disjunction {C : List Constraint} (h : ∀ d ∈ C,
      Declares (constraint d) (fun x => d.Involves x) (Says fun ν => d.HoldsUnder ν)) :
    Declares (C.mapM constraint >>= fun fs => pure (.join .disj false fs))
      (fun x => ∃ d ∈ C, d.Involves x) (Says fun ν => ∃ d ∈ C, d.HoldsUnder ν) := by
  refine ((declares_each h).map _).congr (fun _ => Iff.rfl) ?_
  rintro ds _ ⟨fs, hfs, rfl⟩
  exact (says_join_disj hfs).congr (by simp)

/-- A constraint is translated to a formula that says that it holds. -/
theorem declares_constraint (h : c.Translatable) :
    Declares (constraint c) (fun x => c.Involves x) (Says fun ν => c.HoldsUnder ν) := by
  induction h with
  | @intro c hc hE hσ _ ih =>
      rw [constraint_eq hc, disjunctions_eq_mapM]
      have hes := declares_each fun e he => declares_equation (hE e he).1 (hE e he).2
      have hbs := declares_each fun b hb =>
        declares_equation (e := ⟨.var b.1, b.2⟩) (hσ b hb).1 (hσ b hb).2
      have hds := declares_each fun C hC => declares_disjunction (ih C hC)
      -- what the first formulas say persists while the others are translated
      have hall := hes.bind (fun es => hbs.bind (fun bs => hds.map fun fs =>
        Formula.join .conj true (es ++ bs ++ fs)) persistent_forall₂) persistent_forall₂
      refine hall.congr ?_ ?_
      · intro x
        rw [Constraint.involves_iff]
        simp only [Term.vars_var, List.mem_singleton]
      · rintro ds _ ⟨es, hes, bs, hbs, fs, hfs, rfl⟩
        refine (says_join_conj (List.rel_append (List.rel_append hes hbs) hfs)).congr fun ν => ?_
        rw [Constraint.holdsUnder_iff hc]
        simp only [List.forall_mem_append, List.forall_mem_map, and_assoc]

end Translating

end SolvedForm

import Mathlib
import SolvedForm.Constraint.NormalForm
import SolvedForm.Proofs.Solver.Symbols

/-!
Variables with the names of predefined symbols.

* `Script.predefined`: the symbols that scripts use without declaring them.
* `SExpr.unquoted`: an expression in which quoted symbols that are predefined are read as simple
  ones.
* `Formula.Over`: all symbols of a formula satisfy a condition.
* `Translating.InOrder`: declarations made one after the other, and
  `Translating.InOrder.predefined_iff`: which of their symbols are predefined.
* `Translating.Yields`: what holds of a translation whenever it succeeds.
* `Script.predefined_iff_of_ofConstraint`: the symbols of a script that are predefined are those of
  the first variables with predefined names.
* `Script.ofConstraint_captures`: such a variable is read as a constant.
-/

namespace SolvedForm

/-! ### Predefined symbols -/

/-- The truth values and operators, which scripts use without declaring them. -/
def Script.predefined : List String := "true" :: "false" :: Operator.all.map Operator.scriptName

open Script (predefined)

namespace SExpr

mutual

/-- The expression with the quoted symbols that are predefined as simple ones. -/
def unquoted : SExpr → SExpr
  | .word w => .word w
  | .quoted s => if s ∈ predefined then .word s else .quoted s
  | .list es => .list (unquotedAll es)
  termination_by structural e => e

/-- Several expressions with the quoted symbols that are predefined as simple ones. -/
def unquotedAll : List SExpr → List SExpr
  | [] => []
  | e :: es => unquoted e :: unquotedAll es
  termination_by structural es => es

end

lemma unquotedAll_eq_self {es : List SExpr} (h : ∀ e ∈ es, e.unquoted = e) :
    unquotedAll es = es := by
  induction es with
  | nil => rfl
  | cons e es ih =>
      rw [List.forall_mem_cons] at h
      rw [unquotedAll, h.1, ih h.2]

lemma unquoted_quoted {s : String} (h : s ∉ predefined) : (quoted s).unquoted = quoted s :=
  if_neg h

end SExpr

namespace Formula

/-- All symbols of the formula satisfy the condition, those of binders included. -/
inductive Over (p : String → Prop) : Formula → Prop where
  | symbol {name : String} : p name → Over p (.symbol name)
  | bool (b : Bool) : Over p (.bool b)
  | numeral (n : Nat) : Over p (.numeral n)
  | apply (o : Operator) {args : List Formula} : (∀ f ∈ args, Over p f) → Over p (.apply o args)
  | quantified {bs : List (String × ScriptSort)} {body : Formula} : (∀ b ∈ bs, p b.1) →
      Over p body → Over p (.quantified bs body)

variable {p q : String → Prop} {f : Formula} {fs : List Formula}

lemma Over.mono (h : f.Over p) (hpq : ∀ w, p w → q w) : f.Over q := by
  induction h with
  | symbol h => exact .symbol (hpq _ h)
  | bool b => exact .bool b
  | numeral n => exact .numeral n
  | apply o _ ih => exact .apply o ih
  | quantified hbs _ ih => exact .quantified (fun b hb => hpq _ (hbs b hb)) ih

lemma over_ofInt (i : Int) : (ofInt i).Over p := by
  unfold ofInt
  split
  · exact .apply _ (List.forall_mem_singleton.mpr (.numeral _))
  · exact .numeral _

lemma over_join {o : Operator} {b : Bool} (h : ∀ f ∈ fs, f.Over p) : (join o b fs).Over p := by
  match fs with
  | [] => exact .bool b
  | [f] => exact h f (List.mem_singleton_self f)
  | _ :: _ :: _ => exact .apply o h

/-- Where no symbol is predefined, nothing is read differently. -/
theorem Over.unquoted_sexpr (h : f.Over fun w => unquote w ∉ predefined) :
    f.sexpr.unquoted = f.sexpr := by
  induction h with
  | symbol h => exact SExpr.unquoted_quoted h
  | bool | numeral => rfl
  | apply o _ ih =>
      rw [sexpr, SExpr.unquoted, SExpr.unquotedAll, SExpr.unquoted, sexprs_eq_map,
        SExpr.unquotedAll_eq_self (by simpa using ih)]
  | @quantified bs body hbs _ ih =>
      have hbinders : SExpr.unquotedAll (bs.map binder) = bs.map binder := by
        refine SExpr.unquotedAll_eq_self (List.forall_mem_map.mpr fun b hb => ?_)
        simp only [binder, SExpr.unquoted, SExpr.unquotedAll, if_neg (hbs b hb)]
      simp only [sexpr, SExpr.unquoted, SExpr.unquotedAll, hbinders, ih]

end Formula

namespace Translating

open Formula

variable {ds ds' : List Declaration} {d : Declaration} {name : String} {x : Var} {n : Nat}

/-! ### Candidates -/

lemma tilde_not_mem_predefined {w : String} (h : w ∈ predefined) : '~' ∉ w.toList := by
  have hall : ∀ w ∈ predefined, '~' ∉ w.toList := by decide
  exact hall w h

/-- A name with a number is never predefined. -/
lemma unquote_candidate_mem_predefined :
    unquote (candidate name n) ∈ predefined ↔ n = 0 ∧ name ∈ predefined := by
  cases n with
  | zero => simp [candidate]
  | succ n =>
      have hquoted : candidate name (n + 1) = "|" ++ (name ++ "~" ++ toString (n + 1)) ++ "|" :=
        String.toList_injective (by simp [candidate])
      refine iff_of_false (fun h => tilde_not_mem_predefined h ?_) (by simp)
      rw [hquoted, unquote_quoted]
      simp

/-- A candidate of another name is not a predefined name between bars. -/
lemma candidate_eq_quoted {name' : String} (h : candidate name n = candidate name' 0)
    (hname' : name' ∈ predefined) : name = name' := by
  have hmem : unquote (candidate name n) ∈ predefined := by
    rw [h]
    exact unquote_candidate_mem_predefined.mpr ⟨rfl, hname'⟩
  obtain ⟨rfl, -⟩ := unquote_candidate_mem_predefined.mp hmem
  simpa [candidate] using congrArg unquote h

/-- The name between bars is preferred. -/
lemma freeSymbol_eq_quoted (h : ∀ d ∈ ds, d.symbol ≠ candidate name 0) :
    freeSymbol ds name = candidate name 0 := by
  have hfree : (!ds.any fun d => d.symbol == candidate name 0) = true := by simpa using h
  rw [freeSymbol, List.range_succ_eq_map, List.map_cons]
  simp only [List.find?_cons, hfree, Option.getD_some]

/-! ### Declarations in order -/

/-- The declarations have been made one after the other, each under a symbol free at its time. -/
inductive InOrder : List Declaration → Prop where
  | nil : InOrder []
  | declare {ds : List Declaration} (x : Var) (σ : ScriptSort) : InOrder ds →
      InOrder (ds ++ [⟨x, freeSymbol ds x.name, σ⟩])

lemma InOrder.symbol_eq (h : InOrder ds) (hd : d ∈ ds) :
    ∃ n, d.symbol = candidate d.var.name n := by
  induction h with
  | nil => cases hd
  | declare x σ _ ih =>
      rcases List.mem_append.mp hd with hd | hd
      · exact ih hd
      · obtain rfl := List.mem_singleton.mp hd
        exact (freeSymbol_spec _ _).1

/-- A symbol is predefined exactly when the name of its variable is, and no variable of that name
has been declared before. -/
theorem InOrder.predefined_iff (h : InOrder ds) (hd : d ∈ ds) : unquote d.symbol ∈ predefined ↔
    d.var.name ∈ predefined ∧ ds.find? (·.var.name = d.var.name) = some d := by
  induction h generalizing d with
  | nil => cases hd
  | @declare ds x σ h ih =>
      rw [List.find?_append]
      rcases List.mem_append.mp hd with hd | hd
      · -- the search ends within the earlier declarations
        obtain ⟨d', hd'⟩ : ∃ d', ds.find? (·.var.name = d.var.name) = some d' :=
          Option.ne_none_iff_exists'.mp fun hnone => by
            simpa using List.find?_eq_none.mp hnone d hd
        rw [ih hd, hd', Option.some_or]
      · obtain rfl := List.mem_singleton.mp hd
        obtain ⟨⟨n, hn⟩, hfree⟩ := freeSymbol_spec ds x.name
        have hlast : [(⟨x, freeSymbol ds x.name, σ⟩ : Declaration)].find?
            (·.var.name = x.name) = some ⟨x, freeSymbol ds x.name, σ⟩ := by simp
        simp only [hlast]
        constructor
        · intro hmem
          rw [hn] at hmem
          obtain ⟨rfl, hname⟩ := unquote_candidate_mem_predefined.mp hmem
          refine ⟨hname, ?_⟩
          -- the first variable of that name would have taken the symbol
          cases hfind : ds.find? (·.var.name = x.name) with
          | none => rfl
          | some d' =>
              have hd' := List.mem_of_find?_eq_some hfind
              have hx : d'.var.name = x.name := by simpa using List.find?_some hfind
              obtain ⟨m, hm⟩ := h.symbol_eq hd'
              have htaken := (ih hd').mpr ⟨hx ▸ hname, hx ▸ hfind⟩
              rw [hm] at htaken
              obtain ⟨rfl, -⟩ := unquote_candidate_mem_predefined.mp htaken
              exact absurd (hm.trans (hx ▸ hn.symm)) (hfree d' hd')
        · rintro ⟨hname, hfind⟩
          cases hearlier : ds.find? (·.var.name = x.name) with
          | some d' =>
              rw [hearlier, Option.some_or] at hfind
              exact absurd (congrArg Declaration.symbol (Option.some.inj hfind))
                (hfree d' (List.mem_of_find?_eq_some hearlier))
          | none =>
              have hquoted : freeSymbol ds x.name = candidate x.name 0 := by
                refine freeSymbol_eq_quoted fun d' hd' heq => ?_
                obtain ⟨m, hm⟩ := h.symbol_eq hd'
                have hx : d'.var.name = x.name := candidate_eq_quoted (hm ▸ heq) hname
                simpa [hx] using List.find?_eq_none.mp hearlier d' hd'
              rw [hquoted]
              exact unquote_candidate_mem_predefined.mpr ⟨rfl, hname⟩

/-! ### Translations that succeed -/

variable {α β : Type} {m : Translating α} {k : α → Translating β}
  {P : List Declaration → α → Prop} {R : α → List Declaration → β → Prop}

/-- Whenever the translation succeeds, it goes on declaring in order, and its result stands in a
relation to what is declared then. -/
def Yields (m : Translating α) (P : List Declaration → α → Prop) : Prop :=
  ∀ ⦃ds a ds'⦄, InOrder ds → m ds = .ok (a, ds') → InOrder ds' ∧ ds <+: ds' ∧ P ds' a

lemma yields_pure {a : α} (h : ∀ ds, P ds a) : Yields (pure a) P := by
  rintro ds b ds' hds ⟨⟩
  exact ⟨hds, List.prefix_rfl, h ds⟩

lemma yields_throw (e : Untranslatable) : Yields (throw e : Translating α) P := by
  rintro ds b ds' hds ⟨⟩

/-- A translation after another one. -/
lemma Yields.bind (h : Yields m P) (hP : Persistent P) (hk : ∀ a, Yields (k a) (R a)) :
    Yields (m >>= k) fun ds b => ∃ a, P ds a ∧ R a ds b := by
  intro ds b ds₂ hds hrun
  change (m ds >>= fun r => k r.1 r.2) = .ok (b, ds₂) at hrun
  cases hm : m ds with
  | error e =>
      rw [hm] at hrun
      cases hrun
  | ok r =>
      obtain ⟨a, ds₁⟩ := r
      rw [hm] at hrun
      obtain ⟨hds₁, hpre, ha⟩ := h hds hm
      obtain ⟨hds₂, hpre', hb⟩ := hk a hds₁ hrun
      exact ⟨hds₂, hpre.trans hpre', a, hP hpre' ha, hb⟩

lemma Yields.mono {P' : List Declaration → α → Prop} (h : Yields m P)
    (hP : ∀ ds a, P ds a → P' ds a) : Yields m P' := fun _ _ _ hds hrun =>
  let ⟨hds', hpre, ha⟩ := h hds hrun
  ⟨hds', hpre, hP _ _ ha⟩

/-- All symbols of the formula are declared. -/
def Closed (ds : List Declaration) (f : Formula) : Prop := f.Over fun w => ∃ d ∈ ds, d.symbol = w

/-- All symbols of the formulas are declared. -/
def AllClosed (ds : List Declaration) (fs : List Formula) : Prop := ∀ f ∈ fs, Closed ds f

lemma persistent_closed : Persistent Closed := fun _ _ _ hpre h =>
  h.mono fun _ ⟨d, hd, hw⟩ => ⟨d, hpre.subset hd, hw⟩

lemma persistent_allClosed : Persistent AllClosed := fun _ _ _ hpre h f hf =>
  persistent_closed hpre (h f hf)

/-- Formulas of which one comes from a first translation and the others from a second one. -/
lemma Yields.cons {m : Translating Formula} {ms : Translating (List Formula)}
    (h : Yields m Closed) (hs : Yields ms AllClosed) : Yields (do
      let f ← m
      let fs ← ms
      return f :: fs) AllClosed := by
  have hrest : ∀ f, Yields (ms >>= fun fs => pure (f :: fs)) fun ds gs =>
      ∃ fs, AllClosed ds fs ∧ gs = f :: fs := fun f =>
    hs.bind persistent_allClosed fun _ => yields_pure fun _ => rfl
  refine (h.bind persistent_closed hrest).mono ?_
  rintro ds _ ⟨f, hf, fs, hfs, rfl⟩
  exact List.forall_mem_cons.mpr ⟨hf, hfs⟩

/-- Formulas of one translation followed by those of another one. -/
lemma Yields.append {ms ms' : Translating (List Formula)} (h : Yields ms AllClosed)
    (h' : Yields ms' AllClosed) : Yields (do
      let fs ← ms
      let gs ← ms'
      return fs ++ gs) AllClosed := by
  have hrest : ∀ fs, Yields (ms' >>= fun gs => pure (fs ++ gs)) fun ds hs =>
      ∃ gs, AllClosed ds gs ∧ hs = fs ++ gs := fun fs =>
    h'.bind persistent_allClosed fun _ => yields_pure fun _ => rfl
  refine (h.bind persistent_allClosed hrest).mono ?_
  rintro ds _ ⟨fs, hfs, gs, hgs, rfl⟩
  exact List.forall_mem_append.mpr ⟨hfs, hgs⟩

/-- A formula made of formulas with symbols that are declared. -/
lemma Yields.make {ms : Translating (List Formula)} (hs : Yields ms AllClosed)
    (g : List Formula → Formula) (hg : ∀ ds fs, AllClosed ds fs → Closed ds (g fs)) :
    Yields (ms >>= fun fs => pure (g fs)) Closed := by
  refine (hs.bind (R := fun fs _ f => f = g fs) persistent_allClosed
    fun _ => yields_pure fun _ => rfl).mono ?_
  rintro ds _ ⟨fs, hfs, rfl⟩
  exact hg ds fs hfs

lemma yields_mapM {as : List α} {g : α → Translating Formula} (hg : ∀ a ∈ as, Yields (g a) Closed) :
    Yields (as.mapM g) AllClosed := by
  induction as with
  | nil =>
      rw [List.mapM_nil]
      exact yields_pure fun _ => by simp [AllClosed]
  | cons a as ih =>
      rw [List.forall_mem_cons] at hg
      rw [List.mapM_cons]
      exact hg.1.cons (ih hg.2)

/-- A variable without a sort of scripts, or with a name that cannot be quoted, is refused. -/
lemma exists_symbolOf_eq_throw (h : (Term.var x).scriptSort? = none) :
    ∃ e, symbolOf x = throw e := by
  unfold symbolOf
  split
  · exact ⟨_, rfl⟩
  · next σ hσ =>
      have hguard : (x.name.contains '|' || x.name.contains '\\') = true := by
        by_contra hplain
        rw [String.contains_char_eq, String.contains_char_eq] at hplain
        rw [Term.scriptSort?, if_neg (by simpa using hplain)] at h
        exact Option.some_ne_none σ (hσ.symm.trans h)
      rw [if_pos hguard]
      exact ⟨_, rfl⟩

/-- The symbol of a variable has been declared before, or is declared then. -/
lemma yields_symbolOf (x : Var) : Yields (symbolOf x) Closed := by
  cases hσ : (Term.var x).scriptSort? with
  | none =>
      obtain ⟨e, he⟩ := exists_symbolOf_eq_throw hσ
      exact he ▸ yields_throw e
  | some σ =>
      intro ds f ds' hds hrun
      rw [symbolOf_eq hσ] at hrun
      cases hfind : ds.find? (·.var = x) with
      | some d =>
          rw [hfind] at hrun
          cases hrun
          exact ⟨hds, List.prefix_rfl, .symbol ⟨d, List.mem_of_find?_eq_some hfind, rfl⟩⟩
      | none =>
          rw [hfind] at hrun
          cases hrun
          exact ⟨hds.declare x σ, List.prefix_append _ _,
            .symbol ⟨_, List.mem_append_right ds (List.mem_singleton_self _), rfl⟩⟩

/-- Whatever a term is translated to has declared symbols, also where an operator has a wrong number
of arguments. -/
lemma yields_term (t : Term) : Yields (term t) Closed := by
  induction t using Term.ind with
  | var x => exact yields_symbolOf x
  | bool b => exact yields_pure fun _ => .bool b
  | int i => exact yields_pure fun _ => over_ofInt i.toInt
  | app f args ih =>
      have hargs : Yields (terms args) AllClosed := by
        induction args with
        | nil => exact yields_pure fun _ => by simp [AllClosed]
        | cons t ts ihs =>
            rw [List.forall_mem_cons] at ih
            exact ih.1.cons (ihs ih.2)
      rw [term]
      split
      · exact yields_throw _
      · split
        · exact yields_throw _
        · next o _ => exact hargs.make (.apply o) fun _ _ hfs => .apply o hfs
  | map entries frame _ => exact yields_throw _
  | lookup m k _ _ => exact yields_throw _

lemma yields_equation (e : Equation) : Yields (equation e) Closed := by
  have hrun : equation e = [e.left, e.right].mapM term >>= fun fs => pure (.apply .eq fs) := by
    simp [equation]
  rw [hrun]
  exact (yields_mapM fun t _ => yields_term t).make (.apply .eq) fun _ _ hfs => .apply .eq hfs

mutual

/-- Whatever a constraint is translated to has declared symbols. -/
theorem yields_constraint : ∀ c : Constraint, Yields (constraint c) Closed
  | ⟨E, _, σ, v, _, _, _, D⟩ => by
      have hes : Yields (E.toList.mapM equation) AllClosed :=
        yields_mapM fun e _ => yields_equation e
      have hbs : Yields (σ.toList.mapM fun b => equation ⟨.var b.1, b.2⟩) AllClosed :=
        yields_mapM fun b _ => yields_equation _
      have hall := ((hes.append hbs).append (yields_disjunctions D)).make (.join .conj true)
        fun _ _ hfs => over_join hfs
      rw [constraint]
      split
      · exact yields_pure fun _ => .bool false
      · simpa only [bind_assoc, pure_bind] using hall
  termination_by structural c => c

lemma yields_disjunctions : ∀ D : List (List Constraint), Yields (disjunctions D) AllClosed
  | [] => yields_pure fun _ => by simp [AllClosed]
  | C :: D => by
      have hC := (yields_alternatives C).make (.join .disj false) fun _ _ hfs => over_join hfs
      rw [disjunctions]
      simpa only [bind_assoc, pure_bind] using hC.cons (yields_disjunctions D)
  termination_by structural D => D

lemma yields_alternatives : ∀ cs : List Constraint, Yields (alternatives cs) AllClosed
  | [] => yields_pure fun _ => by simp [AllClosed]
  | c :: cs => (yields_constraint c).cons (yields_alternatives cs)
  termination_by structural cs => cs

end

end Translating

/-! ### Scripts -/

namespace Script

open Formula Translating

lemma exists_of_ofConstraint {c : Constraint} {s : Script} (h : Script.ofConstraint c = .ok s) :
    ∃ f ds, Translating.constraint c [] = .ok (f, ds) ∧ s = ⟨ds, [f]⟩ := by
  change (Translating.constraint c [] >>= fun r => pure ⟨r.2, [r.1]⟩) = Except.ok s at h
  cases hrun : Translating.constraint c [] with
  | error e =>
      rw [hrun] at h
      cases h
  | ok r =>
      rw [hrun] at h
      cases h
      exact ⟨r.1, r.2, rfl, rfl⟩

/-- In a script for a constraint, a symbol is predefined exactly when it stands for the first of the
variables with a predefined name. All symbols of its assertions are declared ones, so that without
such variables nothing is read as a truth value or an operator. -/
theorem predefined_iff_of_ofConstraint {c : Constraint} {s : Script}
    (h : Script.ofConstraint c = .ok s) :
    (∀ d ∈ s.declarations, unquote d.symbol ∈ predefined ↔ d.var.name ∈ predefined ∧
      s.declarations.find? (·.var.name = d.var.name) = some d) ∧
    (∀ f ∈ s.assertions, f.Over fun w => ∃ d ∈ s.declarations, d.symbol = w) ∧
    ((∀ d ∈ s.declarations, d.var.name ∉ predefined) →
      ∀ f ∈ s.assertions, f.sexpr.unquoted = f.sexpr) := by
  obtain ⟨f, ds, hrun, rfl⟩ := exists_of_ofConstraint h
  obtain ⟨hds, -, hf⟩ := yields_constraint c .nil hrun
  refine ⟨fun d hd => hds.predefined_iff hd, List.forall_mem_singleton.mpr hf, fun hnames =>
    List.forall_mem_singleton.mpr (Over.unquoted_sexpr (hf.mono ?_))⟩
  rintro _ ⟨d, hd, rfl⟩ hmem
  exact hnames d hd ((hds.predefined_iff hd).mp hmem).1

/-- Of two variables with a predefined name, only the first one is taken for a truth value. -/
theorem predefined_iff_of_ofConstraint_suffix :
    let number : Var := ⟨"true", .int, false, none⟩
    let flag : Var := ⟨"true", .bool, false, none⟩
    let c : Constraint := { store := .ofList [(number, .int 1), (flag, .bool false)] }
    ∃ s, Script.ofConstraint c = .ok s ∧
      s.declarations.map (·.symbol) = ["|true|", "|true~1|"] ∧
      ∀ d ∈ s.declarations, unquote d.symbol ∈ predefined ↔ d.var.name ∈ predefined ∧
        s.declarations.find? (·.var.name = d.var.name) = some d := by
  intro number flag c
  let s : Script := ⟨[⟨number, "|true|", .int⟩, ⟨flag, "|true~1|", .bool⟩], [.apply .conj [
    .apply .eq [.symbol "|true|", .numeral 1], .apply .eq [.symbol "|true~1|", .bool false]]]⟩
  have hs : Script.ofConstraint c = .ok s := by cbv
  exact ⟨s, hs, rfl, (predefined_iff_of_ofConstraint hs).1⟩

/-- A variable gets the symbol of a truth value: the constraint holds when the variable is false,
but when the symbol is read as the truth value the assertion is false whatever the values. -/
theorem ofConstraint_captures :
    let x : Var := ⟨"true", .bool, false, none⟩
    let c : Constraint := { store := .single x (.bool false) }
    let s : Script := ⟨[⟨x, "|true|", .bool⟩], [.apply .eq [.symbol "|true|", .bool false]]⟩
    Constraint.empty.add (.standard Subsorts.builtin.order) ⟨.var x, .bool false⟩ = .ok c ∧
      Script.ofConstraint c = .ok s ∧ unquote "|true|" ∈ predefined ∧
      c.HoldsUnder (fun _ => .bool false) ∧ s.problem.Holds (fun _ => .bool false) ∧
      ∀ f ∈ s.assertions, ∀ env, f.sexpr.unquoted.meaning env = some (.bool false) := by
  intro x c s
  have hname : unquote "|true|" = "true" := by decide
  refine ⟨by cbv, by cbv, by decide, ?_, ?_, ?_⟩
  · rw [Constraint.holdsUnder_iff rfl]
    exact ⟨by simp [c, EquationSet.empty], List.forall_mem_singleton.mpr ⟨.bool false, rfl, rfl⟩,
      by simp [c]⟩
  · have hx : SExpr.meaning (.quoted "true") (s.problem.env fun _ => .bool false) =
        some (.bool false) := by
      simp [SExpr.meaning, Problem.env, problem, s, introduced, hname]
    have hvalues : List.Forall₂
        (fun (e : SExpr) v => e.meaning (s.problem.env fun _ => .bool false) = some v)
        [.quoted "true", .word "false"] [.bool false, .bool false] := .cons hx (.cons rfl .nil)
    refine List.forall_mem_singleton.mpr ?_
    rw [sexpr, sexprs, sexprs, sexprs, sexpr, sexpr, hname]
    exact SExpr.meaning_operation (by decide) hvalues
  · refine List.forall_mem_singleton.mpr fun env => ?_
    have hread : (Formula.apply .eq [.symbol "|true|", .bool false]).sexpr.unquoted =
        .list [.word "=", .word "true", .word "false"] := by
      have hmem : "true" ∈ predefined := by decide
      simp [sexpr, sexprs, SExpr.unquoted, SExpr.unquotedAll, hname, hmem, Operator.scriptName]
    have hvalues : List.Forall₂ (fun (e : SExpr) v => e.meaning env = some v)
        [.word "true", .word "false"] [.bool true, .bool false] := .cons rfl (.cons rfl .nil)
    rw [hread]
    exact SExpr.meaning_operation (by decide) hvalues

end Script

end SolvedForm

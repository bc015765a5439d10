import SolvedForm.Proofs.Solver.Quantification

/-!
The script for an implication means the implication.

* `Constraint.Chosen`: the variables that are quantified.
* `Constraint.FailsToImply`: the premise holds and the conclusion does not, whatever values the
  chosen variables get.
* `Problem.Names`: each variable has a symbol of its own, which is introduced once, as a binder for
  a variable that is quantified and as a constant for any other one.
* `Script.ofImplication_means`: the script exists, and values for its constants make its assertions
  true when the implication fails under them.
-/

namespace SolvedForm

open SExpr

/-! ### Implications -/

/-- Only the conclusion mentions the variable, and it is one of those that may be chosen. -/
def Constraint.Chosen (left right : Constraint) (only : List Var) (x : Var) : Prop :=
  x ∈ only ∧ ¬left.Involves x ∧ right.Involves x

/-- The premise holds under the values, and the conclusion does not, whatever other values of their
sorts the chosen variables get. -/
def Constraint.FailsToImply (left right : Constraint) (only : List Var) (ν : Var → ScriptValue) :
    Prop :=
  left.HoldsUnder ν ∧
    ¬∃ ν' : Var → ScriptValue, (∀ x, ¬left.Chosen right only x → ν' x = ν x) ∧
      (∀ x, left.Chosen right only x → (ν' x).sort.name = x.sort) ∧ right.HoldsUnder ν'

/-- Each variable that a premise or a conclusion mentions has a symbol of its own, with its sort.
Each symbol is introduced once, as a binder for a chosen variable and as a constant for any other
one, and no other symbols are introduced. -/
structure Problem.Names (p : Problem) (left right : Constraint) (only : List Var)
    (symbol : Var → String) : Prop where
  injective : ∀ x y, left.Involves x ∨ right.Involves x → left.Involves y ∨ right.Involves y →
    symbol x = symbol y → x = y
  nodup : ((p.constants ++ p.binders).map (·.1)).Nodup
  binders : ∀ s σ, (s, σ) ∈ p.binders ↔
    ∃ x, left.Chosen right only x ∧ symbol x = s ∧ x.sort = σ.name
  constants : ∀ s σ, (s, σ) ∈ p.constants ↔
    ∃ x, (left.Involves x ∨ right.Involves x) ∧ ¬left.Chosen right only x ∧ symbol x = s ∧
      x.sort = σ.name

/-! ### The script -/

namespace Script

open Formula Translating

/-- The declaration is that of a chosen variable. -/
def chosen (only : List Var) (shared : List Declaration) (d : Declaration) : Bool :=
  only.contains d.var && !shared.any (·.var = d.var)

/-- The script that is made of a premise and a conclusion that have been translated. -/
def implication (only : List Var) (shared ds : List Declaration) (premise conclusion : Formula) :
    Script where
  declarations := ds.filter fun d => !chosen only shared d
  assertions := [premise, .apply .neg [quantify (ds.filter (chosen only shared)) conclusion]]

/-- The formulas of a premise and a conclusion, with what is declared after each of them. -/
structure Translated (left right : Constraint) (shared ds : List Declaration)
    (premise conclusion : Formula) : Prop where
  left_eq : constraint left [] = .ok (premise, shared)
  right_eq : constraint right shared = .ok (conclusion, ds)
  declared : Declared ds
  subset : shared ⊆ ds
  mem_shared : ∀ x, x ∈ shared.map (·.var) ↔ left.Involves x
  mem : ∀ x, x ∈ ds.map (·.var) ↔ left.Involves x ∨ right.Involves x
  premise_means : Says (fun ν => left.HoldsUnder ν) shared premise
  conclusion_means : Says (fun ν => right.HoldsUnder ν) ds conclusion

variable {left right : Constraint} {only : List Var} {shared ds : List Declaration}
  {premise conclusion : Formula} {symbol : Var → String} {A : String → ScriptValue}

lemma exists_translated (hl : left.Translatable) (hr : right.Translatable) :
    ∃ shared ds premise conclusion, Translated left right shared ds premise conclusion := by
  obtain ⟨premise, shared, hleft, hshared, -, hmem, hpremise⟩ :=
    declares_constraint hl [] declared_nil
  obtain ⟨conclusion, ds, hright, hds, hpre, hmem', hconclusion⟩ :=
    declares_constraint hr shared hshared
  have hmem : ∀ x, x ∈ shared.map (·.var) ↔ left.Involves x := by simpa using hmem
  refine ⟨shared, ds, premise, conclusion, hleft, hright, hds, hpre.subset, hmem, fun x => ?_,
    hpremise, hconclusion⟩
  rw [hmem', hmem]

lemma constants_implication : (implication only shared ds premise conclusion).problem.constants =
    (ds.filter fun d => !chosen only shared d).map introduced := rfl

/-- Values for the constants are values for the variables that are not chosen. -/
lemma assigned (hA : (implication only shared ds premise conclusion).problem.Assigns A) :
    Assigned ds (chosen only shared)
      ((implication only shared ds premise conclusion).problem.env A) A := by
  intro d hd hchosen
  have hconstant : introduced d ∈
      (implication only shared ds premise conclusion).problem.constants :=
    List.mem_map_of_mem (List.mem_filter.mpr ⟨hd, by simp [hchosen]⟩)
  refine ⟨?_, hA _ hconstant⟩
  rw [Problem.env, if_pos]
  rw [List.any_eq_true]
  exact ⟨_, hconstant, decide_eq_true rfl⟩

namespace Translated

variable (h : Translated left right shared ds premise conclusion)

include h

lemma ofImplication_eq :
    ofImplication left right only = .ok (implication only shared ds premise conclusion) := by
  unfold ofImplication
  simp only [StateT.run, h.left_eq, h.right_eq, Bind.bind, Except.bind]
  rfl

lemma chosen_iff {d : Declaration} (hd : d ∈ ds) :
    chosen only shared d = true ↔ left.Chosen right only d.var := by
  have hleft : shared.any (·.var = d.var) = true ↔ left.Involves d.var := by
    rw [List.any_eq_true, ← h.mem_shared, List.mem_map]
    simp only [decide_eq_true_iff]
  have hmem := (h.mem d.var).mp (List.mem_map_of_mem hd)
  rw [chosen, Bool.and_eq_true, Bool.not_eq_true', ← Bool.not_eq_true, hleft, List.contains_iff_mem]
  exact ⟨fun ⟨ho, hl⟩ => ⟨ho, hl, hmem.resolve_left hl⟩, fun ⟨ho, hl, _⟩ => ⟨ho, hl⟩⟩

lemma not_chosen_iff {d : Declaration} (hd : d ∈ ds) :
    (!chosen only shared d) = true ↔ ¬left.Chosen right only d.var := by
  rw [Bool.not_eq_true', ← Bool.not_eq_true, h.chosen_iff hd]

lemma read_render : Problem.read (implication only shared ds premise conclusion).render =
    some (implication only shared ds premise conclusion).problem := by
  have hquoted : ∀ {p : Declaration → Bool}, ∀ d ∈ ds.filter p, IsSymbol d.symbol :=
    fun d hd => h.declared.quoted d (List.mem_of_mem_filter hd)
  refine Script.read_render hquoted ?_
  rw [implication, List.forall_mem_cons, List.forall_mem_singleton]
  refine ⟨h.premise_means.readable, .apply .neg ?_⟩
  rw [List.forall_mem_singleton]
  exact readable_quantify hquoted h.conclusion_means.readable

lemma binders_eq : (implication only shared ds premise conclusion).problem.binders =
    (ds.filter (chosen only shared)).map introduced := by
  have hneg : ∀ f : Formula, (Formula.apply .neg [f]).sexpr.binders = f.sexpr.binders :=
    fun f => List.append_nil _
  rw [Problem.binders, problem, implication, List.map_cons, List.map_singleton, List.flatMap_cons,
    List.flatMap_singleton, h.premise_means.binders, List.nil_append, hneg,
    binders_quantify h.conclusion_means.binders]

/-- The symbols of the script. -/
lemma names (hsymbol : ∀ d ∈ ds, symbol d.var = unquote d.symbol) :
    (implication only shared ds premise conclusion).problem.Names left right only symbol where
  injective x y hx hy hxy := by
    obtain ⟨d, hd, rfl⟩ := List.mem_map.mp ((h.mem x).mpr hx)
    obtain ⟨e, he, rfl⟩ := List.mem_map.mp ((h.mem y).mpr hy)
    rw [hsymbol d hd, hsymbol e he] at hxy
    rw [h.declared.eq_of_unquote hd he hxy]
  nodup := by
    have hnodup : (ds.map fun d => (introduced d).1).Nodup :=
      (List.Nodup.of_map _ h.declared.vars).map_on fun d hd e he => h.declared.eq_of_unquote hd he
    -- constants and binders together are all that is declared
    have hperm := (List.perm_append_comm.trans
      (List.filter_append_perm (chosen only shared) ds)).map fun d => (introduced d).1
    rw [h.binders_eq, constants_implication, ← List.map_append, List.map_map]
    exact hperm.nodup_iff.mpr hnodup
  binders s σ := by
    rw [h.binders_eq, h.declared.mem_introduced hsymbol fun d hd => h.chosen_iff hd]
    refine exists_congr fun x => and_iff_right_of_imp fun hx => ?_
    exact (h.mem x).mpr (.inr hx.1.2.2)
  constants s σ := by
    rw [constants_implication,
      h.declared.mem_introduced (C := fun x => ¬left.Chosen right only x) hsymbol
        fun d hd => h.not_chosen_iff hd]
    exact exists_congr fun x => by rw [h.mem]

/-- Values for the constants are values for all variables of the premise. -/
lemma agrees (hsymbol : ∀ d ∈ ds, symbol d.var = unquote d.symbol)
    (hA : (implication only shared ds premise conclusion).problem.Assigns A) :
    Agrees shared ((implication only shared ds premise conclusion).problem.env A)
      (A ∘ symbol) := by
  intro d hd
  have hnot : ¬left.Chosen right only d.var :=
    fun hchosen => hchosen.2.1 ((h.mem_shared _).mp (List.mem_map_of_mem hd))
  rw [← h.chosen_iff (h.subset hd), Bool.not_eq_true] at hnot
  rw [Function.comp_apply, hsymbol d (h.subset hd)]
  exact assigned hA d (h.subset hd) hnot

/-- The meaning of the script. -/
lemma holds_iff (hsymbol : ∀ d ∈ ds, symbol d.var = unquote d.symbol)
    (hA : (implication only shared ds premise conclusion).problem.Assigns A) :
    (implication only shared ds premise conclusion).problem.Holds A ↔
      left.FailsToImply right only (A ∘ symbol) := by
  obtain ⟨_, hpremise, b, rfl, hb⟩ := h.premise_means.value _ _ (h.agrees hsymbol hA)
  obtain ⟨c, hquantify, hc⟩ := h.declared.meaning_quantify hsymbol
    (fun d hd => h.chosen_iff hd) (fun x hx => (h.mem x).mpr (.inr hx.2.2)) (assigned hA)
    h.conclusion_means
  have hconclusion := meaning_operation (w := "not") (by decide) (.cons hquantify .nil)
  refine Iff.trans ?_ (and_congr hb (not_congr hc))
  calc (implication only shared ds premise conclusion).problem.Holds A
      ↔ some (ScriptValue.bool b) = some (.bool true) ∧
          operation "not" [.bool c] = some (.bool true) := by
        rw [← hpremise, ← hconclusion]
        exact List.forall_mem_cons.trans (and_congr_right' List.forall_mem_singleton)
    _ ↔ b = true ∧ ¬c = true := by
        cases b <;> cases c <;> decide

end Translated

/-- The script for an implication exists, and it means the implication: values for its constants
make its two assertions true when the premise holds under them and no values for the chosen
variables make the conclusion hold. -/
theorem ofImplication_means (hl : left.Translatable) (hr : right.Translatable) (only : List Var) :
    ∃ s p symbol, ofImplication left right only = .ok s ∧ Problem.read s.render = some p ∧
      p.assertions.length = 2 ∧ p.Names left right only symbol ∧
      ∀ A, p.Assigns A → (p.Holds A ↔ left.FailsToImply right only (A ∘ symbol)) := by
  obtain ⟨shared, ds, premise, conclusion, h⟩ := exists_translated hl hr
  obtain ⟨symbol, hsymbol⟩ := h.declared.exists_symbol
  exact ⟨implication only shared ds premise conclusion, _, symbol, h.ofImplication_eq,
    h.read_render, rfl, h.names hsymbol, fun A hA => h.holds_iff hsymbol hA⟩

/-- A flag and a number may have the same name, and another number the name that would tell them
apart. -/
theorem ofImplication_means_collision :
    let x : Var := ⟨"X", .int, false, none⟩
    let y : Var := ⟨"X~1", .int, false, none⟩
    let flag : Var := ⟨"X", .bool, false, none⟩
    let less (s t : Term) : Term := .app ⟨"_<Int_", 2, some .bool, .function⟩ [s, t]
    let left : Constraint :=
      { equations := .ofList [⟨less (.var x) (.int (-3)), .bool true⟩], truth := .unknown }
    let right : Constraint :=
      { store := Substitution.empty.insert y (.var x), truth := .unknown
        pending := [[{ store := Substitution.empty.insert flag (.bool true) },
          { equations := .ofList [⟨less (.var y) (.var x), .var flag⟩], truth := .unknown }]] }
    left.Translatable ∧ right.Translatable ∧
      ∃ s p symbol, ofImplication left right [flag, x] = .ok s ∧ Problem.read s.render = some p ∧
        p.assertions.length = 2 ∧ p.Names left right [flag, x] symbol ∧
        ∀ A, p.Assigns A → (p.Holds A ↔ left.FailsToImply right [flag, x] (A ∘ symbol)) := by
  intro x y flag less left right
  have hl : left.Translatable := .intro rfl (by decide) (by decide) (by simp [left])
  have hr : right.Translatable := by
    refine .intro rfl (by decide) (by decide) ?_
    simp only [right, List.forall_mem_singleton, List.forall_mem_cons]
    exact ⟨.intro rfl (by decide) (by decide) (by simp),
      .intro rfl (by decide) (by decide) (by simp)⟩
  exact ⟨hl, hr, ofImplication_means hl hr [flag, x]⟩

end Script

end SolvedForm

import SolvedForm.Proofs.Solver.Semantics
import Std.Data.String.ToNat

/-!
Scripts are read as they were written.

* `Formula.sexpr`: the S-expression that a formula is written as.
* `Formula.IsSymbol`, `Formula.Readable`: names between bars, and formulas with such names only.
* `Formula.Readable.spells`: the text of such a formula is read as its S-expression.
* `Script.problem`, `Script.read_render`: the text of a script with such formulas poses the problem
  that the script stands for.
-/

namespace SolvedForm

open SExpr

namespace Formula

/-- The name without its bars. -/
def unquote (name : String) : String := .ofList name.toList.tail.dropLast

/-- The name is a symbol between bars. -/
def IsSymbol (name : String) : Prop :=
  ∃ s, name = "|" ++ s ++ "|" ∧ ∀ c ∈ s.toList, c ≠ '|' ∧ c ≠ '\\'

@[simp] lemma unquote_quoted (s : String) : unquote ("|" ++ s ++ "|") = s := by
  simp [unquote]

lemma IsSymbol.spells {name : String} (h : IsSymbol name) :
    Spells name (.quoted (unquote name)) := by
  obtain ⟨s, rfl, hs⟩ := h
  rw [unquote_quoted]
  exact spells_quoted hs

/-- Symbols with the same name without bars are the same. -/
lemma IsSymbol.eq_of_unquote {m n : String} (hm : IsSymbol m) (hn : IsSymbol n)
    (h : unquote m = unquote n) : m = n := by
  obtain ⟨s, rfl, -⟩ := hm
  obtain ⟨t, rfl, -⟩ := hn
  rw [unquote_quoted, unquote_quoted] at h
  rw [h]

/-- The symbol without bars and the sort that a declaration introduces. -/
def introduced (d : Declaration) : String × ScriptSort := (unquote d.symbol, d.sort)

/-- The S-expression of a binder. -/
def binder (b : String × ScriptSort) : SExpr := .list [.quoted (unquote b.1), .word b.2.render]

mutual

/-- The S-expression that a formula is written as. -/
def sexpr : Formula → SExpr
  | .symbol name => .quoted (unquote name)
  | .bool b => .word (if b then "true" else "false")
  | .numeral n => .word (toString n)
  | .apply o args => .list (.word o.scriptName :: sexprs args)
  | .quantified bs body => .list [.word "exists", .list (bs.map binder), sexpr body]
  termination_by structural f => f

/-- The S-expressions that several formulas are written as. -/
def sexprs : List Formula → List SExpr
  | [] => []
  | f :: fs => sexpr f :: sexprs fs
  termination_by structural fs => fs

end

/-- All names in the formula are symbols between bars. -/
inductive Readable : Formula → Prop where
  | symbol {name : String} : IsSymbol name → Readable (.symbol name)
  | bool (b : Bool) : Readable (.bool b)
  | numeral (n : Nat) : Readable (.numeral n)
  | apply (o : Operator) {args : List Formula} : (∀ f ∈ args, Readable f) →
      Readable (.apply o args)
  | quantified {bs : List (String × ScriptSort)} {body : Formula} : (∀ b ∈ bs, IsSymbol b.1) →
      Readable body → Readable (.quantified bs body)

variable {f : Formula} {args : List Formula}

lemma sexprs_eq_map (fs : List Formula) : sexprs fs = fs.map sexpr := by
  induction fs with
  | nil => rfl
  | cons f fs ih => rw [sexprs, ih, List.map_cons]

lemma renderAll_eq_map (fs : List Formula) : renderAll fs = fs.map render := by
  induction fs with
  | nil => rfl
  | cons f fs ih => rw [renderAll, ih, List.map_cons]

/-! ### Words -/

lemma sort?_render (σ : ScriptSort) : sort? σ.render = some σ := by
  cases σ <;> rfl

lemma spells_sort (σ : ScriptSort) : Spells σ.render (.word σ.render) := by
  cases σ <;> exact spells_word (by decide) (by decide)

lemma spells_scriptName (o : Operator) : Spells o.scriptName (.word o.scriptName) := by
  cases o <;> exact spells_word (by decide) (by decide)

lemma isDigit_of_mem_toString {n : Nat} {c : Char} (hc : c ∈ (toString n).toList) :
    c.isDigit = true :=
  Nat.isDigit_of_mem_toDigits (by omega) (by omega) (Nat.toList_repr ▸ hc)

lemma spells_numeral (n : Nat) : Spells (toString n) (.word (toString n)) := by
  refine spells_word Nat.repr_ne_empty (List.any_eq_false.mpr fun c hc hdelimiter => ?_)
  have hdigit := isDigit_of_mem_toString hc
  simp only [isDelimiter, isBlank, Bool.or_eq_true, decide_eq_true_eq] at hdelimiter
  rcases hdelimiter with ((rfl | rfl) | rfl) | ((rfl | rfl) | rfl) | rfl <;>
    exact absurd hdigit (by decide)

/-! ### Formulas -/

lemma spells_binder {b : String × ScriptSort} (hb : IsSymbol b.1) :
    Spells ("(" ++ b.1 ++ " " ++ b.2.render ++ ")") (binder b) := by
  have h := spells_list hb.spells (.cons (spells_sort b.2) .nil)
  rwa [String.intercalate_singleton] at h

/-- The text of a readable formula is read as its S-expression. -/
theorem Readable.spells (h : f.Readable) : Spells f.render f.sexpr := by
  induction h with
  | symbol h => exact h.spells
  | bool b => cases b <;> exact spells_word (by decide) (by decide)
  | numeral n => exact spells_numeral n
  | apply o _ ih =>
      rw [render, sexpr, renderAll_eq_map, sexprs_eq_map]
      refine spells_list (spells_scriptName o) ?_
      rw [List.forall₂_map_left_iff, List.forall₂_map_right_iff, List.forall₂_same]
      exact ih
  | @quantified bs body hbs _ ih =>
      have hbinders : Spells
          ("(" ++ " ".intercalate (bs.map fun b => "(" ++ b.1 ++ " " ++ b.2.render ++ ")") ++ ")")
          (.list (bs.map binder)) := by
        refine spells_items ?_
        rw [List.forall₂_map_left_iff, List.forall₂_map_right_iff, List.forall₂_same]
        exact fun b hb => spells_binder (hbs b hb)
      have hexists : Spells "exists" (.word "exists") := spells_word (by decide) (by decide)
      have h := spells_list hexists (.cons hbinders (.cons ih .nil))
      have htext : ∀ parts : String, "(exists (" ++ parts ++ ") " ++ body.render ++ ")" =
          "(" ++ "exists" ++ " " ++ " ".intercalate ["(" ++ parts ++ ")", body.render] ++ ")" :=
        fun parts => String.toList_injective (by simp)
      rw [render, sexpr, htext]
      exact h

end Formula

/-! ### Scripts -/

namespace Script

open Formula

/-- The problem that a script stands for. -/
def problem (s : Script) : Problem where
  constants := s.declarations.map introduced
  assertions := s.assertions.map Formula.sexpr

/-- The commands of a script. -/
def commands (s : Script) : List SExpr :=
  s.declarations.map (fun d =>
    .list [.word "declare-const", .quoted (unquote d.symbol), .word d.sort.render]) ++
  s.assertions.map (fun f => .list [.word "assert", f.sexpr]) ++ [.list [.word "check-sat"]]

lemma ofCommands_commands (s : Script) : Problem.ofCommands s.commands = some s.problem := by
  have assertions : ∀ fs : List Formula, Problem.readAssertions
      (fs.map (fun f => .list [.word "assert", f.sexpr]) ++ [.list [.word "check-sat"]]) =
        some (fs.map Formula.sexpr) := by
    intro fs
    induction fs with
    | nil => rfl
    | cons f fs ih =>
        rw [List.map_cons, List.cons_append, Problem.readAssertions, ih]
        rfl
  have constants : ∀ ds : List Declaration, Problem.ofCommands
      (ds.map (fun d => .list [.word "declare-const", .quoted (unquote d.symbol),
          .word d.sort.render]) ++
        (s.assertions.map (fun f => .list [.word "assert", f.sexpr]) ++
          [.list [.word "check-sat"]])) =
        some ⟨ds.map introduced, s.assertions.map Formula.sexpr⟩ := by
    intro ds
    induction ds with
    | nil =>
        rw [List.map_nil, List.nil_append, Problem.ofCommands, assertions]
        · rfl
        · cases s.assertions <;> simp
    | cons d ds ih =>
        rw [List.map_cons, List.cons_append, Problem.ofCommands, ih]
        rw [sort?_render]
        rfl
  rw [commands, List.append_assoc]
  exact constants s.declarations

/-- The lines of the text of a script. -/
def lines (s : Script) : List String :=
  s.declarations.map (fun d => "(declare-const " ++ d.symbol ++ " " ++ d.sort.render ++ ")\n") ++
    s.assertions.map (fun f => "(assert " ++ f.render ++ ")\n") ++ ["(check-sat)\n"]

lemma render_eq_join (s : Script) : s.render = String.join s.lines :=
  String.toList_injective (by simp [render, lines])

/-- Each line is read as its command. -/
lemma spells_lines {s : Script} (hd : ∀ d ∈ s.declarations, IsSymbol d.symbol)
    (hf : ∀ f ∈ s.assertions, f.Readable) :
    List.Forall₂ (fun line e => ∃ text, line = text ++ "\n" ∧ Spells text e)
      s.lines s.commands := by
  refine List.rel_append (List.rel_append ?_ ?_) (.cons ⟨"(check-sat)", rfl, ?_⟩ .nil)
  · rw [List.forall₂_map_left_iff, List.forall₂_map_right_iff, List.forall₂_same]
    intro d hds
    have hword : Spells "declare-const" (.word "declare-const") :=
      spells_word (by decide) (by decide)
    refine ⟨_, ?_, spells_list hword (.cons (hd d hds).spells (.cons (spells_sort d.sort) .nil))⟩
    exact String.toList_injective (by simp)
  · rw [List.forall₂_map_left_iff, List.forall₂_map_right_iff, List.forall₂_same]
    intro f hfs
    have hword : Spells "assert" (.word "assert") := spells_word (by decide) (by decide)
    refine ⟨_, ?_, spells_list hword (.cons (hf f hfs).spells .nil)⟩
    exact String.toList_injective (by simp)
  · have hword : Spells "check-sat" (.word "check-sat") := spells_word (by decide) (by decide)
    exact spells_items (.cons hword .nil)

/-- The text of a script whose names are all symbols between bars poses the problem that the script
stands for. -/
theorem read_render {s : Script} (hd : ∀ d ∈ s.declarations, IsSymbol d.symbol)
    (hf : ∀ f ∈ s.assertions, f.Readable) : Problem.read s.render = some s.problem := by
  rw [Problem.read, render_eq_join, read_lines (spells_lines hd hf), Option.bind_some,
    ofCommands_commands]

end Script

end SolvedForm

import SolvedForm.Proofs.Solver.SExpr
import SolvedForm.Solver.Script

/-!
What a script says, read as S-expressions.

* `ScriptValue`: integers and truth values.
* `SExpr.operation`: the meaning of the words that name operations.
* `SExpr.meaning`: the value of an expression under values for the symbols; a quantified expression
  is true when some values of the right sorts for its binders make its body true.
* `SExpr.meaning_operation`: the value of an operation applied to expressions.
* `SExpr.binders`: the symbols that an expression introduces, with their sorts.
* `Problem`, `Problem.read`: the constants that a script declares and its assertions.
* `Problem.Assigns`, `Problem.Holds`: values of the right sorts for the constants, and values that
  make all assertions true.
-/

namespace SolvedForm

/-! ### Values -/

lemma mapM_eq_some_iff {α β : Type} {g : α → Option β} {as : List α} {bs : List β} :
    as.mapM g = some bs ↔ List.Forall₂ (fun a b => g a = some b) as bs := by
  induction as generalizing bs with
  | nil => simp [eq_comm]
  | cons a as ih =>
      rw [List.mapM_cons, List.forall₂_cons_left_iff]
      simp only [Option.bind_eq_bind, Option.bind_eq_some_iff, Option.pure_def, Option.some.injEq,
        ih]
      exact ⟨fun ⟨b, hb, cs, hcs, h⟩ => ⟨b, cs, hb, hcs, h.symm⟩,
        fun ⟨b, cs, hb, hcs, h⟩ => ⟨b, hb, cs, hcs, h.symm⟩⟩

/-- A value of a script. -/
inductive ScriptValue where
  | int (i : Int)
  | bool (b : Bool)
  deriving DecidableEq

namespace ScriptValue

/-- The sort of a value. -/
def sort : ScriptValue → ScriptSort
  | int _ => .int
  | bool _ => .bool

lemma exists_of_int {v : ScriptValue} (h : v.sort = .int) : ∃ i, v = .int i := by
  cases v with
  | int i => exact ⟨i, rfl⟩
  | bool b => cases h

lemma exists_of_bool {v : ScriptValue} (h : v.sort = .bool) : ∃ b, v = .bool b := by
  cases v with
  | int i => cases h
  | bool b => exact ⟨b, rfl⟩

/-- The truth value that a value is. -/
def bool? : ScriptValue → Option Bool
  | int _ => none
  | bool b => some b

end ScriptValue

namespace SExpr

/-! ### Words -/

/-- The value of a literal. -/
def literal? (w : String) : Option ScriptValue :=
  if w = "true" then some (.bool true)
  else if w = "false" then some (.bool false)
  else w.toNat?.map fun n : Nat => .int n

/-- The sort with a given name. -/
def sort? (w : String) : Option ScriptSort :=
  if w = "Int" then some .int else if w = "Bool" then some .bool else none

/-- The value of an operation. Conjunctions and disjunctions may have any number of members, a
difference with one member is its negative, and values of different sorts are different. -/
def operation : String → List ScriptValue → Option ScriptValue
  | "and", vs => (vs.mapM ScriptValue.bool?).map fun bs => .bool (bs.all id)
  | "or", vs => (vs.mapM ScriptValue.bool?).map fun bs => .bool (bs.any id)
  | "not", [.bool b] => some (.bool !b)
  | "=", [v, w] => some (.bool (v = w))
  | "+", [.int i, .int j] => some (.int (i + j))
  | "-", [.int i] => some (.int (-i))
  | "-", [.int i, .int j] => some (.int (i - j))
  | "*", [.int i, .int j] => some (.int (i * j))
  | "<", [.int i, .int j] => some (.bool (i < j))
  | "<=", [.int i, .int j] => some (.bool (i ≤ j))
  | ">", [.int i, .int j] => some (.bool (i > j))
  | ">=", [.int i, .int j] => some (.bool (i ≥ j))
  | "ite", [.bool b, v, w] => some (if b then v else w)
  | _, _ => none

/-! ### Expressions -/

/-- Values for the symbols in scope. -/
abbrev Env := String → Option ScriptValue

/-- The value that an expression has under values for the symbols. -/
abbrev Meaning := Env → Option ScriptValue

/-- The symbol and the sort that a binder introduces. -/
def binder? : SExpr → Option (String × ScriptSort)
  | .list [.quoted s, .word w] => (sort? w).map fun σ => (s, σ)
  | _ => none

/-- The second environment has values of the right sorts for the binders, and agrees with the first
on all other symbols. -/
structure Env.ExtendsTo (env : Env) (bs : List (String × ScriptSort)) (env' : Env) : Prop where
  outside : ∀ s, (∀ b ∈ bs, b.1 ≠ s) → env' s = env s
  binders : ∀ b ∈ bs, ∃ v, v.sort = b.2 ∧ env' b.1 = some v

open Classical in
/-- The value of a quantified expression with a body of a given meaning, which has to be a truth
value whatever the values for the binders. -/
noncomputable def exists? (bs : List (String × ScriptSort)) (body : Meaning) : Meaning := fun env =>
  if ∀ env', env.ExtendsTo bs env' → ∃ b, body env' = some (.bool b) then
    some (.bool (∃ env', env.ExtendsTo bs env' ∧ body env' = some (.bool true)))
  else none

/-- The value of a list, given what its items mean. -/
noncomputable def form : List SExpr → List Meaning → Meaning
  | [.word "exists", .list bs, _], [_, _, body], env =>
    (bs.mapM binder?).bind fun bs => exists? bs body env
  | .word w :: _, _ :: ms, env => (ms.mapM fun m : Meaning => m env).bind (operation w)
  | _, _, _ => none

mutual

/-- The value of an expression. -/
noncomputable def meaning : SExpr → Meaning
  | .word w => fun _ => literal? w
  | .quoted s => fun env => env s
  | .list es => form es (meanings es)
  termination_by structural e => e

/-- The values of several expressions. -/
noncomputable def meanings : List SExpr → List Meaning
  | [] => []
  | e :: es => meaning e :: meanings es
  termination_by structural es => es

end

/-- The binders of a quantified expression. -/
def ownBinders : List SExpr → List (String × ScriptSort)
  | [.word "exists", .list bs, _] => bs.filterMap binder?
  | _ => []

mutual

/-- The binders anywhere in an expression. -/
def binders : SExpr → List (String × ScriptSort)
  | .word _ => []
  | .quoted _ => []
  | .list es => ownBinders es ++ bindersAll es
  termination_by structural e => e

/-- The binders anywhere in several expressions. -/
def bindersAll : List SExpr → List (String × ScriptSort)
  | [] => []
  | e :: es => binders e ++ bindersAll es
  termination_by structural es => es

end

end SExpr

namespace SExpr

/-! ### Operations -/

lemma meanings_eq_map (es : List SExpr) : meanings es = es.map meaning := by
  induction es with
  | nil => rfl
  | cons e es ih => rw [meanings, ih, List.map_cons]

lemma bindersAll_eq_nil {es : List SExpr} : bindersAll es = [] ↔ ∀ e ∈ es, e.binders = [] := by
  induction es with
  | nil => simp [bindersAll]
  | cons e es ih => rw [bindersAll, List.append_eq_nil_iff, ih, List.forall_mem_cons]

variable {w : String} {es : List SExpr} {env : Env} {vs : List ScriptValue}

/-- An operation applied to expressions. -/
lemma meaning_operation (hw : w ≠ "exists")
    (h : List.Forall₂ (fun (e : SExpr) v => e.meaning env = some v) es vs) :
    (list (.word w :: es)).meaning env = operation w vs := by
  have hmap : (meanings es).mapM (fun m : Meaning => m env) = some vs := by
    rwa [mapM_eq_some_iff, meanings_eq_map, List.forall₂_map_left_iff]
  rw [meaning, meanings, form, hmap, Option.bind_some]
  exact fun _ _ _ _ _ hword _ => hw hword

lemma binders_operation (hw : w ≠ "exists") (h : ∀ e ∈ es, e.binders = []) :
    (list (.word w :: es)).binders = [] := by
  rw [binders, bindersAll, binders, List.nil_append, bindersAll_eq_nil.mpr h, ownBinders,
    List.append_nil]
  rintro bs e hword
  exact absurd (List.cons.inj hword).1 (by simpa using hw)

lemma operation_and (bs : List Bool) :
    operation "and" (bs.map .bool) = some (.bool (bs.all id)) := by
  have hbs : (bs.map ScriptValue.bool).mapM ScriptValue.bool? = some bs := by
    rw [mapM_eq_some_iff, List.forall₂_map_left_iff, List.forall₂_same]
    exact fun _ _ => rfl
  simp only [operation, hbs, Option.map_some]

lemma operation_or (bs : List Bool) :
    operation "or" (bs.map .bool) = some (.bool (bs.any id)) := by
  have hbs : (bs.map ScriptValue.bool).mapM ScriptValue.bool? = some bs := by
    rw [mapM_eq_some_iff, List.forall₂_map_left_iff, List.forall₂_same]
    exact fun _ _ => rfl
  simp only [operation, hbs, Option.map_some]

end SExpr

/-! ### Scripts -/

/-- What a script asks: values for its constants that make its assertions true. -/
structure Problem where
  constants : List (String × ScriptSort)
  assertions : List SExpr

namespace Problem

/-- The assertions of a script before its final command. -/
def readAssertions : List SExpr → Option (List SExpr)
  | [.list [.word "check-sat"]] => some []
  | .list [.word "assert", e] :: es => (readAssertions es).map (e :: ·)
  | _ => none

/-- The problem that commands pose: declarations, then assertions, then the question. -/
def ofCommands : List SExpr → Option Problem
  | .list [.word "declare-const", .quoted s, .word w] :: es =>
    (SExpr.sort? w).bind fun σ =>
      (ofCommands es).map fun p => { p with constants := (s, σ) :: p.constants }
  | es => (readAssertions es).map fun as => ⟨[], as⟩

/-- The problem that a text poses. -/
def read (text : String) : Option Problem := (SExpr.read text).bind ofCommands

/-- The symbols that are introduced inside assertions. -/
def binders (p : Problem) : List (String × ScriptSort) := p.assertions.flatMap SExpr.binders

/-- The values are of the sorts of the constants. -/
def Assigns (p : Problem) (A : String → ScriptValue) : Prop :=
  ∀ c ∈ p.constants, (A c.1).sort = c.2

/-- Values for the constants, and for no other symbol. -/
def env (p : Problem) (A : String → ScriptValue) : SExpr.Env :=
  fun s => if p.constants.any (·.1 = s) then some (A s) else none

/-- All assertions are true under values for the constants. -/
def Holds (p : Problem) (A : String → ScriptValue) : Prop :=
  ∀ e ∈ p.assertions, e.meaning (p.env A) = some (.bool true)

end Problem

end SolvedForm

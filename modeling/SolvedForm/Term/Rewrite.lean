/-
Rewriting terms from the leaves to the root.

* `Term.reframe`: a map whose frame has been given a value: another variable
  takes the place of the frame, a map is merged into the entries, and for any
  other value the frame stays.
* `Term.rewrite`: a subterm that `before` answers for is replaced as a whole;
  any other has its immediate subterms rewritten and is then handed to
  `after`.
* `Term.rename`, `Term.replace`: the two plain uses, a renaming of variables
  and the replacement of subterms along a table.
-/
import SolvedForm.Term.Variables

namespace SolvedForm.Term

/-- The map with given entries whose frame stands for its image. -/
def reframe (entries : List Entry) (frame : Option Var) (image : Var → Term) : Term :=
  match frame with
  | none => ofEntries entries none
  | some x =>
    match image x with
    | .var y => ofEntries entries (some y)
    | .map rest y => ofEntries (entries ++ rest) y
    | _ => ofEntries entries (some x)

mutual

/-- The term with `before` applied on the way down and `after` on the way
up. -/
def rewrite (before : Term → Option Term) (after : Term → Term) : Term → Term
  | .var x => (before (.var x)).getD (after (.var x))
  | .bool b => (before (.bool b)).getD (after (.bool b))
  | .int i => (before (.int i)).getD (after (.int i))
  | .app f args =>
    (before (.app f args)).getD (after (.app f (rewriteArgs before after args)))
  | .map entries frame =>
    (before (.map entries frame)).getD <| after <|
      reframe (rewriteEntries before after entries) frame fun x =>
        (before (.var x)).getD (after (.var x))
  | .lookup m k =>
    (before (.lookup m k)).getD
      (after (.lookup (rewrite before after m) (rewrite before after k)))
  termination_by structural t => t

/-- The arguments, each rewritten. -/
def rewriteArgs (before : Term → Option Term) (after : Term → Term) : List Term → List Term
  | [] => []
  | t :: ts => rewrite before after t :: rewriteArgs before after ts
  termination_by structural ts => ts

/-- The entries, keys and values rewritten. -/
def rewriteEntries (before : Term → Option Term) (after : Term → Term) :
    List Entry → List Entry
  | [] => []
  | (k, v) :: es =>
    (rewrite before after k, rewrite before after v) :: rewriteEntries before after es
  termination_by structural es => es

end

/-- The term with every variable renamed, frames included. -/
def rename (ρ : Var → Var) (t : Term) : Term :=
  t.rewrite (fun | .var x => some (.var (ρ x)) | _ => none) id

/-- A table of replacements; of two entries for one term the first counts. -/
abbrev Table := List (Term × Term)

/-- The replacement that the table has for a term. -/
def Table.find? (table : Table) (t : Term) : Option Term := List.lookup t table

/-- The term with subterms replaced along a table. A term listed there is
replaced as a whole; any other is looked up once more when its own subterms
have been replaced. -/
def replace (table : Table) (t : Term) : Term :=
  t.rewrite table.find? fun u => (table.find? u).getD u

theorem rewriteArgs_eq_map (before : Term → Option Term) (after : Term → Term)
    (ts : List Term) : rewriteArgs before after ts = ts.map (rewrite before after) := by
  induction ts with
  | nil => rfl
  | cons t ts ih => simp [rewriteArgs, ih]

theorem rewriteEntries_eq_map (before : Term → Option Term) (after : Term → Term)
    (es : List Entry) : rewriteEntries before after es =
      es.map fun e => (rewrite before after e.1, rewrite before after e.2) := by
  induction es with
  | nil => rfl
  | cons e es ih => obtain ⟨k, v⟩ := e; simp [rewriteEntries, ih]

end SolvedForm.Term

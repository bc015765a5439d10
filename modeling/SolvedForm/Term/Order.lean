/-
The order of terms and the canonical form of maps.

* `Term.compare`: variables come before booleans, integers, applications, maps
  and lookups; within a kind the parts are compared from left to right, and a
  list of arguments or entries comes before its proper extensions.
* `Term.ofEntries`: the map with given entries; its entries are increasing, so
  maps with the same set of entries and the same frame are the same term.
* `Term.Canonical`: all maps inside a term have increasing entries.
-/
import SolvedForm.Term.Basic

namespace SolvedForm

/-! ### Variables and symbols -/

/-- Variables are compared by name, sort, anonymity and size. -/
def Var.compare (x y : Var) : Ordering :=
  (Ord.compare x.name y.name).then <|
  (SortName.compare x.sort y.sort).then <|
  (Ord.compare x.anonymous y.anonymous).then <|
  Sorted.options Ord.compare x.size y.size

/-- Constructors come before functions. -/
def SymbolKind.compare : SymbolKind → SymbolKind → Ordering
  | .constructor, .constructor => .eq
  | .constructor, .function => .lt
  | .function, .constructor => .gt
  | .function, .function => .eq

/-- Symbols are compared by name, arity, result sort and kind. -/
def Symbol.compare (f g : Symbol) : Ordering :=
  (Ord.compare f.name g.name).then <|
  (Ord.compare f.arity g.arity).then <|
  (Sorted.options SortName.compare f.resultSort g.resultSort).then <|
  SymbolKind.compare f.kind g.kind

namespace Term

/-! ### Terms -/

/-- The place of the kind of a term among the six kinds. -/
def rank : Term → Nat
  | .var _ => 0
  | .bool _ => 1
  | .int _ => 2
  | .app _ _ => 3
  | .map _ _ => 4
  | .lookup _ _ => 5

mutual

/-- The comparison of two terms. -/
def compare : Term → Term → Ordering
  | .var x, .var y => x.compare y
  | .bool a, .bool b => Ord.compare a b
  | .int i, .int j => Ord.compare i.toInt j.toInt
  | .app f ss, .app g ts => (f.compare g).then (compareArgs ss ts)
  | .map es x, .map fs y => (compareEntries es fs).then (Sorted.options Var.compare x y)
  | .lookup m k, .lookup n l => (compare m n).then (compare k l)
  | s, t => Ord.compare s.rank t.rank
  termination_by structural s => s

/-- The lexicographic comparison of two lists of arguments. -/
def compareArgs : List Term → List Term → Ordering
  | [], [] => .eq
  | [], _ :: _ => .lt
  | _ :: _, [] => .gt
  | s :: ss, t :: ts => (compare s t).then (compareArgs ss ts)
  termination_by structural ss => ss

/-- The lexicographic comparison of two lists of entries. -/
def compareEntries : List Entry → List Entry → Ordering
  | [], [] => .eq
  | [], _ :: _ => .lt
  | _ :: _, [] => .gt
  | (k, v) :: es, (l, w) :: fs =>
    ((compare k l).then (compare v w)).then (compareEntries es fs)
  termination_by structural es => es

end

/-- Entries are compared by key, ties by value. -/
def compareEntry : Entry → Entry → Ordering := Sorted.pairs compare compare

/-- The map with given entries, in any order and with any repetitions, and a
given frame. -/
def ofEntries (entries : List Entry) (frame : Option Var) : Term :=
  .map (Sorted.ofList compareEntry entries) frame

/-- All maps inside the term have increasing entries. -/
inductive Canonical : Term → Prop where
  | var (x : Var) : Canonical (.var x)
  | bool (b : Bool) : Canonical (.bool b)
  | int (i : Int64) : Canonical (.int i)
  | app (f : Symbol) {args : List Term} : (∀ t ∈ args, Canonical t) → Canonical (.app f args)
  | map {entries : List Entry} (frame : Option Var) :
      Sorted.Increasing compareEntry entries →
      (∀ e ∈ entries, Canonical e.1) → (∀ e ∈ entries, Canonical e.2) →
      Canonical (.map entries frame)
  | lookup {m k : Term} : Canonical m → Canonical k → Canonical (.lookup m k)

end Term

end SolvedForm

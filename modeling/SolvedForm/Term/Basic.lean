/-
Terms: variables, literals, applications, maps and lookups.

* `Var`: a variable with its sort; an anonymous one is preferred for
  elimination, a sized one stands for a collection of known size.
* `Symbol`: a free constructor or a defined function.
* `Term`: finitely many entries and possibly a frame, a variable for the rest
  of the entries, make a map; `Term.lookup m k` reads `m` at `k`.
* `Term.ind`: induction over the immediate subterms.
* Equality of terms is decidable.
-/
import SolvedForm.Subsort

namespace SolvedForm

/-- A variable; all four attributes belong to its identity. -/
structure Var where
  name : String
  sort : SortName
  anonymous : Bool := false
  size : Option Nat := none
  deriving DecidableEq

/-- The anonymous variable with a given number. -/
def Var.fresh (number : Nat) (sort : SortName) : Var :=
  { name := "_" ++ toString number, sort, anonymous := true }

/-- Distinct constructors build distinct values; of a defined function
nothing is known from its symbol alone. -/
inductive SymbolKind where
  | constructor
  | function
  deriving DecidableEq

/-- A symbol with its declared arity and possibly a result sort. -/
structure Symbol where
  name : String
  arity : Nat
  resultSort : Option SortName
  kind : SymbolKind
  deriving DecidableEq

/-- The symbol is a free constructor. -/
def Symbol.isConstructor (f : Symbol) : Bool := f.kind = .constructor

/-- A term. -/
inductive Term where
  | var (x : Var)
  | bool (b : Bool)
  | int (i : Int64)
  | app (f : Symbol) (args : List Term)
  | map (entries : List (Term × Term)) (frame : Option Var)
  | lookup (m k : Term)

/-- An entry of a map: key and value. -/
abbrev Entry := Term × Term

namespace Term

/-! ### Induction over immediate subterms -/

/-- A property of terms holds when it passes from the immediate subterms of a
term to the term. -/
@[elab_as_elim]
theorem ind {motive : Term → Prop}
    (var : ∀ x, motive (.var x)) (bool : ∀ b, motive (.bool b)) (int : ∀ i, motive (.int i))
    (app : ∀ f args, (∀ t ∈ args, motive t) → motive (.app f args))
    (map : ∀ entries frame, (∀ e ∈ entries, motive e.1 ∧ motive e.2) → motive (.map entries frame))
    (lookup : ∀ m k, motive m → motive k → motive (.lookup m k)) : ∀ t, motive t :=
  @Term.rec motive (fun args => ∀ t ∈ args, motive t)
    (fun entries => ∀ e ∈ entries, motive e.1 ∧ motive e.2) (fun e => motive e.1 ∧ motive e.2)
    var bool int app map lookup
    (by simp) (fun _ _ ht hts => List.forall_mem_cons.2 ⟨ht, hts⟩)
    (by simp) (fun _ _ he hes => List.forall_mem_cons.2 ⟨he, hes⟩)
    (fun _ _ hk hv => ⟨hk, hv⟩)

/-! ### Decidable equality -/

mutual

/-- Decides whether two terms are equal. -/
def decEq : (s t : Term) → Decidable (s = t)
  | .var x, .var y => decidable_of_iff (x = y) (by simp)
  | .bool a, .bool b => decidable_of_iff (a = b) (by simp)
  | .int i, .int j => decidable_of_iff (i = j) (by simp)
  | .app f ss, .app g ts =>
    if h : f = g then
      match decEqArgs ss ts with
      | .isTrue hs => .isTrue (by rw [h, hs])
      | .isFalse hs => .isFalse (by simp [hs])
    else .isFalse (by simp [h])
  | .map es x, .map fs y =>
    if h : x = y then
      match decEqEntries es fs with
      | .isTrue he => .isTrue (by rw [h, he])
      | .isFalse he => .isFalse (by simp [he])
    else .isFalse (by simp [h])
  | .lookup m k, .lookup n l =>
    match decEq m n with
    | .isTrue hm =>
      match decEq k l with
      | .isTrue hk => .isTrue (by rw [hm, hk])
      | .isFalse hk => .isFalse (by simp [hk])
    | .isFalse hm => .isFalse (by simp [hm])
  | .var _, .bool _ | .var _, .int _ | .var _, .app _ _ | .var _, .map _ _ | .var _, .lookup _ _
  | .bool _, .var _ | .bool _, .int _ | .bool _, .app _ _ | .bool _, .map _ _
  | .bool _, .lookup _ _ | .int _, .var _ | .int _, .bool _ | .int _, .app _ _
  | .int _, .map _ _ | .int _, .lookup _ _ | .app _ _, .var _ | .app _ _, .bool _
  | .app _ _, .int _ | .app _ _, .map _ _ | .app _ _, .lookup _ _ | .map _ _, .var _
  | .map _ _, .bool _ | .map _ _, .int _ | .map _ _, .app _ _ | .map _ _, .lookup _ _
  | .lookup _ _, .var _ | .lookup _ _, .bool _ | .lookup _ _, .int _ | .lookup _ _, .app _ _
  | .lookup _ _, .map _ _ => .isFalse (by simp)
  termination_by structural s => s

/-- Decides whether two lists of arguments are equal. -/
def decEqArgs : (ss ts : List Term) → Decidable (ss = ts)
  | [], [] => .isTrue rfl
  | [], _ :: _ | _ :: _, [] => .isFalse (by simp)
  | s :: ss, t :: ts =>
    match decEq s t with
    | .isTrue h =>
      match decEqArgs ss ts with
      | .isTrue hs => .isTrue (by rw [h, hs])
      | .isFalse hs => .isFalse (by simp [hs])
    | .isFalse h => .isFalse (by simp [h])
  termination_by structural ss => ss

/-- Decides whether two lists of entries are equal. -/
def decEqEntries : (es fs : List Entry) → Decidable (es = fs)
  | [], [] => .isTrue rfl
  | [], _ :: _ | _ :: _, [] => .isFalse (by simp)
  | (k, v) :: es, (l, w) :: fs =>
    match decEq k l with
    | .isTrue hk =>
      match decEq v w with
      | .isTrue hv =>
        match decEqEntries es fs with
        | .isTrue he => .isTrue (by rw [hk, hv, he])
        | .isFalse he => .isFalse (by simp [he])
      | .isFalse hv => .isFalse (by simp [hv])
    | .isFalse hk => .isFalse (by simp [hk])
  termination_by structural es => es

end

instance : DecidableEq Term := decEq

end Term

end SolvedForm

/-
Finite sets as increasing lists: the canonical form shared by the entries of
a map, the variables of a term and the known sorts of an order.

* `Sorted.insert`: puts an element at its place, once.
* `Sorted.ofList`: the increasing list of the elements of a list, whatever
  their order and repetitions.
* `Sorted.Increasing`: every element is below all later ones.
* `Sorted.pairs`, `Sorted.options`: three-way comparisons of pairs and of
  optional values.
-/

namespace SolvedForm.Sorted

variable {α β : Type}

/-- The list with `a` put before the first element above it, unless an equal
element is met on the way. -/
def insert (cmp : α → α → Ordering) (a : α) : List α → List α
  | [] => [a]
  | b :: bs =>
    match cmp a b with
    | .lt => a :: b :: bs
    | .eq => b :: bs
    | .gt => b :: insert cmp a bs

/-- The increasing list of the elements of a list. -/
def ofList (cmp : α → α → Ordering) (as : List α) : List α :=
  as.foldr (insert cmp) []

/-- Every element of the list is strictly below all later ones. -/
def Increasing (cmp : α → α → Ordering) (as : List α) : Prop :=
  as.Pairwise fun a b => cmp a b = .lt

/-! ### Elements -/

theorem mem_insert {cmp : α → α → Ordering} (eq_of : ∀ {a b}, cmp a b = .eq → a = b)
    {a c : α} {bs : List α} : c ∈ insert cmp a bs ↔ c = a ∨ c ∈ bs := by
  induction bs with
  | nil => simp [insert]
  | cons b bs ih =>
    unfold insert
    split
    · simp
    · next h => simp [eq_of h]
    · simp only [List.mem_cons, ih]
      exact or_left_comm

/-- The increasing list of a list has the elements of that list, where only
equal elements compare as equal. -/
theorem mem_ofList {cmp : α → α → Ordering} (eq_of : ∀ {a b}, cmp a b = .eq → a = b)
    {c : α} {as : List α} : c ∈ ofList cmp as ↔ c ∈ as := by
  unfold ofList
  induction as with
  | nil => simp
  | cons a as ih => rw [List.foldr_cons, mem_insert eq_of, ih, List.mem_cons]

/-! ### Lexicographic comparisons -/

/-- Pairs are compared by their first components, ties by the second. -/
def pairs (cmp : α → α → Ordering) (cmp' : β → β → Ordering) (a b : α × β) : Ordering :=
  (cmp a.1 b.1).then (cmp' a.2 b.2)

/-- Absence is below every value. -/
def options (cmp : α → α → Ordering) : Option α → Option α → Ordering
  | none, none => .eq
  | none, some _ => .lt
  | some _, none => .gt
  | some a, some b => cmp a b

end SolvedForm.Sorted

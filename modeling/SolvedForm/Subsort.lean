/-
Sorts and the order between them.

* `SortName`: a sort is known by its name; `SortName.top` is above all.
* `SortOrder`: what the engine asks of an order, the relation `le` and a
  greatest lower bound where there is one.
* `Subsorts`: an order given by declarations and kept transitively closed:
  `Subsorts.declare` adds, for everything at or below the new subsort, all
  that lies at or above the new supersort.
* `Subsorts.order`: the order that the declarations generate; its lower bound
  of two incomparable sorts is the unique maximal sort below both.
-/
import SolvedForm.Sorted

namespace SolvedForm

/-- The name of a sort. -/
structure SortName where
  name : String
  deriving DecidableEq

namespace SortName

/-- The sort above every sort. -/
def top : SortName := ⟨"K"⟩

/-- The sort of the truth values. -/
def bool : SortName := ⟨"Bool"⟩

/-- The sort of the integers. -/
def int : SortName := ⟨"Int"⟩

/-- The sort of the maps. -/
def map : SortName := ⟨"Map"⟩

/-- Sorts are compared by name. -/
def compare (s t : SortName) : Ordering := Ord.compare s.name t.name

end SortName

/-- What is asked of an order between sorts. -/
structure SortOrder where
  /-- The first sort is the second one or below it. -/
  le : SortName → SortName → Bool
  /-- The greatest sort below both, where there is one. -/
  glb : SortName → SortName → Option SortName

/-- Two sorts are compatible when they have a greatest lower bound. -/
def SortOrder.compatible (order : SortOrder) (s t : SortName) : Bool :=
  (order.glb s t).isSome

/-- Sorts with a transitively closed relation between them. -/
structure Subsorts where
  /-- All sorts mentioned so far, each once. -/
  known : List SortName
  /-- All pairs of a sort and a sort above it. -/
  pairs : List (SortName × SortName)

namespace Subsorts

/-- All that is recorded above a sort. -/
def above (d : Subsorts) (s : SortName) : List SortName :=
  (d.pairs.filter (·.1 = s)).map (·.2)

/-- All that is recorded below a sort. -/
def below (d : Subsorts) (s : SortName) : List SortName :=
  (d.pairs.filter (·.2 = s)).map (·.1)

/-- The declaration that `sub` lies below `sup`: all that is at or below
`sub` comes to lie below all that is at or above `sup`. -/
def declare (d : Subsorts) (sub sup : SortName) : Subsorts where
  known := [sub, sup].foldr List.insert d.known
  pairs :=
    let lower := sub :: d.below sub
    let upper := sup :: d.above sup
    (lower.flatMap fun s => upper.map fun t => (s, t)).foldr List.insert d.pairs

/-- The order with no declarations. -/
def empty : Subsorts := ⟨[SortName.top], []⟩

/-- The built-in sorts below the top sort. -/
def builtin : Subsorts :=
  ((empty.declare .bool .top).declare .int .top).declare .map .top

/-- The declarations of a list, made in order. -/
def declareAll (d : Subsorts) (declarations : List (SortName × SortName)) : Subsorts :=
  declarations.foldl (fun d p => d.declare p.1 p.2) d

/-- A sort is at or below another when they are the same, when the other is
the top sort, or when the declarations say so. -/
def le (d : Subsorts) (s t : SortName) : Bool :=
  s = t || t = SortName.top || (s, t) ∈ d.pairs

/-- The known sorts below two sorts. -/
def lowerBounds (d : Subsorts) (s t : SortName) : List SortName :=
  d.known.filter fun u => d.le u s && d.le u t

/-- The members of a list with no other member above them. -/
def maximal (d : Subsorts) (sorts : List SortName) : List SortName :=
  sorts.filter fun s => sorts.all fun t => t = s || !d.le s t

/-- The lower of two comparable sorts, otherwise the only maximal one among
the known sorts below both. -/
def glb (d : Subsorts) (s t : SortName) : Option SortName :=
  if d.le s t then some s
  else if d.le t s then some t
  else
    match d.maximal (d.lowerBounds s t) with
    | [u] => some u
    | _ => none

/-- The order generated by the declarations. -/
def order (d : Subsorts) : SortOrder := ⟨d.le, d.glb⟩

/-- The known sorts in the order of their names. -/
def sorts (d : Subsorts) : List SortName := Sorted.ofList SortName.compare d.known

end Subsorts

end SolvedForm

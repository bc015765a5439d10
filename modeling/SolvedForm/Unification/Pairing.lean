/-
Pairings between the entries of two maps.

* `Pairing.sides`: what has to hold for two entries to be the same one.
* `Pairing.Search`: the buffers of the search for pairings, which marks the
  entries in use, extends one conjunction and cuts it off again.
* `Pairing.enumerate`, `Pairing.search`: the search for the pairings of two
  lists of entries that pair no provably distinct keys, each as the equations
  it stands for; it gives up when it has found too many.
-/
import SolvedForm.Unification.Basic

namespace SolvedForm

/-- No more alternatives than this are made from one map equation. -/
def Decomposition.maxAlternatives : Nat := 64

namespace Pairing

open Decomposition (maxAlternatives)

/-- The equations that make two entries the same: equal keys and equal values,
identical sides left out. -/
def sides (e f : Entry) : List Equation :=
  [⟨e.1, f.1⟩, ⟨e.2, f.2⟩].filter fun q => q.left ≠ q.right

/-- What the search works on: the entries of the second list that are in use,
the equations of the partners chosen, and the pairings found. -/
structure Search (n : Nat) where
  used : Vector Bool n
  current : List Equation
  found : List (List Equation)

namespace Search

variable {n : Nat}

/-- Nothing is in use and nothing has been found. -/
def start (n : Nat) : Search n := ⟨.replicate n false, [], []⟩

/-- One attempt after the other, until one of them stops the search. -/
def each (attempt : Fin n → Search n → Bool × Search n) : List (Fin n) → Search n → Bool × Search n
  | [], s => (true, s)
  | j :: js, s =>
    match attempt j s with
    | (true, s) => each attempt js s
    | (false, s) => (false, s)

/-- A run with a partner in use and its equations added. When that has been
exhausted the partner is given back, and the equations are cut off again. -/
def attempt (s : Search n) (j : Fin n) (qs : List Equation) (run : Search n → Bool × Search n) :
    Bool × Search n :=
  match run { s with used := s.used.set j true j.isLt, current := s.current ++ qs } with
  | (true, r) =>
    (true, { r with used := r.used.set j false j.isLt, current := r.current.take s.current.length })
  | (false, r) => (false, r)

end Search

/-- The search gives the first entry one partner after the other, of those that
are not in use and whose keys are not provably distinct, and goes on with the
entries after it. It stops, with all buffers as they are, when it has found too
many pairings. -/
def enumerate (fs : List Entry) : List Entry → Search fs.length → Bool × Search fs.length
  | [], s =>
    let found := s.found ++ [s.current]
    (found.length ≤ maxAlternatives, { s with found })
  | e :: es, s =>
    Search.each (fun j s =>
      if s.used.get j || e.1.provablyDistinct (fs.get j).1 then (true, s)
      else s.attempt j (sides e (fs.get j)) (enumerate fs es)) (List.finRange fs.length) s

/-- The search from the start. -/
def search (es fs : List Entry) : Bool × Search fs.length := enumerate fs es (.start fs.length)

end Pairing

end SolvedForm

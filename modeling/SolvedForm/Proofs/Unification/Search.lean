import Mathlib.Data.List.FinRange
import SolvedForm.Proofs.Unification.Pairing
import SolvedForm.Unification.Decomposition

/-!
The search for pairings over shared buffers.

* `Pairing.assignments`: all ways to give the members of a list different partners that fit.
* `Pairing.firstN_eq_take`: the first pairings are the first assignments, as equations.
* `Pairing.Search.Finds`: the search adds given alternatives and leaves its buffers as they were, or
  it stops with one alternative too many.
* `Pairing.finds_enumerate`: what it adds are the assignments of the entries that are not in use.
* `Pairing.found_search`: from the start it finds the first pairings.
* `Decomposition.settleAmbiguous_eq`: unification goes by the first pairings.
-/

namespace SolvedForm

namespace Pairing

open Decomposition (maxAlternatives)

variable {α β γ : Type} {fits : α → β → Bool} {as : List α} {bs gs : List β} {n : Nat}
  {e : Entry} {es fs : List Entry}

/-! ### Assignments -/

/-- The ways to give every member of the first list a partner in the second list that fits, no two
members the same one. The partner of the first member is chosen before those of the later ones, and
a choice is made from left to right. -/
def assignments (fits : α → β → Bool) : List α → List β → List (List β)
  | [], _ => [[]]
  | a :: as, bs =>
    ((picks bs).filter fun p => fits a p.1).flatMap fun p =>
      (assignments fits as p.2).map (p.1 :: ·)

/-- The equations of given partners. -/
def equations (es gs : List Entry) : List Equation := (List.zipWith sides es gs).flatten

lemma flatMap_filter (p : α → Bool) (f : α → List β) (as : List α) :
    (as.filter p).flatMap f = as.flatMap fun a => if p a then f a else [] := by
  induction as with
  | nil => rfl
  | cons a as ih => cases h : p a <;> simp [h, ih]

lemma picks_map (g : β → γ) (bs : List β) :
    picks (bs.map g) = (picks bs).map fun p => (g p.1, p.2.map g) := by
  induction bs with
  | nil => rfl
  | cons b bs ih => simp [picks, ih]

lemma assignments_map (fits : α → γ → Bool) (g : β → γ) (as : List α) (bs : List β) :
    assignments fits as (bs.map g) =
      (assignments (fun a b => fits a (g b)) as bs).map (List.map g) := by
  induction as generalizing bs with
  | nil => rfl
  | cons a as ih =>
      rw [assignments, assignments, picks_map, List.filter_map, List.flatMap_map, List.map_flatMap]
      simp only [ih, List.map_map]
      rfl

/-- Where a list has no repetitions, a pick leaves all its other members. -/
lemma picks_eq_map_erase [DecidableEq β] (h : bs.Nodup) :
    picks bs = bs.map fun b => (b, bs.erase b) := by
  induction bs with
  | nil => rfl
  | cons b bs ih =>
      obtain ⟨hb, hbs⟩ := List.nodup_cons.mp h
      rw [picks, ih hbs, List.map_map, List.map_cons, List.erase_cons_head]
      refine congrArg _ (List.map_congr_left fun c hc => ?_)
      have hne : b ≠ c := fun heq => hb (heq ▸ hc)
      simp [List.erase_cons_tail, hne]

/-! ### The first pairings -/

/-- The search adds the assignments of one choice after the other, up to its bound. -/
lemma foldl_extend_take (ps : List (Entry × List Entry)) (found : List (List Equation))
    (hes : ∀ m fs, firstN m es fs = ((assignments mayMatch es fs).take m).map (equations es)) :
    ps.foldl (extend n e es) (found.take n) = (found ++ ps.flatMap fun p =>
      (assignments mayMatch es p.2).map fun gs => sides e p.1 ++ equations es gs).take n := by
  induction ps generalizing found with
  | nil => simp
  | cons p ps ih =>
      have hstep : extend n e es (found.take n) p = (found ++ (assignments mayMatch es p.2).map
          fun gs => sides e p.1 ++ equations es gs).take n := by
        unfold extend
        rw [List.take_append, List.length_take]
        split
        · next hlt =>
            have hle : found.length < n := by omega
            rw [Nat.min_eq_right hle.le, List.take_of_length_le hle.le, hes, List.map_map,
              List.map_take]
            rfl
        · next hle => simp [show n - found.length = 0 by omega]
      rw [List.foldl_cons, hstep, ih, List.flatMap_cons, List.append_assoc]

/-- What is found are the first assignments, each as the equations of its partners. -/
theorem firstN_eq_take (n : Nat) (es fs : List Entry) :
    firstN n es fs = ((assignments mayMatch es fs).take n).map (equations es) := by
  induction es generalizing n fs with
  | nil =>
      rw [firstN, assignments, List.map_take]
      rfl
  | cons e es ih =>
      have hfold := foldl_extend_take (n := n) (e := e)
        ((picks fs).filter fun p => mayMatch e p.1) [] ih
      rw [List.take_nil, List.nil_append] at hfold
      rw [firstN_cons, hfold, assignments, List.map_take, List.map_flatMap]
      simp only [List.map_map]
      rfl

/-! ### Shared buffers -/

namespace Search

variable {s s' : Search n} {A B : List (List Equation)} {r : Bool × Search n} {j : Fin n}

/-- The entries that are not in use. -/
def free (s : Search n) : List (Fin n) := (List.finRange n).filter fun j => !s.used.get j

/-- The run adds the alternatives, and leaves the other buffers as they were; or it stops with one
alternative more than allowed. -/
def Finds (s : Search n) (A : List (List Equation)) (r : Bool × Search n) : Prop :=
  if (s.found ++ A).length ≤ maxAlternatives then r = (true, { s with found := s.found ++ A })
  else r.1 = false ∧ r.2.found = (s.found ++ A).take (maxAlternatives + 1)

lemma finds_nil (hs : s.found.length ≤ maxAlternatives) : s.Finds [] (true, s) := by
  simp [Finds, hs]

lemma Finds.fst_eq (h : s.Finds A r) :
    r.1 = true ↔ (s.found ++ A).length ≤ maxAlternatives := by
  unfold Finds at h
  split at h
  · next hle => exact iff_of_true (h ▸ rfl) hle
  · next hle => exact iff_of_false (by simp [h.1]) hle

lemma Finds.snd_eq (h : s.Finds A r) (hr : r.1 = true) :
    r.2 = { s with found := s.found ++ A } := by
  have hle := h.fst_eq.mp hr
  rw [Finds, if_pos hle] at h
  exact congrArg Prod.snd h

lemma Finds.found_eq (h : s.Finds A r) :
    r.2.found = (s.found ++ A).take (maxAlternatives + 1) := by
  by_cases hle : (s.found ++ A).length ≤ maxAlternatives
  · rw [h.snd_eq (h.fst_eq.mpr hle), List.take_of_length_le (Nat.le_succ_of_le hle)]
  · rw [Finds, if_neg hle] at h
    exact h.2

/-- Two runs one after the other. -/
lemma Finds.append (h : s.Finds A (true, s')) (h' : s'.Finds B r) : s.Finds (A ++ B) r := by
  obtain rfl : s' = { s with found := s.found ++ A } := h.snd_eq rfl
  rw [Finds, ← List.append_assoc]
  exact h'

/-- A run that has stopped stands for all that is left out after it. -/
lemma Finds.stop (h : s.Finds A (false, s')) (B : List (List Equation)) :
    s.Finds (A ++ B) (false, s') := by
  have hlt : maxAlternatives < (s.found ++ A).length := by
    simpa using mt h.fst_eq.mpr Bool.false_ne_true
  have hmore : ¬ (s.found ++ (A ++ B)).length ≤ maxAlternatives := by
    rw [← List.append_assoc, List.length_append]
    omega
  rw [Finds, if_neg hmore, ← List.append_assoc, List.take_append_of_le_length hlt]
  exact ⟨rfl, h.found_eq⟩

/-- Attempts one after the other, each of which leaves the buffers as they were. -/
lemma finds_each {attempt : Fin n → Search n → Bool × Search n}
    {A : Fin n → List (List Equation)} {js : List (Fin n)}
    (h : ∀ j ∈ js, ∀ found : List (List Equation), found.length ≤ maxAlternatives →
      Finds { s with found } (A j) (attempt j { s with found }))
    (hs : s.found.length ≤ maxAlternatives) : s.Finds (js.flatMap A) (each attempt js s) := by
  induction js generalizing s with
  | nil => exact finds_nil hs
  | cons j js ih =>
      rw [List.forall_mem_cons] at h
      have hj := h.1 s.found hs
      rw [each, List.flatMap_cons]
      split
      · next s' hr =>
          rw [hr] at hj
          obtain rfl : s' = { s with found := s.found ++ A j } := hj.snd_eq rfl
          exact hj.append (ih h.2 (hj.fst_eq.mp rfl))
      · next s' hr =>
          rw [hr] at hj
          exact hj.stop _

lemma nodup_free (s : Search n) : s.free.Nodup := (List.nodup_finRange n).filter _

lemma get_set (used : Vector Bool n) (b : Bool) (i j : Fin n) :
    (used.set j b j.isLt).get i = if j = i then b else used.get i := by
  change (used.set j b j.isLt)[(i : Nat)] = if j = i then b else used[(i : Nat)]
  rw [Vector.getElem_set]
  simp only [Fin.ext_iff]

/-- With a partner in use, the others are free that have been free before. -/
lemma free_set (s : Search n) (j : Fin n) (qs : List Equation) (found : List (List Equation)) :
    (Search.mk (s.used.set j true j.isLt) qs found).free = s.free.erase j := by
  rw [s.nodup_free.erase_eq_filter, free, free, List.filter_filter]
  refine List.filter_congr fun i _ => ?_
  rw [get_set]
  by_cases hij : j = i
  · simp [hij]
  · simp [hij, Ne.symm hij]

/-- A partner is taken and given back. -/
lemma set_set (h : s.used.get j = false) :
    (s.used.set j true j.isLt).set j false j.isLt = s.used := by
  rw [Vector.set_set, ← h]
  exact Vector.set_getElem_self j.isLt

/-- An attempt leaves the buffers as they were, if the run that it makes does. -/
lemma Finds.attempt {run : Search n → Bool × Search n} {qs : List Equation}
    (hj : s.used.get j = false)
    (h : Finds ⟨s.used.set j true j.isLt, s.current ++ qs, s.found⟩ A
      (run ⟨s.used.set j true j.isLt, s.current ++ qs, s.found⟩)) :
    s.Finds A (s.attempt j qs run) := by
  rw [Search.attempt]
  split
  · next r hr =>
      rw [hr] at h
      obtain rfl := h.snd_eq rfl
      have hle : (s.found ++ A).length ≤ maxAlternatives := h.fst_eq.mp rfl
      simp only [Finds, if_pos hle, set_set hj, List.take_left]
  · next r hr =>
      rw [hr] at h
      have hle : ¬ (s.found ++ A).length ≤ maxAlternatives := mt h.fst_eq.mpr Bool.false_ne_true
      rw [Finds, if_neg hle]
      exact ⟨rfl, h.found_eq⟩

end Search

open Search

/-- The alternatives after the equations `qs` that the search adds, for the indices of the entries
that are left. -/
def alternatives (fs : List Entry) (qs : List Equation) (es : List Entry)
    (js : List (Fin fs.length)) : List (List Equation) :=
  (assignments (fun e j => mayMatch e (fs.get j)) es js).map fun js =>
    qs ++ equations es (js.map fs.get)

/-- One attempt for each entry of the second list: there is nothing to find where the entry is in
use or its key provably distinct. -/
lemma alternatives_cons (s : Search fs.length) (e : Entry) (es : List Entry) :
    alternatives fs s.current (e :: es) s.free = (List.finRange fs.length).flatMap fun j =>
      if s.used.get j || e.1.provablyDistinct (fs.get j).1 then []
      else alternatives fs (s.current ++ sides e (fs.get j)) es (s.free.erase j) := by
  rw [alternatives, assignments, picks_eq_map_erase s.nodup_free]
  generalize s.free.erase = erase
  rw [free, List.filter_map, List.filter_filter, List.flatMap_map, flatMap_filter, List.map_flatMap]
  refine congrArg (List.flatMap · _) (funext fun j => ?_)
  simp only [mayMatch, Function.comp_apply]
  cases s.used.get j with
  | true => rw [Bool.not_true, Bool.and_false]; rfl
  | false =>
      cases hd : e.1.provablyDistinct (fs.get j).1 with
      | true => rfl
      | false =>
          simp only [alternatives, List.append_assoc]
          exact List.map_map

/-- From any state, the search adds the alternatives that the entries allow that are not in use. -/
theorem finds_enumerate (es : List Entry) {s : Search fs.length}
    (hs : s.found.length ≤ maxAlternatives) :
    s.Finds (alternatives fs s.current es s.free) (enumerate fs es s) := by
  induction es generalizing s with
  | nil =>
      have halt : alternatives fs s.current [] s.free = [s.current] := by
        simp [alternatives, assignments, equations]
      rw [halt, enumerate, Finds]
      split
      · next hle => simp only [hle, decide_true]
      · next hle =>
          have hlength : (s.found ++ [s.current]).length ≤ maxAlternatives + 1 := by simpa using hs
          simp only [hle, decide_false, List.take_of_length_le hlength, and_self]
  | cons e es ih =>
      rw [alternatives_cons, enumerate]
      refine finds_each (fun j _ found hfound => ?_) hs
      split
      · exact finds_nil hfound
      · next hfree =>
          have hused : s.used.get j = false := by simp_all
          have hnext := ih
            (s := ⟨s.used.set j true j.isLt, s.current ++ sides e (fs.get j), found⟩) hfound
          rw [free_set] at hnext
          exact Finds.attempt hused hnext

/-! ### The search from the start -/

/-- The pairings found by picking are the first alternatives. -/
lemma firstN_eq_alternatives (n : Nat) (es fs : List Entry) :
    firstN n es fs = (alternatives fs [] es (List.finRange fs.length)).take n := by
  have hfs := assignments_map mayMatch fs.get es (List.finRange fs.length)
  rw [List.map_get_finRange] at hfs
  rw [firstN_eq_take, hfs, List.map_take, List.map_map]
  rfl

lemma finds_search (es fs : List Entry) :
    (start fs.length).Finds (alternatives fs [] es (List.finRange fs.length)) (search es fs) := by
  have hfree : (start fs.length).free = List.finRange fs.length :=
    List.filter_eq_self.mpr fun j _ => congrArg not (Vector.getElem_replicate j.isLt)
  exact hfree ▸ finds_enumerate es (Nat.zero_le _)

/-- What the search over shared buffers finds is what is found by picking. -/
theorem found_search (es fs : List Entry) :
    (search es fs).2.found = firstN (maxAlternatives + 1) es fs := by
  rw [(finds_search es fs).found_eq, firstN_eq_alternatives]
  rfl

lemma search_fst (es fs : List Entry) :
    (search es fs).1 = true ↔ (search es fs).2.found.length ≤ maxAlternatives := by
  rw [(finds_search es fs).fst_eq, (finds_search es fs).found_eq, List.length_take]
  omega

end Pairing

namespace Decomposition

/-- Leftover entries with keys that may coincide are settled by their first pairings: the equation
between them remains when there are too many, and otherwise all is possible that there is. -/
lemma settleAmbiguous_eq {fold : Bool} {right : Term} {es fs : List Entry} {x y : Option Var}
    {p : Progress} : settleAmbiguous fold right es x fs y p =
      if !(fold && p.alternatives.isNone && x.isNone && y.isNone && es.length == fs.length) then
        .ok (p.push [⟨.ofEntries es x, .ofEntries fs y⟩])
      else
        match Pairing.firstN (maxAlternatives + 1) es fs with
        | [] => p.fail (.missingEntry ((es.map (·.1)).headD right) right)
        | [only] => .ok (p.push only)
        | pairings =>
          if maxAlternatives < pairings.length then
            .ok (p.push [⟨.ofEntries es x, .ofEntries fs y⟩])
          else .ok { p with alternatives := some pairings } := by
  have hfst := Pairing.search_fst es fs
  rw [settleAmbiguous, ← Pairing.found_search]
  refine if_congr Iff.rfl rfl ?_
  generalize Pairing.search es fs = r at hfst ⊢
  obtain ⟨_ | _, used, current, found⟩ := r
  · have hmany : maxAlternatives < found.length := by simpa using hfst
    rcases found with _ | ⟨_, _ | _⟩
    · exact absurd hmany (Nat.not_lt_zero _)
    · exact absurd hmany (by simp [maxAlternatives])
    · exact (if_pos hmany).symm
  · have hfew : found.length ≤ maxAlternatives := hfst.mp rfl
    rcases found with _ | ⟨_, _ | _⟩
    · rfl
    · rfl
    · exact (if_neg (Nat.not_lt.mpr hfew)).symm

end Decomposition

end SolvedForm

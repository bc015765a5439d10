import Mathlib.Data.List.Perm.Basic
import SolvedForm.Proofs.Equation
import SolvedForm.Unification.Pairing

/-!
The pairings between the entries of two maps.

* `Pairing.picks`: an element of a list together with the others; `Pairing.perm_of_mem_picks`.
* `Pairing.firstN`: the first pairings of two lists of entries, by the choices of the search.
* `Pairing.Pairs`: a pairing, one choice after the other.
* `Pairing.pairs_of_mem_firstN`, `Pairing.mem_firstN`: what is found are pairings, and all of them
  where fewer are found than asked for.
-/

namespace SolvedForm.Pairing

variable {es fs : List Entry} {e : Entry} {qs : List Equation} {n : Nat}

/-- Every element of a list with the list of the others, from left to right. -/
def picks {α : Type} : List α → List (α × List α)
  | [] => []
  | a :: as => (a, as) :: (picks as).map fun p => (p.1, a :: p.2)

/-- Keys that may be the same. -/
abbrev mayMatch (e f : Entry) : Bool := !e.1.provablyDistinct f.1

/-- The first `n` pairings of the entries of the first list with those of the second. The partner of
the first entry is chosen before those of the later ones, and a choice is made from left to right. -/
def firstN (n : Nat) : List Entry → List Entry → List (List Equation)
  | [], _ => [[]].take n
  | e :: es, fs =>
    ((picks fs).filter fun p => mayMatch e p.1).foldl
      (fun found p =>
        if found.length < n then
          found ++ (firstN (n - found.length) es p.2).map (sides e p.1 ++ ·)
        else found)
      []

lemma perm_of_mem_picks {α : Type} {as : List α} {r : α × List α} (h : r ∈ picks as) :
    (r.1 :: r.2).Perm as := by
  induction as generalizing r with
  | nil => cases h
  | cons a as ih =>
      rw [picks] at h
      rcases List.mem_cons.mp h with rfl | h
      · exact .refl _
      · obtain ⟨r, hr, rfl⟩ := List.mem_map.mp h
        exact (List.Perm.swap ..).trans ((ih hr).cons a)

lemma exists_mem_picks {α : Type} {as : List α} {a : α} (h : a ∈ as) :
    ∃ rest, (a, rest) ∈ picks as := by
  induction as with
  | nil => cases h
  | cons b as ih =>
      rcases List.mem_cons.mp h with rfl | h
      · exact ⟨as, List.mem_cons_self⟩
      · obtain ⟨rest, hr⟩ := ih h
        exact ⟨b :: rest, List.mem_cons_of_mem _ (List.mem_map.mpr ⟨_, hr, rfl⟩)⟩

/-- The equations are a pairing: each entry of the first list takes one of the second list that is
left, with a key that is not provably distinct. -/
inductive Pairs : List Entry → List Entry → List Equation → Prop where
  | nil {fs : List Entry} : Pairs [] fs []
  | cons {e f : Entry} {es fs rest : List Entry} {qs : List Equation} : (f, rest) ∈ picks fs →
      e.1.provablyDistinct f.1 = false → Pairs es rest qs → Pairs (e :: es) fs (sides e f ++ qs)

/-- The pairings found for the choices of the first partner from left to right. -/
def extend (n : Nat) (e : Entry) (es : List Entry) (found : List (List Equation))
    (p : Entry × List Entry) : List (List Equation) :=
  if found.length < n then found ++ (firstN (n - found.length) es p.2).map (sides e p.1 ++ ·)
  else found

lemma firstN_cons : firstN n (e :: es) fs =
    ((picks fs).filter fun p => !e.1.provablyDistinct p.1.1).foldl (extend n e es) [] := by
  rw [firstN]
  rfl

lemma mem_extend {found : List (List Equation)} {p : Entry × List Entry}
    (h : qs ∈ extend n e es found p) :
    qs ∈ found ∨ ∃ m, ∃ rs ∈ firstN m es p.2, qs = sides e p.1 ++ rs := by
  unfold extend at h
  split at h
  · refine (List.mem_append.mp h).imp_right fun h => ?_
    obtain ⟨rs, hrs, rfl⟩ := List.mem_map.mp h
    exact ⟨_, rs, hrs, rfl⟩
  · exact .inl h

/-- Whatever is found is a pairing. -/
theorem pairs_of_mem_firstN (h : qs ∈ firstN n es fs) : Pairs es fs qs := by
  induction es generalizing n fs qs with
  | nil =>
      rw [firstN] at h
      rw [List.mem_singleton.mp (List.mem_of_mem_take h)]
      exact .nil
  | cons e es ih =>
      have found : ∀ (ps : List (Entry × List Entry)) (acc : List (List Equation)),
          (∀ p ∈ ps, p ∈ picks fs ∧ e.1.provablyDistinct p.1.1 = false) →
          (∀ rs ∈ acc, Pairs (e :: es) fs rs) →
          ∀ rs ∈ ps.foldl (extend n e es) acc, Pairs (e :: es) fs rs := by
        intro ps
        induction ps with
        | nil => exact fun _ _ hacc => hacc
        | cons p ps ihp =>
            intro acc hps hacc
            rw [List.forall_mem_cons] at hps
            refine ihp _ hps.2 fun rs hrs => ?_
            rcases mem_extend hrs with hrs | ⟨m, qs, hqs, rfl⟩
            · exact hacc rs hrs
            · exact .cons hps.1.1 hps.1.2 (ih hqs)
      rw [firstN_cons] at h
      refine found _ [] (fun p hp => ?_) (by simp) qs h
      obtain ⟨hp, hd⟩ := List.mem_filter.mp hp
      exact ⟨hp, by simpa using hd⟩

lemma length_le_length_foldl (ps : List (Entry × List Entry)) (acc : List (List Equation)) :
    acc.length ≤ (ps.foldl (extend n e es) acc).length := by
  induction ps generalizing acc with
  | nil => exact Nat.le_refl _
  | cons p ps ih =>
      refine Nat.le_trans ?_ (ih _)
      unfold extend
      split
      · simp
      · exact Nat.le_refl _

/-- Where fewer pairings are found than asked for, all are found. -/
theorem mem_firstN (h : Pairs es fs qs) (hlt : (firstN n es fs).length < n) :
    qs ∈ firstN n es fs := by
  induction h generalizing n with
  | nil =>
      rw [firstN] at hlt ⊢
      cases n with
      | zero => simp at hlt
      | succ n => simp
  | @cons e f es fs rest qs hp hd _ ih =>
      rw [firstN_cons] at hlt ⊢
      -- nothing found is lost, and the partner `f` comes with all pairings of the others
      have found : ∀ (ps : List (Entry × List Entry)) (acc : List (List Equation)),
          (ps.foldl (extend n e es) acc).length < n →
          (sides e f ++ qs ∈ acc ∨ (f, rest) ∈ ps) →
          sides e f ++ qs ∈ ps.foldl (extend n e es) acc := by
        intro ps
        induction ps with
        | nil => exact fun _ _ h => h.resolve_right (by simp)
        | cons p ps ihp =>
            intro acc hlt hmem
            refine ihp _ hlt ?_
            have hle : (extend n e es acc p).length < n :=
              Nat.lt_of_le_of_lt (length_le_length_foldl ps _) hlt
            unfold extend at hle ⊢
            by_cases hacc : acc.length < n
            · rw [if_pos hacc] at hle ⊢
              rcases hmem with hmem | hmem
              · exact .inl (List.mem_append_left _ hmem)
              · rcases List.mem_cons.mp hmem with rfl | hmem
                · rw [List.length_append, List.length_map] at hle
                  dsimp only at hle
                  have hfew : (firstN (n - acc.length) es rest).length < n - acc.length := by omega
                  exact .inl (List.mem_append_right _ (List.mem_map.mpr ⟨qs, ih hfew, rfl⟩))
                · exact .inr hmem
            · rw [if_neg hacc] at hle
              exact absurd hle hacc
      exact found _ [] hlt (.inr (List.mem_filter.mpr ⟨hp, by simpa using hd⟩))

end SolvedForm.Pairing

import Mathlib
import SolvedForm.Proofs.Unification.Search

/-!
The pairings that are enumerated.

* `Pairing.mem_assignments`, `Pairing.nodup_assignments`: the assignments of a list without
  repetitions are its choices of different partners, each of them once.
* `Pairing.admissible`: the bijections that pair no provably distinct keys.
* `Pairing.search_complete`: the search is complete exactly when there are few such bijections, and
  then it has found each of them once.
-/

namespace SolvedForm.Pairing

open Decomposition (maxAlternatives)

variable {α β γ : Type} {fits : α → β → Bool} {as : List α} {bs gs : List β} {n : Nat}
  {es fs : List Entry}

/-! ### Assignments -/

/-- The members of a list without repetitions are given out at most once. -/
lemma mem_assignments [DecidableEq β] (h : bs.Nodup) : gs ∈ assignments fits as bs ↔
    gs.Nodup ∧ (∀ g ∈ gs, g ∈ bs) ∧ List.Forall₂ (fun a g => fits a g = true) as gs := by
  induction as generalizing bs gs with
  | nil =>
      rw [assignments, List.mem_singleton, List.forall₂_nil_left_iff]
      constructor
      · rintro rfl
        simp
      · exact fun hgs => hgs.2.2
  | cons a as ih =>
      rw [assignments, picks_eq_map_erase h]
      simp only [List.mem_flatMap, List.mem_filter, List.mem_map]
      constructor
      · rintro ⟨_, ⟨⟨b, hb, rfl⟩, hfit⟩, gs, hgs, rfl⟩
        obtain ⟨hnodup, hmem, hfits⟩ := (ih (h.erase b)).mp hgs
        have hother : ∀ g ∈ gs, g ≠ b ∧ g ∈ bs := fun g hg => h.mem_erase_iff.mp (hmem g hg)
        exact ⟨List.nodup_cons.mpr ⟨fun hg => (hother b hg).1 rfl, hnodup⟩,
          List.forall_mem_cons.mpr ⟨hb, fun g hg => (hother g hg).2⟩, .cons hfit hfits⟩
      · rintro ⟨hnodup, hmem, hfits⟩
        cases hfits with
        | @cons _ b _ gs hfit hfits =>
            obtain ⟨hb, hnodup⟩ := List.nodup_cons.mp hnodup
            rw [List.forall_mem_cons] at hmem
            refine ⟨_, ⟨⟨b, hmem.1, rfl⟩, hfit⟩, gs, (ih (h.erase b)).mpr ⟨hnodup, fun g hg => ?_,
              hfits⟩, rfl⟩
            exact h.mem_erase_iff.mpr ⟨fun heq => hb (heq ▸ hg), hmem.2 g hg⟩

/-- No assignment comes twice, when no partner does. -/
lemma nodup_assignments [DecidableEq β] (h : bs.Nodup) : (assignments fits as bs).Nodup := by
  induction as generalizing bs with
  | nil => exact List.nodup_singleton []
  | cons a as ih =>
      rw [assignments, picks_eq_map_erase h, List.nodup_flatMap]
      constructor
      · intro p hp
        obtain ⟨b, -, rfl⟩ := List.mem_map.mp (List.mem_of_mem_filter hp)
        exact (ih (h.erase b)).map fun _ _ heq => (List.cons.inj heq).2
      · -- assignments with different first partners are different
        refine .filter _ (List.pairwise_map.mpr (h.imp fun hne => ?_))
        simp only [Function.onFun, List.disjoint_left, List.mem_map]
        rintro _ ⟨gs, -, rfl⟩ ⟨gs', -, heq⟩
        exact hne (List.cons.inj heq).1.symm

/-! ### Bijections -/

/-- The bijections between the entries that pair no provably distinct keys. -/
def admissible (es fs : List Entry) : Finset (Fin es.length ≃ Fin fs.length) :=
  Finset.univ.filter fun π => ∀ i, (es.get i).1.provablyDistinct (fs.get (π i)).1 = false

/-- The equations of a bijection, in the order of the first list. -/
def pairing (es fs : List Entry) (π : Fin es.length ≃ Fin fs.length) : List Equation :=
  (List.finRange es.length).flatMap fun i => sides (es.get i) (fs.get (π i))

lemma zipWith_finRange {f : α → β → γ} {g : Fin as.length → β} :
    List.zipWith f as ((List.finRange as.length).map g) =
      (List.finRange as.length).map fun i => f (as.get i) (g i) := by
  conv_lhs => arg 2; rw [← List.map_get_finRange as]
  rw [List.zipWith_map, List.zipWith_self]

lemma forall₂_finRange {R : α → β → Prop} {g : Fin as.length → β} :
    List.Forall₂ R as ((List.finRange as.length).map g) ↔ ∀ i, R (as.get i) (g i) := by
  conv_lhs => arg 2; rw [← List.map_get_finRange as]
  rw [List.forall₂_map_left_iff, List.forall₂_map_right_iff, List.forall₂_same]
  exact ⟨fun h i => h i (List.mem_finRange i), fun h i _ => h i⟩

/-- A list without repetitions is the list of the values of a bijection, if it is long enough. -/
lemma exists_equiv {m : Nat} {js : List (Fin m)} (h : js.Nodup) (hn : n = js.length) (hm : n = m) :
    ∃ π : Fin n ≃ Fin m, js = (List.finRange n).map fun i => π i := by
  subst hn
  have hbij : Function.Bijective js.get := (Fintype.bijective_iff_injective_and_card _).mpr
    ⟨List.nodup_iff_injective_get.mp h, by simpa using hm⟩
  exact ⟨.ofBijective _ hbij, (List.map_get_finRange js).symm⟩

/-- Between lists of the same length, the assignments are the admissible bijections. -/
lemma coe_assignments (h : es.length = fs.length) :
    (assignments (fun e j => mayMatch e (fs.get j)) es (List.finRange fs.length) :
      Multiset (List (Fin fs.length))) =
      (admissible es fs).val.map fun π => (List.finRange es.length).map fun i => π i := by
  have hfs := List.nodup_finRange fs.length
  have hinj : Function.Injective fun π : Fin es.length ≃ Fin fs.length =>
      (List.finRange es.length).map fun i => π i := fun π ρ heq =>
    Equiv.ext fun i => List.map_inj_left.mp heq i (List.mem_finRange i)
  have hfits : ∀ π : Fin es.length ≃ Fin fs.length, π ∈ admissible es fs ↔
      List.Forall₂ (fun e j => mayMatch e (fs.get j) = true) es
        ((List.finRange es.length).map fun i => π i) := by
    intro π
    rw [forall₂_finRange, admissible, Finset.mem_filter]
    simp [mayMatch]
  refine (Multiset.Nodup.ext (Multiset.coe_nodup.mpr (nodup_assignments hfs))
    ((admissible es fs).nodup.map hinj)).mpr fun js => ?_
  rw [Multiset.mem_coe, mem_assignments hfs, Multiset.mem_map]
  constructor
  · rintro ⟨hnodup, -, hjs⟩
    obtain ⟨π, rfl⟩ := exists_equiv hnodup hjs.length_eq h
    exact ⟨π, (hfits π).mpr hjs, rfl⟩
  · rintro ⟨π, hπ, rfl⟩
    exact ⟨(List.nodup_finRange _).map π.injective, fun j _ => List.mem_finRange j, (hfits π).mp hπ⟩

/-- From the start the search adds the pairings of the admissible bijections, each of them once. -/
lemma coe_alternatives (h : es.length = fs.length) :
    (alternatives fs [] es (List.finRange fs.length) : Multiset (List Equation)) =
      (admissible es fs).val.map (pairing es fs) := by
  rw [alternatives, ← Multiset.map_coe, coe_assignments h, Multiset.map_map]
  refine Multiset.map_congr rfl fun π _ => ?_
  rw [Function.comp_apply, List.nil_append, List.map_map, equations, zipWith_finRange]
  rfl

/-! ### Completeness -/

/-- For lists of the same length, the search is complete exactly when there are few bijections that
pair no provably distinct keys. Then it has found the equations of each of these bijections once, no
entry is in use any more and no equation is left over. In any case the pairings found are the first
ones, by the choices of the search. -/
theorem search_complete (h : es.length = fs.length) :
    ((search es fs).1 = true ↔ (admissible es fs).card ≤ maxAlternatives) ∧
      ((search es fs).1 = true → ((search es fs).2.found : Multiset (List Equation)) =
          (admissible es fs).val.map (pairing es fs) ∧
        (search es fs).2.used = .replicate fs.length false ∧ (search es fs).2.current = []) ∧
      (search es fs).2.found = firstN (maxAlternatives + 1) es fs := by
  have hcard : (alternatives fs [] es (List.finRange fs.length)).length =
      (admissible es fs).card := by
    rw [← Multiset.coe_card, coe_alternatives h, Multiset.card_map, Finset.card_val]
  refine ⟨hcard ▸ (finds_search es fs).fst_eq, fun hr => ?_, found_search es fs⟩
  rw [(finds_search es fs).snd_eq hr]
  exact ⟨coe_alternatives h, rfl, rfl⟩

/-- The first choice for `X` leaves no partner for the other key, and nothing of it comes into the
pairing found after it. -/
theorem search_complete_exhausted :
    let var (name : String) : Term := .var ⟨name, .int, false, none⟩
    let es : List Entry := [(var "X", .int 5), (.int 1, var "Z")]
    let fs : List Entry := [(var "Y", .int 5), (.int 2, .int 5)]
    es.length = fs.length ∧ (search es fs).1 = true ∧
      (search es fs).2.found = [[⟨var "X", .int 2⟩, ⟨.int 1, var "Y"⟩, ⟨var "Z", .int 5⟩]] ∧
      (admissible es fs).card ≤ maxAlternatives ∧
      ((search es fs).2.found : Multiset (List Equation)) =
        (admissible es fs).val.map (pairing es fs) := by
  intro var es fs
  have hlength : es.length = fs.length := rfl
  have hr : (search es fs).1 = true := by decide
  obtain ⟨hcard, hfound, -⟩ := search_complete hlength
  exact ⟨hlength, hr, by decide, hcard.mp hr, (hfound hr).1⟩

end SolvedForm.Pairing

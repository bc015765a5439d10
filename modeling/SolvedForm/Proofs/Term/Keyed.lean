import SolvedForm.Proofs.Term.Part
import SolvedForm.Proofs.Unification.Maps

/-!
Maps with one entry for each key.

* `Term.Keyed`: within the term every map has its entries in the order of their keys, which are all
  different.
* `Term.keyed_iff`: this is so when the maps are in order and none of them has two entries with the same
  key.
* `Entry.shared`, `Entry.mem_shared`: the values under the keys that two maps have both.
* `Entry.shared_swap`: two such maps meet in the same keys, and in the same order, from either side.
-/

namespace SolvedForm

open Std Term

/-- The keys of the entries go up. -/
abbrev Entry.KeysIncrease (es : List Entry) : Prop := es.Pairwise fun e f => e.1.compare f.1 = .lt

/-- The entries of every map inside the term are in order, and have different keys. -/
inductive Term.Keyed : Term → Prop where
  | var (x : Var) : Keyed (.var x)
  | bool (b : Bool) : Keyed (.bool b)
  | int (i : Int64) : Keyed (.int i)
  | app (f : Symbol) {args : List Term} : (∀ t ∈ args, Keyed t) → Keyed (.app f args)
  | map {es : List Entry} (frame : Option Var) : Entry.KeysIncrease es → (∀ e ∈ es, Keyed e.1) →
      (∀ e ∈ es, Keyed e.2) → Keyed (.map es frame)
  | lookup {m k : Term} : Keyed m → Keyed k → Keyed (.lookup m k)

variable {es fs : List Entry} {x : Option Var} {f : Symbol} {args : List Term} {t : Term}

namespace Entry

/-- Entries with different keys are compared by their keys. -/
lemma compare_iff {e f : Entry} :
    e.1.compare f.1 = .lt ↔ compareEntry e f = .lt ∧ e.1 ≠ f.1 := by
  unfold compareEntry Sorted.pairs
  rw [Ordering.then_eq_lt]
  constructor
  · exact fun h => ⟨.inl h, fun heq => by simp [heq, ReflCmp.compare_self] at h⟩
  · rintro ⟨h | ⟨heq, -⟩, hne⟩
    · exact h
    · exact absurd (LawfulEqCmp.eq_of_compare heq) hne

lemma keysIncrease_iff :
    KeysIncrease es ↔ Sorted.Increasing compareEntry es ∧ (es.map (·.1)).Nodup := by
  rw [List.Nodup, List.pairwise_map, Sorted.Increasing, ← List.pairwise_and_iff]
  exact ⟨.imp compare_iff.mp, .imp compare_iff.mpr⟩

lemma KeysIncrease.nodup (h : KeysIncrease es) : (es.map (·.1)).Nodup := (keysIncrease_iff.mp h).2

end Entry

namespace Term

lemma Keyed.arg (h : (Term.app f args).Keyed) : ∀ a ∈ args, a.Keyed := by
  cases h with
  | app _ h => exact h

lemma Keyed.entries (h : (Term.map es x).Keyed) : ∀ e ∈ es, e.1.Keyed ∧ e.2.Keyed := by
  cases h with
  | map _ _ hk hv => exact fun e he => ⟨hk e he, hv e he⟩

lemma Keyed.keysIncrease (h : (Term.map es x).Keyed) : Entry.KeysIncrease es := by
  cases h with
  | map _ h _ _ => exact h

lemma Keyed.of_lookup {m k : Term} (h : (Term.lookup m k).Keyed) : m.Keyed ∧ k.Keyed := by
  cases h with
  | lookup hm hk => exact ⟨hm, hk⟩

lemma Keyed.of_part {s : Term} (ht : t.Keyed) (h : Part s t) : s.Keyed :=
  Part.closed Keyed.arg Keyed.entries Keyed.of_lookup ht h

/-- The entries of every map have different keys and are in order, as those of all maps are. -/
theorem keyed_iff :
    t.Keyed ↔ t.Canonical ∧ ∀ es x, Part (.map es x) t → (es.map (·.1)).Nodup := by
  constructor
  · refine fun h => ⟨?_, fun es x hm => (h.of_part hm).keysIncrease.nodup⟩
    induction h with
    | var x => exact .var x
    | bool b => exact .bool b
    | int i => exact .int i
    | app f _ ih => exact .app f ih
    | map frame hes _ _ ihk ihv => exact .map frame (Entry.keysIncrease_iff.mp hes).1 ihk ihv
    | lookup _ _ ihm ihk => exact .lookup ihm ihk
  · rintro ⟨hc, hkeys⟩
    induction hc with
    | var x => exact .var x
    | bool b => exact .bool b
    | int i => exact .int i
    | app f _ ih => exact .app f fun a ha => ih a ha fun es x hm => hkeys es x (.arg ha hm)
    | map frame hes _ _ ihk ihv =>
        exact .map frame (Entry.keysIncrease_iff.mpr ⟨hes, hkeys _ _ .refl⟩)
          (fun e he => ihk e he fun es x hm => hkeys es x (.key he hm))
          fun e he => ihv e he fun es x hm => hkeys es x (.value he hm)
    | lookup _ _ ihm ihk =>
        exact .lookup (ihm fun es x hm => hkeys es x (.table hm))
          (ihk fun es x hm => hkeys es x (.index hm))

end Term

/-! ### Common keys -/

namespace Entry

/-- The keys that both lists of entries have, with their values, in the order of the first list. -/
def shared (es fs : List Entry) : List (Term × Term × Term) :=
  es.filterMap fun e => (valueAt e.1 fs).map fun w => (e.1, e.2, w)

lemma mem_shared (hfs : KeysIncrease fs) {c : Term × Term × Term} :
    c ∈ shared es fs ↔ (c.1, c.2.1) ∈ es ∧ (c.1, c.2.2) ∈ fs := by
  obtain ⟨k, v, w⟩ := c
  simp only [shared, List.mem_filterMap, Option.map_eq_some_iff, Prod.mk.injEq]
  constructor
  · rintro ⟨e, he, u, hu, rfl, rfl, rfl⟩
    exact ⟨he, Decomposition.mem_of_lookup hu⟩
  · rintro ⟨he, hf⟩
    exact ⟨(k, v), he, w, Decomposition.lookup_of_mem hfs.nodup hf, rfl, rfl, rfl⟩

lemma shared_increase (hes : KeysIncrease es) (fs : List Entry) :
    (shared es fs).Pairwise fun c d => c.1.compare d.1 = .lt := by
  refine List.Pairwise.filterMap _ (fun e f hef c hc d hd => ?_) hes
  obtain ⟨v, -, rfl⟩ := Option.map_eq_some_iff.mp hc
  obtain ⟨w, -, rfl⟩ := Option.map_eq_some_iff.mp hd
  exact hef

/-- The common keys are found in the same order from either side. -/
theorem shared_swap (hes : KeysIncrease es) (hfs : KeysIncrease fs) :
    shared fs es = (shared es fs).map fun c => (c.1, c.2.2, c.2.1) := by
  have irrefl : ∀ {c d : Term × Term × Term}, c.1.compare d.1 = .lt → c ≠ d := by
    rintro c d h rfl
    simp [ReflCmp.compare_self] at h
  have hl := shared_increase hfs es
  have hr : ((shared es fs).map fun c => (c.1, c.2.2, c.2.1)).Pairwise
      fun c d => c.1.compare d.1 = .lt := List.pairwise_map.mpr (shared_increase hes fs)
  refine List.Perm.eq_of_pairwise
    (fun c d _ _ hcd hdc => absurd hdc (@OrientedCmp.not_lt_of_lt _ Term.compare _ c.1 d.1 hcd)) hl hr
    ((List.perm_ext_iff_of_nodup (hl.imp irrefl) (hr.imp irrefl)).mpr fun c => ?_)
  rw [mem_shared hes, List.mem_map]
  constructor
  · exact fun h => ⟨(c.1, c.2.2, c.2.1), (mem_shared hfs).mpr ⟨h.2, h.1⟩, rfl⟩
  · rintro ⟨d, hd, rfl⟩
    exact ((mem_shared hfs).mp hd).symm

end Entry

end SolvedForm

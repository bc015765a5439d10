import SolvedForm.Proofs.Term.Frames
import SolvedForm.Proofs.Unification.Decomposition

/-!
Two maps under a substitution, and the entries that are left over between them.

* `Substitution.images`: the entries of a map under a substitution.
* `Substitution.exists_spread`: a map under a substitution has these entries, and those that its
  frame stands for.
* `Substitution.mem_images_matched`: the entries of a map are those that are left over and those whose
  keys the other map has as well.
* `Substitution.Matches.apply_map_eq`: where the values under common keys agree, two maps become equal
  when what is left over between them does.
-/

namespace SolvedForm

open Term Decomposition

variable {es fs rest : List Entry} {x y : Option Var}

/-! ### Entries found and left over -/

/-- Under different keys, the entry with a given key is the one that look-up finds. -/
lemma Decomposition.lookup_of_mem {f : Entry} (hfs : (fs.map (·.1)).Nodup) (hf : f ∈ fs) :
    List.lookup f.1 fs = some f.2 := by
  induction fs with
  | nil => cases hf
  | cons g fs ih =>
      rw [List.map_cons, List.nodup_cons] at hfs
      rw [List.lookup_cons]
      rcases List.mem_cons.mp hf with rfl | hf
      · simp
      · have hne : f.1 ≠ g.1 := fun heq => hfs.1 (heq ▸ List.mem_map_of_mem hf)
        rw [beq_false_of_ne hne]
        exact ih hfs.2 hf

lemma Decomposition.mem_of_lookup {k w : Term} (h : List.lookup k fs = some w) : (k, w) ∈ fs := by
  induction fs with
  | nil => cases h
  | cons g fs ih =>
      rw [List.lookup_cons] at h
      split at h
      · next heq =>
          rw [beq_iff_eq] at heq
          obtain rfl := Option.some.inj h
          exact heq ▸ List.mem_cons_self
      · exact List.mem_cons_of_mem g (ih h)

lemma Decomposition.mem_leftover {e : Entry} :
    e ∈ leftover es fs ↔ e ∈ es ∧ ∀ f ∈ fs, f.1 ≠ e.1 := by
  simp [leftover]

namespace Substitution

variable {u : Substitution}

/-- The entries under a substitution. -/
def images (u : Substitution) (es : List Entry) : List Entry :=
  es.map fun e => (u.apply e.1, u.apply e.2)

lemma mem_images {c : Entry} : c ∈ u.images es ↔ ∃ e ∈ es, (u.apply e.1, u.apply e.2) = c :=
  List.mem_map

lemma apply_ofEntries_eq_map : u.apply (ofEntries es x) = u.apply (.map es x) := by
  rw [apply_ofEntries, apply_map]

/-- A frame stands for entries and a further frame, whatever map it belongs to. -/
lemma exists_spread (u : Substitution) (x : Option Var) :
    ∃ rest y, ∀ es, u.apply (.map es x) = ofEntries (u.images es ++ rest) y := by
  simp only [apply_map]
  cases x with
  | none => exact ⟨[], none, fun es => by rw [List.append_nil]; rfl⟩
  | some x =>
      simp only [reframe]
      cases u.apply (.var x) with
      | var y => exact ⟨[], some y, fun es => by rw [List.append_nil]; rfl⟩
      | map rest y => exact ⟨rest, y, fun es => rfl⟩
      | bool | int | app | lookup => exact ⟨[], some x, fun es => by rw [List.append_nil]; rfl⟩

/-- A frame that is bound to a map has its entries joined to those of the map it belongs to. -/
lemma apply_map_of_frame {z : Var} (h : u.apply (.var z) = u.apply (.map fs y)) :
    u.apply (.map es (some z)) = u.apply (.map (es ++ fs) y) := by
  rw [apply_map u fs] at h
  rw [apply_map, apply_map, reframe_reframe h, List.map_append]

lemma apply_map_congr (h : ∀ e, e ∈ es ↔ e ∈ fs) : u.apply (.map es x) = u.apply (.map fs x) := by
  rw [← apply_ofEntries_eq_map, ← apply_ofEntries_eq_map, ofEntries_congr h]

/-! ### Entries left over -/

/-- The entries of a map under a substitution: those left over, and those with a key that the other
map has as well. -/
lemma mem_images_matched (u : Substitution) (es fs : List Entry) (c : Entry) :
    c ∈ u.images es ↔ c ∈ u.images (leftover es fs) ∨
      ∃ e ∈ es, ∃ f ∈ fs, f.1 = e.1 ∧ (u.apply e.1, u.apply e.2) = c := by
  simp only [mem_images, mem_leftover]
  constructor
  · rintro ⟨e, he, rfl⟩
    by_cases h : ∃ f ∈ fs, f.1 = e.1
    · obtain ⟨f, hf, heq⟩ := h
      exact .inr ⟨e, he, f, hf, heq, rfl⟩
    · exact .inl ⟨e, ⟨he, fun f hf heq => h ⟨f, hf, heq⟩⟩, rfl⟩
  · rintro (⟨e, ⟨he, -⟩, rfl⟩ | ⟨e, he, f, -, -, rfl⟩)
    · exact ⟨e, he, rfl⟩
    · exact ⟨e, he, rfl⟩

/-- The substitution makes the values under common keys of the two maps equal. -/
def Matches (u : Substitution) (es fs : List Entry) : Prop :=
  ∀ e ∈ es, ∀ w, List.lookup e.1 fs = some w → u.apply e.2 = u.apply w

/-- The entries under common keys are the same on both sides. -/
lemma Matches.common_iff (h : u.Matches es fs) (hfs : (fs.map (·.1)).Nodup) (c : Entry) :
    (∃ e ∈ es, ∃ f ∈ fs, f.1 = e.1 ∧ (u.apply e.1, u.apply e.2) = c) ↔
      ∃ f ∈ fs, ∃ e ∈ es, e.1 = f.1 ∧ (u.apply f.1, u.apply f.2) = c := by
  have hvalue : ∀ e ∈ es, ∀ f ∈ fs, f.1 = e.1 →
      (u.apply e.1, u.apply e.2) = (u.apply f.1, u.apply f.2) := fun e he f hf heq => by
    rw [h e he f.2 (heq ▸ lookup_of_mem hfs hf), heq]
  constructor
  · rintro ⟨e, he, f, hf, heq, rfl⟩
    exact ⟨f, hf, e, he, heq.symm, (hvalue e he f hf heq).symm⟩
  · rintro ⟨f, hf, e, he, heq, rfl⟩
    exact ⟨e, he, f, hf, heq.symm, hvalue e he f hf heq.symm⟩

/-- Where the values under common keys agree, two maps become equal when what is left over between
them does. -/
lemma Matches.apply_map_eq (h : u.Matches es fs) (hfs : (fs.map (·.1)).Nodup)
    (hrest : u.apply (.map (leftover es fs) x) = u.apply (.map (leftover fs es) y)) :
    u.apply (.map es x) = u.apply (.map fs y) := by
  obtain ⟨restx, x', hx⟩ := exists_spread u x
  obtain ⟨resty, y', hy⟩ := exists_spread u y
  rw [hx, hy, ofEntries_inj] at hrest ⊢
  refine ⟨fun c => ?_, hrest.2⟩
  have hc := hrest.1 c
  rw [List.mem_append, List.mem_append] at hc ⊢
  rw [mem_images_matched u es fs, mem_images_matched u fs es, h.common_iff hfs, or_right_comm, hc,
    or_right_comm]

end Substitution

end SolvedForm

import SolvedForm.Proofs.Term.Nodes
import SolvedForm.Proofs.Term.Part

/-!
The keys that a substitution leaves in its instances.

* `Term.mem_vars_reframe_of_mem`, `Substitution.mem_vars_apply_of_part`: replacing a frame loses no
  entry, so that what occurs in the instance of a part occurs in the instance of the whole.
* `Substitution.Acyclic.exists_part`, `Substitution.mem_vars_apply_of_unplaced`: a key that occurs in an
  instance is a frame that its value cannot replace, and such a frame stays.
* `Substitution.mem_vars_apply_key_iff`: the keys of an acyclic substitution that occur in an
  instance.
* `Substitution.mem_vars_apply_frame`: there are such keys.
-/

namespace SolvedForm

open Term

variable {σ : Substitution} {x : Var} {s t v : Term} {es : List Entry} {frame : Option Var}

/-- A map whose frame has been given a value keeps its entries. -/
lemma Term.mem_vars_reframe_of_mem {image : Var → Term} {e : Entry} (he : e ∈ es)
    (hx : x ∈ e.1.vars ∨ x ∈ e.2.vars) : x ∈ (reframe es frame image).vars := by
  unfold reframe
  split
  · exact mem_vars_ofEntries.mpr (.inl ⟨e, he, hx⟩)
  · split
    · exact mem_vars_ofEntries.mpr (.inl ⟨e, he, hx⟩)
    · exact mem_vars_ofEntries.mpr (.inl ⟨e, List.mem_append_left _ he, hx⟩)
    · exact mem_vars_ofEntries.mpr (.inl ⟨e, he, hx⟩)

namespace Substitution

/-- The variables of the instance of a part occur in the instance of the whole. -/
lemma mem_vars_apply_of_part (h : Part s t) (hx : x ∈ (σ.apply s).vars) : x ∈ (σ.apply t).vars := by
  have entry : ∀ {es : List Entry} {frame : Option Var} {e : Entry}, e ∈ es →
      x ∈ (σ.apply e.1).vars ∨ x ∈ (σ.apply e.2).vars → x ∈ (σ.apply (.map es frame)).vars := by
    intro es frame e he hx
    rw [apply_map]
    exact mem_vars_reframe_of_mem (List.mem_map_of_mem he) hx
  induction h with
  | refl => exact hx
  | arg ha _ ih =>
      rw [apply_app, mem_vars_app]
      exact ⟨_, List.mem_map_of_mem ha, ih⟩
  | key he _ ih => exact entry he (.inl ih)
  | value he _ ih => exact entry he (.inr ih)
  | table _ ih =>
      rw [apply_lookup, mem_vars_lookup]
      exact .inl ih
  | index _ ih =>
      rw [apply_lookup, mem_vars_lookup]
      exact .inr ih

/-- A key does not occur in what a variable stands for. -/
lemma Acyclic.not_mem_vars_apply_var (h : σ.Acyclic) (hx : x ∈ σ.keys) (y : Var) :
    x ∉ (σ.apply (.var y)).vars := by
  rw [Substitution.apply_var]
  cases hy : σ.find? y with
  | none =>
      rw [Option.getD_none, vars_var, List.mem_singleton]
      rintro rfl
      exact find?_eq_none_iff.mp hy hx
  | some u => exact fun hu => h.not_mem_keys hy hu hx

/-- A key that occurs in an instance is a frame of the term, and its value cannot take the place of a
frame. -/
lemma Acyclic.exists_part (h : σ.Acyclic) (hv : σ.find? x = some v) (hx : x ∈ (σ.apply t).vars) :
    v.isFrame = false ∧ ∃ es, Part (.map es (some x)) t := by
  have hkey : x ∈ σ.keys := mem_keys_iff.mpr ⟨v, hv⟩
  have within : ∀ {s t : Term}, (∀ r, Part r s → Part r t) →
      (v.isFrame = false ∧ ∃ es, Part (.map es (some x)) s) →
      v.isFrame = false ∧ ∃ es, Part (.map es (some x)) t :=
    fun hst => And.imp_right fun ⟨es, hes⟩ => ⟨es, hst _ hes⟩
  induction t using Term.ind with
  | var y => exact absurd hx (h.not_mem_vars_apply_var hkey y)
  | bool | int => cases hx
  | app f args ih =>
      rw [apply_app, mem_vars_app] at hx
      obtain ⟨_, himage, hx⟩ := hx
      obtain ⟨a, ha, rfl⟩ := List.mem_map.mp himage
      exact within (fun _ => .arg ha) (ih a ha hx)
  | map es frame ih =>
      rw [apply_map] at hx
      rcases mem_vars_reframe hx with ⟨_, himage, hx⟩ | ⟨y, rfl, hx | ⟨rfl, hplace⟩⟩
      · obtain ⟨e, he, rfl⟩ := List.mem_map.mp himage
        rcases hx with hx | hx
        · exact within (fun _ => .key he) ((ih e he).1 hx)
        · exact within (fun _ => .value he) ((ih e he).2 hx)
      · exact absurd hx (h.not_mem_vars_apply_var hkey y)
      · rw [Substitution.apply_var, hv, Option.getD_some] at hplace
        exact ⟨hplace, es, .refl⟩
  | lookup m k ihm ihk =>
      rw [apply_lookup, mem_vars_lookup] at hx
      rcases hx with hx | hx
      · exact within (fun _ => .table) (ihm hx)
      · exact within (fun _ => .index) (ihk hx)

/-- A frame whose value cannot take its place stays where it is. -/
lemma mem_vars_apply_of_unplaced (hv : σ.find? x = some v) (hplace : v.isFrame = false)
    (h : Part (.map es (some x)) t) : x ∈ (σ.apply t).vars := by
  refine mem_vars_apply_of_part h ?_
  rw [apply_map, reframe, apply_var, hv, Option.getD_some]
  cases v with
  | var | map => cases hplace
  | bool | int | app | lookup => exact mem_vars_ofEntries.mpr (.inr rfl)

/-- An acyclic substitution eliminates its keys, but for those frames whose values are neither variables
nor maps: exactly these keys occur in an instance, and as frames only. -/
theorem mem_vars_apply_key_iff (h : σ.isCyclic = false) (t : Term) :
    (∀ x v, σ.find? x = some v →
      (x ∈ (σ.apply t).vars ↔ v.isFrame = false ∧ ∃ es, Part (.map es (some x)) t)) ∧
      (σ.apply t).Nodes (· ∉ σ.keys) := by
  have hacyclic := acyclic_iff.mpr h
  refine ⟨fun x v hv => ⟨hacyclic.exists_part hv, fun ⟨hplace, es, hes⟩ =>
    mem_vars_apply_of_unplaced hv hplace hes⟩, ?_⟩
  exact .apply (fun b hb => .of_vars (hacyclic b hb)) (.of_vars fun _ _ => id)

/-- Of three bound frames only the one that is bound to a number remains. -/
theorem mem_vars_apply_key_iff_frames :
    let frame (name : String) : Var := ⟨name, .map, false, none⟩
    let map (name : String) (t : Term) : Term := .map [(.int 1, t)] (some (frame name))
    let σ : Substitution := .ofList [(frame "L", .var (frame "F")), (frame "M", map "F" (.int 2)),
      (frame "N", .int 3)]
    let t : Term := .app ⟨"f", 2, none, .constructor⟩
      [map "L" (.int 4), .map [(.int 0, map "N" (.int 5))] (some (frame "M"))]
    σ.isCyclic = false ∧ frame "N" ∈ (σ.apply t).vars ∧ frame "L" ∉ (σ.apply t).vars ∧
      frame "M" ∉ (σ.apply t).vars ∧ (σ.apply t).Nodes (· ∉ σ.keys) := by
  intro frame map σ t
  have hcyclic : σ.isCyclic = false := by decide
  obtain ⟨hkey, hnodes⟩ := mem_vars_apply_key_iff hcyclic t
  have hn : Part (map "N" (.int 5)) t :=
    .arg (List.mem_cons_of_mem _ List.mem_cons_self) (.value List.mem_cons_self .refl)
  refine ⟨hcyclic, (hkey (frame "N") (.int 3) (by decide)).mpr ⟨rfl, _, hn⟩, ?_, ?_, hnodes⟩
  · exact fun h => nomatch ((hkey (frame "L") (.var (frame "F")) (by decide)).mp h).1
  · exact fun h => nomatch ((hkey (frame "M") (map "F" (.int 2)) (by decide)).mp h).1

/-- A key that is bound to a function application of the sort of maps goes on occurring as the frame of
a map. -/
theorem mem_vars_apply_frame :
    let x : Var := ⟨"M", .map, false, none⟩
    let σ : Substitution := .single x (.app ⟨"g", 0, some .map, .function⟩ [])
    let t : Term := .map [(.app ⟨"a", 0, none, .constructor⟩ [], .int 1)] (some x)
    σ.isCyclic = false ∧ x ∈ σ.keys ∧ x ∈ (σ.apply t).vars := by
  decide

end Substitution

end SolvedForm

import SolvedForm.Proofs.Term.Frames

/-!
The composition of substitutions.

A frame that is bound to anything else than a variable or a map stays where it is, and can be bound
again by the next substitution, when the composition has forgotten it. Where the sort of maps keeps
this from happening, the usual laws hold.

* `Term.MapFramed`, `Substitution.MapSorted`: only variables of the sort of maps and maps stand where
  a map is asked for.
* `Substitution.MapSorted.comp`: such substitutions are closed under composition.
* `Substitution.MapSorted.comp_assoc`: composition is associative, up to the order of the bindings.
* `Substitution.MapSorted.comp_laws`: composition acts as one substitution after the other, is
  associative, and has the empty substitution as its unit.
-/

namespace SolvedForm

open Term

/-- All frames within the term have the sort of maps. -/
def Term.MapFramed (t : Term) : Prop := t.Framed fun x => x.sort = .map

namespace Substitution

variable {ρ σ τ : Substitution} {es : List Entry} {frame : Option Var} {x : Var} {t v : Term}

/-- Variables of the sort of maps are bound to variables of that sort and to maps only, and the frames
within all values have that sort. -/
structure MapSorted (σ : Substitution) : Prop where
  place {x : Var} {v : Term} : σ.find? x = some v → x.sort = .map → v.isFrame = true ∧ v.sort = .map
  frames {x : Var} {v : Term} : σ.find? x = some v → v.MapFramed

lemma empty_comp (hσ : ∀ b ∈ σ.toList, b.2.Canonical) : empty.comp σ = σ := by
  refine ext_toList ?_
  have hvalues : σ.toList.map (fun b => (b.1, empty.apply b.2)) = σ.toList := by
    refine (List.map_congr_left fun b hb => ?_).trans σ.toList.map_id
    exact Prod.ext rfl (apply_eq_self (hσ b hb) (by simp))
  rw [toList_comp, toList_empty, List.filter_nil, List.append_nil, hvalues]

namespace MapSorted

/-! ### Instances -/

/-- What stands for a map goes on doing so. -/
lemma apply_place (hσ : σ.MapSorted) (hplaced : v.isFrame = true) (hsort : v.sort = .map) :
    (σ.apply v).isFrame = true ∧ (σ.apply v).sort = .map := by
  cases v with
  | var x =>
      rw [apply_var]
      cases hx : σ.find? x with
      | none => exact ⟨rfl, hsort⟩
      | some u => exact hσ.place hx hsort
  | map es frame =>
      obtain ⟨fs, y, h⟩ := exists_apply_map σ es frame
      rw [h]
      exact ⟨rfl, rfl⟩
  | bool | int | app | lookup => cases hplaced

lemma mapFramed_ofEntries (hframe : ∀ x, frame = some x → x.sort = .map)
    (hes : ∀ e ∈ es, e.1.MapFramed ∧ e.2.MapFramed) : (ofEntries es frame).MapFramed :=
  .map hframe (fun e he => (hes e (mem_ofEntries_iff.mp he)).1)
    fun e he => (hes e (mem_ofEntries_iff.mp he)).2

lemma mapFramed_apply (hσ : σ.MapSorted) (ht : t.MapFramed) : (σ.apply t).MapFramed := by
  have value : ∀ x, (σ.apply (.var x)).MapFramed := fun x => by
    rw [apply_var]
    cases hx : σ.find? x with
    | none => exact .var x
    | some u => exact hσ.frames hx
  induction ht with
  | var x => exact value x
  | bool b => exact .bool b
  | int i => exact .int i
  | app f _ ih =>
      rw [apply_app]
      exact .app f (List.forall_mem_map.mpr ih)
  | lookup _ _ ihm ihk => exact .lookup ihm ihk
  | @map es frame hframe _ _ ihk ihv =>
      have hes : ∀ e ∈ es.map fun e => (σ.apply e.1, σ.apply e.2), e.1.MapFramed ∧ e.2.MapFramed :=
        List.forall_mem_map.mpr fun e he => ⟨ihk e he, ihv e he⟩
      rw [apply_map]
      cases frame with
      | none => exact mapFramed_ofEntries nofun hes
      | some x =>
          have hplace := hσ.apply_place (v := .var x) rfl (hframe x rfl)
          have hvalue := value x
          cases hx : σ.apply (.var x) with
          | var y =>
              simp only [reframe, hx]
              refine mapFramed_ofEntries (fun z hz => ?_) hes
              rw [hx] at hplace
              exact Option.some.inj hz ▸ hplace.2
          | map rest y =>
              rw [hx] at hvalue
              cases hvalue with
              | map hy hk hv =>
                  simp only [reframe, hx]
                  exact mapFramed_ofEntries hy fun e he => (List.mem_append.mp he).elim (hes e)
                    fun he => ⟨hk e he, hv e he⟩
          | bool | int | app | lookup => simp [hx, isFrame] at hplace

/-! ### The laws -/

lemma apply_comp (hσ : σ.MapSorted) (hτ : τ.MapSorted) (ht : t.MapFramed) :
    (σ.comp τ).apply t = σ.apply (τ.apply t) := by
  refine apply_comp_of_framed (ht.mono fun x hx v hv => ?_)
  obtain ⟨hplaced, hsort⟩ := hτ.place hv hx
  exact ⟨hplaced, (hσ.apply_place hplaced hsort).1⟩

/-- A value under the composition is one of the inner substitution, instantiated, or one of the outer
substitution. -/
lemma cases_comp (h : (σ.comp τ).find? x = some v) :
    (∃ u, τ.find? x = some u ∧ σ.apply u = v) ∨ σ.find? x = some v := by
  rw [find?_comp] at h
  cases hx : τ.find? x with
  | none => exact .inr (by simpa [hx] using h)
  | some u => exact .inl ⟨u, rfl, by simpa [hx] using h⟩

lemma comp (hσ : σ.MapSorted) (hτ : τ.MapSorted) : (σ.comp τ).MapSorted where
  place h hx := by
    rcases cases_comp h with ⟨u, hu, rfl⟩ | hv
    · obtain ⟨hplaced, hsort⟩ := hτ.place hu hx
      exact hσ.apply_place hplaced hsort
    · exact hσ.place hv hx
  frames h := by
    rcases cases_comp h with ⟨u, hu, rfl⟩ | hv
    · exact hσ.mapFramed_apply (hτ.frames hu)
    · exact hσ.frames hv

/-- The bindings are the same, also in their order. -/
lemma comp_assoc (hρ : ρ.MapSorted) (hσ : σ.MapSorted) (hτ : τ.MapSorted) :
    (ρ.comp σ).comp τ = ρ.comp (σ.comp τ) := by
  have inner : τ.toList.map (fun b => (b.1, (ρ.comp σ).apply b.2)) =
      (τ.toList.map fun b => (b.1, σ.apply b.2)).map fun b => (b.1, ρ.apply b.2) := by
    rw [List.map_map]
    exact List.map_congr_left fun b hb =>
      Prod.ext rfl (hρ.apply_comp hσ (hτ.frames (mem_toList_iff.mp hb)))
  have middle : (σ.toList.map fun b => (b.1, ρ.apply b.2)).filter (fun b => !τ.contains b.1) =
      (σ.toList.filter fun b => !τ.contains b.1).map fun b => (b.1, ρ.apply b.2) := by
    rw [List.filter_map]
    rfl
  have outer : (ρ.toList.filter fun b => !σ.contains b.1).filter (fun b => !τ.contains b.1) =
      ρ.toList.filter fun b => !(σ.comp τ).contains b.1 := by
    rw [List.filter_filter]
    refine List.filter_congr fun b _ => ?_
    rw [contains_comp, Bool.not_or]
  refine ext_toList ?_
  rw [toList_comp, toList_comp, toList_comp, toList_comp, List.filter_append, inner, middle, outer,
    List.map_append, List.append_assoc]

/-- Where frames have the sort of maps, composition acts as the inner substitution followed by the
outer one. It is associative, and the empty substitution is its unit; the bindings keep their
order. -/
theorem comp_laws (hρ : ρ.MapSorted) (hσ : σ.MapSorted) (hτ : τ.MapSorted)
    (hcanonical : ∀ b ∈ σ.toList, b.2.Canonical) (ht : t.MapFramed) :
    (σ.comp τ).apply t = σ.apply (τ.apply t) ∧ (σ.comp τ).MapSorted ∧
      (ρ.comp σ).comp τ = ρ.comp (σ.comp τ) ∧ σ.comp empty = σ ∧ empty.comp σ = σ :=
  ⟨hσ.apply_comp hτ ht, hσ.comp hτ, comp_assoc hρ hσ hτ, comp_empty σ, empty_comp hcanonical⟩

/-- The inner substitution puts a map with a frame in the place of a frame; the outer one makes a key
of it equal to one that is there already, and puts in the rest of the entries. -/
theorem comp_laws_spliced :
    let f : Var := ⟨"F", .map, false, none⟩
    let g : Var := ⟨"G", .map, false, none⟩
    let x : Var := ⟨"X", .int, false, none⟩
    let y : Var := ⟨"Y", .int, false, none⟩
    let ρ : Substitution := .ofList [(y, .int 7), (f, .var g)]
    let σ : Substitution := .ofList [(g, .map [(.int 3, .int 4)] none), (x, .int 1), (y, .var x)]
    let τ : Substitution := .ofList [(f, .map [(.var x, .int 2)] (some g)), (x, .var y)]
    let t : Term := .map [(.int 1, .int 2)] (some f)
    σ.apply (τ.apply t) = .map [(.int 1, .int 2), (.int 3, .int 4)] none ∧
      (σ.comp τ).apply t = σ.apply (τ.apply t) ∧ (σ.comp τ).MapSorted ∧
      (ρ.comp σ).comp τ = ρ.comp (σ.comp τ) ∧ σ.comp empty = σ ∧ empty.comp σ = σ := by
  intro f g x y ρ σ τ t
  have sorted : ∀ {bs : List (Var × Term)}, (bs.map (·.1)).Nodup →
      (∀ b ∈ bs, b.1.sort = .map → b.2.isFrame = true ∧ b.2.sort = .map) →
      (∀ b ∈ bs, b.2.MapFramed) → (ofList bs).MapSorted := by
    intro bs hbs hplace hframes
    have hmem : ∀ {x v}, (ofList bs).find? x = some v → (x, v) ∈ bs := fun h =>
      toList_ofList hbs ▸ mem_toList_iff.mpr h
    exact ⟨fun h => hplace _ (hmem h), fun h => hframes _ (hmem h)⟩
  have hmap : ∀ (k v : Term) (z : Option Var), k.MapFramed → v.MapFramed →
      (∀ w, z = some w → w.sort = .map) → (Term.map [(k, v)] z).MapFramed := fun k v z hk hv hz =>
    .map hz (List.forall_mem_singleton.mpr hk) (List.forall_mem_singleton.mpr hv)
  have hρ : ρ.MapSorted := by
    refine sorted (by decide) (by decide) ?_
    simp only [List.forall_mem_cons]
    exact ⟨.int 7, .var g, by simp⟩
  have hσ : σ.MapSorted := by
    refine sorted (by decide) (by decide) ?_
    simp only [List.forall_mem_cons]
    exact ⟨hmap _ _ none (.int 3) (.int 4) nofun, .int 1, .var x, by simp⟩
  have hτ : τ.MapSorted := by
    refine sorted (by decide) (by decide) ?_
    simp only [List.forall_mem_cons]
    exact ⟨hmap _ _ (some g) (.var x) (.int 2) (by rintro _ ⟨⟩; rfl), .var y, by simp⟩
  have ht : t.MapFramed := hmap _ _ (some f) (.int 1) (.int 2) (by rintro _ ⟨⟩; rfl)
  have hcanonical : ∀ b ∈ σ.toList, b.2.Canonical := by
    have hlist : σ.toList = [(g, .map [(.int 3, .int 4)] none), (x, .int 1), (y, .var x)] := rfl
    simp only [hlist, List.forall_mem_cons]
    exact ⟨.map none (List.pairwise_singleton _ _) (List.forall_mem_singleton.mpr (.int 3))
      (List.forall_mem_singleton.mpr (.int 4)), .int 1, .var x, by simp⟩
  exact ⟨by decide, comp_laws hρ hσ hτ hcanonical ht⟩

end MapSorted

end Substitution

end SolvedForm

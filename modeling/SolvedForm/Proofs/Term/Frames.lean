import SolvedForm.Proofs.Term.Frameless

/-!
Substitution into maps with frames.

* `Term.Framed`: all frames of a term satisfy a condition; a term without frames satisfies every
  one.
* `Term.isFrame`: the term can take the place of a frame.
* `Term.Framed.mem_vars_apply`, `Term.mem_vars_apply`: where a variable of an instance comes from.
* `Substitution.apply_ofEntries`: only the set of the entries counts when a substitution is applied
  to a map.
* `Substitution.apply_congr`: only the values of the variables of a term count.
* `Substitution.apply_absorb`: a substitution that solves another one absorbs it, as long as a frame
  that is replaced by a variable can be replaced.
* `Substitution.apply_comp_of_framed`, `Substitution.apply_comp`: composed substitutions act one after
  the other.
-/

namespace SolvedForm

/-- All frames within the term satisfy a condition. -/
inductive Term.Framed (p : Var → Prop) : Term → Prop where
  | var (x : Var) : Framed p (.var x)
  | bool (b : Bool) : Framed p (.bool b)
  | int (i : Int64) : Framed p (.int i)
  | app (f : Symbol) {args : List Term} : (∀ t ∈ args, Framed p t) → Framed p (.app f args)
  | map {es : List Entry} {frame : Option Var} : (∀ x, frame = some x → p x) →
      (∀ e ∈ es, Framed p e.1) → (∀ e ∈ es, Framed p e.2) → Framed p (.map es frame)
  | lookup {m k : Term} : Framed p m → Framed p k → Framed p (.lookup m k)

/-- The term can take the place of a frame. -/
def Term.isFrame : Term → Bool
  | .var _ | .map _ _ => true
  | _ => false

lemma Term.Frameless.framed {t : Term} (h : t.Frameless) (p : Var → Prop) : t.Framed p := by
  induction h with
  | var x => exact .var x
  | bool b => exact .bool b
  | int i => exact .int i
  | app f _ ih => exact .app f ih
  | map _ _ _ ihk ihv => exact .map nofun ihk ihv
  | lookup _ _ ihm ihk => exact .lookup ihm ihk

lemma Term.Framed.mono {p q : Var → Prop} {t : Term} (h : t.Framed p) (hpq : ∀ x, p x → q x) :
    t.Framed q := by
  induction h with
  | var x => exact .var x
  | bool b => exact .bool b
  | int i => exact .int i
  | app f _ ih => exact .app f ih
  | map hframe _ _ ihk ihv => exact .map (fun x hx => hpq x (hframe x hx)) ihk ihv
  | lookup _ _ ihm ihk => exact .lookup ihm ihk

/-- A condition on all variables of a term is one on its frames. -/
lemma Term.framed_of_vars {p : Var → Prop} {t : Term} (h : ∀ x ∈ t.vars, p x) : t.Framed p := by
  induction t using Term.ind with
  | var x => exact .var x
  | bool b => exact .bool b
  | int i => exact .int i
  | app f args ih => exact .app f fun t ht => ih t ht fun x hx => h x (mem_vars_app.mpr ⟨t, ht, hx⟩)
  | map es frame ih =>
      exact .map (fun x hx => h x (mem_vars_map.mpr (.inr hx)))
        (fun e he => (ih e he).1 fun x hx => h x (mem_vars_map.mpr (.inl ⟨e, he, .inl hx⟩)))
        fun e he => (ih e he).2 fun x hx => h x (mem_vars_map.mpr (.inl ⟨e, he, .inr hx⟩))
  | lookup m k ihm ihk =>
      exact .lookup (ihm fun x hx => h x (mem_vars_lookup.mpr (.inl hx)))
        (ihk fun x hx => h x (mem_vars_lookup.mpr (.inr hx)))

namespace Term

variable {es fs : List Entry} {x : Var} {frame : Option Var} {image : Var → Term}

/-! ### Variables -/

lemma mem_vars_reframe (h : x ∈ (reframe es frame image).vars) :
    (∃ e ∈ es, x ∈ e.1.vars ∨ x ∈ e.2.vars) ∨ ∃ y, frame = some y ∧
      (x ∈ (image y).vars ∨ x = y ∧ (image y).isFrame = false) := by
  unfold reframe at h
  split at h
  · exact .inl ((mem_vars_ofEntries.mp h).resolve_right (by simp))
  · next y =>
      refine Or.imp_right (fun hy => ⟨y, rfl, hy⟩) ?_
      split at h
      · next z hz =>
          refine (mem_vars_ofEntries.mp h).imp_right fun hx => ?_
          simp [hz, Option.some.inj hx]
      · next rest z hz =>
          rw [mem_vars_ofEntries] at h
          simp only [hz, mem_vars_map]
          rcases h with ⟨e, he, hx⟩ | hx
          · rcases List.mem_append.mp he with he | he
            · exact .inl ⟨e, he, hx⟩
            · exact .inr (.inl (.inl ⟨e, he, hx⟩))
          · exact .inr (.inl (.inr hx))
      · next hvar hmap =>
          refine (mem_vars_ofEntries.mp h).imp_right fun hx => ?_
          refine .inr ⟨(Option.some.inj hx).symm, ?_⟩
          cases hy : image y with
          | var z => exact absurd hy (hvar z)
          | map rest z => exact absurd hy (hmap rest z)
          | bool | int | app | lookup => rfl

/-- A variable of an instance is an unbound variable of the term, or it comes with the value of
a bound one, as long as the values of frames can take their places. -/
lemma Framed.mem_vars_apply {σ : Substitution} {t : Term}
    (h : t.Framed fun y => ∀ u, σ.find? y = some u → u.isFrame = true)
    (hx : x ∈ (σ.apply t).vars) :
    (x ∈ t.vars ∧ x ∉ σ.keys) ∨ ∃ y u, y ∈ t.vars ∧ σ.find? y = some u ∧ x ∈ u.vars := by
  have of_var : ∀ {y}, x ∈ (σ.apply (.var y)).vars →
      (x = y ∧ x ∉ σ.keys) ∨ ∃ u, σ.find? y = some u ∧ x ∈ u.vars := by
    intro y hx
    rw [Substitution.apply_var] at hx
    cases hy : σ.find? y with
    | none =>
        obtain rfl : x = y := by simpa [hy] using hx
        exact .inl ⟨rfl, Substitution.find?_eq_none_iff.mp hy⟩
    | some u => exact .inr ⟨u, rfl, by simpa [hy] using hx⟩
  induction h with
  | var y => exact (of_var hx).imp (by simp) fun ⟨u, hu⟩ => ⟨y, u, by simp, hu⟩
  | bool b => cases hx
  | int i => cases hx
  | app f _ ih =>
      rw [Substitution.apply_app, mem_vars_app] at hx
      obtain ⟨_, hb, hx⟩ := hx
      obtain ⟨a, ha, rfl⟩ := List.mem_map.mp hb
      refine (ih a ha hx).imp (And.imp_left fun hxa => mem_vars_app.mpr ⟨a, ha, hxa⟩) ?_
      exact fun ⟨y, u, hy, hu⟩ => ⟨y, u, mem_vars_app.mpr ⟨a, ha, hy⟩, hu⟩
  | @map es frame hframe _ _ ihk ihv =>
      rw [Substitution.apply_map] at hx
      rcases mem_vars_reframe hx with ⟨_, hf, hx⟩ | ⟨y, rfl, hy⟩
      · obtain ⟨e, he, rfl⟩ := List.mem_map.mp hf
        have hsub : ∀ {y}, y ∈ e.1.vars ∨ y ∈ e.2.vars → y ∈ (Term.map es frame).vars :=
          fun hy => mem_vars_map.mpr (.inl ⟨e, he, hy⟩)
        rcases hx with hx | hx
        · refine (ihk e he hx).imp (And.imp_left fun hy => hsub (.inl hy)) ?_
          exact fun ⟨y, u, hy, hu⟩ => ⟨y, u, hsub (.inl hy), hu⟩
        · refine (ihv e he hx).imp (And.imp_left fun hy => hsub (.inr hy)) ?_
          exact fun ⟨y, u, hy, hu⟩ => ⟨y, u, hsub (.inr hy), hu⟩
      · rcases hy with hy | ⟨rfl, hstays⟩
        · refine (of_var hy).imp (fun ⟨heq, hk⟩ => ⟨by simp [heq], hk⟩) ?_
          exact fun ⟨u, hu⟩ => ⟨y, u, by simp, hu⟩
        · -- a frame that stays has a value that cannot take its place
          rw [Substitution.apply_var] at hstays
          cases hu : σ.find? x with
          | none => simp [hu, isFrame] at hstays
          | some u => simp [hu, hframe x rfl u hu] at hstays
  | lookup _ _ ihm ihk =>
      rw [Substitution.apply_lookup, mem_vars_lookup] at hx
      simp only [mem_vars_lookup]
      rcases hx with hx | hx
      · exact (ihm hx).imp (And.imp_left .inl) fun ⟨y, u, hy, hu⟩ => ⟨y, u, .inl hy, hu⟩
      · exact (ihk hx).imp (And.imp_left .inr) fun ⟨y, u, hy, hu⟩ => ⟨y, u, .inr hy, hu⟩

lemma mem_vars_apply {σ : Substitution} {t : Term} (h : t.Frameless) (hx : x ∈ (σ.apply t).vars) :
    (x ∈ t.vars ∧ x ∉ σ.keys) ∨ ∃ y u, y ∈ t.vars ∧ σ.find? y = some u ∧ x ∈ u.vars :=
  (h.framed _).mem_vars_apply hx

/-! ### Sets of entries -/

lemma reframe_congr (h : ∀ e, e ∈ es ↔ e ∈ fs) :
    reframe es frame image = reframe fs frame image := by
  unfold reframe
  split
  · exact ofEntries_congr h
  · split
    · exact ofEntries_congr h
    · exact ofEntries_congr fun e => by simp [h]
    · exact ofEntries_congr h

/-- A map merged into entries, whose own frame has been given a value. -/
lemma reframe_reframe {y : Option Var} {image' : Var → Term}
    (h : image x = reframe fs y image') :
    reframe es (some x) image = reframe (es ++ fs) y image' := by
  have merge : ∀ (gs : List Entry) (z : Option Var), image x = ofEntries gs z →
      reframe es (some x) image = ofEntries (es ++ gs) z := by
    intro gs z hx
    simp only [reframe, hx, ofEntries]
    exact ofEntries_congr fun e => by simp [mem_ofEntries_iff]
  cases y with
  | none => exact merge fs none h
  | some z =>
      simp only [reframe] at h ⊢
      cases hz : image' z with
      | var w => exact merge fs (some w) (by rw [hz] at h; exact h)
      | map rest w =>
          rw [hz] at h
          simp only [List.append_assoc]
          exact merge (fs ++ rest) w h
      | bool | int | app | lookup => exact merge fs (some z) (by rw [hz] at h; exact h)

lemma Canonical.ofEntries (frame : Option Var) (h : ∀ e ∈ es, e.1.Canonical ∧ e.2.Canonical) :
    (ofEntries es frame).Canonical :=
  .map frame (Sorted.increasing_ofList _) (fun e he => (h e (mem_ofEntries_iff.mp he)).1)
    fun e he => (h e (mem_ofEntries_iff.mp he)).2

end Term

/-- The maps in an instance are canonical when those in the values are. -/
lemma Term.Canonical.apply {σ : Substitution} (hσ : ∀ b ∈ σ.toList, b.2.Canonical) {t : Term}
    (h : t.Canonical) : (σ.apply t).Canonical := by
  have of_var : ∀ x, (σ.apply (.var x)).Canonical := fun x => by
    rw [Substitution.apply_var]
    cases hx : σ.find? x with
    | none => exact .var x
    | some u => exact hσ (x, u) (Substitution.mem_toList_iff.mpr hx)
  induction h with
  | var x => exact of_var x
  | bool b => exact .bool b
  | int i => exact .int i
  | app f _ ih =>
      rw [Substitution.apply_app]
      exact .app f (List.forall_mem_map.mpr ih)
  | @map es frame _ _ _ ihk ihv =>
      have hes : ∀ e ∈ es.map fun e => (σ.apply e.1, σ.apply e.2), e.1.Canonical ∧ e.2.Canonical :=
        List.forall_mem_map.mpr fun e he => ⟨ihk e he, ihv e he⟩
      rw [Substitution.apply_map]
      unfold reframe
      split
      · exact .ofEntries none hes
      · next x =>
          split
          · exact .ofEntries _ hes
          · next rest y hrest =>
              have hmap : (Term.map rest y).Canonical := hrest ▸ of_var x
              cases hmap with
              | map _ _ hk hv =>
                  exact .ofEntries y fun e he => (List.mem_append.mp he).elim (hes e)
                    fun he => ⟨hk e he, hv e he⟩
          · exact .ofEntries _ hes
  | lookup _ _ ihm ihk => exact .lookup ihm ihk

namespace Substitution

open Term

variable {σ u : Substitution} {es : List Entry} {frame : Option Var} {t : Term}

lemma apply_ofEntries :
    u.apply (ofEntries es frame) =
      reframe (es.map fun e => (u.apply e.1, u.apply e.2)) frame fun x => u.apply (.var x) := by
  rw [ofEntries, apply_map]
  exact reframe_congr fun e => by simp [mem_ofEntries_iff]

/-- Two substitutions under which the variables of a term have the same values act alike on it. -/
lemma apply_congr (h : ∀ x ∈ t.vars, σ.find? x = u.find? x) : σ.apply t = u.apply t := by
  induction t using Term.ind with
  | var x => rw [apply_var, apply_var, h x (by simp)]
  | bool | int => rfl
  | app f args ih =>
      rw [apply_app, apply_app, List.map_congr_left fun a ha =>
        ih a ha fun x hx => h x (mem_vars_app.mpr ⟨a, ha, hx⟩)]
  | map es frame ih =>
      have hentries : ∀ e ∈ es, (σ.apply e.1, σ.apply e.2) = (u.apply e.1, u.apply e.2) :=
        fun e he => Prod.ext
          ((ih e he).1 fun x hx => h x (mem_vars_map.mpr (.inl ⟨e, he, .inl hx⟩)))
          ((ih e he).2 fun x hx => h x (mem_vars_map.mpr (.inl ⟨e, he, .inr hx⟩)))
      rw [apply_map, apply_map, List.map_congr_left hentries]
      cases frame with
      | none => rfl
      | some x => rw [reframe, reframe, apply_var, apply_var, h x (by simp)]
  | lookup m k ihm ihk =>
      rw [apply_lookup, apply_lookup, ihm fun x hx => h x (by simp [hx]),
        ihk fun x hx => h x (by simp [hx])]

/-- Instances of maps are maps. -/
lemma exists_apply_map (u : Substitution) (es : List Entry) (frame : Option Var) :
    ∃ fs y, u.apply (.map es frame) = .map fs y := by
  rw [apply_map]
  unfold reframe
  split
  · exact ⟨_, _, rfl⟩
  · split <;> exact ⟨_, _, rfl⟩

/-- A substitution into a map whose frame has been replaced, where what has replaced it goes on
standing for a frame. -/
lemma apply_reframe {x : Var} {v : Term} {image image' : Var → Term} (hx : image x = v)
    (hx' : image' x = u.apply v) (hplaced : v.isFrame = true) (hkept : (u.apply v).isFrame = true) :
    u.apply (reframe es (some x) image) =
      reframe (es.map fun e => (u.apply e.1, u.apply e.2)) (some x) image' := by
  cases v with
  | var y =>
      simp only [reframe, hx]
      rw [apply_ofEntries]
      simp only [reframe, hx']
      cases hy : u.apply (.var y) <;> simp_all [isFrame]
  | map rest y =>
      simp only [reframe, hx]
      rw [apply_ofEntries, List.map_append]
      exact (reframe_reframe (hx'.trans (apply_map u rest y))).symm
  | bool | int | app | lookup => cases hplaced

/-- A substitution that solves another one absorbs it, as long as a frame that is replaced by a
variable can be replaced. -/
theorem apply_absorb (h : ∀ x v, σ.find? x = some v → u.apply (.var x) = u.apply v)
    (ht : t.Framed fun x => ∀ y, σ.find? x = some (.var y) → (u.apply (.var x)).isFrame = true) :
    u.apply (σ.apply t) = u.apply t := by
  induction ht with
  | var x =>
      rw [apply_var]
      cases hx : σ.find? x with
      | none => rfl
      | some v => exact (h x v hx).symm
  | bool | int => rfl
  | app f _ ih =>
      simp only [apply_app, List.map_map]
      rw [List.map_congr_left (f := u.apply ∘ σ.apply) (g := u.apply) ih]
  | lookup _ _ ihm ihk => rw [apply_lookup, apply_lookup, apply_lookup, ihm, ihk]
  | @map es frame hframe _ _ ihk ihv =>
      have entries : (es.map fun e => (σ.apply e.1, σ.apply e.2)).map
          (fun e => (u.apply e.1, u.apply e.2)) = es.map fun e => (u.apply e.1, u.apply e.2) := by
        rw [List.map_map]
        exact List.map_congr_left fun e he => Prod.ext (ihk e he) (ihv e he)
      rw [apply_map, apply_map]
      -- how the first substitution treats the frame
      cases frame with
      | none =>
          simp only [reframe]
          rw [apply_ofEntries, entries]
          rfl
      | some x =>
          cases hx : σ.find? x with
          | none =>
              simp only [reframe, apply_var, hx, Option.getD_none]
              rw [apply_ofEntries, entries]
              rfl
          | some v =>
              have hv := h x v hx
              have hσ : σ.apply (.var x) = v := by rw [apply_var, hx, Option.getD_some]
              cases v with
              | var y =>
                  rw [← entries]
                  exact apply_reframe hσ hv rfl (hv ▸ hframe x rfl y hx)
              | map rest y =>
                  obtain ⟨fs, z, hmap⟩ := exists_apply_map u rest y
                  rw [← entries]
                  exact apply_reframe hσ hv rfl (hmap ▸ rfl)
              | bool | int | app | lookup =>
                  simp only [reframe, hσ]
                  rw [apply_ofEntries, entries]
                  rfl

/-- Composed substitutions act one after the other, as long as what takes the place of a frame goes on
standing for a frame. -/
theorem apply_comp_of_framed {τ : Substitution}
    (h : t.Framed fun x => ∀ v, τ.find? x = some v →
      v.isFrame = true ∧ (σ.apply v).isFrame = true) :
    (σ.comp τ).apply t = σ.apply (τ.apply t) := by
  have value : ∀ x, (σ.comp τ).apply (.var x) = σ.apply (τ.apply (.var x)) := fun x => by
    rw [apply_var, apply_var, find?_comp]
    cases τ.find? x <;> rfl
  induction h with
  | var x => exact value x
  | bool | int => rfl
  | app f _ ih =>
      rw [apply_app, apply_app, apply_app, List.map_map, List.map_congr_left ih]
      rfl
  | lookup _ _ ihm ihk => rw [apply_lookup, apply_lookup, apply_lookup, ihm, ihk]
  | @map es frame hframe _ _ ihk ihv =>
      have entries : es.map (fun e => ((σ.comp τ).apply e.1, (σ.comp τ).apply e.2)) =
          (es.map fun e => (τ.apply e.1, τ.apply e.2)).map fun e => (σ.apply e.1, σ.apply e.2) := by
        rw [List.map_map]
        exact List.map_congr_left fun e he => Prod.ext (ihk e he) (ihv e he)
      rw [apply_map, apply_map, entries]
      cases frame with
      | none =>
          simp only [reframe]
          rw [apply_ofEntries, reframe]
      | some x =>
          cases hv : τ.find? x with
          | none =>
              have hx : τ.apply (.var x) = .var x := by rw [apply_var, hv, Option.getD_none]
              have hvalue := value x
              rw [hx] at hvalue
              simp only [reframe, hx]
              rw [apply_ofEntries, reframe, hvalue]
          | some v =>
              have hx : τ.apply (.var x) = v := by rw [apply_var, hv, Option.getD_some]
              obtain ⟨hplaced, hkept⟩ := hframe x rfl v hv
              refine (apply_reframe hx ?_ hplaced hkept).symm
              rw [value, hx]

lemma apply_comp {t : Term} (h : t.Frameless) (σ τ : Substitution) :
    (σ.comp τ).apply t = σ.apply (τ.apply t) :=
  apply_comp_of_framed (h.framed _)

end Substitution

end SolvedForm

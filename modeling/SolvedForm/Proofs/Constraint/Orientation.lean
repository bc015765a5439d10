import SolvedForm.Constraint.Orientation
import SolvedForm.Proofs.Meaning

/-!
Orientation keeps the normal form, and loses nothing that a constraint says.

* `Fragment.Symmetric`: bindings between variables may be turned round.
* `Orientation.Step`, `Orientation.step_flip`: what one binding makes of the flips.
* `Orientation.flips_induction`: what holds at the start and passes along every turned binding
  holds of the flips.
* `Orientation.flips_spec`: turned bindings have targets as keys, and variables that are no targets
  and whose own bindings are removed as values.
* `Orientation.flips_origin`: where a turned binding comes from.
* `Orientation.mem_flipped_iff`, `Orientation.key_flipped`: the bindings after the flips.
* `Orientation.flips_cover`: a target that is the value of some key becomes a key.
* `Orientation.Faithful`: an assignment that agrees with the turned bindings agrees with the
  bindings that they replace.
* `Constraint.foldl_bind`: bindings made one after the other.
* `Constraint.orientInPlace_eq`, `Constraint.orient_eq`: all turns are found before anything is
  written.
* `Constraint.orient_ok`, `Constraint.orient_settled`: orientation goes through without fault, and an
  oriented constraint is false or in normal form.
* `Constraint.oriented_of_true`: no binding of an oriented true constraint leads to a target.
* `Meaning.sat_of_orient`, `Meaning.sat_orient`: a constraint and the oriented one have the same
  solutions.
-/

namespace SolvedForm

/-- A binding between two variables may be turned round, and two variables that may be bound to
the same variable may be bound to each other. -/
structure Fragment.Symmetric {T : Theory} (F : Fragment T) : Prop where
  swap {x y : Var} : F.Binds x (.var y) → F.Binds y (.var x)
  join {x y z : Var} : F.Binds x (.var y) → F.Binds z (.var y) → F.Binds x (.var z)

namespace Orientation

variable {targets : List Var} {σ : Substitution} {fl : Flips}

lemma representative_spec {y z : Var} (h : representative targets σ y = some z) :
    (z, .var y) ∈ σ.toList ∧ z ∉ targets := by
  obtain ⟨b, hb, rfl⟩ := Option.map_eq_some_iff.mp h
  have hp := List.find?_some hb
  simp only [decide_eq_true_eq, Bool.and_eq_true, Bool.not_eq_true', List.contains_eq_mem,
    decide_eq_false_iff_not] at hp
  exact ⟨hp.1 ▸ List.mem_of_find?_eq_some hb, hp.2⟩

lemma representative_eq_none_iff {y : Var} :
    representative targets σ y = none ↔ ∀ x, (x, .var y) ∈ σ.toList → x ∈ targets := by
  simp only [representative, Option.map_eq_none_iff, List.find?_eq_none, Bool.and_eq_true,
    decide_eq_true_eq, Bool.not_eq_true', List.contains_eq_mem, decide_eq_false_iff_not, not_and,
    not_not]
  exact ⟨fun h x hx => h (x, .var y) hx rfl, fun h b hb heq => h b.1 (heq ▸ hb)⟩

/-- What a binding makes of the flips: they stay, the binding turns round, a representative takes
both of its variables, or none can. -/
inductive Step (targets : List Var) (σ : Substitution) (fl : Flips) :
    Var × Term → Except OrientationFailure Flips → Prop where
  | skip {b : Var × Term} : (∀ y, b.2 = .var y → y ∈ targets → y ∈ fl.bindings.keys) →
      Step targets σ fl b (.ok fl)
  | turn {x y : Var} : y ∈ targets → y ∉ fl.bindings.keys → x ∉ targets →
      Step targets σ fl (x, .var y) (.ok ⟨fl.bindings.insert y (.var x), x :: fl.removed⟩)
  | both {x y z : Var} : y ∈ targets → y ∉ fl.bindings.keys → x ∈ targets →
      (z, .var y) ∈ σ.toList → z ∉ targets →
      Step targets σ fl (x, .var y)
        (.ok ⟨(fl.bindings.insert x (.var z)).insert y (.var z), x :: z :: fl.removed⟩)
  | fail {x y : Var} : y ∈ targets → (∀ z, (z, .var y) ∈ σ.toList → z ∈ targets) →
      Step targets σ fl (x, .var y) (.error ⟨y⟩)

lemma step_flip (b : Var × Term) : Step targets σ fl b (flip targets σ fl b.1 b.2) := by
  obtain ⟨x, t⟩ := b
  cases t with
  | var y =>
      dsimp only
      rw [flip]
      by_cases hy : y ∈ targets ∧ y ∉ fl.bindings.keys
      · have hopen : (!targets.contains y || fl.bindings.contains y) = false := by
          simpa [Substitution.contains_eq_false_iff] using hy
        rw [hopen, if_neg Bool.false_ne_true]
        by_cases hx : x ∈ targets
        · rw [if_pos (by simpa using hx)]
          cases hz : representative targets σ y with
          | none => exact .fail hy.1 (representative_eq_none_iff.mp hz)
          | some z =>
              obtain ⟨hzy, hz⟩ := representative_spec hz
              exact .both hy.1 hy.2 hx hzy hz
        · rw [if_neg (by simpa using hx)]
          exact .turn hy.1 hy.2 hx
      · have hdone : (!targets.contains y || fl.bindings.contains y) = true := by
          simpa [Substitution.contains_iff, ← imp_iff_not_or] using hy
        rw [if_pos hdone]
        refine .skip ?_
        rintro _ ⟨⟩ hyt
        exact by_contra fun hk => hy ⟨hyt, hk⟩
  | bool | int | app | map | lookup => exact .skip nofun

/-- What passes along every turned binding of a store holds of its flips. The property may speak
of the bindings that are still to be looked at. -/
theorem flips_induction {P : List (Var × Term) → Flips → Prop}
    (start : P σ.toList ⟨.empty, []⟩)
    (skip : ∀ b rest fl, P (b :: rest) fl →
      (∀ y, b.2 = .var y → y ∈ targets → y ∈ fl.bindings.keys) → P rest fl)
    (turn : ∀ x y rest fl, P ((x, .var y) :: rest) fl → (x, .var y) ∈ σ.toList →
      y ∈ targets → y ∉ fl.bindings.keys → x ∉ targets →
      P rest ⟨fl.bindings.insert y (.var x), x :: fl.removed⟩)
    (both : ∀ x y z rest fl, P ((x, .var y) :: rest) fl → (x, .var y) ∈ σ.toList →
      (z, .var y) ∈ σ.toList → y ∈ targets → y ∉ fl.bindings.keys → x ∈ targets → z ∉ targets →
      P rest ⟨(fl.bindings.insert x (.var z)).insert y (.var z), x :: z :: fl.removed⟩)
    (h : flips targets σ = .ok fl) : P [] fl := by
  have run : ∀ (rest : List (Var × Term)) (fl₀ : Flips), (∀ b ∈ rest, b ∈ σ.toList) →
      P rest fl₀ → rest.foldlM (fun fl b => flip targets σ fl b.1 b.2) fl₀ = .ok fl → P [] fl := by
    intro rest
    induction rest with
    | nil =>
        intro fl₀ _ h₀ h
        exact Except.ok.inj h ▸ h₀
    | cons b rest ih =>
        intro fl₀ hrest h₀ h
        rw [List.foldlM_cons] at h
        obtain ⟨fl₁, h₁, h⟩ := exceptBind_eq_ok.mp h
        rw [List.forall_mem_cons] at hrest
        refine ih fl₁ hrest.2 ?_ h
        have hstep : Step targets σ fl₀ b (.ok fl₁) := h₁ ▸ step_flip b
        cases hstep with
        | skip hskip => exact skip _ _ _ h₀ hskip
        | turn hy hyk hx => exact turn _ _ _ _ h₀ hrest.1 hy hyk hx
        | both hy hyk hx hzy hz => exact both _ _ _ _ _ h₀ hrest.1 hzy hy hyk hx hz
  exact run σ.toList ⟨.empty, []⟩ (fun _ => id) start h

/-- The flips bind targets to variables that are no targets and that have lost their own bindings. -/
lemma flips_spec (h : flips targets σ = .ok fl) :
    (∀ x ∈ fl.bindings.keys, x ∈ targets) ∧
      ∀ b ∈ fl.bindings.toList, ∃ z, b.2 = .var z ∧ z ∉ targets ∧ z ∈ fl.removed := by
  have key_insert : ∀ {τ : Substitution} {x z : Var}, (∀ y ∈ τ.keys, y ∈ targets) → x ∈ targets →
      ∀ y ∈ (τ.insert x (.var z)).keys, y ∈ targets := fun hτ hx y hy =>
    (Substitution.mem_keys_insert.mp hy).elim (fun hy => hy ▸ hx) (hτ y)
  have value_insert : ∀ {τ : Substitution} {x z : Var} {old new : List Var},
      (∀ b ∈ τ.toList, ∃ w, b.2 = .var w ∧ w ∉ targets ∧ w ∈ old) → (∀ w ∈ old, w ∈ new) →
      z ∉ targets → z ∈ new →
      ∀ b ∈ (τ.insert x (.var z)).toList, ∃ w, b.2 = .var w ∧ w ∉ targets ∧ w ∈ new := by
    intro τ x z old new hτ hsub hz hnew b hb
    rcases Substitution.mem_toList_insert.mp hb with rfl | ⟨-, hb⟩
    · exact ⟨z, rfl, hz, hnew⟩
    · obtain ⟨w, hw, hwt, hwr⟩ := hτ b hb
      exact ⟨w, hw, hwt, hsub w hwr⟩
  refine flips_induction (P := fun _ fl => (∀ x ∈ fl.bindings.keys, x ∈ targets) ∧
      ∀ b ∈ fl.bindings.toList, ∃ z, b.2 = .var z ∧ z ∉ targets ∧ z ∈ fl.removed)
    (by simp) (fun _ _ _ h _ => h) ?_ ?_ h
  · intro x y _ fl hfl _ hy _ hx
    exact ⟨key_insert hfl.1 hy,
      value_insert hfl.2 (fun _ => List.mem_cons_of_mem x) hx List.mem_cons_self⟩
  · intro x y z _ fl hfl _ _ hy _ hx hz
    exact ⟨key_insert (key_insert hfl.1 hx) hy,
      value_insert (value_insert hfl.2 (fun w hw => by simp [hw]) hz (by simp)) (fun _ => id) hz
        (by simp)⟩

/-- A variable that is bound anew was the value of the variable it is bound to, or shared its
value. -/
lemma flips_origin (h : flips targets σ = .ok fl) :
    ∀ b ∈ fl.bindings.toList, ∃ z y, b.2 = .var z ∧ (z, .var y) ∈ σ.toList ∧
      (b.1 = y ∨ (b.1, .var y) ∈ σ.toList) := by
  refine flips_induction (P := fun _ fl => ∀ b ∈ fl.bindings.toList, ∃ z y, b.2 = .var z ∧
    (z, Term.var y) ∈ σ.toList ∧ (b.1 = y ∨ (b.1, Term.var y) ∈ σ.toList)) (by simp)
    (fun _ _ _ h _ => h) ?_ ?_ h
  · intro x y _ fl hfl hxy _ _ _ b hb
    rcases Substitution.mem_toList_insert.mp hb with rfl | ⟨-, hb⟩
    · exact ⟨x, y, rfl, hxy, .inl rfl⟩
    · exact hfl b hb
  · intro x y z _ fl hfl hxy hzy _ _ _ _ b hb
    rcases Substitution.mem_toList_insert.mp hb with rfl | ⟨-, hb⟩
    · exact ⟨z, y, rfl, hzy, .inl rfl⟩
    · rcases Substitution.mem_toList_insert.mp hb with rfl | ⟨-, hb⟩
      · exact ⟨z, y, rfl, hzy, .inr hxy⟩
      · exact hfl b hb

variable {T : Theory} {F : Fragment T}

lemma memSubst_flips (hF : F.Symmetric) (hσ : F.MemSubst σ) (h : flips targets σ = .ok fl) :
    F.MemSubst fl.bindings := by
  rintro ⟨x, t⟩ hb
  obtain ⟨z, y, rfl, hzy, hx⟩ := flips_origin h _ hb
  rcases hx with rfl | hxy
  · exact hF.swap (hσ _ hzy)
  · exact hF.join (hσ (x, .var y) hxy) (hσ _ hzy)

/-- Turned bindings change no variable that is no target. -/
lemma flips_apply_var (h : flips targets σ = .ok fl) {z : Var} (hz : z ∉ targets) :
    fl.bindings.apply (.var z) = .var z := by
  rw [Substitution.apply_var,
    Substitution.find?_eq_none_iff.mpr fun hk => hz ((flips_spec h).1 z hk), Option.getD_none]

/-- The keys of a store after flips. -/
def Flips.Key (fl : Flips) (σ : Substitution) (x : Var) : Prop :=
  x ∈ fl.bindings.keys ∨ x ∈ σ.keys ∧ x ∉ fl.removed ∧ x ∉ fl.bindings.keys

/-- The flips bind no variable twice. -/
lemma Flips.nodup_apply (fl : Flips) (σ : Substitution) : ((fl.apply σ).map (·.1)).Nodup := by
  rw [Flips.apply, List.map_map, Function.comp_def, List.map_append, List.nodup_append]
  refine ⟨fl.bindings.nodup, σ.nodup.sublist (List.filter_sublist.map _), ?_⟩
  rintro x hx _ hkept rfl
  obtain ⟨b, hb, rfl⟩ := List.mem_map.mp hkept
  have hturned := (Bool.and_eq_true _ _ ▸ (List.mem_filter.mp hb).2).2
  exact absurd (Substitution.contains_iff.mpr hx) (by simpa using hturned)

/-- A variable that a flipped value contains is no key after the flips. -/
lemma not_key_of_apply (h : flips targets σ = .ok fl) {t : Term}
    (hkey : ∀ x ∈ t.vars, x ∈ fl.bindings.keys ∨ ¬ fl.Key σ x) {x : Var}
    (hx : x ∈ (fl.bindings.apply t).vars) : ¬ fl.Key σ x := by
  obtain ⟨hkeys, hvalues⟩ := flips_spec h
  have hframed : t.Framed fun y => ∀ u, fl.bindings.find? y = some u → u.isFrame = true := by
    refine Term.framed_of_vars fun y _ u hu => ?_
    obtain ⟨z, rfl, -⟩ := hvalues (y, u) (Substitution.mem_toList_iff.mpr hu)
    rfl
  rcases hframed.mem_vars_apply hx with ⟨hxt, hk⟩ | ⟨y, u, -, hu, hxu⟩
  · exact (hkey x hxt).resolve_left hk
  · obtain ⟨z, rfl, hz, hr⟩ := hvalues (y, u) (Substitution.mem_toList_iff.mpr hu)
    obtain rfl : x = z := by simpa using hxu
    rintro (hk | ⟨-, hk, -⟩)
    · exact hz (hkeys x hk)
    · exact hk hr

/-- A flipped binding is a turned one, or a binding that stays and whose value follows the flips. -/
lemma mem_flipped_iff (h : flips targets σ = .ok fl) {x : Var} {u : Term} :
    (x, u) ∈ fl.apply σ ↔ (x, u) ∈ fl.bindings.toList ∨ ∃ t, (x, t) ∈ σ.toList ∧
      x ∉ fl.removed ∧ x ∉ fl.bindings.keys ∧ u = fl.bindings.apply t := by
  have turned : ∀ {b}, b ∈ fl.bindings.toList → fl.bindings.apply b.2 = b.2 := fun hb => by
    obtain ⟨z, hz, hzt, -⟩ := (flips_spec h).2 _ hb
    rw [hz, flips_apply_var h hzt]
  simp only [Flips.apply, List.map_append, List.mem_append, List.mem_map, List.mem_filter,
    List.contains_eq_mem, Bool.and_eq_true, Bool.not_eq_true', decide_eq_false_iff_not,
    Substitution.contains_eq_false_iff, Prod.mk.injEq]
  refine or_congr ⟨?_, fun hb => ⟨(x, u), hb, rfl, turned hb⟩⟩ ⟨?_, ?_⟩
  · rintro ⟨b, hb, rfl, rfl⟩
    exact (turned hb).symm ▸ hb
  · rintro ⟨⟨_, t⟩, ⟨hb, hkept⟩, rfl, rfl⟩
    exact ⟨t, hb, hkept.1, hkept.2, rfl⟩
  · rintro ⟨t, hb, hr, hk, rfl⟩
    exact ⟨(x, t), ⟨hb, hr, hk⟩, rfl, rfl⟩

/-- A turned binding leads to a variable that is not bound after the flips. -/
lemma exists_free_of_turned (h : flips targets σ = .ok fl) {b : Var × Term}
    (hb : b ∈ fl.bindings.toList) : ∃ z, b.2 = .var z ∧ ¬ fl.Key σ z := by
  obtain ⟨hkeys, hvalues⟩ := flips_spec h
  obtain ⟨z, hz, hzt, hzr⟩ := hvalues b hb
  refine ⟨z, hz, ?_⟩
  rintro (hk | ⟨-, hk, -⟩)
  · exact hzt (hkeys z hk)
  · exact hk hzr

/-- What is bound after the flips of an acyclic store does not occur in the flipped values. -/
lemma key_flipped (h : flips targets σ = .ok fl) (hac : σ.Acyclic) :
    ∀ b ∈ fl.apply σ, fl.Key σ b.1 ∧ ∀ x ∈ b.2.vars, ¬ fl.Key σ x := by
  rintro ⟨x, u⟩ hb
  rcases (mem_flipped_iff h).mp hb with hb | ⟨t, ht, hremoved, hk, rfl⟩
  · obtain ⟨z, rfl, hz⟩ := exists_free_of_turned h hb
    exact ⟨.inl (Substitution.mem_keys_of_mem hb), by simpa using hz⟩
  · have hx : x ∈ σ.keys := Substitution.mem_keys_of_mem ht
    refine ⟨.inr ⟨hx, hremoved, hk⟩, fun y hy => not_key_of_apply h (fun z hz => ?_) hy⟩
    by_cases hzk : z ∈ fl.bindings.keys
    · exact .inl hzk
    · exact .inr fun hkey => hkey.elim hzk fun hkey => hac _ ht z hz hkey.1

/-- The flips of an acyclic store are acyclic. -/
lemma acyclic_flipped (h : flips targets σ = .ok fl) (hac : σ.Acyclic) :
    (Substitution.ofList (fl.apply σ)).Acyclic := by
  have hkey : (Substitution.ofList (fl.apply σ)).Separated (fl.Key σ) := fun b hb =>
    key_flipped h hac b (Substitution.toList_ofList (fl.nodup_apply σ) ▸ hb)
  exact hkey.acyclic

lemma binds_flipped (hF : F.Symmetric) (hσ : F.MemSubst σ) (h : flips targets σ = .ok fl) :
    ∀ b ∈ fl.apply σ, F.Binds b.1 b.2 := by
  have hfl := memSubst_flips hF hσ h
  rintro ⟨x, u⟩ hb
  rcases (mem_flipped_iff h).mp hb with hb | ⟨t, ht, -, -, rfl⟩
  · exact hfl _ hb
  · exact F.binds_apply hfl (hσ _ ht)

/-- A target that is the value of some key becomes a key. -/
lemma flips_cover {x y : Var} (h : flips targets σ = .ok fl) (hxy : (x, .var y) ∈ σ.toList)
    (hy : y ∈ targets) : y ∈ fl.bindings.keys := by
  have insert : ∀ {τ : Substitution} {z : Var} {t : Term} {rest : List (Var × Term)} {b : Var × Term},
      (y ∈ τ.keys ∨ (x, .var y) ∈ b :: rest) → b.2 = .var z →
      y ∈ (τ.insert z t).keys ∨ (x, .var y) ∈ rest := by
    intro τ z t rest b h hb
    rw [Substitution.mem_keys_insert]
    rcases h with hk | h
    · exact .inl (.inr hk)
    · rcases List.mem_cons.mp h with rfl | h
      · exact .inl (.inl (Term.var.inj hb))
      · exact .inr h
  have covered : y ∈ fl.bindings.keys ∨ (x, Term.var y) ∈ [] := by
    refine flips_induction
      (P := fun rest fl => y ∈ fl.bindings.keys ∨ (x, .var y) ∈ rest) (.inr hxy) ?_ ?_ ?_ h
    · intro b rest fl hfl hskip
      refine hfl.elim .inl fun hmem => ?_
      rcases List.mem_cons.mp hmem with rfl | hmem
      · exact .inl (hskip y rfl hy)
      · exact .inr hmem
    · exact fun _ _ _ _ hfl _ _ _ _ => insert hfl rfl
    · exact fun _ _ _ _ _ hfl _ _ _ _ _ _ =>
        insert (hfl.imp_left fun hk => Substitution.mem_keys_insert.mpr (.inr hk)) rfl
  exact covered.resolve_right List.not_mem_nil

/-- No flipped binding leads from a variable to a target. -/
lemma flipped_not_target (h : flips targets σ = .ok fl) {x y : Var}
    (hxy : (x, .var y) ∈ fl.apply σ) : y ∉ targets := by
  obtain ⟨-, hvalues⟩ := flips_spec h
  rcases (mem_flipped_iff h).mp hxy with hxy | ⟨t, ht, -, -, heq⟩
  · obtain ⟨z, hz, hzt, -⟩ := hvalues _ hxy
    exact Term.var.inj hz ▸ hzt
  · obtain ⟨z, rfl⟩ := Term.exists_var_of_apply heq.symm
    intro hy
    by_cases hz : z ∈ targets
    · -- the value was a target, so it has become a key
      obtain ⟨u, hu⟩ := Substitution.mem_keys_iff.mp (flips_cover h ht hz)
      obtain ⟨w, rfl, hw, -⟩ := hvalues (z, u) (Substitution.mem_toList_iff.mpr hu)
      rw [Substitution.apply_var, hu, Option.getD_some] at heq
      exact hw (Term.var.inj heq ▸ hy)
    · rw [flips_apply_var h hz] at heq
      exact hz (Term.var.inj heq ▸ hy)

/-- An assignment makes both sides of the bindings between variables equal. -/
def Agrees {β : Type} (v : Var → β) (σ : Substitution) : Prop :=
  ∀ x y, (x, .var y) ∈ σ.toList → v x = v y

/-- What holds of flips while a store is gone through: a key gets a turned binding only when its own
binding is looked at and removed, and an assignment that agrees with the turned bindings agrees with
those that are removed. -/
structure Faithful {β : Type} (v : Var → β) (σ : Substitution) (rest : List (Var × Term))
    (fl : Flips) : Prop where
  nodup : (rest.map (·.1)).Nodup
  ahead : ∀ b ∈ rest, b.1 ∈ σ.keys ∧ b.1 ∉ fl.bindings.keys
  keys : ∀ x ∈ σ.keys, x ∈ fl.bindings.keys → x ∈ fl.removed
  agree : Agrees v fl.bindings → ∀ x ∈ fl.removed, ∃ y, (x, .var y) ∈ σ.toList ∧ v x = v y

variable {β : Type} {v : Var → β} {rest : List (Var × Term)} {x y z : Var}

lemma Agrees.of_insert (h : Agrees v (σ.insert x (.var y))) (hx : x ∉ σ.keys) :
    Agrees v σ ∧ v x = v y := by
  refine ⟨fun a b hab => h a b (Substitution.mem_toList_insert.mpr (.inr ⟨?_, hab⟩)),
    h x y (Substitution.mem_toList_insert.mpr (.inl rfl))⟩
  exact fun heq => hx (heq ▸ Substitution.mem_keys_of_mem hab)

lemma Faithful.skip {b : Var × Term} (h : Faithful v σ (b :: rest) fl) :
    Faithful v σ rest fl where
  nodup := (List.nodup_cons.mp h.nodup).2
  ahead a ha := h.ahead a (List.mem_cons_of_mem b ha)
  keys := h.keys
  agree := h.agree

lemma Faithful.turn (h : Faithful v σ ((x, .var y) :: rest) fl) (hxy : (x, .var y) ∈ σ.toList)
    (hyσ : y ∉ σ.keys) (hy : y ∉ fl.bindings.keys) :
    Faithful v σ rest ⟨fl.bindings.insert y (.var x), x :: fl.removed⟩ where
  nodup := h.skip.nodup
  ahead b hb := by
    obtain ⟨hbσ, hbk⟩ := h.skip.ahead b hb
    refine ⟨hbσ, fun hk => ?_⟩
    exact (Substitution.mem_keys_insert.mp hk).elim (fun heq => hyσ (heq ▸ hbσ)) hbk
  keys a ha hk := by
    rcases Substitution.mem_keys_insert.mp hk with rfl | hk
    · exact absurd ha hyσ
    · exact List.mem_cons_of_mem x (h.keys a ha hk)
  agree hv a ha := by
    obtain ⟨hold, hyx⟩ := Agrees.of_insert hv hy
    rcases List.mem_cons.mp ha with rfl | ha
    · exact ⟨y, hxy, hyx.symm⟩
    · exact h.agree hold a ha

lemma Faithful.both (h : Faithful v σ ((x, .var y) :: rest) fl) (hxy : (x, .var y) ∈ σ.toList)
    (hzy : (z, .var y) ∈ σ.toList) (hyσ : y ∉ σ.keys) (hy : y ∉ fl.bindings.keys) :
    Faithful v σ rest
      ⟨(fl.bindings.insert x (.var z)).insert y (.var z), x :: z :: fl.removed⟩ where
  nodup := h.skip.nodup
  ahead b hb := by
    obtain ⟨hbσ, hbk⟩ := h.skip.ahead b hb
    refine ⟨hbσ, fun hk => ?_⟩
    rcases Substitution.mem_keys_insert.mp hk with heq | hk
    · exact hyσ (heq ▸ hbσ)
    · refine (Substitution.mem_keys_insert.mp hk).elim (fun heq => ?_) hbk
      exact (List.nodup_cons.mp h.nodup).1 (List.mem_map.mpr ⟨b, hb, heq⟩)
  keys a ha hk := by
    rcases Substitution.mem_keys_insert.mp hk with rfl | hk
    · exact absurd ha hyσ
    · rcases Substitution.mem_keys_insert.mp hk with rfl | hk
      · exact List.mem_cons_self
      · exact List.mem_cons_of_mem x (List.mem_cons_of_mem z (h.keys a ha hk))
  agree hv a ha := by
    obtain ⟨hxσ, hx⟩ := h.ahead _ List.mem_cons_self
    have hyx : y ∉ (fl.bindings.insert x (.var z)).keys := fun hk =>
      (Substitution.mem_keys_insert.mp hk).elim (fun heq => hyσ (heq ▸ hxσ)) hy
    obtain ⟨hv, hyz⟩ := Agrees.of_insert hv hyx
    obtain ⟨hold, hxz⟩ := Agrees.of_insert hv hx
    rcases List.mem_cons.mp ha with rfl | ha
    · exact ⟨y, hxy, hxz.trans hyz.symm⟩
    · rcases List.mem_cons.mp ha with rfl | ha
      · exact ⟨y, hzy, hyz.symm⟩
      · exact h.agree hold a ha

lemma faithful_flips (hac : σ.Acyclic) (h : flips targets σ = .ok fl) : Faithful v σ [] fl := by
  have value_free : ∀ {x y}, (x, .var y) ∈ σ.toList → y ∉ σ.keys := fun hxy =>
    hac _ hxy _ (by simp)
  refine flips_induction (P := Faithful v σ) ?_ (fun _ _ _ h _ => h.skip) ?_ ?_ h
  · exact ⟨σ.nodup, fun b hb => ⟨Substitution.mem_keys_of_mem hb, by simp⟩, by simp, by simp⟩
  · intro x y rest fl hfl hxy _ hy _
    exact hfl.turn hxy (value_free hxy) hy
  · intro x y z rest fl hfl hxy hzy _ hy _ _
    exact hfl.both hxy hzy (value_free hxy) hy

end Orientation

namespace Constraint

variable {T : Theory} {F : Fragment T} {c d : Constraint} {targets : List Var}

/-! ### Bindings one after the other -/

lemma bind_of_isFalse (h : c.isFalse = true) (x : Var) (t : Term) : c.bind T x t = c := if_pos h

/-- Bindings made one after the other change the store alone, or one of them cannot hold and the
constraint becomes false. -/
lemma foldl_bind {bs : List (Var × Term)} (hc : c.isFalse = false)
    (hbs : ∀ b ∈ bs, b.2 ≠ .var b.1) :
    ((∃ b ∈ bs, Equation.truth T.order ⟨.var b.1, b.2⟩ = .false) ∧
      (bs.foldl (fun d b => d.bind T b.1 b.2) c).Refuted) ∨
      (∀ b ∈ bs, Equation.truth T.order ⟨.var b.1, b.2⟩ ≠ .false) ∧
        bs.foldl (fun d b => d.bind T b.1 b.2) c =
          { c with store := bs.foldl (fun σ b => σ.insert b.1 b.2) c.store } := by
  induction bs generalizing c with
  | nil => exact .inr ⟨by simp, by cases c; rfl⟩
  | cons b bs ih =>
      rw [List.forall_mem_cons] at hbs
      rw [List.foldl_cons]
      rcases bind_cases (T := T) hc hbs.1 with ⟨hopen, h⟩ | ⟨hfalse, h⟩
      · rw [h]
        refine (ih (c := { c with store := c.store.insert b.1 b.2 }) hc hbs.2).imp ?_ ?_
        · rintro ⟨⟨a, ha, hfalse⟩, hr⟩
          exact ⟨⟨a, List.mem_cons_of_mem b ha, hfalse⟩, hr⟩
        · exact And.imp_left fun h => List.forall_mem_cons.mpr ⟨hopen, h⟩
      · have hr : (c.bind T b.1 b.2).Refuted := h ▸ refuted_falsify (by exact hc) _
        have stays : ∀ bs : List (Var × Term),
            bs.foldl (fun d b => d.bind T b.1 b.2) (c.bind T b.1 b.2) = c.bind T b.1 b.2 := by
          intro bs
          induction bs with
          | nil => rfl
          | cons a as ih => rw [List.foldl_cons, bind_of_isFalse hr.1, ih]
        exact .inl ⟨⟨b, List.mem_cons_self, hfalse⟩, (stays bs).symm ▸ hr⟩

/-- The flipped bindings of an acyclic store are made as they are listed, or one of them cannot
hold. -/
lemma bind_flipped {fl : Orientation.Flips} (hf : c.isFalse = false) (hac : c.store.Acyclic)
    (h : Orientation.flips targets c.store = .ok fl) :
    ((∃ b ∈ fl.apply c.store, Equation.truth T.order ⟨.var b.1, b.2⟩ = .false) ∧
      ((fl.apply c.store).foldl (fun (d : Constraint) b => d.bind T b.1 b.2)
        { c with store := .empty }).Refuted) ∨
      (∀ b ∈ fl.apply c.store, Equation.truth T.order ⟨.var b.1, b.2⟩ ≠ .false) ∧
        (fl.apply c.store).foldl (fun (d : Constraint) b => d.bind T b.1 b.2)
          { c with store := .empty } = { c with store := .ofList (fl.apply c.store) } := by
  refine foldl_bind (c := { c with store := .empty }) hf fun b hb heq => ?_
  obtain ⟨hk, hfree⟩ := Orientation.key_flipped h hac b hb
  exact hfree b.1 (by simp [heq]) hk

/-! ### Orientation -/

lemma run_forM_modify {α : Type} (f : Constraint → α → Constraint) (as : List α) (c : Constraint) :
    (as.forM fun a => modify fun c => f c a : StateT Constraint (Except Fault) Unit).run c =
      pure ((), as.foldl f c) := by
  induction as generalizing c with
  | nil => rfl
  | cons a as ih => exact ih (f c a)

/-- The turns are found first: a failure leaves the constraint as it was, and otherwise it is solved
with the turned bindings as store. -/
lemma orientInPlace_eq : (orientInPlace T targets).run c =
    if c.isFalse || targets.all c.store.contains then .ok (.ok (), c)
    else
      match Orientation.flips targets c.store with
      | .error failure => .ok (.error failure, c)
      | .ok flips => do
        let d ← normalize T { (flips.apply c.store).foldl (fun d b => d.bind T b.1 b.2)
          { c with store := .empty } with normal := false }
        return (.ok (), d) := by
  unfold orientInPlace
  rw [StateT.run_bind, StateT.run_get, pure_bind]
  dsimp only
  split
  · rfl
  · generalize Orientation.flips targets c.store = r
    cases r with
    | error failure => rfl
    | ok flips =>
        simp only [StateT.run_bind, StateT.run_modify, run_forM_modify, StateT.run_get,
          StateT.run_monadLift, StateT.run_set, StateT.run_pure, pure_bind, bind_assoc]
        rfl

lemma orient_eq : c.orient T targets =
    if c.isFalse || targets.all c.store.contains then .ok (.ok c)
    else
      match Orientation.flips targets c.store with
      | .error failure => .ok (.error failure)
      | .ok flips => do
        let d ← normalize T { (flips.apply c.store).foldl (fun d b => d.bind T b.1 b.2)
          { c with store := .empty } with normal := false }
        return .ok d := by
  rw [orient, orientInPlace_eq]
  split
  · rfl
  · generalize Orientation.flips targets c.store = r
    cases r with
    | error failure => rfl
    | ok flips => simp only [bind_assoc]; rfl
/-- Nothing is turned where all targets are keys. -/
lemma orient_self (h : ∀ x ∈ targets, x ∈ c.store.keys) : c.orient T targets = .ok (.ok c) := by
  rw [orient_eq, if_pos]
  simpa [Substitution.contains_iff] using .inr h

lemma Refuted.setNormal (h : c.Refuted) (b : Bool) : ({ c with normal := b }).Refuted := h

lemma orient_cases (h : c.orient T targets = .ok (.ok d)) :
    ((c.isFalse = true ∨ ∀ x ∈ targets, x ∈ c.store.keys) ∧ d = c) ∨
      c.isFalse = false ∧ ∃ fl, Orientation.flips targets c.store = .ok fl ∧
        normalize T { (fl.apply c.store).foldl (fun d b => d.bind T b.1 b.2)
          { c with store := .empty } with normal := false } = .ok d := by
  rw [orient_eq] at h
  split at h
  · next hc =>
      refine .inl ⟨?_, by cases h; rfl⟩
      simpa [List.all_eq_true, Substitution.contains_iff] using hc
  · next hc =>
      have hf : c.isFalse = false := by
        cases hf : c.isFalse
        · rfl
        · simp [hf] at hc
      refine .inr ⟨hf, ?_⟩
      split at h
      · cases h
      · next fl hfl =>
          obtain ⟨d', hd', h⟩ := exceptBind_eq_ok.mp h
          cases h
          exact ⟨fl, hfl, hd'⟩

lemma isFalse_of_orient (h : c.orient T targets = .ok (.ok d)) (hd : d.isFalse = false) :
    c.isFalse = false := by
  rcases orient_cases h with ⟨-, rfl⟩ | ⟨hf, -⟩
  · exact hd
  · exact hf

/-- With the flipped bindings as store a normal form can be brought into normal form again. -/
lemma ready_flipped {fl : Orientation.Flips} (hF : F.Symmetric) (hw : c.Within F)
    (hn : c.NormalForm T.order) (h : Orientation.flips targets c.store = .ok fl) :
    Ready F { c with store := .ofList (fl.apply c.store), normal := false } := by
  have hσ : F.MemSubst (.ofList (fl.apply c.store)) := fun b hb =>
    Orientation.binds_flipped hF hw.over.store h b
      (Substitution.toList_ofList (fl.nodup_apply c.store) ▸ hb)
  exact ⟨(hw.setStore hσ).setNormal false, hn.unguarded, Orientation.acyclic_flipped h hn.acyclic,
    fun hnormal => absurd hnormal Bool.false_ne_true⟩

/-- Orientation leaves the constraint as it is, finds a flipped binding that cannot hold, or brings the
constraint into normal form with the flipped bindings as store. -/
lemma orient_cases_settled (hF : F.Symmetric) (hc : c.Settled F)
    (h : c.orient T targets = .ok (.ok d)) :
    ((c.isFalse = true ∨ ∀ x ∈ targets, x ∈ c.store.keys) ∧ d = c) ∨
      c.isFalse = false ∧ ∃ fl, Orientation.flips targets c.store = .ok fl ∧
        (∀ b ∈ fl.apply c.store, F.Binds b.1 b.2) ∧
        ((∃ b ∈ fl.apply c.store, Equation.truth T.order ⟨.var b.1, b.2⟩ = .false) ∧ d.Refuted ∨
          Sound F { c with store := .ofList (fl.apply c.store), normal := false } ∧
          normalize T { c with store := .ofList (fl.apply c.store), normal := false } = .ok d) := by
  rcases orient_cases h with h | ⟨hf, fl, hfl, h⟩
  · exact .inl h
  · have hw := hc.within hf
    obtain hn := (hc.resolve_left fun hr => absurd hr.1 (by simp [hf])).2
    refine .inr ⟨hf, fl, hfl, Orientation.binds_flipped hF hw.over.store hfl, ?_⟩
    rcases bind_flipped (T := T) hf hn.acyclic hfl with ⟨hfalse, hr⟩ | ⟨-, hd⟩
    · rw [normalize, if_pos (by simpa using .inl (hr.setNormal false).1)] at h
      cases h
      exact .inl ⟨hfalse, hr.setNormal false⟩
    · rw [hd] at h
      exact .inr ⟨.inr (ready_flipped hF hw hn hfl), h⟩

/-- Orientation of a constraint that is false or in normal form goes through without fault. -/
theorem orient_ok (hF : F.Symmetric) (hc : c.Settled F) (targets : List Var) :
    ∃ r, c.orient T targets = .ok r := by
  rw [orient_eq]
  split
  · exact ⟨_, rfl⟩
  · next hgo =>
      simp only [Bool.or_eq_true, not_or, Bool.not_eq_true] at hgo
      split
      · exact ⟨_, rfl⟩
      · next fl hfl =>
          obtain ⟨hw, hn⟩ := hc.resolve_left fun hr => by simp [hr.1] at hgo
          have hsound : Sound F { (fl.apply c.store).foldl (fun d b => d.bind T b.1 b.2)
              { c with store := .empty } with normal := false } := by
            rcases bind_flipped (T := T) hgo.1 hn.acyclic hfl with ⟨-, hr⟩ | ⟨-, hd⟩
            · exact .inl (hr.setNormal false)
            · rw [hd]
              exact .inr (ready_flipped hF hw hn hfl)
          obtain ⟨d, hd, -⟩ := normalize_settled hsound
          exact ⟨.ok d, exceptBind_eq_ok.mpr ⟨d, hd, rfl⟩⟩

/-- An oriented constraint is false or in normal form. -/
theorem orient_settled (hF : F.Symmetric) (hc : c.Settled F)
    (h : c.orient T targets = .ok (.ok d)) : d.Settled F := by
  rcases orient_cases_settled hF hc h with ⟨-, rfl⟩ | ⟨-, fl, -, -, ⟨-, hr⟩ | ⟨hsound, h⟩⟩
  · exact hc
  · exact .inl hr
  · exact settled_of_normalize hsound h

/-- Orientation leaves the disjunctions alone. -/
lemma pending_of_orient (hF : F.Symmetric) (hc : c.Settled F)
    (h : c.orient T targets = .ok (.ok d)) (hd : d.isFalse = false) : d.pending = c.pending := by
  rcases orient_cases_settled hF hc h with ⟨-, rfl⟩ | ⟨-, fl, -, -, ⟨-, hr⟩ | ⟨hsound, h⟩⟩
  · rfl
  · exact absurd hr.1 (by simp [hd])
  · have hpending := pending_of_normalize hsound h hd
    exact hpending

/-- A true constraint keeps only bindings when it is oriented, and none of them leads to a target. -/
theorem oriented_of_true (hF : F.Symmetric) (hc : c.Settled F) (htrue : c.truth = .true)
    (h : c.orient T targets = .ok (.ok d)) (hd : d.isFalse = false) :
    d.equations = .empty ∧ ∀ x y, (x, .var y) ∈ d.store.toList → y ∉ targets := by
  have hf : c.isFalse = false := by simp [isFalse, htrue]
  obtain ⟨hE, hB, -, hac, hσ⟩ := hc.solved_of_true htrue
  rcases orient_cases_settled hF hc h with
    ⟨hkeys, rfl⟩ | ⟨-, fl, hfl, -, ⟨-, hr⟩ | ⟨hsound, h⟩⟩
  · refine ⟨hE, fun x y hxy hy => hac _ hxy y (by simp) ?_⟩
    exact hkeys.resolve_left (by simp [hf]) y hy
  · exact absurd hr.1 (by simp [hd])
  · obtain ⟨hstore, hE'⟩ := normalize_of_no_equations (by exact hE) (by exact hB) h
    refine ⟨hE', fun x y hxy => ?_⟩
    rw [hstore, Substitution.toList_ofList (fl.nodup_apply c.store)] at hxy
    exact Orientation.flipped_not_target hfl hxy

/-- The constraint that comes along with the test for a match is oriented. -/
lemma isMatching_orient {xs : List Var} {b : Bool}
    (h : c.isMatching T xs = .ok (.ok (b, d))) : c.orient T xs = .ok (.ok d) := by
  unfold isMatching at h
  obtain ⟨r, hr, h⟩ := exceptBind_eq_ok.mp h
  match r with
  | .error failure => cases h
  | .ok d' =>
      cases h
      exact hr

end Constraint

/-! ### Satisfaction -/

namespace Meaning

open Constraint

variable {T : Theory} {F : Fragment T} {β : Type} {M : Meaning F β} {σ : Substitution}
  {targets : List Var} {c d : Constraint} {fl : Orientation.Flips}

/-- What solves the flipped bindings of a store solves the store. -/
lemma solves_of_flipped (hF : F.Symmetric) (hσ : F.MemSubst σ) (hac : σ.Acyclic)
    (h : Orientation.flips targets σ = .ok fl)
    (hs : ∀ b ∈ fl.apply σ, M.val (.var b.1) = M.val b.2) : M.Solves σ := by
  have hfl : M.Solves fl.bindings := fun b hb =>
    hs b ((Orientation.mem_flipped_iff h).mpr (.inl hb))
  have hfaithful := Orientation.faithful_flips (v := fun x => M.val (.var x)) hac h
  intro b hb
  by_cases hr : b.1 ∈ fl.removed
  · obtain ⟨y, hy, hval⟩ := hfaithful.agree (fun x z hxz => hfl _ hxz) b.1 hr
    have heq : b.2 = .var y := Option.some.inj
      ((Substitution.mem_toList_iff.mp hb).symm.trans (Substitution.mem_toList_iff.mp hy))
    rw [heq]
    exact hval
  · have hk : b.1 ∉ fl.bindings.keys := fun hk =>
      hr (hfaithful.keys b.1 (Substitution.mem_keys_of_mem hb) hk)
    rw [← M.val_apply (Orientation.memSubst_flips hF hσ h) hfl (F.mem_value (hσ b hb))]
    exact hs (b.1, fl.bindings.apply b.2)
      ((Orientation.mem_flipped_iff h).mpr (.inr ⟨b.2, hb, hr, hk, rfl⟩))

/-- What satisfies the oriented constraint satisfies the constraint. -/
theorem sat_of_orient (hF : F.Symmetric) (hc : c.Settled F) (h : c.orient T targets = .ok (.ok d))
    (hd : d.isFalse = false) (hs : M.Sat d) : M.Sat c := by
  rcases orient_cases_settled hF hc h with ⟨-, rfl⟩ | ⟨hf, fl, hfl, -, ⟨-, hr⟩ | ⟨hsound, h⟩⟩
  · exact hs
  · exact absurd hr.1 (by simp [hd])
  · have hsat := (sat_normalize (M := M) hsound
      (fun h => absurd (hf.symm.trans h) Bool.false_ne_true) h).1.mp hs
    refine ⟨solves_of_flipped hF (hc.within hf).over.store ?_ hfl fun b hb => ?_, hsat.1.2⟩
    · exact (hc.resolve_left fun hr => absurd hr.1 (by simp [hf])).2.acyclic
    · exact hsat.1.1 b (by rwa [Substitution.toList_ofList (fl.nodup_apply c.store)])

/-- What solves a store solves its turned bindings. -/
lemma solves_flips (hs : M.Solves σ) (h : Orientation.flips targets σ = .ok fl) :
    M.Solves fl.bindings := by
  rintro ⟨x, t⟩ hb
  obtain ⟨z, y, rfl, hzy, hx⟩ := Orientation.flips_origin h _ hb
  have hz : M.val (.var z) = M.val (.var y) := hs _ hzy
  rcases hx with rfl | hxy
  · exact hz.symm
  · exact (hs _ hxy).trans hz.symm

/-- What satisfies a constraint satisfies the oriented constraint, which is not false then. -/
theorem sat_orient (hF : F.Symmetric) (hc : c.Settled F) (h : c.orient T targets = .ok (.ok d))
    (hf : c.isFalse = false) (hs : M.Sat c) : d.isFalse = false ∧ M.Sat d := by
  rcases orient_cases_settled hF hc h with ⟨-, rfl⟩ | ⟨-, fl, hfl, hbinds, hd⟩
  · exact ⟨hf, hs⟩
  · have hn := (hc.resolve_left fun hr => absurd hr.1 (by simp [hf])).2
    have hσ := (hc.within hf).over.store
    have hfl' := solves_flips hs.1 hfl
    have hflipped : ∀ b ∈ fl.apply c.store, M.val (.var b.1) = M.val b.2 := by
      rintro ⟨x, u⟩ hb
      rcases (Orientation.mem_flipped_iff hfl).mp hb with hb | ⟨t, ht, -, -, rfl⟩
      · exact hfl' _ hb
      · exact (hs.1 _ ht).trans (M.val_apply (Orientation.memSubst_flips hF hσ hfl) hfl'
          (F.mem_value (hσ _ ht))).symm
    rcases hd with ⟨⟨b, hb, hfalse⟩, -⟩ | ⟨hsound, h⟩
    · exact absurd (hflipped b hb)
        (not_holds_of_false (Fragment.memEq_of_binds (hbinds b hb)) hfalse)
    · obtain ⟨hsat, htrue⟩ := sat_normalize (M := M) hsound
        (fun h => absurd (hf.symm.trans h) Bool.false_ne_true) h
      have hsd : M.Sat d := by
        refine hsat.mpr ⟨⟨fun b hb => hflipped b ?_, hs.2⟩, by simp [hn.drained]⟩
        rwa [Substitution.toList_ofList (fl.nodup_apply c.store)] at hb
      exact ⟨Bool.eq_false_iff.mpr fun hd => htrue hd hsd, hsd⟩

end Meaning

end SolvedForm

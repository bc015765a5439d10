import Mathlib
import SolvedForm.Proofs.Constraint.Orientation

/-!
Orientation of a constraint that consists of bindings alone.

* `Orientation.Flips.store`: the store after flips.
* `Orientation.flips_removed`: a target that has lost its binding has got another one.
* `Orientation.apply_of_free`: what the flipped store does to a term in which no key of the old store
  occurs.
* `Orientation.solves_new`, `Orientation.solves_old`: each of the two stores makes the sides of the
  other's bindings equal.
* `Orientation.canonical_flipped`: the flips leave terms all of whose maps have increasing entries.
* `Orientation.flips_of_not_target`: flips that turn nothing.
* `Constraint.orient_bindings`: the oriented constraint binds the same as before, has its targets as
  keys, and is oriented.
-/

namespace SolvedForm

namespace Orientation

variable {targets : List Var} {σ : Substitution} {fl : Flips}

/-! ### The flipped store -/

/-- The store after the flips. -/
def Flips.store (fl : Flips) (σ : Substitution) : Substitution := .ofList (fl.apply σ)

@[simp] lemma Flips.toList_store : (fl.store σ).toList = fl.apply σ :=
  Substitution.toList_ofList (fl.nodup_apply σ)

lemma find?_store {x : Var} {t : Term} (h : (x, t) ∈ fl.apply σ) :
    (fl.store σ).find? x = some t :=
  Substitution.mem_toList_iff.mp (Flips.toList_store ▸ h)

/-- A target that has lost its binding has got another one. -/
lemma flips_removed (h : flips targets σ = .ok fl) {x : Var} (hx : x ∈ fl.removed)
    (ht : x ∈ targets) : x ∈ fl.bindings.keys := by
  suffices ∀ y ∈ fl.removed, y ∈ targets → y ∈ fl.bindings.keys from this x hx ht
  refine flips_induction (P := fun _ fl => ∀ y ∈ fl.removed, y ∈ targets → y ∈ fl.bindings.keys)
    (by simp) (fun _ _ _ h _ => h) ?_ ?_ h
  · intro x y _ fl hfl _ _ _ hx w hw hwt
    rcases List.mem_cons.mp hw with rfl | hw
    · exact absurd hwt hx
    · exact Substitution.mem_keys_insert.mpr (.inr (hfl w hw hwt))
  · intro x y z _ fl hfl _ _ _ _ _ hz w hw hwt
    simp only [Substitution.mem_keys_insert]
    rcases List.mem_cons.mp hw with rfl | hw
    · exact .inr (.inl rfl)
    · rcases List.mem_cons.mp hw with rfl | hw
      · exact absurd hwt hz
      · exact .inr (.inr (hfl w hw hwt))

/-- A target that was a key or the value of a key is a key after the flips. -/
lemma mem_keys_store (h : flips targets σ = .ok fl) {x : Var} (ht : x ∈ targets)
    (hx : x ∈ σ.keys ∨ ∃ z, (z, .var x) ∈ σ.toList) : x ∈ (fl.store σ).keys := by
  have of_mem : ∀ {u}, (x, u) ∈ fl.apply σ → x ∈ (fl.store σ).keys := fun hu =>
    Substitution.mem_keys_iff.mpr ⟨_, find?_store hu⟩
  by_cases hk : x ∈ fl.bindings.keys
  · obtain ⟨u, hu⟩ := Substitution.mem_keys_iff.mp hk
    exact of_mem ((mem_flipped_iff h).mpr (.inl (Substitution.mem_toList_iff.mpr hu)))
  · rcases hx with hx | ⟨z, hz⟩
    · obtain ⟨t, ht'⟩ := Substitution.mem_keys_iff.mp hx
      exact of_mem ((mem_flipped_iff h).mpr (.inr ⟨t, Substitution.mem_toList_iff.mpr ht',
        fun hr => hk (flips_removed h hr ht), hk, rfl⟩))
    · exact absurd (flips_cover h hz ht) hk

/-! ### Two stores for the same equations -/

/-- In a term without keys of the old store only the turned bindings count. -/
lemma apply_of_free (h : flips targets σ = .ok fl) {t : Term} (ht : ∀ x ∈ t.vars, x ∉ σ.keys) :
    (fl.store σ).apply t = fl.bindings.apply t := by
  refine Substitution.apply_congr fun x hx => ?_
  cases hu : fl.bindings.find? x with
  | some u =>
      exact find?_store ((mem_flipped_iff h).mpr (.inl (Substitution.mem_toList_iff.mpr hu)))
  | none =>
      refine Substitution.find?_eq_none_iff.mpr fun hk => ?_
      obtain ⟨u, hu'⟩ := Substitution.mem_keys_iff.mp hk
      rw [← Substitution.mem_toList_iff, Flips.toList_store] at hu'
      rcases (mem_flipped_iff h).mp hu' with hb | ⟨t, hb, -⟩
      · rw [Substitution.mem_toList_iff, hu] at hb
        cases hb
      · exact ht x hx (Substitution.mem_keys_of_mem (b := (x, t)) hb)

/-- The flipped store makes the two sides of every old binding equal. -/
theorem solves_old (h : flips targets σ = .ok fl) (hac : σ.Acyclic) :
    ∀ b ∈ σ.toList, (fl.store σ).apply (.var b.1) = (fl.store σ).apply b.2 := by
  rintro ⟨x, t⟩ hb
  by_cases hr : x ∈ fl.removed
  · -- the flipped store agrees with the turned bindings, which stand for the removed ones
    have hagrees : Agrees (fun y => (fl.store σ).apply (.var y)) fl.bindings := by
      intro y z hyz
      have hmem : (y, .var z) ∈ (fl.store σ).toList := by
        rw [Flips.toList_store]
        exact (mem_flipped_iff h).mpr (.inl hyz)
      exact (acyclic_flipped h hac).apply_var hmem (.var z)
    obtain ⟨y, hxy, heq⟩ := (faithful_flips hac h).agree hagrees x hr
    obtain rfl : t = .var y := Option.some.inj
      ((Substitution.mem_toList_iff.mp hb).symm.trans (Substitution.mem_toList_iff.mp hxy))
    exact heq
  · have hk : x ∉ fl.bindings.keys := fun hk =>
      hr ((faithful_flips (v := id) hac h).keys x (Substitution.mem_keys_of_mem (b := (x, t)) hb) hk)
    rw [apply_of_free h (hac _ hb), Substitution.apply_var,
      find?_store ((mem_flipped_iff h).mpr (.inr ⟨t, hb, hr, hk, rfl⟩)), Option.getD_some]

/-- The old store makes the two sides of every flipped binding equal. -/
theorem solves_new (h : flips targets σ = .ok fl) (hac : σ.Acyclic)
    (hσ : ∀ b ∈ σ.toList, b.2.Canonical) :
    ∀ b ∈ fl.apply σ, σ.apply (.var b.1) = σ.apply b.2 := by
  have value : ∀ {x t}, (x, t) ∈ σ.toList → σ.apply (.var x) = t := fun hb => by
    rw [Substitution.apply_var, Substitution.mem_toList_iff.mp hb, Option.getD_some]
  have free : ∀ {x t}, (x, t) ∈ σ.toList → σ.apply t = t := fun hb =>
    Term.apply_eq_self (hσ _ hb) (hac _ hb)
  have turned : ∀ x u, fl.bindings.find? x = some u → σ.apply (.var x) = σ.apply u := by
    intro x u hu
    obtain ⟨z, y, rfl, hzy, hx⟩ := flips_origin h _ (Substitution.mem_toList_iff.mpr hu)
    rw [value hzy]
    rcases hx with rfl | hxy
    · exact free hzy
    · exact value hxy
  rintro ⟨x, u⟩ hb
  rcases (mem_flipped_iff h).mp hb with hb | ⟨t, ht, -, -, rfl⟩
  · exact turned x u (Substitution.mem_toList_iff.mp hb)
  · have hframed : t.Framed fun y => ∀ z, fl.bindings.find? y = some (.var z) →
        (σ.apply (.var y)).isFrame = true := by
      refine Term.framed_of_vars fun y hy z _ => ?_
      rw [Term.apply_eq_self (.var y) (by simpa using hac _ ht y hy)]
      rfl
    rw [Substitution.apply_absorb turned hframed, value ht, free ht]

lemma canonical_flipped (h : flips targets σ = .ok fl) (hσ : ∀ b ∈ σ.toList, b.2.Canonical) :
    ∀ b ∈ fl.apply σ, b.2.Canonical := by
  have turned : ∀ b ∈ fl.bindings.toList, b.2.Canonical := fun b hb => by
    obtain ⟨z, hz, -⟩ := (flips_spec h).2 b hb
    exact hz ▸ .var z
  rintro ⟨x, u⟩ hb
  rcases (mem_flipped_iff h).mp hb with hb | ⟨t, ht, -, -, rfl⟩
  · exact turned _ hb
  · exact (hσ _ ht).apply turned

/-! ### Flips that turn nothing -/

/-- Where no value is a target nothing is turned. -/
lemma flips_of_not_target (h : ∀ x y, (x, .var y) ∈ σ.toList → y ∉ targets) :
    flips targets σ = .ok ⟨.empty, []⟩ := by
  have run : ∀ rest : List (Var × Term), (∀ b ∈ rest, b ∈ σ.toList) →
      rest.foldlM (fun fl b => flip targets σ fl b.1 b.2) ⟨.empty, []⟩ = .ok ⟨.empty, []⟩ := by
    intro rest
    induction rest with
    | nil => exact fun _ => rfl
    | cons b rest ih =>
        intro hrest
        rw [List.forall_mem_cons] at hrest
        have stays : ∀ {r}, Step targets σ ⟨.empty, []⟩ b r → r = .ok ⟨.empty, []⟩ := by
          rintro r (_ | hy | hy | hy)
          · rfl
          all_goals exact absurd hy (h _ _ hrest.1)
        rw [List.foldlM_cons, stays (step_flip b)]
        exact ih hrest.2
  exact run σ.toList fun _ => id

/-- Flips that turn nothing leave the bindings as they are. -/
lemma apply_no_flips (hσ : ∀ b ∈ σ.toList, b.2.Canonical) :
    Flips.apply ⟨.empty, []⟩ σ = σ.toList := by
  have hself : ∀ b ∈ σ.toList, (b.1, Substitution.empty.apply b.2) = b := fun b hb =>
    Prod.ext rfl (Term.apply_eq_self (hσ b hb) (by simp))
  simp only [Flips.apply, Substitution.toList_empty, List.nil_append]
  rw [List.filter_eq_self.mpr (by simp [Substitution.contains]), List.map_congr_left hself,
    List.map_id']

end Orientation

namespace Constraint

variable {T : Theory} {c d : Constraint} {targets : List Var}

/-- The constraint consists of bindings alone: no equation is left or waits in the buffer, no key occurs
in a value, and the maps within the values are canonical. -/
structure Bare (c : Constraint) : Prop where
  equations : c.equations = .empty
  buffer : c.buffer = .empty
  acyclic : c.store.Acyclic
  canonical : ∀ b ∈ c.store.toList, b.2.Canonical

/-- The store of a bare constraint solves itself. -/
lemma Bare.apply_var (hc : c.Bare) :
    ∀ b ∈ c.store.toList, c.store.apply (.var b.1) = c.store.apply b.2 := by
  intro b hb
  rw [Term.apply_eq_self (hc.canonical b hb) (hc.acyclic b hb), Substitution.apply_var,
    Substitution.mem_toList_iff.mp hb, Option.getD_some]

/-- Without equations a second normalization changes nothing. -/
lemma normalize_again (hE : c.equations = .empty) (hB : c.buffer = .empty) (hn : c.normal = false)
    (hc : c.isFalse = false) (h : c.normalize T = .ok d) :
    d.buffer = .empty ∧ normalize T { d with normal := false } = .ok d := by
  rw [normalize_eq_of_no_equations hE hB, hc, hn, Bool.or_self, Bool.false_or] at h
  by_cases hg : c.guarded = true
  · -- a guarded constraint is left alone
    rw [if_pos hg] at h
    obtain rfl := Except.ok.inj h
    have hself : { c with normal := false } = c := by
      obtain ⟨E, B, σ, truth, contradiction, normal, guarded, D⟩ := c
      cases hn
      rfl
    rw [hself, normalize_eq_of_no_equations hE hB, if_pos (by simp [hg])]
    exact ⟨hB, rfl⟩
  · rw [if_neg hg, updateTruth_eq (by exact hc)] at h
    have hf : d.isFalse = false := by
      obtain rfl := Except.ok.inj h
      unfold isFalse
      split <;> simp
    obtain rfl := Except.ok.inj h
    refine ⟨hB, ?_⟩
    rw [normalize_eq_of_no_equations (by exact hE) (by exact hB), if_neg ?_, updateTruth_eq (by exact hf)]
    rw [Bool.or_false]
    exact fun h => ((Bool.or_eq_true _ _).mp h).elim (Bool.eq_false_iff.mp hf) hg

/-- The oriented bare constraint is the same, or the flips give its store. -/
lemma Bare.orient_cases (hc : c.Bare) (h : c.orient T targets = .ok (.ok d))
    (hd : d.isFalse = false) :
    ((∀ x ∈ targets, x ∈ c.store.keys) ∧ d = c) ∨
      ∃ fl, Orientation.flips targets c.store = .ok fl ∧ d.store = fl.store c.store ∧
        (∀ b ∈ d.store.toList, Equation.truth T.order ⟨.var b.1, b.2⟩ ≠ .false) ∧
        d.equations = .empty ∧ d.buffer = .empty ∧
        normalize T { d with normal := false } = .ok d := by
  rcases Constraint.orient_cases h with ⟨hkeys, rfl⟩ | ⟨hf, fl, hfl, h⟩
  · exact .inl ⟨hkeys.resolve_left (by simp [hd]), rfl⟩
  · refine .inr ⟨fl, hfl, ?_⟩
    rcases bind_flipped (T := T) hf hc.acyclic hfl with ⟨-, hr⟩ | ⟨hopen, heq⟩
    · rw [normalize, if_pos (by simpa using .inl (hr.setNormal false).1)] at h
      cases h
      exact absurd hr.1 (Bool.eq_false_iff.mp hd)
    · rw [heq] at h
      obtain ⟨hstore, hE⟩ := normalize_of_no_equations (by exact hc.equations) (by exact hc.buffer) h
      have hstore : d.store = fl.store c.store := hstore
      obtain ⟨hB, hagain⟩ :=
        normalize_again (by exact hc.equations) (by exact hc.buffer) rfl (by exact hf) h
      refine ⟨hstore, fun b hb => hopen b ?_, hE, hB, hagain⟩
      rwa [hstore, Orientation.Flips.toList_store] at hb

/-- Bindings none of which leads to a target are left alone. -/
lemma Bare.orient_eq_self (hd : d.Bare) (hf : d.isFalse = false)
    (htargets : ∀ x y, (x, .var y) ∈ d.store.toList → y ∉ targets)
    (hopen : ∀ b ∈ d.store.toList, Equation.truth T.order ⟨.var b.1, b.2⟩ ≠ .false)
    (hnormal : normalize T { d with normal := false } = .ok d) :
    d.orient T targets = .ok (.ok d) := by
  have hself : ∀ b ∈ d.store.toList, b.2 ≠ .var b.1 := fun b hb heq =>
    hd.acyclic b hb b.1 (by simp [heq]) (Substitution.mem_keys_of_mem hb)
  have hfold : d.store.toList.foldl (fun d b => d.bind T b.1 b.2) { d with store := .empty } = d := by
    rcases foldl_bind (T := T) (c := { d with store := .empty }) (by exact hf) hself with
      ⟨⟨b, hb, hfalse⟩, -⟩ | ⟨-, h⟩
    · exact absurd hfalse (hopen b hb)
    · rw [h]
      have hstore : Substitution.ofList d.store.toList = d.store :=
        Substitution.ext_toList (Substitution.toList_ofList d.store.nodup)
      change { d with store := .ofList d.store.toList } = d
      rw [hstore]
      cases d
      rfl
  rw [orient_eq]
  split
  · rfl
  · rw [Orientation.flips_of_not_target htargets]
    simp only
    rw [Orientation.apply_no_flips hd.canonical, hfold, hnormal]
    rfl

/-- An oriented constraint of bindings alone says the same as before. The targets that were keys or
values are keys now, no key occurs in a value, each of the two stores makes the sides of the other's
bindings equal, and orienting again changes nothing. -/
theorem orient_bindings (hc : c.Bare) (h : c.orient T targets = .ok (.ok d))
    (hd : d.isFalse = false) :
    (∀ x ∈ targets, (x ∈ c.store.keys ∨ ∃ z, (z, .var x) ∈ c.store.toList) → x ∈ d.store.keys) ∧
      d.store.Acyclic ∧
      (∀ b ∈ c.store.toList, d.store.apply (.var b.1) = d.store.apply b.2) ∧
      (∀ b ∈ d.store.toList, c.store.apply (.var b.1) = c.store.apply b.2) ∧
      d.orient T targets = .ok (.ok d) := by
  rcases hc.orient_cases h hd with ⟨hkeys, rfl⟩ | ⟨fl, hfl, hstore, hopen, hE, hB, hnormal⟩
  · exact ⟨fun x hx _ => hkeys x hx, hc.acyclic, hc.apply_var, hc.apply_var, h⟩
  · have hlist : d.store.toList = fl.apply c.store := by rw [hstore, Orientation.Flips.toList_store]
    have hac : d.store.Acyclic := hstore ▸ Orientation.acyclic_flipped hfl hc.acyclic
    have hbare : d.Bare := ⟨hE, hB, hac, hlist ▸ Orientation.canonical_flipped hfl hc.canonical⟩
    refine ⟨fun x hx hkey => hstore ▸ Orientation.mem_keys_store hfl hx hkey, hac,
      hstore ▸ Orientation.solves_old hfl hc.acyclic,
      hlist ▸ Orientation.solves_new hfl hc.acyclic hc.canonical,
      hbare.orient_eq_self hd (fun x y hxy => ?_) hopen hnormal⟩
    exact Orientation.flipped_not_target hfl (hlist ▸ hxy)

/-- One key represents two targets, another binding turns round, and both changes are followed inside
a map and in its frame. -/
theorem orient_bindings_frame :
    let T : Theory := .standard Subsorts.builtin.order
    let a : Var := ⟨"A", .int, false, none⟩
    let b : Var := ⟨"B", .int, false, none⟩
    let v : Var := ⟨"V", .int, false, none⟩
    let f : Var := ⟨"F", .map, false, none⟩
    let g : Var := ⟨"G", .map, false, none⟩
    let m : Var := ⟨"M", .map, false, none⟩
    let entry (x y : Var) : Term := .map [(.var x, .int 1)] (some y)
    let c : Constraint :=
      { store := .ofList [(a, .var v), (b, .var v), (f, .var g), (m, entry v g)] }
    c.Bare ∧ ∃ d : Constraint, c.orient T [a, v, g] = .ok (.ok d) ∧ d.isFalse = false ∧
      d.store.toList = [(a, .var b), (v, .var b), (g, .var f), (m, entry b f)] ∧
      (∀ b ∈ c.store.toList, d.store.apply (.var b.1) = d.store.apply b.2) ∧
      d.orient T [a, v, g] = .ok (.ok d) := by
  intro T a b v f g m entry c
  have hbare : c.Bare := by
    refine ⟨rfl, rfl, Substitution.acyclic_iff.mpr (by decide), ?_⟩
    have hentry : (entry v g).Canonical :=
      .map _ (by simp [Sorted.Increasing]) (by simpa using .var v) (by simpa using .int 1)
    exact List.forall_mem_cons.mpr ⟨.var v, List.forall_mem_cons.mpr ⟨.var v,
      List.forall_mem_cons.mpr ⟨.var g, List.forall_mem_singleton.mpr hentry⟩⟩⟩
  have h : c.orient T [a, v, g] = .ok (.ok
      { store := .ofList [(a, .var b), (v, .var b), (g, .var f), (m, entry b f)] }) := by
    cbv
  obtain ⟨-, -, hold, -, hagain⟩ := orient_bindings hbare h rfl
  exact ⟨hbare, _, h, rfl, rfl, hold, hagain⟩

end Constraint

end SolvedForm

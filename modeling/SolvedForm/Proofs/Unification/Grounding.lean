import SolvedForm.Proofs.Unification.Maps
import SolvedForm.Proofs.Unification.Reading

/-!
Terms all of whose variables are bound, and what rules out that they become equal.

* `Substitution.allEntries`: the entries of a map under a substitution, those of its frame included.
* `Term.Grounded`: a substitution binds all variables of a term, its frames to maps without frame,
  and keeps the keys of every map apart.
* `Term.Grounded.ne_of_provablyDistinct`, `Term.Grounded.size_lt_of_occursRigidly`: provably distinct
  terms stay different, and a term stays larger than a variable beneath its constructors and maps.
* `Term.Grounded.apply_leftover_eq`: where two maps become equal, so does what is left over between
  them.
-/

namespace SolvedForm

open Term Decomposition

variable {u v : Substitution} {s t : Term} {es fs : List Entry} {x y : Option Var}

/-! ### Entries -/

namespace Substitution

/-- The entries of the map that a frame is bound to. -/
def frameEntries (u : Substitution) : Option Var → List Entry
  | none => []
  | some x =>
    match u.find? x with
    | some (.map rest _) => rest
    | _ => []

/-- The entries of a map under a substitution, and those of the map that its frame is bound to. -/
def allEntries (u : Substitution) (es : List Entry) (x : Option Var) : List Entry :=
  u.images es ++ u.frameEntries x

lemma mem_allEntries {c : Entry} :
    c ∈ u.allEntries es x ↔ c ∈ u.images es ∨ c ∈ u.frameEntries x := List.mem_append

lemma frameEntries_some {z : Var} {rest : List Entry} {w : Option Var}
    (h : u.find? z = some (.map rest w)) : u.frameEntries (some z) = rest := by
  rw [frameEntries, h]

/-- Every variable that `u` binds has the same value under `v`. -/
def Extends (v u : Substitution) : Prop := ∀ z ∈ u.keys, v.find? z = u.find? z

lemma Extends.refl (u : Substitution) : u.Extends u := fun _ _ => rfl

lemma Extends.find? (h : v.Extends u) {z : Var} (hz : u.find? z = some t) : v.find? z = some t :=
  (h z (mem_keys_iff.mpr ⟨t, hz⟩)).trans hz

lemma Extends.mem_keys (h : v.Extends u) {z : Var} (hz : z ∈ u.keys) : z ∈ v.keys := by
  obtain ⟨t, ht⟩ := mem_keys_iff.mp hz
  exact mem_keys_iff.mpr ⟨t, h.find? ht⟩

lemma Extends.trans {w : Substitution} (h : w.Extends v) (h' : v.Extends u) : w.Extends u :=
  fun z hz => (h z (h'.mem_keys hz)).trans (h' z hz)

lemma extends_insert {z : Var} (hz : z ∉ u.keys) : (u.insert z t).Extends u := fun y hy => by
  rw [find?_insert, if_neg (by rintro rfl; exact hz hy)]

end Substitution

/-- All values are terms without variables, with the entries of their maps in order. -/
def Substitution.Ground (u : Substitution) : Prop := ∀ b ∈ u.toList, b.2.Canonical ∧ b.2.vars = []

lemma Substitution.Ground.find? (h : u.Ground) {z : Var} (hz : u.find? z = some t) :
    t.Canonical ∧ t.vars = [] := h (z, t) (mem_toList_iff.mpr hz)

/-! ### Terms whose variables are bound -/

/-- All variables of the term are bound, frames to maps without frame, and in every map the keys of
its entries and of those of its frame stay different. -/
inductive Term.Grounded (u : Substitution) : Term → Prop where
  | var {x : Var} : x ∈ u.keys → Grounded u (.var x)
  | bool (b : Bool) : Grounded u (.bool b)
  | int (i : Int64) : Grounded u (.int i)
  | app (f : Symbol) {args : List Term} : (∀ t ∈ args, Grounded u t) → Grounded u (.app f args)
  | map {es : List Entry} {frame : Option Var} :
      (∀ x, frame = some x → ∃ rest, u.find? x = some (.map rest none)) →
      ((u.allEntries es frame).map (·.1)).Nodup →
      (∀ e ∈ es, Grounded u e.1) → (∀ e ∈ es, Grounded u e.2) → Grounded u (.map es frame)
  | lookup {m k : Term} : Grounded u m → Grounded u k → Grounded u (.lookup m k)

namespace Term.Grounded

lemma args {f : Symbol} {ts : List Term} (h : (Term.app f ts).Grounded u) :
    ∀ t ∈ ts, t.Grounded u := by
  cases h
  assumption

lemma frame (h : (Term.map es x).Grounded u) :
    ∀ z, x = some z → ∃ rest, u.find? z = some (.map rest none) := by
  cases h
  assumption

lemma keys (h : (Term.map es x).Grounded u) : ((u.allEntries es x).map (·.1)).Nodup := by
  cases h
  assumption

lemma entries (h : (Term.map es x).Grounded u) : ∀ e ∈ es, e.1.Grounded u ∧ e.2.Grounded u := by
  cases h with
  | map _ _ hk hv => exact fun e he => ⟨hk e he, hv e he⟩

lemma mem_keys (h : t.Grounded u) : ∀ z ∈ t.vars, z ∈ u.keys := by
  induction h with
  | var hx => simpa using hx
  | bool | int => simp
  | app f _ ih =>
      intro z hz
      obtain ⟨a, ha, hz⟩ := mem_vars_app.mp hz
      exact ih a ha z hz
  | map hframe _ _ _ ihk ihv =>
      intro z hz
      rcases mem_vars_map.mp hz with ⟨e, he, hz | hz⟩ | rfl
      · exact ihk e he z hz
      · exact ihv e he z hz
      · obtain ⟨rest, hrest⟩ := hframe z rfl
        exact Substitution.mem_keys_iff.mpr ⟨_, hrest⟩
  | lookup _ _ ihm ihk => exact fun z hz => (mem_vars_lookup.mp hz).elim (ihm z) (ihk z)

/-- A map becomes the map of all its entries, without a frame. -/
lemma apply_map (hframe : ∀ z, x = some z → ∃ rest, u.find? z = some (.map rest none)) :
    u.apply (.map es x) = ofEntries (u.allEntries es x) none := by
  rw [Substitution.apply_map, Substitution.allEntries]
  cases x with
  | none => rw [reframe, Substitution.frameEntries, List.append_nil]; rfl
  | some z =>
      obtain ⟨rest, hrest⟩ := hframe z rfl
      rw [reframe, Substitution.apply_var, hrest, Substitution.frameEntries_some hrest]
      rfl

lemma apply_map_eq_iff (hs : (Term.map es x).Grounded u) (ht : (Term.map fs y).Grounded u) :
    u.apply (.map es x) = u.apply (.map fs y) ↔
      ∀ c, c ∈ u.allEntries es x ↔ c ∈ u.allEntries fs y := by
  rw [apply_map hs.frame, apply_map ht.frame, ofEntries_inj, and_iff_left rfl]

/-- Maps without frame become equal when they have the same entries. -/
lemma images_perm (hs : (Term.map es none).Grounded u) (ht : (Term.map fs none).Grounded u)
    (h : u.apply (.map es none) = u.apply (.map fs none)) : (u.images es).Perm (u.images fs) := by
  have hes := List.Nodup.of_map _ hs.keys
  have hfs := List.Nodup.of_map _ ht.keys
  have hmem := (hs.apply_map_eq_iff ht).mp h
  simp only [Substitution.allEntries, Substitution.frameEntries, List.append_nil] at hes hfs hmem
  exact (List.perm_ext_iff_of_nodup hes hfs).mpr hmem

/-- The order of the entries does not matter. -/
lemma ofEntries (h : (Term.map es x).Grounded u) : (ofEntries es x).Grounded u := by
  have hes : es.Nodup := .of_map _ (.of_map _ (by
    have := h.keys
    rw [Substitution.allEntries, List.map_append] at this
    exact this.of_append_left))
  have hperm : (Sorted.ofList compareEntry es).Perm es := Sorted.ofList_perm hes
  have hkeys : ((u.allEntries (Sorted.ofList compareEntry es) x).map (·.1)).Perm
      ((u.allEntries es x).map (·.1)) := ((hperm.map _).append_right _).map _
  exact .map h.frame (hkeys.nodup_iff.mpr h.keys)
    (fun e he => (h.entries e (hperm.subset he)).1) fun e he => (h.entries e (hperm.subset he)).2

/-- Values of further variables do not matter. -/
lemma apply_eq (h : t.Grounded u) (hv : v.Extends u) : v.apply t = u.apply t :=
  Substitution.apply_congr fun z hz => hv z (h.mem_keys z hz)

lemma images_eq (h : ∀ e ∈ es, e.1.Grounded u ∧ e.2.Grounded u) (hv : v.Extends u) :
    v.images es = u.images es :=
  List.map_congr_left fun e he => Prod.ext ((h e he).1.apply_eq hv) ((h e he).2.apply_eq hv)

lemma frameEntries_eq (h : ∀ z, x = some z → ∃ rest, u.find? z = some (.map rest none))
    (hv : v.Extends u) : v.frameEntries x = u.frameEntries x := by
  cases x with
  | none => rfl
  | some z =>
      obtain ⟨rest, hz⟩ := h z rfl
      rw [Substitution.frameEntries_some hz, Substitution.frameEntries_some (hv.find? hz)]

lemma extend (h : t.Grounded u) (hv : v.Extends u) : t.Grounded v := by
  induction h with
  | var hx => exact .var (hv.mem_keys hx)
  | bool b => exact .bool b
  | int i => exact .int i
  | app f _ ih => exact .app f ih
  | @map es frame hframe hkeys hk hw ihk ihv =>
      have himages := images_eq (fun e he => ⟨hk e he, hw e he⟩) hv
      refine .map (fun z hz => ?_) ?_ ihk ihv
      · obtain ⟨rest, hz⟩ := hframe z hz
        exact ⟨rest, hv.find? hz⟩
      · rw [Substitution.allEntries, himages, frameEntries_eq hframe hv]
        exact hkeys
  | lookup _ _ ihm ihk => exact .lookup ihm ihk

/-- Terms that are equal stay so when further variables are bound. -/
lemma apply_eq_of_extends (hs : s.Grounded u) (ht : t.Grounded u) (h : u.apply s = u.apply t)
    (hv : v.Extends u) : v.apply s = v.apply t := by
  rw [hs.apply_eq hv, ht.apply_eq hv, h]

/-! ### Provably distinct terms -/

/-- The head of a term is that of its value, except that the size of a map with a frame becomes
known. -/
lemma head_apply (hs : s.Grounded u) {a : Head} (h : s.head = some a) :
    (u.apply s).head = some a ∨ a = .map none ∧ ∃ n, (u.apply s).head = some (.map (some n)) := by
  cases hs with
  | var | lookup => cases h
  | bool | int => exact .inl h
  | app => exact .inl (by rw [Substitution.apply_app]; exact h)
  | @map es frame hframe hkeys _ _ =>
      obtain rfl := Option.some.inj h
      rw [apply_map hframe, Term.ofEntries, head, mapSize,
        Sorted.length_ofList (List.Nodup.of_map _ hkeys)]
      cases frame with
      | none =>
          left
          simp [mapSize, Substitution.allEntries, Substitution.images, Substitution.frameEntries]
      | some z => exact .inr ⟨rfl, _, rfl⟩

lemma ne_of_headsClash (hs : s.Grounded u) (ht : t.Grounded u) (h : s.headsClash t = true) :
    u.apply s ≠ u.apply t := by
  unfold headsClash at h
  split at h
  · next a b ha hb =>
      intro heq
      have hs := hs.head_apply ha
      have ht := ht.head_apply hb
      rw [heq] at hs
      rcases hs with hs | ⟨rfl, n, hs⟩ <;> rcases ht with ht | ⟨rfl, m, ht⟩
      · obtain rfl := Option.some.inj (hs.symm.trans ht)
        rw [Head.clash_self] at h
        cases h
      · obtain rfl := Option.some.inj (hs.symm.trans ht)
        simp [Head.clash] at h
      · obtain rfl := Option.some.inj (hs.symm.trans ht)
        simp [Head.clash] at h
      · simp [Head.clash] at h
  · cases h

/-- Provably distinct terms have different values. -/
theorem ne_of_provablyDistinct (hs : s.Grounded u) (ht : t.Grounded u)
    (h : s.provablyDistinct t = true) : u.apply s ≠ u.apply t := by
  induction s using Term.ind generalizing t with
  | app f ss ih =>
      cases t with
      | app g ts =>
          rw [provablyDistinct, Bool.or_eq_true, Bool.and_eq_true, Bool.and_eq_true] at h
          rcases h with h | ⟨-, h⟩
          · exact hs.ne_of_headsClash ht h
          · rw [Substitution.apply_app, Substitution.apply_app]
            intro heq
            obtain ⟨-, hargs⟩ := Term.app.injEq .. ▸ heq
            exact Term.map_ne_of_someDistinct
              (fun s hs' t ht' => ih s hs' (hs.args s hs') (ht.args t ht')) h hargs
      | var | bool | int | map | lookup => exact hs.ne_of_headsClash ht h
  | var | bool | int | map | lookup => cases t <;> exact hs.ne_of_headsClash ht h

/-! ### Rigid occurrence -/

lemma sizeOf_ofEntries (h : (es.map (·.1)).Nodup) (x : Option Var) :
    sizeOf (Term.ofEntries es x) = 1 + sizeOf es + sizeOf x := by
  have hperm : (Sorted.ofList compareEntry es).Perm es := Sorted.ofList_perm (.of_map _ h)
  rw [Term.ofEntries, Term.map.sizeOf_spec, hperm.sizeOf_eq_sizeOf]

lemma sizeOf_le_sizeOf_append (es fs : List Entry) : sizeOf fs ≤ sizeOf (es ++ fs) := by
  induction es with
  | nil => exact Nat.le_refl _
  | cons e es ih =>
      rw [List.cons_append, List.cons.sizeOf_spec]
      omega

/-- A term is larger than a variable beneath its constructors and maps. -/
lemma size_lt_of_occursRigidly {z : Var} (ht : t.Grounded u) (hne : t ≠ .var z)
    (h : occursRigidly z t = true) : sizeOf (u.apply (.var z)) < sizeOf (u.apply t) := by
  -- a part that has the variable beneath its constructors, or is the variable, is large enough
  have part : ∀ {a : Term}, (a ≠ .var z → sizeOf (u.apply (.var z)) < sizeOf (u.apply a)) →
      sizeOf (u.apply (.var z)) ≤ sizeOf (u.apply a) := fun {a} ha => by
    by_cases haz : a = .var z
    · exact Nat.le_of_eq (by rw [haz])
    · exact Nat.le_of_lt (ha haz)
  induction t using Term.ind with
  | app f args ih =>
      rw [occursRigidly, Bool.and_eq_true, Reading.occursRigidlyArgs_iff] at h
      obtain ⟨-, a, ha, hz⟩ := h
      have hle := part (ih a ha (ht.args a ha) · hz)
      have hlt := List.sizeOf_lt_of_mem (List.mem_map_of_mem (f := u.apply) ha)
      rw [Substitution.apply_app, Term.app.sizeOf_spec]
      omega
  | map es frame ih =>
      rw [occursRigidly, Bool.or_eq_true, occursRigidlyEntries_iff] at h
      rw [apply_map ht.frame, sizeOf_ofEntries ht.keys]
      rcases h with ⟨e, he, hz⟩ | h
      · have hmem : (u.apply e.1, u.apply e.2) ∈ u.allEntries es frame :=
          Substitution.mem_allEntries.mpr (.inl (List.mem_map_of_mem he))
        have hlt := List.sizeOf_lt_of_mem hmem
        rw [Prod.mk.sizeOf_spec] at hlt
        rcases hz with hz | hz
        · have hle := part ((ih e he).1 (ht.entries e he).1 · hz)
          omega
        · have hle := part ((ih e he).2 (ht.entries e he).2 · hz)
          omega
      · simp only [Bool.and_eq_true, Bool.not_eq_true', decide_eq_true_eq,
          List.isEmpty_eq_false_iff_exists_mem] at h
        obtain ⟨⟨e, he⟩, rfl⟩ := h
        obtain ⟨rest, hrest⟩ := ht.frame z rfl
        obtain ⟨e, es, rfl⟩ := List.exists_cons_of_ne_nil (List.ne_nil_of_mem he)
        have hle := sizeOf_le_sizeOf_append (u.images es) rest
        rw [Substitution.apply_var, hrest, Substitution.allEntries,
          Substitution.frameEntries_some hrest, Substitution.images, List.map_cons, List.cons_append,
          List.cons.sizeOf_spec, Option.getD_some, Term.map.sizeOf_spec]
        simp only [Substitution.images] at hle
        simp
        omega
  | var y => exact absurd (by simpa [occursRigidly] using h) (fun hy : y = z => hne (hy ▸ rfl))
  | bool b => simp [occursRigidly] at h
  | int i => simp [occursRigidly] at h
  | lookup m k => simp [occursRigidly] at h

/-- A variable beneath the constructors and maps of a term has a different value. -/
theorem ne_of_occursRigidly {z : Var} (ht : t.Grounded u) (hne : t ≠ .var z)
    (h : occursRigidly z t = true) : u.apply (.var z) ≠ u.apply t := fun heq =>
  absurd (size_lt_of_occursRigidly ht hne h) (by rw [heq]; exact Nat.lt_irrefl _)

/-! ### Entries left over -/

/-- The entries of a map are told apart by their keys. -/
lemma entry_eq (h : (Term.map es x).Grounded u) {c d : Entry} (hc : c ∈ u.allEntries es x)
    (hd : d ∈ u.allEntries es x) (heq : c.1 = d.1) : c = d :=
  List.inj_on_of_nodup_map h.keys hc hd heq

lemma image_mem (x : Option Var) {e : Entry} (he : e ∈ es) :
    (u.apply e.1, u.apply e.2) ∈ u.allEntries es x :=
  Substitution.mem_allEntries.mpr (.inl (List.mem_map_of_mem he))

/-- No entry of a map has a key that its frame brings in. -/
lemma disjoint_frameEntries (h : (Term.map es x).Grounded u) {c : Entry} (hc : c ∈ u.images es) :
    c ∉ u.frameEntries x := by
  have hkeys := h.keys
  rw [Substitution.allEntries, List.map_append] at hkeys
  exact fun hx => List.disjoint_of_nodup_append hkeys (List.mem_map_of_mem hc)
    (List.mem_map_of_mem hx)

/-- Different entries of a map have different keys under the substitution. -/
lemma key_injective (h : (Term.map es x).Grounded u) {e f : Entry} (he : e ∈ es) (hf : f ∈ es)
    (heq : u.apply e.1 = u.apply f.1) : e = f := by
  have hkeys := h.keys
  rw [Substitution.allEntries, List.map_append, Substitution.images, List.map_map] at hkeys
  exact List.inj_on_of_nodup_map hkeys.of_append_left he hf heq

/-- Two maps without frame that become equal have the same number of entries. -/
lemma length_eq (hs : (Term.map es none).Grounded u) (ht : (Term.map fs none).Grounded u)
    (h : u.apply (.map es none) = u.apply (.map fs none)) : es.length = fs.length := by
  simpa [Substitution.images] using (hs.images_perm ht h).length_eq

/-- Where two maps become equal, so do their values under common keys. -/
lemma matches_of_eq (hs : (Term.map es x).Grounded u) (ht : (Term.map fs y).Grounded u)
    (h : u.apply (.map es x) = u.apply (.map fs y)) : u.Matches es fs := by
  intro e he w hw
  rw [apply_map_eq_iff hs ht] at h
  have hkey := entry_eq ht ((h _).mp (image_mem x he)) (image_mem y (mem_of_lookup hw)) rfl
  exact congrArg Prod.snd hkey

/-- Some of the entries of a map, with the same frame. -/
lemma sublist (h : (Term.map es x).Grounded u) {gs : List Entry} (hgs : gs.Sublist es) :
    (Term.map gs x).Grounded u :=
  .map h.frame (h.keys.sublist (((hgs.map _).append_right _).map _))
    (fun e he => (h.entries e (hgs.subset he)).1) fun e he => (h.entries e (hgs.subset he)).2

lemma leftover_subset (hs : (Term.map es x).Grounded u)
    (h : ∀ c ∈ u.allEntries es x, c ∈ u.allEntries fs y) :
    ∀ c ∈ u.allEntries (leftover es fs) x, c ∈ u.allEntries (leftover fs es) y := by
  intro c hc
  have hsub : (leftover es fs).Sublist es := List.filter_sublist
  have hcs : c ∈ u.allEntries es x := by
    rw [Substitution.mem_allEntries] at hc ⊢
    exact hc.imp_left fun hc => (hsub.map _).subset hc
  have hct := h c hcs
  rw [Substitution.mem_allEntries] at hct ⊢
  refine hct.imp_left fun hct => ?_
  rcases (Substitution.mem_images_matched u fs es c).mp hct with hct | ⟨f, hf, e, he, hkey, rfl⟩
  · exact hct
  · -- an entry that is left over has no key in common with the other map
    exfalso
    rcases Substitution.mem_allEntries.mp hc with hc | hc
    · obtain ⟨e', he', heq⟩ := Substitution.mem_images.mp hc
      obtain ⟨he', hne⟩ := mem_leftover.mp he'
      obtain rfl := hs.key_injective he' he ((congrArg Prod.fst heq).trans (by rw [hkey]))
      exact hne f hf hkey.symm
    · have hentry := hs.entry_eq hcs (image_mem x he) (by rw [hkey])
      exact hs.disjoint_frameEntries (List.mem_map_of_mem he) (hentry ▸ hc)

/-- Where two maps become equal, so does what is left over between them. -/
theorem apply_leftover_eq (hs : (Term.map es x).Grounded u) (ht : (Term.map fs y).Grounded u)
    (h : u.apply (.map es x) = u.apply (.map fs y)) :
    u.apply (.map (leftover es fs) x) = u.apply (.map (leftover fs es) y) := by
  have hes : (Term.map (leftover es fs) x).Grounded u := hs.sublist List.filter_sublist
  have hfs : (Term.map (leftover fs es) y).Grounded u := ht.sublist List.filter_sublist
  rw [apply_map_eq_iff hs ht] at h
  rw [apply_map_eq_iff hes hfs]
  exact fun c => ⟨leftover_subset hs (fun c => (h c).mp) c,
    leftover_subset ht (fun c => (h c).mpr) c⟩

/-! ### Frames -/

lemma nodup_keys_of_subset {cs ds : List Entry} (hds : (ds.map (·.1)).Nodup) (hcs : cs.Nodup)
    (h : ∀ c ∈ cs, c ∈ ds) : (cs.map (·.1)).Nodup :=
  hcs.map_on fun c hc d hd heq => List.inj_on_of_nodup_map hds (h c hc) (h d hd) heq

/-- A frame is equal to every map that has the entries of the one it is bound to. -/
lemma apply_frame_eq (hu : u.Ground) {z : Var} (hz : ∃ rest, u.find? z = some (.map rest none))
    (hframe : ∀ z, x = some z → ∃ rest, u.find? z = some (.map rest none))
    (h : ∀ c, c ∈ u.frameEntries (some z) ↔ c ∈ u.allEntries es x) :
    u.apply (.var z) = u.apply (.ofEntries es x) := by
  obtain ⟨rest, hz⟩ := hz
  rw [Substitution.frameEntries_some hz] at h
  rw [Substitution.apply_ofEntries_eq_map, apply_map hframe, Substitution.apply_var, hz,
    ← ofEntries_congr h, Option.getD_some, Term.ofEntries]
  cases (hu.find? hz).1 with
  | map _ hrest _ _ => rw [Sorted.ofList_eq_self hrest]

/-- The entries of a map that a frame stands for may be narrowed. -/
lemma reframe (h : (Term.map es x).Grounded u) (hv : v.Extends u) {z : Var} {rest : List Entry}
    (hz : v.find? z = some (.map rest none)) (hrest : rest.Nodup)
    (hsub : ∀ c ∈ rest, c ∈ u.frameEntries x) : (Term.map es (some z)).Grounded v := by
  refine .map (fun y hy => ⟨rest, Option.some.inj hy ▸ hz⟩) ?_
    (fun e he => (h.entries e he).1.extend hv) fun e he => (h.entries e he).2.extend hv
  have himages := List.nodup_append.mp (List.Nodup.of_map _ h.keys)
  rw [Substitution.allEntries, images_eq h.entries hv, Substitution.frameEntries_some hz]
  refine nodup_keys_of_subset h.keys (List.nodup_append.mpr ⟨himages.1, hrest, ?_⟩) fun c hc => ?_
  · rintro c hc _ hd rfl
    exact h.disjoint_frameEntries hc (hsub c hd)
  · exact List.mem_append.mpr ((List.mem_append.mp hc).imp_right (hsub c))

lemma ground_insert (hu : u.Ground) {z : Var} {rest : List Entry}
    (hrest : (Term.map rest none).Canonical ∧ (Term.map rest none).vars = []) :
    (u.insert z (.map rest none)).Ground := fun b hb => by
  rcases Substitution.mem_toList_insert.mp hb with rfl | ⟨-, hb⟩
  · exact hrest
  · exact hu b hb

/-- Some of the entries of a map without variables. -/
lemma canonical_filter {rest : List Entry} (p : Entry → Bool)
    (h : (Term.map rest none).Canonical ∧ (Term.map rest none).vars = []) :
    (Term.map (rest.filter p) none).Canonical ∧ (Term.map (rest.filter p) none).vars = [] := by
  obtain ⟨hcanonical, hvars⟩ := h
  constructor
  · cases hcanonical with
    | map _ hincreasing hk hv =>
        exact .map _ (hincreasing.filter p) (fun e he => hk e (List.mem_of_mem_filter he))
          fun e he => hv e (List.mem_of_mem_filter he)
  · rw [List.eq_nil_iff_forall_not_mem] at hvars ⊢
    intro y hy
    refine hvars y (mem_vars_map.mpr ?_)
    exact (mem_vars_map.mp hy).imp_left fun ⟨e, he, hy⟩ => ⟨e, List.mem_of_mem_filter he, hy⟩

/-- Of two maps with different keys that become equal, each frame becomes the entries of the other
map and a rest, which a variable that is not bound yet can stand for. -/
theorem exists_shared (hu : u.Ground) {a b z : Var} (hs : (Term.map es (some a)).Grounded u)
    (ht : (Term.map fs (some b)).Grounded u)
    (h : u.apply (.map es (some a)) = u.apply (.map fs (some b)))
    (hdisjoint : ∀ c ∈ u.images es, c ∉ u.images fs) (hz : z ∉ u.keys) :
    ∃ rest, let w := u.insert z (.map rest none)
      w.Ground ∧ (Term.map es (some z)).Grounded w ∧ (Term.map fs (some z)).Grounded w ∧
        w.apply (.var a) = w.apply (.ofEntries fs (some z)) ∧
        w.apply (.var b) = w.apply (.ofEntries es (some z)) := by
  have hmeet := (hs.apply_map_eq_iff ht).mp h
  simp only [Substitution.mem_allEntries] at hmeet
  -- the rest has what the frame of the first map brings in beyond the second map
  let rest := (u.frameEntries (some a)).filter (· ∉ u.images fs)
  let w := u.insert z (.map rest none)
  have hrest : ∀ c, c ∈ rest ↔ c ∈ u.frameEntries (some a) ∧ c ∉ u.images fs := by simp [rest]
  have hresta : ∀ c ∈ rest, c ∈ u.frameEntries (some a) := fun c hc => ((hrest c).mp hc).1
  have hrestb : ∀ c ∈ rest, c ∈ u.frameEntries (some b) := fun c hc =>
    ((hmeet c).mp (.inr (hresta c hc))).resolve_left ((hrest c).mp hc).2
  have hnodup : rest.Nodup := (List.nodup_append.mp (List.Nodup.of_map _ hs.keys)).2.1.filter _
  have hground : w.Ground := by
    obtain ⟨as, ha⟩ := hs.frame a rfl
    have has : u.frameEntries (some a) = as := Substitution.frameEntries_some ha
    exact ground_insert hu (canonical_filter _ (has ▸ hu.find? ha))
  have hw : w.Extends u := Substitution.extends_insert hz
  have hwz : w.find? z = some (.map rest none) := by rw [Substitution.find?_insert, if_pos rfl]
  have hes := hs.reframe hw hwz hnodup hresta
  have hfs := ht.reframe hw hwz hnodup hrestb
  refine ⟨rest, hground, hes, hfs, ?_, ?_⟩
  · refine apply_frame_eq hground ((hs.extend hw).frame a rfl) hfs.frame fun c => ?_
    rw [Substitution.mem_allEntries, images_eq ht.entries hw, frameEntries_eq hs.frame hw,
      Substitution.frameEntries_some hwz, hrest]
    constructor
    · exact fun hc => (em (c ∈ u.images fs)).imp_right fun hc' => ⟨hc, hc'⟩
    · rintro (hc | hc)
      · exact ((hmeet c).mpr (.inl hc)).resolve_left fun hc' => hdisjoint c hc' hc
      · exact hc.1
  · refine apply_frame_eq hground ((ht.extend hw).frame b rfl) hes.frame fun c => ?_
    rw [Substitution.mem_allEntries, images_eq hs.entries hw, frameEntries_eq ht.frame hw,
      Substitution.frameEntries_some hwz]
    constructor
    · exact fun hc => ((hmeet c).mpr (.inr hc)).imp_right fun hc' =>
        (hrest c).mpr ⟨hc', fun hc'' => ht.disjoint_frameEntries hc'' hc⟩
    · rintro (hc | hc)
      · exact ((hmeet c).mp (.inl hc)).resolve_left (hdisjoint c hc)
      · exact hrestb c hc

end Term.Grounded

end SolvedForm

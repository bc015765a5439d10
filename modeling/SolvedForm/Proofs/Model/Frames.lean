import Mathlib
import SolvedForm.Proofs.Model.Proper
import SolvedForm.Proofs.Unification.Variables

/-!
Equations that hold under an interpretation, and the fresh frames between two maps.

* `Interpretation.Extends`: another interpretation, with other values for the fresh frames from a number
  on.
* `Interpretation.Knows`: an equation that holds and has no such frame.
* `Interpretation.Knows.common`, `Interpretation.Knows.leftover`: of two equal maps, the values under
  common keys are equal, and so is what is left over.
* `Interpretation.withFresh`, `Interpretation.knows_withFresh`: a fresh frame stands for given entries.
* `Interpretation.Knows.shared`: two equal maps without common keys go on in the same rest.
-/

namespace SolvedForm

open Term Decomposition

variable {α : Type} {I J K : Interpretation α} {n m : Nat} {e : Equation} {s t : Term} {x y : Var}

/-- The variable is no fresh frame with a number from `n` on. -/
def Var.Before (n : Nat) (x : Var) : Prop := ∀ k, n ≤ k → x ≠ .fresh k .map

lemma Var.Before.mono (h : x.Before n) (hn : n ≤ m) : x.Before m :=
  fun k hk => h k (Nat.le_trans hn hk)

/-- No variable with a name of its own is a fresh frame. -/
lemma Var.before_of_named (h : x.anonymous = false) : x.Before n := by
  rintro k - rfl
  cases h

namespace Interpretation

/-! ### Extensions -/

/-- The second interpretation differs from the first at most in the values of the fresh frames with
numbers from `n` on. -/
def Extends (I : Interpretation α) (n : Nat) (J : Interpretation α) : Prop :=
  ∃ ν, J = I.withVar ν ∧ ∀ x, x.Before n → ν x = I.var x

namespace Extends

lemma refl (I : Interpretation α) (n : Nat) : I.Extends n I := ⟨I.var, rfl, fun _ _ => rfl⟩

lemma trans (h : I.Extends n J) (h' : J.Extends m K) (hn : n ≤ m) : I.Extends n K := by
  obtain ⟨ν, rfl, hν⟩ := h
  obtain ⟨ν', rfl, hν'⟩ := h'
  exact ⟨ν', rfl, fun x hx => (hν' x (hx.mono hn)).trans (hν x hx)⟩

end Extends

lemma keys_withVar {ν : Var → Value α} {es : List Entry} {frame : Option Var}
    (hes : ∀ e ∈ es, (I.withVar ν).value e.1 = I.value e.1)
    (hframe : ∀ x, frame = some x → ν x = I.var x) : (I.withVar ν).keys es frame = I.keys es frame := by
  have hentries : (I.withVar ν).frameEntries frame = I.frameEntries frame := by
    cases frame with
    | none => rfl
    | some x => exact congrArg I.entries (hframe x rfl)
  rw [keys, keys, hentries, List.map_congr_left hes]

/-- Only the variables of a term count for its meaning. -/
lemma Proper.withVar {ν : Var → Value α} (ht : I.Proper t) (hν : ∀ x ∈ t.vars, ν x = I.var x) :
    (I.withVar ν).Proper t := by
  induction ht with
  | var x => exact .var x
  | bool b => exact .bool b
  | int i => exact .int i
  | @app f args _ htakes ih =>
      have hargs : ∀ a ∈ args, ∀ x ∈ a.vars, ν x = I.var x := fun a ha x hx =>
        hν x (mem_vars_app.mpr ⟨a, ha, hx⟩)
      refine .app (fun a ha => ih a ha (hargs a ha)) fun o hf ho => ?_
      rw [List.map_congr_left fun a ha => value_withVar (hargs a ha)]
      exact htakes o hf ho
  | @map es frame _ _ hframe hkeys ihk ihv =>
      have hkey : ∀ e ∈ es, ∀ x ∈ e.1.vars, ν x = I.var x := fun e he x hx =>
        hν x (mem_vars_map.mpr (.inl ⟨e, he, .inl hx⟩))
      have hvar : ∀ x, frame = some x → ν x = I.var x := fun x hx =>
        hν x (mem_vars_map.mpr (.inr hx))
      refine .map (fun e he => ihk e he (hkey e he))
        (fun e he => ihv e he fun x hx => hν x (mem_vars_map.mpr (.inl ⟨e, he, .inr hx⟩)))
        (fun x hx => ?_) ?_
      · obtain ⟨S, hS⟩ := hframe x hx
        exact ⟨S, (hvar x hx).trans hS⟩
      · rwa [keys_withVar (fun e he => value_withVar (hkey e he)) hvar]
  | lookup _ _ ihm ihk =>
      exact .lookup (ihm fun x hx => hν x (mem_vars_lookup.mpr (.inl hx)))
        (ihk fun x hx => hν x (mem_vars_lookup.mpr (.inr hx)))

lemma Holds.symm (h : I.Holds ⟨s, t⟩) : I.Holds ⟨t, s⟩ := ⟨h.right, h.left, h.value.symm⟩

/-- The equation holds, and has none of the fresh frames with numbers from `n` on. -/
structure Knows (I : Interpretation α) (n : Nat) (e : Equation) : Prop where
  holds : I.Holds e
  ranges : e.Ranges (Var.Before n)

namespace Knows

lemma symm (h : I.Knows n ⟨s, t⟩) : I.Knows n ⟨t, s⟩ := ⟨h.holds.symm, h.ranges.2, h.ranges.1⟩

lemma extend (h : I.Knows n e) (hJ : I.Extends n J) (hn : n ≤ m) : J.Knows m e := by
  obtain ⟨ν, rfl, hν⟩ := hJ
  have hl := fun x hx => hν x (h.ranges.1 x hx)
  have hr := fun x hx => hν x (h.ranges.2 x hx)
  exact ⟨⟨h.holds.left.withVar hl, h.holds.right.withVar hr, by
      rw [value_withVar hl, value_withVar hr, h.holds.value]⟩,
    h.ranges.1.mono fun _ hx => hx.mono hn, h.ranges.2.mono fun _ hx => hx.mono hn⟩

end Knows

/-- Applications to arguments of the same values. -/
lemma Knows.args {f g : Symbol} {ss ts : List Term} (h : I.Knows n ⟨.app f ss, .app g ts⟩)
    (heq : ss.map I.value = ts.map I.value) : List.Forall₂ (fun s t => I.Knows n ⟨s, t⟩) ss ts := by
  have hl := h.holds.left.arg
  have hr := h.holds.right.arg
  have hls := Ranges.app_iff.mp h.ranges.1
  have hrs := Ranges.app_iff.mp h.ranges.2
  clear h
  induction ss generalizing ts with
  | nil =>
      obtain rfl : ts = [] := List.map_eq_nil_iff.mp heq.symm
      exact .nil
  | cons s ss ih =>
      cases ts with
      | nil => cases heq
      | cons t ts =>
          rw [List.map_cons, List.map_cons, List.cons.injEq] at heq
          rw [List.forall_mem_cons] at hl hr hls hrs
          exact .cons ⟨⟨hl.1, hr.1, heq.1⟩, hls.1, hrs.1⟩ (ih heq.2 hl.2 hr.2 hls.2 hrs.2)

/-! ### Two maps -/

variable {es fs : List Entry} {a b : Option Var}

/-- A frame on its own stands for the map that it is. -/
lemma value_frame (hx : I.IsMap x) : I.value (.map [] (some x)) = I.var x := by
  obtain ⟨S, hS⟩ := hx
  rw [value_map, hS, mapOf_inj]
  simp [contents, withFrame, frameEntries, hS]

lemma nodup_keys_iff : (I.keys es a).Nodup ↔ (es.map fun e => I.value e.1).Nodup ∧
    Set.InjOn Prod.fst (I.frameEntries a : Set (Value α × Value α)) ∧
    ∀ e ∈ es, ∀ p ∈ I.frameEntries a, I.value e.1 ≠ p.1 := by
  have hframe : ((I.frameEntries a).toList.map Prod.fst).Nodup ↔
      Set.InjOn Prod.fst (I.frameEntries a : Set (Value α × Value α)) := by
    rw [List.nodup_map_iff_inj_on (Finset.nodup_toList _)]
    simp only [Finset.mem_toList]
    rfl
  rw [keys, List.nodup_append, hframe]
  refine and_congr_right fun _ => and_congr_right fun _ => ?_
  rw [List.forall_mem_map]
  refine forall₂_congr fun e _ => ?_
  rw [List.forall_mem_map]
  simp only [Finset.mem_toList]

/-- The values under a common key of two equal maps are equal. -/
lemma Knows.common (h : I.Knows n ⟨.map es a, .map fs b⟩) {k v w : Term} (he : (k, v) ∈ es)
    (hf : (k, w) ∈ fs) : I.Knows n ⟨v, w⟩ := by
  refine ⟨⟨(h.holds.left.entries _ he).2, (h.holds.right.entries _ hf).2, ?_⟩,
    ((Ranges.map_iff.mp h.ranges.1).1 _ he).2, ((Ranges.map_iff.mp h.ranges.2).1 _ hf).2⟩
  exact contents_unique h.holds.right.keys
    ((value_map_eq_iff.mp h.holds.value _).mp (entry_mem_contents he)) (entry_mem_contents hf)

/-- The contents of a map that are left over are those under other keys. -/
lemma mem_contents_leftover (h : (I.keys es a).Nodup) {p : Value α × Value α} :
    p ∈ I.contents (leftover es fs) a ↔
      p ∈ I.contents es a ∧ ∀ e ∈ es, ∀ f ∈ fs, f.1 = e.1 → I.value e.1 ≠ p.1 := by
  obtain ⟨hes, -, hdisjoint⟩ := nodup_keys_iff.mp h
  rw [mem_contents, mem_contents]
  constructor
  · rintro (⟨e, he, rfl⟩ | hp)
    · obtain ⟨he, hfresh⟩ := mem_leftover.mp he
      refine ⟨.inl ⟨e, he, rfl⟩, fun e' he' f hf heq hkey => ?_⟩
      obtain rfl := List.inj_on_of_nodup_map hes he' he hkey
      exact hfresh f hf heq
    · exact ⟨.inr hp, fun e he _ _ _ => hdisjoint e he p hp⟩
  · rintro ⟨⟨e, he, rfl⟩ | hp, hkey⟩
    · exact .inl ⟨e, mem_leftover.mpr ⟨he, fun f hf heq => hkey e he f hf heq rfl⟩, rfl⟩
    · exact .inr hp

/-- Of two equal maps, what is left over is equal. -/
lemma Knows.leftover (h : I.Knows n ⟨.map es a, .map fs b⟩) :
    I.Knows n ⟨.map (leftover es fs) a, .map (leftover fs es) b⟩ := by
  obtain ⟨hes, ha⟩ := Ranges.map_iff.mp h.ranges.1
  obtain ⟨hfs, hb⟩ := Ranges.map_iff.mp h.ranges.2
  refine ⟨⟨h.holds.left.sublist List.filter_sublist, h.holds.right.sublist List.filter_sublist, ?_⟩,
    Ranges.map_iff.mpr ⟨fun e he => hes e (mem_of_mem_leftover he), ha⟩,
    Ranges.map_iff.mpr ⟨fun f hf => hfs f (mem_of_mem_leftover hf), hb⟩⟩
  refine value_map_eq_iff.mpr fun p => ?_
  rw [mem_contents_leftover h.holds.left.keys, mem_contents_leftover h.holds.right.keys,
    value_map_eq_iff.mp h.holds.value p]
  refine and_congr_right fun _ => ⟨fun hp f hf e he heq => ?_, fun hp e he f hf heq => ?_⟩
  · exact heq ▸ hp e he f hf heq.symm
  · exact heq ▸ hp f hf e he heq.symm

/-- The equation holds with the entries of both maps in order. -/
lemma Knows.ofEntries (h : I.Knows n ⟨.map es a, .map fs b⟩) :
    I.Knows n ⟨.ofEntries es a, .ofEntries fs b⟩ := by
  obtain ⟨hes, ha⟩ := Ranges.map_iff.mp h.ranges.1
  obtain ⟨hfs, hb⟩ := Ranges.map_iff.mp h.ranges.2
  exact ⟨⟨h.holds.left.ofEntries, h.holds.right.ofEntries, by
      rw [value_ofEntries, value_ofEntries, h.holds.value]⟩, .ofEntries hes ha, .ofEntries hfs hb⟩

/-- The keys of the one map have other values than those of the other. -/
def Apart (I : Interpretation α) (es fs : List Entry) : Prop :=
  ∀ e ∈ es, ∀ f ∈ fs, I.value e.1 ≠ I.value f.1

lemma Apart.symm (h : I.Apart es fs) : I.Apart fs es := fun f hf e he => (h e he f hf).symm

/-- Then an entry of the one is found in the frame of the other. -/
lemma entry_mem_frame (h : I.Holds ⟨.map es a, .map fs b⟩) (hapart : I.Apart es fs) {e : Entry}
    (he : e ∈ es) : I.entry e ∈ I.frameEntries b := by
  rcases mem_contents.mp ((value_map_eq_iff.mp h.value _).mp (entry_mem_contents he)) with
    ⟨f, hf, heq⟩ | hframe
  · exact absurd (congrArg Prod.fst heq).symm (hapart e he f hf)
  · exact hframe

/-- A frame on its own is equal to the other map. -/
lemma Knows.frame (h : I.Knows n ⟨.map [] (some x), .map fs b⟩) :
    I.Knows n ⟨.var x, .ofEntries fs b⟩ := by
  obtain ⟨-, hx⟩ := Ranges.map_iff.mp h.ranges.1
  refine ⟨⟨.var x, h.holds.right.ofEntries, ?_⟩, Ranges.var_iff.mpr (hx x rfl), h.ofEntries.ranges.2⟩
  rw [value_var, ← value_frame (h.holds.left.isMap x rfl), value_ofEntries]
  exact h.holds.value

/-- Two frames on their own are equal. -/
lemma Knows.frames (h : I.Knows n ⟨.map [] (some x), .map [] (some y)⟩) :
    I.Knows n ⟨.var x, .var y⟩ := by
  obtain ⟨-, hx⟩ := Ranges.map_iff.mp h.ranges.1
  obtain ⟨-, hy⟩ := Ranges.map_iff.mp h.ranges.2
  refine ⟨⟨.var x, .var y, ?_⟩, Ranges.var_iff.mpr (hx x rfl), Ranges.var_iff.mpr (hy y rfl)⟩
  rw [value_var, value_var, ← value_frame (h.holds.left.isMap x rfl),
    ← value_frame (h.holds.right.isMap y rfl), h.holds.value]

/-! ### A fresh frame -/

/-- The interpretation in which the fresh frame with number `n` stands for given entries. -/
def withFresh (I : Interpretation α) (n : Nat) (S : Finset (Value α × Value α)) : Interpretation α :=
  I.withVar (Function.update I.var (.fresh n .map) (I.mapOf S))

variable {S : Finset (Value α × Value α)}

lemma var_withFresh (hx : x.Before n) : (I.withFresh n S).var x = I.var x :=
  Function.update_of_ne (hx n (Nat.le_refl n)) _ _

lemma extends_withFresh : I.Extends n (I.withFresh n S) := ⟨_, rfl, fun _ => var_withFresh⟩

lemma value_withFresh (ht : t.Ranges (Var.Before n)) : (I.withFresh n S).value t = I.value t :=
  value_withVar fun x hx => var_withFresh (ht x hx)

lemma frameEntries_withFresh : (I.withFresh n S).frameEntries (some (.fresh n .map)) = S := by
  rw [frameEntries, withFresh, var_withVar, Function.update_self, entries_withVar, entries_mapOf]

/-- The entries of a map with the fresh frame. -/
lemma mem_contents_withFresh (hes : ∀ e ∈ es, e.1.Ranges (Var.Before n) ∧ e.2.Ranges (Var.Before n))
    {p : Value α × Value α} : p ∈ (I.withFresh n S).contents es (some (.fresh n .map)) ↔
      (∃ e ∈ es, I.entry e = p) ∨ p ∈ S := by
  rw [mem_contents, frameEntries_withFresh]
  refine or_congr_left (exists_congr fun e => and_congr_right fun he => ?_)
  rw [entry, entry, value_withFresh (hes e he).1, value_withFresh (hes e he).2]

/-- A map may have the fresh frame where the keys differ from those of its entries. -/
lemma Proper.withFresh (h : I.Proper (.map es a))
    (hes : ∀ e ∈ es, e.1.Ranges (Var.Before n) ∧ e.2.Ranges (Var.Before n))
    (hS : Set.InjOn Prod.fst (S : Set (Value α × Value α)))
    (hdisjoint : ∀ e ∈ es, ∀ p ∈ S, I.value e.1 ≠ p.1) :
    (I.withFresh n S).Proper (.map es (some (.fresh n .map))) := by
  have hvalue : ∀ e ∈ es, (I.withFresh n S).value e.1 = I.value e.1 := fun e he =>
    value_withFresh (hes e he).1
  refine .of_entries (fun e he => ⟨?_, ?_⟩) ?_ (nodup_keys_iff.mpr ⟨?_, ?_, ?_⟩)
  · exact (h.entries e he).1.withVar fun x hx => var_withFresh ((hes e he).1 x hx)
  · exact (h.entries e he).2.withVar fun x hx => var_withFresh ((hes e he).2 x hx)
  · rintro _ ⟨⟩
    exact ⟨S, Function.update_self _ _ _⟩
  · rw [List.map_congr_left hvalue]
    exact (nodup_keys_iff.mp h.keys).1
  · rwa [frameEntries_withFresh]
  · intro e he p hp
    rw [frameEntries_withFresh] at hp
    rw [hvalue e he]
    exact hdisjoint e he p hp

/-- A frame is the map of its entries. -/
lemma IsMap.var_eq (hx : I.IsMap x) : I.var x = I.mapOf (I.frameEntries (some x)) := by
  obtain ⟨S, hS⟩ := hx
  rw [frameEntries, hS, entries_mapOf]

/-- A variable that stands for a map is equal to the map of some of its entries, with the fresh frame for
the others. -/
lemma knows_withFresh (hx : I.IsMap x) (hbefore : x.Before n) (h : I.Proper (.map es a))
    (hes : ∀ e ∈ es, e.1.Ranges (Var.Before n) ∧ e.2.Ranges (Var.Before n))
    (hS : Set.InjOn Prod.fst (S : Set (Value α × Value α)))
    (hdisjoint : ∀ e ∈ es, ∀ p ∈ S, I.value e.1 ≠ p.1)
    (hframe : ∀ p, p ∈ I.frameEntries (some x) ↔ (∃ e ∈ es, I.entry e = p) ∨ p ∈ S) :
    (I.withFresh n S).Knows (n + 1) ⟨.var x, .ofEntries es (some (.fresh n .map))⟩ := by
  refine ⟨⟨.var x, (h.withFresh hes hS hdisjoint).ofEntries, ?_⟩, ?_, .ofEntries (fun e he => ?_) ?_⟩
  · have hcontents : I.frameEntries (some x) =
        (I.withFresh n S).contents es (some (.fresh n .map)) :=
      Finset.ext fun p => (hframe p).trans (mem_contents_withFresh hes).symm
    rw [value_var, var_withFresh hbefore, hx.var_eq, value_ofEntries, value_map, hcontents]
    rfl
  · exact Ranges.var_iff.mpr (hbefore.mono (Nat.le_succ n))
  · exact ⟨(hes e he).1.mono fun _ h => h.mono (Nat.le_succ n),
      (hes e he).2.mono fun _ h => h.mono (Nat.le_succ n)⟩
  · rintro _ ⟨⟩ k hk heq
    exact absurd (Var.fresh_injective heq) (by omega)

open Classical in
/-- The entries of a frame other than given ones. -/
noncomputable def rest (I : Interpretation α) (fs : List Entry) (x : Var) :
    Finset (Value α × Value α) :=
  (I.frameEntries (some x)).filter fun p => ¬ ∃ f ∈ fs, I.entry f = p

open Classical in
lemma mem_rest {p : Value α × Value α} :
    p ∈ I.rest fs x ↔ p ∈ I.frameEntries (some x) ∧ ¬ ∃ f ∈ fs, I.entry f = p := Finset.mem_filter

section Rest

variable (h : I.Holds ⟨.map es (some x), .map fs (some y)⟩) (hapart : I.Apart es fs)

include h hapart

/-- Of two equal maps without common keys, the one frame has the entries of the other map and the rest. -/
lemma mem_frame_left (p : Value α × Value α) :
    p ∈ I.frameEntries (some x) ↔ (∃ f ∈ fs, I.entry f = p) ∨ p ∈ I.rest fs x := by
  rw [mem_rest]
  constructor
  · exact fun hp => or_iff_not_imp_left.mpr fun hf => ⟨hp, hf⟩
  · rintro (⟨f, hf, rfl⟩ | hp)
    · exact entry_mem_frame h.symm hapart.symm hf
    · exact hp.1

/-- The other frame has the entries of the one map, and the same rest. -/
lemma mem_frame_right (p : Value α × Value α) :
    p ∈ I.frameEntries (some y) ↔ (∃ e ∈ es, I.entry e = p) ∨ p ∈ I.rest fs x := by
  obtain ⟨-, -, hkeys⟩ := nodup_keys_iff.mp h.right.keys
  have hcontents := value_map_eq_iff.mp h.value p
  rw [mem_contents, mem_contents] at hcontents
  rw [mem_rest]
  constructor
  · intro hp
    refine (hcontents.mpr (.inr hp)).imp_right fun hpx => ⟨hpx, ?_⟩
    rintro ⟨f, hf, rfl⟩
    exact hkeys f hf _ hp rfl
  · rintro (⟨e, he, rfl⟩ | ⟨hp, hnot⟩)
    · exact entry_mem_frame h hapart he
    · exact (hcontents.mp (.inr hp)).resolve_left hnot

end Rest

/-- Two equal maps without common keys go on in the same rest, for which there is a value. -/
theorem Knows.shared (h : I.Knows n ⟨.map es (some x), .map fs (some y)⟩) (hapart : I.Apart es fs) :
    ∃ J, I.Extends n J ∧
      J.Knows (n + 1) ⟨.var x, .ofEntries fs (some (.fresh n .map))⟩ ∧
      J.Knows (n + 1) ⟨.ofEntries es (some (.fresh n .map)), .var y⟩ := by
  obtain ⟨hes, hx⟩ := Ranges.map_iff.mp h.ranges.1
  obtain ⟨hfs, hy⟩ := Ranges.map_iff.mp h.ranges.2
  obtain ⟨-, hinj, hkeys⟩ := nodup_keys_iff.mp h.holds.left.keys
  have hrest : Set.InjOn Prod.fst (I.rest fs x : Set (Value α × Value α)) :=
    hinj.mono fun p hp => (mem_rest.mp hp).1
  refine ⟨I.withFresh n (I.rest fs x), extends_withFresh, ?_, .symm ?_⟩
  · refine knows_withFresh (h.holds.left.isMap x rfl) (hx x rfl) h.holds.right hfs hrest ?_
      (mem_frame_left h.holds hapart)
    intro f hf p hp heq
    obtain ⟨hp, hnot⟩ := mem_rest.mp hp
    exact hnot ⟨f, hf, hinj (entry_mem_frame h.symm.holds hapart.symm hf) hp heq⟩
  · exact knows_withFresh (h.holds.right.isMap y rfl) (hy y rfl) h.holds.left hes hrest
      (fun e he p hp => hkeys e he p (mem_rest.mp hp).1) (mem_frame_right h.holds hapart)

end Interpretation

end SolvedForm

import Mathlib
import SolvedForm.Proofs.Model.Evaluation
import SolvedForm.Proofs.Model.Interpretation
import SolvedForm.Proofs.Unification.Maps
import SolvedForm.Proofs.Unification.Reading

/-!
Terms that an interpretation gives a proper meaning.

* `Interpretation.Proper`: the operators take the values of their operands, and no two entries of one
  map, its frame included, have the same key.
* `Interpretation.Proper.ne_of_provablyDistinct`: provably distinct terms have different values.
* `Interpretation.Proper.rewrite`: rewriting that replaces terms by terms of the same value keeps the
  value of the whole.
* `Interpretation.Proper.apply`, `Interpretation.Proper.replace`, `Interpretation.Proper.evaluate`:
  so it is with bindings and facts that hold, and with evaluation.
-/

namespace SolvedForm

open Term

variable {α : Type} {I : Interpretation α} {s t u m k : Term} {f : Symbol} {args : List Term}
  {es fs : List Entry} {frame : Option Var}

namespace Interpretation

/-! ### Keys -/

/-- The keys of a map term, those of its frame included. -/
noncomputable def keys (I : Interpretation α) (es : List Entry) (frame : Option Var) :
    List (Value α) :=
  es.map (fun e => I.value e.1) ++ (I.frameEntries frame).toList.map Prod.fst

/-- The variable stands for a map. -/
def IsMap (I : Interpretation α) (x : Var) : Prop := ∃ S, I.var x = I.mapOf S

/-- The operators take the values of their operands, every frame stands for a map, and no two entries of
one map, its frame included, have the same key. -/
inductive Proper (I : Interpretation α) : Term → Prop where
  | var (x : Var) : Proper I (.var x)
  | bool (b : Bool) : Proper I (.bool b)
  | int (i : Int64) : Proper I (.int i)
  | app {f : Symbol} {args : List Term} : (∀ a ∈ args, Proper I a) →
      (∀ o, f.isConstructor = false → Operator.ofLabel f.name = some o →
        o.Takes (args.map I.value)) → Proper I (.app f args)
  | map {es : List Entry} {frame : Option Var} : (∀ e ∈ es, Proper I e.1) →
      (∀ e ∈ es, Proper I e.2) → (∀ x, frame = some x → I.IsMap x) → (I.keys es frame).Nodup →
      Proper I (.map es frame)
  | lookup {m k : Term} : Proper I m → Proper I k → Proper I (.lookup m k)

/-- Both sides of the equation have a proper meaning, and the same value. -/
structure Holds (I : Interpretation α) (e : Equation) : Prop where
  left : I.Proper e.left
  right : I.Proper e.right
  value : I.value e.left = I.value e.right

/-- The second term has a proper meaning, and the value of the first. -/
structure Agrees (I : Interpretation α) (t u : Term) : Prop where
  proper : I.Proper u
  value : I.value u = I.value t

/-! ### Maps -/

lemma nodup_of_keys (h : (I.keys es frame).Nodup) : (es.map (·.1)).Nodup := by
  have hvalues := (List.nodup_append.mp h).1
  rw [← Function.comp_def, ← List.map_map] at hvalues
  exact hvalues.of_map _

/-- Under different keys, the entries of a map are its own and those of its frame. -/
lemma contents_perm (h : (I.keys es frame).Nodup) :
    (I.contents es frame).toList.Perm (es.map I.entry ++ (I.frameEntries frame).toList) := by
  refine (List.perm_ext_iff_of_nodup (Finset.nodup_toList _) ?_).mpr fun p => by simp
  refine List.Nodup.of_map Prod.fst ?_
  rw [List.map_append, List.map_map]
  exact h

/-- Under different keys, an entry of a map is known by its key. -/
lemma contents_unique (h : (I.keys es frame).Nodup) {k v w : Value α}
    (hv : (k, v) ∈ I.contents es frame) (hw : (k, w) ∈ I.contents es frame) : v = w := by
  have hkeys : ((I.contents es frame).toList.map Prod.fst).Nodup := by
    rw [((contents_perm h).map Prod.fst).nodup_iff, List.map_append, List.map_map]
    exact h
  exact (Prod.mk.inj (List.inj_on_of_nodup_map hkeys (Finset.mem_toList.mpr hv)
    (Finset.mem_toList.mpr hw) rfl)).2

lemma entry_mem_contents {e : Entry} (he : e ∈ es) : I.entry e ∈ I.contents es frame :=
  mem_contents.mpr (.inl ⟨e, he, rfl⟩)

namespace Proper

lemma arg (h : I.Proper (.app f args)) : ∀ a ∈ args, I.Proper a := by
  cases h with
  | app h => exact h

lemma takes (h : I.Proper (.app f args)) {o : Operator} (hf : f.isConstructor = false)
    (ho : Operator.ofLabel f.name = some o) : o.Takes (args.map I.value) := by
  cases h with
  | app _ h => exact h o hf ho

lemma entries (h : I.Proper (.map es frame)) : ∀ e ∈ es, I.Proper e.1 ∧ I.Proper e.2 := by
  cases h with
  | map hk hv => exact fun e he => ⟨hk e he, hv e he⟩

lemma isMap (h : I.Proper (.map es frame)) : ∀ x, frame = some x → I.IsMap x := by
  cases h with
  | map _ _ h => exact h

lemma keys (h : I.Proper (.map es frame)) : (I.keys es frame).Nodup := by
  cases h with
  | map _ _ _ h => exact h

lemma of_lookup (h : I.Proper (.lookup m k)) : I.Proper m ∧ I.Proper k := by
  cases h with
  | lookup hm hk => exact ⟨hm, hk⟩

lemma of_entries (h : ∀ e ∈ es, I.Proper e.1 ∧ I.Proper e.2)
    (hframe : ∀ x, frame = some x → I.IsMap x) (hkeys : (I.keys es frame).Nodup) :
    I.Proper (.map es frame) := .map (fun e he => (h e he).1) (fun e he => (h e he).2) hframe hkeys

/-- A map may have its entries in another order. -/
lemma perm (h : I.Proper (.map es frame)) (hperm : fs.Perm es) : I.Proper (.map fs frame) :=
  .of_entries (fun f hf => h.entries f (hperm.mem_iff.mp hf)) h.isMap
    (((hperm.map _).append_right _).nodup_iff.mpr h.keys)

lemma ofEntries (h : I.Proper (.map es frame)) : I.Proper (ofEntries es frame) :=
  h.perm (Sorted.ofList_perm (.of_map _ (nodup_of_keys h.keys)))

/-- A map may have a part of its entries. -/
lemma sublist (h : I.Proper (.map es frame)) (hfs : fs.Sublist es) : I.Proper (.map fs frame) :=
  .of_entries (fun f hf => h.entries f (hfs.subset hf)) h.isMap
    (h.keys.sublist ((hfs.map _).append_right _))

/-- A lookup of a key that is present has the value of its entry. -/
lemma value_lookup {e : Entry} (h : I.Proper (.map es frame)) (he : e ∈ es)
    (hk : I.value k = I.value e.1) : I.value (.lookup (.map es frame) k) = I.value e.2 := by
  have hmem : (I.value k, I.value e.2) ∈ I.contents es frame := hk ▸ entry_mem_contents he
  rw [Interpretation.value_lookup, value_map]
  refine read_of_mem (by rwa [entries_mapOf]) fun w hw => ?_
  rw [entries_mapOf] at hw
  exact contents_unique h.keys hw hmem

end Proper

/-! ### Distinct terms -/

/-- A value with a given head; that of a map may show its size. -/
def Shows (I : Interpretation α) : Head → Value α → Prop
  | .map size, v => ∃ S, v = I.mapOf S ∧ ∀ n, size = some n → S.card = n
  | h, v => h.Shows v

/-- The heads of one value do not clash. -/
lemma Shows.clash_eq_false {a b : Head} {v : Value α} (ha : I.Shows a v) (hb : I.Shows b v) :
    a.clash b = false := by
  cases a with
  | map size =>
      obtain ⟨S, rfl, hsize⟩ := ha
      cases b with
      | map size' =>
          obtain ⟨S', hS, hsize'⟩ := hb
          obtain rfl := mapOf_injective hS
          cases size with
          | none => rfl
          | some n =>
              cases size' with
              | none => rfl
              | some n' => simp [Head.clash, ← hsize n rfl, ← hsize' n' rfl]
      | bool | int | constructor => simp [Shows, Head.Shows, mapOf] at hb
  | bool | int | constructor =>
      cases b with
      | map =>
          obtain ⟨S, rfl, -⟩ := hb
          simp [Shows, Head.Shows, mapOf] at ha
      | bool | int | constructor =>
          simp only [Shows] at ha hb
          rw [ha.unique hb]
          exact Head.clash_self _

namespace Proper

lemma shows (ht : I.Proper t) {a : Head} (h : t.head = some a) : I.Shows a (I.value t) := by
  cases ht with
  | var | lookup => cases h
  | bool | int =>
      cases h
      rfl
  | @app f args =>
      rw [head, Option.ite_none_right_eq_some] at h
      obtain ⟨hf, h⟩ := h
      cases h
      exact ⟨f, _, value_con hf args, rfl, rfl⟩
  | @map es frame _ _ _ hkeys =>
      cases h
      refine ⟨_, value_map es frame, fun n hn => ?_⟩
      cases frame with
      | none =>
          cases hn
          rw [← Finset.length_toList, (contents_perm hkeys).length_eq]
          simp [frameEntries]
      | some x => cases hn

lemma ne_of_headsClash (hs : I.Proper s) (ht : I.Proper t) (h : s.headsClash t = true) :
    I.value s ≠ I.value t := by
  unfold headsClash at h
  split at h
  · next a b ha hb =>
      intro heq
      rw [(hs.shows ha).clash_eq_false (heq ▸ ht.shows hb)] at h
      cases h
  · cases h

/-- Provably distinct terms have different values. -/
theorem ne_of_provablyDistinct (hs : I.Proper s) (ht : I.Proper t)
    (h : s.provablyDistinct t = true) : I.value s ≠ I.value t := by
  induction s using Term.ind generalizing t with
  | app f ss ih =>
      cases t with
      | app g ts =>
          rw [provablyDistinct, Bool.or_eq_true, Bool.and_eq_true, Bool.and_eq_true] at h
          rcases h with h | ⟨⟨hf, hg⟩, h⟩
          · exact hs.ne_of_headsClash ht h
          · rw [value_con hf, value_con hg]
            intro heq
            exact Term.map_ne_of_someDistinct
              (fun s hs' t ht' => ih s hs' (hs.arg s hs') (ht.arg t ht')) h (Value.con.inj heq).2
      | var | bool | int | map | lookup => exact hs.ne_of_headsClash ht h
  | var | bool | int | map | lookup => cases t <;> exact hs.ne_of_headsClash ht h

end Proper

/-! ### Rewriting -/

namespace Agrees

lemma refl (ht : I.Proper t) : I.Agrees t t := ⟨ht, rfl⟩

lemma trans (h : I.Agrees s t) (h' : I.Agrees t u) : I.Agrees s u :=
  ⟨h'.proper, h'.value.trans h.value⟩

/-- The arguments of an application may be exchanged for others of the same values. -/
lemma app {args' : List Term} (h : I.Proper (.app f args)) (hproper : ∀ a ∈ args', I.Proper a)
    (hvalue : args'.map I.value = args.map I.value) : I.Agrees (.app f args) (.app f args') :=
  ⟨.app hproper fun _ hf ho => hvalue ▸ h.takes hf ho, by rw [value_app, value_app, hvalue]⟩

/-- The entries of a map may be exchanged for others of the same values. -/
lemma map (h : I.Proper (.map es frame)) (hproper : ∀ e ∈ fs, I.Proper e.1 ∧ I.Proper e.2)
    (hentry : fs.map I.entry = es.map I.entry) : I.Agrees (.map es frame) (.map fs frame) := by
  have hkeys : fs.map (fun e => I.value e.1) = es.map fun e => I.value e.1 := by
    simpa [entry, Function.comp_def] using congrArg (List.map Prod.fst) hentry
  refine ⟨.of_entries hproper h.isMap ?_, by rw [value_map, value_map, contents, contents, hentry]⟩
  rw [Interpretation.keys, hkeys]
  exact h.keys

/-- The frame of a map may be exchanged for a term of the same value. -/
lemma reframe {image : Var → Term} (h : I.Proper (.map es frame))
    (himage : ∀ x, frame = some x → I.Agrees (.var x) (image x)) :
    I.Agrees (.map es frame) (reframe es frame image) := by
  refine ⟨?_, value_reframe fun x hx => (himage x hx).value⟩
  cases frame with
  | none => exact h.ofEntries
  | some x =>
      obtain ⟨hproper, hvalue⟩ := himage x rfl
      rw [Term.reframe]
      split
      · next y hy =>
          rw [hy, value_var, value_var] at hvalue
          refine Proper.ofEntries (.of_entries h.entries ?_ ?_)
          · rintro _ ⟨⟩
            rw [IsMap, hvalue]
            exact h.isMap x rfl
          · have hkeys := h.keys
            rwa [Interpretation.keys, frameEntries, ← hvalue] at hkeys
      · next rest y hy =>
          rw [hy] at hproper hvalue
          rw [value_map, value_var] at hvalue
          refine Proper.ofEntries (.of_entries (fun e he => (List.mem_append.mp he).elim (h.entries e)
            (hproper.entries e)) hproper.isMap ?_)
          have hkeys := h.keys
          rw [Interpretation.keys, frameEntries, ← hvalue, entries_mapOf] at hkeys
          have hperm := (((contents_perm hproper.keys).map Prod.fst).append_left
            (es.map fun e => I.value e.1)).nodup_iff.mp hkeys
          simpa [Interpretation.keys, entry, Function.comp_def] using hperm
      · exact h.ofEntries

end Agrees

/-- Rewriting keeps the value of a term when all its replacements do. -/
theorem Proper.rewrite {before : Term → Option Term} {after : Term → Term}
    (hbefore : ∀ t u, I.Proper t → before t = some u → I.Agrees t u)
    (hafter : ∀ t, I.Proper t → I.Agrees t (after t)) (ht : I.Proper t) :
    I.Agrees t (t.rewrite before after) := by
  have pick : ∀ {t u}, I.Proper t → I.Agrees t u →
      I.Agrees t ((before t).getD (after u)) := by
    intro t u ht h
    cases hb : before t with
    | none => exact h.trans (hafter u h.proper)
    | some w => exact hbefore t w ht hb
  induction t using Term.ind with
  | var x => exact pick ht (.refl ht)
  | bool b => exact pick ht (.refl ht)
  | int i => exact pick ht (.refl ht)
  | app f args ih =>
      rw [Term.rewrite, rewriteArgs_eq_map]
      refine pick ht (.app ht (List.forall_mem_map.mpr fun a ha => (ih a ha (ht.arg a ha)).proper) ?_)
      rw [List.map_map]
      exact List.map_congr_left fun a ha => (ih a ha (ht.arg a ha)).value
  | map es frame ih =>
      rw [Term.rewrite, rewriteEntries_eq_map]
      have key := fun e he => (ih e he).1 (ht.entries e he).1
      have val := fun e he => (ih e he).2 (ht.entries e he).2
      have hentry : (es.map fun e => (Term.rewrite before after e.1,
          Term.rewrite before after e.2)).map I.entry = es.map I.entry := by
        rw [List.map_map]
        exact List.map_congr_left fun e he => Prod.ext (key e he).value (val e he).value
      have hmap := Agrees.map ht (List.forall_mem_map.mpr fun e he =>
        ⟨(key e he).proper, (val e he).proper⟩) hentry
      exact pick ht (hmap.trans (.reframe hmap.proper fun x _ => pick (.var x) (.refl (.var x))))
  | lookup m k ihm ihk =>
      rw [Term.rewrite]
      have hm := ihm ht.of_lookup.1
      have hk := ihk ht.of_lookup.2
      exact pick ht ⟨.lookup hm.proper hk.proper, by
        rw [Interpretation.value_lookup, Interpretation.value_lookup, hm.value, hk.value]⟩

namespace Proper

/-- An instance has the same value where the bindings hold. -/
lemma apply {σ : Substitution} (hσ : ∀ b ∈ σ.toList, I.Agrees (.var b.1) b.2) (ht : I.Proper t) :
    I.Agrees t (σ.apply t) := by
  refine ht.rewrite (fun t u _ h => ?_) fun t ht => .refl ht
  cases t with
  | var x => exact hσ (x, u) (Substitution.mem_toList_iff.mpr h)
  | bool | int | app | map | lookup => cases h

/-- Replacement along a table keeps the value where the entries of the table hold. -/
lemma replace {table : Table} (htable : ∀ p ∈ table, I.Agrees p.1 p.2) (ht : I.Proper t) :
    I.Agrees t (t.replace table) := by
  have listed : ∀ {t u}, table.find? t = some u → I.Agrees t u := fun h =>
    htable _ (Decomposition.mem_of_lookup h)
  refine ht.rewrite (fun t u _ h => listed h) fun t ht => ?_
  cases h : table.find? t with
  | none => exact .refl ht
  | some u => exact listed h

/-! ### Evaluation -/

/-- The operand of a negation is a truth value. -/
lemma operand (ht : I.Proper t) (happlies : t.applies .neg = true) :
    ∃ c x, t.args = [c] ∧ I.value c = .bool x := by
  cases t with
  | app f args =>
      rw [applies, appliesLabel, Bool.and_eq_true, Bool.not_eq_true', beq_iff_eq] at happlies
      obtain ⟨x, hx⟩ := ht.takes happlies.1 (happlies.2 ▸ Operator.ofLabel_label .neg)
      obtain ⟨c, rfl, hc⟩ := List.map_eq_singleton_iff.mp hx
      exact ⟨c, x, rfl, hc⟩
  | var | bool | int | map | lookup => cases happlies

/-- A step at the root keeps the value. -/
lemma reduceRoot (ht : I.Proper t) (h : t.reduceRoot = some u) : I.Agrees t u := by
  refine ⟨reduceRoot_closed .bool .int arg (fun h e he => (h.entries e he).2)
    (fun h => h.of_lookup.1) ht h, ?_⟩
  unfold Term.reduceRoot at h
  split at h
  · next f args =>
      split at h
      · cases h
      · next hf =>
          obtain ⟨o, ho, hu⟩ := Option.bind_eq_some_iff.mp h
          rw [Bool.not_eq_true] at hf
          rw [value_op hf ho]
          exact I.faithful.reduce (ht.takes hf ho) (fun a ha => (ht.arg a ha).operand)
            (fun a ha b hb => (ht.arg a ha).ne_of_provablyDistinct (ht.arg b hb)) hu
  · exact (ht.of_lookup.1.value_lookup (Decomposition.mem_of_lookup h) rfl).symm
  · cases h

/-- Evaluation keeps the value. -/
theorem evaluate (ht : I.Proper t) : I.Agrees t t.evaluate := by
  refine ht.rewrite (fun _ _ _ h => by cases h) fun t ht => ?_
  cases h : t.reduceRoot with
  | none => exact .refl ht
  | some u => exact ht.reduceRoot h

end Proper

end Interpretation

end SolvedForm

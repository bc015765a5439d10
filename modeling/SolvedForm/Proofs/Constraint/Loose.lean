import SolvedForm.Proofs.CommonSubsort
import SolvedForm.Proofs.Constraint.Evaluated
import SolvedForm.Proofs.Constraint.Idempotence
import SolvedForm.Proofs.Constraint.Without

/-!
Solving beside bindings that nothing depends on.

* `Term.Becomes`, `SortOrder.Keeps`: the values that a term takes while variables get bound, and the
  bindings that no such value contradicts unless another binding is contradicted as well.
* `Constraint.Loose`: nothing in the constraint but their own bindings depends on given variables.
* `Constraint.Loose.normalize`: the normal form without these bindings is the normal form without
  them, or both are false.
* `Constraint.Agrees.simplifySince`: so it is for simplification, which comes to an end for both or for
  none and draws the same fresh variables.
-/

namespace SolvedForm

open Term

/-! ### Bindings that are not contradicted -/

section Sorts

variable {order : SortOrder} {e : Equation} {x y : Var} {t u : Term}

/-- The values that a term takes while variables get bound, one after the other, by open equations. -/
inductive Term.Becomes (order : SortOrder) (t : Term) : Term → Prop where
  | refl : Becomes order t t
  | bind {u v : Term} {e : Equation} {y : Var} : Becomes order t u → e.truth order = .unknown →
      e.binding? order = some (y, v) →
      Becomes order t ((Theory.standard order).instantiate (.single y v) u)

/-- Variables may get bound before all others. -/
lemma Term.Becomes.head {v : Term} (htruth : e.truth order = .unknown)
    (hb : e.binding? order = some (y, v))
    (h : ((Theory.standard order).instantiate (.single y v) t).Becomes order u) :
    t.Becomes order u := by
  induction h with
  | refl => exact .bind .refl htruth hb
  | bind _ htruth' hb' ih => exact .bind ih htruth' hb'

/-- Every sort that is compatible with that of `y` is compatible with that of `x`. -/
def SortOrder.Covers (order : SortOrder) (x y : Var) : Prop :=
  ∀ s, order.compatible y.sort s = true ∨ order.compatible s y.sort = true →
    order.compatible x.sort s = true

/-- Whatever the variables of `t` get bound to, its sort stays compatible with that of `x`. -/
def SortOrder.Admits (order : SortOrder) (x : Var) (t : Term) : Prop :=
  ∀ u, t.Becomes order u → order.compatible x.sort u.sort = true

/-- A binding of `x` to `t` is not the only one that is contradicted: `t` is a variable of a narrower
sort, or it keeps a sort that is compatible with that of `x`. -/
def SortOrder.Keeps (order : SortOrder) (x : Var) (t : Term) : Prop :=
  (∃ y, t = .var y ∧ order.Covers x y) ∨ order.Admits x t

/-- A value without variables keeps its sort. -/
lemma SortOrder.keeps_of_ground (ht : t.vars = []) (h : order.compatible x.sort t.sort = true) :
    order.Keeps x t := by
  refine .inr fun u hu => ?_
  suffices hut : u = t by rwa [hut]
  induction hu with
  | refl => rfl
  | bind _ _ _ ih =>
      rw [ih, Theory.instantiate, if_neg]
      rw [Bool.not_eq_true, Substitution.touches_eq_false_iff, ht]
      simp

lemma Subsorts.keeps_of_top {d : Subsorts} (hx : x.sort = .top) : d.order.Keeps x t :=
  .inr fun u _ => hx ▸ d.compatible_top_left u.sort

lemma Subsorts.WellFormed.keeps_var {d : Subsorts} (h : d.WellFormed) (hxy : x.sort = y.sort) :
    d.order.Keeps x (.var y) :=
  .inl ⟨y, rfl, fun s hs => by
    rw [hxy]
    exact hs.elim id fun hs => h.compatible_comm.trans hs⟩

lemma Equation.truth_var_ne_false (h : order.compatible x.sort t.sort = true) :
    Equation.truth order ⟨.var x, t⟩ ≠ .false := by
  rw [ne_eq, Equation.truth_eq_false_iff]
  rintro ⟨-, hsort | hdistinct⟩
  · exact absurd (h.symm.trans hsort) Bool.noConfusion
  · cases t <;> simp [Term.provablyDistinct, headsClash, head] at hdistinct

lemma Equation.compatible_of_truth_var (h : Equation.truth order ⟨.var x, t⟩ ≠ .false)
    (ht : t ≠ .var x) : order.compatible x.sort t.sort = true := by
  by_contra hsort
  exact h (Equation.truth_eq_false_iff.mpr ⟨Ne.symm ht, .inl (Bool.not_eq_true _ ▸ hsort)⟩)

lemma Equation.compatible_of_binding (htruth : e.truth order = .unknown)
    (h : e.binding? order = some (x, t)) :
    order.compatible x.sort t.sort = true ∨ order.compatible t.sort x.sort = true := by
  have hsort := (Equation.truth_eq_unknown_iff.mp htruth).2.1
  rcases Equation.binding?_cases h with rfl | rfl
  · exact .inl hsort
  · exact .inr hsort

end Sorts

namespace Constraint

variable {T : Theory} {order : SortOrder} {a b c d : Constraint} {σ τ : Substitution}
  {xs : List Var} {x : Var} {t : Term} {e : Equation} {es : List Equation} {kept : EquationSet}
  {fuel n m : Nat}

/-! ### Contradictions that a new binding brings about -/

/-- Some value that the substitution changes contradicts its variable. -/
def Clashes (T : Theory) (τ : Substitution) (bs : List (Var × Term)) : Prop :=
  ∃ b ∈ bs, τ.touches b.2 = true ∧
    Equation.truth T.order ⟨.var b.1, T.instantiate τ b.2⟩ = .false

lemma isFalse_bind (hc : c.isFalse = false) :
    (c.bind T x t).isFalse = true ↔ Equation.truth T.order ⟨.var x, t⟩ = .false := by
  have hstore (σ : Substitution) : ({ c with store := σ }).isFalse = false := hc
  unfold bind
  rw [if_neg (by simp [hc])]
  split
  · next h => simp [hstore, h]
  · next h => simp [isFalse_falsify, h]
  · next h => simp [hstore, h]

lemma isFalse_composeBinding (hc : c.isFalse = false) {b : Var × Term} :
    (c.composeBinding T τ b).isFalse = true ↔ Clashes T τ [b] := by
  unfold composeBinding Substitution.substitute? Clashes Theory.instantiate
  split
  · next u hu =>
      split at hu
      · next htouch =>
          cases hu
          simp [isFalse_bind hc, htouch]
      · cases hu
  · next hu =>
      split at hu
      · cases hu
      · next htouch => simp [hc, htouch]

/-- Going through the bindings makes the constraint false where a value contradicts its variable. -/
lemma isFalse_foldl_composeBinding {bs : List (Var × Term)} (hc : c.isFalse = false) :
    (bs.foldl (composeBinding T τ) c).isFalse = true ↔ Clashes T τ bs := by
  induction bs generalizing c with
  | nil => simp [hc, Clashes]
  | cons b bs ih =>
      have hb := isFalse_composeBinding (T := T) (τ := τ) hc (b := b)
      have hcons : Clashes T τ (b :: bs) ↔ Clashes T τ [b] ∨ Clashes T τ bs := by
        simp [Clashes]
      rw [List.foldl_cons, hcons]
      cases hd : (c.composeBinding T τ b).isFalse with
      | true =>
          rw [foldl_composeBinding_of_isFalse hd]
          exact iff_of_true hd (.inl (hb.mp hd))
      | false => exact (ih hd).trans (or_iff_right (hb.not.mp (by simp [hd]))).symm

lemma compose_of_clashes (hc : c.isFalse = false) (hx : x ∉ c.store.keys)
    (h : Clashes T (.single x t) c.store.toList) :
    ∃ a, compose T c x t = .ok a ∧ a.isFalse = true := by
  have hf := (isFalse_foldl_composeBinding hc).mpr h
  refine ⟨_, compose_eq hx, ?_⟩
  rw [if_pos hf]
  exact hf

lemma compose_of_not_clashes (hc : c.isFalse = false) (hx : x ∉ c.store.keys)
    (hself : ∀ b ∈ c.store.toList, T.instantiate (.single x t) b.2 ≠ .var b.1)
    (h : ¬ Clashes T (.single x t) c.store.toList) :
    compose T c x t = .ok { c with store := T.extend c.store x t } := by
  rcases compose_cases hc hx hself with hd | ⟨σ, b, -, -, -, hd⟩
  · exact hd
  · have hf := (isFalse_foldl_composeBinding hc).not.mpr h
    rw [compose_eq hx, if_neg hf] at hd
    have hfalse := isFalse_falsify { c with store := σ } ⟨.var b.1, T.instantiate (.single x t) b.2⟩
    rw [← Except.ok.inj hd] at hfalse
    exact absurd hfalse hf

/-- Stores with the same instances of the equations are gone through in the same way. -/
lemma scan_congr (h : ∀ e ∈ es, e.instantiate T.evaluate σ = e.instantiate T.evaluate τ) :
    scan T σ kept es = scan T τ kept es := by
  induction es generalizing kept with
  | nil => rfl
  | cons e es ih =>
      rw [List.forall_mem_cons] at h
      simp only [scan, h.1, ih h.2]

/-! ### Variables that nothing depends on -/

/-- The value is what another variable stands for, whose sort is narrower than that of `x`, or it keeps a
sort that is compatible with that of `x`. -/
def Held (order : SortOrder) (xs : List Var) (σ : Substitution) (x : Var) (t : Term) : Prop :=
  (∃ y, y ∉ xs ∧ order.Covers x y ∧ σ.apply (.var y) = t) ∨ order.Admits x t

/-- Given variables occur in no equation and in no value but those of their own bindings, and these are
not the only ones that a new binding can contradict. -/
structure Loose (order : SortOrder) (xs : List Var) (c : Constraint) : Prop where
  untangled : c.Untangled
  evaluated : c.Evaluated
  apart : (c.without xs).Stored (Term.Ranges (· ∉ xs)) fun _ => True
  held : ∀ b ∈ c.store.toList, b.1 ∈ xs → Held order xs c.store b.1 b.2

/-- What has come of a constraint and of the same one without given bindings: both are false, or the
second is again the first one without the bindings. -/
inductive Agrees (order : SortOrder) (xs : List Var) : Constraint → Constraint → Prop where
  | refuted {a b : Constraint} : a.isFalse = true → b.isFalse = true → Agrees order xs a b
  | loose {a : Constraint} : a.isFalse = false → a.Loose order xs → Agrees order xs a (a.without xs)

/-- The second store is the first one, or it has more bindings, also without those of given variables. -/
def Grows (xs : List Var) (σ τ : Substitution) : Prop :=
  τ = σ ∨ σ.size < τ.size ∧ (σ.without xs).size < (τ.without xs).size

lemma Grows.trans {υ : Substitution} (h : Grows xs σ τ) (h' : Grows xs τ υ) : Grows xs σ υ := by
  rcases h with rfl | h
  · exact h'
  · rcases h' with rfl | h'
    · exact .inr h
    · exact .inr ⟨h.1.trans h'.1, h.2.trans h'.2⟩

lemma grows_extend (hx : x ∉ xs) (hk : x ∉ σ.keys) : Grows xs σ (T.extend σ x t) := by
  have hk' : x ∉ (σ.without xs).keys := fun h => hk (Substitution.mem_keys_without.mp h).1
  rw [Grows, Theory.extend_without hx hk, size_extend hk, size_extend hk']
  exact .inr ⟨Nat.lt_succ_self _, Nat.lt_succ_self _⟩

/-- A store that has not grown is the one at the snapshot, and so it is without the bindings. -/
lemma Grows.unchangedSince (h : Grows xs σ c.store) (E : EquationSet) :
    (c.without xs).unchangedSince (some (σ.without xs, E)) = c.unchangedSince (some (σ, E)) := by
  change ((σ.without xs).equiv (c.store.without xs) && E.equiv c.equations) =
    (σ.equiv c.store && E.equiv c.equations)
  rcases h with h | ⟨h, h'⟩
  · rw [h, Substitution.equiv_self, Substitution.equiv_self]
  · have differ : ∀ {σ τ : Substitution}, σ.size < τ.size → σ.equiv τ = false := fun h => by
      simp [Substitution.equiv, Nat.ne_of_lt h]
    rw [differ h, differ h']

namespace Loose

/-- A change that leaves the store as it is. -/
lemma of_store (h : c.Loose order xs) (hstore : d.store = c.store) (hd : d.Evaluated)
    (hequations : ∀ e ∈ d.equations.toList, e.Ranges (· ∉ xs))
    (hbuffer : ∀ e ∈ d.buffer.toList, e.Ranges (· ∉ xs)) : d.Loose order xs where
  untangled := h.untangled.congr hstore
  evaluated := hd
  apart := ⟨hequations, hbuffer, by
    change ∀ b ∈ (d.store.without xs).toList, _
    rw [hstore]
    exact h.apart.store, fun _ _ _ _ => trivial⟩
  held := by
    rw [hstore]
    exact h.held

lemma setNormal (h : c.Loose order xs) (b : Bool) : ({ c with normal := b }).Loose order xs :=
  h.of_store rfl (h.evaluated.of_eq rfl rfl) h.apart.equations h.apart.buffer

lemma updateTruth (h : c.Loose order xs) : c.updateTruth.Loose order xs :=
  h.of_store (store_updateTruth c) h.evaluated.updateTruth
    (by rw [equations_updateTruth]; exact h.apart.equations)
    (by unfold Constraint.updateTruth; split <;> exact h.apart.buffer)

lemma drain (h : c.Loose order xs) : c.drain.Loose order xs := by
  refine h.of_store rfl ⟨fun e he => ?_, by simp [Constraint.drain]⟩ (fun e he => ?_)
    (by simp [Constraint.drain])
  · exact (EquationSet.mem_insertAll.mp he).elim (h.evaluated.equations e) (h.evaluated.buffer e)
  · exact (EquationSet.mem_insertAll.mp he).elim (h.apart.equations e) (h.apart.buffer e)

/-- The bindings do not matter for the equations, and instances are again such equations. -/
lemma instantiate (h : c.Loose order xs) (he : e ∈ c.equations.toList) :
    e.instantiate (Theory.standard order).evaluate (c.store.without xs) =
        e.instantiate (Theory.standard order).evaluate c.store ∧
      (e.instantiate (Theory.standard order).evaluate c.store).Reduced ∧
        (e.instantiate (Theory.standard order).evaluate c.store).Ranges (· ∉ xs) := by
  have hranges := h.apart.equations e he
  have hsame : e.instantiate (Theory.standard order).evaluate (c.store.without xs) =
      e.instantiate (Theory.standard order).evaluate c.store := by
    rw [Equation.instantiate_eq_map, Equation.instantiate_eq_map, Equation.map, Equation.map,
      Theory.instantiate_without hranges.1, Theory.instantiate_without hranges.2]
  refine ⟨hsame, (h.evaluated.equations e he).instantiate c.store, ?_⟩
  rw [← hsame]
  exact (Theory.preserves_ranges order _).instantiateEquation h.apart.store hranges

/-! ### New bindings -/

/-- A binding that solving finds in an open equation of the constraint. -/
structure Found (order : SortOrder) (xs : List Var) (c : Constraint) (x : Var) (t : Term) : Prop where
  origin : ∃ e, Equation.truth order e = .unknown ∧ e.binding? order = some (x, t)
  fresh : x ∉ c.store.keys
  nodes : t.Nodes fun y => y ≠ x ∧ y ∉ c.store.keys
  reduced : t.Reduced
  outside : x ∉ xs
  ranges : t.Ranges (· ∉ xs)

lemma found (h : c.Loose order xs) (he : e ∈ c.equations.toList)
    (htruth : (e.instantiate (Theory.standard order).evaluate c.store).truth order = .unknown)
    (hb : (e.instantiate (Theory.standard order).evaluate c.store).binding? order = some (x, t)) :
    Found order xs c x t := by
  obtain ⟨hfresh, hnodes⟩ :=
    fresh_of_binding_nodes (T := .standard order) (Theory.conservative_standard order) h.untangled hb
  obtain ⟨-, hreduced, hranges⟩ := h.instantiate he
  rcases Equation.binding?_cases hb with heq | heq <;> rw [heq] at hreduced hranges
  · exact ⟨⟨_, htruth, hb⟩, hfresh, hnodes, hreduced.2, Term.Ranges.var_iff.mp hranges.1, hranges.2⟩
  · exact ⟨⟨_, htruth, hb⟩, hfresh, hnodes, hreduced.1, Term.Ranges.var_iff.mp hranges.2, hranges.1⟩

/-- Where a binding of the variables is contradicted, so is another one. -/
lemma clashes_iff (h : c.Loose order xs) (hf : Found order xs c x t) :
    Clashes (.standard order) (.single x t) (c.store.without xs).toList ↔
      Clashes (.standard order) (.single x t) c.store.toList := by
  constructor
  · rintro ⟨b, hb, hclash⟩
    exact ⟨b, (Substitution.mem_toList_without.mp hb).1, hclash⟩
  rintro ⟨b, hb, htouch, hfalse⟩
  obtain ⟨e, htruth, he⟩ := hf.origin
  by_cases hbx : b.1 ∈ xs
  swap
  · exact ⟨b, Substitution.mem_toList_without.mpr ⟨hb, hbx⟩, htouch, hfalse⟩
  have hincompatible : order.compatible b.1.sort
      ((Theory.standard order).instantiate (.single x t) b.2).sort ≠ true := fun hc =>
    Equation.truth_var_ne_false hc hfalse
  rcases h.held b hb hbx with ⟨y, hy, hcovers, hvalue⟩ | hadmits
  · cases hfind : c.store.find? y with
    | none =>
        -- the value is the variable that is bound now, to a term of a compatible sort
        rw [Substitution.apply_var, hfind, Option.getD_none] at hvalue
        rw [← hvalue] at htouch hincompatible
        obtain rfl : y = x := by simpa [Substitution.touches_iff] using htouch
        refine absurd (hcovers _ ?_) hincompatible
        rw [Theory.instantiate_single_var hf.reduced.evaluate_eq]
        exact Equation.compatible_of_binding htruth he
    | some u =>
        obtain rfl : u = b.2 := by
          rwa [Substitution.apply_var, hfind, Option.getD_some] at hvalue
        have hyb : (y, b.2) ∈ c.store.toList := Substitution.mem_toList_iff.mpr hfind
        refine ⟨(y, b.2), Substitution.mem_toList_without.mpr ⟨hyb, hy⟩, htouch, ?_⟩
        by_contra hne
        refine hincompatible (hcovers _ (.inl (Equation.compatible_of_truth_var hne ?_)))
        exact h.untangled.instantiate_ne (Theory.conservative_standard order) hf.nodes (y, b.2) hyb
  · exact absurd (hadmits _ (.bind .refl htruth he)) hincompatible

/-- The store with a new binding, beside equations of the same kind. -/
lemma extend (h : c.Loose order xs) (hf : Found order xs c x t)
    (hkept : ∀ e ∈ kept.toList, e.Reduced ∧ e.Ranges (· ∉ xs)) :
    ({ c with store := Theory.extend (.standard order) c.store x t, equations := kept }).Loose
      order xs where
  untangled := untangled_extend (Theory.conservative_standard order) h.untangled hf.nodes
  evaluated := ⟨fun e he => (hkept e he).1, h.evaluated.buffer⟩
  apart := by
    refine ⟨fun e he => (hkept e he).2, h.apart.buffer, ?_, fun _ _ _ _ => trivial⟩
    change ∀ b ∈ ((Theory.extend (.standard order) c.store x t).without xs).toList, _
    rw [Theory.extend_without hf.outside hf.fresh]
    intro b hb
    rcases Substitution.mem_toList_insert.mp hb with rfl | ⟨-, hb⟩
    · exact hf.ranges
    · obtain ⟨v, hv, rfl⟩ := List.mem_map.mp hb
      exact (Theory.preserves_ranges order _).instantiate (by simpa using hf.ranges)
        (h.apart.store v hv)
  held := by
    obtain ⟨e, htruth, he⟩ := hf.origin
    intro b hb hbx
    rcases Substitution.mem_toList_insert.mp hb with rfl | ⟨-, hb⟩
    · exact absurd hbx hf.outside
    · obtain ⟨v, hv, rfl⟩ := List.mem_map.mp hb
      rcases h.held v hv hbx with ⟨y, hy, hcovers, hvalue⟩ | hadmits
      · refine .inl ⟨y, hy, hcovers, ?_⟩
        rw [Theory.apply_extend_var (T := .standard order) hf.reduced.evaluate_eq hf.fresh, hvalue]
      · exact .inr fun u hu => hadmits u (.head htruth he hu)

/-- A new binding is worked into both stores, or both become contradictory. -/
lemma compose (h : c.Loose order xs) (hc : c.isFalse = false) (hf : Found order xs c x t) :
    (∃ a b, compose (.standard order) c x t = .ok a ∧
        compose (.standard order) (c.without xs) x t = .ok b ∧ a.isFalse = true ∧ b.isFalse = true) ∨
      compose (.standard order) c x t =
          .ok { c with store := Theory.extend (.standard order) c.store x t } ∧
        compose (.standard order) (c.without xs) x t =
          .ok ({ c with store := Theory.extend (.standard order) c.store x t }.without xs) := by
  have hself := h.untangled.instantiate_ne (Theory.conservative_standard order) hf.nodes
  have hself' : ∀ b ∈ (c.store.without xs).toList,
      (Theory.standard order).instantiate (.single x t) b.2 ≠ .var b.1 := fun b hb =>
    hself b (Substitution.mem_toList_without.mp hb).1
  have hfresh : x ∉ (c.store.without xs).keys := fun hx =>
    hf.fresh (Substitution.mem_keys_without.mp hx).1
  by_cases hclash : Clashes (.standard order) (.single x t) c.store.toList
  · obtain ⟨a, ha, hfa⟩ := compose_of_clashes hc hf.fresh hclash
    obtain ⟨b, hb, hfb⟩ := compose_of_clashes (c := c.without xs) hc hfresh
      ((h.clashes_iff hf).mpr hclash)
    exact .inl ⟨a, b, ha, hb, hfa, hfb⟩
  · refine .inr ⟨compose_of_not_clashes hc hf.fresh hself hclash, ?_⟩
    rw [compose_of_not_clashes (c := c.without xs) hc hfresh hself'
      ((h.clashes_iff hf).not.mpr hclash), without, without,
      Theory.extend_without hf.outside hf.fresh]

/-! ### The normal form -/

/-- Solving goes the same way without the bindings, or ends in a contradiction with and without
them. -/
theorem renormalize (h : c.Loose order xs) (hc : c.isFalse = false) :
    ∃ a b, Constraint.renormalize (.standard order) c = .ok a ∧
      Constraint.renormalize (.standard order) (c.without xs) = .ok b ∧ Agrees order xs a b ∧
      (a.isFalse = false → Grows xs c.store a.store) := by
  -- each binding found uses up an equation
  induction hn : c.equations.size using Nat.strongRecOn generalizing c with
  | _ n ih =>
      have hscan := @scanned (.standard order) c.store .empty c.equations.toList
      have hsame : scan (.standard order) (c.without xs).store .empty (c.without xs).equations.toList =
          scan (.standard order) c.store .empty c.equations.toList :=
        scan_congr fun e he => (h.instantiate he).1
      have hkept : ∀ es post : List Equation, (∀ e ∈ es ++ post, e ∈ c.equations.toList) →
          ∀ q ∈ ((EquationSet.empty.insertAll
            ((Theory.standard order).remaining c.store es)).insertAll post).toList,
          q.Reduced ∧ q.Ranges (· ∉ xs) := by
        intro es post hes q hq
        rcases mem_kept.mp hq with ⟨e, he, rfl, -⟩ | hq
        · exact (h.instantiate (hes e (List.mem_append_left _ he))).2
        · have hq := hes q (List.mem_append_right _ hq)
          exact ⟨h.evaluated.equations q hq, h.apart.equations q hq⟩
      rw [renormalize_eq c, renormalize_eq (c.without xs), hsame]
      generalize scan (.standard order) c.store .empty c.equations.toList = pass at hscan ⊢
      cases hscan with
      | settled =>
          have hloose := hkept c.equations.toList [] (by simp)
          refine ⟨_, _, rfl, rfl, .loose hc ?_, fun _ => .inl rfl⟩
          exact h.of_store rfl ⟨fun q hq => (hloose q hq).1, h.evaluated.buffer⟩
            (fun q hq => (hloose q hq).2) h.apart.buffer
      | refuted =>
          exact ⟨_, _, rfl, rfl, .refuted (isFalse_falsify _ _) (isFalse_falsify _ _), fun hopen =>
            absurd hopen (by simp [isFalse_falsify])⟩
      | @solved pre post p x t hsplit _ htruth hb =>
          have hf : Found order xs c x t := h.found (by simp [hsplit]) htruth hb
          dsimp only
          rcases h.compose hc hf with ⟨a, b, ha, hb, hfa, hfb⟩ | ⟨ha, hb⟩
          · rw [ha, hb]
            dsimp only
            rw [if_pos hfa, if_pos hfb]
            exact ⟨_, _, rfl, rfl, .refuted hfa hfb, fun hopen => absurd (hfa.symm.trans hopen)
              Bool.noConfusion⟩
          · rw [ha, hb]
            dsimp only
            have hopen : ({ c with store := Theory.extend (.standard order) c.store x t } :
              Constraint).isFalse = false := hc
            rw [isFalse_without, if_neg (by simp [hopen]), if_neg (by simp [hopen])]
            have hnext := h.extend hf (hkept pre post fun e he => by
              rw [hsplit]
              exact (List.mem_append.mp he).elim (List.mem_append_left _)
                fun he => List.mem_append_right _ (List.mem_cons_of_mem p he))
            obtain ⟨a', b', ha', hb', hagrees, hgrows⟩ := ih _ (hn ▸ size_kept_lt hsplit) hnext hc rfl
            exact ⟨a', b', ha', hb', hagrees, fun ha =>
              (grows_extend hf.outside hf.fresh).trans (hgrows ha)⟩

theorem normalize (h : c.Loose order xs) :
    ∃ a b, c.normalize (.standard order) = .ok a ∧
      (c.without xs).normalize (.standard order) = .ok b ∧ Agrees order xs a b ∧
      (a.isFalse = false → Grows xs c.store a.store) := by
  have hskip : ((c.without xs).isFalse || (c.without xs).normal || (c.without xs).guarded) =
      (c.isFalse || c.normal || c.guarded) := rfl
  unfold Constraint.normalize
  rw [hskip]
  split
  · refine ⟨c, c.without xs, rfl, rfl, ?_, fun _ => .inl rfl⟩
    cases hc : c.isFalse with
    | true => exact .refuted hc hc
    | false => exact .loose hc h
  · next hgo =>
      simp only [Bool.or_eq_true, not_or, Bool.not_eq_true] at hgo
      obtain ⟨a, b, ha, hb, hagrees, hgrows⟩ :=
        (h.setNormal true).drain.renormalize (by exact hgo.1.1)
      have hb' : Constraint.renormalize (.standard order)
          { c.without xs with normal := true }.drain = .ok b := hb
      rw [ha, hb']
      refine ⟨_, _, rfl, rfl, ?_, fun hopen => ?_⟩
      · cases hagrees with
        | refuted ha hb =>
            exact .refuted ((isFalse_updateTruth a).trans ha) ((isFalse_updateTruth b).trans hb)
        | loose ha hloose =>
            rw [updateTruth_without]
            exact .loose ((isFalse_updateTruth a).trans ha) hloose.updateTruth
      · rw [isFalse_updateTruth] at hopen
        rw [store_updateTruth]
        exact hgrows hopen

/-! ### Rounds -/

/-- What a round gathers does not depend on the variables either, as long as they are not fresh ones
still to be given out. -/
lemma gather {ps : List (Equation × List Equation)} (h : b.Loose order xs) (hb : b.isFalse = false)
    (hn : ∀ x ∈ xs, x.Behind n) (hps : (Theory.standard order).TakesApart n ps m)
    (heq : ps.map (·.1) = b.equations.toList) :
    (b.takeOut.gather (.standard order) .empty ps).Loose order xs := by
  have hg : Gathered (.standard order) b.takeOut .empty ps _ := gathered ⟨hb, rfl, rfl⟩
  have hmem : ∀ q ∈ ps, q.1 ∈ b.equations.toList := fun q hq => heq ▸ List.mem_map_of_mem hq
  have houtside : ∀ x, x ∉ xs ∨ x.MintedIn n m → x ∉ xs := by
    rintro x (hx | ⟨k, hk, -, rfl⟩)
    · exact hx
    · exact fun hx => hn _ hx k hk rfl
  have hgathered : ∀ e ∈ (b.takeOut.gather (.standard order) .empty ps).equations.toList ++
      (b.takeOut.gather (.standard order) .empty ps).buffer.toList,
      e.Reduced ∧ e.Ranges (· ∉ xs) := by
    intro e he
    rcases (hg.mem_equations e).mp he with he | he
    · exact ⟨h.evaluated.buffer e he, h.apart.buffer e he⟩
    · refine ⟨?_, hps.ranges_gathers (fun q hq => h.apart.equations _ (hmem q hq)) houtside he⟩
      obtain ⟨q, hq, ⟨-, rfl⟩ | ⟨-, he⟩⟩ := he
      · exact h.evaluated.equations _ (hmem q hq)
      · obtain ⟨r, -, he⟩ := List.mem_flatMap.mp he
        exact Equation.reduced_obligations r e he
  exact h.of_store hg.store
    ⟨fun e he => (hgathered e (List.mem_append_left _ he)).1,
      fun e he => (hgathered e (List.mem_append_right _ he)).1⟩
    (fun e he => (hgathered e (List.mem_append_left _ he)).2)
    fun e he => (hgathered e (List.mem_append_right _ he)).2

/-- A round comes to the same without the bindings. -/
lemma round (h : b.Loose order xs) (hb : b.isFalse = false) (hn : ∀ x ∈ xs, x.Behind n)
    (solve : List (List Equation) → Engine (List Constraint)) :
    Engine.Tallies (fun d d' => d' = d.without xs ∧
        (d.isFalse = false → d.store = b.store ∧ d.Loose order xs))
      (b.takeOut.round (.standard order) false solve .empty b.equations.toList n)
      ((b.without xs).takeOut.round (.standard order) false solve .empty b.equations.toList n) := by
  rw [show (b.without xs).takeOut = b.takeOut.without xs from rfl, round_without]
  cases hr : b.takeOut.round (.standard order) false solve .empty b.equations.toList n with
  | error fault =>
      rw [Engine.bind_of_error hr]
      exact .error fault
  | ok r =>
      obtain ⟨d, m⟩ := r
      rw [Engine.bind_of_ok hr]
      refine .ok m ⟨rfl, fun hd => ?_⟩
      obtain ⟨ps, heq, hps, rfl⟩ := exists_takesApart (Unifier.structural_decisive order) hr hd
      have hg : Gathered (.standard order) b.takeOut .empty ps _ := gathered ⟨hb, rfl, rfl⟩
      exact ⟨hg.store, h.gather hb hn hps heq⟩

end Loose

/-! ### Simplification -/

/-- Simplification goes the same way without the bindings. -/
theorem Agrees.simplifySince (h : Agrees order xs a b) (hn : ∀ x ∈ xs, x.Behind n)
    (last : Option Snapshot) (hlast : ∀ s, last = some s → s.1 = a.store) :
    Engine.Tallies (Agrees order xs) (a.simplifySince (.standard order) false fuel last n)
      (b.simplifySince (.standard order) false fuel
        (last.map fun s => (s.1.without xs, s.2)) n) := by
  induction fuel generalizing a b last n with
  | zero => exact .error _
  | succ fuel ih =>
      have decided : ∀ {a : Constraint}, a.isFalse = true → a.truth ≠ .unknown := fun ha ht => by
        simp [isFalse, ht] at ha
      cases h with
      | refuted ha hb =>
          rw [simplifySince_of_decided (normalize_self (.inl ha)) (decided ha),
            simplifySince_of_decided (normalize_self (.inl hb)) (decided hb)]
          exact .ok n (.refuted ha hb)
      | loose _ hloose =>
          obtain ⟨a', b', ha', hb', hagrees, hgrows⟩ := hloose.normalize
          cases hagrees with
          | refuted ha hb =>
              rw [simplifySince_of_decided ha' (decided ha), simplifySince_of_decided hb' (decided hb)]
              exact .ok n (.refuted ha hb)
          | loose hopen hloose' =>
              have hun : (a'.without xs).unchangedSince (last.map fun s => (s.1.without xs, s.2)) =
                  a'.unchangedSince last := by
                cases last with
                | none => rfl
                | some s =>
                    refine Grows.unchangedSince ?_ s.2
                    rw [hlast s rfl]
                    exact hgrows hopen
              have htruth : (a'.without xs).truth = a'.truth := rfl
              rw [Constraint.simplifySince, Constraint.simplifySince,
                Engine.bind_of_ok (m := n) (by rw [ha']; rfl),
                Engine.bind_of_ok (m := n) (by rw [hb']; rfl), htruth, hun]
              split
              · exact .ok n (.loose hopen hloose')
              · refine (hloose'.round hopen hn _).bind (ascends_round
                  (Unifier.ascends_structural order) (ascends_satisfiable
                    (Unifier.ascends_structural order) fuel) _ _ _) fun d d' m hm hdd => ?_
                obtain ⟨rfl, hd⟩ := hdd
                rw [isFalse_without]
                split
                · next hf => exact .ok m (.refuted hf hf)
                · next hf =>
                    obtain ⟨hstore, hd⟩ := hd (Bool.not_eq_true _ ▸ hf)
                    refine ih (.loose (Bool.not_eq_true _ ▸ hf) hd) (fun x hx => (hn x hx).mono hm)
                      (some (a'.store, a'.equations)) ?_
                    rintro s ⟨⟩
                    exact hstore.symm

end Constraint

end SolvedForm

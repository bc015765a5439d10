import Mathlib
import SolvedForm.Proofs.Model.Engine
import SolvedForm.Proofs.Term.Keyed
import SolvedForm.Proofs.Term.Rigid

/-!
Maps with one entry for each key, from the equations to what is solved.

* `Constraint.MadeOf`: the constraints that adding and simplifying make of given equations.
* `Constraint.HasMap`: a map that occurs in the bindings or equations of a constraint.
* `Constraint.MadeOf.knownTo`: equations with a common solution are solved into ones that hold.
* `Constraint.MadeOf.rigid`: equations between rigid terms are solved into such equations.
* `Constraint.MadeOf.keys_nodup`: in both cases no map has two entries with the same key.
* `Constraint.MadeOf.keys_coincide`: symbolic keys of one map may be bound to the same value.
-/

namespace SolvedForm

open Term

variable {α : Type} {I J : Interpretation α} {order : SortOrder} {n m : Nat} {s t : Term}
  {es : List Equation} {c d : Constraint} {entries : List Entry} {frame : Option Var}

lemma Interpretation.Proper.of_part (ht : I.Proper t) (h : Part s t) : I.Proper s :=
  Part.closed Proper.arg Proper.entries Proper.of_lookup ht h

lemma Term.Rigid.of_part (ht : t.Rigid) (h : Part s t) : s.Rigid :=
  Part.closed Rigid.arg Rigid.entries Rigid.of_lookup ht h

/-- The standard theory keeps the terms that it stores rigid. -/
lemma Theory.stores_rigid (order : SortOrder) : (Theory.standard order).Stores Rigid Rigid where
  of_stored := id
  mem_true := .bool true
  mem_conjuncts := hereditary_rigid.conjuncts
  evaluate := Rigid.evaluate
  apply hσ _ ht := ht.apply hσ
  mem_var := .var
  unique hl hr h := Decomposition.structural_unique hereditary_rigid hl hr h
  disjunction hl hr h := Decomposition.structural_disjunction hereditary_rigid hl hr h

namespace Constraint

open Interpretation

/-- The constraints that adding the given equations, the last one first, and simplifying make of the
empty constraint, with the number of the next fresh variable, which is `n` at the start. In between,
others may draw fresh variables as well. -/
inductive MadeOf (T : Theory) (n : Nat) : List Equation → Constraint → Nat → Prop where
  | empty : MadeOf T n [] .empty n
  | add {es : List Equation} {c d : Constraint} {m : Nat} {e : Equation} : MadeOf T n es c m →
      c.add T e = .ok d → MadeOf T n (e :: es) d m
  | simplify {es : List Equation} {c d : Constraint} {fuel m k l : Nat} : MadeOf T n es c m → m ≤ k →
      c.simplify T fuel false k = .ok (d, l) → MadeOf T n es d l

/-- A map with the given entries and frame occurs in the store or in the equations. -/
def HasMap (c : Constraint) (entries : List Entry) (frame : Option Var) : Prop :=
  (∃ b ∈ c.store.toList, Part (.map entries frame) b.2) ∨
    ∃ e ∈ c.equations.toList, Part (.map entries frame) e.left ∨ Part (.map entries frame) e.right

namespace MadeOf

/-- Where the equations have a common solution without fresh frames, it extends to one of what they are
solved into. -/
theorem knownTo (hc : MadeOf (.standard order) n es c m) (hes : ∀ e ∈ es, I.Knows n e) :
    n ≤ m ∧ ∃ J, I.Extends n J ∧ c.KnownTo J m := by
  induction hc with
  | empty => exact ⟨Nat.le_refl n, I, .refl I n, carries_empty⟩
  | add _ hd ih =>
      rw [List.forall_mem_cons] at hes
      obtain ⟨hm, J, hJ, hc⟩ := ih hes.2
      have he := hes.1.extend hJ hm
      exact ⟨hm, J, hJ, (hc.insertAll (List.forall_mem_singleton.mpr he)).normalize hd⟩
  | simplify _ hk hd ih =>
      obtain ⟨hm, J, hJ, hc⟩ := ih hes
      obtain ⟨hl, K, hK, hd⟩ := (hc.extend (.refl J _) hk).simplify hd
      have hmk := Nat.le_trans hm hk
      exact ⟨Nat.le_trans hmk hl, K, hJ.trans hK hmk, hd⟩

/-- Equations between rigid terms are solved into such equations. -/
theorem rigid (hc : MadeOf (.standard order) n es c m) (hes : ∀ e ∈ es, e.left.Rigid ∧ e.right.Rigid) :
    c.Stored Rigid (Alternative Rigid fun _ => True) := by
  have hstores := Theory.stores_rigid order
  induction hc with
  | empty => exact stored_empty
  | add _ hd ih =>
      rw [List.forall_mem_cons] at hes
      have hinsert := (ih hes.2).insertAll hstores.toPreserves (List.forall_mem_singleton.mpr hes.1)
      exact stored_normalize hstores.toPreserves hinsert hd
  | simplify _ _ hd ih => exact stored_simplify hstores (fun _ => trivial) (ih hes) hd

/-- No map in the store or in the equations has two entries with the same key when the equations that
were added have a common solution, in which no two keys of one map have the same value, without fresh
frames; or when their maps have no frames and provably distinct keys. -/
theorem keys_nodup (hc : MadeOf (.standard order) n es c m)
    (hes : (∃ (α : Type) (I : Interpretation α), ∀ e ∈ es, I.Knows n e) ∨
      ∀ e ∈ es, e.left.Rigid ∧ e.right.Rigid)
    (h : c.HasMap entries frame) : (entries.map (·.1)).Nodup := by
  rcases hes with ⟨α, I, hes⟩ | hes
  · obtain ⟨-, J, -, hc⟩ := hc.knownTo hes
    have nodup : ∀ {t}, J.Proper t → Part (.map entries frame) t → (entries.map (·.1)).Nodup :=
      fun ht hpart => nodup_of_keys (ht.of_part hpart).keys
    rcases h with ⟨b, hb, hpart⟩ | ⟨e, he, hpart | hpart⟩
    · exact nodup (hc.store b hb).holds.right hpart
    · exact nodup (hc.equations e he).holds.left hpart
    · exact nodup (hc.equations e he).holds.right hpart
  · have hc := hc.rigid hes
    rcases h with ⟨b, hb, hpart⟩ | ⟨e, he, hpart | hpart⟩
    · exact ((hc.store b hb).of_part hpart).nodup
    · exact ((hc.equations e he).1.of_part hpart).nodup
    · exact ((hc.equations e he).2.of_part hpart).nodup

/-- Two maps with frames and a symbolic key that is bound later: `{K |-> 1, ..F} = {2 |-> B, ..G}` and
`K = 5` give `F = {2 |-> B, .._0}` and `G = {5 |-> 1, .._0}`. -/
theorem keys_nodup_frames :
    let k : Var := ⟨"K", .int, false, none⟩
    let b : Var := ⟨"B", .int, false, none⟩
    let f : Var := ⟨"F", .map, false, none⟩
    let g : Var := ⟨"G", .map, false, none⟩
    let T := Theory.standard Subsorts.builtin.order
    let es : List Equation := [⟨.var k, .int 5⟩,
      ⟨.map [(.var k, .int 1)] (some f), .map [(.int 2, .var b)] (some g)⟩]
    ∃ (c : Constraint) (I : Interpretation MapValue), MadeOf T 0 es c 1 ∧ (∀ e ∈ es, I.Knows 0 e) ∧
      c.HasMap [(.int 5, .int 1)] (some (.fresh 0 .map)) ∧
      ∀ entries frame, c.HasMap entries frame → (entries.map (·.1)).Nodup := by
  intro k b f g T es
  let rest : Option Var := some (.fresh 0 .map)
  let c : Constraint :=
    { store := .ofList [(k, .int 5), (f, .map [(.int 2, .var b)] rest),
        (g, .map [(.int 5, .int 1)] rest)] }
  have hc : MadeOf T 0 es c 1 := by
    let a : Constraint := { equations := .ofList [es[1]], truth := .unknown }
    let a' : Constraint := { a with
      equations := .ofList [⟨.map [(.int 5, .int 1)] (some f), .map [(.int 2, .var b)] (some g)⟩]
      store := .ofList [(k, .int 5)] }
    have ha : MadeOf T 0 [es[1]] a 0 := .add .empty (by cbv)
    have ha' : MadeOf T 0 es a' 0 := .add ha (by cbv)
    have hrun : a'.simplify T 3 false 0 = .ok (c, 1) := by cbv
    exact .simplify ha' (Nat.le_refl 0) hrun
  let J : Interpretation MapValue := .ofMapValues (fun x => .int (if x = k then 5 else 7))
    fun _ _ => .int 0
  let I : Interpretation MapValue := J.withVar fun x =>
    if x = f then J.mapOf {(.int 2, .int 7)}
    else if x = g then J.mapOf {(.int 5, .int 1)} else J.var x
  have hf : I.var f = I.mapOf {(.int 2, .int 7)} := rfl
  have hg : I.var g = I.mapOf {(.int 5, .int 1)} := rfl
  have hframe : I.frameEntries (some f) = {(.int 2, .int 7)} := by
    rw [frameEntries, hf, entries_mapOf]
  have hframe' : I.frameEntries (some g) = {(.int 5, .int 1)} := by
    rw [frameEntries, hg, entries_mapOf]
  have hk : I.var k = .int 5 := rfl
  have hb : I.var b = .int 7 := rfl
  have hsolution : ∀ e ∈ es, I.Knows 0 e := by
    have named : ∀ {t : Term}, (∀ x ∈ t.vars, x.anonymous = false) → t.Ranges (Var.Before 0) :=
      fun h x hx => Var.before_of_named (h x hx)
    refine List.forall_mem_cons.mpr ⟨⟨⟨.var k, .int 5, rfl⟩, named (by decide), named (by decide)⟩,
      List.forall_mem_singleton.mpr ⟨⟨?_, ?_, ?_⟩, named (by decide), named (by decide)⟩⟩
    · refine .of_entries (by simpa using ⟨.var k, .int 1⟩) ?_ ?_
      · rintro _ ⟨⟩
        exact ⟨_, hf⟩
      · simp [keys, hframe, hk]
    · refine .of_entries (by simpa using ⟨.int 2, .var b⟩) ?_ ?_
      · rintro _ ⟨⟩
        exact ⟨_, hg⟩
      · simp [keys, hframe']
    · refine value_map_eq_iff.mpr fun p => ?_
      simp [entry, hframe, hframe', hk, hb, or_comm, eq_comm]
  have hmap : c.HasMap [(.int 5, .int 1)] rest :=
    .inl ⟨(g, _), List.mem_cons_of_mem _ (List.mem_cons_of_mem _ List.mem_cons_self), .refl⟩
  exact ⟨c, I, hc, hsolution, hmap, fun _ _ h => keys_nodup hc (.inl ⟨MapValue, I, hsolution⟩) h⟩

end MadeOf

/-- Symbolic keys of one map may be bound to the same value: `X = {K1 |-> 1, K2 |-> 2}` with `K1 = 5` and
`K2 = 5` is solved into `X = {5 |-> 1, 5 |-> 2}`. -/
theorem keys_coincide :
    let k (name : String) : Var := ⟨name, .int, false, none⟩
    let T := Theory.standard Subsorts.builtin.order
    let es : List Equation := [⟨.var (k "K2"), .int 5⟩, ⟨.var (k "K1"), .int 5⟩,
      ⟨.var ⟨"X", .map, false, none⟩, .map [(.var (k "K1"), .int 1), (.var (k "K2"), .int 2)] none⟩]
    (∀ e ∈ es, e.left.Keyed ∧ e.right.Keyed) ∧
      ∃ c : Constraint, MadeOf T 0 es c 0 ∧ c.isFalse = false ∧
        c.HasMap [(.int 5, .int 1), (.int 5, .int 2)] none := by
  intro k T es
  let x : Var := ⟨"X", .map, false, none⟩
  refine ⟨?_, ?_⟩
  · refine List.forall_mem_cons.mpr ⟨⟨.var _, .int 5⟩, List.forall_mem_cons.mpr ⟨⟨.var _, .int 5⟩,
      List.forall_mem_singleton.mpr ⟨.var _, .map none (by decide) ?_ ?_⟩⟩⟩
    · simpa using ⟨.var _, .var _⟩
    · simpa using ⟨.int 1, .int 2⟩
  · let a : Constraint := { store := .ofList [(x, .map [(.var (k "K1"), .int 1),
      (.var (k "K2"), .int 2)] none)] }
    let a' : Constraint := { store := .ofList [(x, .map [(.var (k "K2"), .int 2),
      (.int 5, .int 1)] none), (k "K1", .int 5)] }
    let c : Constraint := { store := .ofList [(x, .map [(.int 5, .int 1), (.int 5, .int 2)] none),
      (k "K1", .int 5), (k "K2", .int 5)] }
    have ha : MadeOf T 0 [es[2]] a 0 := .add .empty (by cbv)
    have ha' : MadeOf T 0 [es[1], es[2]] a' 0 := .add ha (by cbv)
    have hc : MadeOf T 0 es c 0 := .add ha' (by cbv)
    refine ⟨c, hc, rfl, .inl ⟨(x, _), List.mem_cons_self, .refl⟩⟩

end Constraint

end SolvedForm

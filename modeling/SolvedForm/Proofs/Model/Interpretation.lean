import Mathlib
import SolvedForm.Proofs.Model.Reduction
import SolvedForm.Proofs.Term.Subterms

/-!
Interpretations of all terms, with maps and lookups.

* `Interpretation`: values for the variables, functions for the function symbols, and a value for
  every finite set of entries.
* `MapValue`, `Interpretation.ofMapValues`: there are such interpretations.
* `Interpretation.value`: the value of a term. A map has the entries of its frame besides its own, and
  a lookup of a key gives the value of its entry where there is one.
* `Interpretation.value_ofEntries`, `Interpretation.value_reframe`: the order of the entries of a map
  does not count, and its frame may be exchanged for what has the same value.
-/

namespace SolvedForm

open Term

variable {α : Type}

/-- Values for the variables, and functions for the function symbols. A map is a value that its entries
determine; what is read of a value at a key for which it has no entry is left open. -/
structure Interpretation (α : Type) where
  /-- The value of a variable. -/
  var : Var → Value α
  /-- The function that a function symbol stands for. -/
  fn : Symbol → List (Value α) → Value α
  /-- The map with given entries. -/
  pack : Finset (Value α × Value α) → α
  /-- What is read of a value at a key without entry. -/
  absent : Value α → Value α → Value α
  pack_injective : Function.Injective pack

/-- Besides the truth values, the integers and the constructions, only maps. -/
inductive MapValue where
  | pack (entries : List (Value MapValue × Value MapValue))

namespace Interpretation

/-- An interpretation by such values. -/
noncomputable def ofMapValues (var : Var → Value MapValue)
    (fn : Symbol → List (Value MapValue) → Value MapValue) : Interpretation MapValue where
  var := var
  fn := fn
  pack S := .pack S.toList
  absent _ _ := .bool false
  pack_injective S S' h := by
    classical
    rw [← S.toList_toFinset, MapValue.pack.inj h, Finset.toList_toFinset]

variable (I : Interpretation α)

/-! ### Maps as values -/

/-- The value that has given entries. -/
def mapOf (S : Finset (Value α × Value α)) : Value α := .atom .map (I.pack S)

open Classical in
/-- The entries of a value, where it is a map; other values have none. -/
noncomputable def entries (v : Value α) : Finset (Value α × Value α) :=
  if h : ∃ S, v = I.mapOf S then h.choose else ∅

/-- The entries of a frame, where there is one. -/
noncomputable def frameEntries : Option Var → Finset (Value α × Value α)
  | none => ∅
  | some x => I.entries (I.var x)

open Classical in
/-- What is read of a value at a key. -/
noncomputable def read (v k : Value α) : Value α :=
  if h : ∃ w, (k, w) ∈ I.entries v then h.choose else I.absent v k

variable {I} {S S' : Finset (Value α × Value α)} {v w k : Value α}

lemma mapOf_injective : Function.Injective I.mapOf := fun _ _ h =>
  I.pack_injective (Value.atom.inj h).2

@[simp] lemma mapOf_inj : I.mapOf S = I.mapOf S' ↔ S = S' := mapOf_injective.eq_iff

@[simp] lemma entries_mapOf (S : Finset (Value α × Value α)) : I.entries (I.mapOf S) = S := by
  have h : ∃ S', I.mapOf S = I.mapOf S' := ⟨S, rfl⟩
  rw [entries, dif_pos h]
  exact (mapOf_injective h.choose_spec).symm

/-- A lookup of a key that is present gives the value of its entry. -/
lemma read_of_mem (h : (k, w) ∈ I.entries v) (hunique : ∀ w', (k, w') ∈ I.entries v → w' = w) :
    I.read v k = w := by
  have hkey : ∃ w, (k, w) ∈ I.entries v := ⟨w, h⟩
  rw [read, dif_pos hkey]
  exact hunique _ hkey.choose_spec

/-! ### Terms -/

variable (I)

/-- The value of an application: constructors build, operators have their usual meaning, and the
interpretation has a function for any other symbol. -/
noncomputable def applySymbol (f : Symbol) (vs : List (Value α)) : Value α :=
  if f.isConstructor then .con f vs
  else
    match Operator.ofLabel f.name with
    | some o => o.eval vs
    | none => I.fn f vs

open Classical in
/-- Given entries together with those of a frame. -/
noncomputable def withFrame (ps : List (Value α × Value α)) (frame : Option Var) :
    Finset (Value α × Value α) := ps.toFinset ∪ I.frameEntries frame

mutual

/-- The value of a term. -/
noncomputable def value : Term → Value α
  | .var x => I.var x
  | .bool b => .bool b
  | .int i => .int i.toInt
  | .app f args => I.applySymbol f (values args)
  | .map es frame => I.mapOf (I.withFrame (entryValues es) frame)
  | .lookup m k => I.read (value m) (value k)
  termination_by structural t => t

/-- The values of arguments. -/
noncomputable def values : List Term → List (Value α)
  | [] => []
  | t :: ts => value t :: values ts
  termination_by structural ts => ts

/-- The values of keys and values. -/
noncomputable def entryValues : List Entry → List (Value α × Value α)
  | [] => []
  | (k, v) :: es => (value k, value v) :: entryValues es
  termination_by structural es => es

end

/-- The value of an entry. -/
noncomputable def entry (e : Entry) : Value α × Value α := (I.value e.1, I.value e.2)

/-- The entries of a map term, those of its frame included. -/
noncomputable def contents (es : List Entry) (frame : Option Var) : Finset (Value α × Value α) :=
  I.withFrame (es.map I.entry) frame

lemma values_eq_map (ts : List Term) : I.values ts = ts.map I.value := by
  induction ts with
  | nil => rfl
  | cons t ts ih => rw [values, ih, List.map_cons]

lemma entryValues_eq_map (es : List Entry) : I.entryValues es = es.map I.entry := by
  induction es with
  | nil => rfl
  | cons e es ih => rw [entryValues, ih, List.map_cons, entry]

variable {I} {f : Symbol} {args : List Term} {es fs : List Entry} {frame : Option Var}

@[simp] lemma value_var (x : Var) : I.value (.var x) = I.var x := rfl

@[simp] lemma value_bool (b : Bool) : I.value (.bool b) = .bool b := rfl

@[simp] lemma value_int (i : Int64) : I.value (.int i) = .int i.toInt := rfl

lemma value_app (f : Symbol) (args : List Term) :
    I.value (.app f args) = I.applySymbol f (args.map I.value) := by
  rw [value, values_eq_map]

lemma value_con (hf : f.isConstructor = true) (args : List Term) :
    I.value (.app f args) = .con f (args.map I.value) := by
  rw [value_app, applySymbol, if_pos hf]

lemma value_op {o : Operator} (hf : f.isConstructor = false) (ho : Operator.ofLabel f.name = some o)
    (args : List Term) : I.value (.app f args) = o.eval (args.map I.value) := by
  rw [value_app, applySymbol, if_neg (by simp [hf]), ho]

lemma value_map (es : List Entry) (frame : Option Var) :
    I.value (.map es frame) = I.mapOf (I.contents es frame) := by
  rw [value, entryValues_eq_map, contents]

@[simp] lemma value_lookup (m k : Term) : I.value (.lookup m k) = I.read (I.value m) (I.value k) :=
  rfl

/-- Literals and negations mean what they say. -/
lemma faithful (I : Interpretation α) : Operator.Faithful I.value where
  bool := value_bool
  int := value_int
  negation hf hname := value_op hf (hname ▸ Operator.ofLabel_label _) _

@[simp] lemma mem_contents {p : Value α × Value α} :
    p ∈ I.contents es frame ↔ (∃ e ∈ es, I.entry e = p) ∨ p ∈ I.frameEntries frame := by
  simp [contents, withFrame]

lemma value_map_eq_iff {frame' : Option Var} : I.value (.map es frame) = I.value (.map fs frame') ↔
    ∀ p, p ∈ I.contents es frame ↔ p ∈ I.contents fs frame' := by
  rw [value_map, value_map, mapOf_inj, Finset.ext_iff]

lemma value_ofEntries : I.value (ofEntries es frame) = I.value (.map es frame) := by
  rw [ofEntries, value_map_eq_iff]
  simp [mem_ofEntries_iff]

/-- The frame of a map may be exchanged for what has the same value. -/
lemma value_reframe {image : Var → Term}
    (himage : ∀ x, frame = some x → I.value (image x) = I.var x) :
    I.value (reframe es frame image) = I.value (.map es frame) := by
  cases frame with
  | none => exact value_ofEntries
  | some x =>
      have hx := himage x rfl
      rw [reframe]
      split
      · next y hy =>
          rw [hy, value_var] at hx
          rw [value_ofEntries, value_map_eq_iff]
          simp [frameEntries, hx]
      · next rest y hy =>
          rw [hy, value_map] at hx
          rw [value_ofEntries, value_map_eq_iff]
          simp [frameEntries, ← hx, or_and_right, exists_or, or_assoc]
      · exact value_ofEntries

/-! ### Other values for the variables -/

/-- The interpretation with other values for the variables. -/
def withVar (I : Interpretation α) (ν : Var → Value α) : Interpretation α := { I with var := ν }

variable {ν : Var → Value α}

@[simp] lemma var_withVar : (I.withVar ν).var = ν := rfl

@[simp] lemma mapOf_withVar : (I.withVar ν).mapOf = I.mapOf := rfl

@[simp] lemma entries_withVar : (I.withVar ν).entries = I.entries := rfl

/-- Only the variables of a term count for its value. -/
lemma value_withVar {t : Term} (hν : ∀ x ∈ t.vars, ν x = I.var x) :
    (I.withVar ν).value t = I.value t := by
  induction t using Term.ind with
  | var x => exact hν x (by simp)
  | bool | int => rfl
  | app f args ih =>
      have hargs : args.map (I.withVar ν).value = args.map I.value := List.map_congr_left fun a ha =>
        ih a ha fun x hx => hν x (mem_vars_app.mpr ⟨a, ha, hx⟩)
      rw [value_app, value_app, hargs]
      rfl
  | map es frame ih =>
      have hentry : es.map (I.withVar ν).entry = es.map I.entry := List.map_congr_left fun e he => by
        rw [entry, entry, (ih e he).1 fun x hx => hν x (mem_vars_map.mpr (.inl ⟨e, he, .inl hx⟩)),
          (ih e he).2 fun x hx => hν x (mem_vars_map.mpr (.inl ⟨e, he, .inr hx⟩))]
      have hframe : (I.withVar ν).frameEntries frame = I.frameEntries frame := by
        cases frame with
        | none => rfl
        | some x => exact congrArg I.entries (hν x (by simp))
      rw [value_map, value_map, mapOf_withVar, contents, contents, withFrame, withFrame, hentry,
        hframe]
  | lookup m k ihm ihk =>
      rw [value_lookup, value_lookup, ihm fun x hx => hν x (mem_vars_lookup.mpr (.inl hx)),
        ihk fun x hx => hν x (mem_vars_lookup.mpr (.inr hx))]
      rfl

end Interpretation

end SolvedForm

import SolvedForm.Proofs.Term.Frames
import SolvedForm.Proofs.Term.Part

/-!
What evaluation and renaming make of a term, and the canonical form of its maps.

* `Term.Reduced`: terms with increasing maps in which no step of evaluation is left.
* `Term.reduced_evaluate`, `Term.Reduced.evaluate_eq`: evaluation reaches such a term, and leaves it
  as it is from then on.
* `Term.ofEntries_canonical`: a map has its entries in increasing order, and is determined by their
  set and by its frame.
* `Term.canonical_evaluate`, `Term.canonical_rename`: evaluation and renaming put the maps in order.
-/

namespace SolvedForm.Term

variable {t u : Term} {es : List Entry}

/-- All maps inside the term have increasing entries, and no subterm can be reduced. -/
inductive Reduced : Term → Prop where
  | var (x : Var) : Reduced (.var x)
  | bool (b : Bool) : Reduced (.bool b)
  | int (i : Int64) : Reduced (.int i)
  | app {f : Symbol} {args : List Term} : (∀ t ∈ args, Reduced t) →
      (Term.app f args).reduceRoot = none → Reduced (.app f args)
  | map {entries : List Entry} (frame : Option Var) : Sorted.Increasing compareEntry entries →
      (∀ e ∈ entries, Reduced e.1) → (∀ e ∈ entries, Reduced e.2) →
      Reduced (.map entries frame)
  | lookup {m k : Term} : Reduced m → Reduced k → (Term.lookup m k).reduceRoot = none →
      Reduced (.lookup m k)

lemma Reduced.ofEntries (frame : Option Var) (h : ∀ e ∈ es, e.1.Reduced ∧ e.2.Reduced) :
    (ofEntries es frame).Reduced :=
  .map frame (Sorted.increasing_ofList _) (fun e he => (h e (mem_ofEntries_iff.mp he)).1)
    fun e he => (h e (mem_ofEntries_iff.mp he)).2

/-- A step at the root of an application of reduced terms leads to a reduced term. -/
lemma Reduced.of_app {f : Symbol} {args : List Term} (hargs : ∀ a ∈ args, a.Reduced) :
    ((Term.app f args).reduceRoot.getD (.app f args)).Reduced := by
  cases hroot : (Term.app f args).reduceRoot with
  | none => exact .app hargs hroot
  | some u =>
      change u.Reduced
      rw [reduceRoot] at hroot
      split at hroot
      · exact nomatch hroot
      · obtain ⟨o, -, ho⟩ := Option.bind_eq_some_iff.mp hroot
        rcases Operator.reduce_cases ho with ⟨b, rfl⟩ | ⟨i, rfl⟩ | hu | ⟨a, ha, hu⟩
        · exact .bool b
        · exact .int i
        · exact hargs u hu
        · have ha := hargs a ha
          cases ha with
          | app hs _ => exact hs u hu
          | var | bool | int | map | lookup => exact nomatch hu

lemma Reduced.of_lookup {m k : Term} (hm : m.Reduced) (hk : k.Reduced) :
    ((Term.lookup m k).reduceRoot.getD (.lookup m k)).Reduced := by
  cases hroot : (Term.lookup m k).reduceRoot with
  | none => exact .lookup hm hk hroot
  | some u =>
      change u.Reduced
      unfold reduceRoot at hroot
      split at hroot
      · next heq => cases heq
      · next es frame l heq =>
          obtain ⟨rfl, rfl⟩ := Term.lookup.injEq .. ▸ heq
          obtain ⟨e, he, rfl⟩ := mem_of_valueAt hroot
          cases hm with
          | map _ _ _ hv => exact hv e he
      · cases hroot

/-- No step of evaluation is left in the value of a term. -/
theorem reduced_evaluate (t : Term) : t.evaluate.Reduced := by
  induction t using Term.ind with
  | var x => exact .var x
  | bool b => exact .bool b
  | int i => exact .int i
  | app f args ih =>
      rw [evaluate_app]
      exact .of_app (List.forall_mem_map.mpr ih)
  | map es frame ih =>
      rw [evaluate_map]
      exact .ofEntries frame (List.forall_mem_map.mpr ih)
  | lookup m k ihm ihk =>
      rw [evaluate_lookup]
      exact .of_lookup ihm ihk

lemma Reduced.evaluate_eq (h : t.Reduced) : t.evaluate = t := by
  induction h with
  | var | bool | int => rfl
  | app _ hroot ih => rw [evaluate_app, List.map_congr_left ih, List.map_id', hroot, Option.getD_none]
  | map frame hes _ _ ihk ihv =>
      rw [evaluate_map, List.map_congr_left fun e he => Prod.ext (ihk e he) (ihv e he),
        List.map_id', ofEntries_eq_map_iff.mpr hes]
  | lookup _ _ hroot ihm ihk => rw [evaluate_lookup, ihm, ihk, hroot, Option.getD_none]

@[simp] lemma evaluate_evaluate (t : Term) : t.evaluate.evaluate = t.evaluate :=
  t.reduced_evaluate.evaluate_eq

lemma Reduced.of_part {s : Term} (ht : t.Reduced) (h : Part s t) : s.Reduced := by
  refine Part.closed (fun ht => ?_) (fun ht => ?_) (fun ht => ?_) ht h
  · cases ht with
    | app hargs _ => exact hargs
  · cases ht with
    | map _ _ hk hv => exact fun e he => ⟨hk e he, hv e he⟩
  · cases ht with
    | lookup hm hk _ => exact ⟨hm, hk⟩

lemma Reduced.reduceRoot_eq_none (h : t.Reduced) : t.reduceRoot = none := by
  cases h with
  | var | bool | int | map => rfl
  | app _ hroot => exact hroot
  | lookup _ _ hroot => exact hroot

/-- One pass from the leaves to the root reaches a normal form: nothing can be reduced anywhere within
the value of a term, and a further pass changes nothing. -/
theorem evaluate_normal (t : Term) :
    (∀ s, Part s t.evaluate → s.reduceRoot = none) ∧ t.evaluate.evaluate = t.evaluate :=
  ⟨fun _ h => (t.reduced_evaluate.of_part h).reduceRoot_eq_none, t.evaluate_evaluate⟩

/-- Keys that come to the same value merge their entries, and the entries change places. -/
example :
    let sum (i j : Int64) : Term := .app ⟨"_+Int_", 2, some .int, .function⟩ [.int i, .int j]
    (Term.lookup (.map [(.int 4, .int 7), (sum 1 1, .int 5), (sum 2 0, .int 5)] none)
      (sum 3 1)).evaluate = .int 7 ∧
    (Term.map [(.int 4, .int 7), (sum 1 1, .int 5), (sum 2 0, .int 5)] none).evaluate =
      .map [(.int 2, .int 5), (.int 4, .int 7)] none := by
  decide

/-! ### Canonical maps -/

/-- Maps are canonical. The entries of a map strictly increase: they are the ones it was given, sorted,
less those that equal their predecessor. So two maps are the same term exactly when they were given
the same set of entries, in any order and with any repetitions, and the same frame. Every map with
increasing entries is made in this way. -/
theorem ofEntries_canonical (es fs : List Entry) (x y : Option Var) :
    (∃ entries, ofEntries es x = .map entries x ∧
      entries = (es.mergeSort fun e f => (compareEntry e f).isLE).destutter (· ≠ ·) ∧
      Sorted.Increasing compareEntry entries ∧ ∀ e, e ∈ entries ↔ e ∈ es) ∧
    (ofEntries es x = ofEntries fs y ↔ (∀ e, e ∈ es ↔ e ∈ fs) ∧ x = y) ∧
    (Sorted.Increasing compareEntry es ↔ ofEntries es x = .map es x) := by
  refine ⟨⟨Sorted.ofList compareEntry es, rfl, ?_, ?_, ?_⟩, ofEntries_inj, ofEntries_eq_map_iff.symm⟩
  · exact Sorted.ofList_eq_destutter_mergeSort es
  · exact Sorted.increasing_ofList es
  · exact fun e => mem_ofEntries_iff

/-- A map as a key comes after the integers, and entries with one key are told apart by their values. -/
example (x : Option Var) :
    let key : Term := .map [(.int 1, .bool true)] none
    ofEntries [(key, .int 5), (.int 2, .bool true), (.int 2, .bool false), (key, .int 5)] x =
      .map [(.int 2, .bool false), (.int 2, .bool true), (key, .int 5)] x := rfl

lemma Reduced.canonical (h : t.Reduced) : t.Canonical := by
  induction h with
  | var x => exact .var x
  | bool b => exact .bool b
  | int i => exact .int i
  | app _ _ ih => exact .app _ ih
  | map frame hes _ _ ihk ihv => exact .map frame hes ihk ihv
  | lookup _ _ _ ihm ihk => exact .lookup ihm ihk

lemma canonical_evaluate (t : Term) : t.evaluate.Canonical := t.reduced_evaluate.canonical

lemma canonical_rename (ρ : Var → Var) (t : Term) : (t.rename ρ).Canonical := by
  induction t using Term.ind with
  | var x => exact .var (ρ x)
  | bool b => exact .bool b
  | int i => exact .int i
  | app f args ih =>
      rw [rename_app]
      exact .app f (List.forall_mem_map.mpr ih)
  | map es frame ih =>
      have hes : ∀ e ∈ es.map fun e => (e.1.rename ρ, e.2.rename ρ), e.1.Canonical ∧ e.2.Canonical :=
        List.forall_mem_map.mpr ih
      rw [rename_map]
      exact .ofEntries _ hes
  | lookup m k ihm ihk => exact .lookup ihm ihk

end SolvedForm.Term

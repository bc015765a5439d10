import SolvedForm.Proofs.Model.Reduction
import SolvedForm.Proofs.Model.WellSorted
import SolvedForm.Proofs.Subsort
import SolvedForm.Proofs.Unification.Reading

/-!
Evaluation keeps the value of a term in every model.

* `Model.reading`: constructors are free in a model, so provably distinct terms have different
  values.
* `Vocabulary.equivalent_reduceRoot`: one step at the root leads to an equivalent term.
* `Vocabulary.WellSorted.evaluate`: so does evaluation.
-/

namespace SolvedForm

open Term

variable {V : Vocabulary} {α : Type} {f : Symbol} {o : Operator} {args : List Term} {t u a : Term}

/-! ### Heads and constructors -/

/-- A value with a given head. -/
def Term.Head.Shows : Head → Value α → Prop
  | .bool b, v => v = .bool b
  | .int i, v => v = .int i.toInt
  | .constructor name arity, v => ∃ f vs, v = .con f vs ∧ f.name = name ∧ f.arity = arity
  | .map _, _ => False

lemma Term.Head.Shows.unique {h h' : Head} {v : Value α} (hv : h.Shows v) (hv' : h'.Shows v) :
    h = h' := by
  cases h with
  | constructor =>
      obtain ⟨f, vs, rfl, rfl, rfl⟩ := hv
      cases h' <;> simp_all [Shows]
  | bool | int | map => cases h' <;> simp_all [Shows, Int64.toInt_inj]

/-- Terms of which the values show the heads have different values when their heads clash. -/
lemma Term.value_ne_of_headsClash {M : Model α} {s t : Term}
    (hs : ∀ {h}, s.head = some h → h.Shows (M.value s))
    (ht : ∀ {h}, t.head = some h → h.Shows (M.value t)) (h : s.headsClash t = true) :
    M.value s ≠ M.value t := by
  intro heq
  unfold headsClash at h
  split at h
  · next a b ha hb =>
      obtain rfl := (hs ha).unique (heq ▸ ht hb)
      rw [Head.clash_self] at h
      cases h
  · cases h

namespace Vocabulary.WellSorted

lemma constructor (h : V.WellSorted (.app f args)) (hf : f.isConstructor = true) :
    V.MemCon f ∧ f.arity = args.length := by
  cases h with
  | con hm ha => exact ⟨hm, ha⟩
  | fn hf' => cases hf.symm.trans (V.uninterpreted hf').function
  | op hf' => cases hf.symm.trans hf'.function

/-- Symbols with the label of an operator stand for it. -/
lemma denotes (h : V.WellSorted (.app f args)) (hf : f.isConstructor = false)
    (ho : Operator.ofLabel f.name = some o) : f.Denotes o ∧ o.Accepts (args.map Term.sort) := by
  cases h with
  | con hm => cases hf.symm.trans (V.isConstructor hm)
  | fn hf' => cases ho.symm.trans (V.uninterpreted hf').unlabelled
  | @op _ o' _ hf' hacc =>
      rw [hf'.name, Operator.ofLabel_label] at ho
      cases ho
      exact ⟨hf', hacc⟩

lemma head_shows (M : Model α) (ht : V.WellSorted t) {h : Head} (hh : t.head = some h) :
    h.Shows (M.value t) := by
  cases ht with
  | var => cases hh
  | bool | int =>
      cases hh
      rfl
  | con hm =>
      rw [Term.head, if_pos (V.isConstructor hm)] at hh
      cases hh
      exact ⟨_, _, Model.value_con (V.isConstructor hm) _, rfl, rfl⟩
  | fn hf => simp [Term.head, (V.uninterpreted hf).function] at hh
  | op hf => simp [Term.head, hf.function] at hh

end Vocabulary.WellSorted

/-- In a model constructors are free. -/
noncomputable def Model.reading (M : Model α) (V : Vocabulary) :
    Reading Subsorts.builtin.order V.WellSorted (Value α) where
  val := M.value
  size := sizeOf
  not_map := Vocabulary.WellSorted.not_map
  args := Vocabulary.WellSorted.args
  size_lt := by
    intro f ss _ hf s hs
    have := List.sizeOf_lt_of_mem (List.mem_map_of_mem (f := M.value) hs)
    rw [value_con hf, Value.con.sizeOf_spec]
    omega
  app_iff := by
    intro f g ss ts hs ht hf hg
    obtain ⟨hf', hfa⟩ := hs.constructor hf
    obtain ⟨hg', hga⟩ := ht.constructor hg
    rw [value_con hf, value_con hg, Value.con.injEq]
    constructor
    · rintro ⟨rfl, hmap⟩
      exact ⟨rfl, hfa.symm.trans hga, hmap⟩
    · rintro ⟨hname, hlength, hmap⟩
      exact ⟨V.unique hf' hg' hname (by rw [hfa, hga, hlength]), hmap⟩
  incompatible := by
    intro s t hs ht h heq
    have hsort := (hs.value_ofSort M).unique (heq ▸ ht.value_ofSort M)
    rw [hsort, Subsorts.compatible_self] at h
    cases h
  clash hs ht h := Term.value_ne_of_headsClash (hs.head_shows M) (ht.head_shows M) h

/-! ### One step -/

namespace Vocabulary

lemma WellSorted.eq_bool (M : Model α) (ht : V.WellSorted t) (hs : t.sort = .bool) :
    ∃ b, M.value t = .bool b :=
  Value.OfSort.eq_bool (hs ▸ ht.value_ofSort M)

/-- The operand of a well-sorted negation. -/
lemma WellSorted.operand (M : Model α) (ha : V.WellSorted a) (happlies : a.applies .neg = true) :
    ∃ c x, a.args = [c] ∧ M.value c = .bool x := by
  cases a with
  | app f args =>
      simp only [applies, appliesLabel, Bool.and_eq_true, Bool.not_eq_true', beq_iff_eq] at happlies
      obtain ⟨-, hacc⟩ := ha.denotes happlies.1 (happlies.2 ▸ Operator.ofLabel_label .neg)
      have hlength : args.length = 1 := by simpa using congrArg List.length hacc
      obtain ⟨c, rfl⟩ := List.length_eq_one_iff.mp hlength
      obtain ⟨x, hx⟩ := (ha.args c List.mem_cons_self).eq_bool M (List.cons.inj hacc).1
      exact ⟨c, x, rfl, hx⟩
  | var | bool | int | map | lookup => cases happlies

lemma WellSorted.of_reduce (hargs : ∀ t ∈ args, V.WellSorted t) (h : o.reduce args = some u) :
    V.WellSorted u := by
  rcases Operator.reduce_cases h with ⟨b, rfl⟩ | ⟨i, rfl⟩ | hu | ⟨a, ha, hu⟩
  · exact .bool b
  · exact .int i
  · exact hargs u hu
  · have ha := hargs a ha
    cases a with
    | app => exact ha.args u hu
    | var | bool | int | map | lookup => cases hu

/-- A step at the root of an application leads to an equivalent term. -/
lemma equivalent_reduceRoot (ht : V.WellSorted t) (h : t.reduceRoot = some u) :
    V.Equivalent (fun _ => True) t u := by
  cases t with
  | app f args =>
      rw [reduceRoot] at h
      split at h
      · cases h
      · next hf =>
          obtain ⟨o, ho, hu⟩ := Option.bind_eq_some_iff.mp h
          obtain ⟨hd, hacc⟩ := ht.denotes (Bool.not_eq_true _ ▸ hf) ho
          have hvalue : ∀ {α : Type} (M : Model α), M.value u = M.value (.app f args) := fun M => by
            rw [Model.value_op hd.function hd.name]
            refine Operator.value_reduce hacc ?_ (fun a ha => (ht.args a ha).operand M)
              (fun a ha b hb => Reading.ne_of_provablyDistinct (R := M.reading V) (ht.args a ha)
                (ht.args b hb)) hu
            rw [List.forall₂_map_left_iff, List.forall₂_same]
            exact fun a ha => (ht.args a ha).value_ofSort M
          have hw := WellSorted.of_reduce ht.args hu
          -- a value has one sort, so that the sorts of the two terms are the same
          have hsort := ht.value_ofSort (default : Model Unit)
          rw [← hvalue] at hsort
          exact ⟨hw, (hw.value_ofSort default).unique hsort, fun M _ => hvalue M⟩
  | lookup => cases ht
  | var | bool | int | map => cases h

/-- Evaluation leads to an equivalent term. -/
theorem WellSorted.evaluate (ht : V.WellSorted t) : V.Equivalent (fun _ => True) t t.evaluate := by
  refine ht.rewrite (fun _ _ _ h => by cases h) fun t ht => ?_
  cases hr : t.reduceRoot with
  | none => exact .refl ht
  | some u => exact equivalent_reduceRoot ht hr

end Vocabulary

end SolvedForm

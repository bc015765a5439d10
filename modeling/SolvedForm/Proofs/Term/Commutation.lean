import SolvedForm.Proofs.Fragment.Negation
import SolvedForm.Proofs.Term.Equivariance
import SolvedForm.Proofs.Term.Rigid

/-!
Evaluation before and after a substitution.

* `Substitution.eval`: the value of an instance.
* `Operator.reduce_eval`: what an operator does to terms it also does to the values of their
  instances, except that a negation which cancels may leave another one to do so.
* `Term.provablyDistinct_eval`: what is provably distinct stays so.
* `Substitution.eval_evaluate`: the value of the instance of a term is that of the instance of its
  value.
* `Substitution.evaluate_apply_evaluate`: so evaluation before a substitution makes no difference to
  evaluation after it, when one symbol stands for all negations; `Substitution.evaluate_apply_evaluate_ne`
  shows why there may be one only.
* `Substitution.eval_congr`: it depends on the values of the bindings alone.
-/

namespace SolvedForm

open Term

/-- The value of the instance of a term. -/
def Substitution.eval (σ : Substitution) (t : Term) : Term := (σ.apply t).evaluate

variable {σ τ : Substitution} {a b c s t u : Term} {f neg : Symbol} {args : List Term}

namespace Substitution

@[simp] lemma eval_bool (b : Bool) : σ.eval (.bool b) = .bool b := rfl

@[simp] lemma eval_int (i : Int64) : σ.eval (.int i) = .int i := rfl

lemma eval_app : σ.eval (.app f args) =
    (Term.app f (args.map σ.eval)).reduceRoot.getD (.app f (args.map σ.eval)) := by
  rw [eval, apply_app, evaluate_app, List.map_map]
  rfl

lemma eval_lookup : σ.eval (.lookup a b) =
    (Term.lookup (σ.eval a) (σ.eval b)).reduceRoot.getD (.lookup (σ.eval a) (σ.eval b)) := by
  rw [eval, apply_lookup, evaluate_lookup]
  rfl

lemma reduced_eval (σ : Substitution) (t : Term) : (σ.eval t).Reduced := reduced_evaluate _

lemma eval_constructor (hf : f.isConstructor = true) :
    σ.eval (.app f args) = .app f (args.map σ.eval) := by
  rw [eval_app, reduceRoot, if_pos hf, Option.getD_none]

end Substitution

/-! ### Provable distinctness -/

namespace Term

/-- Evaluation of an instance does nothing to what a term without maps shows. -/
lemma MapFree.keptBy_eval (ht : t.MapFree) : t.KeptBy σ.eval := by
  induction ht with
  | bool | int => exact .shown rfl rfl
  | var | lookup => exact .blank rfl
  | app f _ ih =>
      cases hf : f.isConstructor with
      | true => exact .con hf (Substitution.eval_constructor hf) ih
      | false => exact .blank (by simp [head, hf])

lemma provablyDistinct_eval (hs : s.MapFree) (ht : t.MapFree) (h : s.provablyDistinct t = true) :
    (σ.eval s).provablyDistinct (σ.eval t) = true := hs.keptBy_eval.provablyDistinct ht.keptBy_eval h

end Term

/-! ### Operators on instances -/

namespace Operator

lemma literal?_toInt (i : Int64) : literal? i.toInt = some (.int i) := by
  rw [literal?, if_pos ⟨Int64.le_toInt i, Int64.toInt_le i⟩, Int64.ofInt_toInt]

lemma reduceConj_eval (h : reduceConj a b = some u) :
    reduceConj (σ.eval a) (σ.eval b) = some (σ.eval u) := by
  rw [reduceConj_eq] at h ⊢
  grind [Substitution.eval_bool]

lemma reduceDisj_eval (h : reduceDisj a b = some u) :
    reduceDisj (σ.eval a) (σ.eval b) = some (σ.eval u) := by
  rw [reduceDisj_eq] at h ⊢
  grind [Substitution.eval_bool]

lemma reduceIte_eval (h : reduceIte c a b = some u) :
    reduceIte (σ.eval c) (σ.eval a) (σ.eval b) = some (σ.eval u) := by
  rw [reduceIte_eq] at h ⊢
  grind [Substitution.eval_bool]

lemma reduceEq_eval (ha : a.MapFree) (hb : b.MapFree) (h : reduceEq a b = some u) :
    reduceEq (σ.eval a) (σ.eval b) = some (σ.eval u) := by
  unfold reduceEq at h ⊢
  split at h
  · next heq =>
      cases h
      rw [heq, if_pos rfl, Substitution.eval_bool]
  · split at h
    · next hd =>
        have hd := provablyDistinct_eval (σ := σ) ha hb hd
        cases h
        rw [if_neg (ne_of_provablyDistinct hd), if_pos hd, Substitution.eval_bool]
    · cases h

/-- The literal of a computation is its own value. -/
lemma eval_literal? {n : Int} (h : literal? n = some u) : σ.eval u = u := by
  obtain ⟨i, rfl⟩ := literal?_cases h
  exact Substitution.eval_int i

lemma reduceAdd_zero_left (b : Term) : reduceAdd (.int 0) b = some b := by
  cases b with
  | int j => exact (congrArg literal? (Int.zero_add _)).trans (literal?_toInt j)
  | var | bool | app | map | lookup => rfl

lemma reduceAdd_zero_right (a : Term) : reduceAdd a (.int 0) = some a := by
  cases a with
  | int i => exact (congrArg literal? (Int.add_zero _)).trans (literal?_toInt i)
  | var | bool | app | map | lookup => rfl

lemma reduceAdd_eval (h : reduceAdd a b = some u) :
    reduceAdd (σ.eval a) (σ.eval b) = some (σ.eval u) := by
  rcases numbers_or a b with ⟨i, j, rfl, rfl⟩ | hn
  · rw [eval_literal? h]
    exact h
  · rw [reduceAdd_eq hn] at h
    split_ifs at h with ha hb
    · cases h
      rw [ha]
      exact reduceAdd_zero_left _
    · cases h
      rw [hb]
      exact reduceAdd_zero_right _

lemma reduceSub_zero (a : Term) : reduceSub a (.int 0) = some a := by
  cases a with
  | int i => exact (congrArg literal? (Int.sub_zero _)).trans (literal?_toInt i)
  | var | bool | app | map | lookup => rfl

lemma reduceSub_self (a : Term) : reduceSub a a = some (.int 0) := by
  rcases numbers_or a a with ⟨i, _, rfl, -⟩ | hn
  · exact (congrArg literal? (Int.sub_self _)).trans (literal?_toInt 0)
  · rw [reduceSub_eq hn]
    split_ifs with h hne
    · rw [h]
    · rfl
    · exact absurd rfl hne

lemma reduceSub_eval (h : reduceSub a b = some u) :
    reduceSub (σ.eval a) (σ.eval b) = some (σ.eval u) := by
  rcases numbers_or a b with ⟨i, j, rfl, rfl⟩ | hn
  · rw [eval_literal? h]
    exact h
  · rw [reduceSub_eq hn] at h
    split_ifs at h with hb hab
    · cases h
      rw [hb]
      exact reduceSub_zero _
    · cases h
      rw [hab]
      exact reduceSub_self _

lemma reduceMul_zero_left (b : Term) : reduceMul (.int 0) b = some (.int 0) := by
  cases b with
  | int j => exact (congrArg literal? (Int.zero_mul _)).trans (literal?_toInt 0)
  | var | bool | app | map | lookup => rfl

lemma reduceMul_zero_right (a : Term) : reduceMul a (.int 0) = some (.int 0) := by
  cases a with
  | int i => exact (congrArg literal? (Int.mul_zero _)).trans (literal?_toInt 0)
  | var | bool | app | map | lookup => rfl

lemma reduceMul_one_left (b : Term) : reduceMul (.int 1) b = some b := by
  cases b with
  | int j => exact (congrArg literal? (Int.one_mul _)).trans (literal?_toInt j)
  | var | bool | app | map | lookup => rfl

lemma reduceMul_one_right (a : Term) : reduceMul a (.int 1) = some a := by
  cases a with
  | int i => exact (congrArg literal? (Int.mul_one _)).trans (literal?_toInt i)
  | var | bool | app | map | lookup => rfl

lemma reduceMul_eval (h : reduceMul a b = some u) :
    reduceMul (σ.eval a) (σ.eval b) = some (σ.eval u) := by
  rcases numbers_or a b with ⟨i, j, rfl, rfl⟩ | hn
  · rw [eval_literal? h]
    exact h
  · rw [reduceMul_eq hn] at h
    split_ifs at h with hab ha hb
    · cases h
      rcases hab with rfl | rfl
      · exact reduceMul_zero_left _
      · exact reduceMul_zero_right _
    · cases h
      rw [ha]
      exact reduceMul_one_left _
    · cases h
      rw [hb]
      exact reduceMul_one_right _

/-- On equal numbers the comparison has the outcome that it has on equal sides. -/
lemma reduceComparison_eval {outcome : Int → Int → Bool} {reflexive : Bool}
    (hr : ∀ i, outcome i i = reflexive) (h : reduceComparison outcome reflexive a b = some u) :
    reduceComparison outcome reflexive (σ.eval a) (σ.eval b) = some (σ.eval u) := by
  rcases numbers_or a b with ⟨i, j, rfl, rfl⟩ | hn
  · cases h
    rfl
  · rw [reduceComparison_eq hn] at h
    split_ifs at h with hab
    cases h
    rw [hab, Substitution.eval_bool]
    rcases numbers_or (σ.eval b) (σ.eval b) with ⟨i, _, hi, -⟩ | hn
    · rw [hi]
      exact congrArg (some ∘ Term.bool) (hr i.toInt)
    · rw [reduceComparison_eq hn, if_pos rfl]

/-- What an operator other than the negation does to terms it does to the values of their
instances. -/
theorem reduce_eval {o : Operator} (ho : o ≠ .neg) (hargs : ∀ a ∈ args, a.MapFree)
    (h : o.reduce args = some u) : o.reduce (args.map σ.eval) = some (σ.eval u) := by
  have two {a b : Term} (hargs : ∀ t ∈ [a, b], t.MapFree) : a.MapFree ∧ b.MapFree := by
    simpa using hargs
  unfold reduce at h
  split at h
  · exact reduceConj_eval h
  · exact reduceDisj_eval h
  · exact absurd rfl ho
  · exact reduceEq_eval (two hargs).1 (two hargs).2 h
  · exact reduceAdd_eval h
  · exact reduceSub_eval h
  · exact reduceMul_eval h
  · exact reduceComparison_eval (by simp) h
  · exact reduceComparison_eval (by simp) h
  · exact reduceComparison_eval (by simp) h
  · exact reduceComparison_eval (by simp) h
  · exact reduceIte_eval h
  · cases h

end Operator

/-! ### Negation -/

namespace Term

/-- The step at the root of an application of an operator is that of the operator. -/
lemma reduceRoot_of_applies {o : Operator} (h : (Term.app f args).applies o = true) :
    (Term.app f args).reduceRoot = o.reduce args := by
  rw [applies, appliesLabel, Bool.and_eq_true, Bool.not_eq_true', beq_iff_eq] at h
  rw [reduceRoot, if_neg (by simp [h.1]), h.2, Operator.ofLabel_label, Option.bind_some]

lemma exists_of_reduceRoot (h : (Term.app f args).reduceRoot = some u) :
    ∃ o : Operator, (Term.app f args).applies o = true ∧ o.reduce args = some u := by
  rw [reduceRoot] at h
  split at h
  · cases h
  · next hf =>
      obtain ⟨o, ho, h⟩ := Option.bind_eq_some_iff.mp h
      refine ⟨o, ?_, h⟩
      rw [applies, appliesLabel, Operator.label_of_ofLabel ho]
      simpa using hf

/-- The value of the negation of a value. -/
def negate (neg : Symbol) (t : Term) : Term := (Operator.reduceNeg t).getD (.app neg [t])

lemma NegatedBy.reduceNeg_cases (ht : t.NegatedBy (· = neg)) (h : Operator.reduceNeg t = some u) :
    (∃ b, t = .bool b ∧ u = .bool !b) ∨ t = .app neg [u] ∧ (Term.app neg [u]).applies .neg = true := by
  cases t with
  | bool b => exact .inl ⟨b, rfl, (Option.some.inj h).symm⟩
  | app f args =>
      rw [Operator.reduceNeg] at h
      split at h
      · next hf =>
          obtain ⟨rfl, a, rfl⟩ := ht.negation hf
          cases h
          exact .inr ⟨rfl, hf⟩
      · cases h
      · rintro _ ⟨⟩
  | var | int | map | lookup => cases h

/-- Two negations of a value cancel. Were the symbols different, the inner one could be left when
the term is itself a negation. -/
lemma negate_negate (hneg : (Term.app neg [t]).applies .neg = true) (ht : t.NegatedBy (· = neg))
    (hred : t.Reduced) : negate neg (negate neg t) = t := by
  cases h : Operator.reduceNeg t with
  | none =>
      have hcancel : Operator.reduceNeg (.app neg [t]) = some t := by
        rw [Operator.reduceNeg, if_pos hneg]
        · rfl
        · rintro _ ⟨⟩
      rw [negate, negate, h, Option.getD_none, hcancel, Option.getD_some]
  | some u =>
      rw [negate, negate, h, Option.getD_some]
      rcases ht.reduceNeg_cases h with ⟨b, rfl, rfl⟩ | ⟨rfl, hu⟩
      · rw [Operator.reduceNeg, Bool.not_not, Option.getD_some]
      · cases hred with
        | app _ hroot =>
            have hnone : Operator.reduceNeg u = none := (reduceRoot_of_applies hu).symm.trans hroot
            rw [hnone, Option.getD_none]

end Term

/-! ### Terms -/

namespace Substitution

section Alike

-- there is at most one symbol for negations, and the values negate by it
variable {S : Symbol → Prop}
  (hS : ∀ f, S f → (∀ g, S g → g = f) ∧ ∀ x u, σ.find? x = some u → u.NegatedBy (· = f))
include hS

/-- The step at the root before the substitution is made up for afterwards. -/
lemma eval_reduceRoot (hmap : (Term.app f args).MapFree) (ht : (Term.app f args).NegatedBy S)
    (h : (Term.app f args).reduceRoot = some u) : σ.eval (.app f args) = σ.eval u := by
  obtain ⟨o, ho, hu⟩ := exists_of_reduceRoot h
  have happ : (Term.app f (args.map σ.eval)).applies o = true := ho
  rw [eval_app, reduceRoot_of_applies happ]
  by_cases hneg : o = .neg
  · subst hneg
    obtain ⟨hf, a, rfl⟩ := ht.negation ho
    obtain ⟨hone, hσ⟩ := hS f hf
    have ha := (ht.of_app a List.mem_cons_self).mono hone
    have hmap := MapFree.app_iff.mp hmap a List.mem_cons_self
    change negate f (σ.eval a) = σ.eval u
    rcases ha.reduceNeg_cases hu with ⟨b, rfl, rfl⟩ | ⟨rfl, hf⟩
    · rfl
    · have hinner : σ.eval (.app f [u]) = negate f (σ.eval u) := by
        have hf' : (Term.app f [σ.eval u]).applies .neg = true := hf
        rw [eval_app]
        exact congrArg (Option.getD · _) (reduceRoot_of_applies hf')
      rw [hinner]
      refine negate_negate hf ?_ (reduced_eval σ u)
      exact (NegatedBy.apply hσ (MapFree.app_iff.mp hmap u List.mem_cons_self)
        (ha.of_app u List.mem_cons_self)).evaluate
  · rw [Operator.reduce_eval hneg (MapFree.app_iff.mp hmap) hu, Option.getD_some]

lemma eval_evaluate_of_alike (hmap : t.MapFree) (ht : t.NegatedBy S) :
    σ.eval t.evaluate = σ.eval t := by
  induction hmap with
  | var | bool | int => rfl
  | @app f args hmap ih =>
      have hargs : ∀ a ∈ args, σ.eval a.evaluate = σ.eval a := fun a ha => ih a ha (ht.of_app a ha)
      have hevaluated : σ.eval (.app f (args.map Term.evaluate)) = σ.eval (.app f args) := by
        rw [eval_app, eval_app, List.map_map]
        exact congrArg (fun as => (Term.app f as).reduceRoot.getD (.app f as))
          (List.map_congr_left hargs)
      rw [evaluate_app]
      cases hroot : (Term.app f (args.map Term.evaluate)).reduceRoot with
      | none => exact hevaluated
      | some u =>
          have happ : (Term.app f (args.map Term.evaluate)).MapFree :=
            .app f (List.forall_mem_map.mpr fun a ha => (hmap a ha).evaluate)
          have hneg : (Term.app f (args.map Term.evaluate)).NegatedBy S :=
            ht.mapArgs fun a ha => (ht.of_app a ha).evaluate
          exact (eval_reduceRoot hS happ hneg hroot).symm.trans hevaluated
  | @lookup m k hm hk ihm ihk =>
      obtain ⟨hm', hk'⟩ := NegatedBy.lookup_iff.mp ht
      have hmap := hm.evaluate
      have hroot : (Term.lookup m.evaluate k.evaluate).reduceRoot = none := by
        unfold reduceRoot
        cases hm : m.evaluate with
        | map => exact absurd (hm ▸ hmap) MapFree.not_map
        | var | bool | int | app | lookup => rfl
      rw [evaluate_lookup, hroot, Option.getD_none, eval_lookup, eval_lookup, ihm hm', ihk hk']

end Alike

/-- The value of the instance of a value is that of the instance of the term. -/
theorem eval_evaluate (hσ : ∀ x u, σ.find? x = some u → u.NegatedBy (· = neg)) (ht : t.Uniform neg) :
    σ.eval t.evaluate = σ.eval t :=
  eval_evaluate_of_alike (by rintro f rfl; exact ⟨fun _ hg => hg, hσ⟩) ht.1 ht.2

/-- If the term negates anything, then all negations in the term and in the values of the substitution
are by one symbol, of one operand. -/
def NegatesLike (σ : Substitution) (t : Term) : Prop :=
  ∀ f args, Part (.app f args) t → (Term.app f args).applies .neg = true →
    t.NegatedBy (· = f) ∧ ∀ x u, σ.find? x = some u → u.NegatedBy (· = f)

lemma NegatesLike.of_negatedBy (ht : t.NegatedBy (· = neg))
    (hσ : ∀ b ∈ σ.toList, b.2.NegatedBy (· = neg)) : σ.NegatesLike t := by
  intro f args hpart happlies
  obtain ⟨rfl, -⟩ := (ht.of_part hpart).negation happlies
  exact ⟨ht, fun x u hx => hσ (x, u) (mem_toList_iff.mpr hx)⟩

/-- Evaluation before a substitution makes no difference to evaluation after it, for terms without maps.
The values of the substitution may be of any kind. -/
theorem evaluate_apply_evaluate (hmap : t.MapFree) (h : σ.NegatesLike t) :
    (σ.apply t.evaluate).evaluate = (σ.apply t).evaluate := by
  by_cases hneg : ∃ f args, Part (.app f args) t ∧ (Term.app f args).applies .neg = true
  · obtain ⟨f, args, hpart, happlies⟩ := hneg
    obtain ⟨ht, hσ⟩ := h f args hpart happlies
    exact eval_evaluate hσ ⟨hmap, ht⟩
  · have ht : t.NegatedBy fun _ => False := .of_parts fun hpart happlies =>
      absurd ⟨_, _, hpart, happlies⟩ hneg
    exact eval_evaluate_of_alike (fun _ hf => hf.elim) hmap ht

/-- A double negation, beside a look-up in what turns out to be a map. -/
theorem evaluate_apply_evaluate_lookup :
    let not (t : Term) : Term := .app ⟨"notBool_", 1, some .bool, .function⟩ [t]
    let and (s t : Term) : Term := .app ⟨"_andBool_", 2, some .bool, .function⟩ [s, t]
    let add (s t : Term) : Term := .app ⟨"_+Int_", 2, some .int, .function⟩ [s, t]
    let x : Var := ⟨"X", .bool, false, none⟩
    let y : Var := ⟨"Y", .bool, false, none⟩
    let m : Var := ⟨"M", .map, false, none⟩
    let t : Term := and (not (not (.var x))) (.lookup (.var m) (add (.int 1) (.int 1)))
    let σ : Substitution := .ofList [(x, not (.var y)), (m, .map [(.int 2, .var y)] none)]
    t.evaluate = and (.var x) (.lookup (.var m) (.int 2)) ∧
      (σ.apply t).evaluate = and (not (.var y)) (.var y) ∧
      (σ.apply t.evaluate).evaluate = (σ.apply t).evaluate := by
  intro not and add x y m t σ
  let neg : Symbol := ⟨"notBool_", 1, some .bool, .function⟩
  have hvar (z : Var) : (Term.var z).Uniform neg := .var z
  have hint (i : Int64) : (Term.int i).Uniform neg := ⟨.int i, .int i⟩
  have hnot {t : Term} (ht : t.Uniform neg) : (not t).Uniform neg := ht.negation
  have htwo {f : Symbol} {s t : Term} (hf : (Term.app f [s, t]).applies .neg = false)
      (hs : s.Uniform neg) (ht : t.Uniform neg) : (Term.app f [s, t]).Uniform neg :=
    .other hf (List.forall_mem_cons.mpr ⟨hs, List.forall_mem_singleton.mpr ht⟩)
  have hsum : (add (.int 1) (.int 1)).Uniform neg := htwo rfl (hint 1) (hint 1)
  have hlookup : (Term.lookup (.var m) (add (.int 1) (.int 1))).Uniform neg :=
    ⟨.lookup (.var m) hsum.1, .lookup (.var m) hsum.2⟩
  have ht : t.Uniform neg := htwo rfl (hnot (hnot (hvar x))) hlookup
  have hσ : ∀ b ∈ σ.toList, b.2.NegatedBy (· = neg) := by
    have hlist : σ.toList = [(x, not (.var y)), (m, .map [(.int 2, .var y)] none)] := rfl
    rw [hlist, List.forall_mem_cons, List.forall_mem_singleton]
    exact ⟨(hnot (hvar y)).2, .map none (List.forall_mem_singleton.mpr (.int 2))
      (List.forall_mem_singleton.mpr (.var y))⟩
  exact ⟨by decide, by decide, evaluate_apply_evaluate ht.1 (NegatesLike.of_negatedBy ht.2 hσ)⟩

/-- Two negations of different result sorts cancel, and which of three is left depends on when the
first two do so. -/
theorem evaluate_apply_evaluate_ne :
    let not (t : Term) : Term := .app ⟨"notBool_", 1, some .bool, .function⟩ [t]
    let unsorted (t : Term) : Term := .app ⟨"notBool_", 1, none, .function⟩ [t]
    let x : Var := ⟨"X", .bool, false, none⟩
    let y : Var := ⟨"Y", .bool, false, none⟩
    let t : Term := not (not (.var x))
    let σ : Substitution := .single x (unsorted (.var y))
    t.MapFree ∧ (t.NegatedBy fun _ => True) ∧ (∀ b ∈ σ.toList, b.2.NegatedBy fun _ => True) ∧
      (σ.apply t.evaluate).evaluate = unsorted (.var y) ∧
      (σ.apply t).evaluate = not (.var y) ∧
      (σ.apply t.evaluate).evaluate ≠ (σ.apply t).evaluate := by
  intro not unsorted x y t σ
  have hneg {f : Symbol} {t : Term} (ht : t.NegatedBy fun _ => True) :
      (Term.app f [t]).NegatedBy fun _ => True := .neg trivial ht
  have hmap {f : Symbol} {t : Term} (ht : t.MapFree) : (Term.app f [t]).MapFree :=
    .app f (List.forall_mem_singleton.mpr ht)
  exact ⟨hmap (hmap (.var x)), hneg (hneg (.var x)),
    List.forall_mem_singleton.mpr (hneg (.var y)), by decide, by decide, by decide⟩

/-- The value of an instance depends on the values of the bindings alone. -/
lemma eval_congr (ht : t.MapFree) (h : ∀ x ∈ t.vars, σ.eval (.var x) = τ.eval (.var x)) :
    σ.eval t = τ.eval t := by
  induction ht with
  | var x => exact h x (by simp)
  | bool | int => rfl
  | app f _ ih =>
      rw [eval_app, eval_app, List.map_congr_left fun a ha =>
        ih a ha fun x hx => h x (mem_vars_app.mpr ⟨a, ha, hx⟩)]
  | lookup _ _ ihm ihk =>
      rw [eval_lookup, eval_lookup, ihm fun x hx => h x (mem_vars_lookup.mpr (.inl hx)),
        ihk fun x hx => h x (mem_vars_lookup.mpr (.inr hx))]

end Substitution

end SolvedForm

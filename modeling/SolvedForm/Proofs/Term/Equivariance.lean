import SolvedForm.Proofs.Fragment.MapFree
import SolvedForm.Proofs.Operator
import SolvedForm.Proofs.Term.Canonical
import SolvedForm.Proofs.Term.Renaming

/-!
Evaluation does not see the names of variables.

* `Operator.reduce_rename`: a renaming to different variables leaves the outcome of these tests as
  it is, so that a built-in operator does to renamed operands what it does to the operands.
* `Term.KeepsOrder`, `Term.CanonicalOver.entrywise`: a renaming that keeps the order of variables
  renames maps entry by entry.
* `Term.Follows`: terms without maps, and all terms over a class on which the renaming keeps the
  order.
* `Term.Reduced.rename`: in a renamed term no step of evaluation is left if there was none before.
* `Term.evaluate_rename`: the value of such a term, renamed, is the renamed value.
* `Equation.obligations_rename`: a renamed equation splits into the renamed parts.
-/

namespace SolvedForm

open Term

variable {ρ : Var → Var} {S : Var → Prop} {a b c s t : Term}

/-! ### Literals and arguments -/

namespace Term

lemma rename_eq_bool_iff {b : Bool} : t.rename ρ = .bool b ↔ t = .bool b := by
  cases t <;> simp [rename_map, Term.ofEntries]

lemma rename_eq_int_iff {i : Int64} : t.rename ρ = .int i ↔ t = .int i := by
  cases t <;> simp [rename_map, Term.ofEntries]

lemma applies_rename (ρ : Var → Var) (o : Operator) (t : Term) :
    (t.rename ρ).applies o = t.applies o := by
  cases t with
  | app => rw [rename_app]; rfl
  | map => rw [rename_map]; rfl
  | var | bool | int | lookup => rfl

lemma map_literal? (ρ : Var → Var) (n : Int) : (literal? n).map (rename ρ) = literal? n := by
  unfold literal?
  split <;> rfl

end Term

/-! ### Evaluation -/

namespace Operator

lemma notNumbers_rename (h : NotNumbers a b) :
    NotNumbers (a.rename ρ) (b.rename ρ) := fun i j hij =>
  h i j ⟨rename_eq_int_iff.mp hij.1, rename_eq_int_iff.mp hij.2⟩

section Reduce

variable (hρ : Separates ρ S) (ha : a.CanonicalOver S) (hb : b.CanonicalOver S)
include hρ ha hb

lemma reduceConj_rename :
    reduceConj (a.rename ρ) (b.rename ρ) = (reduceConj a b).map (rename ρ) := by
  simp only [reduceConj_eq, rename_eq_bool_iff,
    rename_eq_rename_iff hρ ha hb]
  split_ifs <;> rfl

lemma reduceDisj_rename :
    reduceDisj (a.rename ρ) (b.rename ρ) = (reduceDisj a b).map (rename ρ) := by
  simp only [reduceDisj_eq, rename_eq_bool_iff,
    rename_eq_rename_iff hρ ha hb]
  split_ifs <;> rfl

lemma reduceEq_rename :
    reduceEq (a.rename ρ) (b.rename ρ) = (reduceEq a b).map (rename ρ) := by
  simp only [reduceEq, rename_eq_rename_iff hρ ha hb,
    provablyDistinct_rename hρ ha hb]
  split_ifs <;> rfl

omit hρ ha hb in
lemma reduceAdd_rename :
    reduceAdd (a.rename ρ) (b.rename ρ) = (reduceAdd a b).map (rename ρ) := by
  rcases numbers_or a b with ⟨i, j, rfl, rfl⟩ | h
  · exact (map_literal? ρ _).symm
  · simp only [reduceAdd_eq h, reduceAdd_eq (notNumbers_rename h),
      rename_eq_int_iff]
    split_ifs <;> rfl

lemma reduceSub_rename :
    reduceSub (a.rename ρ) (b.rename ρ) = (reduceSub a b).map (rename ρ) := by
  rcases numbers_or a b with ⟨i, j, rfl, rfl⟩ | h
  · exact (map_literal? ρ _).symm
  · simp only [reduceSub_eq h, reduceSub_eq (notNumbers_rename h),
      rename_eq_int_iff, rename_eq_rename_iff hρ ha hb]
    split_ifs <;> rfl

omit hρ ha hb in
lemma reduceMul_rename :
    reduceMul (a.rename ρ) (b.rename ρ) = (reduceMul a b).map (rename ρ) := by
  rcases numbers_or a b with ⟨i, j, rfl, rfl⟩ | h
  · exact (map_literal? ρ _).symm
  · simp only [reduceMul_eq h, reduceMul_eq (notNumbers_rename h),
      rename_eq_int_iff]
    split_ifs <;> rfl

lemma reduceComparison_rename {outcome : Int → Int → Bool} {reflexive : Bool} :
    reduceComparison outcome reflexive (a.rename ρ) (b.rename ρ) =
      (reduceComparison outcome reflexive a b).map (rename ρ) := by
  rcases numbers_or a b with ⟨i, j, rfl, rfl⟩ | h
  · rfl
  · simp only [reduceComparison_eq h, reduceComparison_eq (notNumbers_rename h),
      rename_eq_rename_iff hρ ha hb]
    split_ifs <;> rfl

lemma reduceIte_rename (c : Term) :
    reduceIte (c.rename ρ) (a.rename ρ) (b.rename ρ) = (reduceIte c a b).map (rename ρ) := by
  simp only [reduceIte_eq, rename_eq_bool_iff, rename_eq_rename_iff hρ ha hb]
  split_ifs <;> rfl

end Reduce

lemma reduceNeg_rename (a : Term) :
    reduceNeg (a.rename ρ) = (reduceNeg a).map (rename ρ) := by
  cases a with
  | bool b => rfl
  | app f args =>
      have happlies := applies_rename ρ .neg (.app f args)
      rw [rename_app] at happlies ⊢
      rw [reduceNeg, reduceNeg, happlies]
      · split
        · exact List.head?_map
        · rfl
      all_goals simp
  | map => rw [rename_map]; rfl
  | var | int | lookup => rfl

/-- A step of an operator can be made before a renaming or after it. -/
lemma reduce_rename (hρ : Separates ρ S) {args : List Term} (h : ∀ t ∈ args, t.CanonicalOver S)
    (o : Operator) : o.reduce (args.map (rename ρ)) = (o.reduce args).map (rename ρ) := by
  match args with
  | [] => cases o <;> rfl
  | [a] =>
      cases o with
      | neg => exact reduceNeg_rename a
      | _ => rfl
  | [a, b] =>
      have ha := h a (by simp)
      have hb := h b (by simp)
      cases o with
      | conj => exact reduceConj_rename hρ ha hb
      | disj => exact reduceDisj_rename hρ ha hb
      | eq => exact reduceEq_rename hρ ha hb
      | add => exact reduceAdd_rename
      | sub => exact reduceSub_rename hρ ha hb
      | mul => exact reduceMul_rename
      | lt | le | gt | ge =>
          simp only [List.map_cons, List.map_nil, reduce]
          exact reduceComparison_rename hρ ha hb
      | neg | ite => rfl
  | [c, a, b] =>
      cases o with
      | ite => exact reduceIte_rename hρ (h a (by simp)) (h b (by simp)) c
      | _ => rfl
  | _ :: _ :: _ :: _ :: _ => cases o <;> rfl

end Operator

namespace Term

/-! ### Maps entry by entry -/

/-- The renaming keeps the order of the variables of a class. -/
def KeepsOrder (ρ : Var → Var) (S : Var → Prop) : Prop :=
  ∀ x y, S x → S y → (ρ x).compare (ρ y) = x.compare y

/-- The maps inside the term are renamed entry by entry, without changing places. -/
inductive Entrywise (ρ : Var → Var) : Term → Prop where
  | var (x : Var) : Entrywise ρ (.var x)
  | bool (b : Bool) : Entrywise ρ (.bool b)
  | int (i : Int64) : Entrywise ρ (.int i)
  | app (f : Symbol) {args : List Term} : (∀ t ∈ args, Entrywise ρ t) → Entrywise ρ (.app f args)
  | map {es : List Entry} {y : Option Var} :
      rename ρ (.map es y) = .map (es.map fun e => (rename ρ e.1, rename ρ e.2)) (y.map ρ) →
      (∀ e ∈ es, Entrywise ρ e.1) → (∀ e ∈ es, Entrywise ρ e.2) → Entrywise ρ (.map es y)
  | lookup {m k : Term} : Entrywise ρ m → Entrywise ρ k → Entrywise ρ (.lookup m k)

lemma rank_rename (ρ : Var → Var) (t : Term) : (t.rename ρ).rank = t.rank := by
  cases t with
  | app => rw [rename_app]; rfl
  | map => rw [rename_map]; rfl
  | var | bool | int | lookup => rfl

lemma compareArgs_map {ss ts : List Term}
    (h : ∀ s ∈ ss, ∀ t ∈ ts, compare (s.rename ρ) (t.rename ρ) = compare s t) :
    compareArgs (ss.map (rename ρ)) (ts.map (rename ρ)) = compareArgs ss ts := by
  induction ss generalizing ts with
  | nil => cases ts <;> rfl
  | cons s ss ih =>
      cases ts with
      | nil => rfl
      | cons t ts =>
          rw [List.map_cons, List.map_cons, compareArgs, compareArgs,
            h s List.mem_cons_self t List.mem_cons_self,
            ih fun s hs t ht => h s (List.mem_cons_of_mem _ hs) t (List.mem_cons_of_mem _ ht)]

lemma compareEntries_map {es fs : List Entry}
    (h : ∀ e ∈ es, ∀ f ∈ fs, compare (e.1.rename ρ) (f.1.rename ρ) = compare e.1 f.1 ∧
      compare (e.2.rename ρ) (f.2.rename ρ) = compare e.2 f.2) :
    compareEntries (es.map fun e => (rename ρ e.1, rename ρ e.2))
      (fs.map fun e => (rename ρ e.1, rename ρ e.2)) = compareEntries es fs := by
  induction es generalizing fs with
  | nil => cases fs <;> rfl
  | cons e es ih =>
      cases fs with
      | nil => rfl
      | cons f fs =>
          obtain ⟨hk, hv⟩ := h e List.mem_cons_self f List.mem_cons_self
          rw [List.map_cons, List.map_cons, compareEntries, compareEntries, hk, hv,
            ih fun e he f hf => h e (List.mem_cons_of_mem _ he) f (List.mem_cons_of_mem _ hf)]

lemma options_compare_map (hk : KeepsOrder ρ S) {x y : Option Var} (hx : ∀ z, x = some z → S z)
    (hy : ∀ z, y = some z → S z) :
    Sorted.options Var.compare (x.map ρ) (y.map ρ) = Sorted.options Var.compare x y := by
  cases x with
  | none => cases y <;> rfl
  | some x =>
      cases y with
      | none => rfl
      | some y => exact hk x y (hx x rfl) (hy y rfl)

lemma compare_rename_of_rank_ne (h : s.rank ≠ t.rank) :
    compare (s.rename ρ) (t.rename ρ) = compare s t := by
  rw [compare_of_rank_ne (by rwa [rank_rename, rank_rename]), compare_of_rank_ne h, rank_rename,
    rank_rename]

/-- Terms that are renamed entry by entry keep their order. -/
lemma Entrywise.compare_rename (hk : KeepsOrder ρ S) (hs : s.Entrywise ρ) (ht : t.Entrywise ρ)
    (hsS : s.Ranges S) (htS : t.Ranges S) : compare (s.rename ρ) (t.rename ρ) = compare s t := by
  induction hs generalizing t with
  | var x =>
      cases ht with
      | var y => exact hk x y (Ranges.var_iff.mp hsS) (Ranges.var_iff.mp htS)
      | bool | int | app | map | lookup => exact compare_rename_of_rank_ne (by simp [rank])
  | bool b =>
      cases ht with
      | bool => rfl
      | var | int | app | map | lookup => exact compare_rename_of_rank_ne (by simp [rank])
  | int i =>
      cases ht with
      | int => rfl
      | var | bool | app | map | lookup => exact compare_rename_of_rank_ne (by simp [rank])
  | app f _ ih =>
      cases ht with
      | app g hts =>
          have hargs := compareArgs_map fun a ha b hb =>
            ih a ha (hts b hb) (Ranges.app_iff.mp hsS a ha) (Ranges.app_iff.mp htS b hb)
          rw [rename_app, rename_app, compare, compare, hargs]
      | var | bool | int | map | lookup => exact compare_rename_of_rank_ne (by simp [rank])
  | @map es x hes _ _ ihk ihv =>
      cases ht with
      | @map fs y hfs hks hvs =>
          obtain ⟨hesS, hx⟩ := Ranges.map_iff.mp hsS
          obtain ⟨hfsS, hy⟩ := Ranges.map_iff.mp htS
          have hentries := compareEntries_map fun e he f hf =>
            ⟨ihk e he (hks f hf) (hesS e he).1 (hfsS f hf).1,
              ihv e he (hvs f hf) (hesS e he).2 (hfsS f hf).2⟩
          rw [hes, hfs, compare, compare, hentries, options_compare_map hk hx hy]
      | var | bool | int | app | lookup => exact compare_rename_of_rank_ne (by simp [rank])
  | lookup _ _ ihm ihk =>
      cases ht with
      | lookup hn hl =>
          obtain ⟨hm, hk⟩ := Ranges.lookup_iff.mp hsS
          obtain ⟨hn', hl'⟩ := Ranges.lookup_iff.mp htS
          rw [rename_lookup, rename_lookup, compare, compare, ihm hn hm hn', ihk hl hk hl']
      | var | bool | int | app | map => exact compare_rename_of_rank_ne (by simp [rank])

/-- A renaming that keeps the order renames maps that are in order entry by entry. -/
theorem CanonicalOver.entrywise (hk : KeepsOrder ρ S) (ht : t.CanonicalOver S) : t.Entrywise ρ := by
  induction t using Term.ind with
  | var x => exact .var x
  | bool b => exact .bool b
  | int i => exact .int i
  | app f args ih => exact .app f fun a ha => ih a ha (CanonicalOver.app_iff.mp ht a ha)
  | map es y ih =>
      have hkeys : ∀ e ∈ es, e.1.Entrywise ρ := fun e he => (ih e he).1 (ht.entries e he).1
      have hvalues : ∀ e ∈ es, e.2.Entrywise ρ := fun e he => (ih e he).2 (ht.entries e he).2
      refine .map ?_ hkeys hvalues
      have hincreasing : Sorted.Increasing compareEntry
          (es.map fun e => (rename ρ e.1, rename ρ e.2)) := by
        refine List.pairwise_map.mpr (List.Pairwise.imp_of_mem (fun {e f} he hf h => ?_) ht.increasing)
        obtain ⟨heS, heS'⟩ := ht.entries e he
        obtain ⟨hfS, hfS'⟩ := ht.entries f hf
        rw [compareEntry, Sorted.pairs] at h ⊢
        rwa [(hkeys e he).compare_rename hk (hkeys f hf) heS.ranges hfS.ranges,
          (hvalues e he).compare_rename hk (hvalues f hf) heS'.ranges hfS'.ranges]
      rw [rename_map, ofEntries_eq_map_iff.mpr hincreasing]
  | lookup m k ihm ihk =>
      obtain ⟨hm, hk⟩ := CanonicalOver.lookup_iff.mp ht
      exact .lookup (ihm hm) (ihk hk)

/-! ### Terms that evaluation treats alike -/

/-- A term over the class whose maps are in order; where it has maps, the renaming keeps the order. -/
structure Follows (ρ : Var → Var) (S : Var → Prop) (t : Term) : Prop extends t.CanonicalOver S where
  maps : t.MapFree ∨ KeepsOrder ρ S

lemma MapFreeOver.follows (h : t.MapFreeOver S) : t.Follows ρ S :=
  ⟨h.over.canonicalOver, .inl h.1⟩

namespace Follows

variable {f : Symbol} {args : List Term} {es : List Entry} {y : Option Var} {m k : Term}

lemma var {x : Var} (hx : S x) : (Term.var x).Follows ρ S :=
  ⟨⟨.var x, Ranges.var_iff.mpr hx⟩, .inl (.var x)⟩

lemma app_iff : (Term.app f args).Follows ρ S ↔ ∀ t ∈ args, t.Follows ρ S := by
  constructor
  · exact fun h t ht => ⟨CanonicalOver.app_iff.mp h.toCanonicalOver t ht,
      h.maps.imp_left fun hm => MapFree.app_iff.mp hm t ht⟩
  · intro h
    refine ⟨CanonicalOver.app_iff.mpr fun t ht => (h t ht).toCanonicalOver, ?_⟩
    by_cases hk : KeepsOrder ρ S
    · exact .inr hk
    · exact .inl (.app f fun t ht => (h t ht).maps.resolve_right hk)

lemma lookup_iff : (Term.lookup m k).Follows ρ S ↔ m.Follows ρ S ∧ k.Follows ρ S := by
  constructor
  · intro h
    obtain ⟨hm, hk⟩ := CanonicalOver.lookup_iff.mp h.toCanonicalOver
    exact ⟨⟨hm, h.maps.imp_left fun h => (MapFree.lookup_iff.mp h).1⟩,
      hk, h.maps.imp_left fun h => (MapFree.lookup_iff.mp h).2⟩
  · rintro ⟨hm, hk⟩
    refine ⟨CanonicalOver.lookup_iff.mpr ⟨hm.toCanonicalOver, hk.toCanonicalOver⟩, ?_⟩
    by_cases ho : KeepsOrder ρ S
    · exact .inr ho
    · exact .inl (.lookup (hm.maps.resolve_right ho) (hk.maps.resolve_right ho))

lemma keepsOrder (h : (Term.map es y).Follows ρ S) : KeepsOrder ρ S :=
  h.maps.resolve_left MapFree.not_map

lemma entries (h : (Term.map es y).Follows ρ S) : ∀ e ∈ es, e.1.Follows ρ S ∧ e.2.Follows ρ S :=
  fun e he => ⟨⟨(h.toCanonicalOver.entries e he).1, .inr h.keepsOrder⟩,
    ⟨(h.toCanonicalOver.entries e he).2, .inr h.keepsOrder⟩⟩

lemma ofEntries (hk : KeepsOrder ρ S) (hes : ∀ e ∈ es, e.1.Follows ρ S ∧ e.2.Follows ρ S)
    (hy : ∀ x, y = some x → S x) : (Term.ofEntries es y).Follows ρ S :=
  ⟨⟨.ofEntries y fun e he => ⟨(hes e he).1.canonical, (hes e he).2.canonical⟩,
    .ofEntries (fun e he => ⟨(hes e he).1.ranges, (hes e he).2.ranges⟩) hy⟩, .inr hk⟩

/-- A map is renamed entry by entry. -/
lemma rename_map (h : (Term.map es y).Follows ρ S) : (Term.map es y).rename ρ =
    .map (es.map fun e => (e.1.rename ρ, e.2.rename ρ)) (y.map ρ) := by
  cases h.toCanonicalOver.entrywise h.keepsOrder with
  | map heq _ _ => exact heq

lemma evaluate (h : t.Follows ρ S) : t.evaluate.Follows ρ S :=
  ⟨⟨canonical_evaluate t, h.ranges.evaluate⟩, h.maps.imp_left MapFree.evaluate⟩

lemma conjuncts (h : t.Follows ρ S) : ∀ u ∈ t.conjuncts, u.Follows ρ S :=
  conjuncts_closed (fun h => app_iff.mp h) h

end Follows

lemma valueAt_eq_none_iff {es : List Entry} {k : Term} :
    valueAt k es = none ↔ ∀ e ∈ es, e.1 ≠ k := by
  simp [valueAt, List.lookup_eq_none_iff, ne_comm]

/-- The value under a renamed key is the renamed value. -/
lemma valueAt_rename {es : List Entry} {k : Term} (hρ : Separates ρ S) (hk : k.CanonicalOver S)
    (hes : ∀ e ∈ es, e.1.CanonicalOver S) :
    valueAt (k.rename ρ) (es.map fun e => (e.1.rename ρ, e.2.rename ρ)) =
      (valueAt k es).map (rename ρ) := by
  unfold valueAt
  induction es with
  | nil => rfl
  | cons e es ih =>
      rw [List.forall_mem_cons] at hes
      have hiff := rename_eq_rename_iff hρ hk hes.1
      rw [List.map_cons, List.lookup_cons, List.lookup_cons, ih hes.2]
      by_cases heq : k = e.1
      · simp [heq]
      · rw [beq_eq_false_iff_ne.mpr heq, beq_eq_false_iff_ne.mpr (hiff.not.mpr heq)]

/-- A term in which no step of evaluation is left stays so under names that are as different. -/
lemma Reduced.rename (hρ : Separates ρ S) (ht : t.Reduced) (hS : t.Ranges S) :
    (t.rename ρ).Reduced := by
  induction ht with
  | var x => exact .var _
  | bool b => exact .bool b
  | int i => exact .int i
  | @app f args hargs hroot ih =>
      have hS := Ranges.app_iff.mp hS
      rw [rename_app]
      refine .app (List.forall_mem_map.mpr fun a ha => ih a ha (hS a ha)) ?_
      rw [reduceRoot] at hroot ⊢
      split_ifs with hf
      · rfl
      · rw [if_neg hf] at hroot
        refine Option.bind_eq_none_iff.mpr fun o ho => ?_
        rw [o.reduce_rename hρ fun a ha => ⟨(hargs a ha).canonical, hS a ha⟩,
          Option.bind_eq_none_iff.mp hroot o ho, Option.map_none]
  | @map es frame _ _ _ ihk ihv =>
      have hS := (Ranges.map_iff.mp hS).1
      rw [rename_map]
      exact .ofEntries _ (List.forall_mem_map.mpr fun e he =>
        ⟨ihk e he (hS e he).1, ihv e he (hS e he).2⟩)
  | @lookup m k hm hk hroot ihm ihk =>
      obtain ⟨hSm, hSk⟩ := Ranges.lookup_iff.mp hS
      rw [rename_lookup]
      refine .lookup (ihm hSm) (ihk hSk) ?_
      cases hm with
      | map frame hes hkeys hvalues =>
          have hS := (Ranges.map_iff.mp hSm).1
          rw [rename_map, Term.ofEntries]
          -- sorted anew, the renamed entries still have no entry for the renamed key
          refine valueAt_eq_none_iff.mpr fun e he heq => ?_
          obtain ⟨q, hq, rfl⟩ := List.mem_map.mp (mem_ofEntries_iff.mp he)
          exact valueAt_eq_none_iff.mp hroot q hq (rename_injective hρ
            ⟨(hkeys q hq).canonical, (hS q hq).1⟩ ⟨hk.canonical, hSk⟩ heq)
      | app => rw [rename_app]; rfl
      | var | bool | int | lookup => rfl

lemma reduceRoot_rename (hρ : Separates ρ S) (ht : t.Follows ρ S) :
    (t.rename ρ).reduceRoot = t.reduceRoot.map (rename ρ) := by
  cases t with
  | app f args =>
      rw [rename_app, reduceRoot, reduceRoot]
      split
      · rfl
      · cases Operator.ofLabel f.name with
        | none => rfl
        | some o => exact o.reduce_rename hρ fun a ha => (Follows.app_iff.mp ht a ha).toCanonicalOver
  | lookup m k =>
      obtain ⟨hm, hk⟩ := Follows.lookup_iff.mp ht
      cases m with
      | map es y =>
          rw [rename_lookup, hm.rename_map]
          exact valueAt_rename hρ hk.toCanonicalOver fun e he => (hm.entries e he).1.toCanonicalOver
      | app => rw [rename_lookup, rename_app]; rfl
      | var | bool | int | lookup => rfl
  | map => rw [Term.rename_map]; rfl
  | var | bool | int => rfl

/-- Evaluation can come before a renaming or after it. -/
theorem evaluate_rename (hρ : Renaming ρ S) (ht : t.Follows ρ S) :
    (t.rename ρ).evaluate = t.evaluate.rename ρ := by
  have root : ∀ {u : Term}, u.Follows ρ S →
      (u.rename ρ).reduceRoot.getD (u.rename ρ) = (u.reduceRoot.getD u).rename ρ := by
    intro u hu
    rw [reduceRoot_rename hρ.injective hu]
    cases u.reduceRoot <;> rfl
  induction t using Term.ind with
  | app f args ih =>
      have hargs := Follows.app_iff.mp ht
      have heval : (args.map (rename ρ)).map evaluate = (args.map evaluate).map (rename ρ) := by
        rw [List.map_map, List.map_map]
        exact List.map_congr_left fun a ha => ih a ha (hargs a ha)
      rw [rename_app, evaluate_app, evaluate_app, heval, ← rename_app]
      exact root (Follows.app_iff.mpr (List.forall_mem_map.mpr fun a ha => (hargs a ha).evaluate))
  | map es y ih =>
      have heval : (es.map fun e => (e.1.rename ρ, e.2.rename ρ)).map
          (fun e => (e.1.evaluate, e.2.evaluate)) =
          (es.map fun e => (e.1.evaluate, e.2.evaluate)).map fun e => (e.1.rename ρ, e.2.rename ρ) := by
        rw [List.map_map, List.map_map]
        exact List.map_congr_left fun e he => Prod.ext ((ih e he).1 (ht.entries e he).1)
          ((ih e he).2 (ht.entries e he).2)
      rw [ht.rename_map, evaluate_map, evaluate_map, heval, rename_ofEntries]
  | lookup m k ihm ihk =>
      obtain ⟨hm, hk⟩ := Follows.lookup_iff.mp ht
      rw [rename_lookup, evaluate_lookup, evaluate_lookup, ihm hm, ihk hk, ← rename_lookup]
      exact root (Follows.lookup_iff.mpr ⟨hm.evaluate, hk.evaluate⟩)
  | var | bool | int => rfl

/-! ### Conjunctions -/

lemma conjuncts_rename (ρ : Var → Var) (t : Term) :
    (t.rename ρ).conjuncts = t.conjuncts.map (rename ρ) := by
  induction t using Term.ind with
  | app f args ih =>
      match args with
      | [a, b] =>
          have ha := ih a (by simp)
          have hb := ih b (by simp)
          have happlies := applies_rename ρ .conj (.app f [a, b])
          rw [rename_app, List.map_cons, List.map_cons, List.map_nil] at happlies ⊢
          rw [conjuncts, conjuncts, happlies, ha, hb]
          split
          · exact List.map_append.symm
          · simp
      | [] | [_] | _ :: _ :: _ :: _ => rw [rename_app]; simp [conjuncts]
  | map => simp [rename_map, Term.ofEntries, conjuncts]
  | var | bool | int | lookup => rfl

lemma isSome_asConj_rename (ρ : Var → Var) (t : Term) :
    (t.rename ρ).asConj.isSome = t.asConj.isSome := by
  cases t with
  | app f args =>
      match args with
      | [a, b] =>
          have happlies := applies_rename ρ .conj (.app f [a, b])
          rw [rename_app, List.map_cons, List.map_cons, List.map_nil] at happlies ⊢
          rw [asConj, asConj, happlies]
          split <;> rfl
      | [] | [_] | _ :: _ :: _ :: _ => rw [rename_app]; rfl
  | map => rw [rename_map]; rfl
  | var | bool | int | lookup => rfl

end Term

namespace Equation

variable {e : Equation}

/-- An equation stands for the same equations before and after a renaming. -/
lemma split_rename (ρ : Var → Var) (e : Equation) :
    (e.map (rename ρ)).split = e.split.map (·.map (rename ρ)) := by
  unfold split
  simp only [map_left, map_right, rename_eq_bool_iff, isSome_asConj_rename, conjuncts_rename]
  split_ifs <;> simp [Equation.map, Function.comp_def]

lemma follows_split (hl : e.left.Follows ρ S) (hr : e.right.Follows ρ S) :
    ∀ q ∈ e.split, q.left.Follows ρ S ∧ q.right.Follows ρ S := by
  have htrue : (Term.bool true).Follows ρ S :=
    MapFreeOver.follows ⟨.bool true, by simp⟩
  unfold split
  split
  · exact List.forall_mem_map.mpr fun u hu => ⟨hl.conjuncts u hu, htrue⟩
  · split
    · exact List.forall_mem_map.mpr fun u hu => ⟨hr.conjuncts u hu, htrue⟩
    · exact List.forall_mem_singleton.mpr ⟨hl, hr⟩

lemma obligations_rename {order : SortOrder} (hρ : Renaming ρ S) (hl : e.left.Follows ρ S)
    (hr : e.right.Follows ρ S) :
    (Theory.standard order).obligations (e.map (rename ρ)) =
      ((Theory.standard order).obligations e).map (·.map (rename ρ)) := by
  rw [Theory.obligations, Theory.obligations, split_rename, List.map_map, List.map_map]
  refine List.map_congr_left fun q hq => ?_
  obtain ⟨hl, hr⟩ := follows_split hl hr q hq
  simp [Theory.evaluated, Theory.standard, Equation.map, evaluate_rename hρ hl, evaluate_rename hρ hr]

end Equation

end SolvedForm

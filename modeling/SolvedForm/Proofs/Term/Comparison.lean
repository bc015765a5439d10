import Mathlib.Tactic.Common
import SolvedForm.Term.Order

/-!
The comparison of terms is a linear order: it answers `eq` on equal terms only, it turns
round with its arguments, and it is transitive.

* `Term.compare_swap`, `Term.eq_of_compare`, `Term.isLE_trans`: the three laws, each by
  induction over the immediate subterms of the first term; terms of different kinds are told
  apart by their ranks (`Term.compare_of_rank_ne`).
* The instances of `Std.TransCmp` and `Std.LawfulEqCmp` for terms and entries are what
  sorted lists of entries need.
-/

namespace SolvedForm

open Std

/-! ### Lexicographic steps -/

/-- Transitivity passes through a lexicographic step: only where the first components are all
equal do the second ones count. -/
lemma isLE_then_trans {α : Type} {cmp : α → α → Ordering} [OrientedCmp cmp] [LawfulEqCmp cmp]
    {a b c : α} {p q r : Ordering}
    (trans : (cmp a b).isLE → (cmp b c).isLE → (cmp a c).isLE)
    (hp : ((cmp a b).then p).isLE) (hq : ((cmp b c).then q).isLE)
    (hr : p.isLE → q.isLE → r.isLE) : ((cmp a c).then r).isLE := by
  have hab := Ordering.isLE_left_of_isLE_then hp
  have hbc := Ordering.isLE_left_of_isLE_then hq
  cases h : cmp a c with
  | lt => rfl
  | gt => simpa [h] using trans hab hbc
  | eq =>
      obtain rfl := LawfulEqCmp.eq_of_compare h
      -- `b` lies between two equal elements
      have heq : cmp a b = .eq := OrientedCmp.isLE_antisymm hab hbc
      rw [heq] at hp
      rw [OrientedCmp.eq_symm heq] at hq
      exact hr hp hq

lemma then_swap {a b c d : Ordering} (hab : a = b.swap) (hcd : c = d.swap) :
    a.then c = (b.then d).swap := by
  rw [hab, hcd, Ordering.swap_then]

/-- A comparison of images is as good as the comparison itself. -/
lemma transCmp_comap {α β : Type} (cmp : β → β → Ordering) [TransCmp cmp] (f : α → β) :
    TransCmp fun a b => cmp (f a) (f b) where
  eq_swap {a b} := @OrientedCmp.eq_swap _ cmp _ (f a) (f b)
  isLE_trans hab hbc := @TransCmp.isLE_trans _ cmp _ _ _ _ hab hbc

/-! ### Optional values, variables and symbols -/

section Options

variable {α : Type} {cmp : α → α → Ordering}

instance [OrientedCmp cmp] : OrientedCmp (Sorted.options cmp) where
  eq_swap {a b} := by
    cases a <;> cases b <;> first | rfl | exact @OrientedCmp.eq_swap _ cmp _ _ _

instance [TransCmp cmp] : TransCmp (Sorted.options cmp) where
  isLE_trans {a b c} hab hbc := by
    cases a <;> cases b <;> cases c <;> simp only [Sorted.options] at hab hbc ⊢ <;>
      first | rfl | contradiction | exact TransCmp.isLE_trans hab hbc

instance [LawfulEqCmp cmp] : LawfulEqCmp (Sorted.options cmp) where
  compare_self {a} := by
    cases a with
    | none => rfl
    | some a => exact @ReflCmp.compare_self _ cmp _ _
  eq_of_compare {a b} h := by
    cases a <;> cases b <;> simp only [Sorted.options, reduceCtorEq] at h ⊢
    exact congrArg some (LawfulEqCmp.eq_of_compare h)

end Options

instance : TransCmp SortName.compare :=
  transCmp_comap Ord.compare SortName.name

instance : LawfulEqCmp SortName.compare where
  compare_self := ReflOrd.compare_self
  eq_of_compare {s t} h := by
    cases s; cases t
    exact congrArg SortName.mk (LawfulEqOrd.eq_of_compare h)

instance : TransCmp Var.compare :=
  have := transCmp_comap SortName.compare Var.sort
  have := transCmp_comap (Sorted.options Ord.compare) Var.size
  inferInstanceAs <| TransCmp <|
    compareLex (compareOn Var.name) <|
    compareLex (fun x y => SortName.compare x.sort y.sort) <|
    compareLex (compareOn Var.anonymous) fun x y => Sorted.options Ord.compare x.size y.size

instance : LawfulEqCmp Var.compare where
  compare_self := by
    intro x
    simp [Var.compare, ReflCmp.compare_self]
  eq_of_compare {x y} h := by
    cases x; cases y
    simp only [Var.compare, Ordering.then_eq_eq, LawfulEqCmp.compare_eq_iff_eq] at h
    grind

instance : TransCmp SymbolKind.compare where
  eq_swap {a b} := by cases a <;> cases b <;> rfl
  isLE_trans {a b c} := by cases a <;> cases b <;> cases c <;> decide

instance : LawfulEqCmp SymbolKind.compare where
  compare_self {a} := by cases a <;> rfl
  eq_of_compare {a b} := by cases a <;> cases b <;> decide

instance : TransCmp Symbol.compare :=
  have := transCmp_comap (Sorted.options SortName.compare) Symbol.resultSort
  have := transCmp_comap SymbolKind.compare Symbol.kind
  inferInstanceAs <| TransCmp <|
    compareLex (compareOn Symbol.name) <| compareLex (compareOn Symbol.arity) <|
    compareLex (fun f g => Sorted.options SortName.compare f.resultSort g.resultSort)
      fun f g => SymbolKind.compare f.kind g.kind

instance : LawfulEqCmp Symbol.compare where
  compare_self := by
    intro f
    simp [Symbol.compare, ReflCmp.compare_self]
  eq_of_compare {f g} h := by
    cases f; cases g
    simp only [Symbol.compare, Ordering.then_eq_eq, LawfulEqCmp.compare_eq_iff_eq] at h
    grind

namespace Term

/-! ### Kinds of terms -/

lemma compare_of_rank_ne {s t : Term} (h : s.rank ≠ t.rank) :
    compare s t = Ord.compare s.rank t.rank := by
  cases s <;> cases t <;> first | rfl | exact absurd rfl h

lemma rank_le_of_isLE {s t : Term} (h : (compare s t).isLE) : s.rank ≤ t.rank := by
  by_cases hne : s.rank = t.rank
  · exact Nat.le_of_eq hne
  · rw [compare_of_rank_ne hne] at h
    exact Nat.isLE_compare.mp h

/-! ### Orientation -/

lemma compareArgs_swap {ss : List Term} (h : ∀ s ∈ ss, ∀ t, compare s t = (compare t s).swap) :
    ∀ ts, compareArgs ss ts = (compareArgs ts ss).swap := by
  induction ss with
  | nil => intro ts; cases ts <;> rfl
  | cons s ss ih =>
      rw [List.forall_mem_cons] at h
      intro ts
      cases ts with
      | nil => rfl
      | cons t ts => exact then_swap (h.1 t) (ih h.2 ts)

lemma compareEntries_swap {es : List Entry} (h : ∀ e ∈ es,
    (∀ t, compare e.1 t = (compare t e.1).swap) ∧ ∀ t, compare e.2 t = (compare t e.2).swap) :
    ∀ fs, compareEntries es fs = (compareEntries fs es).swap := by
  induction es with
  | nil => intro fs; cases fs <;> rfl
  | cons e es ih =>
      rw [List.forall_mem_cons] at h
      intro fs
      cases fs with
      | nil => rfl
      | cons f fs => exact then_swap (then_swap (h.1.1 f.1) (h.1.2 f.2)) (ih h.2 fs)

theorem compare_swap (s : Term) : ∀ t, compare s t = (compare t s).swap := by
  induction s using Term.ind with
  | var x =>
      intro t
      cases t with
      | var y => exact @OrientedCmp.eq_swap _ Var.compare _ _ _
      | _ => rfl
  | bool a =>
      intro t
      cases t with
      | bool b => exact OrientedOrd.eq_swap
      | _ => rfl
  | int i =>
      intro t
      cases t with
      | int j => exact OrientedOrd.eq_swap
      | _ => rfl
  | app f ss ih =>
      intro t
      cases t with
      | app g ts =>
          exact then_swap (@OrientedCmp.eq_swap _ Symbol.compare _ _ _) (compareArgs_swap ih ts)
      | _ => rfl
  | map es x ih =>
      intro t
      cases t with
      | map fs y =>
          exact then_swap (compareEntries_swap ih fs)
            (@OrientedCmp.eq_swap _ (Sorted.options Var.compare) _ _ _)
      | _ => rfl
  | lookup m k ihm ihk =>
      intro t
      cases t with
      | lookup n l => exact then_swap (ihm n) (ihk l)
      | _ => rfl

instance : OrientedCmp compare := ⟨compare_swap _ _⟩

/-! ### Equality -/

mutual

theorem eq_of_compare : ∀ s t : Term, compare s t = .eq → s = t
  | .var _, .var _, h => congrArg var (LawfulEqCmp.eq_of_compare h)
  | .bool _, .bool _, h => congrArg bool (LawfulEqOrd.eq_of_compare h)
  | .int _, .int _, h => congrArg int (Int64.toInt_inj.mp (LawfulEqOrd.eq_of_compare h))
  | .app _ ss, .app _ ts, h => by
    obtain ⟨hf, hs⟩ := Ordering.then_eq_eq.mp h
    rw [LawfulEqCmp.eq_of_compare hf, eq_of_compareArgs ss ts hs]
  | .map es _, .map fs _, h => by
    obtain ⟨he, hx⟩ := Ordering.then_eq_eq.mp h
    rw [LawfulEqCmp.eq_of_compare hx, eq_of_compareEntries es fs he]
  | .lookup m k, .lookup n l, h => by
    obtain ⟨hm, hk⟩ := Ordering.then_eq_eq.mp h
    rw [eq_of_compare m n hm, eq_of_compare k l hk]
  termination_by structural s => s

theorem eq_of_compareArgs : ∀ ss ts, compareArgs ss ts = .eq → ss = ts
  | [], [], _ => rfl
  | s :: ss, t :: ts, h => by
    obtain ⟨hs, hss⟩ := Ordering.then_eq_eq.mp h
    rw [eq_of_compare s t hs, eq_of_compareArgs ss ts hss]
  termination_by structural ss => ss

theorem eq_of_compareEntries : ∀ es fs, compareEntries es fs = .eq → es = fs
  | [], [], _ => rfl
  | (k, v) :: es, (l, w) :: fs, h => by
    obtain ⟨hkv, hes⟩ := Ordering.then_eq_eq.mp h
    obtain ⟨hk, hv⟩ := Ordering.then_eq_eq.mp hkv
    rw [eq_of_compare k l hk, eq_of_compare v w hv, eq_of_compareEntries es fs hes]
  termination_by structural es => es

end

instance : LawfulEqCmp compare := ⟨eq_of_compare _ _⟩

instance : OrientedCmp compareEntries :=
  ⟨compareEntries_swap (fun e _ => ⟨compare_swap e.1, compare_swap e.2⟩) _⟩

instance : LawfulEqCmp compareEntries := ⟨eq_of_compareEntries _ _⟩

/-! ### Transitivity -/

/-- The comparisons of `s` with later terms compose. -/
def TransAt (s : Term) : Prop :=
  ∀ t u, (compare s t).isLE → (compare t u).isLE → (compare s u).isLE

lemma compareArgs_trans {ss : List Term} (h : ∀ s ∈ ss, TransAt s) : ∀ ts us,
    (compareArgs ss ts).isLE → (compareArgs ts us).isLE → (compareArgs ss us).isLE := by
  induction ss with
  | nil => intro ts us _ _; cases us <;> rfl
  | cons s ss ih =>
      rw [List.forall_mem_cons] at h
      intro ts us hst htu
      cases ts with
      | nil => cases hst
      | cons t ts =>
          cases us with
          | nil => cases htu
          | cons u us => exact isLE_then_trans (h.1 t u) hst htu (ih h.2 ts us)

lemma compareEntries_trans {es : List Entry} (h : ∀ e ∈ es, TransAt e.1 ∧ TransAt e.2) :
    ∀ fs gs, (compareEntries es fs).isLE → (compareEntries fs gs).isLE →
      (compareEntries es gs).isLE := by
  induction es with
  | nil => intro fs gs _ _; cases gs <;> rfl
  | cons e es ih =>
      rw [List.forall_mem_cons] at h
      intro fs gs hef hfg
      cases fs with
      | nil => cases hef
      | cons f fs =>
          cases gs with
          | nil => cases hfg
          | cons g gs =>
              simp only [compareEntries, Ordering.then_assoc] at hef hfg ⊢
              exact isLE_then_trans (h.1.1 f.1 g.1) hef hfg fun hef hfg =>
                isLE_then_trans (h.1.2 f.2 g.2) hef hfg (ih h.2 fs gs)

/-- Terms of one kind aside, the ranks decide. -/
lemma isLE_of_rank_lt {s t : Term} (h : s.rank < t.rank) : (compare s t).isLE := by
  rw [compare_of_rank_ne (Nat.ne_of_lt h)]
  exact Nat.isLE_compare.mpr (Nat.le_of_lt h)

lemma transAt_of_same_rank {s : Term} (h : ∀ t u, t.rank = s.rank → u.rank = s.rank →
    (compare s t).isLE → (compare t u).isLE → (compare s u).isLE) : TransAt s := by
  intro t u hst htu
  have hrst := rank_le_of_isLE hst
  have hrtu := rank_le_of_isLE htu
  by_cases hrsu : s.rank = u.rank
  · exact h t u (by omega) hrsu.symm hst htu
  · exact isLE_of_rank_lt (by omega)

theorem isLE_trans (s : Term) : TransAt s := by
  induction s using Term.ind with
  | var x =>
      exact transAt_of_same_rank fun
        | .var _, .var _, _, _ => @TransCmp.isLE_trans _ Var.compare _ _ _ _
  | bool a =>
      exact transAt_of_same_rank fun
        | .bool _, .bool _, _, _ => TransOrd.isLE_trans
  | int i =>
      exact transAt_of_same_rank fun
        | .int _, .int _, _, _ => TransOrd.isLE_trans
  | app f ss ih =>
      exact transAt_of_same_rank fun
        | .app _ ts, .app _ us, _, _ => fun hst htu =>
          isLE_then_trans (@TransCmp.isLE_trans _ Symbol.compare _ _ _ _) hst htu
            (compareArgs_trans ih ts us)
  | map es x ih =>
      exact transAt_of_same_rank fun
        | .map fs _, .map gs _, _, _ => fun hst htu =>
          isLE_then_trans (compareEntries_trans ih fs gs) hst htu
            (@TransCmp.isLE_trans _ (Sorted.options Var.compare) _ _ _ _)
  | lookup m k ihm ihk =>
      exact transAt_of_same_rank fun
        | .lookup n l, .lookup o p, _, _ => fun hst htu =>
          isLE_then_trans (ihm n o) hst htu (ihk l p)

instance : TransCmp compare := ⟨isLE_trans _ _ _⟩

instance : TransCmp compareEntry :=
  have := transCmp_comap compare (Prod.fst : Entry → Term)
  have := transCmp_comap compare (Prod.snd : Entry → Term)
  inferInstanceAs <| TransCmp <|
    compareLex (fun e f : Entry => compare e.1 f.1) fun e f : Entry => compare e.2 f.2

instance : LawfulEqCmp compareEntry where
  eq_of_compare {e f} h := by
    obtain ⟨hk, hv⟩ := Ordering.then_eq_eq.mp h
    exact Prod.ext (eq_of_compare _ _ hk) (eq_of_compare _ _ hv)

end Term

end SolvedForm

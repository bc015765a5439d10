import Mathlib.Logic.Relation
import Mathlib.Order.Preorder.Finite
import SolvedForm.Proofs.CommonSubsort

/-!
The order that declarations generate.

* `Subsorts.Records`: the recorded pairs are the chains of a relation; `Subsorts.Records.declareAll`
  says which relation it is after declarations.
* `Subsorts.Chain`: declarations that lead from one sort up to another.
* `Subsorts.le_declareAll_iff`: the order after declarations, in whatever order they are made.
* `Subsorts.Lawful`, `Subsorts.lawful_declareAll`: without cycles it is a partial order.
* `Subsorts.Lawful.exists_maximalCommon`: every common subsort lies below a maximal one.
* `Subsorts.Lawful.glb_eq_some_iff`, `Subsorts.glb_declareAll_iff`: the lower bound of two sorts is the
  greatest of their common subsorts, if there is one.
-/

namespace SolvedForm.Subsorts

open Relation

variable {d : Subsorts} {s t u g : SortName} {declarations : List (SortName × SortName)}

/-! ### Recorded pairs -/

/-- The recorded pairs are those that a chain of steps connects. -/
def Records (d : Subsorts) (r : SortName → SortName → Prop) : Prop :=
  ∀ s t, (s, t) ∈ d.pairs ↔ TransGen r s t

lemma mem_above : t ∈ d.above s ↔ (s, t) ∈ d.pairs := by
  simp [above]

/-- A declaration relates all that is at or below the subsort to all that is at or above the
supersort. -/
lemma mem_pairs_declare {sub sup : SortName} : (s, t) ∈ (d.declare sub sup).pairs ↔
    (s, t) ∈ d.pairs ∨ (s = sub ∨ (s, sub) ∈ d.pairs) ∧ (t = sup ∨ (sup, t) ∈ d.pairs) := by
  change (s, t) ∈ ((sub :: d.below sub).flatMap fun s => (sup :: d.above sup).map fun t => (s, t)) ∪
    d.pairs ↔ _
  rw [List.mem_union_iff, or_comm, List.mem_flatMap, ← mem_below (t := sub), ← mem_above (s := sup),
    ← List.mem_cons, ← List.mem_cons]
  refine or_congr_right ⟨?_, fun ⟨hs, ht⟩ => ⟨s, hs, List.mem_map_of_mem ht⟩⟩
  rintro ⟨s', hs, ht⟩
  obtain ⟨t', ht', heq⟩ := List.mem_map.mp ht
  obtain ⟨rfl, rfl⟩ := Prod.mk.inj heq
  exact ⟨hs, ht'⟩

/-- The chains when one step is added: those of before, and those through the new step. -/
lemma transGen_insert_iff {α : Type} {r : α → α → Prop} {a b x y : α} :
    TransGen (fun x y => r x y ∨ (x, y) = (a, b)) x y ↔
      TransGen r x y ∨ (x = a ∨ TransGen r x a) ∧ (y = b ∨ TransGen r b y) := by
  have old : ∀ {x y}, TransGen r x y → TransGen (fun x y => r x y ∨ (x, y) = (a, b)) x y :=
    fun h => TransGen.mono (fun _ _ => .inl) _ _ h
  constructor
  · intro h
    induction h with
    | single h =>
        rcases h with h | ⟨⟨⟩⟩
        · exact .inl (.single h)
        · exact .inr ⟨.inl rfl, .inl rfl⟩
    | tail _ h ih =>
        rcases h with h | ⟨⟨⟩⟩
        · refine ih.imp (·.tail h) (And.imp_right fun hb => .inr ?_)
          rcases hb with rfl | hb
          · exact .single h
          · exact hb.tail h
        · exact .inr ⟨ih.elim .inr And.left, .inl rfl⟩
  · rintro (h | ⟨hx, hy⟩)
    · exact old h
    · have step : TransGen (fun x y => r x y ∨ (x, y) = (a, b)) a b := .single (.inr rfl)
      have hxb : TransGen (fun x y => r x y ∨ (x, y) = (a, b)) x b := by
        rcases hx with rfl | hx
        · exact step
        · exact (old hx).trans step
      rcases hy with rfl | hy
      · exact hxb
      · exact hxb.trans (old hy)

lemma Records.declare {r : SortName → SortName → Prop} (h : d.Records r) (sub sup : SortName) :
    (d.declare sub sup).Records fun s t => r s t ∨ (s, t) = (sub, sup) := fun s t => by
  rw [mem_pairs_declare, transGen_insert_iff, h, h, h]

lemma Records.declareAll {r : SortName → SortName → Prop} (h : d.Records r)
    (declarations : List (SortName × SortName)) :
    (d.declareAll declarations).Records fun s t => r s t ∨ (s, t) ∈ declarations := by
  induction declarations generalizing d r with
  | nil =>
      simp only [List.not_mem_nil, or_false]
      exact h
  | cons p declarations ih =>
      simp only [List.mem_cons, ← or_assoc]
      exact ih (h.declare p.1 p.2)

lemma records_empty : empty.Records fun _ _ => False := by
  intro s t
  refine ⟨nofun, fun h => ?_⟩
  induction h with
  | single h => exact h.elim
  | tail _ h => exact h.elim

/-! ### Chains of declarations -/

/-- One or more declarations lead from the first sort up to the second. -/
def Chain (declarations : List (SortName × SortName)) : SortName → SortName → Prop :=
  TransGen fun s t => (s, t) ∈ declarations

/-- The declarations that are made to begin with. -/
def builtins : List (SortName × SortName) := [(.bool, .top), (.int, .top), (.map, .top)]

lemma records_builtin (declarations : List (SortName × SortName)) :
    (builtin.declareAll declarations).Records fun s t =>
      (s, t) ∈ builtins ∨ (s, t) ∈ declarations := by
  have h := (records_empty.declareAll builtins).declareAll declarations
  simp only [false_or] at h
  exact h

/-- Where nothing but itself is declared above the top sort, chains that do not end there consist of
what has been declared in addition to the built-in sorts. -/
lemma chain_of_recorded (htop : ∀ p ∈ declarations, p.1 = .top → p.2 = .top)
    (h : (s, t) ∈ (builtin.declareAll declarations).pairs) : t = .top ∨ Chain declarations s t := by
  have builtins_top : ∀ p ∈ builtins, p.2 = SortName.top := by decide
  have hchain := (records_builtin declarations s t).mp h
  clear h
  induction hchain with
  | single h => exact h.imp (builtins_top _) .single
  | tail _ h ih =>
      rcases h with h | h
      · exact .inl (builtins_top _ h)
      · rcases ih with rfl | ih
        · exact .inl (htop _ h rfl)
        · exact .inr (ih.tail h)

lemma le_iff_chain (htop : ∀ p ∈ declarations, p.1 = .top → p.2 = .top) :
    (builtin.declareAll declarations).le s t = true ↔ s = t ∨ t = .top ∨ Chain declarations s t := by
  simp only [le, Bool.or_eq_true, decide_eq_true_eq, or_assoc]
  refine or_congr_right ⟨fun h => h.elim .inl (chain_of_recorded htop), Or.imp_right fun h => ?_⟩
  exact (records_builtin declarations s t).mpr (TransGen.mono (fun _ _ => .inr) _ _ h)

lemma eq_top_of_chain (htop : ∀ p ∈ declarations, p.1 = .top → p.2 = .top)
    (h : Chain declarations .top t) : t = .top := by
  induction h with
  | single h => exact htop _ h rfl
  | tail _ h ih => exact htop _ h ih

lemma le_declareAll_trans (htop : ∀ p ∈ declarations, p.1 = .top → p.2 = .top)
    (hst : (builtin.declareAll declarations).le s t = true)
    (htu : (builtin.declareAll declarations).le t u = true) :
    (builtin.declareAll declarations).le s u = true := by
  rw [le_iff_chain htop] at hst htu ⊢
  rcases htu with rfl | rfl | htu
  · exact hst
  · exact .inr (.inl rfl)
  · rcases hst with rfl | rfl | hst
    · exact .inr (.inr htu)
    · exact .inr (.inl (eq_top_of_chain htop htu))
    · exact .inr (.inr (hst.trans htu))

/-- The order after declarations none of which puts the top sort below another sort: a sort lies below
itself, the top sort, and the sorts to which a chain of declarations leads. So it is reflexive and
transitive, and neither the order of the declarations nor their repetition has an effect on it. -/
theorem le_declareAll_iff (htop : ∀ p ∈ declarations, p.1 = .top → p.2 = .top) :
    let d := builtin.declareAll declarations
    (∀ s t, d.le s t = true ↔ s = t ∨ t = .top ∨ Chain declarations s t) ∧
      (∀ s, d.le s s = true) ∧
      (∀ s t u, d.le s t = true → d.le t u = true → d.le s u = true) ∧
      ∀ declarations', (∀ p, p ∈ declarations' ↔ p ∈ declarations) →
        ∀ s t, (builtin.declareAll declarations').le s t = d.le s t := by
  intro d
  refine ⟨fun s t => le_iff_chain htop, fun s => (le_iff_chain htop).mpr (.inl rfl),
    fun s t u => le_declareAll_trans htop, fun declarations' hsame s t => ?_⟩
  have hchain : Chain declarations' = Chain declarations := by simp only [Chain, hsame]
  rw [Bool.eq_iff_iff, le_iff_chain fun p hp => htop p ((hsame p).mp hp), hchain]
  exact (le_iff_chain htop).symm

/-- Two sorts that are declared below each other, and one of them below the integers. -/
theorem le_declareAll_iff_cycle :
    let a : SortName := ⟨"A"⟩
    let b : SortName := ⟨"B"⟩
    let declarations : List (SortName × SortName) := [(b, .int), (a, b), (b, a)]
    (∀ p ∈ declarations, p.1 = .top → p.2 = .top) ∧
      (builtin.declareAll declarations).le a .int = true ∧
      (builtin.declareAll (declarations.reverse ++ declarations)).le a .int = true := by
  intro a b declarations
  have htop : ∀ p ∈ declarations, p.1 = .top → p.2 = .top := by decide
  obtain ⟨hle, -, -, hsame⟩ := le_declareAll_iff htop
  have hchain : Chain declarations a .int :=
    .tail (.single (List.mem_cons_of_mem _ List.mem_cons_self)) List.mem_cons_self
  have ha := (hle a .int).mpr (.inr (.inr hchain))
  exact ⟨htop, ha, (hsame (declarations.reverse ++ declarations) (by simp) a .int).trans ha⟩

/-! ### Greatest common subsorts -/

/-- The sort is at or below both of two sorts, and every such sort is at or below it. -/
def GreatestCommon (d : Subsorts) (s t u : SortName) : Prop :=
  d.Common s t u ∧ ∀ v, d.Common s t v → d.le v u = true

/-- The sorts are partially ordered. -/
structure Lawful (d : Subsorts) : Prop extends d.WellFormed where
  trans {s t u : SortName} : d.le s t = true → d.le t u = true → d.le s u = true
  antisymm {s t : SortName} : d.le s t = true → d.le t s = true → s = t

lemma le_self (d : Subsorts) (s : SortName) : d.le s s = true := by simp [le]

lemma GreatestCommon.comm : d.GreatestCommon s t u ↔ d.GreatestCommon t s u := by
  simp only [GreatestCommon, common_comm (s := s)]

lemma Lawful.greatestCommon_iff_of_le (h : d.Lawful) (hst : d.le s t = true) :
    d.GreatestCommon s t g ↔ s = g := by
  have hs : d.Common s t s := ⟨d.le_self s, hst⟩
  constructor
  · exact fun ⟨hg, hgreatest⟩ => h.antisymm (hgreatest s hs) hg.1
  · rintro rfl
    exact ⟨hs, fun v hv => hv.1⟩

/-- The declared order on the names of sorts. -/
abbrev Lawful.partialOrder (h : d.Lawful) : PartialOrder SortName where
  le s t := d.le s t = true
  le_refl := d.le_self
  le_trans _ _ _ := h.trans
  le_antisymm _ _ := h.antisymm

/-- Finitely many sorts lie below two incomparable ones, so that each of these lies below a maximal
one. -/
lemma Lawful.exists_maximalCommon (h : d.Lawful) (hst : ¬ d.le s t = true) (hts : ¬ d.le t s = true)
    (hu : d.Common s t u) : ∃ v, d.le u v = true ∧ d.MaximalCommon s t v := by
  let _ := h.partialOrder
  have hfinite : {v | d.Common s t v}.Finite :=
    d.known.finite_toSet.subset fun v hv => h.mem_known hst hts hv
  obtain ⟨v, huv, hv, hmax⟩ := hfinite.exists_le_maximal hu
  exact ⟨v, huv, hv, fun w hw hvw => h.antisymm (hmax hw hvw) hvw⟩

/-- Of two incomparable sorts the greatest common subsort is the only maximal one. -/
lemma Lawful.greatestCommon_iff_of_incomparable (h : d.Lawful) (hst : ¬ d.le s t = true)
    (hts : ¬ d.le t s = true) :
    d.GreatestCommon s t g ↔ ∀ u, d.MaximalCommon s t u ↔ u = g := by
  constructor
  · rintro ⟨hg, hgreatest⟩ u
    constructor
    · exact fun ⟨hu, hmax⟩ => (hmax g hg (hgreatest u hu)).symm
    · rintro rfl
      exact ⟨hg, fun v hv huv => h.antisymm (hgreatest v hv) huv⟩
  · intro hunique
    refine ⟨((hunique g).mpr rfl).1, fun v hv => ?_⟩
    obtain ⟨w, hvw, hw⟩ := h.exists_maximalCommon hst hts hv
    exact (hunique w).mp hw ▸ hvw

/-- The lower bound of two incomparable sorts is their only maximal common subsort. -/
lemma WellFormed.glb_eq_some_iff (h : d.WellFormed) (hst : ¬ d.le s t = true)
    (hts : ¬ d.le t s = true) :
    d.glb s t = some g ↔ ∀ u, d.MaximalCommon s t u ↔ u = g := by
  have hnodup : (d.maximal (d.lowerBounds s t)).Nodup := (h.nodup.filter _).filter _
  have hsingle : d.glb s t = some g ↔ d.maximal (d.lowerBounds s t) = [g] := by
    rw [glb, if_neg hst, if_neg hts]
    split
    · next u hu => simp [hu]
    · next hne => simpa using hne g
  rw [hsingle]
  constructor
  · intro heq u
    rw [← h.mem_maximal hst hts, heq, List.mem_singleton]
  · intro hunique
    refine List.perm_singleton.mp ((List.perm_ext_iff_of_nodup hnodup (List.nodup_singleton g)).mpr ?_)
    exact fun u => by rw [h.mem_maximal hst hts, hunique, List.mem_singleton]

/-- In a partial order the lower bound of two sorts is their greatest common subsort. -/
theorem Lawful.glb_eq_some_iff (h : d.Lawful) : d.glb s t = some g ↔ d.GreatestCommon s t g := by
  by_cases hst : d.le s t = true
  · rw [h.greatestCommon_iff_of_le hst, glb, if_pos hst, Option.some.injEq]
  · by_cases hts : d.le t s = true
    · rw [GreatestCommon.comm, h.greatestCommon_iff_of_le hts, glb, if_neg hst, if_pos hts,
        Option.some.injEq]
    · rw [h.toWellFormed.glb_eq_some_iff hst hts, h.greatestCommon_iff_of_incomparable hst hts]

lemma Lawful.glb_eq_none_iff (h : d.Lawful) :
    d.glb s t = none ↔ ¬ ∃ g, d.GreatestCommon s t g := by
  simp only [Option.eq_none_iff_forall_ne_some, ne_eq, h.glb_eq_some_iff, not_exists]

/-- Declarations without a cycle through different sorts give a partial order, in whatever order the
table of the known sorts lists them. -/
lemma lawful_declareAll (htop : ∀ p ∈ declarations, p.1 = .top → p.2 = .top)
    (hcycle : ∀ s t, Chain declarations s t → Chain declarations t s → s = t)
    {table : List SortName} (htable : table.Perm (builtin.declareAll declarations).known) :
    Lawful ⟨table, (builtin.declareAll declarations).pairs⟩ where
  nodup := htable.nodup_iff.mpr (wellFormed_builtin.declareAll declarations).nodup
  known p hp := htable.mem_iff.mpr ((wellFormed_builtin.declareAll declarations).known p hp)
  trans := le_declareAll_trans htop
  antisymm {s t} hst hts := by
    rcases (le_iff_chain htop).mp hst with rfl | rfl | hst
    · rfl
    · rcases (le_iff_chain htop).mp hts with rfl | rfl | hts
      · rfl
      · rfl
      · exact eq_top_of_chain htop hts
    · rcases (le_iff_chain htop).mp hts with rfl | rfl | hts
      · rfl
      · exact (eq_top_of_chain htop hst).symm
      · exact hcycle s t hst hts

/-- After declarations without a cycle none of which puts the top sort below another sort, the lower
bound of two sorts, declared or not, is the greatest of the sorts below both, and there is none where
there is no greatest one. The order in which the table lists the known sorts does not count. -/
theorem glb_declareAll_iff (htop : ∀ p ∈ declarations, p.1 = .top → p.2 = .top)
    (hcycle : ∀ s t, Chain declarations s t → Chain declarations t s → s = t)
    {table : List SortName} (htable : table.Perm (builtin.declareAll declarations).known) :
    let d : Subsorts := ⟨table, (builtin.declareAll declarations).pairs⟩
    (∀ s t g, d.glb s t = some g ↔ d.GreatestCommon s t g) ∧
      ∀ s t, d.glb s t = none ↔ ¬ ∃ g, d.GreatestCommon s t g := by
  intro d
  have h : d.Lawful := lawful_declareAll htop hcycle htable
  exact ⟨fun _ _ _ => h.glb_eq_some_iff, fun _ _ => h.glb_eq_none_iff⟩

/-- Two sorts with one declared subsort in common, and two others with two of them. -/
theorem glb_declareAll_iff_diamond :
    let sort (name : String) : SortName := ⟨name⟩
    let declarations : List (SortName × SortName) := [(sort "Lit", sort "Exp"), (sort "Lit", sort "Val"),
      (sort "A", sort "C"), (sort "A", sort "D"), (sort "B", sort "C"), (sort "B", sort "D")]
    let d : Subsorts := ⟨(builtin.declareAll declarations).known.reverse,
      (builtin.declareAll declarations).pairs⟩
    (∀ p ∈ declarations, p.1 = .top → p.2 = .top) ∧
      (∀ s t, Chain declarations s t → Chain declarations t s → s = t) ∧
      d.GreatestCommon (sort "Exp") (sort "Val") (sort "Lit") ∧
      ¬ ∃ g, d.GreatestCommon (sort "C") (sort "D") g := by
  intro sort declarations d
  have htop : ∀ p ∈ declarations, p.1 = .top → p.2 = .top := by decide
  -- no sort is declared both below and above another one
  have hlow : ∀ {s t}, Chain declarations s t → s ∈ declarations.map (·.1) := by
    intro s t h
    obtain ⟨u, hu, -⟩ := TransGen.head'_iff.mp h
    exact List.mem_map_of_mem hu
  have hhigh : ∀ {s t}, Chain declarations s t → t ∈ declarations.map (·.2) := by
    intro s t h
    obtain ⟨u, -, hu⟩ := TransGen.tail'_iff.mp h
    exact List.mem_map_of_mem hu
  have hapart : ∀ s ∈ declarations.map (·.1), s ∉ declarations.map (·.2) := by decide
  have hcycle : ∀ s t, Chain declarations s t → Chain declarations t s → s = t :=
    fun s t hst hts => absurd (hhigh hts) (hapart s (hlow hst))
  obtain ⟨hsome, hnone⟩ := glb_declareAll_iff htop hcycle (List.reverse_perm _)
  exact ⟨htop, hcycle, (hsome _ _ _).mp (by decide), (hnone _ _).mp (by decide)⟩

end SolvedForm.Subsorts

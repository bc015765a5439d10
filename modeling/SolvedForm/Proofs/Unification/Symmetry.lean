import Mathlib
import SolvedForm.Proofs.CommonSubsort
import SolvedForm.Proofs.Term.Keyed
import SolvedForm.Proofs.Term.Renaming
import SolvedForm.Proofs.Unification.Counting

/-!
Unification from either side.

* `Term.headsClash_comm`, `Term.provablyDistinct_comm`: the tests for distinctness do not see which
  side is which.
* `Decomposition.Progress.Level`, `Decomposition.Mirror`: findings with as many alternatives, and runs
  that both fail or both end with such findings.
* `Decomposition.decomposeEntries_eq`: the values under common keys are decomposed one after the other.
* `Decomposition.mirror_settle`: what is left over between two maps is settled alike from either side.
* `Decomposition.mirror_decompose`: so is every equation between terms without repeated keys.
* `Unifier.structural_swap`: the unifier fails on both equations or on none, and makes as many
  alternatives of the one as of the other.
-/

namespace SolvedForm

open Term

variable {s t : Term} {ss ts : List Term} {es fs : List Entry} {x y : Option Var}

/-! ### Distinctness -/

namespace Term

lemma Head.clash_comm (a b : Head) : a.clash b = b.clash a := by
  cases a with
  | map m =>
      cases b with
      | map n =>
          cases m <;> cases n <;> simp only [Head.clash]
          exact bne_comm
      | bool | int | constructor => simp [Head.clash]
  | bool | int | constructor =>
      cases b <;> simp only [Head.clash, ne_eq, eq_comm]

lemma headsClash_comm (s t : Term) : s.headsClash t = t.headsClash s := by
  unfold headsClash
  cases s.head with
  | none => cases t.head <;> rfl
  | some a =>
      cases t.head with
      | none => rfl
      | some b => exact a.clash_comm b

lemma someDistinct_comm (ih : ∀ s ∈ ss, ∀ t, provablyDistinct s t = provablyDistinct t s) :
    someDistinct ss ts = someDistinct ts ss := by
  induction ss generalizing ts with
  | nil => cases ts <;> rfl
  | cons s ss ihs =>
      cases ts with
      | nil => rfl
      | cons t ts =>
          rw [List.forall_mem_cons] at ih
          rw [someDistinct, someDistinct, ih.1 t, ihs ih.2]

theorem provablyDistinct_comm (s t : Term) : s.provablyDistinct t = t.provablyDistinct s := by
  induction s using Term.ind generalizing t with
  | app f ss ih =>
      cases t with
      | app g ts =>
          rw [provablyDistinct, provablyDistinct, headsClash_comm, someDistinct_comm ih,
            Bool.and_comm f.isConstructor]
      | var | bool | int | map | lookup =>
          rw [provablyDistinct_eq_headsClash (.inr rfl), provablyDistinct_eq_headsClash (.inl rfl),
            headsClash_comm]
  | var | bool | int | map | lookup =>
      rw [provablyDistinct_eq_headsClash (.inl rfl), provablyDistinct_eq_headsClash (.inr rfl),
        headsClash_comm]

end Term

namespace Decomposition

variable {order : SortOrder} {fold : Bool} {frames : Var → Prop} {p q : Progress} {z w : Var}
  {e d : Equation} {run run' next next' : Progress → Except Stuck Progress}

lemma ambiguous_comm (es fs : List Entry) : ambiguous es fs = ambiguous fs es := by
  unfold ambiguous
  rw [Bool.eq_iff_iff]
  simp only [List.any_eq_true]
  exact ⟨fun ⟨e, he, f, hf, h⟩ => ⟨f, hf, e, he, provablyDistinct_comm f.1 e.1 ▸ h⟩,
    fun ⟨f, hf, e, he, h⟩ => ⟨e, he, f, hf, provablyDistinct_comm e.1 f.1 ▸ h⟩⟩

lemma sizesDiffer_comm (es : List Entry) (x : Option Var) (fs : List Entry) (y : Option Var) :
    sizesDiffer es x fs y = sizesDiffer fs y es x := by
  unfold sizesDiffer
  rw [Bool.and_comm x.isNone, bne_comm]

/-! ### Runs -/

/-- As many alternatives have been found. The next fresh frame is the same, or not among given ones
from there on. -/
structure Progress.Level (frames : Var → Prop) (p q : Progress) : Prop where
  alternatives : p.alternatives.map List.length = q.alternatives.map List.length
  supply : p.supply = q.supply ∨ ∀ k, frames (.fresh k .map) → k < p.supply ∧ k < q.supply

/-- Both runs fail, or they end with as many alternatives. -/
inductive Mirrored (frames : Var → Prop) :
    Except Stuck Progress → Except Stuck Progress → Prop where
  | ok {p q : Progress} : p.Level frames q → Mirrored frames (.ok p) (.ok q)
  | error (stuck stuck' : Stuck) : Mirrored frames (.error stuck) (.error stuck')

/-- From findings with as many alternatives, both runs fail or they come to such findings again. -/
def Mirror (frames : Var → Prop) (run run' : Progress → Except Stuck Progress) : Prop :=
  ∀ ⦃p q⦄, p.Level frames q → Mirrored frames (run p) (run' q)

lemma mirror_ok : Mirror frames .ok .ok := fun _ _ h => .ok h

lemma mirror_fail (failure failure' : Unification.Failure) :
    Mirror frames (·.fail failure) (·.fail failure') := fun _ _ _ => .error _ _

lemma mirror_push (qs qs' : List Equation) :
    Mirror frames (fun p => .ok (p.push qs)) (fun p => .ok (p.push qs')) :=
  fun _ _ h => .ok ⟨h.alternatives, h.supply⟩

lemma Mirrored.bind {r r' : Except Stuck Progress} (h : Mirrored frames r r')
    (hnext : Mirror frames next next') : Mirrored frames (r >>= next) (r' >>= next') := by
  cases h with
  | ok h => exact hnext h
  | error stuck stuck' => exact .error stuck stuck'

lemma Mirror.bind (h : Mirror frames run run') (hnext : Mirror frames next next') :
    Mirror frames (fun p => run p >>= next) (fun p => run' p >>= next') :=
  fun _ _ hpq => (h hpq).bind hnext

/-- One step after the other, for each member of a list. -/
lemma mirror_foldlM {α : Type} {cs : List α} {step step' : α → Progress → Except Stuck Progress}
    (h : ∀ c ∈ cs, Mirror frames (step c) (step' c)) :
    Mirror frames (fun p => cs.foldlM (fun p c => step c p) p)
      (fun p => cs.foldlM (fun p c => step' c p) p) := by
  induction cs with
  | nil => exact mirror_ok
  | cons c cs ih =>
      rw [List.forall_mem_cons] at h
      simp only [List.foldlM_cons]
      exact h.1.bind (ih h.2)

/-! ### Equations that are not decomposed -/

/-- An equation between a variable and a term is kept. -/
def admits (order : SortOrder) (z : Var) (t : Term) : Bool :=
  order.compatible z.sort t.sort && !occursRigidly z t

lemma equateVar_of_admits (h : admits order z t = true) :
    equateVar order z t e = fun p => .ok (p.push [e]) := by
  funext p
  rw [admits, Bool.and_eq_true, Bool.not_eq_true'] at h
  rw [equateVar, h.1, h.2]
  rfl

lemma exists_fail_of_not_admits (h : admits order z t = false) :
    ∃ failure, equateVar order z t e = (·.fail failure) := by
  unfold equateVar
  cases hc : order.compatible z.sort t.sort with
  | false => exact ⟨_, rfl⟩
  | true =>
      rw [admits, hc, Bool.true_and, Bool.not_eq_false'] at h
      rw [h]
      exact ⟨_, rfl⟩

lemma mirror_equateVar (h : admits order z s = admits order w t) :
    Mirror frames (equateVar order z s e) (equateVar order w t d) := by
  cases hs : admits order z s with
  | true =>
      rw [equateVar_of_admits hs, equateVar_of_admits (h.symm.trans hs)]
      exact mirror_push _ _
  | false =>
      obtain ⟨failure, heq⟩ := exists_fail_of_not_admits (e := e) hs
      obtain ⟨failure', heq'⟩ := exists_fail_of_not_admits (e := d) (h.symm.trans hs)
      rw [heq, heq']
      exact mirror_fail _ _

lemma mirror_keep (h : e.left.headsClash e.right = d.left.headsClash d.right) :
    Mirror frames (keep e) (keep d) := by
  unfold keep
  rw [h]
  split_ifs
  · exact mirror_fail _ _
  · exact mirror_push _ _

/-! ### The entries left over between two maps -/

/-- The search finds as many pairings from either side. -/
lemma length_firstN_swap (n : Nat) (h : es.length = fs.length) :
    (Pairing.firstN n es fs).length = (Pairing.firstN n fs es).length := by
  have hfits : (fun f e => Pairing.mayMatch e f) = Pairing.mayMatch := by
    funext f e
    rw [Pairing.mayMatch, Pairing.mayMatch, provablyDistinct_comm]
  rw [Pairing.length_firstN, Pairing.length_firstN, Pairing.count_swap _ h, hfits]

/-- From either side the leftovers are refused, joined, folded or left alone. -/
lemma mirror_settleAmbiguous (s t : Term) (es : List Entry) (x : Option Var) (fs : List Entry)
    (y : Option Var) :
    Mirror frames (settleAmbiguous fold s es x fs y) (settleAmbiguous fold t fs y es x) := by
  intro p q h
  have halternatives : p.alternatives.isNone = q.alternatives.isNone := by
    rw [← Option.isNone_map (f := List.length), h.alternatives, Option.isNone_map]
  have hfoldable : (fold && p.alternatives.isNone && x.isNone && y.isNone &&
      es.length == fs.length) =
      (fold && q.alternatives.isNone && y.isNone && x.isNone && fs.length == es.length) := by
    rw [halternatives, Bool.and_right_comm _ x.isNone, BEq.comm (a := es.length)]
  rw [settleAmbiguous_eq, settleAmbiguous_eq, hfoldable]
  split
  · exact mirror_push _ _ h
  · next hf =>
      have hlength : es.length = fs.length := by
        simp only [Bool.not_eq_true', Bool.not_eq_false, Bool.and_eq_true, beq_iff_eq] at hf
        exact hf.2.symm
      have hfound := length_firstN_swap (maxAlternatives + 1) hlength
      generalize Pairing.firstN (maxAlternatives + 1) es fs = found at hfound ⊢
      generalize Pairing.firstN (maxAlternatives + 1) fs es = found' at hfound ⊢
      match found, found', hfound with
      | [], [], _ => exact .error _ _
      | [only], [only'], _ => exact mirror_push _ _ h
      | _ :: _ :: _, _ :: _ :: _, hfound =>
          simp only [hfound]
          split
          · exact mirror_push _ _ h
          · exact .ok ⟨congrArg some hfound, h.supply⟩

/-- Which variable frames a map counts only where it is the one in question. -/
lemma admits_ofEntries_congr {v : Var} (h : v = z ↔ w = z) :
    admits order z (.ofEntries es (some v)) = admits order z (.ofEntries es (some w)) := by
  have hframe : decide (some v = some z) = decide (some w = some z) :=
    decide_eq_decide.mpr (by simpa using h)
  unfold admits Term.ofEntries
  rw [occursRigidly, occursRigidly, hframe]
  rfl

lemma admits_var_comm (hcompatible : ∀ s t, order.compatible s t = order.compatible t s) :
    admits order z (.var w) = admits order w (.var z) := by
  have hsame : decide (w = z) = decide (z = w) := decide_eq_decide.mpr eq_comm
  unfold admits
  rw [occursRigidly, occursRigidly, hsame, Term.sort, Term.sort, hcompatible]

/-- Two equations between variables and terms may change places. -/
lemma mirror_crossed {s' t' : Term} {e' d' : Equation} (hz : admits order z s = admits order z s')
    (hw : admits order w t = admits order w t') :
    Mirror frames (fun p => equateVar order z s e p >>= equateVar order w t d)
      (fun p => equateVar order w t' d' p >>= equateVar order z s' e') := by
  intro p q h
  cases hs : admits order z s with
  | true =>
      rw [equateVar_of_admits hs, equateVar_of_admits (hz.symm.trans hs)]
      cases ht : admits order w t with
      | true =>
          rw [equateVar_of_admits ht, equateVar_of_admits (hw.symm.trans ht)]
          exact .ok ⟨h.alternatives, h.supply⟩
      | false =>
          obtain ⟨failure, hd⟩ := exists_fail_of_not_admits (e := d) ht
          obtain ⟨failure', hd'⟩ := exists_fail_of_not_admits (e := d') (hw.symm.trans ht)
          rw [hd, hd']
          exact .error _ _
  | false =>
      obtain ⟨failure, he⟩ := exists_fail_of_not_admits (e := e) hs
      obtain ⟨failure', he'⟩ := exists_fail_of_not_admits (e := e') (hz.symm.trans hs)
      rw [he, he']
      change Mirrored frames (.error _) (equateVar order w t' d' q >>= (·.fail failure'))
      cases equateVar order w t' d' q with
      | error stuck => exact .error _ _
      | ok q => exact .error _ _

/-- From either side the leftovers go to the frames, which share a fresh one where both have some. -/
lemma mirror_settleRest (hcompatible : ∀ s t, order.compatible s t = order.compatible t s)
    (hx : ∀ z, x = some z → frames z) (hy : ∀ z, y = some z → frames z) (s t s' t' : Term) :
    Mirror frames (settleRest order s t es x fs y) (settleRest order s' t' fs y es x) := by
  rcases x with _ | x <;> rcases y with _ | y
  · cases es <;> cases fs <;> first | exact mirror_fail _ _ | exact mirror_ok
  · cases fs with
    | cons => exact mirror_fail _ _
    | nil => exact mirror_equateVar rfl
  · cases es with
    | cons => exact mirror_fail _ _
    | nil => exact mirror_equateVar rfl
  · unfold settleRest
    by_cases hxy : x = y
    · simp only [hxy, ↓reduceIte]
      cases es <;> cases fs <;> first | exact mirror_fail _ _ | exact mirror_ok
    · simp only [hxy, Ne.symm hxy, ↓reduceIte]
      cases es with
      | nil =>
          cases fs with
          | nil => exact mirror_equateVar (admits_var_comm hcompatible)
          | cons => exact mirror_equateVar rfl
      | cons e es =>
          cases fs with
          | nil => exact mirror_equateVar rfl
          | cons f fs =>
              intro p q h
              -- the fresh frames are the same, or neither is one of the two frames
              have hfresh : ∀ z, frames z →
                  (Var.fresh p.supply .map = z ↔ Var.fresh q.supply .map = z) := by
                intro z hz
                rcases h.supply with heq | hlt
                · rw [heq]
                · constructor <;> rintro rfl
                  · exact absurd (hlt _ hz).1 (Nat.lt_irrefl _)
                  · exact absurd (hlt _ hz).2 (Nat.lt_irrefl _)
              exact mirror_crossed (admits_ofEntries_congr (hfresh x (hx x rfl)))
                (admits_ofEntries_congr (hfresh y (hy y rfl)))
                ⟨h.alternatives, h.supply.imp (congrArg (· + 1)) fun hlt k hk =>
                  ⟨Nat.lt_succ_of_lt (hlt k hk).1, Nat.lt_succ_of_lt (hlt k hk).2⟩⟩

lemma mirror_settle (hcompatible : ∀ s t, order.compatible s t = order.compatible t s)
    (hx : ∀ z, x = some z → frames z) (hy : ∀ z, y = some z → frames z) (s t s' t' : Term) :
    Mirror frames (settle order fold s t es x fs y) (settle order fold s' t' fs y es x) := by
  unfold settle
  rw [ambiguous_comm es fs]
  split
  · exact mirror_settleAmbiguous t t' es x fs y
  · exact mirror_settleRest hcompatible hx hy s t s' t'

/-! ### Decomposition -/

/-- The values under common keys are decomposed, one after the other. -/
lemma decomposeEntries_eq (order : SortOrder) (fold : Bool) (es fs : List Entry) :
    decomposeEntries order fold es fs = fun p =>
      (Entry.shared es fs).foldlM (fun p c => decompose order fold c.2.1 c.2.2 p) p := by
  induction es with
  | nil => rfl
  | cons e es ih =>
      obtain ⟨k, v⟩ := e
      funext p
      rw [decomposeEntries, Entry.shared, List.filterMap_cons, valueAt, ih]
      cases List.lookup k fs with
      | none => rfl
      | some w =>
        simp only [Option.map_some, List.foldlM_cons]
        rfl

/-- The equation between two terms is decomposed alike from either side. -/
abbrev MirrorAt (order : SortOrder) (fold : Bool) (frames : Var → Prop) (s t : Term) : Prop :=
  Mirror frames (decompose order fold s t) (decompose order fold t s)

lemma mirror_decomposeEntries (hes : Entry.KeysIncrease es) (hfs : Entry.KeysIncrease fs)
    (ih : ∀ e ∈ es, ∀ f ∈ fs, MirrorAt order fold frames e.2 f.2) :
    Mirror frames (decomposeEntries order fold es fs) (decomposeEntries order fold fs es) := by
  rw [decomposeEntries_eq, decomposeEntries_eq, Entry.shared_swap hes hfs]
  simp only [List.foldlM_map]
  refine mirror_foldlM fun c hc => ?_
  obtain ⟨he, hf⟩ := (Entry.mem_shared hfs).mp hc
  exact ih _ he (c.1, c.2.2) hf

lemma mirror_decomposeArgs (ih : ∀ s ∈ ss, ∀ t ∈ ts, MirrorAt order fold frames s t) :
    Mirror frames (decomposeArgs order fold ss ts) (decomposeArgs order fold ts ss) := by
  induction ss generalizing ts with
  | nil => cases ts <;> exact mirror_ok
  | cons s ss ihs =>
      cases ts with
      | nil => exact mirror_ok
      | cons t ts =>
          exact (ih s List.mem_cons_self t List.mem_cons_self).bind
            (ihs fun s hs t ht => ih s (List.mem_cons_of_mem _ hs) t (List.mem_cons_of_mem _ ht))

/-- The case of one term, when its arguments and its values have been dealt with. -/
lemma mirrorAt_of_parts (hcompatible : ∀ s t, order.compatible s t = order.compatible t s)
    (hs : s.Keyed) (ht : t.Keyed) (hsf : s.Framed frames) (htf : t.Framed frames)
    (hargs : ∀ f ss, s = .app f ss → ∀ a ∈ ss, ∀ b, b.Keyed → b.Framed frames →
      MirrorAt order fold frames a b)
    (hentries : ∀ es x, s = .map es x → ∀ e ∈ es, ∀ b, b.Keyed → b.Framed frames →
      MirrorAt order fold frames e.2 b) : MirrorAt order fold frames s t := by
  unfold MirrorAt
  rw [funext fun p => decompose.eq_def order fold s t p,
    funext fun p => decompose.eq_def order fold t s p]
  by_cases hst : s = t
  · subst hst
    simp only [↓reduceIte]
    exact mirror_ok
  · simp only [hst, Ne.symm hst, ↓reduceIte]
    have hkeep : Mirror frames (keep ⟨s, t⟩) (keep ⟨t, s⟩) := mirror_keep (headsClash_comm s t)
    cases s <;> cases t <;>
      first
      | exact mirror_equateVar rfl
      | exact mirror_equateVar (admits_var_comm hcompatible)
      | exact hkeep
      | skip
    · next f ss g ts =>
        have hts : ∀ b ∈ ts, b.Framed frames := by
          cases htf with
          | app _ h => exact h
        have hclash : (decide (g.name ≠ f.name) || decide (ts.length ≠ ss.length)) =
            (decide (f.name ≠ g.name) || decide (ss.length ≠ ts.length)) := by
          simp only [ne_comm]
        dsimp only
        rw [Bool.and_comm g.isConstructor, hclash]
        split_ifs
        · exact mirror_fail _ _
        · exact mirror_decomposeArgs fun a ha b hb => hargs f ss rfl a ha b (ht.arg b hb) (hts b hb)
        · exact hkeep
    · next es x fs y =>
        cases hsf with
        | map hx _ _ =>
            cases htf with
            | map hy _ hvalues =>
                dsimp only
                rw [sizesDiffer_comm fs]
                split_ifs
                · exact mirror_fail _ _
                · exact (mirror_decomposeEntries hs.keysIncrease ht.keysIncrease
                    fun e he f hf => hentries es x rfl e he f.2 (ht.entries f hf).2
                      (hvalues f hf)).bind (mirror_settle hcompatible hx hy _ _ _ _)

/-- Between terms without repeated keys every equation is decomposed alike from either side. -/
theorem mirror_decompose (hcompatible : ∀ s t, order.compatible s t = order.compatible t s)
    (hs : s.Keyed) (ht : t.Keyed) (hsf : s.Framed frames) (htf : t.Framed frames) :
    MirrorAt order fold frames s t := by
  induction s using induction_parts generalizing t with
  | step s hargs hentries =>
      refine mirrorAt_of_parts hcompatible hs ht hsf htf ?_ ?_
      · rintro f ss rfl a ha b hb hbf
        cases hsf with
        | app _ h => exact hargs f ss rfl a ha (hs.arg a ha) hb (h a ha) hbf
      · rintro es x rfl e he b hb hbf
        cases hsf with
        | map _ _ h => exact hentries es x rfl e he (hs.entries e he).2 hb (h e he) hbf

/-- The answer is a disjunction where alternatives have been found. -/
lemma Progress.answer_disjunction_iff {k : Nat} :
    (∃ common as, p.answer = .disjunction common as ∧ as.length = k) ↔
      p.alternatives.map List.length = some k := by
  unfold Progress.answer
  cases p.alternatives with
  | none => simp
  | some as => simp

end Decomposition

/-! ### The unifier -/

/-- Whatever is declared and whether or not map equations may be folded: between terms without repeated
keys, unification fails on an equation if and only if it fails on the equation with its sides changed,
and where the one answer is a disjunction so is the other, with as many alternatives. The numbers for
fresh frames may differ where none of the terms' variables is still to be drawn. -/
theorem Unifier.structural_swap (declarations : List (SortName × SortName)) (fold : Bool)
    {l r : Term} (hl : l.Keyed) (hr : r.Keyed) {n m : Nat}
    (hfresh : n = m ∨ ∀ k, Var.fresh k .map ∈ l.vars ∨ Var.fresh k .map ∈ r.vars → k < n ∧ k < m) :
    let unify := Unifier.structural (Subsorts.builtin.declareAll declarations).order fold
    let answer := (unify ⟨l, r⟩ n).1
    let swapped := (unify ⟨r, l⟩ m).1
    ((∃ a, answer = .ok a) ↔ ∃ a, swapped = .ok a) ∧
      ∀ k, (∃ common as, answer = .ok (.disjunction common as) ∧ as.length = k) ↔
        ∃ common as, swapped = .ok (.disjunction common as) ∧ as.length = k := by
  intro unify answer swapped
  have hd := Subsorts.wellFormed_builtin.declareAll declarations
  have hrun : Decomposition.MirrorAt _ fold (fun x => x ∈ l.vars ∨ x ∈ r.vars) l r :=
    Decomposition.mirror_decompose (fun _ _ => hd.compatible_comm) hl hr
      (framed_of_vars fun _ => .inl) (framed_of_vars fun _ => .inr)
  have hmirrored := @hrun ⟨[], none, n⟩ ⟨[], none, m⟩ ⟨rfl, hfresh⟩
  simp only [answer, swapped, unify, Unifier.structural]
  generalize Decomposition.decompose _ fold l r _ = run at hmirrored ⊢
  generalize Decomposition.decompose _ fold r l _ = run' at hmirrored ⊢
  cases hmirrored with
  | error stuck stuck' => simp
  | ok hlevel =>
      simp only [Except.ok.injEq, exists_eq', Decomposition.Progress.answer_disjunction_iff,
        hlevel.alternatives, implies_true, and_self]

/-- Two maps with symbolic keys and with literal ones, beside two maps whose frames share a fresh one:
there are two alternatives from either side. -/
theorem Unifier.structural_swap_pairings :
    let x : Term := .var ⟨"X", .int, false, none⟩
    let y : Term := .var ⟨"Y", .int, false, none⟩
    let frame (name : String) : Option Var := some ⟨name, .map, false, none⟩
    let pair (s t : Term) : Term := .app ⟨"pair", 2, none, .constructor⟩ [s, t]
    let l : Term := pair (.map [(x, .int 1), (y, .int 2)] none) (.map [(.int 1, x)] (frame "L"))
    let r : Term := pair (.map [(.int 5, .int 1), (.int 6, .int 2)] none)
      (.map [(.int 2, y)] (frame "R"))
    let order := (Subsorts.builtin.declareAll [(⟨"Nat"⟩, .int)]).order
    l.Keyed ∧ r.Keyed ∧
      (∃ common as, (Unifier.structural order true ⟨l, r⟩ 0).1 = .ok (.disjunction common as) ∧
        as.length = 2) ∧
      ∃ common as, (Unifier.structural order true ⟨r, l⟩ 1).1 = .ok (.disjunction common as) ∧
        as.length = 2 := by
  intro x y frame pair l r order
  have hpair : ∀ {s t : Term}, s.Keyed → t.Keyed → (pair s t).Keyed := fun hs ht =>
    .app _ (by simpa using ⟨hs, ht⟩)
  have hl : l.Keyed := hpair
    (.map _ (by decide) (by simpa using ⟨.var _, .var _⟩) (by simpa using ⟨.int _, .int _⟩))
    (.map _ (by decide) (by simpa using .int _) (by simpa using .var _))
  have hr : r.Keyed := hpair
    (.map _ (by decide) (by simpa using ⟨.int _, .int _⟩) (by simpa using ⟨.int _, .int _⟩))
    (.map _ (by decide) (by simpa using .int _) (by simpa using .var _))
  have hnamed : ∀ z ∈ l.vars ++ r.vars, z.anonymous = false := by decide
  have hfresh : ∀ k, Var.fresh k .map ∈ l.vars ∨ Var.fresh k .map ∈ r.vars → k < 0 ∧ k < 1 :=
    fun k hk => absurd (hnamed _ (List.mem_append.mpr hk)) (by simp [Var.fresh])
  have hrun : ∃ common as,
      (Unifier.structural order true ⟨l, r⟩ 0).1 = .ok (.disjunction common as) ∧ as.length = 2 :=
    ⟨[⟨.var ⟨"L", .map, false, none⟩, .map [(.int 2, y)] (some (.fresh 0 .map))⟩,
        ⟨.map [(.int 1, x)] (some (.fresh 0 .map)), .var ⟨"R", .map, false, none⟩⟩],
      [[⟨x, .int 5⟩, ⟨y, .int 6⟩], [⟨x, .int 6⟩, ⟨.int 1, .int 2⟩, ⟨y, .int 5⟩, ⟨.int 2, .int 1⟩]],
      by cbv, rfl⟩
  exact ⟨hl, hr, hrun, ((structural_swap [(⟨"Nat"⟩, .int)] true hl hr (.inr hfresh)).2 2).mp hrun⟩

end SolvedForm

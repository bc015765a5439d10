import SolvedForm.Proofs.Constraint.AtRest
import SolvedForm.Proofs.Constraint.Equivariance

/-!
The alternatives of a renamed constraint.

* `Constraint.Concerns`: the variables of a constraint and of its alternatives.
* `Constraint.Follows`, `Constraint.renamesTo_rename`: renaming a constraint between terms that
  evaluation treats alike, with nothing in its buffer, gives the constraint under other names.
* `Constraint.Supplies`, `Constraint.RenamesTo.conjoin`: an alternative joins the one constraint as its
  renaming joins the other.
* `Constraint.RenamesTo.alternatives`: the alternatives of the second constraint are those of the
  first under other names.
* `Constraint.Derived.alternatives_rename`: the alternatives of a constraint that is renamed together
  with its disjunctions are the renamed alternatives; `Constraint.rename` itself leaves the
  disjunctions alone, and gives the same where it has nothing to rename in them.
* `Constraint.alternatives_rename_pending`, `Constraint.alternatives_rename_reordered`: other runs,
  in which a variable of the disjunctions is renamed, or the order of two keys is turned round.
-/

namespace SolvedForm.Constraint

open Term

variable {order : SortOrder} {ρ : Var → Var} {S : Var → Prop} {a b c d : Constraint}
  {cs ds cs' ds' : List Constraint} {D D' : List (List Constraint)} {A : Constraint → Prop} {x : Var}
  {fuel n : Nat}

/-! ### The terms of a constraint -/

/-- The variable occurs in the constraint or in one of its alternatives. -/
def Concerns (c : Constraint) (x : Var) : Prop :=
  c.Mentions x ∨ ∃ D ∈ c.pending, ∃ a ∈ D, a.Mentions x

/-- There is no map in the constraint. -/
def MapFree (c : Constraint) : Prop :=
  (∀ b ∈ c.store.toList, b.2.MapFree) ∧
    ∀ e ∈ c.equations.toList, e.left.MapFree ∧ e.right.MapFree

/-- The constraint is over a class of variables, and evaluation treats its terms alike. -/
structure Follows (ρ : Var → Var) (S : Var → Prop) (c : Constraint) : Prop where
  store : ∀ b ∈ c.store.toList, S b.1 ∧ b.2.Follows ρ S
  equations : ∀ e ∈ c.equations.toList, e.Follows ρ S

lemma Stored.follows (h : c.Stored Canonical A) (hS : ∀ x, c.Mentions x → S x)
    (hmaps : KeepsOrder ρ S ∨ c.MapFree) : c.Follows ρ S where
  store b hb := ⟨hS b.1 (.inl ⟨b, hb, .inl rfl⟩), ⟨h.store b hb, fun x hx =>
    hS x (.inl ⟨b, hb, .inr hx⟩)⟩, hmaps.symm.imp_left fun hm => hm.1 b hb⟩
  equations e he :=
    ⟨⟨⟨(h.equations e he).1, fun x hx => hS x (.inr ⟨e, he, .inl hx⟩)⟩,
      hmaps.symm.imp_left fun hm => (hm.2 e he).1⟩,
    ⟨(h.equations e he).2, fun x hx => hS x (.inr ⟨e, he, .inr hx⟩)⟩,
      hmaps.symm.imp_left fun hm => (hm.2 e he).2⟩

/-- What such a constraint gives to another one is treated alike as well. -/
lemma Follows.content (h : c.Follows ρ S) :
    ∀ e ∈ c.content (.standard order), e.Follows ρ S := by
  intro e he
  rcases List.mem_append.mp he with he | he
  · obtain ⟨q, hq, he⟩ := List.mem_flatMap.mp he
    obtain ⟨b, hb, rfl⟩ := List.mem_map.mp hq
    exact Equation.follows_obligations ⟨.var (h.store b hb).1, (h.store b hb).2⟩ e he
  · exact h.equations e he

/-- The second alternative gives to a constraint what the first one gives, under other names. -/
structure Supplies (order : SortOrder) (ρ : Var → Var) (S : Var → Prop) (a a' : Constraint) :
    Prop where
  follows : ∀ e ∈ a.content (.standard order), e.Follows ρ S
  content : a'.content (.standard order) =
    (a.content (.standard order)).map (·.map (Term.rename ρ))
  contradiction : a'.contradiction = a.contradiction
  pending : a'.pending = a.pending

namespace RenamesTo

lemma conjoin {a' : Constraint} (h : c.RenamesTo ρ S d) (hρ : Term.Renaming ρ S)
    (ha : a.Supplies order ρ S a') :
    (c.conjoin (.standard order) a).RenamesTo ρ S (d.conjoin (.standard order) a') := by
  have hinsert := h.foldl_insertEquation hρ ha.follows
  rw [← ha.content] at hinsert
  unfold Constraint.conjoin
  rw [h.isFalse, ha.contradiction, ha.pending]
  split
  · exact h
  · cases a.contradiction with
    | some e => exact h.falsify e e
    | none =>
        dsimp only
        unfold addPending
        split
        · exact hinsert
        · exact ⟨hinsert.equations, hinsert.buffer, hinsert.store, rfl, rfl, hinsert.guarded,
            congrArg (· ++ a.pending) hinsert.pending⟩

/-- An alternative joins the constraint, and the whole is simplified. -/
lemma extend {a' : Constraint} (h : c.RenamesTo ρ S d) (hρ : Term.Renaming ρ S)
    (ha : a.Supplies order ρ S a') :
    Engine.Leads (Constraint.RenamesTo ρ S) n
      (do let e ← c.addConstraint (.standard order) a; e.simplify (.standard order) fuel false)
      (do let e ← d.addConstraint (.standard order) a'; e.simplify (.standard order) fuel false) := by
  intro b hb
  obtain ⟨e, he, hb⟩ := Engine.lift_bind_eq_ok.mp hb
  obtain ⟨e', he', hee⟩ := (h.conjoin hρ ha).normalize hρ he
  obtain ⟨b', hb', hbb⟩ := hee.simplifySince hρ .none hb
  exact ⟨b', Engine.lift_bind_eq_ok.mpr ⟨e', he', hb'⟩, hbb⟩

lemma extendBy (hcs : List.Forall₂ (Constraint.RenamesTo ρ S) cs cs') (hρ : Term.Renaming ρ S)
    (hds : List.Forall₂ (Supplies order ρ S) ds ds') :
    Engine.Leads (List.Forall₂ (Constraint.RenamesTo ρ S)) n
      (extendBy (.standard order) fuel cs ds) (extendBy (.standard order) fuel cs' ds') := by
  have ascends : ∀ c a : Constraint, Engine.Ascends (do
      let e ← c.addConstraint (.standard order) a
      e.simplify (.standard order) fuel false) :=
    ascends_extend (Unifier.ascends_structural order) fuel
  have hrow : ∀ c c', Constraint.RenamesTo ρ S c c' →
      Engine.Leads (List.Forall₂ (Constraint.RenamesTo ρ S)) n
        (ds.mapM fun a => do
          let e ← c.addConstraint (.standard order) a
          e.simplify (.standard order) fuel false)
        (ds'.mapM fun a => do
          let e ← c'.addConstraint (.standard order) a
          e.simplify (.standard order) fuel false) := fun c c' h =>
    Engine.leads_mapM hds (ascends c) fun _ _ _ ha => h.extend hρ ha
  refine (Engine.leads_mapM hcs (fun c => Engine.ascends_mapM (ascends c) ds)
    fun c _ c' h => hrow c c' h).bind ?_ (fun rows => Engine.ascends_pure _)
    fun rows rows' h => Engine.leads_pure ?_
  · exact Engine.ascends_mapM (fun c => Engine.ascends_mapM (ascends c) ds) cs
  · refine List.rel_filter (fun c d h => ?_) (List.rel_flatten h)
    simp [h.isFalse]

lemma foldlM_extendBy (hcs : List.Forall₂ (Constraint.RenamesTo ρ S) cs cs')
    (hρ : Term.Renaming ρ S) (hD : List.Forall₂ (List.Forall₂ (Supplies order ρ S)) D D') :
    Engine.Leads (List.Forall₂ (Constraint.RenamesTo ρ S)) n
      (D.foldlM (Constraint.extendBy (.standard order) fuel) cs)
      (D'.foldlM (Constraint.extendBy (.standard order) fuel) cs') := by
  have hT := Unifier.ascends_structural order
  induction hD generalizing cs cs' with
  | nil => exact Engine.leads_pure hcs
  | @cons ds ds' D D' hds _ ih =>
      rw [List.foldlM_cons, List.foldlM_cons]
      exact (extendBy hcs hρ hds).bind (ascends_extendBy hT fuel cs ds)
        (ascends_foldlM_extendBy hT fuel D) fun _ _ h => ih h

/-- The alternatives of a constraint under other names, its disjunctions included, are its alternatives
under other names. -/
theorem alternatives (h : c.RenamesTo ρ S d) (hρ : Term.Renaming ρ S)
    (hD : List.Forall₂ (List.Forall₂ (Supplies order ρ S)) c.pending D) :
    Engine.Leads (List.Forall₂ (Constraint.RenamesTo ρ S)) n
      (c.alternatives (.standard order) fuel)
      (({ d with pending := D } : Constraint).alternatives (.standard order) fuel) := by
  have hnil : D = [] ↔ c.pending = [] := by
    rw [← List.length_eq_zero_iff, ← hD.length_eq, List.length_eq_zero_iff]
  unfold Constraint.alternatives
  by_cases hpending : c.pending = []
  · rw [if_pos (by simp [hpending]), if_pos (by simp [hnil.mpr hpending])]
    refine Engine.leads_pure (.cons ⟨h.equations, h.buffer, h.store, h.truth, h.normal, h.guarded,
      ?_⟩ .nil)
    rw [hnil.mpr hpending, hpending]
  · rw [if_neg (by simp [hpending]), if_neg (by simp [mt hnil.mp hpending])]
    have hbase : ({ c with pending := [], normal := false }).RenamesTo ρ S
        { d with pending := [], normal := false } :=
      ⟨h.equations, h.buffer, h.store, h.truth, rfl, h.guarded, rfl⟩
    intro as has
    obtain ⟨b, hb, has⟩ := Engine.lift_bind_eq_ok.mp has
    obtain ⟨b', hb', hbb⟩ := hbase.normalize hρ hb
    obtain ⟨as', has', h⟩ := foldlM_extendBy (.cons hbb .nil) hρ hD as has
    exact ⟨as', Engine.lift_bind_eq_ok.mpr ⟨b', hb', has'⟩, h⟩

end RenamesTo

/-! ### Two truth values -/

/-- A variable with a given name. -/
def named (name : String) (s : SortName) : Var := ⟨name, s, false, none⟩

/-- The variables with these names get other names. -/
def relabel (names : List String) (v : Var) : Var :=
  if v.name ∈ names then { v with name := v.name ++ "1" } else v

lemma renaming_relabel {names : List String} {vs : List Var} (hS : ∀ {x}, S x → x ∈ vs)
    (h : ∀ v ∈ vs, ∀ w ∈ vs, relabel names v = relabel names w → v = w) :
    Term.Renaming (relabel names) S where
  injective hx hy := h _ (hS hx) _ (hS hy)
  sort _ := by
    unfold relabel
    split <;> rfl
  anonymous _ := by
    unfold relabel
    split <;> rfl

/-- Truth values for two variables. -/
def picked (a b : Bool) : Constraint :=
  { store := .ofList [(named "A" .bool, .bool a), (named "B" .bool, .bool b)] }

/-- One of the two variables is true and the other one false. -/
def oneTrue : Constraint :=
  { truth := .unknown, pending := [[picked false true, picked true false]] }

/-- One of them is true and the other one false, and a third variable is the first of them. -/
def copied : Constraint :=
  { oneTrue with store := .single (named "X" .bool) (.var (named "A" .bool)) }

/-- An equation between maps comes to such a disjunction. -/
lemma derived_oneTrue :
    oneTrue.Derived (.standard Subsorts.builtin.order) (fun _ => True) MovesApart := by
  let keys (s t : Term) : Term := .map [(s, .int 0), (t, .int 0)] none
  let e : Equation :=
    ⟨keys (.var (named "A" .bool)) (.var (named "B" .bool)), keys (.bool false) (.bool true)⟩
  let c : Constraint := { equations := .ofList [e], truth := .unknown }
  have hadd : Constraint.empty.add (.standard Subsorts.builtin.order) e = .ok c := by cbv
  have hfold : c.simplify (.standard Subsorts.builtin.order) 4 true 0 = .ok (oneTrue, 0) := by cbv
  exact .change (.change .empty .empty (.add ⟨trivial, trivial⟩ hadd)) .empty (.simplify hfold)

lemma derived_copied :
    copied.Derived (.standard Subsorts.builtin.order) (fun _ => True) MovesApart := by
  have hadd : oneTrue.add (.standard Subsorts.builtin.order)
      ⟨.var (named "X" .bool), .var (named "A" .bool)⟩ = .ok copied := by cbv
  exact .change derived_oneTrue .empty (.add ⟨trivial, trivial⟩ hadd)

lemma mem_store_picked {a b : Bool} {q : Var × Term} (hq : q ∈ (picked a b).store.toList) :
    q = (named "A" .bool, .bool a) ∨ q = (named "B" .bool, .bool b) := by
  simpa using Substitution.mem_of_mem_ofList hq

lemma mapFree_picked (a b : Bool) : (picked a b).MapFree := by
  refine ⟨fun q hq => ?_, by simp [picked, EquationSet.empty]⟩
  rcases mem_store_picked hq with rfl | rfl <;> exact .bool _

lemma mem_pending_oneTrue (ha : ∃ D ∈ oneTrue.pending, a ∈ D) : ∃ p q, a = picked p q := by
  obtain ⟨D, hD, ha⟩ := ha
  rw [List.mem_singleton.mp hD] at ha
  rcases List.mem_pair.mp ha with rfl | rfl
  · exact ⟨false, true, rfl⟩
  · exact ⟨true, false, rfl⟩

lemma mentions_picked {p q : Bool} (hx : (picked p q).Mentions x) :
    x = named "A" .bool ∨ x = named "B" .bool := by
  rcases hx with ⟨b, hb, hx⟩ | ⟨e, he, -⟩
  · rcases mem_store_picked hb with rfl | rfl <;> simp_all
  · cases he

lemma Concerns.mentions_or (hx : c.Concerns x) (hc : c.pending = oneTrue.pending) :
    c.Mentions x ∨ x = named "A" .bool ∨ x = named "B" .bool := by
  refine hx.imp_right fun ⟨D, hD, a, ha, hx⟩ => ?_
  obtain ⟨p, q, rfl⟩ := mem_pending_oneTrue ⟨D, hc ▸ hD, ha⟩
  exact mentions_picked hx

lemma concerns_copied (hx : copied.Concerns x) :
    x ∈ [named "X" .bool, named "A" .bool, named "B" .bool] := by
  rcases hx.mentions_or rfl with (⟨b, hb, hx⟩ | ⟨e, he, -⟩) | hx
  · rw [List.mem_singleton.mp hb] at hx
    have hx : x = named "X" .bool ∨ x = named "A" .bool := by simpa using hx
    rcases hx with rfl | rfl <;> simp
  · cases he
  · rcases hx with rfl | rfl <;> simp

lemma mapFree_copied :
    copied.MapFree ∧ ∀ D ∈ copied.pending, ∀ a ∈ D, a.MapFree := by
  refine ⟨⟨fun b hb => ?_, by simp [copied, oneTrue, EquationSet.empty]⟩, fun D hD a ha => ?_⟩
  · rw [List.mem_singleton.mp hb]
    exact .var _
  · obtain ⟨p, q, rfl⟩ := mem_pending_oneTrue ⟨D, hD, ha⟩
    exact mapFree_picked p q

/-- Both runs end, and no answer of the one under other names is an answer of the other. -/
lemma exists_differing (h : ((c.alternatives (.standard order) fuel n).toOption.any fun r =>
      (d.alternatives (.standard order) fuel n).toOption.any fun r' =>
        r.2 == n && r'.2 == n && !r.1.isEmpty &&
          r.1.all fun a => r'.1.all fun a' => !a'.same (a.rename ρ)) = true) :
    ∃ ds ds', c.alternatives (.standard order) fuel n = .ok (ds, n) ∧
      d.alternatives (.standard order) fuel n = .ok (ds', n) ∧
      ds ≠ [] ∧ ∀ a ∈ ds, ∀ a' ∈ ds', a'.same (a.rename ρ) = false := by
  obtain ⟨⟨ds, k⟩, hds, h⟩ := exists_eq_ok_of_any h
  obtain ⟨⟨ds', k'⟩, hds', h⟩ := exists_eq_ok_of_any h
  obtain ⟨⟨⟨rfl, rfl⟩, hne⟩, hdiffer⟩ : ((k = n ∧ k' = n) ∧ ds ≠ []) ∧
      ∀ a ∈ ds, ∀ a' ∈ ds', a'.same (a.rename ρ) = false := by simpa using h
  exact ⟨ds, ds', hds, hds', hne, hdiffer⟩

/-! ### Derived constraints -/

/-- Renaming leaves the disjunctions as they are, so that what an alternative says of a variable does
not reach the copy of that variable any more. -/
theorem alternatives_rename_pending :
    let T : Theory := .standard Subsorts.builtin.order
    let ρ := relabel ["X", "A", "B"]
    copied.Derived T (fun _ => True) MovesApart ∧ copied.isFalse = false ∧
      Term.Renaming ρ copied.Concerns ∧ (∀ v, copied.Concerns v → ¬ copied.Concerns (ρ v)) ∧
      (copied.MapFree ∧ ∀ D ∈ copied.pending, ∀ a ∈ D, a.MapFree) ∧
      ∃ ds ds', copied.alternatives T 4 0 = .ok (ds, 0) ∧
        (copied.rename ρ).alternatives T 4 0 = .ok (ds', 0) ∧
        ds ≠ [] ∧ ∀ d ∈ ds, ∀ d' ∈ ds', d'.same (d.rename ρ) = false := by
  intro T ρ
  have hρ : Term.Renaming ρ copied.Concerns := renaming_relabel concerns_copied (by decide)
  have hmoved : ∀ v ∈ [named "X" .bool, named "A" .bool, named "B" .bool],
      ρ v ∉ [named "X" .bool, named "A" .bool, named "B" .bool] := by decide
  have hfresh : ∀ v, copied.Concerns v → ¬ copied.Concerns (ρ v) := fun v hv hv' =>
    hmoved v (concerns_copied hv) (concerns_copied hv')
  exact ⟨derived_copied, rfl, hρ, hfresh, mapFree_copied, exists_differing (by decide +kernel)⟩

end SolvedForm.Constraint

import Mathlib
import SolvedForm.Proofs.Constraint.Session

/-!
How many bindings normalization composes.

* `Constraint.renormalizeLogged`: normalization with a record of the variables for which it has
  composed a binding; `Constraint.renormalizeLogged_snd` says that it is normalization.
* `Constraint.Draws`: all subterms that are variables, in values and in equations, satisfy a
  condition.
* `Constraint.Untangled.composed`: a composition makes the constraint false, or its binding a part
  of the store.
* `Constraint.Untangled.renormalizeLogged`: the variables recorded are different from each other and
  from those that are bound, and they occur in the constraint.
* `Constraint.Session.length_renormalizeLogged_le`: so there are at most as many compositions as
  variables, and normalization comes to an answer.
-/

namespace SolvedForm.Constraint

variable {T : Theory} {c : Constraint} {x : Var} {t : Term}

/-! ### The record -/

/-- Passes over the equations as in normalization, with the variables for which a binding has been
composed, the first one first. -/
def renormalizeLogged (T : Theory) (c : Constraint) : List Var × Except Fault Constraint :=
  match _pass : scan T c.store .empty c.equations.toList with
  | .settled kept => ([], .ok { c with equations := kept })
  | .refuted kept e => ([], .ok ({ c with equations := kept }.falsify e))
  | .solved kept x t =>
    match compose T c x t with
    | .error fault => ([x], .error fault)
    | .ok d =>
      if d.isFalse then ([x], .ok { d with equations := kept })
      else (renormalizeLogged T { d with equations := kept }).map (x :: ·) id
termination_by c.equations.size
decreasing_by
  have := size_lt_of_scan _pass
  simpa [EquationSet.size, EquationSet.empty] using this

/-- The unfolding of the record, without the facts that its termination rests on. -/
lemma renormalizeLogged_eq (c : Constraint) : renormalizeLogged T c =
    match scan T c.store .empty c.equations.toList with
    | .settled kept => ([], .ok { c with equations := kept })
    | .refuted kept e => ([], .ok ({ c with equations := kept }.falsify e))
    | .solved kept x t =>
      match compose T c x t with
      | .error fault => ([x], .error fault)
      | .ok d =>
        if d.isFalse then ([x], .ok { d with equations := kept })
        else (renormalizeLogged T { d with equations := kept }).map (x :: ·) id := by
  rw [renormalizeLogged]
  split
  · next hpass => exact hpass ▸ rfl
  · next hpass => exact hpass ▸ rfl
  · next hpass => exact hpass ▸ rfl

/-- Apart from the record it is normalization. -/
theorem renormalizeLogged_snd (c : Constraint) : (renormalizeLogged T c).2 = renormalize T c := by
  -- each binding found uses up an equation
  induction hn : c.equations.size using Nat.strongRecOn generalizing c with
  | _ n ih =>
      rw [renormalizeLogged_eq, renormalize_eq]
      cases hpass : scan T c.store .empty c.equations.toList with
      | settled | refuted => rfl
      | solved kept x t =>
          have hlt : kept.size < n := by
            simpa [EquationSet.size, EquationSet.empty, ← hn] using size_lt_of_scan hpass
          cases hd : compose T c x t with
          | error fault => simp only [hd]
          | ok d =>
              simp only [hd]
              split
              · rfl
              · exact ih _ hlt _ rfl

/-! ### Variables -/

/-- The variables that occur in the store and in the equations. -/
def vars (c : Constraint) : Finset Var :=
  (c.store.toList.flatMap (fun b => b.1 :: b.2.vars) ++
    c.equations.toList.flatMap fun e => e.left.vars ++ e.right.vars).toFinset

lemma mem_vars : x ∈ c.vars ↔ c.Mentions x := by
  simp only [vars, List.mem_toFinset, List.mem_append, List.mem_flatMap, List.mem_cons, Mentions]

/-- The variables that are subterms of values or of equations satisfy a condition. -/
structure Draws (p : Var → Prop) (c : Constraint) : Prop where
  values : ∀ b ∈ c.store.toList, b.2.Nodes p
  equations : ∀ e ∈ c.equations.toList, e.left.Nodes p ∧ e.right.Nodes p

lemma draws_mentions (c : Constraint) : c.Draws c.Mentions where
  values b hb := .of_vars fun _ hx => .inl ⟨b, hb, .inr hx⟩
  equations e he :=
    ⟨.of_vars fun _ hx => .inr ⟨e, he, .inl hx⟩, .of_vars fun _ hx => .inr ⟨e, he, .inr hx⟩⟩

variable {p : Var → Prop} {e : Equation} {pre post : List Equation}

/-- Instances of equations draw on the same variables. -/
lemma Draws.instantiate (hT : T.Conservative) (h : c.Draws p) (he : e ∈ c.equations.toList) :
    (T.instantiate c.store e.left).Nodes p ∧ (T.instantiate c.store e.right).Nodes p :=
  ⟨.instantiate hT h.values ((h.equations e he).1.mono fun _ hx _ => hx),
    .instantiate hT h.values ((h.equations e he).2.mono fun _ hx _ => hx)⟩

/-- A binding that an instance can be read as draws on them too. -/
lemma Draws.binding (hT : T.Conservative) (h : c.Draws p) (he : e ∈ c.equations.toList)
    (hb : (e.instantiate T.evaluate c.store).binding? T.order = some (x, t)) :
    p x ∧ t.Nodes p := by
  obtain ⟨hl, hr⟩ := h.instantiate hT he
  rw [Equation.instantiate_eq_map] at hb
  rcases Equation.binding?_cases hb with hq | hq
  · have hx : T.instantiate c.store e.left = .var x := congrArg Equation.left hq
    have ht : T.instantiate c.store e.right = t := congrArg Equation.right hq
    exact ⟨Term.Nodes.var_iff.mp (hx ▸ hl), ht ▸ hr⟩
  · have ht : T.instantiate c.store e.left = t := congrArg Equation.left hq
    have hx : T.instantiate c.store e.right = .var x := congrArg Equation.right hq
    exact ⟨Term.Nodes.var_iff.mp (hx ▸ hr), ht ▸ hl⟩

/-- So does the constraint with which normalization goes on. -/
lemma Draws.extend (hT : T.Conservative) (h : c.Draws p)
    (hsplit : c.equations.toList = pre ++ e :: post) (ht : t.Nodes p) :
    Draws p { c with
      store := T.extend c.store x t
      equations := (EquationSet.ofList (T.remaining c.store pre)).insertAll post } where
  values b hb := by
    have hsingle : ∀ b ∈ (Substitution.single x t).toList, b.2.Nodes p := by simpa using ht
    rcases Substitution.mem_toList_insert.mp hb with rfl | ⟨-, hb⟩
    · exact ht
    · obtain ⟨a, ha, rfl⟩ := List.mem_map.mp hb
      exact .instantiate hT hsingle ((h.values a ha).mono fun _ hy _ => hy)
  equations q hq := by
    rcases mem_kept.mp hq with ⟨a, ha, rfl, -⟩ | hq
    · rw [Equation.instantiate_eq_map]
      exact h.instantiate hT (hsplit ▸ List.mem_append_left _ ha)
    · exact h.equations q (hsplit ▸ List.mem_append_right _ (List.mem_cons_of_mem _ hq))

/-! ### Compositions -/

/-- The composition of a new binding comes to an answer. Unless that is false, the binding has
become a part of the store. -/
lemma Untangled.composed (hT : T.Conservative) (hσ : c.Untangled) (hx : x ∉ c.store.keys)
    (ht : t.Nodes fun y => y ≠ x ∧ y ∉ c.store.keys) :
    ∃ d, compose T c x t = .ok d ∧
      (d.isFalse = true ∨ d = { c with store := T.extend c.store x t }) := by
  cases hc : c.isFalse with
  | true =>
      rw [compose_eq hx, foldl_composeBinding_of_isFalse hc, if_pos hc]
      exact ⟨c, rfl, .inl hc⟩
  | false =>
      rcases compose_cases hc hx (hσ.instantiate_ne hT ht) with h | ⟨σ, b, -, -, -, h⟩
      · exact ⟨_, h, .inr rfl⟩
      · exact ⟨_, h, .inl (isFalse_falsify _ _)⟩

/-- Over an untangled store normalization comes to an answer. The variables for which it composes
bindings are different from each other and from all bound ones, and each is a subterm of a value or
of an equation. -/
theorem Untangled.renormalizeLogged (hT : T.Conservative) (hσ : c.Untangled) (hp : c.Draws p) :
    (∃ d, renormalize T c = .ok d) ∧ (renormalizeLogged T c).1.Nodup ∧
      ∀ x ∈ (renormalizeLogged T c).1, x ∉ c.store.keys ∧ p x := by
  -- each binding found uses up an equation
  induction hn : c.equations.size using Nat.strongRecOn generalizing c with
  | _ n ih =>
      rw [← renormalizeLogged_snd, renormalizeLogged_eq]
      have hscan := @scanned T c.store .empty c.equations.toList
      generalize scan T c.store .empty c.equations.toList = pass at hscan
      cases hscan with
      | settled => exact ⟨⟨_, rfl⟩, .nil, by simp⟩
      | refuted => exact ⟨⟨_, rfl⟩, .nil, by simp⟩
      | @solved pre post e x t hsplit _ _ hb =>
          obtain ⟨hx, ht⟩ := fresh_of_binding_nodes hT hσ hb
          have he : e ∈ c.equations.toList :=
            hsplit ▸ List.mem_append_right pre List.mem_cons_self
          obtain ⟨hpx, hpt⟩ := hp.binding hT he hb
          obtain ⟨d, hd, hcase⟩ := hσ.composed hT hx ht
          simp only [hd]
          split
          · exact ⟨⟨_, rfl⟩, List.nodup_singleton x, by simpa using ⟨hx, hpx⟩⟩
          · next hf =>
              obtain rfl := hcase.resolve_left hf
              obtain ⟨⟨a, ha⟩, hnodup, hmem⟩ := ih _ (hn ▸ size_kept_lt hsplit)
                (c := { c with
                  store := T.extend c.store x t
                  equations := (EquationSet.ofList (T.remaining c.store pre)).insertAll post })
                (untangled_extend hT hσ ht) (hp.extend hT hsplit hpt) rfl
              have hkeys : ∀ y, y ∈ (T.extend c.store x t).keys ↔ y = x ∨ y ∈ c.store.keys := by
                simp [Theory.extend, Substitution.mem_keys_insert]
              refine ⟨⟨a, (renormalizeLogged_snd _).trans ha⟩, ?_, ?_⟩
              · have hnew : x ∉ (renormalizeLogged T _).1 :=
                  fun hy => (hmem x hy).1 ((hkeys x).mpr (.inl rfl))
                exact List.nodup_cons.mpr ⟨hnew, hnodup⟩
              · refine List.forall_mem_cons.mpr ⟨⟨hx, hpx⟩, fun y hy => ?_⟩
                exact ⟨fun hk => (hmem y hy).1 ((hkeys y).mpr (.inr hk)), (hmem y hy).2⟩

/-- For whatever a session has made and whatever equations are inserted, normalization comes to an
answer, after at most as many compositions as there are variables in the store and the equations. -/
theorem Session.length_renormalizeLogged_le {order : SortOrder} {unifier : Unifier}
    {pool : List Constraint} (h : Session ⟨order, Term.evaluate, unifier⟩ pool) (hc : c ∈ pool)
    (es : List Equation) :
    let T : Theory := ⟨order, Term.evaluate, unifier⟩
    let b : Constraint := { es.foldl insertEquation c with normal := true }.drain
    ∃ xs d, renormalizeLogged T b = (xs, .ok d) ∧ renormalize T b = .ok d ∧
      xs.length ≤ b.vars.card := by
  intro T b
  have hT : T.Conservative := fun ht => ht.evaluate
  have hb : b.Untangled :=
    (h.untangled hT c hc).congr (extends_foldl extends_insertEquation es c).store
  obtain ⟨⟨d, hd⟩, hnodup, hmem⟩ := hb.renormalizeLogged hT (draws_mentions b)
  refine ⟨(renormalizeLogged T b).1, d, Prod.ext rfl ((renormalizeLogged_snd b).trans hd), hd, ?_⟩
  calc (renormalizeLogged T b).1.length
      = (renormalizeLogged T b).1.toFinset.card := (List.toFinset_card_of_nodup hnodup).symm
    _ ≤ b.vars.card := Finset.card_le_card fun x hx =>
        mem_vars.mpr (hmem x (List.mem_toFinset.mp hx)).2

/-- A bound frame stays behind in a value, and with the value it gets into both equations. -/
theorem Session.length_renormalizeLogged_le_frame :
    let T : Theory := .standard Subsorts.builtin.order
    let var (name : String) : Var := ⟨name, .map, false, none⟩
    let rest : Term := .app ⟨"rest", 0, none, .function⟩ []
    let σ : Substitution :=
      .ofList [(var "X", .map [(.int 1, .int 2)] (some (var "M"))), (var "M", rest)]
    let es : List Equation := [⟨.var (var "W"), .var (var "Y")⟩, ⟨.var (var "Y"), .var (var "X")⟩]
    let b : Constraint := { es.foldl insertEquation { store := σ } with normal := true }.drain
    empty.addSubstitution T σ = .ok { store := σ } ∧
      (renormalizeLogged T b).1 = [var "W", var "Y"] ∧ b.vars.card = 4 ∧
      ∃ xs d, renormalizeLogged T b = (xs, .ok d) ∧ renormalize T b = .ok d ∧
        xs.length ≤ b.vars.card := by
  intro T var rest σ es b
  have hc : empty.addSubstitution T σ = .ok { store := σ } := by cbv
  have hmade : Operation T [.empty] (.ok [{ store := σ }]) := by
    have h := Operation.addSubstitution (T := T) σ (List.mem_singleton_self empty)
    rwa [hc] at h
  have hsession : Session T [{ store := σ }, .empty] := .step (.step .start .empty) hmade
  exact ⟨hc, by cbv, by decide, hsession.length_renormalizeLogged_le List.mem_cons_self es⟩

end SolvedForm.Constraint

import SolvedForm.Proofs.Term.Rigid

/-!
Unification refuses what is provably distinct.

* `Term.Saturated`: every application has as many arguments as its symbol declares.
* `Decomposition.Refuses`: a run fails from whatever has been found before.
* `Decomposition.refuses_of_headsClash`: a decomposition refuses terms whose heads clash.
* `Decomposition.refuses_decomposeArgs`, `Decomposition.refuses_of_provablyDistinct`: so it does
  when a pair of arguments is provably distinct, wherever it stands.
* `Unifier.structural_error_of_provablyDistinct`: the unifier fails on an equation that is judged
  false because its sides are provably distinct.
-/

namespace SolvedForm

/-- Every application in the term has as many arguments as its symbol declares. -/
inductive Term.Saturated : Term → Prop where
  | var (x : Var) : Saturated (.var x)
  | bool (b : Bool) : Saturated (.bool b)
  | int (i : Int64) : Saturated (.int i)
  | app {f : Symbol} {args : List Term} : f.arity = args.length → (∀ t ∈ args, Saturated t) →
      Saturated (.app f args)
  | map {entries : List Entry} (frame : Option Var) :
      (∀ e ∈ entries, Saturated e.1) → (∀ e ∈ entries, Saturated e.2) →
      Saturated (.map entries frame)
  | lookup {m k : Term} : Saturated m → Saturated k → Saturated (.lookup m k)

lemma Term.Saturated.arity_eq {f : Symbol} {args : List Term} (h : (Term.app f args).Saturated) :
    f.arity = args.length := by
  cases h
  assumption

lemma Term.Saturated.arg {f : Symbol} {args : List Term} (h : (Term.app f args).Saturated) :
    ∀ t ∈ args, t.Saturated := by
  cases h
  assumption

namespace Decomposition

open Term

variable {order : SortOrder} {fold : Bool} {run run' : Progress → Except Stuck Progress}
  {s t : Term} {ss ts : List Term} {es fs : List Entry} {x y : Option Var}

/-! ### Runs that fail -/

/-- The run fails, whatever has been found before. -/
def Refuses (run : Progress → Except Stuck Progress) : Prop := ∀ p, ∃ stuck, run p = .error stuck

lemma refuses_fail (failure : Unification.Failure) : Refuses (·.fail failure) :=
  fun _ => ⟨_, rfl⟩

/-- A run fails when its first part does. -/
lemma Refuses.bind (h : Refuses run) : Refuses fun p => run p >>= run' := by
  intro p
  obtain ⟨stuck, hp⟩ := h p
  exact ⟨stuck, by simp only [hp]; rfl⟩

/-- A run fails when its second part does: the first part fails, or the second goes on from where
the first one ends. -/
lemma Refuses.after (h : Refuses run') : Refuses fun p => run p >>= run' := by
  intro p
  cases hp : run p with
  | error stuck => exact ⟨stuck, by simp only [hp]; rfl⟩
  | ok q =>
      obtain ⟨stuck, hq⟩ := h q
      exact ⟨stuck, by simp only [hp]; exact hq⟩

/-! ### Heads -/

lemma refuses_keep (h : s.headsClash t = true) : Refuses (keep ⟨s, t⟩) :=
  fun _ => ⟨_, if_pos h⟩

/-- Applications of constructors whose heads clash have different names, or different numbers of
arguments. -/
lemma name_or_length_ne {f g : Symbol} (hs : (app f ss).Saturated) (ht : (app g ts).Saturated)
    (hf : f.isConstructor = true) (hg : g.isConstructor = true)
    (h : (app f ss).headsClash (app g ts) = true) : f.name ≠ g.name ∨ ss.length ≠ ts.length := by
  rw [headsClash, head, if_pos hf, head, if_pos hg] at h
  have hne : f.name ≠ g.name ∨ f.arity ≠ g.arity := by
    simpa [Head.clash, ← not_and_or] using h
  rwa [hs.arity_eq, ht.arity_eq] at hne

/-- Maps whose heads clash have no frames and different numbers of entries. -/
lemma sizesDiffer_of_headsClash (h : (map es x).headsClash (map fs y) = true) :
    sizesDiffer es x fs y = true := by
  cases x <;> cases y <;> simp_all [headsClash, head, mapSize, Head.clash, sizesDiffer]

lemma refuses_of_sizesDiffer (h : sizesDiffer es x fs y = true) :
    Refuses (decompose order fold (.map es x) (.map fs y)) := by
  have hne : Term.map es x ≠ .map fs y := by
    rintro ⟨⟩
    simp [sizesDiffer] at h
  intro p
  rw [decompose.eq_def]
  simp only [hne, h, ↓reduceIte]
  exact ⟨_, rfl⟩

/-- Terms whose heads clash are refused. -/
theorem refuses_of_headsClash (hs : s.Saturated) (ht : t.Saturated) (h : s.headsClash t = true) :
    Refuses (decompose order fold s t) := by
  have hd := decomposed order fold s t
  generalize hrun : decompose order fold s t = run at hd
  cases hd with
  | same => exact absurd rfl (Substitution.ne_of_headsClash h)
  | left => simp [headsClash, head] at h
  | right => cases s <;> simp [headsClash, head] at h
  | clash => exact refuses_fail _
  | args hf hg hname hlength =>
      exact ((name_or_length_ne hs ht hf hg h).elim (· hname) (· hlength)).elim
  | sizes => exact refuses_fail _
  | entries => exact hrun ▸ refuses_of_sizesDiffer (sizesDiffer_of_headsClash h)
  | kept => exact refuses_keep h

/-! ### Arguments -/

/-- Some pair of arguments that is refused is enough, since each pair is decomposed from whatever
the pairs before it have left. -/
lemma refuses_decomposeArgs
    (ih : ∀ s ∈ ss, ∀ t ∈ ts, s.provablyDistinct t = true → Refuses (decompose order fold s t))
    (h : someDistinct ss ts = true) : Refuses (decomposeArgs order fold ss ts) := by
  induction ss generalizing ts with
  | nil => simp [someDistinct] at h
  | cons s ss ihs =>
      cases ts with
      | nil => simp [someDistinct] at h
      | cons t ts =>
          rw [someDistinct, Bool.or_eq_true] at h
          have hcons : decomposeArgs order fold (s :: ss) (t :: ts) =
              fun p => decompose order fold s t p >>= decomposeArgs order fold ss ts := by
            funext p
            rw [decomposeArgs]
          rw [hcons]
          rcases h with h | h
          · exact (ih s List.mem_cons_self t List.mem_cons_self h).bind
          · exact (ihs (fun s hs t ht =>
              ih s (List.mem_cons_of_mem _ hs) t (List.mem_cons_of_mem _ ht)) h).after

/-- Applications of constructors with a pair of arguments that is refused. -/
lemma refuses_app {f g : Symbol} (hf : f.isConstructor = true) (hg : g.isConstructor = true)
    (hne : app f ss ≠ app g ts) (h : Refuses (decomposeArgs order fold ss ts)) :
    Refuses (decompose order fold (.app f ss) (.app g ts)) := by
  have hd := decomposed order fold (.app f ss) (.app g ts)
  generalize decompose order fold (.app f ss) (.app g ts) = run at hd
  cases hd with
  | same => exact absurd rfl hne
  | clash => exact refuses_fail _
  | args => exact h
  | kept _ _ _ hfree =>
      rcases hfree f ss g ts rfl rfl with hf' | hg'
      · exact absurd (hf.symm.trans hf') Bool.noConfusion
      · exact absurd (hg.symm.trans hg') Bool.noConfusion

/-- Provably distinct terms are refused. -/
theorem refuses_of_provablyDistinct (hs : s.Saturated) (ht : t.Saturated)
    (h : s.provablyDistinct t = true) : Refuses (decompose order fold s t) := by
  induction s using Term.ind generalizing t with
  | app f ss ih =>
      cases t with
      | app g ts =>
          have hne := ne_of_provablyDistinct h
          rw [provablyDistinct, Bool.or_eq_true, Bool.and_eq_true, Bool.and_eq_true] at h
          rcases h with h | ⟨⟨hf, hg⟩, h⟩
          · exact refuses_of_headsClash hs ht h
          · exact refuses_app hf hg hne (refuses_decomposeArgs
              (fun s hs' t ht' => ih s hs' (hs.arg s hs') (ht.arg t ht')) h)
      | var | bool | int | map | lookup => exact refuses_of_headsClash hs ht h
  | var | bool | int | map | lookup => cases t <;> exact refuses_of_headsClash hs ht h

end Decomposition

/-! ### The unifier -/

/-- When every application has as many arguments as its symbol declares, then an equation between
provably distinct terms is judged false, and unification fails on it, whatever the sorts, with or
without folding. -/
theorem Unifier.structural_error_of_provablyDistinct {s t : Term} (hs : s.Saturated)
    (ht : t.Saturated) (h : s.provablyDistinct t = true) (order : SortOrder) (fold : Bool)
    (n : Nat) :
    Equation.truth order ⟨s, t⟩ = .false ∧
      ∃ failure m, Unifier.structural order fold ⟨s, t⟩ n = (.error failure, m) := by
  constructor
  · rw [Equation.truth, if_neg (Term.ne_of_provablyDistinct h), if_pos (by simp [h])]
  · have hrefuses : Decomposition.Refuses (Decomposition.decompose order fold s t) :=
      Decomposition.refuses_of_provablyDistinct hs ht h
    obtain ⟨stuck, hstuck⟩ := hrefuses ⟨[], none, n⟩
    refine ⟨stuck.failure, stuck.supply, ?_⟩
    rw [Unifier.structural, hstuck]

/-- The first pair of arguments is an ambiguous map equation, which folding turns into alternatives;
the clash of sizes comes after it and deeper. -/
theorem Unifier.structural_error_of_provablyDistinct_sizes :
    let x : Var := ⟨"X", .int, false, none⟩
    let y : Var := ⟨"Y", .int, false, none⟩
    let con (name : String) (args : List Term) : Term :=
      .app ⟨name, args.length, none, .constructor⟩ args
    let s : Term := con "pair" [.map [(.var x, .int 0), (.var y, .int 0)] none,
      con "box" [.map [(.var x, .int 0)] none]]
    let t : Term := con "pair" [.map [(.int 1, .int 0), (.int 2, .int 0)] none,
      con "box" [.map [] none]]
    s.Saturated ∧ t.Saturated ∧ s.provablyDistinct t = true ∧
      Equation.truth Subsorts.builtin.order ⟨s, t⟩ = .false ∧
      ∃ failure m,
        Unifier.structural Subsorts.builtin.order true ⟨s, t⟩ 0 = (.error failure, m) := by
  intro x y con s t
  have pair_saturated : ∀ {a b : Term}, a.Saturated → b.Saturated →
      (con "pair" [a, con "box" [b]]).Saturated := fun ha hb =>
    .app rfl (List.forall_mem_cons.mpr ⟨ha, List.forall_mem_singleton.mpr
      (.app rfl (List.forall_mem_singleton.mpr hb))⟩)
  have values : ∀ {es : List Entry}, (∀ e ∈ es, e.1.Saturated ∧ e.2 = .int 0) →
      (Term.map es none).Saturated := fun h =>
    .map none (fun e he => (h e he).1) fun e he => (h e he).2 ▸ .int 0
  have hs : s.Saturated := pair_saturated
    (values (by simpa using ⟨Term.Saturated.var x, Term.Saturated.var y⟩))
    (values (by simpa using Term.Saturated.var x))
  have ht : t.Saturated := pair_saturated
    (values (by simpa using ⟨Term.Saturated.int 1, Term.Saturated.int 2⟩)) (values (by simp))
  have h : s.provablyDistinct t = true := by decide
  exact ⟨hs, ht, h, structural_error_of_provablyDistinct hs ht h _ _ _⟩

end SolvedForm

import SolvedForm.Proofs.Term.Distinct
import SolvedForm.Proofs.Unification.Symmetry

/-!
Maps whose keys are provably distinct.

* `Term.KeptBy`: an image of a term shows what the term shows of its value.
* `Term.KeptBy.provablyDistinct`: then what is provably distinct stays so.
* `Term.Rigid`: all maps are without frame, and their keys provably distinct.
* `Term.Rigid.rewrite`: rewriting that touches nothing but what shows no value keeps terms rigid.
* `Term.Rigid.apply`, `Term.Rigid.evaluate`: so do substitution and evaluation.
* `Term.hereditary_rigid`: so does decomposition.
-/

namespace SolvedForm

open Term

namespace Term

variable {s t u : Term} {f : Symbol} {args ss ts : List Term} {es fs : List Entry}
  {frame : Option Var} {g : Term → Term} {h : Head}

/-! ### Provable distinctness -/

lemma ne_of_provablyDistinct (h : s.provablyDistinct t = true) : s ≠ t := by
  induction s using Term.ind generalizing t with
  | app f ss ih =>
      cases t with
      | app g ts =>
          rw [provablyDistinct, Bool.or_eq_true, Bool.and_eq_true] at h
          rcases h with h | ⟨-, h⟩
          · exact Substitution.ne_of_headsClash h
          · have hargs : ss.map id ≠ ts.map id :=
              map_ne_of_someDistinct (fun s hs t _ h => ih s hs h) h
            rw [List.map_id, List.map_id] at hargs
            exact fun heq => hargs (Term.app.inj heq).2
      | var | bool | int | map | lookup => exact Substitution.ne_of_headsClash h
  | var | bool | int | map | lookup => cases t <;> exact Substitution.ne_of_headsClash h

lemma someDistinct_of_map
    (hst : ∀ s ∈ ss, ∀ t ∈ ts, s.provablyDistinct t = true → (g s).provablyDistinct (g t) = true)
    (h : someDistinct ss ts = true) : someDistinct (ss.map g) (ts.map g) = true := by
  induction ss generalizing ts with
  | nil => exact h
  | cons s ss ih =>
      cases ts with
      | nil => exact h
      | cons t ts =>
          rw [someDistinct, Bool.or_eq_true] at h
          rw [List.map_cons, List.map_cons, someDistinct, Bool.or_eq_true]
          exact h.imp (hst s List.mem_cons_self t List.mem_cons_self) (ih fun s hs t ht =>
            hst s (List.mem_cons_of_mem _ hs) t (List.mem_cons_of_mem _ ht))

lemma provablyDistinct_of_headsClash (h : s.headsClash t = true) : s.provablyDistinct t = true := by
  cases s with
  | app => cases t <;> simp_all [provablyDistinct]
  | var | bool | int | map | lookup => cases t <;> exact h

/-! ### Images that show as much -/

/-- The image of the term under a function shows of its value what the term shows, down to the
arguments of constructors. -/
inductive KeptBy (g : Term → Term) : Term → Prop where
  | blank {t : Term} : t.head = none → KeptBy g t
  | shown {t : Term} : t.rootSymbol = none → (g t).head = t.head → KeptBy g t
  | con {f : Symbol} {args : List Term} : f.isConstructor = true →
      g (.app f args) = .app f (args.map g) → (∀ a ∈ args, KeptBy g a) → KeptBy g (.app f args)

namespace KeptBy

lemma head_eq (ht : t.KeptBy g) (hh : t.head = some h) : (g t).head = some h := by
  cases ht with
  | blank hnone => exact absurd (hnone.symm.trans hh) nofun
  | shown _ hhead => exact hhead.trans hh
  | con hf heq _ =>
      rw [head, if_pos hf] at hh
      rw [heq, head, if_pos hf, hh]

lemma of_con (ht : (Term.app f args).KeptBy g) (hf : f.isConstructor = true) :
    g (.app f args) = .app f (args.map g) ∧ ∀ a ∈ args, a.KeptBy g := by
  cases ht with
  | blank hnone => simp [head, hf] at hnone
  | shown hroot _ => cases hroot
  | con _ heq hargs => exact ⟨heq, hargs⟩

lemma headsClash (hs : s.KeptBy g) (ht : t.KeptBy g) (h : s.headsClash t = true) :
    (g s).headsClash (g t) = true := by
  unfold Term.headsClash at h ⊢
  split at h
  · next ha hb => rwa [hs.head_eq ha, ht.head_eq hb]
  · cases h

/-- The test looks only beneath constructors. -/
theorem provablyDistinct (hs : s.KeptBy g) (ht : t.KeptBy g) (h : s.provablyDistinct t = true) :
    (g s).provablyDistinct (g t) = true := by
  induction s using Term.ind generalizing t with
  | app f ss ih =>
      cases t with
      | app f' ts =>
          rw [Term.provablyDistinct, Bool.or_eq_true, Bool.and_eq_true, Bool.and_eq_true] at h
          rcases h with h | ⟨⟨hf, hf'⟩, h⟩
          · exact provablyDistinct_of_headsClash (hs.headsClash ht h)
          · obtain ⟨heq, hss⟩ := hs.of_con hf
            obtain ⟨heq', hts⟩ := ht.of_con hf'
            rw [heq, heq', Term.provablyDistinct, hf, hf', Bool.or_eq_true]
            exact .inr (someDistinct_of_map
              (fun s hs' t ht' => ih s hs' (hss s hs') (hts t ht')) h)
      | var | bool | int | map | lookup =>
          exact provablyDistinct_of_headsClash (hs.headsClash ht h)
  | var | bool | int | map | lookup =>
      cases t <;> exact provablyDistinct_of_headsClash (hs.headsClash ht h)

end KeptBy

/-! ### Rigid terms -/

/-- No map inside the term has a frame, and any two keys of one map are provably distinct. -/
inductive Rigid : Term → Prop where
  | var (x : Var) : Rigid (.var x)
  | bool (b : Bool) : Rigid (.bool b)
  | int (i : Int64) : Rigid (.int i)
  | app (f : Symbol) {args : List Term} : (∀ a ∈ args, Rigid a) → Rigid (.app f args)
  | map {es : List Entry} : (∀ e ∈ es, Rigid e.1) → (∀ e ∈ es, Rigid e.2) →
      (es.Pairwise fun e f => e.1.provablyDistinct f.1 = true) → Rigid (.map es none)
  | lookup {m k : Term} : Rigid m → Rigid k → Rigid (.lookup m k)

namespace Rigid

lemma arg (ht : (Term.app f args).Rigid) : ∀ a ∈ args, a.Rigid := by
  cases ht with
  | app _ h => exact h

lemma frame_eq (ht : (Term.map es frame).Rigid) : frame = none := by
  cases ht with
  | map => rfl

lemma entries (ht : (Term.map es frame).Rigid) : ∀ e ∈ es, e.1.Rigid ∧ e.2.Rigid := by
  cases ht with
  | map hk hv => exact fun e he => ⟨hk e he, hv e he⟩

lemma of_lookup {m k : Term} (ht : (Term.lookup m k).Rigid) : m.Rigid ∧ k.Rigid := by
  cases ht with
  | lookup hm hk => exact ⟨hm, hk⟩

lemma pairwise (ht : (Term.map es frame).Rigid) :
    es.Pairwise fun e f => e.1.provablyDistinct f.1 = true := by
  cases ht with
  | map _ _ h => exact h

lemma nodup (ht : (Term.map es frame).Rigid) : (es.map (·.1)).Nodup :=
  List.pairwise_map.mpr (ht.pairwise.imp ne_of_provablyDistinct)

/-- Different entries have provably distinct keys. -/
lemma distinct (ht : (Term.map es frame).Rigid) {e f : Entry} (he : e ∈ es) (hf : f ∈ es)
    (hne : e ≠ f) : e.1.provablyDistinct f.1 = true := by
  have : Std.Symm fun e f : Entry => e.1.provablyDistinct f.1 = true :=
    ⟨fun e f h => (provablyDistinct_comm f.1 e.1).trans h⟩
  exact ht.pairwise.forall he hf hne

/-- A map of entries with provably distinct keys, in whatever order. -/
lemma ofEntries (hes : ∀ e ∈ es, e.1.Rigid ∧ e.2.Rigid)
    (hkeys : ∀ e ∈ es, ∀ f ∈ es, e ≠ f → e.1.provablyDistinct f.1 = true) :
    (ofEntries es none).Rigid := by
  refine .map (fun e he => (hes e (mem_ofEntries_iff.mp he)).1)
    (fun e he => (hes e (mem_ofEntries_iff.mp he)).2) ?_
  refine (Sorted.increasing_ofList es).nodup.imp_of_mem fun he hf hne => ?_
  exact hkeys _ (mem_ofEntries_iff.mp he) _ (mem_ofEntries_iff.mp hf) hne

/-! ### Rewriting -/

/-- Rewriting keeps a term rigid, and what it shows, when the replacements are rigid and nothing that
shows a value is replaced. -/
theorem rewrite {before : Term → Option Term} {after : Term → Term}
    (hbefore : ∀ t u, t.Rigid → before t = some u → u.Rigid ∧ t.head = none)
    (hafter : ∀ t, t.Rigid → (after t).Rigid ∧ ∀ h, t.head = some h → after t = t) (ht : t.Rigid) :
    (t.rewrite before after).Rigid ∧ t.KeptBy (Term.rewrite before after) := by
  have rigid : ∀ {t u}, t.Rigid → u.Rigid → ((before t).getD (after u)).Rigid := by
    intro t u ht hu
    cases hb : before t with
    | none => exact (hafter u hu).1
    | some w => exact (hbefore t w ht hb).1
  have shown : ∀ {t u h}, t.Rigid → u.Rigid → t.head = some h → u.head = some h →
      (before t).getD (after u) = u := by
    intro t u h ht hu hh hh'
    cases hb : before t with
    | none => exact (hafter u hu).2 h hh'
    | some w => exact absurd ((hbefore t w ht hb).2.symm.trans hh) nofun
  induction t using Term.ind with
  | var x => exact ⟨rigid ht ht, .blank rfl⟩
  | bool b =>
      exact ⟨rigid ht ht, .shown rfl (congrArg Term.head (shown ht ht rfl rfl))⟩
  | int i =>
      exact ⟨rigid ht ht, .shown rfl (congrArg Term.head (shown ht ht rfl rfl))⟩
  | app f args ih =>
      have hargs : (Term.app f (args.map (Term.rewrite before after))).Rigid :=
        .app f (List.forall_mem_map.mpr fun a ha => (ih a ha (ht.arg a ha)).1)
      have hrewrite : Term.rewrite before after (.app f args) = (before (.app f args)).getD
          (after (.app f (args.map (Term.rewrite before after)))) := by
        rw [Term.rewrite, rewriteArgs_eq_map]
      refine ⟨hrewrite ▸ rigid ht hargs, ?_⟩
      cases hf : f.isConstructor with
      | false => exact .blank (by simp [head, hf])
      | true =>
          refine .con hf (hrewrite.trans ?_) fun a ha => (ih a ha (ht.arg a ha)).2
          exact shown (h := .constructor f.name f.arity) ht hargs (by simp [head, hf])
            (by simp [head, hf])
  | map es frame ih =>
      obtain rfl := ht.frame_eq
      let image (e : Entry) : Entry := (e.1.rewrite before after, e.2.rewrite before after)
      have hkey := fun e he => (ih e he).1 (ht.entries e he).1
      have hval := fun e he => (ih e he).2 (ht.entries e he).2
      have hdistinct : (es.map image).Pairwise fun e f => e.1.provablyDistinct f.1 = true :=
        List.pairwise_map.mpr (ht.pairwise.imp_of_mem fun he hf h =>
          (hkey _ he).2.provablyDistinct (hkey _ hf).2 h)
      have himage : (Term.map (es.map image) none).Rigid :=
        .map (List.forall_mem_map.mpr fun e he => (hkey e he).1)
          (List.forall_mem_map.mpr fun e he => (hval e he).1) hdistinct
      have hmap : (Term.ofEntries (es.map image) none).Rigid :=
        .ofEntries himage.entries fun e he f hf => himage.distinct he hf
      have hhead : (Term.ofEntries (es.map image) none).head = some (.map (some es.length)) := by
        have hnodup : (es.map image).Nodup := .of_map _ himage.nodup
        rw [Term.ofEntries, head, mapSize, Sorted.length_ofList hnodup, List.length_map]
      have hrewrite : Term.rewrite before after (.map es none) =
          (before (.map es none)).getD (after (.ofEntries (es.map image) none)) := by
        rw [Term.rewrite, rewriteEntries_eq_map]
        rfl
      refine ⟨hrewrite ▸ rigid ht hmap, .shown rfl ?_⟩
      rw [hrewrite, shown ht hmap rfl hhead, hhead]
      rfl
  | lookup m k ihm ihk =>
      obtain ⟨hm, hk⟩ := ht.of_lookup
      exact ⟨rigid ht (.lookup (ihm hm).1 (ihk hk).1), .blank rfl⟩

/-- Substitution of rigid terms. -/
lemma apply {σ : Substitution} (hσ : ∀ b ∈ σ.toList, b.2.Rigid) (ht : t.Rigid) :
    (σ.apply t).Rigid := by
  refine (ht.rewrite (fun t u _ h => ?_) fun t ht => ⟨ht, fun _ _ => rfl⟩).1
  cases t with
  | var x => exact ⟨hσ (x, u) (Substitution.mem_toList_iff.mpr h), rfl⟩
  | bool | int | app | map | lookup => cases h

/-- Evaluation of a rigid term. -/
lemma evaluate (ht : t.Rigid) : t.evaluate.Rigid := by
  refine (ht.rewrite (fun _ _ _ h => by cases h) fun t ht => ⟨?_, fun h hh => ?_⟩).1
  · cases hr : t.reduceRoot with
    | none => exact ht
    | some u =>
        exact reduceRoot_closed .bool .int arg (fun h e he => (h.entries e he).2)
          (fun h => h.of_lookup.1) ht hr
  · cases t with
    | app f args =>
        cases hf : f.isConstructor with
        | false => simp [head, hf] at hh
        | true => rw [Term.reduceRoot, if_pos hf, Option.getD_none]
    | bool | int | map => rfl
    | var | lookup => cases hh

end Rigid

/-- Rigid terms are closed under parts. -/
lemma hereditary_rigid : Decomposition.Hereditary Rigid where
  app := Rigid.arg
  frame := Rigid.frame_eq
  entries := Rigid.entries
  rest h hfs := .ofEntries (fun f hf => h.entries f (hfs f hf)) fun _ he _ hf =>
    h.distinct (hfs _ he) (hfs _ hf)

end Term

end SolvedForm

import SolvedForm.Proofs.Fragment.Frameless
import SolvedForm.Proofs.Subsort
import SolvedForm.Proofs.Term.Frames
import SolvedForm.Proofs.Unification.Reading

/-!
The fragment of free constructor terms.

* `Term.Free`: terms built from variables of the top sort, literals and constructor applications
  without result sort, the constructors at their declared arities.
* `Term.Free.evaluate`, `Term.Free.occursRigidly_iff`: such a term is its own value, and a variable
  that occurs in it occurs rigidly.
* `Fragment.free`: the fragment of such terms over a class of variables.
* `Reading.instances`, `Meaning.instances`: a substitution as a reading, of which the values are the
  instances of terms.
* `binding?_of_residual`: an equation between such terms that cannot be decomposed further
  can be read as a binding.
-/

namespace SolvedForm

open Decomposition

/-! ### Free terms -/

/-- Terms built from variables of the top sort, literals and constructor applications without
result sort, the constructors at their declared arities. -/
inductive Term.Free : Term → Prop where
  | var {x : Var} : x.sort = .top → Free (.var x)
  | bool (b : Bool) : Free (.bool b)
  | int (i : Int64) : Free (.int i)
  | app {f : Symbol} {args : List Term} : f.isConstructor = true → f.resultSort = none →
      f.arity = args.length → (∀ t ∈ args, Free t) → Free (.app f args)

namespace Term.Free

variable {s t : Term} {f : Symbol} {args : List Term} {x : Var}

lemma app_iff : (Term.app f args).Free ↔ f.isConstructor = true ∧ f.resultSort = none ∧
    f.arity = args.length ∧ ∀ t ∈ args, t.Free :=
  ⟨fun | .app hf hs ha h => ⟨hf, hs, ha, h⟩, fun ⟨hf, hs, ha, h⟩ => .app hf hs ha h⟩

lemma var_iff : (Term.var x).Free ↔ x.sort = .top :=
  ⟨fun | .var h => h, .var⟩

lemma not_map {es : List Entry} {frame : Option Var} : ¬ (Term.map es frame).Free := nofun

lemma frameless (h : t.Free) : t.Frameless := by
  induction h with
  | var => exact .var _
  | bool b => exact .bool b
  | int i => exact .int i
  | app _ _ _ _ ih => exact .app _ ih

/-- Nothing in a free term can be evaluated. -/
lemma evaluate (h : t.Free) : t.evaluate = t := by
  induction h with
  | var | bool | int => rfl
  | app hf _ _ _ ih =>
      rw [evaluate_app, List.map_congr_left ih, List.map_id', reduceRoot, if_pos hf,
        Option.getD_none]

lemma not_applies (hf : f.isConstructor = true) (o : Operator) :
    (Term.app f args).applies o = false := by
  simp [applies, appliesLabel, hf]

lemma conjuncts (h : t.Free) : t.conjuncts = [t] := by
  unfold Term.conjuncts
  split
  · rw [if_neg (by simp [not_applies (app_iff.mp h).1])]
  · rfl

/-- Only literals have a sort of their own. -/
lemma sort (h : t.Free) : t.sort = .top ∨ (∃ b, t = .bool b) ∨ ∃ i, t = .int i := by
  cases h with
  | var hx => exact .inl hx
  | bool b => exact .inr (.inl ⟨b, rfl⟩)
  | int i => exact .inr (.inr ⟨i, rfl⟩)
  | app hf hs => exact .inl (by rw [sort_of_not_applies (not_applies hf .ite), hs, Option.getD_none])

/-- A variable that occurs in a free term occurs rigidly. -/
lemma occursRigidly_iff (h : t.Free) : occursRigidly x t = true ↔ x ∈ t.vars := by
  induction h with
  | var => simp [occursRigidly, eq_comm]
  | bool | int => simp [occursRigidly]
  | app hf _ _ _ ih =>
      rw [occursRigidly, Bool.and_eq_true, and_iff_right hf, Reading.occursRigidlyArgs_iff,
        mem_vars_app]
      exact exists_congr fun a => and_congr_right fun ha => ih a ha

lemma apply {σ : Substitution} (hσ : ∀ x u, σ.find? x = some u → u.Free) (h : t.Free) :
    (σ.apply t).Free := by
  induction h with
  | @var x hx =>
      rw [Substitution.apply_var]
      cases hu : σ.find? x with
      | none => exact .var hx
      | some u => exact hσ x u hu
  | bool b => exact .bool b
  | int i => exact .int i
  | app hf hs ha _ ih =>
      rw [Substitution.apply_app]
      exact .app hf hs (by rw [ha, List.length_map]) (List.forall_mem_map.mpr ih)

end Term.Free

lemma hereditary_free : Hereditary Term.Free where
  app h := (Term.Free.app_iff.mp h).2.2.2
  frame h := absurd h Term.Free.not_map
  entries h := absurd h Term.Free.not_map
  rest h := absurd h Term.Free.not_map

/-- The term is free, and its variables belong to a class. -/
def Term.FreeOver (allowed : Var → Prop) (t : Term) : Prop :=
  t.Free ∧ ∀ x ∈ t.vars, allowed x

lemma Decomposition.Hereditary.over {P : Term → Prop} (hP : Hereditary P)
    (allowed : Var → Prop) : Hereditary fun t => P t ∧ ∀ x ∈ t.vars, allowed x where
  app h t ht := ⟨hP.app h.1 t ht, fun x hx => h.2 x (Term.mem_vars_app.mpr ⟨t, ht, hx⟩)⟩
  frame h := hP.frame h.1
  entries h e he :=
    ⟨⟨(hP.entries h.1 e he).1, fun x hx => h.2 x (Term.mem_vars_map.mpr (.inl ⟨e, he, .inl hx⟩))⟩,
      ⟨(hP.entries h.1 e he).2, fun x hx => h.2 x (Term.mem_vars_map.mpr (.inl ⟨e, he, .inr hx⟩))⟩⟩
  rest h hfs := by
    refine ⟨hP.rest h.1 hfs, fun x hx => ?_⟩
    obtain ⟨f, hf, hx⟩ | hx := Term.mem_vars_ofEntries.mp hx
    · exact h.2 x (Term.mem_vars_map.mpr (.inl ⟨f, hfs f hf, hx⟩))
    · cases hx

/-! ### The fragment -/

variable {allowed : Var → Prop} {d : Subsorts} {s t : Term} {x : Var} {e : Equation}

/-- Free terms with variables of a given class. -/
def Fragment.free (order : SortOrder) (allowed : Var → Prop) :
    Fragment (Theory.standard order) where
  Mem := Term.FreeOver allowed
  Binds x t := Term.FreeOver allowed (.var x) ∧ t.FreeOver allowed
  frameless h := h.1.frameless
  mem_true := ⟨.bool true, by simp⟩
  mem_var h := h.1
  mem_value h := h.2
  mem_conjuncts h := (hereditary_free.over allowed).conjuncts h
  mem_evaluate := evaluate
  vars_evaluate _ _ := Term.mem_vars_evaluate
  mem_apply := apply
  binds_evaluate h := ⟨h.1, evaluate h.2⟩
  binds_apply hσ _ _ h := ⟨h.1, apply hσ h.2⟩
  binds_of_orient hl hr _ h := by
    rcases Equation.orient_cases h with rfl | rfl
    · exact ⟨hl, hr⟩
    · exact ⟨hr, hl⟩
  unique hl hr h := structural_unique (hereditary_free.over allowed) hl hr h
  disjunction hl hr h := structural_disjunction (hereditary_free.over allowed) hl hr h
where
  /-- Evaluation keeps a free term. -/
  evaluate {t : Term} (ht : t.FreeOver allowed) : t.evaluate.FreeOver allowed := by
    rwa [ht.1.evaluate]
  /-- Instances of free terms by free terms are free. -/
  apply {σ : Substitution}
      (hσ : ∀ b ∈ σ.toList, Term.FreeOver allowed (.var b.1) ∧ b.2.FreeOver allowed) {t : Term}
      (ht : t.FreeOver allowed) : (σ.apply t).FreeOver allowed := by
    have hu : ∀ x u, σ.find? x = some u → u.FreeOver allowed := fun x u h =>
      (hσ (x, u) (Substitution.mem_toList_iff.mpr h)).2
    refine ⟨ht.1.apply fun x u h => (hu x u h).1, fun x hx => ?_⟩
    rcases Term.mem_vars_apply ht.1.frameless hx with ⟨hx, -⟩ | ⟨y, u, -, h, hx⟩
    · exact ht.2 x hx
    · exact (hu y u h).2 x hx

/-! ### Instances as values -/

/-- An instance shows the head that a free term shows. -/
lemma Term.Free.head_apply {σ : Substitution} {h : Term.Head} (ht : t.Free)
    (hh : t.head = some h) : (σ.apply t).head = some h := by
  cases ht with
  | var => cases hh
  | bool | int => exact hh
  | app => rwa [Substitution.apply_app]

/-- A substitution reads a free term as the instance of the term. -/
noncomputable def Reading.instances (d : Subsorts) (allowed : Var → Prop) (u : Substitution) :
    Reading d.order (Term.FreeOver allowed) Term where
  val := u.apply
  size := sizeOf
  not_map h := Term.Free.not_map h.1
  args := (hereditary_free.over allowed).app
  size_lt := by
    intro f ss _ _ s hs
    have := List.sizeOf_lt_of_mem (List.mem_map_of_mem (f := u.apply) hs)
    rw [Substitution.apply_app, Term.app.sizeOf_spec]
    omega
  app_iff := by
    intro f g ss ts hs ht _ _
    obtain ⟨hf, hfs, hfa, -⟩ := Term.Free.app_iff.mp hs.1
    obtain ⟨hg, hgs, hga, -⟩ := Term.Free.app_iff.mp ht.1
    rw [Substitution.apply_app, Substitution.apply_app, Term.app.injEq]
    constructor
    · rintro ⟨rfl, hmap⟩
      exact ⟨rfl, hfa.symm.trans hga, hmap⟩
    · rintro ⟨hname, hlength, hmap⟩
      refine ⟨?_, hmap⟩
      cases f
      cases g
      simp_all [Symbol.isConstructor]
  incompatible := by
    intro s t hs ht h
    have hne : s.sort ≠ t.sort := fun heq => by
      rw [heq, d.compatible_self] at h
      cases h
    rcases hs.1.sort with hsort | ⟨b, rfl⟩ | ⟨i, rfl⟩
    · rw [hsort, d.compatible_top_left] at h
      cases h
    all_goals
      rcases ht.1.sort with hsort | ⟨b', rfl⟩ | ⟨i', rfl⟩
      · rw [hsort, d.compatible_top_right] at h
        cases h
      all_goals first | exact absurd rfl hne | simp
  clash := by
    intro s t hs ht h heq
    unfold Term.headsClash at h
    split at h
    · next a b ha hb =>
        obtain rfl : a = b := Option.some.inj <|
          (hs.1.head_apply ha).symm.trans (heq ▸ ht.1.head_apply hb)
        rw [Term.Head.clash_self] at h
        cases h
    · cases h

/-- A substitution is a meaning of the free terms. -/
noncomputable def Meaning.instances (d : Subsorts) (allowed : Var → Prop) (u : Substitution) :
    Meaning (.free d.order allowed) Term :=
  (Reading.instances d allowed u).meaning
    (fun _ hv _ ht => Substitution.apply_absorb
      (fun x v h => hv (x, v) (Substitution.mem_toList_iff.mpr h)) (ht.1.frameless.framed _))
    (fun ht => congrArg u.apply ht.1.evaluate)
    (fun ht => by rw [ht.1.conjuncts]; simp)

/-! ### Equations that cannot be decomposed -/

/-- Two free terms, neither of them a variable, can be decomposed further or their heads clash. -/
lemma Term.Free.headsClash (hs : s.Free) (ht : t.Free) (hne : s ≠ t) (hs' : s.asVar = none)
    (ht' : t.asVar = none) (h : ∀ f ss g ts, s = .app f ss → t = .app g ts →
      f.isConstructor = false ∨ g.isConstructor = false) : s.headsClash t = true := by
  cases hs with
  | var => cases hs'
  | bool | int =>
      cases ht with
      | var => cases ht'
      | bool | int => simp_all [Term.headsClash, Term.head, Head.clash]
      | app hg => simp [Term.headsClash, Term.head, Head.clash, hg]
  | app hf =>
      cases ht with
      | var => cases ht'
      | bool | int => simp [Term.headsClash, Term.head, Head.clash, hf]
      | app hg => simpa [hf, hg] using h _ _ _ _ rfl rfl

/-- What a decomposition leaves of free terms can be read as a binding. -/
lemma binding?_of_residual (d : Subsorts) (hl : e.left.Free) (hr : e.right.Free)
    (h : Residual e) : ∃ b, e.binding? d.order = some b := by
  have top_le : d.order.le .top .top = true := by simp [Subsorts.order, Subsorts.le]
  -- between two variables either one is bound
  have of_vars : ∀ {x y : Var}, (Term.var x).Free → (Term.var y).Free → Term.var x ≠ .var y →
      ∃ b, (⟨.var x, .var y⟩ : Equation).binding? d.order = some b := by
    intro x y hx hy hne
    have hxy : x ≠ y := fun h => hne (congrArg _ h)
    have horient : (⟨.var x, .var y⟩ : Equation).orient d.order =
        if y.anonymous then some (y, .var x) else some (x, .var y) := by
      simp [Equation.orient, Term.Free.var_iff.mp hx, Term.Free.var_iff.mp hy, top_le]
    cases ha : y.anonymous with
    | true => exact ⟨(y, .var x), Equation.binding?_eq_some_iff.mpr
        ⟨by rw [horient, ha]; rfl, by simpa using hxy.symm⟩⟩
    | false => exact ⟨(x, .var y), Equation.binding?_eq_some_iff.mpr
        ⟨by rw [horient, ha]; rfl, by simpa using hxy⟩⟩
  have not_mem : ∀ {x : Var} {t : Term}, t.Free → occursRigidly x t = false → x ∉ t.vars :=
    fun ht h hx => Bool.false_ne_true (h.symm.trans (ht.occursRigidly_iff.mpr hx))
  cases h with
  | @left x t hne hocc =>
      have hx := not_mem hr hocc
      cases hr with
      | var hy => exact of_vars hl (.var hy) hne
      | bool | int | app => exact ⟨_, Equation.binding?_eq_some_iff.mpr ⟨rfl, hx⟩⟩
  | @right x t hne hocc =>
      have hx := not_mem hl hocc
      cases hl with
      | var hy => exact of_vars (.var hy) hr hne
      | bool | int | app => exact ⟨_, Equation.binding?_eq_some_iff.mpr ⟨rfl, hx⟩⟩
  | kept hne hs ht hc hfg =>
      rw [hl.headsClash hr hne hs ht hfg] at hc
      cases hc

end SolvedForm

import SolvedForm.Proofs.Equation
import SolvedForm.Proofs.Term.Ranges

/-!
Renamings that keep the engine's view of terms.

* `Term.Renaming`: a renaming that is injective on a class of variables and keeps their sorts and
  their anonymity.
* `Term.Separates`, `Term.rename_injective`: a renaming that is injective on a class of variables is
  injective on terms over the class, where maps are in order.
* `Term.sort_rename`, `Term.head_rename`, `Term.provablyDistinct_rename`: it keeps sorts, heads and
  provable distinctness.
* `Equation.truth_rename`, `Equation.binding?_rename`: it keeps the truth of an equation and
  carries the binding that the equation can be read as along.
-/

namespace SolvedForm

namespace Term

/-- The renaming is injective on a class of variables, and keeps sort and anonymity there. -/
structure Renaming (ρ : Var → Var) (S : Var → Prop) : Prop where
  injective {x y : Var} : S x → S y → ρ x = ρ y → x = y
  sort {x : Var} : S x → (ρ x).sort = x.sort
  anonymous {x : Var} : S x → (ρ x).anonymous = x.anonymous

/-- The renaming gives different variables of a class different names. -/
abbrev Separates (ρ : Var → Var) (S : Var → Prop) : Prop :=
  ∀ {x y : Var}, S x → S y → ρ x = ρ y → x = y

variable {ρ : Var → Var} {S : Var → Prop} {s t : Term}

lemma map_eq_map {α β : Type} {f : α → β} {as bs : List α}
    (h : ∀ a ∈ as, ∀ b ∈ bs, f a = f b → a = b) (heq : as.map f = bs.map f) : as = bs := by
  induction as generalizing bs with
  | nil => exact (List.map_eq_nil_iff.mp heq.symm).symm
  | cons a as ih =>
      cases bs with
      | nil => cases heq
      | cons b bs =>
          obtain ⟨hab, hrest⟩ := List.cons_eq_cons.mp heq
          rw [h a List.mem_cons_self b List.mem_cons_self hab,
            ih (fun a ha b hb => h a (List.mem_cons_of_mem _ ha) b (List.mem_cons_of_mem _ hb)) hrest]

lemma rename_ofEntries (ρ : Var → Var) (es : List Entry) (y : Option Var) :
    (ofEntries es y).rename ρ = ofEntries (es.map fun e => (e.1.rename ρ, e.2.rename ρ)) (y.map ρ) := by
  rw [ofEntries, rename_map]
  exact ofEntries_congr fun e => by simp [mem_ofEntries_iff]

/-- A frame and its value are replaced alike under other names. -/
lemma rename_reframe {es : List Entry} {y : Option Var} {image image' : Var → Term}
    (h : ∀ x, y = some x → image' (ρ x) = (image x).rename ρ) :
    (reframe es y image).rename ρ =
      reframe (es.map fun e => (e.1.rename ρ, e.2.rename ρ)) (y.map ρ) image' := by
  cases y with
  | none => exact rename_ofEntries ρ es none
  | some x =>
      have hx := h x rfl
      rw [Option.map_some, reframe, reframe, hx]
      cases image x with
      | var z => exact rename_ofEntries ρ es (some z)
      | map rest z =>
          rw [rename_map, ofEntries]
          dsimp only
          rw [rename_ofEntries]
          exact ofEntries_congr fun e => by simp [mem_ofEntries_iff]
      | app => rw [rename_app]; exact rename_ofEntries ρ es (some x)
      | bool | int | lookup => exact rename_ofEntries ρ es (some x)

/-- Terms over the class whose maps are in order are equal when their renamings are. -/
theorem rename_injective (hρ : Separates ρ S) (hs : s.CanonicalOver S) (ht : t.CanonicalOver S)
    (h : s.rename ρ = t.rename ρ) : s = t := by
  induction s using Term.ind generalizing t with
  | var x =>
      cases t with
      | var y => exact congrArg _ (hρ (hs.ranges x (by simp)) (ht.ranges y (by simp))
          (Term.var.inj h))
      | map => simp [rename_map, ofEntries] at h
      | bool | int | app | lookup => simp at h
  | bool b =>
      cases t with
      | bool b' => exact h
      | map => simp [rename_map, ofEntries] at h
      | var | int | app | lookup => simp at h
  | int i =>
      cases t with
      | int i' => exact h
      | map => simp [rename_map, ofEntries] at h
      | var | bool | app | lookup => simp at h
  | app f args ih =>
      cases t with
      | app g bs =>
          rw [rename_app, rename_app, Term.app.injEq] at h
          rw [h.1, map_eq_map (fun a ha b hb => ih a ha (CanonicalOver.app_iff.mp hs a ha)
            (CanonicalOver.app_iff.mp ht b hb)) h.2]
      | map => simp [rename_map, ofEntries] at h
      | var | bool | int | lookup => simp at h
  | map es x ih =>
      cases t with
      | map fs y =>
          rw [rename_map, rename_map, ofEntries, ofEntries, Term.map.injEq] at h
          -- an entry of the one map has its like in the other one
          have like : ∀ e f : Entry, e ∈ es → f ∈ fs →
              (rename ρ e.1, rename ρ e.2) = (rename ρ f.1, rename ρ f.2) → e = f := by
            intro e f he hf heq
            exact Prod.ext
              ((ih e he).1 (hs.entries e he).1 (ht.entries f hf).1 (Prod.mk.inj heq).1)
              ((ih e he).2 (hs.entries e he).2 (ht.entries f hf).2 (Prod.mk.inj heq).2)
          have same : ∀ b, b ∈ es.map (fun e => (rename ρ e.1, rename ρ e.2)) ↔
              b ∈ fs.map fun e => (rename ρ e.1, rename ρ e.2) := fun b => by
            rw [← mem_ofEntries_iff, h.1, mem_ofEntries_iff]
          have hframe : x = y := by
            cases x with
            | none => exact (Option.map_eq_none_iff.mp h.2.symm).symm
            | some x =>
                obtain ⟨z, rfl, hz⟩ := Option.map_eq_some_iff.mp h.2.symm
                rw [hρ ht.frame hs.frame hz]
          rw [hframe, hs.increasing.ext ht.increasing fun c => ⟨fun hc => ?_, fun hc => ?_⟩]
          · obtain ⟨f, hf, heq⟩ := List.mem_map.mp ((same _).mp (List.mem_map_of_mem hc))
            exact like c f hc hf heq.symm ▸ hf
          · obtain ⟨e, he, heq⟩ := List.mem_map.mp ((same _).mpr (List.mem_map_of_mem hc))
            exact like e c he hc heq ▸ he
      | var | bool | int | app | lookup => simp [rename_map, ofEntries] at h
  | lookup m k ihm ihk =>
      cases t with
      | lookup n l =>
          rw [rename_lookup, rename_lookup, Term.lookup.injEq] at h
          obtain ⟨hm, hk⟩ := CanonicalOver.lookup_iff.mp hs
          obtain ⟨hn, hl⟩ := CanonicalOver.lookup_iff.mp ht
          rw [ihm hm hn h.1, ihk hk hl h.2]
      | map => simp [rename_map, ofEntries] at h
      | var | bool | int | app => simp at h

lemma rename_eq_rename_iff (hρ : Separates ρ S) (hs : s.CanonicalOver S) (ht : t.CanonicalOver S) :
    s.rename ρ = t.rename ρ ↔ s = t :=
  ⟨rename_injective hρ hs ht, congrArg _⟩

/-! ### What the engine sees of a term -/

lemma sort_rename (hρ : Renaming ρ S) (ht : t.Ranges S) : (t.rename ρ).sort = t.sort := by
  induction t using Term.ind with
  | var x => exact hρ.sort (ht x (by simp))
  | bool b => rfl
  | int i => rfl
  | app f args ih =>
      rw [rename_app]
      match args with
      | [c, a, b] =>
          have ha := ih a (by simp) (Ranges.app_iff.mp ht a (by simp))
          simp only [List.map, sort, applies, appliesLabel, ha]
          rfl
      | [] | [_] | [_, _] | _ :: _ :: _ :: _ :: _ => rfl
  | map es frame ih =>
      rw [rename_map]
      rfl
  | lookup m k => rfl

lemma head_rename (hρ : Separates ρ S) (ht : t.CanonicalOver S) : (t.rename ρ).head = t.head := by
  cases t with
  | map es frame =>
      have hn : (es.map fun e => (rename ρ e.1, rename ρ e.2)).Nodup :=
        List.Nodup.map_on (fun e he f hf heq => Prod.ext
          (rename_injective hρ (ht.entries e he).1 (ht.entries f hf).1 (Prod.mk.inj heq).1)
          (rename_injective hρ (ht.entries e he).2 (ht.entries f hf).2 (Prod.mk.inj heq).2))
          ht.increasing.nodup
      rw [rename_map, ofEntries, head, head]
      cases frame with
      | none => rw [Option.map_none, mapSize, mapSize, Sorted.length_ofList hn, List.length_map]
      | some x => rfl
  | app f args => rw [rename_app]; rfl
  | var | bool | int | lookup => rfl

lemma headsClash_rename (hρ : Separates ρ S) (hs : s.CanonicalOver S) (ht : t.CanonicalOver S) :
    (s.rename ρ).headsClash (t.rename ρ) = s.headsClash t := by
  rw [headsClash, headsClash, head_rename hρ hs, head_rename hρ ht]

lemma someDistinct_map {f : Term → Term} {ss ts : List Term}
    (h : ∀ s ∈ ss, ∀ t ∈ ts, (f s).provablyDistinct (f t) = s.provablyDistinct t) :
    someDistinct (ss.map f) (ts.map f) = someDistinct ss ts := by
  induction ss generalizing ts with
  | nil => rfl
  | cons s ss ih =>
      cases ts with
      | nil => rfl
      | cons t ts =>
          rw [List.map_cons, List.map_cons, someDistinct, someDistinct,
            h s List.mem_cons_self t List.mem_cons_self,
            ih fun s hs t ht => h s (List.mem_cons_of_mem _ hs) t (List.mem_cons_of_mem _ ht)]

/-- Outside applications provable distinctness is a clash of heads. -/
lemma provablyDistinct_eq_headsClash (h : s.rootSymbol = none ∨ t.rootSymbol = none) :
    s.provablyDistinct t = s.headsClash t := by
  cases s <;> cases t <;> simp_all [provablyDistinct, rootSymbol]

lemma rootSymbol_rename (ρ : Var → Var) (t : Term) : (t.rename ρ).rootSymbol = t.rootSymbol := by
  cases t <;> simp [rename_map, ofEntries, rootSymbol]

theorem provablyDistinct_rename (hρ : Separates ρ S) (hs : s.CanonicalOver S)
    (ht : t.CanonicalOver S) :
    (s.rename ρ).provablyDistinct (t.rename ρ) = s.provablyDistinct t := by
  induction s using Term.ind generalizing t with
  | app f ss ih =>
      cases t with
      | app g ts =>
          have hargs : someDistinct (ss.map (rename ρ)) (ts.map (rename ρ)) = someDistinct ss ts :=
            someDistinct_map fun s hs' t ht' =>
              ih s hs' (CanonicalOver.app_iff.mp hs s hs') (CanonicalOver.app_iff.mp ht t ht')
          have hclash := headsClash_rename hρ hs ht
          rw [rename_app, rename_app] at hclash ⊢
          rw [provablyDistinct, provablyDistinct, hclash, hargs]
      | var | bool | int | map | lookup =>
          rw [provablyDistinct_eq_headsClash (.inr (rootSymbol_rename ρ _)),
            provablyDistinct_eq_headsClash (.inr rfl), headsClash_rename hρ hs ht]
  | var | bool | int | map | lookup =>
      rw [provablyDistinct_eq_headsClash (.inl (rootSymbol_rename ρ _)),
        provablyDistinct_eq_headsClash (.inl rfl), headsClash_rename hρ hs ht]

end Term

/-! ### Equations -/

namespace Equation

variable {ρ : Var → Var} {S : Var → Prop} {e : Equation} {order : SortOrder}

lemma truth_rename (hρ : Term.Renaming ρ S) (hl : e.left.CanonicalOver S)
    (hr : e.right.CanonicalOver S) : (e.map (Term.rename ρ)).truth order = e.truth order := by
  simp only [truth, map_left, map_right, Term.rename_eq_rename_iff hρ.injective hl hr,
    Term.sort_rename hρ hl.ranges, Term.sort_rename hρ hr.ranges, Term.provablyDistinct_rename hρ.injective hl hr]

lemma orient_rename (hρ : Term.Renaming ρ S) (hl : e.left.Ranges S) (hr : e.right.Ranges S) :
    (e.map (Term.rename ρ)).orient order =
      (e.orient order).map fun b => (ρ b.1, b.2.rename ρ) := by
  obtain ⟨l, r⟩ := e
  cases l with
  | var x =>
      have hx : S x := hl x (by simp)
      cases r with
      | var y =>
          have hy : S y := hr y (by simp)
          simp only [Equation.map, Term.rename_var, orient, hρ.sort hx, hρ.sort hy,
            hρ.anonymous hy]
          split
          · split <;> rfl
          · rfl
          · rfl
          · rfl
      | map => simp [Equation.map, orient, Term.rename_map, Term.ofEntries]
      | bool | int | app | lookup => simp [Equation.map, orient]
  | map es frame =>
      cases r <;> simp [Equation.map, orient, Term.rename_map, Term.ofEntries]
  | bool | int | app | lookup =>
      cases r with
      | map => simp [Equation.map, orient, Term.rename_map, Term.ofEntries]
      | var | bool | int | app | lookup => simp [Equation.map, orient]

lemma binding?_rename (hρ : Term.Renaming ρ S) (hl : e.left.Ranges S) (hr : e.right.Ranges S) :
    (e.map (Term.rename ρ)).binding? order =
      (e.binding? order).map fun b => (ρ b.1, b.2.rename ρ) := by
  rw [binding?, binding?, orient_rename hρ hl hr]
  cases h : e.orient order with
  | none => rfl
  | some b =>
      obtain ⟨x, t⟩ := b
      have hsides : S x ∧ t.Ranges S := by
        rcases orient_cases h with rfl | rfl
        · exact ⟨hl x (by simp), hr⟩
        · exact ⟨hr x (by simp), hl⟩
      have hocc : ρ x ∈ (t.rename ρ).vars ↔ x ∈ t.vars := by
        rw [Term.mem_rename_vars]
        constructor
        · rintro ⟨y, hy, heq⟩
          exact hρ.injective (hsides.2 y hy) hsides.1 heq ▸ hy
        · exact fun hx => ⟨x, hx, rfl⟩
      have hocc' : (t.rename ρ).occurs (ρ x) = t.occurs x :=
        Bool.eq_iff_iff.mpr (by rw [Term.occurs_iff, Term.occurs_iff, hocc])
      simp only [Option.map_some, Option.filter_some, hocc']
      split <;> rfl

end Equation

end SolvedForm

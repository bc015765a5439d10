import SolvedForm.Proofs.Term.Frames
import SolvedForm.Proofs.Unification.Reading

/-!
Distinctness under substitution.

* `Term.Shows`: the terms that stand in a term beneath constructors only, which are those that
  the test for distinctness comes to.
* `Substitution.KeepsEntries`: in every frameless map that a term shows, different entries have
  different instances.
* `Substitution.headsClash_apply`: heads that clash go on to clash.
* `Substitution.apply_ne_of_provablyDistinct`: provably distinct terms have different instances.
* `Substitution.apply_eq_of_shrunk`: why the entries have to be kept apart.
-/

namespace SolvedForm

open Term

/-- The second term stands in the first beneath constructors only. -/
inductive Term.Shows : Term → Term → Prop where
  | self (t : Term) : Shows t t
  | arg {f : Symbol} {args : List Term} {t u : Term} : f.isConstructor = true → t ∈ args →
      Shows t u → Shows (.app f args) u

namespace Substitution

variable {σ : Substitution} {s t : Term} {f : Symbol} {args : List Term}

/-- In every frameless map that the term shows, different entries have different instances. -/
def KeepsEntries (σ : Substitution) (t : Term) : Prop :=
  ∀ es, t.Shows (.map es none) → (es.map fun e => (σ.apply e.1, σ.apply e.2)).Nodup

lemma KeepsEntries.arg (h : σ.KeepsEntries (.app f args)) (hf : f.isConstructor = true) :
    ∀ a ∈ args, σ.KeepsEntries a := fun _ ha es hes => h es (.arg hf ha hes)

lemma keepsEntries_var (x : Var) : σ.KeepsEntries (.var x) := nofun

lemma keepsEntries_app (h : ∀ a ∈ args, σ.KeepsEntries a) : σ.KeepsEntries (.app f args) := by
  rintro es (_ | ⟨-, ha, hes⟩)
  exact h _ ha es hes

lemma keepsEntries_map {es : List Entry}
    (h : (es.map fun e => (σ.apply e.1, σ.apply e.2)).Nodup) : σ.KeepsEntries (.map es none) := by
  rintro _ ⟨⟩
  exact h

/-! ### Heads -/

/-- A map whose size is not known from its entries may get a size by the instance. Every other head
is that of the instance too. -/
lemma head_apply {h : Head} (hσ : σ.KeepsEntries t) (ht : t.head = some h) :
    (σ.apply t).head = some h ∨ h = .map none ∧ ∃ size, (σ.apply t).head = some (.map size) := by
  cases t with
  | var | lookup => cases ht
  | bool | int => exact .inl ht
  | app f args =>
      rw [apply_app]
      exact .inl ht
  | map es frame =>
      cases frame with
      | none =>
          have hn := hσ es (.self _)
          rw [head, mapSize, Option.some.injEq] at ht
          rw [← ht, apply_map, reframe, ofEntries, head, mapSize, Sorted.length_ofList hn,
            List.length_map]
          exact .inl rfl
      | some x =>
          refine .inr ⟨(Option.some.inj ht).symm, ?_⟩
          rw [apply_map, reframe]
          split <;> exact ⟨_, rfl⟩

/-- Heads that clash go on to clash in the instances. -/
lemma headsClash_apply (hs : σ.KeepsEntries s) (ht : σ.KeepsEntries t)
    (h : s.headsClash t = true) : (σ.apply s).headsClash (σ.apply t) = true := by
  unfold headsClash at h
  split at h
  · next a b ha hb =>
      unfold headsClash
      -- of two maps both sizes are known, so that neither is the head that may change
      rcases head_apply hs ha with hs' | ⟨rfl, m, hs'⟩ <;>
        rcases head_apply ht hb with ht' | ⟨rfl, n, ht'⟩ <;> rw [hs', ht']
      · exact h
      · cases a <;> simp_all [Head.clash]
      · cases b <;> simp_all [Head.clash]
      · cases h
  · cases h

lemma ne_of_headsClash (h : s.headsClash t = true) : s ≠ t := by
  rintro rfl
  unfold headsClash at h
  split at h
  · next a b ha hb =>
      obtain rfl : a = b := Option.some.inj (ha.symm.trans hb)
      rw [Head.clash_self] at h
      cases h
  · cases h

/-! ### Terms -/

/-- Provably distinct terms have different instances under every substitution that keeps the
entries of the maps that they show apart. -/
theorem apply_ne_of_provablyDistinct (hs : σ.KeepsEntries s) (ht : σ.KeepsEntries t)
    (h : s.provablyDistinct t = true) : σ.apply s ≠ σ.apply t := by
  have clash : ∀ {s t : Term}, σ.KeepsEntries s → σ.KeepsEntries t → s.headsClash t = true →
      σ.apply s ≠ σ.apply t := fun hs ht h => ne_of_headsClash (headsClash_apply hs ht h)
  induction s using Term.ind generalizing t with
  | app f ss ih =>
      cases t with
      | app g ts =>
          rw [provablyDistinct, Bool.or_eq_true, Bool.and_eq_true, Bool.and_eq_true] at h
          rcases h with h | ⟨⟨hf, hg⟩, h⟩
          · exact clash hs ht h
          · have hargs : ss.map σ.apply ≠ ts.map σ.apply := map_ne_of_someDistinct
              (fun s hs' t ht' => ih s hs' (hs.arg hf s hs') (ht.arg hg t ht')) h
            rw [apply_app, apply_app]
            exact fun heq => hargs (Term.app.inj heq).2
      | var | bool | int | map | lookup => exact clash hs ht h
  | var | bool | int | map | lookup => cases t <;> exact clash hs ht h

/-- Pairs of a map with two symbolic keys and a map with one entry: where the substitution keeps the
two entries apart, the pairs stay different. -/
theorem apply_ne_of_provablyDistinct_pair :
    let x : Var := ⟨"X", .top, false, none⟩
    let y : Var := ⟨"Y", .top, false, none⟩
    let a : Term := .app ⟨"a", 0, none, .constructor⟩ []
    let pair (s t : Term) : Term := .app ⟨"pair", 2, none, .constructor⟩ [s, t]
    let s : Term := pair (.var x) (.ofEntries [(.var x, .int 1), (.var y, .int 1)] none)
    let t : Term := pair (.var x) (.ofEntries [(a, .int 1)] none)
    let σ : Substitution := .single x a
    σ.KeepsEntries s ∧ σ.KeepsEntries t ∧ s.provablyDistinct t = true ∧ σ.apply s ≠ σ.apply t := by
  intro x y a pair s t σ
  have hs : σ.KeepsEntries s := keepsEntries_app (List.forall_mem_cons.mpr
    ⟨keepsEntries_var x, List.forall_mem_singleton.mpr (keepsEntries_map (by decide))⟩)
  have ht : σ.KeepsEntries t := keepsEntries_app (List.forall_mem_cons.mpr
    ⟨keepsEntries_var x, List.forall_mem_singleton.mpr (keepsEntries_map (by decide))⟩)
  have hd : s.provablyDistinct t = true := by decide
  exact ⟨hs, ht, hd, apply_ne_of_provablyDistinct hs ht hd⟩

/-- Not every substitution can be admitted: two symbolic keys may become one, and then a map with
two entries becomes the map with one entry from which it was provably distinct. -/
theorem apply_eq_of_shrunk :
    let x : Var := ⟨"X", .top, false, none⟩
    let y : Var := ⟨"Y", .top, false, none⟩
    let a : Term := .app ⟨"a", 0, none, .constructor⟩ []
    let s : Term := .ofEntries [(.var x, .int 1), (.var y, .int 1)] none
    let t : Term := .ofEntries [(a, .int 1)] none
    let σ : Substitution := .ofList [(x, a), (y, a)]
    s.provablyDistinct t = true ∧ σ.apply s = σ.apply t := by
  decide

end Substitution

end SolvedForm

import Mathlib.Tactic.Common
import SolvedForm.Theory

/-!
Runs of the engine taken apart.

* `exceptBind_eq_ok`, `Engine.bind_eq_ok`, `Engine.pure_eq_ok`, `Engine.lift_bind_eq_ok`: what a
  run that ends with an answer is made of.
* `exists_eq_ok_of_any`: an answer by its properties, for runs that are evaluated.
* `Engine.mem_of_mapM`: every answer of a row of computations comes from one of them.
-/

namespace SolvedForm

/-- A computation whose answer passes a test has an answer. -/
lemma exists_eq_ok_of_any {ε α : Type} {x : Except ε α} {p : α → Bool}
    (h : x.toOption.any p = true) : ∃ a, x = .ok a ∧ p a = true := by
  cases x with
  | error => cases h
  | ok a => exact ⟨a, rfl, h⟩

lemma exceptBind_eq_ok {ε α β : Type} {x : Except ε α} {f : α → Except ε β} {r : β} :
    (x >>= f) = .ok r ↔ ∃ a, x = .ok a ∧ f a = .ok r := by
  cases x <;> simp [bind, Except.bind]

namespace Engine

variable {α β : Type}

lemma bind_eq_ok {x : Engine α} {f : α → Engine β} {n : Nat} {r : β × Nat} :
    (x >>= f) n = .ok r ↔ ∃ a m, x n = .ok (a, m) ∧ f a m = .ok r := by
  change (x n >>= fun p => f p.1 p.2) = .ok r ↔ _
  cases x n with
  | error e => simp [bind, Except.bind]
  | ok p => exact ⟨fun h => ⟨p.1, p.2, rfl, h⟩, fun ⟨_, _, hp, h⟩ => Except.ok.inj hp ▸ h⟩

lemma bind_of_ok {x : Engine α} {f : α → Engine β} {n m : Nat} {a : α} (h : x n = .ok (a, m)) :
    (x >>= f) n = f a m := by
  change (x n >>= fun p => f p.1 p.2) = _
  rw [h]
  rfl

lemma bind_of_error {x : Engine α} {f : α → Engine β} {n : Nat} {fault : Fault}
    (h : x n = .error fault) : (x >>= f) n = .error fault := by
  change (x n).bind _ = _
  rw [h]
  rfl

lemma pure_eq_ok {a b : α} {n m : Nat} :
    (pure a : Engine α) n = .ok (b, m) ↔ a = b ∧ n = m := by
  change Except.ok (a, n) = .ok (b, m) ↔ _
  simp

lemma lift_bind_eq_ok {x : Except Fault α} {f : α → Engine β} {n : Nat} {r : β × Nat} :
    ((liftM x : Engine α) >>= f) n = .ok r ↔ ∃ a, x = .ok a ∧ f a n = .ok r := by
  have lift_eq : (liftM x : Engine α) n = x >>= fun a => .ok (a, n) := rfl
  rw [bind_eq_ok, lift_eq]
  cases x <;> simp [bind, Except.bind]

lemma throw_ne_ok {e : Fault} {n : Nat} {r : α × Nat} : (throw e : Engine α) n ≠ .ok r := nofun

lemma mem_of_mapM {f : α → Engine β} {as : List α} {bs : List β} {n m : Nat}
    (h : as.mapM f n = .ok (bs, m)) : ∀ b ∈ bs, ∃ a ∈ as, ∃ k l, f a k = .ok (b, l) := by
  induction as generalizing bs n m with
  | nil =>
      rw [List.mapM_nil, pure_eq_ok] at h
      simp [← h.1]
  | cons a as ih =>
      rw [List.mapM_cons] at h
      obtain ⟨b, k, hb, h⟩ := bind_eq_ok.mp h
      obtain ⟨cs, l, hcs, h⟩ := bind_eq_ok.mp h
      obtain ⟨rfl, -⟩ := pure_eq_ok.mp h
      intro d hd
      rcases List.mem_cons.mp hd with rfl | hd
      · exact ⟨a, List.mem_cons_self, n, k, hb⟩
      · obtain ⟨a', ha, hd⟩ := ih hcs d hd
        exact ⟨a', List.mem_cons_of_mem a ha, hd⟩

end Engine

end SolvedForm

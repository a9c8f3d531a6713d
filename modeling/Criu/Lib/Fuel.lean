import Mathlib.Tactic.Common

/-!
Computations that run on fuel and may fail. One that ends does so with the same outcome on
every larger amount; on less it has run out. One whose outcome is to run out runs out on
every amount. Sequencing two such computations on the same fuel gives one again.
-/

namespace Fuel

universe u

variable {ε : Type*} {α β : Type u} {out : ε} {f g : ℕ → Except ε α} {n m : ℕ} {r : Except ε α}

/-- The computation ends as `r`, for which the fuel `n` is enough. -/
structure Ends (out : ε) (f : ℕ → Except ε α) (n : ℕ) (r : Except ε α) : Prop where
  any : ∀ k, f k = .error out ∨ f k = r
  enough : ∀ k, n ≤ k → f k = r

theorem Ends.mono (h : Ends out f n r) (hnm : n ≤ m) : Ends out f m r :=
  ⟨h.any, fun k hk => h.enough k (by omega)⟩

theorem Ends.const (r : Except ε α) (n : ℕ) : Ends out (fun _ => r) n r :=
  ⟨fun _ => .inr rfl, fun _ _ => rfl⟩

/-- A computation that runs out on every fuel has run out as its outcome. -/
theorem Ends.stuck (h : ∀ k, f k = .error out) (n : ℕ) : Ends out f n (.error out) :=
  ⟨fun k => .inl (h k), fun k _ => h k⟩

/-- One step of fuel, then `g`. -/
theorem Ends.succ (h0 : f 0 = .error out) (hs : ∀ k, f (k + 1) = g k) (h : Ends out g n r)
    (hnm : n < m) : Ends out f m r := by
  refine ⟨fun k => ?_, fun k hk => ?_⟩
  · cases k with
    | zero => exact .inl h0
    | succ k => simpa only [hs k] using h.any k
  · cases k with
    | zero => omega
    | succ k => simpa only [hs k] using h.enough k (by omega)

theorem Ends.bind {g : α → ℕ → Except ε β} {a : α} {r : Except ε β} (hf : Ends out f n (.ok a))
    (hg : Ends out (g a) n r) : Ends out (fun k => f k >>= fun x => g x k) n r := by
  refine ⟨fun k => ?_, fun k hk => ?_⟩
  · rcases hf.any k with h | h
    · exact .inl (by simp only [h]; rfl)
    · simp only [h]
      exact hg.any k
  · simp only [hf.enough k hk]
    exact hg.enough k hk

theorem Ends.bind_error {g : α → ℕ → Except ε β} {e : ε} (hf : Ends out f n (.error e)) :
    Ends out (fun k => f k >>= fun x => g x k) n (.error e) := by
  refine ⟨fun k => ?_, fun k hk => ?_⟩
  · rcases hf.any k with h | h
    · exact .inl (by simp only [h]; rfl)
    · exact .inr (by simp only [h]; rfl)
  · simp only [hf.enough k hk]
    rfl

end Fuel

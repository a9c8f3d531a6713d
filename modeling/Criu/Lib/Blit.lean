import Mathlib.Data.Nat.Basic
import Mathlib.Tactic.Common

/-!
Block copies and wipes on total cell functions. A memory or a file is a function
from positions to cells; a transfer of a block only changes the cells of its
destination window. Consecutive blocks compose, so a transfer done in pieces of
any size is the transfer done at once.
-/

namespace Blit

variable {β : Type*}

/-- Copy `len` cells of `src` starting at `off` to the window of `dst` at `pos`. -/
def blit (dst : ℕ → β) (pos : ℕ) (src : ℕ → β) (off len : ℕ) : ℕ → β :=
  fun a => if pos ≤ a ∧ a < pos + len then src (off + (a - pos)) else dst a

/-- Overwrite the window of `len` cells at `off` by the cell `z`. -/
def wipe (z : β) (f : ℕ → β) (off len : ℕ) : ℕ → β :=
  fun o => if off ≤ o ∧ o < off + len then z else f o

variable {off len pos a o : ℕ}

theorem blit_inside (dst src : ℕ → β) (hlo : pos ≤ a) (hhi : a < pos + len) :
    blit dst pos src off len a = src (off + (a - pos)) := by
  simp [blit, hlo, hhi]

theorem blit_outside (dst src : ℕ → β) (h : ¬ (pos ≤ a ∧ a < pos + len)) :
    blit dst pos src off len a = dst a := by
  simp [blit, h]

@[simp] theorem blit_zero (dst src : ℕ → β) (pos off : ℕ) : blit dst pos src off 0 = dst := by
  funext a
  exact blit_outside dst src (by omega)

/-- Copies read only the source cells of their window. -/
theorem blit_congr_src {dst src src' : ℕ → β} (h : ∀ o, off ≤ o → o < off + len → src o = src' o) :
    blit dst pos src off len = blit dst pos src' off len := by
  funext a
  by_cases ha : pos ≤ a ∧ a < pos + len
  · rw [blit_inside dst src ha.1 ha.2, blit_inside dst src' ha.1 ha.2]
    exact h _ (by omega) (by omega)
  · rw [blit_outside dst src ha, blit_outside dst src' ha]

theorem blit_append (dst src : ℕ → β) (pos off m n : ℕ) :
    blit (blit dst pos src off m) (pos + m) src (off + m) n = blit dst pos src off (m + n) := by
  funext a
  by_cases h1 : pos ≤ a ∧ a < pos + m
  · rw [blit_outside _ _ (by omega), blit_inside _ _ h1.1 h1.2, blit_inside _ _ h1.1 (by omega)]
  · by_cases h2 : pos + m ≤ a ∧ a < pos + m + n
    · rw [blit_inside _ _ h2.1 h2.2, blit_inside _ _ (by omega) (by omega)]
      congr 1
      omega
    · rw [blit_outside _ _ h2, blit_outside _ _ h1, blit_outside _ _ (by omega)]

theorem wipe_inside (z : β) (f : ℕ → β) (hlo : off ≤ o) (hhi : o < off + len) :
    wipe z f off len o = z := by
  simp [wipe, hlo, hhi]

theorem wipe_outside (z : β) (f : ℕ → β) (h : ¬ (off ≤ o ∧ o < off + len)) :
    wipe z f off len o = f o := by
  simp [wipe, h]

end Blit

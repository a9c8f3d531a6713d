import Mathlib.Data.List.Basic

/-!
Moving a known number of items from a queue in pieces. The environment chooses how much
each call moves; a loop that goes on until everything is moved has the effect of a single
transfer, as long as every call moves something.
-/

namespace Transfer

variable {α : Type*}

/-- Move `left` items from `src` to the end of `dst`. The size of each move is chosen by
`kernel` from the number of the call and what is asked for. A move of nothing is an error. -/
def transfer (kernel : ℕ → ℕ → ℕ) : ℕ → ℕ → List α → List α → ℕ →
    Option (ℕ × List α × List α)
  | 0, _, _, _, _ => none
  | fuel + 1, calls, src, dst, left =>
      let n := min (kernel calls left) (min left src.length)
      if n = 0 then none
      else if n = left then some (calls + 1, src.drop n, dst ++ src.take n)
      else transfer kernel fuel (calls + 1) (src.drop n) (dst ++ src.take n) (left - n)

theorem transfer_eq {kernel : ℕ → ℕ → ℕ} (hk : ∀ k n, 0 < n → 0 < kernel k n) (fuel calls : ℕ)
    (src dst : List α) (left : ℕ) (hpos : 0 < left) (hle : left ≤ src.length)
    (hfuel : left ≤ fuel) :
    ∃ calls', transfer kernel fuel calls src dst left =
      some (calls', src.drop left, dst ++ src.take left) := by
  induction fuel generalizing calls src dst left with
  | zero => omega
  | succ fuel ih =>
    have hstep := hk calls left hpos
    simp only [transfer]
    set n := min (kernel calls left) (min left src.length) with hn
    have hn0 : n ≠ 0 := by omega
    rw [if_neg hn0]
    by_cases hall : n = left
    · exact ⟨calls + 1, by rw [if_pos hall, hall]⟩
    · obtain ⟨calls', hrun⟩ := ih (calls + 1) (src.drop n) (dst ++ src.take n) (left - n)
        (by omega) (by rw [List.length_drop]; omega) (by omega)
      refine ⟨calls', ?_⟩
      rw [if_neg hall, hrun, List.drop_drop, List.append_assoc, ← List.take_add,
        Nat.add_sub_cancel' (by omega)]

end Transfer

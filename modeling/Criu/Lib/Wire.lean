import Mathlib.Data.Nat.Bitwise

/-!
Fixed-width fields on a byte stream. A number is written as its low bytes, least
significant first, and read back modulo the width. Two numbers packed into one word by a
shift come apart again when the lower one fits below the shift.
-/

namespace Wire

variable {b lo : ℕ}

/-- The `w` lowest bytes of a number, least significant first. -/
def leBytes : ℕ → ℕ → List UInt8
  | 0, _ => []
  | w + 1, n => UInt8.ofNat n :: leBytes w (n / 256)

def leValue : List UInt8 → ℕ
  | [] => 0
  | b :: rest => b.toNat + 256 * leValue rest

@[simp] theorem leBytes_length (w n : ℕ) : (leBytes w n).length = w := by
  induction w generalizing n with
  | zero => rfl
  | succ w ih => simp [leBytes, ih]

theorem leValue_leBytes (w n : ℕ) : leValue (leBytes w n) = n % 256 ^ w := by
  induction w generalizing n with
  | zero => simp [leBytes, leValue, Nat.mod_one]
  | succ w ih =>
    have hlow : (UInt8.ofNat n).toNat = n % 256 := UInt8.toNat_ofNat'
    rw [leBytes, leValue, ih, hlow, Nat.pow_succ', Nat.mod_mul]

/-- Read a field of `w` bytes and what follows it. -/
def takeField (w : ℕ) (stream : List UInt8) : ℕ × List UInt8 :=
  (leValue (stream.take w), stream.drop w)

theorem takeField_append {w n : ℕ} (h : n < 256 ^ w) (rest : List UInt8) :
    takeField w (leBytes w n ++ rest) = (n, rest) := by
  have hlen : (leBytes w n).length = w := leBytes_length w n
  unfold takeField
  rw [List.take_left' hlen, List.drop_left' hlen, leValue_leBytes, Nat.mod_eq_of_lt h]

theorem pack_low (hi : ℕ) (h : lo < 2 ^ b) : (hi <<< b ||| lo) &&& (2 ^ b - 1) = lo := by
  rw [← Nat.shiftLeft_add_eq_or_of_lt h, Nat.and_two_pow_sub_one_eq_mod, Nat.shiftLeft_eq]
  rw [Nat.mul_comm, Nat.mul_add_mod, Nat.mod_eq_of_lt h]

theorem pack_high (hi : ℕ) (h : lo < 2 ^ b) : (hi <<< b ||| lo) >>> b = hi := by
  rw [← Nat.shiftLeft_add_eq_or_of_lt h, Nat.shiftRight_eq_div_pow, Nat.shiftLeft_eq]
  rw [Nat.mul_comm, Nat.mul_add_div (Nat.two_pow_pos b), Nat.div_eq_of_lt h, Nat.add_zero]

theorem pack_lt {c hi : ℕ} (hhi : hi < 2 ^ c) (hlo : lo < 2 ^ b) :
    hi <<< b ||| lo < 2 ^ (c + b) := by
  rw [← Nat.shiftLeft_add_eq_or_of_lt hlo, Nat.shiftLeft_eq]
  calc hi * 2 ^ b + lo < hi * 2 ^ b + 2 ^ b := Nat.add_lt_add_left hlo _
    _ = (hi + 1) * 2 ^ b := by rw [Nat.add_mul, Nat.one_mul]
    _ ≤ 2 ^ c * 2 ^ b := Nat.mul_le_mul_right _ hhi
    _ = 2 ^ (c + b) := by rw [Nat.pow_add]

end Wire

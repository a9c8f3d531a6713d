import Criu.StringSplit

/-!
Numbers in injected code (compel/plugins/std/string.c). The value of a letter is taken from the
address of a table entry and so is the letter itself, which is no digit of any base. The digit that
is equal to the base is taken for one, and white space within the digits is passed over.
-/

namespace Criu.Strtoul

open StringSplit List

def isspace (c : Fin 256) : Bool := c = 32 || c = 12 || c = 10 || c = 13 || c = 9 || c = 11

def tolower (c : Fin 256) : Fin 256 := if c ≤ 90 ∧ 65 ≤ c then c - 65 + 97 else c

def isalpha (c : Fin 256) : Bool := (c ≤ 90 && 65 ≤ c) || (c ≤ 122 && 97 ≤ c)

def isdigit (c : Fin 256) : Bool := c ≤ 57 && 48 ≤ c

def isalnum (c : Fin 256) : Bool := isalpha c || isdigit c

def convVal (c : Fin 256) : ℕ :=
  if isdigit c then c.val - 48
  -- the distance of the entry from the start of the table
  else if isalpha c then (tolower c).val
  else 2 ^ 32 - 1

/-- The base and the text behind `0b` or `0x`. -/
def basePrefix (base : ℕ) (s : Bytes) : ℕ × Bytes :=
  if base = 0 then
    if s.head? = some 48 then
      match s.tail.head?.map tolower with
      | some 98 => (2, s.drop 2)
      | some 120 => (16, s.drop 2)
      | _ => (8, s.tail)
    else (10, s)
  else if base = 16 ∧ s.head? = some 48 ∧ s.tail.head?.map tolower = some 120 then (16, s.drop 2)
  else (base, s)

def digits (base : ℕ) : Bytes → UInt64 → UInt64 × Bytes
  | [], num => (num, [])
  | c :: s, num =>
      if c = 0 then (num, c :: s)
      else if isspace c then digits base s num
      else if !isalnum c || convVal c = 2 ^ 32 - 1 || base < convVal c then (num, c :: s)
      else digits base s (num * .ofNat base + .ofNat (convVal c))

/-- The result and what `endptr` points to. A negative base is refused as one above 36 is. -/
def stdStrtoul (nptr : Bytes) (base : ℕ) : UInt64 × Bytes :=
  if base = 1 ∨ 36 < base then (0, nptr)
  else
    let s := nptr.dropWhile isspace
    if s.head?.getD 0 = 0 then (0, s)
    else
      let neg := s.head? = some 45
      let (base, s) := basePrefix base (if neg then s.tail else s)
      let (num, s) := digits base s 0
      (if neg then -num else num, s)

def digitVal (c : Fin 256) : ℕ :=
  if isdigit c then c.val - 48 else if isalpha c then (tolower c).val - 97 + 10 else 36

section Spec

variable (base : ℕ) (s : Bytes)

/-- The text behind white space, sign and `0x`. -/
def numeral : Bytes :=
  let s := s.dropWhile isspace
  (basePrefix base (if s.head? = some 45 then s.tail else s)).2

def run : Bytes := s.takeWhile fun c => digitVal c < base

def value : ℕ := (run base s).foldl (fun n c => n * base + digitVal c) 0

def expected : UInt64 × Bytes :=
  let n := .ofNat (value base (numeral base s))
  (if (s.dropWhile isspace).head? = some 45 then -n else n,
    (numeral base s).dropWhile fun c => digitVal c < base)

/-- No digit is a letter, and behind them is neither white space nor the digit that is equal to the
base. -/
def plain : Bool :=
  (run base s).all isdigit &&
    (s.dropWhile fun c => digitVal c < base).head?.all fun c =>
      !isspace c && !(isdigit c && digitVal c = base)

end Spec

variable {base : ℕ} {c : Fin 256} {s : Bytes} {num : UInt64}

/-- White space and decimal digits up to the base are taken, and nothing else. -/
theorem digits_cons (hb : base ≤ 36) : digits base (c :: s) num =
    if isspace c then digits base s num
    else if isdigit c ∧ digitVal c ≤ base then
      digits base s (num * .ofNat base + .ofNat (digitVal c))
    else (num, c :: s) := by
  have hclass : (isspace c → c ≠ 0 ∧ isdigit c = false) ∧
      if isdigit c then convVal c = digitVal c ∧ isalnum c ∧ c ≠ 0 ∧ convVal c < 10
      else isalnum c → 97 ≤ convVal c := by
    revert c
    decide +kernel
  grind [digits]

theorem length_digits_le (hb : base ≤ 36) : (digits base s num).2.length ≤ s.length := by
  induction s generalizing num with
  | nil => exact Nat.le_refl _
  | cons c s ih =>
    rw [digits_cons hb]
    split
    · exact Nat.le_succ_of_le ih
    split
    · exact Nat.le_succ_of_le ih
    · exact Nat.le_refl _

theorem space_digitVal (h : isspace c = true) : digitVal c = 36 := by
  revert c
  decide +kernel

theorem digits_eq_iff (hb : base ≤ 36) (n : ℕ) :
    digits base s (.ofNat n) = (.ofNat ((run base s).foldl (fun n c => n * base + digitVal c) n),
      s.dropWhile fun c => digitVal c < base) ↔ plain base s := by
  induction s generalizing n with
  | nil => simp [digits, run, plain]
  | cons c s ih =>
    have hspace := @space_digitVal c
    by_cases hin : digitVal c < base
    · have hrun : run base (c :: s) = c :: run base s := takeWhile_cons_of_pos (by simpa)
      have hdrop : (c :: s).dropWhile (fun c => digitVal c < base) =
          s.dropWhile fun c => digitVal c < base := dropWhile_cons_of_pos (by simpa)
      rw [digits_cons hb, if_neg (by intro h; have := hspace h; omega), plain, hrun,
        hdrop]
      by_cases hdec : isdigit c = true
      · rw [if_pos ⟨hdec, Nat.le_of_lt hin⟩, ← UInt64.ofNat_mul, ← UInt64.ofNat_add, foldl_cons, ih]
        simp [plain, hdec]
      · rw [if_neg fun h => hdec h.1]
        have hlen := (dropWhile_suffix (l := s) fun c => digitVal c < base).length_le
        refine iff_of_false (fun h => ?_) (by simp [hdec])
        rw [← (Prod.mk.inj h).2, length_cons] at hlen
        omega
    · have hrun : run base (c :: s) = [] := takeWhile_cons_of_neg (by simpa using hin)
      have hdrop : (c :: s).dropWhile (fun c => digitVal c < base) = c :: s :=
        dropWhile_cons_of_neg (by simpa using hin)
      have hno : ∀ num, digits base s num ≠ (.ofNat n, c :: s) := by
        intro num h
        have hle := @length_digits_le base s num hb
        rw [h, length_cons] at hle
        omega
      rw [digits_cons hb, plain]
      grind

theorem stdStrtoul_eq (h2 : 2 ≤ base) (h36 : base ≤ 36) : stdStrtoul s base =
    let r := digits base (numeral base s) 0
    (if (s.dropWhile isspace).head? = some 45 then -r.1 else r.1, r.2) := by
  have hfst : ∀ t, (basePrefix base t).1 = base := by
    grind [basePrefix]
  rw [stdStrtoul, if_neg (by omega), numeral]
  dsimp only
  generalize s.dropWhile isspace = t
  split
  · next h0 =>
    cases t with
    | nil => simp [basePrefix, digits, show base ≠ 0 by omega]
    | cons c t =>
      obtain rfl : c = 0 := h0
      simp [basePrefix, digits, show base ≠ 0 by omega]
  · rw [hfst]

/-- A number is read as it should be exactly if its digits are plain. -/
theorem strtoul_right_iff (base : ℕ) (h2 : 2 ≤ base) (h36 : base ≤ 36) (s : Bytes) :
    stdStrtoul s base = expected base s ↔ plain base (numeral base s) := by
  rw [stdStrtoul_eq h2 h36, ← digits_eq_iff h36 0, expected, value]
  split <;> simp [Prod.ext_iff]

theorem strtoul_decimal : stdStrtoul [32, 45, 49, 50] 10 = expected 10 [32, 45, 49, 50] :=
  (strtoul_right_iff 10 (by decide) (by decide) _).mpr (by decide)

/-- The letters of `0xff` are not read. -/
theorem hexadecimal_letters_refused : stdStrtoul [48, 120, 102, 102] 16 ≠
    expected 16 [48, 120, 102, 102] := by
  decide

end Criu.Strtoul

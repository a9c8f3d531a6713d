import Mathlib.Data.Nat.Digits.Lemmas
import Mathlib.Data.List.TakeWhile
import Criu.Strtoul

/-!
Numbers printed by injected code (compel/plugins/std/log.c and string.c). The digits are written
backwards into a local buffer. A negative number is negated first; the smallest number is its own
negation, so that the loop ends before the first digit and a sign alone is printed.
-/

namespace Criu.PrintNum

open StringSplit Strtoul List

/-- A buffer that is filled from behind: `room` bytes are free, behind them are the text and the
terminating zero. -/
structure Buf where
  room : ℕ
  text : Bytes

/-- `*s = c; s--`, which fails in front of the buffer. -/
def Buf.put (buf : Buf) (c : Fin 256) : Option Buf :=
  if buf.room = 0 then none else some ⟨buf.room - 1, c :: buf.text⟩

/-- The last byte is set to zero. -/
def Buf.empty (blen : ℕ) : Buf := ⟨blen - 1, []⟩

def printString (buf : Buf) : Bytes := buf.text.takeWhile (· ≠ 0)

inductive Radix
  | dec
  | hex

namespace Radix

def base : Radix → ℕ
  | dec => 10
  | hex => 16

/-- A digit, for hexadecimal numbers an entry of `conv_tab`. -/
def digit (d : ℕ) : Radix → Fin 256
  | dec => .ofNat 256 (d + 48)
  | hex => ((range' 48 10 ++ range' 97 26).map (Fin.ofNat 256)).getD d 0

end Radix

def digitLoop (r : Radix) (buf : Buf) (num : ℤ) : Option Buf :=
  if 0 < num then do digitLoop r (← buf.put (r.digit (num.tmod r.base).toNat)) (num.tdiv r.base)
  else some buf
termination_by num.toNat
decreasing_by
  rw [Int.tdiv_eq_ediv_of_nonneg (by omega)]
  cases r <;> simp only [Radix.base] <;> omega

def vprintDigits (r : Radix) (buf : Buf) (num : ℤ) : Option Buf :=
  if num = 0 then buf.put 48 else digitLoop r buf num

section Source

variable {w : ℕ}

def vprintSigned (blen : ℕ) (num : BitVec w) : Option Buf :=
  if num.toInt < 0 then do (← digitLoop .dec (.empty blen) (-num).toInt).put 45
  else vprintDigits .dec (.empty blen) num.toInt

def stdVprintNum (blen : ℕ) (num : BitVec 32) : Option (Buf × ℕ) :=
  (vprintSigned blen num).map fun buf => (buf, blen - buf.room - 1)

def printNumL (num : BitVec w) : Option Bytes :=
  (vprintSigned 22 num).map printString

/-- The loop of `print_num_u`, whose body comes before its condition. -/
def digitDoLoop (buf : Buf) (num : ℕ) : Option Buf := do
  digitLoop .dec (← buf.put (Radix.dec.digit (num % 10))) (num / 10 : ℕ)

def printNumU (num : BitVec w) : Option Bytes :=
  (digitDoLoop (.empty 22) num.toNat).map printString

/-- One digit, and how far from the end the highest one is that is not a zero. -/
def hexdigit (v : ℕ) (buf : Buf) (z : ℕ) : Option (Buf × ℕ) := do
  let c := Radix.hex.digit (v &&& 0xf)
  let buf ← buf.put c
  some (buf, if c ≠ 48 then buf.text.length else z)

/-- The calls of `hexdigit`, whose argument is cut to an `unsigned int`. -/
def hexdigits (num : ℕ) (buf : Buf) : ℕ → Option (Buf × ℕ)
  | 0 => some (buf, 1)
  | nr + 1 => do
    let (buf, z) ← hexdigits num buf nr
    hexdigit (num >>> (4 * nr) % 2 ^ 32) buf z

/-- The two bytes in front of the numeral are overwritten. -/
def hexText (blen nr num : ℕ) : Option Bytes := do
  let (⟨room, text⟩, z) ← hexdigits num (.empty blen) nr
  if room + text.length < z + 2 then none
  else some (printString ⟨room + text.length - z - 2, 48 :: 120 :: text.drop (text.length - z)⟩)

def printHex (num : BitVec 32) : Option Bytes := hexText 11 8 num.toNat

def printHexL (num : BitVec w) : Option Bytes := hexText 19 (w / 4) num.toNat

/-- The result counts the terminating zero. -/
def stdVprintLong (blen : ℕ) (num : BitVec w) : Option (Buf × ℕ) :=
  (vprintSigned blen num).map fun buf => (buf, blen - buf.room)

def stdVprintLongHex (blen : ℕ) (num : BitVec w) : Option (Buf × ℕ) :=
  (vprintDigits .hex (.empty blen) num.toNat).map fun buf => (buf, blen - buf.room)

end Source

def Reads (base n : ℕ) (t : Bytes) : Prop :=
  (∀ c ∈ t, digitVal c < base) ∧ Nat.ofDigits base (t.map digitVal).reverse = n

structure Numeral (base n : ℕ) (t : Bytes) : Prop where
  read : Reads base n t
  lead : t = [48] ∨ ∃ c ds, t = c :: ds ∧ c ≠ 48

def Signed (v : ℤ) (t : Bytes) : Prop :=
  if v < 0 then ∃ ds, t = 45 :: ds ∧ Numeral 10 (-v).toNat ds else Numeral 10 v.toNat t

def Hex (n : ℕ) (t : Bytes) : Prop := ∃ ds, t = 48 :: 120 :: ds ∧ Numeral 16 n ds

def Prints (text : Option Bytes) (kind : Bytes → Prop) : Prop := ∃ t, text = some t ∧ kind t

/-- The caller's part for `std_vprint_num` and the functions of string.c. -/
def printed (r : Option (Buf × ℕ)) : Option Bytes := r.map fun (buf, _) => printString buf

section Digits

variable {t : Bytes} {c : Fin 256} {r : Radix} {base m n p : ℕ}

theorem Reads.snoc (h : Reads base m t) (hc : digitVal c < base) :
    Reads base (base * m + digitVal c) (t ++ [c]) :=
  ⟨forall_mem_append.mpr ⟨h.1, by simpa using hc⟩, by simp [Nat.ofDigits_cons, h.2, add_comm]⟩

theorem Reads.cons (h : Reads base n t) (hc : digitVal c < base) :
    Reads base (n + base ^ t.length * digitVal c) (c :: t) :=
  ⟨forall_mem_cons.mpr ⟨hc, h.1⟩, by simp [Nat.ofDigits_append, h.2]⟩

theorem Numeral.snoc (h : Numeral base m t) (hm : 0 < m) (hc : digitVal c < base) :
    Numeral base (base * m + digitVal c) (t ++ [c]) := by
  refine ⟨h.read.snoc hc, ?_⟩
  obtain rfl | ⟨d, ds, rfl, hd⟩ := h.lead
  · have hzero : 0 = m := by simpa [show digitVal 48 = 0 from rfl] using h.read.2
    omega
  · exact .inr ⟨d, ds ++ [c], rfl, hd⟩

theorem Numeral.printed (h : Numeral base n t) (hb : base ≤ 36) : t.takeWhile (· ≠ 0) = t := by
  refine takeWhile_eq_self_iff.mpr fun c hc => ?_
  have := h.read.1 c hc
  by_contra h0
  simp at h0
  subst h0
  exact absurd this (Nat.not_lt.mpr hb)

theorem digitVal_digit {d : ℕ} (h : d < r.base) : digitVal (r.digit d) = d := by
  revert d
  cases r <;> decide

theorem numeral_digit {d : ℕ} (h : d < r.base) : Numeral r.base d [r.digit d] := by
  have hdigit := digitVal_digit h
  refine ⟨⟨by simpa [hdigit] using h, by simp [hdigit]⟩, ?_⟩
  by_cases hd : r.digit d = 48
  · exact .inl (by rw [hd])
  · exact .inr ⟨_, [], rfl, hd⟩

theorem digitLoop_pos (h : 0 < n) : digitLoop r ⟨p + 1, t⟩ n =
    digitLoop r ⟨p, r.digit (n % r.base) :: t⟩ (n / r.base : ℕ) := by
  rw [digitLoop, if_pos (by omega)]
  rfl

theorem digitLoop_ok {k j : ℕ} (hn : 0 < n) (hk : n < r.base ^ k) (hj : k + j ≤ p) :
    ∃ p' ds, digitLoop r ⟨p, t⟩ n = some ⟨p', ds ++ t⟩ ∧ Numeral r.base n ds ∧
      j ≤ p' := by
  have hb : 1 < r.base := by cases r <;> decide
  induction n using Nat.strong_induction_on generalizing p t k with
  | _ n ih =>
    obtain ⟨k, rfl⟩ : ∃ k', k = k' + 1 := Nat.exists_eq_add_one.mpr
      (Nat.pos_of_ne_zero fun h0 => by simp [h0] at hk; omega)
    obtain ⟨p, rfl⟩ : ∃ p', p = p' + 1 := Nat.exists_eq_add_one.mpr (by omega)
    have hmod : n % r.base < r.base := Nat.mod_lt _ (by omega)
    rw [digitLoop_pos hn]
    by_cases hq : n / r.base = 0
    · have hself : n % r.base = n := Nat.mod_eq_of_lt ((Nat.div_eq_zero_iff_lt (by omega)).mp hq)
      rw [hq, digitLoop, hself]
      exact ⟨p, [r.digit n], rfl, numeral_digit (hself ▸ hmod), by omega⟩
    · have hk' : n / r.base < r.base ^ k := Nat.div_lt_of_lt_mul (by rwa [← Nat.pow_succ'])
      obtain ⟨p', ds, hrun, hnum, hp'⟩ := ih _ (Nat.div_lt_self hn hb)
        (Nat.pos_of_ne_zero hq) hk' (show k + j ≤ p by omega)
      have hall := hnum.snoc (Nat.pos_of_ne_zero hq) ((digitVal_digit hmod).symm ▸ hmod)
      rw [digitVal_digit hmod, Nat.div_add_mod] at hall
      exact ⟨p', _, by rw [hrun, append_cons], hall, hp'⟩

theorem vprintDigits_ok {k : ℕ} (hk : n < r.base ^ k) (hp : k ≤ p) (h0 : 0 < p) :
    Prints ((vprintDigits r ⟨p, []⟩ n).map printString) (Numeral r.base n) := by
  obtain ⟨buf, hrun, hnum⟩ :
      ∃ buf, vprintDigits r ⟨p, []⟩ n = some buf ∧ Numeral r.base n buf.text := by
    unfold vprintDigits
    by_cases hn : n = 0
    · have hnum := numeral_digit (r := r) (d := 0) (by cases r <;> decide)
      rw [show r.digit 0 = 48 by cases r <;> rfl] at hnum
      rw [hn]
      exact ⟨_, if_neg h0.ne', hnum⟩
    · obtain ⟨p', ds, hrun, hnum, -⟩ :=
        digitLoop_ok (j := 0) (Nat.pos_of_ne_zero hn) hk hp
      rw [if_neg (by omega), hrun]
      exact ⟨_, rfl, by rwa [append_nil]⟩
  rw [hrun]
  exact ⟨buf.text, congrArg some (hnum.printed (by cases r <;> decide)), hnum⟩

theorem digitDoLoop_eq (p n : ℕ) :
    digitDoLoop ⟨p + 1, []⟩ n = vprintDigits .dec ⟨p + 1, []⟩ n := by
  rw [vprintDigits]
  by_cases hn : n = 0
  · rw [hn]
    simp [digitDoLoop, digitLoop, Radix.digit]
  · rw [if_neg (by omega), digitLoop_pos (Nat.pos_of_ne_zero hn)]
    rfl

theorem vprintSigned_iff {w k blen : ℕ} (num : BitVec w) (hw : 0 < w)
    (hk : 2 ^ w ≤ Radix.dec.base ^ k) (hblen : k + 2 ≤ blen) :
    Prints ((vprintSigned blen num).map printString) (Signed num.toInt) ↔ num ≠ .intMin w := by
  have hlo := @BitVec.le_two_mul_toInt w num
  have hhi := @BitVec.two_mul_toInt_lt w num
  zify at hk
  rw [vprintSigned, Buf.empty]
  by_cases hneg : num.toInt < 0
  · simp only [Prints, Signed, if_pos hneg]
    by_cases hmin : num = .intMin w
    · -- the loop has nothing to do
      have hopp : ¬ 0 < (-num).toInt := by rw [hmin, BitVec.neg_intMin, ← hmin]; omega
      refine iff_of_false ?_ (not_not.mpr hmin)
      rintro ⟨t, hrun, ds, rfl, hnum⟩
      rw [digitLoop, if_neg hopp] at hrun
      have hds : ds = [] := by simpa [Buf.put, printString, show blen - 1 ≠ 0 by omega] using hrun
      obtain h | ⟨_, _, h, -⟩ := hnum.lead <;> cases hds.symm.trans h
    · obtain ⟨n, hn⟩ := Int.eq_ofNat_of_zero_le (show 0 ≤ -num.toInt by omega)
      obtain ⟨p, ds, hrun, hnum, hp⟩ := digitLoop_ok (r := .dec) (n := n) (k := k) (j := 1)
        (p := blen - 1) (by omega) (by zify; omega) (by omega)
      rw [BitVec.toInt_neg_of_ne_intMin hmin, hn, hrun]
      refine iff_of_true ⟨45 :: ds, ?_, ds, rfl, hnum⟩ hmin
      simpa [Buf.put, printString, show p ≠ 0 by omega] using hnum.printed (by decide)
  · obtain ⟨n, hn⟩ := Int.eq_ofNat_of_zero_le (not_lt.mp hneg)
    have hmin : num ≠ .intMin w := by
      rintro rfl
      exact hneg (BitVec.toInt_intMin_of_pos hw ▸ neg_neg_of_pos (pow_pos two_pos _))
    rw [hn]
    exact iff_of_true (vprintDigits_ok (k := k) (by zify; omega) (by omega) (by omega)) hmin

theorem stdVprintNum_iff (n : ℕ) (num : BitVec 32) :
    Prints (printed (stdVprintNum (12 + n) num)) (Signed num.toInt) ↔ num ≠ .intMin 32 := by
  rw [printed, stdVprintNum, Option.map_map]
  exact vprintSigned_iff (k := 10) num (by decide) (by decide) (by omega)

/-- The digits so far, and the numeral at `z`; in front of it there are only zeros. -/
theorem hexdigits_ok (num : ℕ) {nr : ℕ} (h : nr ≤ p) : ∃ buf z,
    hexdigits num ⟨p, []⟩ nr = some (buf, z) ∧ buf.room + nr = p ∧ buf.text.length = nr ∧
      Reads 16 (num % 16 ^ nr) buf.text ∧ (nr = 0 → z = 1) ∧ (0 < nr → z ≤ nr ∧
        Numeral 16 (num % 16 ^ nr) (buf.text.drop (nr - z))) := by
  induction nr with
  | zero =>
    exact ⟨_, _, rfl, rfl, rfl, ⟨nofun, by simp [Nat.mod_one]⟩, fun _ => rfl, nofun⟩
  | succ nr ih =>
    obtain ⟨⟨p', u⟩, z, hrun, hp, hlen, hread, hz, hnum⟩ := ih (by omega)
    have hdigit : num >>> (4 * nr) % 2 ^ 32 &&& 0xf = num / 16 ^ nr % 16 := by
      rw [show 0xf = 2 ^ 4 - 1 from rfl, Nat.and_two_pow_sub_one_eq_mod,
        Nat.mod_mod_of_dvd _ (by decide), Nat.shiftRight_eq_div_pow, Nat.pow_mul]
    have hlt : num / 16 ^ nr % 16 < 16 := Nat.mod_lt _ (by decide)
    obtain ⟨c, hc⟩ : ∃ c, Radix.hex.digit (num / 16 ^ nr % 16) = c := ⟨_, rfl⟩
    have hval : digitVal c = num / 16 ^ nr % 16 := hc ▸ digitVal_digit hlt
    have hall := hread.cons (by rwa [hval])
    dsimp only at hp
    rw [hlen, hval, ← Nat.mod_pow_succ] at hall
    have hput : hexdigits num ⟨p, []⟩ (nr + 1) =
        some (⟨p' - 1, c :: u⟩, if c ≠ 48 then nr + 1 else z) := by
      simp only [hexdigits, hrun, hexdigit, hdigit, hc, Buf.put, Option.bind_eq_bind,
        Option.bind_some, if_neg (show p' ≠ 0 by omega), length_cons, hlen]
    refine ⟨_, _, hput, ?_, ?_, hall, nofun, fun _ => ?_⟩
    · dsimp only
      omega
    · rw [length_cons, hlen]
    by_cases hskip : c = 48 ∧ nr ≠ 0
    · obtain ⟨hle, hnum⟩ := hnum (Nat.pos_of_ne_zero hskip.2)
      rw [hskip.1] at hval
      rw [if_neg (not_not.mpr hskip.1), Nat.sub_add_comm hle, Nat.mod_pow_succ,
        ← hval]
      exact ⟨by omega, hnum⟩
    · have hplace : (if c ≠ 48 then nr + 1 else z) = nr + 1 := by grind
      have hlead : c :: u = [48] ∨ ∃ c' ds, c :: u = c' :: ds ∧ c' ≠ 48 := by
        grind [length_eq_zero_iff]
      rw [hplace, Nat.sub_self]
      exact ⟨le_refl _, hall, hlead⟩

theorem hexText_ok {num nr blen : ℕ} (hnum : num < 16 ^ nr) (hnr : 0 < nr)
    (hblen : nr + 3 ≤ blen) : Prints (hexText blen nr num) (Hex num) := by
  obtain ⟨buf, z, hrun, hp, hlen, -, -, hz⟩ := hexdigits_ok num
    (show nr ≤ blen - 1 by omega)
  obtain ⟨hle, hds⟩ := hz hnr
  rw [Nat.mod_eq_of_lt hnum] at hds
  refine ⟨_, ?_, _, rfl, hds⟩
  rw [hexText, Buf.empty, hrun]
  simpa [hlen, show ¬ buf.room + nr < z + 2 by omega, printString] using hds.printed (by decide)

end Digits

inductive Bits
  | b32
  | b64

/-- `BITS_PER_LONG` -/
def Bits.perLong : Bits → ℕ
  | b32 => 32
  | b64 => 64

/-- Every number but the smallest of a signed type is printed as its numeral. -/
theorem numbers_printed_iff (b : Bits) (n : ℕ) (i x : BitVec 32) (l u : BitVec b.perLong) :
    (Prints (printed (stdVprintNum (12 + n) i)) (Signed i.toInt) ∧
      Prints (printNumL l) (Signed l.toInt) ∧
      Prints (printed (stdVprintLong 32 l)) (Signed l.toInt) ∧
      Prints (printNumU u) (Numeral 10 u.toNat) ∧
      Prints (printed (stdVprintLongHex 32 u)) (Numeral 16 u.toNat) ∧
      Prints (printHex x) (Hex x.toNat) ∧ Prints (printHexL u) (Hex u.toNat)) ↔
    i ≠ .intMin 32 ∧ l ≠ .intMin _ := by
  have hdec : 2 ^ b.perLong ≤ Radix.dec.base ^ 20 := by cases b <;> decide
  have hhex : 2 ^ b.perLong ≤ Radix.hex.base ^ 16 := by cases b <;> decide
  have hlong : 0 < b.perLong := by cases b <;> decide
  have hi := stdVprintNum_iff n i
  have hl : Prints (printed (stdVprintLong 32 l)) (Signed l.toInt) ↔ l ≠ .intMin _ := by
    rw [printed, stdVprintLong, Option.map_map]
    exact vprintSigned_iff l hlong hdec (by decide)
  have hu : Prints (printNumU u) (Numeral 10 u.toNat) := by
    rw [printNumU, Buf.empty, digitDoLoop_eq]
    exact vprintDigits_ok (u.isLt.trans_le hdec) (by decide) (by decide)
  have hx : Prints (printed (stdVprintLongHex 32 u)) (Numeral 16 u.toNat) := by
    rw [printed, stdVprintLongHex, Option.map_map]
    exact vprintDigits_ok (u.isLt.trans_le hhex) (by decide) (by decide)
  have hl' : Prints (printNumL l) (Signed l.toInt) ↔ l ≠ .intMin _ :=
    vprintSigned_iff l hlong hdec (by decide)
  have hx' : Prints (printHex x) (Hex x.toNat) := hexText_ok x.isLt (by decide) (by decide)
  have hu' : Prints (printHexL u) (Hex u.toNat) := hexText_ok (by cases b <;> exact u.isLt)
    (by cases b <;> decide) (by cases b <;> decide)
  exact ⟨fun h => ⟨hi.mp h.1, hl.mp h.2.2.1⟩, fun h => ⟨hi.mpr h.1, hl'.mpr h.2, hl.mpr h.2,
    hu, hx, hx', hu'⟩⟩

/-- No digit is printed of the smallest `int`. -/
theorem smallest_int_not_printed :
    ¬ Prints (printed (stdVprintNum 12 0x80000000#32)) (Signed (-2147483648)) := fun h =>
  (stdVprintNum_iff 0 0x80000000#32).mp h rfl

end Criu.PrintNum

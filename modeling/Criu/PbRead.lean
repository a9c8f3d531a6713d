import Criu.BfdBuffering
import Mathlib.Tactic.IntervalCases

/-!
Records of an image (criu/protobuf.c): four bytes of header with the size, and the object. The
result of reading the header is compared with the unsigned size of it, so that an error passes
for a header; and a size that is negative as an `int` stops a buffered reader by BUG_ON.
-/

namespace Criu.PbRead

open StringSplit Bfd List

def le (s : Bytes) : ℕ := s.foldr (fun b n => b.val + 256 * n) 0

/-- A 32-bit number as an `int`. -/
def asInt (n : ℕ) : ℤ := if n < 2 ^ 31 then n else n - 2 ^ 32

/-- Whether the type is known and the end of the file allowed, what `size` held before, whether
there is memory, and which objects can be unpacked. -/
structure Env where
  known : Bool
  eof : Bool
  garbage : UInt32
  malloc : Bool
  unpack : Bytes → Bool

def pbPkobjLocalSize : ℕ := 1024

/-- The number in `size` after its first bytes were stored. -/
def stored (buf : Bytes) (old : UInt32) : ℕ :=
  le buf + old.toNat / 256 ^ buf.length * 256 ^ buf.length

section Record

variable (reads : ℕ → Option ℕ) (e : Env) (buffered empty : Bool) (f : In)

/-- `do_pb_read_one` behind the header; nothing comes out where BUG_ON stops it. -/
def readObject (size i : ℕ) : Option (ℤ × In) :=
  if pbPkobjLocalSize < size && !e.malloc then some (-1, f)
  else
    let object := bread reads buffered (asInt size) i f
    object.ret.map fun (ret : ℤ) =>
      (if ret < 0 ∨ ret % 2 ^ 32 ≠ size then -1 else if e.unpack object.buf then 1 else -1,
        object.f)

def doPbReadOne : Option (ℤ × In) :=
  if !e.known then some (-1, f)
  else
    let header := if empty then ⟨some 0, [], 0, f⟩ else bread reads buffered 4 0 f
    header.ret.bind fun ret =>
      if ret = 0 then some (if e.eof then 0 else -1, header.f)
      -- compared as unsigned
      else if ret % 2 ^ 64 < 4 then some (-1, header.f)
      else readObject reads e buffered header.f (stored header.buf e.garbage) header.reads

/-- The results that a call may give; 1 stands for a whole record. -/
def Right : Prop :=
  ∃ ret g, doPbReadOne reads e buffered empty f = some (ret, g) ∧
    (ret = -1 ∨ ret = 0 ∧ e.eof ∧ (empty ∨ left f = []) ∨
      ret = 1 ∧ ∃ header object, left f = header ++ (object ++ left g) ∧ header.length = 4 ∧
        object.length = le header ∧ e.unpack object)

/-- No error passes for a header, and no size of an object for a negative one. -/
def Safe : Prop :=
  let header := bread reads buffered 4 0 f
  if buffered then header.ret ≠ some (-1) ∧ (header.ret = some 4 → le header.buf < 2 ^ 31)
  else reads 0 = none → reads 1 = none

end Record

structure Read (size : ℤ) (s : Bytes) (r : Got) : Prop where
  split : s = r.buf ++ left r.f
  ret : r.ret = some (-1) ∧ (0 < size → r.buf.length < size) ∨
    r.ret = some ↑r.buf.length ∧ r.buf.length ≤ size ∧ (r.buf = [] → 0 < size → s = [])

variable {reads : ℕ → Option ℕ} {e : Env} {buffered empty : Bool} {f : In} {size : ℤ}

theorem bread_read (hsize : buffered → 0 ≤ size) (i : ℕ) :
    Read size (left f) (bread reads buffered size i f) := by
  cases buffered with
  | true =>
    rw [bread, if_pos rfl]
    obtain ⟨hsplit, ⟨hret, hlt, -⟩ | ⟨hret, hle, hend⟩⟩ :=
      @breadLoop_fills reads size [] (hsize rfl) i f
    · exact ⟨hsplit, .inl ⟨hret, fun _ => hlt⟩⟩
    · refine ⟨hsplit, .inr ⟨hret, hle, fun hnil hpos => ?_⟩⟩
      rw [hnil] at hsplit hend
      rw [← nil_append (left f), hsplit, hend hpos, nil_append]
  | false =>
    simp only [bread, Bool.false_eq_true, if_false]
    split
    case h_1 => exact ⟨rfl, .inl ⟨rfl, id⟩⟩
    case h_2 k h =>
      have hpos : ¬ size < 0 := fun hneg => by simp [hneg] at h
      refine ⟨(take_append_drop _ _).symm, .inr ⟨rfl, ?_, fun hnil hpos => ?_⟩⟩
      · simp only [length_take]
        omega
      · exact (take_eq_nil_iff.mp hnil).resolve_left (by omega)

theorem bread_negative (hsize : size < 0) (i : ℕ) : (bread reads true size i f).ret = none := by
  rw [bread, breadLoop]
  grind

theorem le_lt (s : Bytes) : le s < 256 ^ s.length := by
  induction s with
  | nil => decide
  | cons b s ih =>
    rw [le, foldr_cons, ← le, length_cons]
    omega

theorem stored_header {buf : Bytes} (h : buf.length = 4) (old : UInt32) :
    stored buf old = le buf := by
  have hold := old.toNat_lt
  rw [stored, h]
  omega

theorem readObject_right {size : ℕ} (hsize : buffered → size < 2 ^ 31) (i : ℕ) :
    ∃ ret g, readObject reads e buffered f size i = some (ret, g) ∧
      (ret = -1 ∨ ret = 1 ∧ ∃ object, left f = object ++ left g ∧ object.length = size ∧
        e.unpack object) := by
  simp only [readObject]
  split
  · exact ⟨-1, f, rfl, .inl rfl⟩
  have hread := @bread_read reads buffered f (asInt size)
    (fun hb => by rw [asInt, if_pos (hsize hb)]; exact Int.natCast_nonneg size) i
  rcases hread.ret with ⟨hret, -⟩ | ⟨hret, hle, -⟩
  · rw [hret]
    exact ⟨_, _, rfl, .inl rfl⟩
  · rw [hret]
    refine ⟨_, _, rfl, ?_⟩
    split
    · exact .inl rfl
    case isFalse hall =>
      split
      case isFalse => exact .inl rfl
      case isTrue hunpack => exact .inr ⟨rfl, _, hread.split, by grind [asInt], hunpack⟩

theorem right_of_safe (h : empty = false → Safe reads buffered f) (e : Env) :
    Right reads e buffered empty f := by
  rw [Right, doPbReadOne]
  split
  · exact ⟨-1, f, rfl, .inl rfl⟩
  cases empty with
  | true =>
    cases e.eof <;> simp
  | false =>
    have hsafe := h rfl
    have hread := @bread_read reads buffered f 4 (fun _ => by decide) 0
    rcases hread.ret with ⟨hret, -⟩ | ⟨hret, hle, hnil⟩
    · -- an error passes for a header only without a buffer, and then the object is not read
      cases buffered with
      | true => exact absurd hret hsafe.1
      | false =>
        have hfail : reads 0 = none := by
          cases hr : reads 0 with
          | none => rfl
          | some k =>
            simp [bread, hr] at hret
            omega
        simp [readObject, bread, hfail, hsafe hfail]
    · simp only [hret, Bool.false_eq_true, if_false, Option.bind_some]
      split
      case isTrue hzero =>
        have := hnil (length_eq_zero_iff.mp (by omega)) (by decide)
        cases e.eof <;> simp [this]
      split
      · exact ⟨_, _, rfl, .inl rfl⟩
      have hfour : (bread reads buffered 4 0 f).buf.length = 4 := by omega
      rw [stored_header hfour]
      have hint : buffered → le (bread reads buffered 4 0 f).buf < 2 ^ 31 := by
        intro hb
        rw [Safe, if_pos hb] at hsafe
        exact hsafe.2 (by rw [hret, hfour]; rfl)
      obtain ⟨ret, g, hobj, hcase⟩ := readObject_right hint _
      rcases hcase with hneg | ⟨hone, object, hleft, hlen, hunpack⟩
      · exact ⟨ret, g, hobj, .inl hneg⟩
      · exact ⟨ret, g, hobj, .inr (.inr
          ⟨hone, _, object, hleft ▸ hread.split, hfour, hlen, hunpack⟩)⟩

def able (garbage : UInt32) : Env := ⟨true, true, garbage, true, fun _ => true⟩

/-- A buffered reader that takes an error for a header, or reads a large size, is stopped. -/
theorem not_right_of_large {ret : ℤ} (garbage : UInt32)
    (hret : (bread reads true 4 0 f).ret = some ret) (hpass : ret = -1 ∨ ret = 4)
    (hsize : asInt (stored (bread reads true 4 0 f).buf garbage) < 0) :
    ¬ Right reads (able garbage) true false f := by
  rintro ⟨r, g, hcall, -⟩
  have hzero : ret ≠ 0 := by omega
  have hfour : ¬ ret % 2 ^ 64 < 4 := by omega
  simp only [doPbReadOne, able, Bool.not_true, Bool.false_eq_true, if_false, hret, Option.bind_some,
    hzero, hfour, readObject, Bool.and_false, bread_negative hsize] at hcall
  cases hcall

theorem safe_of_right (h : ∀ e, Right reads e buffered false f) : Safe reads buffered f := by
  cases buffered with
  | false =>
    intro hfail
    by_contra hnext
    obtain ⟨k, hk⟩ := Option.ne_none_iff_exists'.mp hnext
    obtain ⟨ret, g, hcall, hcase⟩ := h (able 0)
    simp [doPbReadOne, bread, hfail, hk, readObject, able, stored, le, asInt] at hcall
    obtain ⟨rfl, rfl⟩ := hcall
    rcases hcase with hret | ⟨hret, -⟩ | ⟨-, header, object, hleft, hlen, -⟩
    · cases hret
    · cases hret
    have hlength := congrArg length hleft
    simp [left] at hlength
    omega
  | true =>
    have hread := @bread_read reads true f 4 (fun _ => by decide) 0
    refine ⟨fun hret => ?_, fun hret => ?_⟩
    · refine not_right_of_large 2147483648 hret (.inl rfl) ?_ (h _)
      have hlt : (bread reads true 4 0 f).buf.length < 4 := by grind [hread.ret]
      have hbuf := le_lt (bread reads true 4 0 f).buf
      rw [stored, asInt]
      interval_cases (bread reads true 4 0 f).buf.length <;> simp <;> omega
    · by_contra hlarge
      refine not_right_of_large 0 hret (.inr rfl) ?_ (h _)
      have hlen : (bread reads true 4 0 f).buf.length = 4 := by grind [hread.ret]
      have hlt := le_lt (bread reads true 4 0 f).buf
      rw [stored_header hlen, asInt]
      rw [hlen] at hlt
      omega

/-- A record is read as a whole or refused, whatever `size` held before, exactly if no error passes
for a header and no size for a negative one. -/
theorem record_read_or_refused_iff (reads : ℕ → Option ℕ) (buffered empty : Bool) (f : In) :
    (∀ e, Right reads e buffered empty f) ↔ (empty = false → Safe reads buffered f) :=
  ⟨fun h hempty => safe_of_right (hempty ▸ h), right_of_safe⟩

/-- The first read fails, and an empty object is returned. -/
theorem error_read_as_record : ¬ Right (fun _ => none) (able 0) true false ⟨[], []⟩ := by
  rintro ⟨ret, g, hcall, hcase⟩
  simp [doPbReadOne, bread, breadLoop, brefill, readObject, able, stored, le, asInt] at hcall
  obtain ⟨rfl, rfl⟩ := hcall
  simp [left] at hcase

end Criu.PbRead

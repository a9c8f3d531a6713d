import Mathlib.Algebra.GroupWithZero.Nat
import Mathlib.Data.List.Basic

/-!
Splitting a string (criu/util.c). `split` counts the pieces in one loop and copies them in another.
The first loop steps over the first byte before it looks for a separator, so that it misses a
separator there, and on an empty string it looks behind the terminating zero.
-/

namespace Criu.StringSplit

open List

abbrev Bytes := List (Fin 256)

instance byte_neZero : NeZero 256 := ⟨by decide⟩

instance byte_lawful : LawfulBEq (Fin 256) := inferInstance

variable {a s : Bytes}

/-- The bytes before the terminating zero. -/
abbrev Str := { s : Bytes // 0 ∉ s }

/-- `strchr` from the byte `cur` on, which is not behind the terminating zero. -/
def strchr (text : Bytes) (token : Fin 256) (cur : ℕ) : Option ℕ :=
  if token = 0 then some text.length
  else if token ∈ text.drop cur then some (cur + (text.drop cur).idxOf token)
  else none

def countLoop (text : Bytes) (token : Fin 256) : ℕ → Option ℕ → ℕ → Option ℕ
  | 0, _, _ => none
  | _ + 1, none, n => some n
  | fuel + 1, some cur, n =>
      if text.length < cur + 1 then none
      else countLoop text token fuel (strchr text token (cur + 1)) (n + 1)

/-- The second loop; nothing comes out if it writes behind the array of `n` pieces. The string is
cut for each copy and put together again. -/
def copyLoop (token : Fin 256) (n : ℕ) : ℕ → Bytes → ℕ → List Bytes →
    Option (List Bytes × Bytes)
  | 0, _, _, _ => none
  | fuel + 1, text, prev, out =>
      if n ≤ out.length then none
      else match strchr text token prev with
        | none => some (out ++ [text.drop prev], text)
        | some cur =>
            let cut := text.set cur 0
            copyLoop token n fuel (cut.set cur token) (cur + 1)
              (out ++ [(cut.drop prev).takeWhile (· ≠ 0)])

/-- The number of pieces, the pieces and the string afterwards; each pass takes a byte. -/
def split (str : Str) (token : Fin 256) : Option (ℕ × List Bytes × Bytes) := do
  let n ← countLoop str.1 token (str.1.length + 2) (some 0) 0
  let (out, text) ← copyLoop token n (str.1.length + 1) str.1 0 []
  some (n, out, text)

variable {token : Fin 256}

theorem strchr_first (h0 : token ≠ 0) {pre b : Bytes} (ha : token ∉ a) :
    strchr (pre ++ (a ++ token :: b)) token pre.length = some (pre.length + a.length) := by
  rw [strchr, if_neg h0, drop_left, if_pos (by simp), idxOf_append_of_notMem ha,
    idxOf_cons_self, Nat.add_zero]

theorem strchr_none (h0 : token ≠ 0) {pre rest : Bytes} (h : token ∉ rest) :
    strchr (pre ++ rest) token pre.length = none := by
  rw [strchr, if_neg h0, drop_left, if_neg h]

/-- Behind a byte that was stepped over, the loop counts the separators. -/
theorem countLoop_eq (h0 : token ≠ 0) {fuel : ℕ} {pre rest : Bytes}
    (hfuel : rest.length < fuel) (n : ℕ) :
    countLoop (pre ++ rest) token fuel (strchr (pre ++ rest) token pre.length) n =
      some (n + rest.count token) := by
  induction fuel generalizing pre rest n with
  | zero => exact absurd hfuel (Nat.not_lt_zero _)
  | succ fuel ih =>
    by_cases hin : token ∈ rest
    · obtain ⟨a, b, rfl, ha⟩ := eq_append_cons_of_mem hin
      rw [length_append, length_cons] at hfuel
      have hrest := @ih (pre ++ a ++ [token]) b (by omega) (n + 1)
      rw [strchr_first h0 ha, countLoop]
      simpa [count_eq_zero_of_not_mem ha, Nat.add_assoc, Nat.add_comm 1] using hrest
    · rw [strchr_none h0 hin, countLoop, count_eq_zero_of_not_mem hin, Nat.add_zero]

theorem splitOn_append_cons (ha : token ∉ a) (b : Bytes) :
    (a ++ token :: b).splitOn token = a :: b.splitOn token :=
  splitOnP_append_cons_of_forall_mem
    (fun x hx => beq_false_of_ne fun (he : x = token) => ha (he ▸ hx)) _ (beq_self_eq_true _) _

theorem splitOn_of_notMem (h : token ∉ s) : s.splitOn token = [s] :=
  splitOnP_eq_singleton fun _ hx => beq_false_of_ne fun he => h (he ▸ hx)

/-- The loop copies all pieces if there is room for them. -/
theorem copyLoop_eq (h0 : token ≠ 0) {n fuel : ℕ} {pre rest : Bytes}
    (hzero : 0 ∉ pre ++ rest) (hfuel : rest.length < fuel) (out : List Bytes) :
    copyLoop token n fuel (pre ++ rest) pre.length out =
      if out.length + rest.count token < n then some (out ++ rest.splitOn token, pre ++ rest)
      else none := by
  induction fuel generalizing pre rest out with
  | zero => exact absurd hfuel (Nat.not_lt_zero _)
  | succ fuel ih =>
    rw [copyLoop]
    by_cases hfull : n ≤ out.length
    · rw [if_pos hfull, if_neg (by omega)]
    rw [if_neg hfull]
    by_cases hin : token ∈ rest
    · obtain ⟨a, b, rfl, ha⟩ := eq_append_cons_of_mem hin
      rw [length_append, length_cons] at hfuel
      have hassoc : pre ++ (a ++ token :: b) = (pre ++ a ++ [token]) ++ b := by simp
      have hpiece : (a ++ (0) :: b).takeWhile (fun x => !decide (x = 0)) = a := by
        rw [takeWhile_append_of_pos fun x hx => ?_]
        · simp
        · exact Bool.not_eq_true' _ ▸ decide_eq_false fun he => hzero (by simp [← he, hx])
      have hrest := @ih (pre ++ a ++ [token]) b (hassoc ▸ hzero) (by omega) (out ++ [a])
      simp only [strchr_first h0 ha, splitOn_append_cons ha]
      simpa [hpiece, count_eq_zero_of_not_mem ha, Nat.add_assoc, Nat.add_comm 1] using hrest
    · simp only [strchr_none h0 hin, count_eq_zero_of_not_mem hin, drop_left,
        splitOn_of_notMem hin]
      rw [if_pos (by omega)]

/-- All the pieces between the separators, in an array of the right size. -/
def Correct (str : Str) (token : Fin 256) : Prop :=
  let out := str.1.splitOn token
  split str token = some (str.1.count token + 1, out, str.1) ∧
    out.length = str.1.count token + 1 ∧ [token].intercalate out = str.1

theorem length_splitOn (token : Fin 256) (l : Bytes) :
    (l.splitOn token).length = l.count token + 1 := by
  induction l with
  | nil => rfl
  | cons b l ih =>
    unfold splitOn at ih ⊢
    rw [splitOnP_cons_eq_if_modifyHead, count_cons]
    split <;> simp [ih]

theorem split_eq (h0 : token ≠ 0) {b : Fin 256} (h : 0 ∉ b :: s) :
    split ⟨b :: s, h⟩ token = if b ≠ token then
      some (s.count token + 1, (b :: s).splitOn token, b :: s) else none := by
  have hn : countLoop (b :: s) token (s.length + 3) (some 0) 0 = some (1 + s.count token) := by
    exact @countLoop_eq _ h0 _ [b] s (by omega) 1
  have hout := @copyLoop_eq _ h0 (1 + s.count token) (s.length + 2) [] (b :: s) h (by simp) []
  simp only [split, length_cons, hn, Option.bind_eq_bind, Option.bind_some]
  rw [show copyLoop token (1 + s.count token) (s.length + 1 + 1) (b :: s) 0 [] = _ from hout]
  by_cases hb : b = token
  · simp [hb, Nat.add_comm]
  · simp [hb, Nat.add_comm]

/-- `split` works for the strings that do not begin with a separator. -/
theorem split_correct_iff (str : Str) (token : Fin 256) :
    Correct str token ↔ token ≠ 0 ∧ ∃ b ∈ str.1.head?, b ≠ token := by
  obtain ⟨s, hs⟩ := str
  cases s with
  | nil =>
    refine iff_of_false (fun ⟨h, _⟩ => ?_) (by simp)
    cases h
  | cons b s =>
    by_cases h0 : token = 0
    · refine iff_of_false (fun ⟨h, _⟩ => ?_) (fun h => h.1 h0)
      simp [split, countLoop, strchr, h0] at h
    have heq := split_eq h0 hs
    by_cases hb : b = token
    · refine iff_of_false (fun ⟨h, _⟩ => ?_) (by simp [hb])
      rw [heq, if_neg (not_not.mpr hb)] at h
      cases h
    · refine iff_of_true ⟨?_, length_splitOn _ _, intercalate_splitOn _⟩ ⟨h0, b, rfl, hb⟩
      rw [heq, if_pos hb, count_cons_of_ne hb]

/-- For "/a" the array has one place, and two pieces are copied. -/
theorem split_leading : ¬ Correct ⟨[47, 97], by decide⟩ 47 := by
  rintro ⟨h, -⟩
  exact absurd h (by decide)

end Criu.StringSplit

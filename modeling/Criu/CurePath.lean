import Criu.MountTree
import Criu.StringSplit

/-!
The paths of mountinfo (criu/proc_parse.c). The kernel writes a space, a tab, a newline and a
backslash as octal escapes. `cure_path` puts the bytes back in place, but does not know the escape
of the newline.
-/

namespace Criu.CurePath

open MountTree StringSplit List

/-- The byte that the first four bytes stand for, if it is one of those that are asked for. -/
def escaped (s : Bytes) : Option (Fin 256) :=
  if strncmp 4 s [92, 48, 52, 48] = .eq then some 32
  else if strncmp 4 s [92, 48, 49, 49] = .eq then some 9
  else if strncmp 4 s [92, 49, 51, 52] = .eq then some 92
  else none

/-- The loop of `cure_path`, with the cut at its end. -/
def cureLoop (len : ℕ) : ℕ → Bytes → ℕ → ℕ → Option Bytes
  | 0, _, _, _ => none
  | fuel + 1, path, i, off =>
      if i < len then
        match escaped (path.drop i) with
        | some b => cureLoop len fuel (path.set (i - off) b) (i + 4) (off + 3)
        | none =>
            let path := if off = 0 then path else path.set (i - off) (path.getD i 0)
            cureLoop len fuel path (i + 1) off
      else some (path.take (len - off))

def curePath (path : Bytes) : Option Bytes :=
  if strchr path 92 0 = none then some path
  else cureLoop path.length (path.length + 1) path 0 0

def escape (b : Fin 256) : Bytes :=
  if b = 32 then [92, 48, 52, 48]
  else if b = 9 then [92, 48, 49, 49]
  else if b = 10 then [92, 48, 49, 50]
  else if b = 92 then [92, 49, 51, 52]
  else [b]

def mangle (p : Bytes) : Bytes := p.flatMap escape

def cured (b : Fin 256) : Bytes := if b = 10 then [92, 48, 49, 50] else [b]

/-- The first `i - off` bytes are written, those from `i` on are to be read. -/
structure At (path out rest : Bytes) (i off : ℕ) : Prop where
  out : path.take (i - off) = out
  rest : path.drop i = rest
  off : off ≤ i
  i : i ≤ path.length

variable {path out m : Bytes} {i off fuel : ℕ} {b : Fin 256}

theorem At.lt (h : At path out m i off) (hm : m ≠ []) : i < path.length := by
  by_contra hge
  exact hm (h.rest ▸ drop_eq_nil_of_le (not_lt.mp hge))

theorem At.write {e : Bytes} (h : At path out (e ++ m) i off) (he : e ≠ []) (b : Fin 256) :
    At (path.set (i - off) b) (out ++ [b]) m (i + e.length) (off + (e.length - 1)) := by
  have hpos := length_pos_of_ne_nil he
  have hlen := congrArg length h.rest
  rw [length_drop, length_append] at hlen
  refine ⟨?_, ?_, by have := h.off; omega, by rw [length_set]; omega⟩
  · have hnext : i + e.length - (off + (e.length - 1)) = i - off + 1 := by
      have := h.off
      omega
    rw [hnext, take_add_one, take_set_of_le (Nat.le_refl _), h.out,
      getElem?_set_self (by omega), Option.toList_some]
  · rw [drop_set_of_lt (by omega), ← drop_drop, h.rest, drop_left]

inductive Cures : Bytes → Bytes → Prop
  | nil : Cures [] []
  | escape {e m r : Bytes} {b : Fin 256} (he : e.length = 4)
      (hb : escaped (e ++ m) = some b) (h : Cures m r) : Cures (e ++ m) (b :: r)
  | copy {m r : Bytes} {b : Fin 256} (hb : escaped (b :: m) = none) (h : Cures m r) :
      Cures (b :: m) (b :: r)

theorem cureLoop_eq {r : Bytes} (hc : Cures m r) (h : At path out m i off)
    (hfuel : m.length < fuel) : cureLoop path.length fuel path i off = some (out ++ r) := by
  obtain ⟨fuel, rfl⟩ := Nat.exists_eq_succ_of_ne_zero (Nat.ne_zero_of_lt hfuel)
  induction hc generalizing path out i off fuel with
  | nil =>
    have hend : i = path.length := Nat.le_antisymm h.i (drop_eq_nil_iff.mp h.rest)
    rw [cureLoop, if_neg (by omega), ← hend, h.out, append_nil]
  | @escape e m r b he hb _ ih =>
    have hne : e ≠ [] := ne_nil_of_length_pos (by omega)
    have hnext := h.write hne b
    rw [length_append] at hfuel
    obtain ⟨fuel, rfl⟩ := Nat.exists_eq_succ_of_ne_zero (show fuel ≠ 0 by omega)
    have hrest := ih hnext fuel (by omega)
    rw [length_set, append_assoc, he] at hrest
    rw [cureLoop, if_pos (h.lt (append_ne_nil_of_left_ne_nil hne m)), h.rest, hb]
    exact hrest
  | @copy m r b hb _ ih =>
    have hlt := h.lt (cons_ne_nil b m)
    have hget : path.getD i 0 = b := by
      rw [getD_eq_getElem?_getD, ← head?_drop, h.rest]
      rfl
    have hnext := At.write h (cons_ne_nil b []) b
    rw [length_cons] at hfuel
    obtain ⟨fuel, rfl⟩ := Nat.exists_eq_succ_of_ne_zero (show fuel ≠ 0 by omega)
    have hrest := ih hnext fuel (by omega)
    rw [length_set, append_assoc] at hrest
    rw [cureLoop, if_pos hlt, h.rest, hb, hget]
    -- without a shift the byte stays where it is
    by_cases hoff : off = 0
    · have hself : path.set i b = path := by
        rw [← hget, getD_eq_getElem?_getD, getElem?_eq_getElem hlt, Option.getD_some,
          set_getElem_self]
      rw [hoff, Nat.sub_zero, hself] at hrest
      simpa [hoff] using hrest
    · rw [if_neg hoff]
      exact hrest

theorem escaped_of_ne (h : b ≠ 92) : escaped (b :: m) = none := by
  rcases lt_or_gt_of_ne h with hlt | hgt
  · simp [escaped, strncmp, hlt]
  · simp [escaped, strncmp, hgt, hgt.not_gt]

theorem cures_mangle (p : Bytes) : Cures (mangle p) (p.flatMap cured) := by
  induction p with
  | nil => exact .nil
  | cons b p ih =>
    rw [mangle, flatMap_cons, flatMap_cons]
    by_cases hnl : b = 10
    · subst hnl
      exact .copy rfl (.copy (escaped_of_ne (by decide)) (.copy (escaped_of_ne (by decide))
        (.copy (escaped_of_ne (by decide)) ih)))
    rw [cured, if_neg hnl]
    by_cases hb : b = 32 ∨ b = 9 ∨ b = 92
    · rcases hb with rfl | rfl | rfl <;> exact .escape rfl rfl ih
    · obtain ⟨hspace, htab, hback⟩ := by simpa only [not_or] using hb
      rw [escape, if_neg hspace, if_neg htab, if_neg hnl, if_neg hback]
      exact .copy (escaped_of_ne hback) ih

theorem curePath_mangle (p : Bytes) : curePath (mangle p) = some (p.flatMap cured) := by
  unfold curePath
  split
  case isTrue h =>
    -- without a backslash no byte was escaped
    have hno : 92 ∉ mangle p := fun hin => by simp [strchr, hin] at h
    congr 1
    refine flatMap_congr fun b hb => ?_
    have hplain : 92 ∉ escape b := fun hin => hno (mem_flatMap.mpr ⟨b, hb, hin⟩)
    revert hplain
    unfold escape cured
    split_ifs <;> simp
  case isFalse h =>
    have hat : At (mangle p) [] (mangle p) 0 0 := ⟨rfl, rfl, Nat.le_refl _, Nat.zero_le _⟩
    exact cureLoop_eq (cures_mangle p) hat (Nat.lt_succ_self _)

/-- A path comes back exactly if there is no newline in it. -/
theorem cure_path_iff (p : Str) : curePath (mangle p.1) = some p.1 ↔ 10 ∉ p.1 := by
  rw [curePath_mangle, Option.some.injEq]
  induction p.1 with
  | nil => simp
  | cons b p ih =>
    rw [flatMap_cons, cured]
    split
    case isTrue hb => simp [hb]
    case isFalse hb => simp [ih, Ne.symm hb]

theorem cure_path_newline : curePath (mangle [97, 10, 98]) ≠ some [97, 10, 98] := by decide

end Criu.CurePath

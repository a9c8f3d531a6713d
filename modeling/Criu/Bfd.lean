import Criu.StringSplit

/-!
Buffered descriptors (criu/bfd.c), read by lines. `breadchr` refills the buffer once. What it finds
then without a delimiter it takes for the last line, though a short read can have brought a part of
a line only, and a line that does not fit the buffer is reported as the end of the file.
-/

namespace Criu.Bfd

open StringSplit List

variable {t u s : Bytes} {k : ℕ}

def bufsize : ℕ := 4096

/-- A descriptor open for reading: the bytes in the buffer that were not returned yet, and those of
the file behind them. -/
structure In where
  data : Bytes
  file : Bytes

/-- `brefill`; the read fails, or it returns one byte more than `k` at most. -/
def brefill (read : Option ℕ) (f : In) : Option In :=
  read.map fun k =>
    let n := min (k + 1) (bufsize - f.data.length)
    ⟨f.data ++ f.file.take n, f.file.drop n⟩

def strnchr (s : Bytes) (c : Fin 256) : Option ℕ := if c ∈ s then some (s.idxOf c) else none

inductive Ret
  | line (s : Bytes)
  | null
  | err
deriving DecidableEq

/-- `breadchr`; its second search begins behind the bytes of the first one. -/
def breadchr (c : Fin 256) (read : Option ℕ) (f : In) : Ret × In :=
  match strnchr f.data c with
  | some n => (.line (f.data.take n), { f with data := f.data.drop (n + 1) })
  | none =>
      match brefill read f with
      | none => (.err, f)
      | some g =>
          match strnchr (g.data.drop f.data.length) c with
          | some n =>
              (.line (g.data.take (f.data.length + n)),
                { g with data := g.data.drop (f.data.length + n + 1) })
          | none =>
              if g.data = [] then (.null, g)
              else if g.data.length = bufsize then (.null, g)
              else (.line g.data, { g with data := [] })

def calls (c : Fin 256) (reads : ℕ → Option ℕ) : ℕ → In → In
  | 0, f => f
  | n + 1, f => calls c (fun i => reads (i + 1)) n (breadchr c (reads 0) f).2

def result (c : Fin 256) (reads : ℕ → Option ℕ) (n : ℕ) (f : In) : Ret :=
  (breadchr c (reads n) (calls c reads n f)).1

def left (f : In) : Bytes := f.data ++ f.file

variable {c : Fin 256} {read : Option ℕ} {f g : In}

theorem strnchr_none : strnchr s c = none ↔ c ∉ s := by simp [strnchr]

theorem idxOf_first (hu : c ∉ u) : (u ++ c :: t).idxOf c = u.length := by
  rw [idxOf_append_of_notMem hu, idxOf_cons_self, Nat.add_zero]

/-- A delimiter that is found ends the first line. -/
theorem breadchr_found (hu : c ∉ u) (h : f.data = u ++ c :: t) :
    breadchr c read f = (.line u, { f with data := t }) := by
  have hfind : strnchr f.data c = some u.length := by
    rw [strnchr, if_pos (by simp [h]), h, idxOf_first hu]
  rw [breadchr, hfind]
  simp [h]

theorem brefill_data (hg : brefill read f = some g) : ∃ got, g.data = f.data ++ got := by
  obtain ⟨k, -, rfl⟩ := Option.map_eq_some_iff.mp hg
  exact ⟨_, rfl⟩

section Refill

variable (hc : c ∉ f.data) (hg : brefill read f = some g)
include hc hg

theorem breadchr_read (hu : c ∉ u) (h : g.data = u ++ c :: t) :
    breadchr c read f = (.line u, { g with data := t }) := by
  obtain ⟨got, hgot⟩ := brefill_data hg
  have hin : c ∈ f.data ++ got := hgot ▸ h ▸ mem_append_right u mem_cons_self
  have hidx : f.data.length + got.idxOf c = u.length := by
    rw [← idxOf_append_of_notMem hc, ← hgot, h, idxOf_first hu]
  have hfind : strnchr (g.data.drop f.data.length) c = some (got.idxOf c) := by
    rw [hgot, drop_left, strnchr, if_pos ((mem_append.mp hin).resolve_left hc)]
  simp only [breadchr, strnchr_none.mpr hc, hg, hfind, hidx]
  simp [h]

theorem breadchr_end (h : c ∉ g.data) :
    breadchr c read f = if g.data = [] ∨ g.data.length = bufsize then (.null, g)
      else (.line g.data, { g with data := [] }) := by
  have hdrop : c ∉ g.data.drop f.data.length := fun hin => h (mem_of_mem_drop hin)
  simp only [breadchr, strnchr_none.mpr hc, hg, strnchr_none.mpr hdrop]
  by_cases hnil : g.data = []
  · simp [hnil]
  · simp [hnil]

end Refill

def Long (c : Fin 256) (f : In) : Prop :=
  bufsize ≤ (left f).length ∧ c ∉ (left f).take bufsize

theorem left_refill (hg : brefill read f = some g) : left g = left f := by
  obtain ⟨k, -, rfl⟩ := Option.map_eq_some_iff.mp hg
  simp [left]

theorem refill_empty (hg : brefill read f = some g) (h : g.data = []) : left f = [] := by
  obtain ⟨k, -, rfl⟩ := Option.map_eq_some_iff.mp hg
  obtain ⟨hdata, hfile⟩ := append_eq_nil_iff.mp h
  simpa [left, hdata, bufsize] using hfile

theorem breadchr_ret (c : Fin 256) (read : Option ℕ) (f : In) :
    ((breadchr c read f).1 = .err ↔ c ∉ f.data ∧ read = none) ∧
      ((breadchr c read f).1 = .null → left f = [] ∨ Long c f) := by
  by_cases hc : c ∈ f.data
  · obtain ⟨u, t, h, hu⟩ := eq_append_cons_of_mem hc
    simp [breadchr_found hu h, hc]
  cases hread : read with
  | none => simp [breadchr, strnchr_none.mpr hc, brefill, hc]
  | some k =>
    obtain ⟨g, hg⟩ : ∃ g, brefill (some k) f = some g := ⟨_, rfl⟩
    by_cases hin : c ∈ g.data
    · obtain ⟨u, t, h, hu⟩ := eq_append_cons_of_mem hin
      simp [breadchr_read hc hg hu h]
    rw [breadchr_end hc hg hin]
    split
    case isTrue h =>
      refine ⟨by simp, fun _ => h.imp (refill_empty hg) fun hlen => ?_⟩
      rw [Long, ← left_refill hg, left, ← hlen, take_left, length_append]
      exact ⟨Nat.le_add_right _ _, hin⟩
    case isFalse => simp

/-- A call as its callers take it: NULL is the end of the file, and a read that fails or a line that
does not fit the buffer is an error. -/
def Right (c : Fin 256) (read : Option ℕ) (f : In) : Prop :=
  ((breadchr c read f).1 = .null → left f = []) ∧
    (c ∉ f.data → read = none → (breadchr c read f).1 = .err) ∧
      (Long c f → (breadchr c read f).1 = .err)

theorem right_iff : Right c read f ↔ (Long c f → c ∉ f.data ∧ read = none) := by
  obtain ⟨herr, hnull⟩ := breadchr_ret c read f
  rw [Right, herr]
  refine ⟨fun h => h.2.2, fun h => ⟨fun hret => (hnull hret).resolve_right fun hlong => ?_,
    fun hc hread => ⟨hc, hread⟩, h⟩⟩
  cases hret.symm.trans (herr.mpr (h hlong))

/-- All calls are right exactly if there is no line that does not fit, unless its read fails. -/
theorem null_at_end_iff (c : Fin 256) (reads : ℕ → Option ℕ) (s : Bytes) :
    (∀ n, Right c (reads n) (calls c reads n ⟨[], s⟩)) ↔
      ∀ n, Long c (calls c reads n ⟨[], s⟩) →
        c ∉ (calls c reads n ⟨[], s⟩).data ∧ reads n = none :=
  forall_congr' fun _ => right_iff

theorem long_line_null : ¬ Right 10 (some bufsize) ⟨[], replicate bufsize 97⟩ := by
  rw [right_iff]
  simp [Long, left]

def lines (s : Bytes) : List Bytes :=
  let l := s.splitOn 10
  if l.getLast? = some [] then l.dropLast else l

def expected (l : List Bytes) (n : ℕ) : Ret := (l[n]?).elim .null .line

/-- A read that is needed brings the end of a line or of the file, and does not fill the buffer
without one. -/
def Fed (k : ℕ) (f : In) : Prop :=
  ∀ g ∈ brefill (some k) f, 10 ∈ g.data ∨ g.file = [] ∧ g.data.length ≠ bufsize

section Lines

variable (hu : 10 ∉ u)
include hu

theorem lines_cons : lines (u ++ 10 :: t) = u :: lines t := by
  obtain ⟨a, l, hl⟩ := exists_cons_of_ne_nil (splitOnP_ne_nil (· == 10) t)
  simp only [lines, splitOn_append_cons hu, show t.splitOn 10 = a :: l from hl, getLast?_cons_cons]
  split <;> rfl

theorem lines_last (hne : u ≠ []) : lines u = [u] := by
  simp [lines, splitOn_of_notMem hu, hne]

end Lines

theorem lines_end (h : Ret.null = expected (lines s) 0) : s = [] := by
  by_contra hne
  by_cases hin : 10 ∈ s
  · obtain ⟨u, t, rfl, hu⟩ := eq_append_cons_of_mem hin
    rw [lines_cons hu] at h
    cases h
  · rw [lines_last hin hne] at h
    cases h

theorem breadline_fed (h : Fed k f) : (breadchr 10 (some k) f).1 = expected (lines (left f)) 0 ∧
      lines (left (breadchr 10 (some k) f).2) = (lines (left f)).tail := by
  by_cases hc : 10 ∈ f.data
  · obtain ⟨u, t, hdata, hu⟩ := eq_append_cons_of_mem hc
    rw [breadchr_found hu hdata, left, hdata, append_assoc, cons_append, lines_cons hu]
    exact ⟨rfl, rfl⟩
  obtain ⟨g, hg⟩ : ∃ g, brefill (some k) f = some g := ⟨_, rfl⟩
  rw [← left_refill hg]
  by_cases hin : 10 ∈ g.data
  · obtain ⟨u, t, hdata, hu⟩ := eq_append_cons_of_mem hin
    rw [breadchr_read hc hg hu hdata, left, hdata, append_assoc, cons_append, lines_cons hu]
    exact ⟨rfl, rfl⟩
  obtain ⟨hfile, hfull⟩ := (h g hg).resolve_left hin
  rw [breadchr_end hc hg hin, left, hfile]
  by_cases hnil : g.data = []
  · simp [hnil, left, hfile]
    exact ⟨rfl, rfl⟩
  · simp [hnil, hfull, lines_last hin hnil]
    exact ⟨rfl, rfl⟩

theorem result_succ (reads : ℕ → Option ℕ) (n : ℕ) :
    result c reads (n + 1) f = result c (fun i => reads (i + 1)) n (breadchr c (reads 0) f).2 := rfl

theorem expected_succ (l : List Bytes) (n : ℕ) : expected l (n + 1) = expected l.tail n := by
  cases l <;> rfl

theorem breadline_empty (h : left f = 10 :: t) :
    (breadchr 10 (some k) f).1 = .line [] ∧ left (breadchr 10 (some k) f).2 = t := by
  cases hdata : f.data with
  | cons b d =>
    rw [left, hdata] at h
    obtain ⟨rfl, rfl⟩ := List.cons.inj h
    rw [breadchr_found not_mem_nil hdata]
    exact ⟨rfl, rfl⟩
  | nil =>
    rw [left, hdata, nil_append] at h
    obtain ⟨g, hg⟩ : ∃ g, brefill (some k) f = some g := ⟨_, rfl⟩
    obtain ⟨a, d, hd⟩ := exists_cons_of_ne_nil fun hnil => by
      simpa [left, h] using refill_empty hg hnil
    have hleft := left_refill hg
    rw [left, left, hdata, h, hd] at hleft
    obtain ⟨rfl, rfl⟩ := List.cons.inj hleft
    rw [breadchr_read (hdata ▸ not_mem_nil) hg not_mem_nil hd]
    exact ⟨rfl, rfl⟩

/-- Once a line has ended too early, there is one line too many. -/
theorem not_expected (reads : ℕ → ℕ) (h : left f = 10 :: t) :
    ¬ ∀ n, result 10 (fun i => some (reads i)) n f = expected (lines t) n := by
  intro hall
  induction t generalizing f reads with
  | nil => cases (breadline_empty h).1.symm.trans (hall 0)
  | cons b t ih =>
    have hfirst := (breadline_empty h).1.symm.trans (hall 0)
    by_cases hb : b = 10
    · subst hb
      rw [show lines (10 :: t) = [] :: lines t from lines_cons not_mem_nil] at hall
      exact ih (fun i => reads (i + 1)) (breadline_empty h).2 fun n => hall (n + 1)
    · by_cases hin : 10 ∈ t
      · obtain ⟨u, v, rfl, hu⟩ := eq_append_cons_of_mem hin
        rw [← cons_append, lines_cons (not_mem_cons_of_ne_of_not_mem (Ne.symm hb) hu)] at hfirst
        cases hfirst
      · rw [lines_last (not_mem_cons_of_ne_of_not_mem (Ne.symm hb) hin) (cons_ne_nil b t)] at hfirst
        cases hfirst

theorem fed_of_expected (reads : ℕ → ℕ)
    (h : ∀ n, result 10 (fun i => some (reads i)) n f = expected (lines (left f)) n) :
    Fed (reads 0) f := by
  intro g hg
  by_contra hno
  obtain ⟨hin, hend⟩ := not_or.mp hno
  have hc : 10 ∉ f.data := by
    obtain ⟨got, hgot⟩ := brefill_data hg
    exact fun hc => hin (hgot ▸ mem_append_left _ hc)
  have hcall := breadchr_end hc hg hin
  rw [← left_refill hg] at h
  split_ifs at hcall with hstop
  · have hnull : Ret.null = expected (lines (left g)) 0 :=
      (congrArg Prod.fst hcall).symm.trans (h 0)
    obtain ⟨hdata, hfile⟩ := append_eq_nil_iff.mp (lines_end hnull)
    exact hend ⟨hfile, by simp [hdata, bufsize]⟩
  have hline : Ret.line g.data = expected (lines (left g)) 0 :=
    (congrArg Prod.fst hcall).symm.trans (h 0)
  have hfile : g.file ≠ [] := fun hnil => hend ⟨hnil, fun hfull => hstop (.inr hfull)⟩
  by_cases hmore : 10 ∈ g.file
  · obtain ⟨v, t, hv, hvn⟩ := eq_append_cons_of_mem hmore
    have hlines : lines (left g) = (g.data ++ v) :: lines t := by
      rw [left, hv, ← append_assoc, lines_cons (by simp [hin, hvn])]
    rw [hlines] at h hline
    obtain rfl : v = [] := by simpa [expected] using hline
    refine not_expected (fun i => reads (i + 1)) (f := { g with data := [] }) hv fun n => ?_
    have := h (n + 1)
    rwa [result_succ, hcall] at this
  · rw [left, lines_last (by simp [hin, hmore]) (by simp [hfile])] at hline
    simp [expected, hfile] at hline

theorem breadline_lines_iff (reads : ℕ → ℕ) (s : Bytes) :
    (∀ n, result 10 (fun i => some (reads i)) n ⟨[], s⟩ = expected (lines s) n) ↔
      ∀ n, Fed (reads n) (calls 10 (fun i => some (reads i)) n ⟨[], s⟩) := by
  suffices h : ∀ f, (∀ n, result 10 (fun i => some (reads i)) n f = expected (lines (left f)) n) ↔
      ∀ n, Fed (reads n) (calls 10 (fun i => some (reads i)) n f) from h ⟨[], s⟩
  intro f
  constructor
  · intro h n
    induction n generalizing f reads with
    | zero => exact fed_of_expected reads h
    | succ n ih =>
      have hnext := (breadline_fed (fed_of_expected reads h)).2
      refine ih (fun i => reads (i + 1)) _ fun n => ?_
      rw [hnext, ← expected_succ, ← h (n + 1)]
      rfl
  · intro h n
    induction n generalizing f reads with
    | zero => exact (breadline_fed (h 0)).1
    | succ n ih =>
      have hnext := (breadline_fed (h 0)).2
      rw [expected_succ, show (lines (left f)).tail = _ from hnext.symm]
      exact ih (fun i => reads (i + 1)) _ fun n => h (n + 1)

theorem short_read_line :
    ¬ ∀ n, result 10 (fun _ => some 0) n ⟨[], [97, 98, 10]⟩ = expected (lines [97, 98, 10]) n :=
  fun h => absurd (h 0) (by decide)

end Criu.Bfd

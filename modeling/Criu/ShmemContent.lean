import Criu.Pagemap

/-!
What a successful return of `do_restore_shmem_content` means. The loop reads the entries of
the pagemap into the segment one after the other; the result of a read is dropped, and an
entry that does not fit the segment ends the loop with the last positive result of
`advance()` still in `ret`. The callers only look for a negative value.
-/

namespace Criu.ShmemContent

open Pagemap

/-- A call of `read_pages` into the segment at offset `vaddr`, and whether it succeeded. -/
structure PageRead where
  vaddr : ℕ
  nrPages : ℕ
  ok : Bool
deriving DecidableEq

/-- The loop over the rest of the pagemap: the value left in `ret` and the reads made.
`readOk n` is the outcome of the call number `n`; the end of an entry is an unsigned long. -/
def restoreLoop (size : ℕ) (readOk : ℕ → Bool) :
    ℕ → List PagemapEntry → ℤ × List PageRead
  | _, [] => (0, [])
  | n, pe :: rest =>
      if size < (pe.vaddr + pe.nrPages * pageSize) % 2 ^ 64 then (1, [])
      else
        let r := restoreLoop size readOk (n + 1) rest
        (r.1, ⟨pe.vaddr, pe.nrPages, readOk n⟩ :: r.2)

/-- `opened` is the result of `open_page_read`: positive, 0 without an image, or an error. -/
def doRestoreShmemContent (opened : ℤ) (pmes : List PagemapEntry) (size : ℕ)
    (readOk : ℕ → Bool) : ℤ × List PageRead :=
  if opened ≤ 0 then (-1, []) else restoreLoop size readOk 0 pmes

def AllRead (pmes : List PagemapEntry) (size : ℕ) (reads : List PageRead) : Prop :=
  reads = pmes.map (fun pe => ⟨pe.vaddr, pe.nrPages, true⟩) ∧ ∀ pe ∈ pmes, pe.stop ≤ size

theorem restoreLoop_nonneg (size : ℕ) (readOk : ℕ → Bool) (n : ℕ) (pmes : List PagemapEntry) :
    0 ≤ (restoreLoop size readOk n pmes).1 := by
  induction pmes generalizing n with
  | nil => exact Int.le_refl 0
  | cons pe rest ih =>
    unfold restoreLoop
    split
    · decide
    · exact ih (n + 1)

/-- The loop reads everything exactly if every entry fits and every call succeeds. -/
theorem restoreLoop_allRead_iff {size : ℕ} (hsize : size < 2 ^ 64) (readOk : ℕ → Bool) (n : ℕ)
    (pmes : List PagemapEntry) :
    AllRead pmes size (restoreLoop size readOk n pmes).2 ↔
      (∀ pe ∈ pmes, pe.stop ≤ size) ∧ ∀ i < pmes.length, readOk (n + i) = true := by
  induction pmes generalizing n with
  | nil => simp [AllRead, restoreLoop]
  | cons pe rest ih =>
    unfold restoreLoop
    split
    · next hout =>
      have hbig : ¬ pe.stop ≤ size := by
        have hend : pe.stop = pe.vaddr + pe.nrPages * pageSize := rfl
        omega
      simp [AllRead, hbig]
    have hrest := ih (n + 1)
    have hshift : ∀ i, n + (i + 1) = n + 1 + i := fun i => by omega
    constructor
    · rintro ⟨hreads, hfit⟩
      obtain ⟨hhead, htail⟩ := List.cons.inj hreads
      obtain ⟨-, hok⟩ := hrest.1 ⟨htail, fun p hp => hfit p (List.mem_cons_of_mem _ hp)⟩
      refine ⟨hfit, ?_⟩
      intro i hi
      cases i with
      | zero => exact congrArg PageRead.ok hhead
      | succ i =>
        rw [hshift]
        exact hok i (Nat.lt_of_succ_lt_succ hi)
    · rintro ⟨hfit, hok⟩
      have hhead : readOk n = true := hok 0 (Nat.succ_pos _)
      obtain ⟨htail, -⟩ := hrest.2 ⟨fun p hp => hfit p (List.mem_cons_of_mem _ hp), by
        intro i hi
        rw [← hshift]
        exact hok (i + 1) (Nat.succ_lt_succ hi)⟩
      refine ⟨?_, hfit⟩
      dsimp only
      rw [List.map_cons, htail, hhead]

/-- A non-negative result says that all entries were read if and only if the image was not
opened at all, or all entries lie in the segment and no read fails. -/
theorem restore_reports_loss_iff (opened : ℤ) (pmes : List PagemapEntry) {size : ℕ}
    (hsize : size < 2 ^ 64) (readOk : ℕ → Bool) :
    (0 ≤ (doRestoreShmemContent opened pmes size readOk).1 →
        AllRead pmes size (doRestoreShmemContent opened pmes size readOk).2) ↔
      opened ≤ 0 ∨
        (∀ pe ∈ pmes, pe.stop ≤ size) ∧ ∀ i < pmes.length, readOk i = true := by
  by_cases hopen : opened ≤ 0
  · simp [doRestoreShmemContent, hopen]
  have hloop := restoreLoop_allRead_iff hsize readOk 0 pmes
  have hret := restoreLoop_nonneg size readOk 0 pmes
  simp only [Nat.zero_add] at hloop
  have hrun : doRestoreShmemContent opened pmes size readOk = restoreLoop size readOk 0 pmes :=
    if_neg hopen
  rw [hrun, hloop, or_iff_right hopen]
  exact ⟨fun h => h hret, fun h _ => h⟩

theorem restore_one_page : AllRead [⟨0, 1, pePresent⟩] 4096
    (doRestoreShmemContent 1 [⟨0, 1, pePresent⟩] 4096 fun _ => true).2 :=
  (restore_reports_loss_iff 1 [⟨0, 1, pePresent⟩] (by decide) fun _ => true).2
    (Or.inr ⟨by decide, fun _ _ => rfl⟩) (by decide)

/-- Two pages for a segment of one page: nothing is read and the result is 1. The failed
read of a page that fits is not reported either. -/
theorem loss_returns_success :
    ¬ (0 ≤ (doRestoreShmemContent 1 [⟨0, 2, pePresent⟩] 4096 fun _ => true).1 →
      AllRead [⟨0, 2, pePresent⟩] 4096
        (doRestoreShmemContent 1 [⟨0, 2, pePresent⟩] 4096 fun _ => true).2) ∧
    ¬ (0 ≤ (doRestoreShmemContent 1 [⟨0, 1, pePresent⟩] 4096 fun _ => false).1 →
      AllRead [⟨0, 1, pePresent⟩] 4096
        (doRestoreShmemContent 1 [⟨0, 1, pePresent⟩] 4096 fun _ => false).2) := by
  constructor
  · intro h
    exact absurd (h (by decide)).1 (by decide)
  · intro h
    exact absurd (h (by decide)).1 (by decide)

end Criu.ShmemContent

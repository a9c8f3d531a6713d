import Mathlib.Data.Int.Order.Basic
import Mathlib.Data.List.Induction

/-!
The search for a free descriptor number (criu/files.c). The entries of a task are kept in the order
of their numbers and gone through from the end. The search returns the number behind the first
entry that has a gap above it, so it never comes to the gap below the first entry of the list.
-/

namespace Criu.UnusedFd

open List

/-- `collect_task_fd`. The list is written from its end on. -/
def collectTaskFd (fds : List ℤ) (new : ℤ) : List ℤ :=
  match fds with
  | [] => [new]
  | fd :: rest => if fd < new then new :: fd :: rest else fd :: collectTaskFd rest new

def findUsedFd (fd : ℤ) : List ℤ → Bool
  | [] => false
  | fle :: rest => if fle = fd then true else if fle < fd then false else findUsedFd fd rest

/-- The loop of `find_unused_fd`; it ends in the BUG if nothing comes out. -/
def searchLoop : ℤ → List ℤ → Option ℤ
  | _, [] => none
  | prevFd, fd :: rest => if prevFd > fd then some (fd + 1) else searchLoop (fd - 1) rest

def findUnusedFd (serviceFdMin hintFd : ℤ) (fds : List ℤ) : Option ℤ :=
  if 0 ≤ hintFd ∧ findUsedFd hintFd fds = false then some hintFd
  else searchLoop (serviceFdMin - 1) fds

variable {fds : List ℤ} {fd new bound : ℤ}

theorem mem_collectTaskFd : fd ∈ collectTaskFd fds new ↔ fd = new ∨ fd ∈ fds := by
  induction fds with
  | nil => simp [collectTaskFd]
  | cons a rest ih =>
    rw [collectTaskFd]
    split
    · exact mem_cons
    · rw [mem_cons, ih, mem_cons, or_left_comm]

theorem collectTaskFd_sorted (h : fds.Pairwise (· ≥ ·)) (new : ℤ) :
    (collectTaskFd fds new).Pairwise (· ≥ ·) := by
  induction fds with
  | nil => exact pairwise_singleton _ _
  | cons a rest ih =>
    obtain ⟨ha, hrest⟩ := pairwise_cons.mp h
    rw [collectTaskFd]
    split
    case isTrue hlt =>
      refine pairwise_cons.mpr ⟨forall_mem_cons.mpr ⟨Int.le_of_lt hlt, fun b hb => ?_⟩, h⟩
      have := ha b hb
      omega
    case isFalse hge =>
      refine pairwise_cons.mpr ⟨fun b hb => ?_, ih hrest⟩
      rcases mem_collectTaskFd.mp hb with rfl | hb
      · exact Int.not_lt.mp hge
      · exact ha b hb

theorem findUsedFd_iff (h : fds.Pairwise (· ≥ ·)) : findUsedFd fd fds = true ↔ fd ∈ fds := by
  induction fds with
  | nil => simp [findUsedFd]
  | cons a rest ih =>
    obtain ⟨ha, hrest⟩ := pairwise_cons.mp h
    rw [findUsedFd, mem_cons]
    split_ifs with heq hlt
    · simp [heq]
    · refine iff_of_false id (not_or.mpr ⟨Ne.symm heq, fun hin => ?_⟩)
      exact absurd (ha fd hin) (Int.not_le.mpr hlt)
    · rw [ih hrest]
      exact (or_iff_right (Ne.symm heq)).symm

/-- What is found is behind an entry, in a gap. -/
theorem searchLoop_some (h : (bound :: fds).Pairwise (· ≥ ·))
    (hfd : searchLoop (bound - 1) fds = some fd) : fd - 1 ∈ fds ∧ fd < bound ∧ fd ∉ fds := by
  induction fds generalizing bound with
  | nil => cases hfd
  | cons a rest ih =>
    obtain ⟨hbound, hrest⟩ := pairwise_cons.mp h
    have ha := hbound a mem_cons_self
    have hle := (pairwise_cons.mp hrest).1
    rw [searchLoop] at hfd
    split at hfd
    case isTrue hgap =>
      cases hfd
      refine ⟨by simp, by omega, not_mem_cons_of_ne_of_not_mem (by omega) fun hin => ?_⟩
      have := hle _ hin
      omega
    case isFalse hgap =>
      obtain ⟨hmem, hlt, hnot⟩ := ih hrest hfd
      exact ⟨mem_cons_of_mem a hmem, by omega, not_mem_cons_of_ne_of_not_mem (by omega) hnot⟩

/-- Nothing is found if there is no gap above an entry. -/
theorem searchLoop_none (h : searchLoop (bound - 1) fds = none) {u : ℤ} (hfd : fd ∈ fds)
    (hu : fd < u) (hlt : u < bound) : u ∈ fds := by
  induction fds generalizing bound with
  | nil => cases hfd
  | cons a rest ih =>
    rw [searchLoop] at h
    split at h
    · cases h
    rcases (show u = a ∨ u < a by omega) with rfl | hlt'
    · exact mem_cons_self
    rcases mem_cons.mp hfd with rfl | hfd
    · omega
    · exact mem_cons_of_mem a (ih h hfd hlt')

def Finds (fds news : List ℤ) (bound hint : ℤ) : Prop :=
  ∃ fd, findUnusedFd bound hint fds = some fd ∧ 0 ≤ fd ∧ fd ∉ news ∧ (fd < bound ∨ fd = hint)

theorem collected (news : List ℤ) : (news.foldl collectTaskFd []).Pairwise (· ≥ ·) ∧
      ∀ fd, fd ∈ news.foldl collectTaskFd [] ↔ fd ∈ news := by
  induction news using reverseRecOn with
  | nil => exact ⟨List.Pairwise.nil, fun _ => Iff.rfl⟩
  | append_singleton news new ih =>
    rw [foldl_append]
    refine ⟨collectTaskFd_sorted ih.1 new, fun fd => ?_⟩
    rw [foldl_cons, foldl_nil, mem_collectTaskFd, ih.2, mem_append, mem_singleton, or_comm]

/-- A free number is found exactly if there is one above an entry, or the hint is free. -/
theorem find_unused_fd_iff {news : List ℤ} {bound : ℤ} (hint : ℤ)
    (h : ∀ fd ∈ news, 0 ≤ fd ∧ fd < bound) :
    ((∃ u, 0 ≤ u ∧ u < bound ∧ u ∉ news) → Finds (news.foldl collectTaskFd []) news bound hint) ↔
      (0 ≤ hint ∧ hint ∉ news) ∨ (∀ u, 0 ≤ u → u < bound → u ∈ news) ∨
        ∃ fd ∈ news, ∃ u, fd < u ∧ u < bound ∧ u ∉ news := by
  obtain ⟨hsorted, hmem⟩ := collected news
  have hbound : (bound :: news.foldl collectTaskFd []).Pairwise (· ≥ ·) :=
    pairwise_cons.mpr ⟨fun fd hfd => Int.le_of_lt (h fd ((hmem fd).mp hfd)).2, hsorted⟩
  have hused : findUsedFd hint (news.foldl collectTaskFd []) = false ↔ hint ∉ news := by
    rw [← Bool.not_eq_true, findUsedFd_iff hsorted, hmem]
  simp only [Finds, findUnusedFd, hused]
  by_cases hhint : 0 ≤ hint ∧ hint ∉ news
  · refine iff_of_true (fun _ => ⟨hint, if_pos hhint, hhint.1, hhint.2, .inr rfl⟩) (.inl hhint)
  rw [or_iff_right hhint]
  simp only [if_neg hhint]
  constructor
  · intro hfinds
    by_contra hcond
    obtain ⟨hfull, hgap⟩ := not_or.mp hcond
    push Not at hfull
    obtain ⟨u, hu, hlt, hnot⟩ := hfull
    obtain ⟨fd, hfd, -, hfree, -⟩ := hfinds ⟨u, hu, hlt, hnot⟩
    obtain ⟨hbelow, hfdlt, -⟩ := searchLoop_some hbound hfd
    exact hgap ⟨fd - 1, (hmem _).mp hbelow, fd, by omega, hfdlt, hfree⟩
  · rintro (hfull | ⟨f, hf, u, hfu, hlt, hnot⟩) ⟨v, hv, hvlt, hvnot⟩
    · exact absurd (hfull v hv hvlt) hvnot
    cases hs : searchLoop (bound - 1) (news.foldl collectTaskFd []) with
    | none => exact absurd ((hmem u).mp (searchLoop_none hs ((hmem f).mpr hf) hfu hlt)) hnot
    | some fd =>
      obtain ⟨hbelow, hfdlt, hfree⟩ := searchLoop_some hbound hs
      have := (h _ ((hmem _).mp hbelow)).1
      exact ⟨fd, rfl, by omega, fun hin => hfree ((hmem fd).mpr hin), .inl hfdlt⟩

theorem find_unused_fd_three : Finds ([3].foldl collectTaskFd []) [3] 5 (-1) :=
  (find_unused_fd_iff (-1) (by decide)).mpr (.inr (.inr ⟨3, by decide, 4, by decide⟩))
    ⟨0, by decide⟩

/-- All numbers are free in a task without descriptors. -/
theorem find_unused_fd_empty :
    (∃ u : ℤ, 0 ≤ u ∧ u < 5 ∧ u ∉ []) ∧ ¬ Finds ([].foldl collectTaskFd []) [] 5 (-1) := by
  refine ⟨⟨0, by decide⟩, ?_⟩
  rintro ⟨fd, h, -⟩
  cases h

end Criu.UnusedFd

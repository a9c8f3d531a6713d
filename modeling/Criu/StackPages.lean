import Criu.ChunkedDump

/-!
Which pages of a lazily restorable area `generate_iovs` leaves for a lazy restore. The
pages with a thread's stack pointer should be the ones that are sent at once. The test
of `is_stack` masks with `~PAGE_MASK`, which keeps the offsets in the page and drops the
page numbers, so for the page addresses it is given it asks whether any stack pointer is
page-aligned, for all pages alike.
-/

namespace Criu.StackPages

open Pagemap ReadCursor PipeBuffers PipeContents TaskDump ChunkMode DumpPlan ChunkedDump

variable {opts : DumpOpts} {task : Task} {e : VmaEntry} {hasParent : Bool}

/-- The stack pointer points into the page at `vaddr`. -/
def InPage (sp vaddr : ℕ) : Prop := sp / pageSize = vaddr / pageSize

instance (sp vaddr : ℕ) : Decidable (InPage sp vaddr) := by
  unfold InPage
  infer_instance

variable {vaddr a f : ℕ}

theorem isStack_page (hpage : pageSize ∣ vaddr) :
    isStack task vaddr = true ↔ ∃ sp ∈ task.threadSp, pageSize ∣ sp := by
  have hmask : ∀ sp, (sp ^^^ vaddr) &&& (pageSize - 1) = 0 ↔ pageSize ∣ sp := by
    intro sp
    have hlow : (sp ^^^ vaddr) &&& (2 ^ 12 - 1) = sp % 2 ^ 12 ^^^ vaddr % 2 ^ 12 := by
      rw [Nat.and_two_pow_sub_one_eq_mod, Nat.xor_mod_two_pow]
    have haddr : vaddr % 2 ^ 12 = 0 := Nat.mod_eq_zero_of_dvd hpage
    rw [haddr, Nat.xor_zero] at hlow
    exact hlow ▸ (Nat.dvd_iff_mod_eq_zero).symm
  simp only [isStack, List.any_eq_true, beq_iff_eq, hmask]

/-- The page at `vaddr` is put into the pipe, and not left to the parent images. -/
def Added (opts : DumpOpts) (task : Task) (e : VmaEntry) (hasParent : Bool) (vaddr : ℕ) : Prop :=
  ∃ f, pageCall opts task e hasParent vaddr = some (.page vaddr f)

theorem pageCall_page (h : pageCall opts task e hasParent vaddr = some (.page a f)) :
    a = vaddr ∧ f = ppbFlags task e vaddr := by
  unfold pageCall at h
  split at h
  · cases h
  · split at h
    · cases h
    · cases h
      exact ⟨rfl, rfl⟩

/-- A page that goes into the pipe is marked lazy unless some stack pointer is aligned. -/
theorem ppbFlags_lazy_iff (hlazy : e.canBeLazy = true) (hpage : pageSize ∣ vaddr) :
    ppbFlags task e vaddr = ppbLazy ↔ ¬ ∃ sp ∈ task.threadSp, pageSize ∣ sp := by
  rw [← isStack_page hpage]
  cases hs : isStack task vaddr <;> simp [ppbFlags, hlazy, hs, ppbLazy]

/-- A page pipe that the calls `calls` were made on, all of them in the buffers from `start`
on: one of chunk mode, or one whose buffers share the pipes. -/
inductive Filled (k : PipeKernel) (lazyPages : Bool) (start : ℕ) (calls : List AddCall)
    (pp : PagePipe) : Prop
  | chunk : Grants k → Holds start calls pp → Capped pp → Filled k lazyPages start calls pp
  | shared : start = 0 → Holds start calls pp → Sharing lazyPages pp →
      Filled k lazyPages start calls pp

variable {k : PipeKernel} {start n off : ℕ} {calls : List AddCall} {pp : PagePipe}

theorem Filled.holds {lazyPages : Bool} (h : Filled k lazyPages start calls pp) :
    Holds start calls pp := by
  cases h <;> assumption

theorem vmaCalls_add (m n off : ℕ) : vmaCalls opts task e hasParent (m + n) off =
    vmaCalls opts task e hasParent m off ++
      vmaCalls opts task e hasParent n (off + m * pageSize) := by
  induction m generalizing off with
  | zero => simp [vmaCalls]
  | succ m ih =>
    rw [Nat.succ_add, vmaCalls, vmaCalls, ih, Nat.succ_mul, Nat.add_comm (m * _), ← Nat.add_assoc,
      List.append_assoc]

/-- The walk makes the calls of the first pages of the area, of all if no drain is asked for. -/
theorem generateIovs_filled (h : Filled k opts.lazyPages start calls pp)
    (hiovs : start + (pagesOf (calls ++ vmaCalls opts task e hasParent n off)).length ≤
      pp.nrIovs) :
    ∃ again m pp', generateIovs opts task k e hasParent n off pp =
        .ok (again, off + m * pageSize, pp') ∧ m ≤ n ∧ (again = false → m = n) ∧
      Filled k opts.lazyPages start (calls ++ vmaCalls opts task e hasParent m off) pp' := by
  cases h with
  | chunk hg hh hcap =>
    obtain ⟨again, m, done, pp', hrun, hw⟩ :=
      generateIovs_walked hg opts task e hasParent n off calls pp hh hcap hiovs
    have hdone := hw.calls
    rw [← Nat.add_sub_cancel' hw.le, vmaCalls_add, Nat.add_sub_cancel_left] at hdone
    rw [← List.append_cancel_right hdone] at hw
    exact ⟨again, m, pp', hrun, hw.le, fun ha => (hw.finished ha).1, .chunk hg hw.holds hw.capped⟩
  | shared hstart hh hs =>
    subst hstart
    rw [pagesOf_append, List.length_append, Nat.zero_add] at hiovs
    obtain ⟨pp', hadd, hc, hs', hw, hholes, -⟩ := addAll_ok k _ hh.collected hs hh.whole
      (.inl hiovs)
    rw [← pagesOf_append] at hc
    rw [hh.holes, ← holesOf_append] at hholes
    exact ⟨false, n, pp', generateIovs_addAll hadd, le_rfl, fun _ => rfl,
      .shared rfl ⟨hc, hw, hholes⟩ hs'⟩

def stackTask (sp : ℕ) : Task := { oneAreaTask 0 1 2 2 with threadSp := [sp] }

def stackArea : VmaEntry :=
  ⟨1 * pageSize, 3 * pageSize, protRead, mapPrivate ||| mapAnonymous ||| 0,
    vmaAreaRegular ||| vmaAnonPrivate⟩

/-- A pipe of chunk mode. -/
def stackPipe : PagePipe := freshPipe growingPipes false 2 (fun _ => ⟨0, 0⟩) true

end Criu.StackPages

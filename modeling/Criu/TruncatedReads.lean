import Criu.AsyncReads
import Criu.RemoteReads

/-!
Reading loops at the end of their input (criu/pagemap.c, criu/pie/restorer.c,
criu/page-xfer.c). A `preadv` or `recv` that returns nothing is taken for a short
result, so a loop whose input is too short asks again and again. The loops of
`process_async_reads`, of the restorer and of `page_server_start_sync_read` run on
fuel here; each of them returns on some fuel exactly if its input is complete.
-/

namespace Criu.TruncatedReads

open Pagemap ReadCursor PageIo AsyncQueue Delivery AsyncReads PageServer RemoteReads List

variable {kernel : ℕ → ℕ → ℕ} {jobs : List PageReadIov} {rios : List RestoreVmaIo} {f : Fault}
  {io : Io} {img : PagesImage} {rio : RestoreVmaIo} {fuel n calls : ℕ}

section Jobs

def Stored (size : ℕ) (j : PageReadIov) : Prop := j.start < j.stop → j.stop ≤ size

variable {autoDedup : Bool} {prs : List PageRead} {j : PageReadIov} {pr : PageRead}
  {fuelOf : PageReadIov → ℕ}

theorem jobLoop_error (h : jobLoop kernel img fuel j io = .error f) : f = .hang := by
  induction fuel generalizing j io with
  | zero =>
    cases h
    rfl
  | succ fuel ih =>
    simp only [jobLoop] at h
    split at h
    · exact ih h
    · cases h

theorem afterJob_size (rest : List PageReadIov) {ret : ℕ} (hret : ret ≤ j.stop - j.start) :
    (afterJob autoDedup pr j rest ret).pi.size = pr.pi.size :=
  (afterJob_punches autoDedup pr j rest hret).size

theorem asyncJobsWithin_cases (fuelOf : PageReadIov → ℕ) (jobs : List PageReadIov) (pr : PageRead)
    (io : Io) :
    asyncJobsWithin kernel autoDedup fuelOf jobs pr io = .error .hang ∨
      (∃ r, asyncJobsWithin kernel autoDedup fuelOf jobs pr io = .ok r) ∧
        ∀ j ∈ jobs, Stored pr.pi.size j := by
  induction jobs generalizing pr io with
  | nil => exact .inr ⟨⟨_, rfl⟩, forall_mem_nil _⟩
  | cons j rest ih =>
    simp only [asyncJobsWithin]
    cases hloop : jobLoop kernel pr.pi (fuelOf j) j io with
    | error f => exact .inl (jobLoop_error hloop ▸ rfl)
    | ok r =>
      obtain ⟨hret, hstored⟩ := jobLoop_bounds hloop
      rcases ih (afterJob autoDedup pr j rest r.1) r.2 with hhang | ⟨hr, hrest⟩
      · exact .inl hhang
      · exact .inr ⟨hr, forall_mem_cons.mpr ⟨hstored, afterJob_size rest hret ▸ hrest⟩⟩

theorem asyncJobsWithin_returns (hk : Progress kernel) (autoDedup : Bool) (fuelOf : PageReadIov → ℕ)
    (pr : PageRead) (io : Io) (hshape : ∀ j ∈ jobs, JobShape j)
    (hstored : ∀ j ∈ jobs, Stored pr.pi.size j) (hfuel : ∀ j ∈ jobs, j.stop - j.start < fuelOf j) :
    ∃ r, asyncJobsWithin kernel autoDedup fuelOf jobs pr io = .ok r := by
  induction jobs generalizing pr io with
  | nil => exact ⟨(pr, io), rfl⟩
  | cons j rest ih =>
    rw [forall_mem_cons] at hshape hstored hfuel
    obtain ⟨ret, io', hloop, -, hret⟩ := jobLoop_ok hk pr.pi.data (fuelOf j) j io hshape.1.total
      hstored.1 (fun _ _ _ => rfl) hfuel.1
    simp only [asyncJobsWithin, hloop]
    exact ih _ _ hshape.2 ((afterJob_size rest hret).symm ▸ hstored.2) hfuel.2

theorem processAsyncReadsWithin_stored
    (h : processAsyncReadsWithin kernel autoDedup fuelOf prs io ≠ .error .hang) :
    ∀ pr ∈ prs, ∀ j ∈ pr.async, Stored pr.pi.size j := by
  induction prs generalizing io with
  | nil => exact forall_mem_nil _
  | cons pr parents ih =>
    simp only [processAsyncReadsWithin] at h
    rcases @asyncJobsWithin_cases kernel autoDedup fuelOf pr.async pr io with
      hjobs | ⟨⟨r, hjobs⟩, hstored⟩
    · rw [hjobs] at h
      exact absurd rfl h
    · rw [hjobs] at h
      refine forall_mem_cons.mpr ⟨hstored, @ih r.2 fun hrest => h ?_⟩
      dsimp only
      rw [hrest]

theorem processAsyncReadsWithin_returns (hk : Progress kernel) (autoDedup : Bool)
    (fuelOf : PageReadIov → ℕ) (io : Io) (hshape : ∀ pr ∈ prs, ∀ j ∈ pr.async, JobShape j)
    (hstored : ∀ pr ∈ prs, ∀ j ∈ pr.async, Stored pr.pi.size j)
    (hfuel : ∀ pr ∈ prs, ∀ j ∈ pr.async, j.stop - j.start < fuelOf j) :
    ∃ r, processAsyncReadsWithin kernel autoDedup fuelOf prs io = .ok r := by
  induction prs generalizing io with
  | nil => exact ⟨_, rfl⟩
  | cons pr parents ih =>
    rw [forall_mem_cons] at hshape hstored hfuel
    obtain ⟨r, hjobs⟩ :=
      asyncJobsWithin_returns hk autoDedup fuelOf pr io hshape.1 hstored.1 hfuel.1
    obtain ⟨r', hrest⟩ := ih r.2 hshape.2 hstored.2 hfuel.2
    exact ⟨(r.1 :: r'.1, r'.2), by simp only [processAsyncReadsWithin, hjobs, hrest]⟩

end Jobs

section Restorer

variable {autoDedup : Bool}

def RioStored (size : ℕ) (rio : RestoreVmaIo) : Prop :=
  0 < iovTotal rio.iovs → rio.off + iovTotal rio.iovs ≤ size

/-- An area that is done lies in the file. -/
theorem rioLoop_cases (kernel : ℕ → ℕ → ℕ) (autoDedup : Bool) (fuel : ℕ) (rio : RestoreVmaIo)
    (img : PagesImage) (io : Io) : rioLoop kernel autoDedup fuel rio img io = .error .hang ∨
      ∃ r, rioLoop kernel autoDedup fuel rio img io = .ok r ∧ r.1.size = img.size ∧
        RioStored img.size rio := by
  induction fuel generalizing rio img io with
  | zero => exact .inl rfl
  | succ fuel ih =>
    have hret : readRet kernel img io (iovTotal rio.iovs) rio.off ≤ img.size - rio.off := by
      unfold readRet
      omega
    obtain ⟨htotal, -⟩ := skipIovs_total rio.iovs
      (readRet_le kernel img io (iovTotal rio.iovs) rio.off)
    unfold RioStored at ih ⊢
    simp only [rioLoop]
    split
    · next hnil =>
      rw [isEmpty_iff.mp hnil]
      exact .inr ⟨_, rfl, rfl, by simp [iovTotal]⟩
    · refine (ih ..).imp_right ?_
      rintro ⟨r, hrun, hbounds⟩
      rw [(punched_changes autoDedup img _ _).1] at hbounds
      dsimp only at hbounds
      exact ⟨r, hrun, by omega⟩

theorem restoreVmaIos_stored (h : restoreVmaIos kernel autoDedup fuel rios img io ≠ .error .hang) :
    ∀ rio ∈ rios, RioStored img.size rio := by
  induction rios generalizing img io with
  | nil => exact forall_mem_nil _
  | cons rio rest ih =>
    simp only [restoreVmaIos] at h
    rcases rioLoop_cases kernel autoDedup fuel rio img io with
      hloop | ⟨r, hloop, hsize, hstored⟩
    · rw [hloop] at h
      exact absurd rfl h
    · rw [hloop] at h
      exact forall_mem_cons.mpr ⟨hstored, hsize ▸ ih h⟩

theorem restoreVmaIos_returns (hk : Progress kernel) (autoDedup : Bool) (fuel : ℕ)
    (img : PagesImage) (io : Io)
    (hstored : ∀ rio ∈ rios, RioStored img.size rio)
    (hfuel : ∀ rio ∈ rios, iovTotal rio.iovs + 1 < fuel) :
    ∃ r, restoreVmaIos kernel autoDedup fuel rios img io = .ok r := by
  induction rios generalizing img io with
  | nil => exact ⟨(img, io), rfl⟩
  | cons rio rest ih =>
    rw [forall_mem_cons] at hstored hfuel
    obtain ⟨img', io', hloop, -, hsize, -⟩ := rioLoop_ok hk autoDedup img.data fuel rio img io
      hstored.1 (fun _ _ _ => rfl) (fun _ => hfuel.1) (by omega)
    simp only [restoreVmaIos, hloop]
    exact ih img' io' (hsize.symm ▸ hstored.2) hfuel.2

end Restorer

section Sync

variable (kernel : ℕ → ℕ → ℕ)

/-- Bytes that `recv` returns when asked for `len` with `avail` still to come; none at the end of
the stream. -/
def recvRet (calls len avail : ℕ) : ℕ :=
  min (min (kernel calls len) len) (min avail maxRwCount)

/-- The loop of `page_server_start_sync_read` on a stream that ends after `sk`. -/
def syncReadLoop : ℕ → PsAsyncRead → (ℕ → UInt8) → List UInt8 → ℕ →
    Except Fault (Completion × (ℕ → UInt8))
  | 0, _, _, _, _ => .error .hang
  | fuel + 1, ar, mem, sk, calls =>
      let n := recvRet kernel calls (recvLen ar) sk.length
      match pageServerRead mem ar (sk.take n) with
      | .more ar' mem' => syncReadLoop fuel ar' mem' (sk.drop n) (calls + 1)
      | .done c mem' => .ok (c, mem')
      | .bug => .error .bug

def pageServerStartSyncRead (fuel buf nr priv : ℕ) (mem : ℕ → UInt8) (sk : List UInt8) :
    Except Fault (Completion × (ℕ → UInt8)) :=
  syncReadLoop kernel fuel (initPsAsyncRead buf nr priv) mem sk 0

/-- Bytes of pages that are read behind the header for a request of `nr` pages. -/
def dataBytes (nr : ℕ) (all : List UInt8) : ℕ :=
  min nr (recvPsi (all.take psiSize)).1.nrPages * pageSize

/-- The stream has the header and its pages, and they are less than four gigabytes. -/
def Answered (nr : ℕ) (all : List UInt8) : Prop :=
  psiSize + dataBytes nr all ≤ all.length ∧ dataBytes nr all < 2 ^ 32

/-- Where a read for `nr` pages of the stream `all` can be when `sk` is left of it. -/
structure SyncAt (nr : ℕ) (all : List UInt8) (ar : PsAsyncRead) (sk : List UInt8) : Prop where
  left : sk = all.drop ar.rb
  le : ar.rb ≤ all.length
  header : ar.pi = all.take (min ar.rb psiSize)
  goal : ar.goal = psiSize + ar.nrPages * pageSize
  asked : ar.rb < psiSize → ar.nrPages = nr
  granted : min ar.nrPages (recvPsi (all.take psiSize)).1.nrPages =
    min nr (recvPsi (all.take psiSize)).1.nrPages

variable {kernel} {nr : ℕ} {all sk : List UInt8} {ar : PsAsyncRead} {mem : ℕ → UInt8}

theorem initPsAsyncRead_at (buf nr priv : ℕ) (all : List UInt8) :
    SyncAt nr all (initPsAsyncRead buf nr priv) all :=
  ⟨rfl, Nat.zero_le _, by simp [initPsAsyncRead, asyncReadSetGoal], rfl, fun _ => rfl, rfl⟩

/-- The goal of a read at its next `recv`: in the header it is for all pages asked for. -/
def nextGoal (nr : ℕ) (all : List UInt8) (rb : ℕ) : ℕ :=
  psiSize + if rb < psiSize then nr * pageSize else dataBytes nr all

theorem recvRet_le (kernel : ℕ → ℕ → ℕ) (calls len avail : ℕ) :
    recvRet kernel calls len avail ≤ avail ∧
    recvRet kernel calls len avail ≤ len ∧ recvRet kernel calls len avail ≤ maxRwCount := by
  unfold recvRet
  omega

section

variable (h : SyncAt nr all ar sk)
include h

theorem SyncAt.length : sk.length = all.length - ar.rb := by
  rw [h.left, length_drop]

theorem SyncAt.shrinkGoal_eq (hrb : psiSize ≤ ar.rb) :
    (shrinkGoal ar).goal = psiSize + dataBytes nr all ∧
      (shrinkGoal ar).nrPages = min nr (recvPsi (all.take psiSize)).1.nrPages := by
  have hpi : ar.pi = all.take psiSize := by
    rw [h.header, Nat.min_eq_right hrb]
  have hgoal := h.goal
  have hmin := h.granted
  unfold shrinkGoal dataBytes
  rw [hpi]
  by_cases hlt : (recvPsi (all.take psiSize)).1.nrPages < ar.nrPages
  · have hnr : (recvPsi (all.take psiSize)).1.nrPages =
        min nr (recvPsi (all.take psiSize)).1.nrPages := by omega
    rw [if_pos hlt, ← hnr]
    exact ⟨rfl, rfl⟩
  · have hnr : ar.nrPages = min nr (recvPsi (all.take psiSize)).1.nrPages := by omega
    rw [if_neg hlt, hgoal, ← hnr]
    exact ⟨rfl, rfl⟩

theorem SyncAt.receive_at (mem : ℕ → UInt8) (hn : n ≤ sk.length)
    (hheader : ar.rb < psiSize → ar.rb + n ≤ psiSize) :
    SyncAt nr all (receive mem ar (sk.take n)).1 (sk.drop n) ∧
      (receive mem ar (sk.take n)).1.rb = ar.rb + n ∧
      (receive mem ar (sk.take n)).1.goal = nextGoal nr all ar.rb := by
  have hlen : (sk.take n).length = n := length_take_of_le hn
  have hleft : sk.drop n = all.drop (ar.rb + n) := by
    rw [h.left, drop_drop]
  have hle : ar.rb + n ≤ all.length := by
    have := h.length
    have := h.le
    omega
  unfold receive nextGoal
  by_cases hrb : ar.rb < psiSize
  · have hpi : ar.pi ++ sk.take n = all.take (ar.rb + n) := by
      rw [h.header, Nat.min_eq_left (by omega), h.left, ← take_add]
    rw [if_pos hrb, if_pos hrb, hlen, hpi]
    refine ⟨⟨hleft, hle, ?_, h.goal, fun _ => h.asked hrb, h.granted⟩, rfl, ?_⟩
    · rw [Nat.min_eq_left (hheader hrb)]
    · rw [h.goal, h.asked hrb]
  obtain ⟨hgoal, hnr⟩ := h.shrinkGoal_eq (by omega)
  have hpi : (shrinkGoal ar).pi = ar.pi := by
    unfold shrinkGoal
    split <;> rfl
  rw [if_neg hrb, if_neg hrb, hlen]
  refine ⟨⟨hleft, hle, ?_, ?_, fun hlt => ?_, ?_⟩, rfl, hgoal⟩
  · dsimp only
    rw [hpi, h.header, Nat.min_eq_right (by omega), Nat.min_eq_right (by omega)]
  · rw [hgoal, hnr]
    rfl
  · dsimp only at hlt
    omega
  · rw [hnr]
    omega

/-- What the loop asks for, in a header and behind it. -/
theorem SyncAt.recvLen_eq :
    recvLen ar = if ar.rb < psiSize then psiSize - ar.rb
      else intSize (psiSize + dataBytes nr all - ar.rb) := by
  unfold recvLen
  by_cases hrb : ar.rb < psiSize
  · rw [if_pos hrb, if_pos hrb]
  · rw [if_neg hrb, if_neg hrb, (h.shrinkGoal_eq (by omega)).1]

variable {calls : ℕ}

/-- What the loop receives in one round stays within the header at first. -/
theorem SyncAt.round (mem : ℕ → UInt8) (hn : n = recvRet kernel calls (recvLen ar) sk.length) :
    SyncAt nr all (receive mem ar (sk.take n)).1 (sk.drop n) ∧
      (receive mem ar (sk.take n)).1.rb = ar.rb + n ∧
      (receive mem ar (sk.take n)).1.goal = nextGoal nr all ar.rb := by
  obtain ⟨havail, hlen, -⟩ := recvRet_le kernel calls (recvLen ar) sk.length
  rw [← hn] at havail hlen
  refine h.receive_at mem havail fun hrb => ?_
  rw [h.recvLen_eq, if_pos hrb] at hlen
  omega

/-- The loop goes on as long as the goal is not reached. -/
theorem syncReadLoop_more (mem : ℕ → UInt8) (fuel : ℕ)
    (hn : n = recvRet kernel calls (recvLen ar) sk.length)
    (hlt : ar.rb + n < nextGoal nr all ar.rb) :
    ∃ ar' mem', SyncAt nr all ar' (sk.drop n) ∧ ar'.rb = ar.rb + n ∧
      syncReadLoop kernel (fuel + 1) ar mem sk calls =
        syncReadLoop kernel fuel ar' mem' (sk.drop n) (calls + 1) := by
  obtain ⟨hat, hrb, hgoal⟩ := h.round mem hn
  refine ⟨_, (receive mem ar (sk.take n)).2, hat, hrb, ?_⟩
  simp only [syncReadLoop, ← hn, pageServerRead]
  rw [hrb, hgoal, if_pos hlt]

theorem syncReadLoop_stops (mem : ℕ → UInt8) (fuel : ℕ)
    (hn : n = recvRet kernel calls (recvLen ar) sk.length)
    (hle : nextGoal nr all ar.rb ≤ ar.rb + n) :
    syncReadLoop kernel (fuel + 1) ar mem sk calls ≠ .error .hang := by
  obtain ⟨-, hrb, hgoal⟩ := h.round mem hn
  simp only [syncReadLoop, ← hn, pageServerRead]
  rw [hrb, hgoal, if_neg (Nat.not_lt.mpr hle)]
  by_cases hgt : nextGoal nr all ar.rb < ar.rb + n <;> simp [hgt]

end

/-- On a complete stream every round brings the end nearer. -/
theorem syncReadLoop_returns (hk : Progress kernel) (hans : Answered nr all)
    (h : SyncAt nr all ar sk) (hfuel : all.length - ar.rb < fuel) :
    syncReadLoop kernel fuel ar mem sk calls ≠ .error .hang := by
  obtain ⟨hlong, hshort⟩ := hans
  induction fuel generalizing ar mem sk calls with
  | zero => cases hfuel
  | succ fuel ih =>
    have hlen := h.length
    obtain ⟨n, hn⟩ : ∃ n, n = recvRet kernel calls (recvLen ar) sk.length := ⟨_, rfl⟩
    obtain ⟨havail, -, -⟩ := recvRet_le kernel calls (recvLen ar) sk.length
    by_cases hlt : ar.rb + n < nextGoal nr all ar.rb
    · have hpos : 0 < n := by
        rw [hn]
        have hask : 0 < recvLen ar ∧ ar.rb < all.length := by
          rw [h.recvLen_eq]
          unfold nextGoal at hlt
          by_cases hrb : ar.rb < psiSize
          · rw [if_pos hrb]
            omega
          · rw [if_neg hrb] at hlt ⊢
            unfold intSize
            split <;> omega
        have := hk calls _ hask.1
        unfold recvRet maxRwCount
        omega
      obtain ⟨ar', mem', hat, hrb, hrun⟩ := syncReadLoop_more h mem fuel hn hlt
      rw [hrun]
      exact ih hat (by omega)
    · exact syncReadLoop_stops h mem fuel hn (Nat.not_lt.mp hlt)

/-- Where the loop stays on a stream that is not complete: it does not get to the last byte of the
pages, and four gigabytes before that it asks for no more. -/
structure Waits (nr : ℕ) (all : List UInt8) (rb : ℕ) : Prop where
  data : psiSize ≤ rb → rb < psiSize + dataBytes nr all
  huge : psiSize ≤ rb → 2 ^ 32 ≤ dataBytes nr all → rb ≤ psiSize + dataBytes nr all % 2 ^ 32

theorem SyncAt.waits (h : SyncAt nr all ar sk) (hans : ¬ Answered nr all) (hw : Waits nr all ar.rb)
    (hn : n = recvRet kernel calls (recvLen ar) sk.length) :
    ar.rb + n < nextGoal nr all ar.rb ∧ Waits nr all (ar.rb + n) := by
  obtain ⟨havail, hask, hcap⟩ := recvRet_le kernel calls (recvLen ar) sk.length
  rw [← hn] at hask
  have hlen := h.length
  have hno : psiSize + dataBytes nr all ≤ all.length → 2 ^ 32 ≤ dataBytes nr all := by
    intro hlong
    by_contra hshort
    exact hans ⟨hlong, by omega⟩
  rw [h.recvLen_eq] at hask
  unfold nextGoal
  by_cases hrb : ar.rb < psiSize
  · rw [if_pos hrb] at hask ⊢
    have hzero : nr * pageSize = 0 → dataBytes nr all = 0 := by
      intro hz
      have hnr : nr = 0 := (Nat.mul_eq_zero.mp hz).resolve_right (by decide)
      simp [dataBytes, hnr]
    refine ⟨?_, fun hge => ?_, fun hge _ => ?_⟩
    all_goals omega
  · rw [if_neg hrb] at hask ⊢
    have hdata := hw.data (by omega)
    have hhuge := hw.huge (by omega)
    have hstep : 2 ^ 32 ≤ dataBytes nr all → ar.rb + n ≤ psiSize + dataBytes nr all % 2 ^ 32 := by
      unfold maxRwCount at hcap
      unfold intSize at hask
      split at hask <;> omega
    have hlt : ar.rb + n < psiSize + dataBytes nr all := by
      by_cases hbig : 2 ^ 32 ≤ dataBytes nr all
      · omega
      · by_contra hge
        exact hbig (hno (by omega))
    exact ⟨hlt, fun _ => hlt, fun _ => hstep⟩

theorem syncReadLoop_hangs (hans : ¬ Answered nr all) (fuel : ℕ) (h : SyncAt nr all ar sk)
    (hw : Waits nr all ar.rb) : syncReadLoop kernel fuel ar mem sk calls = .error .hang := by
  induction fuel generalizing ar mem sk calls with
  | zero => rfl
  | succ fuel ih =>
    obtain ⟨n, hn⟩ : ∃ n, n = recvRet kernel calls (recvLen ar) sk.length := ⟨_, rfl⟩
    obtain ⟨hlt, hw'⟩ := h.waits hans hw hn
    obtain ⟨ar', mem', hat, hrb, hrun⟩ := syncReadLoop_more h mem fuel hn hlt
    rw [hrun]
    exact ih hat (hrb ▸ hw')

theorem pageServerStartSyncRead_hangs (hans : ¬ Answered nr all) (fuel buf priv : ℕ)
    (mem : ℕ → UInt8) :
    pageServerStartSyncRead kernel fuel buf nr priv mem all = .error .hang := by
  have hzero : ¬ psiSize ≤ 0 := by decide
  exact syncReadLoop_hangs hans fuel (initPsAsyncRead_at buf nr priv all)
    ⟨fun hrb => absurd hrb hzero, fun hrb => absurd hrb hzero⟩

end Sync

section Ends

theorem exists_above {α : Type*} (l : List α) (f : α → ℕ) : ∃ n, ∀ x ∈ l, f x < n :=
  ⟨(l.map f).sum + 1, fun _ hx => Nat.lt_succ_of_le (le_sum_of_mem (mem_map_of_mem hx))⟩

/-- A reading loop returns after finitely many calls exactly if its input is complete: the jobs
of `process_async_reads` and the areas of the restorer lie in the image, and the page server sends a
header and its pages, of less than four gigabytes. -/
theorem reading_loops_return_iff (hk : Progress kernel) :
    (∀ autoDedup prs io, (∀ pr ∈ prs, ∀ j ∈ pr.async, JobShape j) →
      ((∃ fuel, processAsyncReadsWithin kernel autoDedup (fun _ => fuel) prs io ≠ .error .hang) ↔
        ∀ pr ∈ prs, ∀ j ∈ pr.async, Stored pr.pi.size j)) ∧
    (∀ autoDedup rios img io,
      (∃ fuel, restoreVmaIos kernel autoDedup fuel rios img io ≠ .error .hang) ↔
        ∀ rio ∈ rios, RioStored img.size rio) ∧
    (∀ buf nr priv mem sk,
      (∃ fuel, pageServerStartSyncRead kernel fuel buf nr priv mem sk ≠ .error .hang) ↔
        Answered nr sk) := by
  refine ⟨fun autoDedup prs io hshape => ⟨?_, ?_⟩, fun autoDedup rios img io => ⟨?_, ?_⟩,
    fun buf nr priv mem sk => ⟨?_, ?_⟩⟩
  · rintro ⟨fuel, hend⟩
    exact processAsyncReadsWithin_stored hend
  · intro hstored
    obtain ⟨n, hn⟩ := exists_above (prs.flatMap (·.async)) (fun j => j.stop - j.start)
    have hfuel : ∀ pr ∈ prs, ∀ j ∈ pr.async, j.stop - j.start < n :=
      fun pr hpr j hj => hn j (mem_flatMap.mpr ⟨pr, hpr, hj⟩)
    obtain ⟨r, hrun⟩ :=
      processAsyncReadsWithin_returns hk autoDedup (fun _ => n) io hshape hstored hfuel
    exact ⟨n, by rw [hrun]; simp⟩
  · rintro ⟨fuel, hend⟩
    exact restoreVmaIos_stored hend
  · intro hstored
    obtain ⟨n, hn⟩ := exists_above rios (fun rio => iovTotal rio.iovs + 1)
    obtain ⟨r, hrun⟩ := restoreVmaIos_returns hk autoDedup n img io hstored hn
    exact ⟨n, by rw [hrun]; simp⟩
  · rintro ⟨fuel, hend⟩
    by_contra hans
    exact hend (pageServerStartSyncRead_hangs hans fuel buf priv mem)
  · intro hans
    exact ⟨sk.length + 1, syncReadLoop_returns hk hans (initPsAsyncRead_at buf nr priv sk)
      (Nat.lt_succ_of_le (Nat.sub_le _ _))⟩

theorem complete_page_returns :
    Progress (fun _ n => n) ∧
      ∃ fuel, restoreVmaIos (fun _ n => n) false fuel [⟨0, [⟨0, pageSize⟩]⟩] ⟨fun _ => 1, pageSize⟩
        ⟨fun _ => 0, 0⟩ ≠ .error .hang := by
  have hk : Progress (fun _ n => n) := fun _ _ hn => hn
  refine ⟨hk, ((reading_loops_return_iff hk).2.1 _ _ _ _).mpr fun rio hrio => ?_⟩
  obtain rfl := mem_singleton.mp hrio
  exact fun _ => by decide

/-- Two pages are to be read where the image has one, and the connection is closed in the middle of
a header. -/
theorem truncated_input_never_returns :
    Progress (fun _ n => n) ∧
      ¬ (∃ fuel, processAsyncReadsWithin (fun _ n => n) false (fun _ => fuel)
        [queuedLevel ⟨fun _ => 1, pageSize⟩ [⟨0, 0, 2 * pageSize⟩]] ⟨fun _ => 0, 0⟩ ≠
          .error .hang) ∧
      ¬ (∃ fuel, restoreVmaIos (fun _ n => n) false fuel [⟨0, [⟨0, 2 * pageSize⟩]⟩]
        ⟨fun _ => 1, pageSize⟩ ⟨fun _ => 0, 0⟩ ≠ .error .hang) ∧
      ¬ (∃ fuel, pageServerStartSyncRead (fun _ n => n) fuel 0 1 0 (fun _ => 0) [1, 2, 3] ≠
        .error .hang) := by
  refine ⟨fun _ _ hn => hn, ?_, ?_, ?_⟩
  · rintro ⟨fuel, hend⟩
    have h := processAsyncReadsWithin_stored hend _ (mem_singleton_self _)
      ⟨0, 2 * pageSize, [⟨0, 2 * pageSize⟩]⟩ (by decide +kernel) (by decide)
    exact absurd h (by decide)
  · rintro ⟨fuel, hend⟩
    exact absurd (restoreVmaIos_stored hend _ (mem_singleton_self _) (by decide)) (by decide)
  · rintro ⟨fuel, hend⟩
    refine hend (pageServerStartSyncRead_hangs (fun h => ?_) fuel 0 0 _)
    exact absurd (Nat.le_trans (Nat.le_add_right _ _) h.1) (by decide)

end Ends

end Criu.TruncatedReads

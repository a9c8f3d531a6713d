import Criu.ReadCursor

/-!
Data transfer of one `page_read` level (criu/pagemap.c): hole punching in
bunches, direct reads with short `pread` results, the queue of asynchronous
`preadv` jobs and its processing. What the kernel returns is an oracle: the k-th
call for `n` bytes gives `kernel k n` of them, never more than asked or stored.
-/

namespace Criu.PageIo

open Pagemap ReadCursor Blit

/-- A call returns -1, hits a BUG, or never returns. -/
inductive Fault where
  | err
  | bug
  | hang
deriving DecidableEq, Repr

/-- The memory of the reading task and the number of read calls made so far. -/
structure Io where
  mem : ℕ → UInt8
  calls : ℕ

def maxBunchSize : ℕ := 256

def canExtendBunch (bunch : Iovec) (off len : ℕ) : Bool :=
  bunch.base + bunch.len == off &&
    (bunch.len == 0 || decide (bunch.len + len < maxBunchSize * pageSize))

/-- Deallocate a range of the image, which then reads as zeroes. -/
def fallocatePunch (img : PagesImage) (off len : ℕ) : PagesImage :=
  { img with data := wipe 0 img.data off len }

def punchHole (pr : PageRead) (off len : ℕ) (cleanup : Bool) : PageRead :=
  if !cleanup && canExtendBunch pr.bunch off len then
    { pr with bunch := ⟨pr.bunch.base, pr.bunch.len + len⟩ }
  else
    { pr with
      pi := if 0 < pr.bunch.len then fallocatePunch pr.pi pr.bunch.base pr.bunch.len else pr.pi
      bunch := ⟨off, len⟩ }

def iovTotal (iovs : List Iovec) : ℕ := (iovs.map Iovec.len).sum

/-- Fill the destinations in order with the `n` cells of `src` at `off`. -/
def scatter (mem : ℕ → UInt8) : List Iovec → (ℕ → UInt8) → ℕ → ℕ → ℕ → UInt8
  | [], _, _, _ => mem
  | iov :: rest, src, off, n =>
      scatter (blit mem iov.base src off (min iov.len n)) rest src
        (off + min iov.len n) (n - min iov.len n)

/-- Drop the first `n` bytes of the destinations. -/
def advanceIovs : List Iovec → ℕ → List Iovec
  | [], _ => []
  | iov :: rest, n =>
      if n = 0 then iov :: rest
      else if iov.len ≤ n then advanceIovs rest (n - iov.len)
      else ⟨iov.base + n, iov.len - n⟩ :: rest

def advancePiov (piov : PageReadIov) (len : ℕ) : PageReadIov :=
  ⟨piov.start + len, piov.stop, advanceIovs piov.iovs len⟩

def iovMax : ℕ := 1024

/-- Queue a read of `len` bytes at `piOff`, continuing the last job when it can. -/
def pagemapEnqueueIovec (piOff buf len : ℕ) (queue : List PageReadIov) :
    List PageReadIov :=
  match queue.getLast? with
  | none => queue ++ [⟨piOff, piOff + len, [⟨buf, len⟩]⟩]
  | some cur =>
      if piOff ≠ cur.stop then queue ++ [⟨piOff, piOff + len, [⟨buf, len⟩]⟩]
      else match cur.iovs.getLast? with
        | none => queue.dropLast ++ [⟨cur.start, cur.stop + len, [⟨buf, len⟩]⟩]
        | some iov =>
            if iov.base + iov.len = buf then
              queue.dropLast ++
                [⟨cur.start, cur.stop + len, cur.iovs.dropLast ++ [⟨iov.base, iov.len + len⟩]⟩]
            else if cur.iovs.length + 1 ≥ iovMax then
              queue ++ [⟨piOff, piOff + len, [⟨buf, len⟩]⟩]
            else
              queue.dropLast ++ [⟨cur.start, cur.stop + len, cur.iovs ++ [⟨buf, len⟩]⟩]

section Kernel

variable (kernel : ℕ → ℕ → ℕ)

/-- Bytes the next read call returns when asked for `len` bytes at `off`. -/
def readRet (img : PagesImage) (io : Io) (len off : ℕ) : ℕ :=
  min (min (kernel io.calls len) len) (img.size - off)

/-- The effect of a `pread` that returned `ret`. -/
def pread (img : PagesImage) (io : Io) (buf off ret : ℕ) : Io :=
  ⟨blit io.mem buf img.data off ret, io.calls + 1⟩

/-- The effect of a `preadv` that returned `ret`. -/
def preadv (img : PagesImage) (io : Io) (iovs : List Iovec) (off ret : ℕ) : Io :=
  ⟨scatter io.mem iovs img.data off ret, io.calls + 1⟩

def readLoop (img : PagesImage) (buf len off : ℕ) : ℕ → ℕ → Io → Except Fault Io
  | 0, _, _ => .error .hang
  | fuel + 1, curr, io =>
      let ret := readRet kernel img io (len - curr) (off + curr)
      if ret < 1 then .error .err
      else if curr + ret = len then .ok (pread img io (buf + curr) (off + curr) ret)
      else readLoop img buf len off fuel (curr + ret) (pread img io (buf + curr) (off + curr) ret)

/-- One job of `process_async_reads` with its `more:` loop; gives the last result. -/
def jobLoop (img : PagesImage) : ℕ → PageReadIov → Io → Except Fault (ℕ × Io)
  | 0, _, _ => .error .hang
  | fuel + 1, piov, io =>
      let ret := readRet kernel img io (iovTotal piov.iovs) piov.start
      if ret ≠ piov.stop - piov.start then
        jobLoop img fuel (advancePiov piov ret) (preadv img io piov.iovs piov.start ret)
      else .ok (ret, preadv img io piov.iovs piov.start ret)

variable (autoDedup : Bool)

/-- The job list of one level, with at most `fuel` read calls for a job; a finished job is
unlinked. -/
def asyncJobsWithin (fuel : PageReadIov → ℕ) :
    List PageReadIov → PageRead → Io → Except Fault (PageRead × Io)
  | [], pr, io => .ok (pr, io)
  | piov :: rest, pr, io =>
      match jobLoop kernel pr.pi (fuel piov) piov io with
      | .error f => .error f
      | .ok r =>
          asyncJobsWithin fuel rest
            { (if autoDedup then punchHole pr piov.start r.1 false else pr) with async := rest }
            r.2

/-- `process_async_reads`: this level, then its parents. -/
def processAsyncReadsWithin (fuel : PageReadIov → ℕ) :
    List PageRead → Io → Except Fault (List PageRead × Io)
  | [], io => .ok ([], io)
  | pr :: parents, io =>
      match asyncJobsWithin kernel autoDedup fuel pr.async pr io with
      | .error f => .error f
      | .ok (pr', io') =>
          match processAsyncReadsWithin fuel parents io' with
          | .error f => .error f
          | .ok (parents', io'') => .ok (pr' :: parents', io'')

/-- As many calls as a job needs if each of them returns something. -/
abbrev jobFuel (piov : PageReadIov) : ℕ := piov.stop - piov.start + 1

abbrev asyncJobs := asyncJobsWithin kernel autoDedup jobFuel

abbrev processAsyncReads := processAsyncReadsWithin kernel autoDedup jobFuel

/-- `read_local_page` at the image offset of the level, after a flush of its queue. -/
def readLocalPage (pr : PageRead) (parents : List PageRead) (io : Io) (len buf : ℕ) :
    Except Fault (PageRead × List PageRead × Io) :=
  match processAsyncReads kernel autoDedup (pr :: parents) io with
  | .error f => .error f
  | .ok ([], _) => .error .bug
  | .ok (pr' :: parents', io') =>
      match readLoop kernel pr'.pi buf len pr'.piOff (len + 1) 0 io' with
      | .error f => .error f
      | .ok io'' =>
          .ok (if autoDedup then punchHole pr' pr'.piOff len false else pr', parents', io'')

def prAsync : ℕ := 1
def prAsap : ℕ := 2

/-- The caller may get control back before the data is in the buffer. -/
def isAsync (flags : ℕ) : Bool := flags &&& (prAsync ||| prAsap) == prAsync

def maybeReadPageLocal (pr : PageRead) (parents : List PageRead) (io : Io)
    (nr buf flags : ℕ) : Except Fault (PageRead × List PageRead × Io) :=
  if isAsync flags then
    .ok ({ pr with
      async := pagemapEnqueueIovec pr.piOff buf (nr * pageSize) pr.async
      piOff := pr.piOff + nr * pageSize }, parents, io)
  else
    match readLocalPage kernel autoDedup pr parents io (nr * pageSize) buf with
    | .error f => .error f
    | .ok (pr', parents', io') =>
        .ok ({ pr' with piOff := pr'.piOff + nr * pageSize }, parents', io')

end Kernel

end Criu.PageIo

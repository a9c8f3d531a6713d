import Mathlib.Algebra.Group.Int.Defs
import Criu.Lib.Run
import Criu.SnapshotChain
import Criu.IovLists

/-!
The lazy-pages daemon (criu/uffd.c) over a remote page server. Every task has the ranges that
are still to be fetched and the ranges in flight; the requests to the page server of all
tasks wait in one queue and are answered in order. Page faults, changes of the address space,
forks, answers and background transfers come in any order; what the kernel answers to the
daemon is part of the event.
-/

namespace Criu.LazyDaemon

open Run Pagemap ReadCursor SnapshotChain IovLists

/-- `crash` is an access through a list entry that was unlinked. -/
inductive LazyFault where
  | err
  | bug
  | crash
deriving DecidableEq

structure Vma where
  start : ℕ
  stop : ℕ

/-- The pagemap and the memory areas of a task, as a lazy dump leaves them. -/
structure LazyTask where
  pmes : List PagemapEntry
  vmas : List Vma
  sorted : SortedMap pmes
  aligned : ∀ e ∈ pmes, pageSize ∣ e.vaddr
  nonempty : ∀ e ∈ pmes, 0 < e.nrPages
  vmaSorted : vmas.Pairwise (fun a b => a.stop ≤ b.stop)
  vmaAligned : ∀ v ∈ vmas, pageSize ∣ v.stop

section Collect

/-- The loop of `collect_iovs` over the areas; they are not looked at again once passed. -/
def collectVmas (stop : ℕ) : List Vma → ℕ → List LazyIov × List Vma
  | [], _ => ([], [])
  | vma :: vmas, start =>
      if vma.stop ≤ start then collectVmas stop vmas start
      else
        let len := min stop vma.stop - start
        if stop ≤ vma.stop then ([⟨start, start + len, start⟩], vma :: vmas)
        else
          let r := collectVmas stop vmas vma.stop
          (⟨start, start + len, start⟩ :: r.1, r.2)

def collectEntries : List PagemapEntry → List Vma → List LazyIov
  | [], _ => []
  | pe :: rest, vmas =>
      if pagemapLazy pe then
        let r := collectVmas (pe.vaddr + pe.nrPages * pageSize) vmas pe.vaddr
        r.1 ++ collectEntries rest r.2
      else collectEntries rest vmas

def cInt (n : ℕ) : ℤ := (n : ℤ).bmod (2 ^ 32)

/-- An `int` that is compared with an `unsigned long`. -/
def intAsULong (m : ℤ) : ℕ := (m % 2 ^ 64).toNat

/-- `max_iov_len` is an `int`. -/
def maxIovLen (lens : List ℕ) : ℤ :=
  lens.foldl (fun m len => if intAsULong m < len then cInt len else m) 0

/-- `collect_iovs`: the ranges and the size of the buffer. There is no memory for a buffer
of a negative size. -/
def collectIovs (task : LazyTask) : Except LazyFault (List LazyIov × ℕ) :=
  let iovs := collectEntries task.pmes task.vmas
  let nrPages := (task.pmes.filter pagemapLazy).map PagemapEntry.nrPages
  let size := maxIovLen (iovs.map (fun v => v.stop - v.start))
  if size < 0 ∨ cInt nrPages.sum < 0 then .error .err else .ok (iovs, size.toNat)

end Collect

/-- `struct lazy_pages_info`; lpis are named by number. -/
structure Lpi where
  exited : Bool
  iovs : List LazyIov
  reqs : List LazyIov
  parent : Option ℕ
  refCnt : ℕ
  xferLen : ℕ
  bufSize : ℕ
  pmes : List PagemapEntry

/-- `struct ps_async_read`: the lpi whose page_read waits, the lpi whose buffer is filled, and
the pages that were requested. -/
structure AsyncRead where
  priv : ℕ
  buf : ℕ
  img : ℕ
  nr : ℕ
deriving DecidableEq

/-- The lists `lpis` and `pending_lpis`, the queue `async_reads`, and which lpis are freed. -/
structure Daemon where
  lpi : ℕ → Lpi
  count : ℕ
  lpis : List ℕ
  pending : List ℕ
  freed : ℕ → Bool
  reads : List AsyncRead

def defaultXferLen : ℕ := 64 * 1024
def maxXferLen : ℕ := 4 * 1024 * 1024

def setLpi (d : Daemon) (i : ℕ) (l : Lpi) : Daemon :=
  { d with lpi := Function.update d.lpi i l }

/-- `lpi_init` and `collect_iovs` for every task. -/
def startLpis : List LazyTask → Except LazyFault (List Lpi)
  | [] => .ok []
  | task :: tasks =>
      match collectIovs task, startLpis tasks with
      | .ok (iovs, bufSize), .ok ls =>
          .ok (⟨false, iovs, [], none, 1, defaultXferLen, bufSize, task.pmes⟩ :: ls)
      | _, _ => .error .err

def idleLpi : Lpi := ⟨false, [], [], none, 0, defaultXferLen, 0, []⟩

def startDaemon (tasks : List LazyTask) : Except LazyFault Daemon :=
  match startLpis tasks with
  | .error f => .error f
  | .ok ls =>
      .ok ⟨fun i => (ls[i]?).getD idleLpi, ls.length, List.range ls.length, [], fun _ => false, []⟩

/-- `handle_exit`: the entry of an lpi that has left `lpis` cannot be moved. -/
def handleExit (d : Daemon) (i : ℕ) : Except LazyFault Daemon :=
  if i ∈ d.lpis then
    .ok { setLpi d i { d.lpi i with iovs := [], reqs := [], exited := true } with
      lpis := d.lpis.erase i ++ [i] }
  else .error .crash

/-- How a `UFFDIO_COPY` or `UFFDIO_ZEROPAGE` comes back: done; the task is gone (ENOSPC,
ESRCH); a recoverable error after some pages; another error. -/
inductive UffdRet where
  | done
  | gone
  | short (pages : ℕ)
  | failed

/-- How a `UFFDIO_UNREGISTER` comes back: done; ENOMEM; another error. -/
inductive UnregisterRet where
  | done
  | nomem
  | failed
deriving DecidableEq

def updateXferLen (xferLen : ℕ) (pf : Bool) : ℕ :=
  min (if pf then defaultXferLen else xferLen + defaultXferLen) maxXferLen

/-- `uffd_handle_pages`: look the pages up in the pagemap and request them. -/
def uffdHandlePages (d : Daemon) (i img nr : ℕ) : Except LazyFault Daemon :=
  let sought := seekPagemap (openPageRead (d.lpi i).pmes ⟨fun _ => 0, 0⟩) img
  if sought.1 = false then .error .err
  else match sought.2.pe with
    | none => .error .crash
    | some pe =>
        if pagemapBoundCheck pe img nr then .error .bug
        else .ok { d with reads := d.reads ++ [⟨i, i, img, nr⟩] }

/-- `extract_range` from an entry of `iovs`, and the move of the result to `reqs`. -/
def moveToReqs (l : Lpi) (pre : List LazyIov) (iov : LazyIov) (post : List LazyIov)
    (start stop : ℕ) (pf : Bool) : Lpi × LazyIov :=
  let (before, mid, after) := extractRange iov start stop
  ({ l with
    iovs := pre ++ (before ++ (after ++ post))
    reqs := mid :: l.reqs
    xferLen := updateXferLen l.xferLen pf }, mid)

def xferPages (d : Daemon) (i : ℕ) : Except LazyFault Daemon :=
  match (d.lpi i).iovs with
  | [] => .ok d
  | iov :: post =>
      let len := min (iov.stop - iov.start) (d.lpi i).xferLen
      let (l, req) := moveToReqs (d.lpi i) [] iov post iov.start (iov.start + len) false
      uffdHandlePages (setLpi d i l) i req.img ((req.stop - req.start) / pageSize)

def uffdZero (d : Daemon) (i : ℕ) (ret : UffdRet) : Except LazyFault Daemon :=
  match ret with
  | .done | .short _ => .ok d
  | .gone => handleExit d i
  | .failed => .error .err

def hasAddr (addr : ℕ) (v : LazyIov) : Bool := decide (v.start ≤ addr ∧ addr < v.stop)

def isPageQueued (l : Lpi) (addr : ℕ) : Bool := l.reqs.any (hasAddr addr)

def handlePageFault (d : Daemon) (i address : ℕ) (ret : UffdRet) : Except LazyFault Daemon :=
  let addr := address / pageSize * pageSize
  if isPageQueued (d.lpi i) addr then .ok d
  else match (d.lpi i).iovs.dropWhile (fun v => !hasAddr addr v) with
    | [] => uffdZero d i ret
    | iov :: post =>
        let pre := (d.lpi i).iovs.takeWhile (fun v => !hasAddr addr v)
        let (l, req) := moveToReqs (d.lpi i) pre iov post addr (addr + pageSize) true
        uffdHandlePages (setLpi d i l) i req.img 1

/-- `drop_iovs`; the length is an `int`. -/
def dropLpi (d : Daemon) (i addr len : ℕ) : Daemon :=
  setLpi d i { d.lpi i with
    iovs := dropIovs (d.lpi i).iovs addr (intLen len)
    reqs := dropIovs (d.lpi i).reqs addr (intLen len) }

/-- `handle_remove` for an UNMAP event and, with the outcome of unregistering, for REMOVE. -/
def handleRemove (d : Daemon) (i start stop : ℕ) (unregister : Option UnregisterRet) :
    Daemon × Except LazyFault Unit :=
  match unregister with
  | some .nomem =>
      match handleExit d i with
      | .ok d' => (d', .ok ())
      | .error f => (d, .error f)
  | some .failed => (d, .error .err)
  | some .done | none => (dropLpi d i start (stop - start), .ok ())

/-- `handle_remap`; what is left in a `remaps` list is lost. -/
def handleRemap (d : Daemon) (i src dst len : ℕ) : Daemon :=
  setLpi d i { d.lpi i with
    iovs := (remapIovs (d.lpi i).iovs src dst len).2
    reqs := (remapIovs (d.lpi i).reqs src dst len).2 }

/-- The child of a fork: the requests of the parent are made again. -/
def forkedLpi (d : Daemon) (i : ℕ) : Lpi :=
  let merged := mergeIovLists (d.lpi i).reqs (d.lpi i).iovs
  let root := (d.lpi i).parent.getD i
  ⟨false, merged.2, merged.1, some root, 1, defaultXferLen, (d.lpi i).bufSize, (d.lpi root).pmes⟩

def handleFork (d : Daemon) (i : ℕ) : Daemon :=
  let root := (d.lpi i).parent.getD i
  { setLpi (setLpi d root { d.lpi root with refCnt := (d.lpi root).refCnt + 1 }) d.count
      (forkedLpi d i) with
    count := d.count + 1
    pending := d.pending ++ [d.count] }

def completeForks (d : Daemon) : Daemon := { d with lpis := d.lpis ++ d.pending, pending := [] }

/-- The end of `uffd_io_complete`: the request goes back to `iovs`, unless it cannot be
inserted, and the pages that were copied are dropped. -/
def finishRequest (d : Daemon) (i : ℕ) (req : LazyIov) (img nr : ℕ) : Daemon :=
  let l := d.lpi i
  match iovListInsert req l.iovs with
  | some iovs =>
      dropLpi (setLpi d i { l with iovs := iovs, reqs := l.reqs.eraseP (fun r => r.img = img) }) i
        req.start (nr * pageSize)
  | none => dropLpi d i req.start (nr * pageSize)

/-- `uffd_io_complete` for `nr` pages of a request. -/
def uffdIoComplete (d : Daemon) (a : AsyncRead) (nr : ℕ) (ret : UffdRet) :
    Except LazyFault Daemon :=
  if (d.lpi a.priv).exited then .ok d
  else match (d.lpi a.priv).reqs.find? (fun r => r.img = a.img) with
    | none => .ok d
    | some req =>
        if req.start = 0 then .ok d
        else
          let nr' := min nr ((req.stop - req.start) / pageSize)
          match ret with
          | .failed => .error .err
          | .gone => handleExit d a.priv
          | .done => .ok (finishRequest d a.priv req a.img nr')
          | .short n => .ok (finishRequest d a.priv req a.img (min n nr'))

/-- `page_server_async_read`, when all bytes of the answer are there. -/
def pageServerAsyncRead (d : Daemon) (nr : ℕ) (ret : UffdRet) : Except LazyFault Daemon :=
  match d.reads with
  | [] => .error .bug
  | a :: rest =>
      match uffdIoComplete d a nr ret with
      | .error f => .error f
      | .ok d' => .ok { d' with reads := rest }

/-- `lpi_put`, `lpi_fini`: the last reference frees the lpi and its reference to the parent. -/
def lpiPut : ℕ → Daemon → ℕ → Daemon
  | 0, d, _ => d
  | fuel + 1, d, i =>
      let l := { d.lpi i with refCnt := (d.lpi i).refCnt - 1 }
      if l.refCnt = 0 then
        let d' := { setLpi d i { l with iovs := [], reqs := [] } with
          freed := Function.update d.freed i true }
        match l.parent with
        | none => d'
        | some p => lpiPut fuel d' p
      else setLpi d i l

/-- The lpi leaves `lpis` and is put. -/
def releaseLpi (d : Daemon) (i : ℕ) : Daemon :=
  lpiPut (d.count + 1) { d with lpis := d.lpis.erase i } i

/-- The loop of `handle_requests` over `lpis`: lpis that are done are released, up to the
first one that has something to transfer. -/
def roundLoop : List ℕ → Daemon → Except LazyFault Daemon
  | [], d => .ok d
  | i :: rest, d =>
      if (d.lpi i).iovs ≠ [] ∧ (d.lpi i).reqs = [] then xferPages d i
      else if (d.lpi i).reqs = [] then roundLoop rest (releaseLpi d i)
      else roundLoop rest d

inductive Event where
  | fault (i address : ℕ) (ret : UffdRet)
  | remove (i start stop : ℕ) (ret : UnregisterRet)
  | unmap (i start stop : ℕ)
  | remap (i src dst len : ℕ)
  | fork (i : ℕ)
  | completeForks
  | response (nr : ℕ) (ret : UffdRet)
  | round

def step (e : Event) (d : Daemon) : Except LazyFault Daemon :=
  match e with
  | .fault i address ret => handlePageFault d i address ret
  | .remove i start stop ret =>
      let (d', r) := handleRemove d i start stop (some ret)
      r.map (fun _ => d')
  | .unmap i start stop =>
      let (d', r) := handleRemove d i start stop none
      r.map (fun _ => d')
  | .remap i src dst len => .ok (handleRemap d i src dst len)
  | .fork i => .ok (handleFork d i)
  | .completeForks => .ok (completeForks d)
  | .response nr ret => pageServerAsyncRead d nr ret
  | .round => roundLoop d.lpis d

/-- The daemon polls the userfaultfd of the lpi. -/
def Polled (d : Daemon) (i : ℕ) : Prop :=
  i < d.count ∧ i ∉ d.pending ∧ (d.lpi i).exited = false ∧ d.freed i = false

/-- What the kernel and the page server promise: events come from polled tasks and are about
whole pages; an answer is for the oldest request and not longer than it. -/
def Deliverable (d : Daemon) : Event → Prop
  | .fault i _ _ | .fork i => Polled d i
  | .remove i start stop _ | .unmap i start stop =>
      Polled d i ∧ pageSize ∣ start ∧ pageSize ∣ stop ∧ start ≤ stop
  | .remap i src dst len => Polled d i ∧ pageSize ∣ src ∧ pageSize ∣ dst ∧ pageSize ∣ len
  | .response nr _ => ∃ a rest, d.reads = a :: rest ∧ nr ≤ a.nr
  | .completeForks | .round => True

def Untracked (l : Lpi) (start stop : ℕ) : Prop :=
  ∀ v ∈ l.iovs ++ l.reqs, v.stop ≤ start ∨ stop ≤ v.start

/-- A REMAP goes to where nothing is tracked. The kernel sends an UNMAP for the destination
before it, but that can leave requests behind. -/
def ClearRemap (d : Daemon) : Event → Prop
  | .remap i _ dst len => Untracked (d.lpi i) dst (dst + len)
  | _ => True

def Reachable (tasks : List LazyTask) (ok : Daemon → Event → Prop) : Daemon → Prop :=
  Reach (fun d => startDaemon tasks = .ok d)
    (fun d e d' => Deliverable d e ∧ step e d = .ok d') ok

end Criu.LazyDaemon

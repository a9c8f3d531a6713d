import Criu.ParasiteDrain

/-!
Dumping the memory of a task (criu/mem.c). The areas of the task are walked page by page;
pages that the parent images have are added as holes, others as pages. In chunk mode the
page pipe may ask to be drained, then its contents are spliced and written, the page pipe
is emptied, and the walk goes on at the page it stopped at.
-/

namespace Criu.TaskDump

open Pagemap ReadCursor PageIo PipeBuffers PipeContents SnapshotChain ImageWriter ParasiteDrain

def protRead : ℕ := 0x1

def mapPrivate : ℕ := 0x2
def mapAnonymous : ℕ := 0x20
def mapLocked : ℕ := 0x2000

def vmaAreaRegular : ℕ := 1 <<< 0
def vmaAreaVsyscall : ℕ := 1 <<< 2
def vmaAreaVdso : ℕ := 1 <<< 3
def vmaFilePrivate : ℕ := 1 <<< 6
def vmaAnonShared : ℕ := 1 <<< 8
def vmaAnonPrivate : ℕ := 1 <<< 9
def vmaAreaVvar : ℕ := 1 <<< 12
def vmaAreaAioring : ℕ := 1 <<< 13

def pmePresent : ℕ := 1 <<< 63
def pmeSwap : ℕ := 1 <<< 62
def pmeFile : ℕ := 1 <<< 61
def pmeSoftDirty : ℕ := 1 <<< 55
def pmePframeMask : ℕ := (1 <<< 55) - 1

structure VmaEntry where
  start : ℕ
  stop : ℕ
  prot : ℕ
  flags : ℕ
  status : ℕ

namespace VmaEntry

def is (e : VmaEntry) (s : ℕ) : Bool := e.status &&& s == s

def isPrivate (e : VmaEntry) (taskSize : ℕ) : Bool :=
  (e.is vmaAreaRegular && (e.is vmaAnonPrivate || e.is vmaFilePrivate) &&
    decide (e.stop ≤ taskSize)) || e.is vmaAreaAioring

def canBeLazy (e : VmaEntry) : Bool :=
  e.flags &&& mapAnonymous != 0 && e.flags &&& mapPrivate != 0 && !(e.flags &&& mapLocked != 0) &&
    !e.is vmaAreaVdso && !e.is vmaAreaVsyscall

def nrPages (e : VmaEntry) : ℕ := (e.stop - e.start) / pageSize

end VmaEntry

inductive PreDumpMode where
  | splice
  | read
deriving DecidableEq, Repr

structure DumpOpts where
  trackMem : Bool
  imgParent : Bool
  lazyPages : Bool
  autoDedup : Bool
  preDumpMode : PreDumpMode
  zeroPagePfn : ℕ
  taskSize : ℕ

/-- A stopped task: its areas as the kernel lists them, the pagemap entry of each page, the
stack pointers of its threads and its memory. -/
structure Task where
  vmas : List VmaEntry
  pme : ℕ → ℕ
  threadSp : List ℕ
  mem : ℕ → UInt8
  sorted : vmas.Pairwise (fun a b => a.stop ≤ b.start)
  aligned : ∀ e ∈ vmas, pageSize ∣ e.start

section Pages

variable (opts : DumpOpts) (task : Task)

def pageIsZero (pme : ℕ) : Bool := pme &&& pmePframeMask == opts.zeroPagePfn

def pageInParent (dirty : Bool) : Bool := opts.trackMem && opts.imgParent && !dirty

def shouldDumpPage (e : VmaEntry) (pme : ℕ) : Bool :=
  if e.is vmaAreaVdso then true
  else if e.is vmaAreaVvar then false
  else if e.is vmaFilePrivate && pme &&& pmeFile != 0 then false
  else if e.is vmaAreaAioring then true
  else pme &&& (pmePresent ||| pmeSwap) != 0 && !pageIsZero opts pme

/-- `is_stack`; only the offsets in a page are compared. -/
def isStack (vaddr : ℕ) : Bool :=
  task.threadSp.any (fun sp => (sp ^^^ vaddr) &&& (pageSize - 1) == 0)

def ppbFlags (e : VmaEntry) (vaddr : ℕ) : ℕ :=
  if e.canBeLazy && !isStack task vaddr then ppbLazy else 0

/-- What `generate_iovs` adds for the page, if it is to be dumped. -/
def pageCall (e : VmaEntry) (hasParent : Bool) (vaddr : ℕ) : Option AddCall :=
  if !shouldDumpPage opts e (task.pme vaddr) then none
  else if hasParent && pageInParent opts (task.pme vaddr &&& pmeSoftDirty != 0) then
    some (.hole vaddr ppHoleParent)
  else some (.page vaddr (ppbFlags task e vaddr))

/-- The loop of `generate_iovs` over `n` more pages; the flag is the return value -EAGAIN, the
number is `*off`. -/
def generateIovs (k : PipeKernel) (e : VmaEntry) (hasParent : Bool) :
    ℕ → ℕ → PagePipe → Except Fault (Bool × ℕ × PagePipe)
  | 0, off, pp => .ok (false, off, pp)
  | n + 1, off, pp =>
      match pageCall opts task e hasParent (e.start + off) with
      | none => generateIovs k e hasParent n (off + pageSize) pp
      | some (.hole vaddr flags) =>
          generateIovs k e hasParent n (off + pageSize) (pagePipeAddHole pp vaddr flags)
      | some (.page vaddr flags) =>
          match pagePipeAddPage k opts.lazyPages pp vaddr flags with
          | .error f => .error f
          | .ok (true, pp') => .ok (true, off, pp')
          | .ok (false, pp') => generateIovs k e hasParent n (off + pageSize) pp'

/-- The start of `generate_vma_iovs`: whether pages of the area may be in the parent, or
nothing if no pages are collected for it. Shared areas are only registered. -/
def vmaHasParent (preDump : Bool) (parentMode : Option PreDumpMode) (e : VmaEntry)
    (hasParent : Bool) : Option Bool :=
  let noRead := e.prot &&& protRead == 0
  let unread := parentMode == some .read && opts.preDumpMode == .splice || !preDump
  if !e.isPrivate opts.taskSize && !e.is vmaAnonShared then none
  else if noRead && opts.preDumpMode == .read && preDump then none
  else if e.is vmaAreaAioring && preDump then none
  else if e.is vmaAnonShared then none
  else some (hasParent && !(noRead && unread) && !e.is vmaAreaAioring)

end Pages

/-- The state of a dump; `restarts` are the addresses at which the walk was taken up again. -/
structure DumpRun where
  pp : PagePipe
  xfer : PageXfer
  drain : DrainState
  restarts : List ℕ

section Chunked

variable (k : PipeKernel) (kernel : ℕ → ℕ → ℕ → ℕ) (opts : DumpOpts) (task : Task)

def drainAndXfer (run : DumpRun) : Except Fault DumpRun :=
  match drainPages task.mem run.pp run.drain with
  | .error f => .error f
  | .ok drain =>
      match pageXferDumpPages opts.autoDedup (kernel run.restarts.length) run.xfer run.pp
          drain.pipes with
      | .error f => .error f
      | .ok st => .ok { run with xfer := st.xfer, drain := { drain with pipes := st.pipes } }

def generateLoop (e : VmaEntry) (hasParent : Bool) : ℕ → ℕ → DumpRun → Except Fault DumpRun
  | 0, _, _ => .error .hang
  | fuel + 1, off, run =>
      match generateIovs opts task k e hasParent ((e.stop - e.start - off) / pageSize) off
          run.pp with
      | .error f => .error f
      | .ok (false, _, pp) => .ok { run with pp := pp }
      | .ok (true, off', pp) =>
          if !pp.chunkMode then .error .bug
          else match drainAndXfer kernel opts task { run with pp := pp } with
            | .error f => .error f
            | .ok run' =>
                match pagePipeReinit k opts.lazyPages run'.pp with
                | .error f => .error f
                | .ok pp' => generateLoop e hasParent fuel off'
                    { run' with pp := pp', restarts := run'.restarts ++ [e.start + off'] }

def generateVmaIovs (preDump : Bool) (parentMode : Option PreDumpMode) (hasParent : Bool)
    (e : VmaEntry) (run : DumpRun) : Except Fault DumpRun :=
  match vmaHasParent opts preDump parentMode e hasParent with
  | none => .ok run
  | some hasParent' => generateLoop k kernel opts task e hasParent' (e.nrPages + 1) 0 run

def generateVmas (preDump : Bool) (parentMode : Option PreDumpMode) (hasParent : Bool) :
    List VmaEntry → DumpRun → Except Fault DumpRun
  | [], run => .ok run
  | e :: rest, run =>
      match generateVmaIovs k kernel opts task preDump parentMode hasParent e run with
      | .error f => .error f
      | .ok run' => generateVmas preDump parentMode hasParent rest run'

/-- The count of private pages that `collect_mappings` keeps. -/
def nrPrivPages : ℕ :=
  ((task.vmas.filter (fun e => e.isPrivate opts.taskSize)).map VmaEntry.nrPages).sum

/-- `__parasite_dump_pages_seized` for a regular dump, which uses chunk mode, into local images
over the given parent snapshots. The number of iovecs is passed as an unsigned int. -/
def dumpPagesSeized (parentMode : Option PreDumpMode) (pidReuse : Bool) (iovs : ℕ → Iovec)
    (snaps : List Snapshot) : Except Fault DumpRun :=
  match createPagePipe k opts.lazyPages (nrPrivPages opts task % 2 ^ 32) iovs true with
  | .error f => .error f
  | .ok pp =>
      match generateVmas k kernel opts task false parentMode (!snaps.isEmpty && !pidReuse)
          task.vmas ⟨pp, ⟨0, true, openChain snaps, [], []⟩, ⟨fun _ => [], 0, []⟩, []⟩ with
      | .error f => .error f
      | .ok run => drainAndXfer kernel opts task run

end Chunked

section Unlimited

variable (k : PipeKernel) (kernel : ℕ → ℕ → ℕ) (opts : DumpOpts) (task : Task)

/-- The walk over the areas with a page pipe that never asks for a drain. -/
def collectVmas (parentMode : Option PreDumpMode) (hasParent : Bool) :
    List VmaEntry → PagePipe → Except Fault PagePipe
  | [], pp => .ok pp
  | e :: rest, pp =>
      match vmaHasParent opts false parentMode e hasParent with
      | none => collectVmas parentMode hasParent rest pp
      | some hasParent' =>
          match generateIovs opts task k e hasParent' e.nrPages 0 pp with
          | .error f => .error f
          | .ok (true, _, _) => .error .err
          | .ok (false, _, pp') => collectVmas parentMode hasParent rest pp'

/-- The dump with unlimited pipes: everything is collected, all pages are spliced, and the
images are written once. -/
def dumpUnlimited (parentMode : Option PreDumpMode) (pidReuse : Bool) (iovs : ℕ → Iovec)
    (snaps : List Snapshot) : Except Fault DumpState :=
  match createPagePipe k opts.lazyPages (nrPrivPages opts task % 2 ^ 32) iovs false with
  | .error f => .error f
  | .ok pp =>
      match collectVmas k opts task parentMode (!snaps.isEmpty && !pidReuse) task.vmas pp with
      | .error f => .error f
      | .ok pp' => pageXferDumpPages opts.autoDedup kernel ⟨0, true, openChain snaps, [], []⟩ pp'
          (fillPipes task.mem pp')

end Unlimited

end Criu.TaskDump

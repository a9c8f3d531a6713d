import Criu.PipeCapacity
import Criu.TaskDump

/-!
Dumping a shared segment (criu/shmem.c). The segment is walked page by page. Pages that hold no data
are skipped, pages the parent images have become holes, and the others go through a page pipe in
chunk mode, which is emptied each time all its pipes are full. The page pipe is made with an iovec
for every second page, enough for all runs of pages to dump. A run that goes on in another buffer
takes a further iovec there, and an emptied page pipe does not use its iovecs again.
-/

namespace Criu.ShmemDump

open Pagemap ReadCursor PageIo PipeBuffers PipeContents PipeCapacity SnapshotChain ImageWriter List
  ParasiteDrain DumpPages TaskDump

/-- The state of a page as the pagemaps of the tasks show it, PST_*. -/
inductive PState where
  | dontDump
  | dump
  | zero
  | dirty
deriving DecidableEq, Repr

/-- What `lseek` with SEEK_DATA answers. -/
inductive SeekData where
  | found (off : ℕ)
  | noData
  | failed

/-- A dump of a segment of `size` bytes, mapped at `addr`: the options, the states of the pages if
changes are tracked, the file, and the kernel's pipes. -/
structure Setting where
  opts : DumpOpts
  size : ℕ
  pstateMap : Option (ℕ → PState)
  tracking : Bool
  addr : ℕ
  mem : ℕ → UInt8
  seekData : ℕ → SeekData
  seekHole : ℕ → Option ℕ
  pipes : PipeKernel
  splice : ℕ → ℕ → ℕ → ℕ
  iovs : ℕ → Iovec
  snaps : List Snapshot

inductive Stop where
  | seek
  | add (f : Fault)
  | drain (f : Fault)
  | reinit (f : Fault)
  | hang
deriving DecidableEq, Repr

/-- The state of the loop in `do_dump_one_shmem`. -/
structure ShmemRun where
  pp : PagePipe
  xfer : PageXfer
  pipes : ℕ → List UInt8
  drains : ℕ
  nextData : ℕ
  nextHole : ℕ

variable {run run' : ShmemRun}

inductive PageWork where
  | skip
  | hole
  | page
deriving DecidableEq, Repr

section Model

variable (s : Setting)

def nrpages : ℕ := (s.size + pageSize - 1) / pageSize

/-- The loop of `dump_pages` over the buffers. -/
def spliceBufs (pp : PagePipe) : List PagePipeBuf → (ℕ → List UInt8) →
    Except Fault (ℕ → List UInt8)
  | [], pipes => .ok pipes
  | ppb :: rest, pipes =>
      if uioMaxiov < ppb.nrSegs then .error .err
      else match vmsplice s.mem (pp.caps ppb.pipe) (pipes ppb.pipe) (segs pp.iovs ppb) with
        | none => .error .err
        | some (ret, pipe) =>
            if ret ≠ ppb.pagesIn * pageSize then .error .err
            else spliceBufs pp rest (Function.update pipes ppb.pipe pipe)

def dumpPages (run : ShmemRun) : Except Fault ShmemRun :=
  match spliceBufs s run.pp run.pp.bufs run.pipes with
  | .error f => .error f
  | .ok pipes =>
      match pageXferDumpPages s.opts.autoDedup (s.splice run.drains) run.xfer run.pp pipes with
      | .error f => .error f
      | .ok st => .ok { run with xfer := st.xfer, pipes := st.pipes, drains := run.drains + 1 }

/-- `next_data_segment`: the pages at which the next data starts and ends; without further data both
are the largest number. -/
def nextDataSegment (pfn : ℕ) : Option (ℕ × ℕ) :=
  match s.seekData (pfn * pageSize) with
  | .failed => none
  | .noData => some (2 ^ 64 - 1, 2 ^ 64 - 1)
  | .found off => (s.seekHole off).map fun hole => (off / pageSize, hole / pageSize)

/-- The data segment the loop has at a page; it looks for the next one where the last has ended. -/
def seekStep (seg : ℕ × ℕ) (pfn : ℕ) : Option (ℕ × ℕ) :=
  if seg.2 ≤ pfn then nextDataSegment s pfn else some seg

def pgState (nextData pfn : ℕ) : PState :=
  let seen := if pfn < nextData then PState.zero else PState.dirty
  match s.pstateMap with
  | none => seen
  | some map => if s.tracking && map pfn != .dontDump then map pfn else seen

def pageWork (nextData pfn : ℕ) : PageWork :=
  let st := pgState s nextData pfn
  if st = .zero then .skip
  else if !s.snaps.isEmpty && pageInParent s.opts (st == .dirty) then .hole
  else .page

def pgaddr (pfn : ℕ) : ℕ := s.addr + pfn * pageSize

/-- The label `again` for a page to dump. -/
def addAgain : ℕ → ShmemRun → ℕ → Except Stop ShmemRun
  | 0, _, _ => .error .hang
  | fuel + 1, run, addr =>
      match pagePipeAddPage s.pipes s.opts.lazyPages run.pp addr 0 with
      | .error f => .error (.add f)
      | .ok (false, pp) => .ok { run with pp := pp }
      | .ok (true, pp) =>
          match dumpPages s { run with pp := pp } with
          | .error f => .error (.drain f)
          | .ok run' =>
              match pagePipeReinit s.pipes s.opts.lazyPages run'.pp with
              | .error f => .error (.reinit f)
              | .ok pp' => addAgain fuel { run' with pp := pp' } addr

/-- The body of the loop; an emptied page pipe takes the page. -/
def shmemPage (run : ShmemRun) (pfn : ℕ) : Except Stop ShmemRun :=
  match seekStep s (run.nextData, run.nextHole) pfn with
  | none => .error .seek
  | some (data, hole) =>
      let run := { run with nextData := data, nextHole := hole }
      match pageWork s data pfn with
      | .skip => .ok run
      | .hole => .ok { run with pp := pagePipeAddHole run.pp (pgaddr s pfn) ppHoleParent }
      | .page => addAgain s 2 run (pgaddr s pfn)

/-- The size the page pipe is made with; the argument of `create_page_pipe` has 32 bits. -/
def nrSegs : ℕ := (nrpages s + 1) / 2 % 2 ^ 32

def startRun : Except Stop ShmemRun :=
  match createPagePipe s.pipes s.opts.lazyPages (nrSegs s) s.iovs true with
  | .error f => .error (.add f)
  | .ok pp => .ok ⟨pp, ⟨s.addr, true, openChain s.snaps, [], []⟩, fun _ => [], 0, 0, 0⟩

def runTo : ℕ → Except Stop ShmemRun
  | 0 => startRun s
  | pfn + 1 =>
      match runTo pfn with
      | .error e => .error e
      | .ok run => shmemPage s run pfn

def doDumpOneShmem : Except Stop ShmemRun :=
  match runTo s (nrpages s) with
  | .error e => .error e
  | .ok run =>
      match dumpPages s run with
      | .error f => .error (.drain f)
      | .ok run' => .ok run'

end Model

section Pipe

variable {k : PipeKernel} {lazyPages : Bool} {pp pp' : PagePipe} {b b' : PagePipeBuf} {addr : ℕ}

def tip (iovs : ℕ → Iovec) (b : PagePipeBuf) : Option ℕ :=
  if b.nrSegs = 0 then none
  else some ((iovs (b.iov + b.nrSegs - 1)).base + (iovs (b.iov + b.nrSegs - 1)).len)

def lastTip (pp : PagePipe) : Option ℕ := pp.bufs.getLast?.bind (tip pp.iovs)

/-- The pipes of a page pipe in chunk mode: the sizes of those in use, the last one first, the pages
in the last one, the sizes of the free ones, and the kernel's calls. -/
structure Pipes where
  sizes : List ℕ
  used : ℕ
  free : List ℕ
  count : ℕ
  calls : ℕ

namespace Pipes

variable (k : PipeKernel) (p : Pipes)

/-- Whether the last pipe is full; without room it is made larger if the kernel does that. -/
def resize : Bool × Pipes :=
  match p.sizes with
  | [] => (false, p)
  | n :: rest =>
      if p.used < n then (false, p)
      else if pipeMaxSize ≤ n then (true, p)
      else match k.setPipeSize p.calls (2 * n) with
        | none => (true, { p with
            sizes := (if pipeMaxSize < 2 * n then pipeMaxSize else n) :: rest
            calls := p.calls + 1 })
        | some ret => (false, { p with sizes := ret :: rest, calls := p.calls + 1 })

def spent : Bool := p.free.isEmpty && p.count == nrPipesPerChunk

def drain : Pipes := { p with sizes := [], used := 0, free := p.sizes ++ p.free }

def next : Pipes :=
  match p.free with
  | n :: rest => { p with sizes := n :: p.sizes, used := 0, free := rest }
  | [] => ⟨k.newPipe p.calls :: p.sizes, 0, [], p.count + 1, p.calls + 1⟩

def put : Pipes := { p with used := p.used + 1 }

/-- The pipes after one more page. -/
def take : Pipes :=
  match p.resize k with
  | (false, q) => q.put
  | (true, q) => ((if q.spent then q.drain else q).next k).put

end Pipes

def pipesOf (pp : PagePipe) : Pipes where
  sizes := (pp.bufs.map (·.pipeSize)).reverse
  used := (pp.bufs.getLast?.map (·.pagesIn)).getD 0
  free := pp.freeBufs.map (·.pipeSize)
  count := pp.nrPipes
  calls := pp.calls

structure Stocked (pp : PagePipe) : Prop where
  chunk : pp.chunkMode = true
  flags : ∀ b ∈ pp.bufs, b.flags = 0
  room : ∀ b ∈ pp.bufs, b.pagesIn + b.pipeOff ≤ b.pipeSize
  own : ∀ b ∈ pp.bufs ++ pp.freeBufs, b.pipeOff = 0 ∧ 0 < b.pipeSize
  iovs_le : pp.freeIov ≤ pp.nrIovs

structure Ready (pp : PagePipe) : Prop extends Stocked pp where
  nonempty : pp.bufs ≠ []

/-- The page is in, at the end of the last iovec, after taking `new` iovecs. -/
structure Put (pp : PagePipe) (addr new : ℕ) (q : Pipes) (pp' : PagePipe) : Prop where
  ready : Ready pp'
  nrIovs : pp'.nrIovs = pp.nrIovs
  freeIov : pp'.freeIov = pp.freeIov + new
  tip : lastTip pp' = some (addr + pageSize)
  pipes : pipesOf pp' = q

inductive Tried (pp : PagePipe) (addr new : ℕ) (q : Pipes) : Except Fault (Bool × PagePipe) → Prop
  | put {pp' : PagePipe} : pp.freeIov + new ≤ pp.nrIovs → Put pp addr new q pp' →
      Tried pp addr new q (.ok (false, pp'))
  | bug : pp.nrIovs < pp.freeIov + new → Tried pp addr new q (.error .bug)

def fresh (tip : Option ℕ) (addr : ℕ) : ℕ := if tip = some addr then 0 else 1

theorem grows_iff (pp : PagePipe) (b : PagePipeBuf) (addr : ℕ) :
    Grows pp b addr ↔ tip pp.iovs b = some addr := by
  unfold Grows tip iovGrows
  by_cases hsegs : b.nrSegs = 0
  · simp [hsegs]
  · simp [hsegs, Nat.pos_of_ne_zero hsegs]

structure Fit (b : PagePipeBuf) : Prop where
  flags : b.flags = 0
  room : b.pagesIn + b.pipeOff ≤ b.pipeSize
  off : b.pipeOff = 0
  pos : 0 < b.pipeSize

theorem Stocked.setLast (h : Stocked pp) (hb : Fit b') {calls : ℕ} {caps : ℕ → ℕ}
    {iovs : ℕ → Iovec} {freeIov : ℕ} (hle : freeIov ≤ pp.nrIovs) :
    Ready (setLast { pp with calls := calls, caps := caps, iovs := iovs, freeIov := freeIov }
      b') := by
  have hkeep : ∀ {P : PagePipeBuf → Prop}, (∀ c ∈ pp.bufs, P c) → P b' →
      ∀ c ∈ pp.bufs.dropLast ++ [b'], P c := fun hP hb' =>
    forall_mem_append.mpr ⟨fun c hc => hP c (dropLast_subset _ hc), forall_mem_singleton.mpr hb'⟩
  obtain ⟨hbufs, hfree⟩ := forall_mem_append.mp h.own
  exact ⟨⟨h.chunk, hkeep h.flags hb.flags, hkeep h.room hb.room,
    forall_mem_append.mpr ⟨hkeep hbufs ⟨hb.off, hb.pos⟩, hfree⟩, hle⟩,
    append_ne_nil_of_right_ne_nil _ (cons_ne_nil _ _)⟩

theorem lastTip_setLast (pp : PagePipe) (b : PagePipeBuf) :
    lastTip (setLast pp b) = tip pp.iovs b := by
  rw [lastTip, setLast, getLast?_concat]
  rfl

theorem pipesOf_put (pp : PagePipe) (b : PagePipeBuf) (iovs : ℕ → Iovec) (freeIov nrSegs : ℕ) :
    pipesOf (setLast { pp with iovs := iovs, freeIov := freeIov }
      { b with nrSegs := nrSegs, pagesIn := b.pagesIn + 1 }) = (pipesOf (setLast pp b)).put := by
  simp [pipesOf, setLast, Pipes.put]

theorem pipesOf_resize (hlast : pp.bufs.getLast? = some b) (hoff : b.pipeOff = 0) {full : Bool}
    (h : Resized k pp b full b' pp') :
    (pipesOf pp).resize k = (full, pipesOf (setLast pp' b')) := by
  obtain ⟨init, hbufs⟩ := getLast?_eq_some_iff.mp hlast
  have hsame : setLast pp b = pp := by
    rw [setLast, dropLast_append_getLast? b hlast]
  have hsizes : (pipesOf pp).sizes = b.pipeSize :: (init.map (·.pipeSize)).reverse := by
    simp [pipesOf, hbufs]
  have hused : (pipesOf pp).used = b.pagesIn := by simp [pipesOf, hlast]
  unfold Pipes.resize
  rw [hsizes]
  dsimp only
  cases h with
  | room hlt => rw [if_pos (by omega), hsame]
  | limit hge hmax => rw [if_neg (by omega), if_pos hmax, hsame]
  | refused hge hlt hset =>
    rw [if_neg (by omega), if_neg (by omega), show (pipesOf pp).calls = pp.calls from rfl, hset]
    simp [pipesOf, setLast, hbufs, believed]
  | granted ret hge hlt hset =>
    rw [if_neg (by omega), if_neg (by omega), show (pipesOf pp).calls = pp.calls from rfl, hset]
    simp [pipesOf, setLast, hbufs]

/-- The second half of `try_add_page_to`: the page extends the last iovec if it follows it, and
needs another one otherwise. -/
theorem putPage_tried (h : Stocked pp) (hb : Fit b) (hroom : b.pagesIn + b.pipeOff < b.pipeSize)
    (calls : ℕ) (caps : ℕ → ℕ) (addr : ℕ) :
    Tried pp addr (fresh (tip pp.iovs b) addr)
      (pipesOf (setLast { pp with calls := calls, caps := caps } b)).put
      (match putPage { pp with calls := calls, caps := caps } b addr with
        | .error f => .error f
        | .ok pp' => .ok (false, pp')) := by
  have hle := h.iovs_le
  have hfit : ∀ n, Fit { b with nrSegs := n, pagesIn := b.pagesIn + 1 } :=
    fun _ => ⟨hb.flags, by dsimp only; omega, hb.off, hb.pos⟩
  by_cases hgrow : tip pp.iovs b = some addr
  · have hg := (grows_iff { pp with calls := calls, caps := caps } b addr).mpr hgrow
    rw [putPage_grows hg, fresh, if_pos hgrow]
    refine .put hle ⟨h.setLast (hfit b.nrSegs) hle, rfl, rfl, ?_, pipesOf_put ..⟩
    obtain ⟨hsegs, hend⟩ := hg
    rw [iovGrows, beq_iff_eq] at hend
    rw [lastTip_setLast, tip, if_neg (Nat.ne_of_gt hsegs)]
    dsimp only
    rw [Function.update_self, ← hend, Nat.add_assoc]
  have hg : ¬ Grows { pp with calls := calls, caps := caps } b addr :=
    fun hg => hgrow ((grows_iff _ b addr).mp hg)
  rw [fresh, if_neg hgrow]
  by_cases hfree : pp.freeIov < pp.nrIovs
  · rw [putPage_takes hg hfree]
    refine .put hfree ⟨h.setLast (hfit (b.nrSegs + 1)) hfree, rfl, rfl, ?_, pipesOf_put ..⟩
    rw [lastTip_setLast, tip, if_neg (Nat.succ_ne_zero _)]
    dsimp only
    rw [show b.iov + (b.nrSegs + 1) - 1 = b.iov + b.nrSegs by omega, Function.update_self]
  · have hfree : pp.nrIovs ≤ pp.freeIov := Nat.le_of_not_lt hfree
    rw [putPage_bug hg hfree]
    exact .bug (Nat.lt_succ_of_le hfree)

structure Kept (pp : PagePipe) (q : Pipes) (pp' : PagePipe) : Prop where
  ready : Ready pp'
  nrIovs : pp'.nrIovs = pp.nrIovs
  freeIov : pp'.freeIov = pp.freeIov
  pipes : pipesOf pp' = q

/-- `try_add_page` takes the page unless the last buffer is full. -/
theorem tryAddPage_tried (h : Ready pp) (addr : ℕ) :
    ∃ q, ((pipesOf pp).resize k = (true, q) ∧
        ∃ pp', tryAddPage k pp addr 0 = .ok (true, pp') ∧ Kept pp q pp') ∨
      ((pipesOf pp).resize k = (false, q) ∧
        Tried pp addr (fresh (lastTip pp) addr) q.put (tryAddPage k pp addr 0)) := by
  obtain ⟨b, hlast⟩ : ∃ b, pp.bufs.getLast? = some b :=
    ⟨_, getLast?_eq_some_getLast h.nonempty⟩
  have hmem := mem_of_getLast? hlast
  obtain ⟨hoff, hpos⟩ := h.own b (mem_append_left _ hmem)
  obtain ⟨full, b', pp', hrun, hres⟩ := ppbResizePipe_ok k pp b
  have hfull := pipesOf_resize hlast hoff hres
  have hsize := hres.size_le
  obtain ⟨n, calls, caps, rfl, rfl⟩ := hres.frame
  have hfit : Fit { b with pipeSize := n } :=
    ⟨h.flags b hmem, (h.room b hmem).trans hsize, hoff, hpos.trans_le hsize⟩
  have htip : lastTip pp = tip pp.iovs { b with pipeSize := n } := by
    rw [lastTip, hlast]
    rfl
  have hflags : ¬ b.flags ≠ 0 := not_not.mpr (h.flags b hmem)
  simp only [tryAddPage, hlast, if_neg hflags, hrun]
  rw [hfull, htip]
  cases full with
  | true => exact ⟨_, .inl ⟨rfl, _, rfl, h.toStocked.setLast hfit h.iovs_le, rfl, rfl, rfl⟩⟩
  | false =>
    have hroom := hres.fits (h.room b hmem) hpos
    exact ⟨_, .inr ⟨rfl, putPage_tried h.toStocked hfit hroom calls caps addr⟩⟩

structure Emptied (k : PipeKernel) (pp : PagePipe) (q : Pipes) (pp' : PagePipe) : Prop
    extends Kept pp q pp' where
  tip : lastTip pp' = none
  room : (pipesOf pp').resize k = (false, q)

theorem emptied_concat (h : Stocked pp) (hsize : 0 < b.pipeSize) (hoff : b.pipeOff = 0)
    (hpages : b.pagesIn = 0) (hsegs : b.nrSegs = 0) (hflags : b.flags = 0)
    (hbufs : pp'.bufs = pp.bufs ++ [b]) (hfree : pp'.freeBufs ⊆ pp.freeBufs)
    (hchunk : pp'.chunkMode = pp.chunkMode) (hnr : pp'.nrIovs = pp.nrIovs)
    (hiov : pp'.freeIov = pp.freeIov) : Emptied k pp (pipesOf pp') pp' := by
  have hlast : pp'.bufs.getLast? = some b := by rw [hbufs, getLast?_concat]
  refine ⟨⟨⟨⟨hchunk.trans h.chunk, ?_, ?_, ?_, ?_⟩, ?_⟩, hnr, hiov, rfl⟩, ?_, ?_⟩
  · rw [hbufs]
    exact forall_mem_append.mpr ⟨h.flags, forall_mem_singleton.mpr hflags⟩
  · rw [hbufs]
    refine forall_mem_append.mpr ⟨h.room, forall_mem_singleton.mpr ?_⟩
    omega
  · obtain ⟨hown, hown'⟩ := forall_mem_append.mp h.own
    rw [hbufs, append_assoc]
    exact forall_mem_append.mpr ⟨hown, forall_mem_cons.mpr
      ⟨⟨hoff, hsize⟩, fun c hc => hown' c (hfree hc)⟩⟩
  · rw [hiov, hnr]
    exact h.iovs_le
  · rw [hbufs]
    exact append_ne_nil_of_right_ne_nil _ (cons_ne_nil _ _)
  · rw [lastTip, hlast]
    exact if_pos hsegs
  · simp [Pipes.resize, pipesOf, hbufs, hpages, hsize]

variable (k lazyPages) in
/-- `page_pipe_grow` adds an empty buffer or asks for a drain. -/
theorem pagePipeGrow_emptied (h : Stocked pp) :
    ((pipesOf pp).spent = false ∧ ∃ pp', pagePipeGrow k lazyPages pp 0 = .ok (false, pp') ∧
        Emptied k pp ((pipesOf pp).next k) pp') ∨
      ((pipesOf pp).spent = true ∧ pagePipeGrow k lazyPages pp 0 = .ok (true, pp)) := by
  cases hfree : pp.freeBufs with
  | cons b rest =>
    obtain ⟨hoff, hsize⟩ := h.own b (by simp [hfree])
    refine .inl ⟨by simp [Pipes.spent, pipesOf, hfree], _, by rw [pagePipeGrow, hfree], ?_⟩
    rw [show (pipesOf pp).next k = pipesOf { pp with
      bufs := pp.bufs ++ [ppbInit b 0 pp.freeIov], freeBufs := rest } by
        simp [Pipes.next, pipesOf, hfree, ppbInit]]
    refine emptied_concat (b := ppbInit b 0 pp.freeIov) h hsize hoff rfl rfl rfl rfl ?_ rfl rfl rfl
    rw [hfree]
    exact subset_cons_self b rest
  | nil =>
    by_cases hmax : pp.nrPipes = nrPipesPerChunk
    · exact .inr ⟨by simp [Pipes.spent, pipesOf, hfree, hmax],
        by simp [pagePipeGrow, hfree, h.chunk, hmax]⟩
    have halloc : ppbAlloc k lazyPages pp 0 = .ok (ppbAllocPipe k lazyPages pp 0) := by
      simp [ppbAlloc, ppPrevPpb, h.chunk]
    refine .inl ⟨by simp [Pipes.spent, pipesOf, hmax], withPipeBuf k lazyPages pp 0, ?_, ?_⟩
    · simp only [pagePipeGrow, hfree, h.chunk, hmax, halloc, beq_iff_eq, Bool.true_and]
      rfl
    · rw [show (pipesOf pp).next k = pipesOf (withPipeBuf k lazyPages pp 0) by
        simp [Pipes.next, pipesOf, hfree, withPipeBuf, withBuf, withPipe, newBuf]]
      exact emptied_concat h
        (k.newPipe_pos _) rfl rfl rfl rfl rfl (List.Subset.refl _) rfl rfl rfl

theorem Tried.of_kept {new : ℕ} {q : Pipes} {r : Except Fault (Bool × PagePipe)}
    (h : Tried pp' addr new q r) (hnr : pp'.nrIovs = pp.nrIovs)
    (hiov : pp'.freeIov = pp.freeIov) : Tried pp addr new q r := by
  cases h with
  | put hle hput =>
    rw [hnr, hiov] at hle
    refine .put hle ⟨hput.ready, hput.nrIovs.trans hnr, ?_, hput.tip, hput.pipes⟩
    rw [hput.freeIov, hiov]
  | bug hlt =>
    rw [hnr, hiov] at hlt
    exact .bug hlt

variable (k lazyPages) in
/-- `page_pipe_add_page` with a last buffer that has room, or without one. -/
theorem pagePipeAddPage_tried (h : Ready pp) (addr : ℕ) : ∃ q,
    ((pipesOf pp).resize k = (false, q) ∧
      Tried pp addr (fresh (lastTip pp) addr) q.put (pagePipeAddPage k lazyPages pp addr 0)) ∨
    ((pipesOf pp).resize k = (true, q) ∧ ((q.spent = false ∧
        Tried pp addr 1 (q.next k).put (pagePipeAddPage k lazyPages pp addr 0)) ∨
      (q.spent = true ∧
        ∃ pp', pagePipeAddPage k lazyPages pp addr 0 = .ok (true, pp') ∧ Kept pp q pp'))) := by
  obtain ⟨q, ⟨hfull, pp1, htry, hkept⟩ | ⟨hfull, htried⟩⟩ := tryAddPage_tried h addr
  · refine ⟨q, .inr ⟨hfull, ?_⟩⟩
    obtain rfl := hkept.pipes
    rcases pagePipeGrow_emptied k lazyPages hkept.ready.toStocked with
      ⟨hleft, pp2, hgrow, hempty⟩ | ⟨hspent, hgrow⟩
    · obtain ⟨q2, ⟨hyes, -⟩ | ⟨hroom, htried⟩⟩ := tryAddPage_tried hempty.ready addr
      · cases hempty.room.symm.trans hyes
      cases hempty.room.symm.trans hroom
      refine .inl ⟨hleft, Tried.of_kept ?_ (hempty.nrIovs.trans hkept.nrIovs)
        (hempty.freeIov.trans hkept.freeIov)⟩
      rw [hempty.tip] at htried
      unfold pagePipeAddPage
      simp only [htry, hgrow]
      generalize tryAddPage k pp2 addr 0 = r at htried
      cases htried with
      | put hle hput => exact .put hle hput
      | bug hlt => exact .bug hlt
    · refine .inr ⟨hspent, pp1, ?_, hkept⟩
      unfold pagePipeAddPage
      simp only [htry, hgrow]
  · refine ⟨q, .inl ⟨hfull, ?_⟩⟩
    unfold pagePipeAddPage
    generalize tryAddPage k pp addr 0 = r at htried
    cases htried with
    | put hle hput => exact .put hle hput
    | bug hlt => exact .bug hlt

variable (k lazyPages) in
theorem pagePipeReinit_emptied (h : Ready pp) :
    ∃ pp', pagePipeReinit k lazyPages pp = .ok pp' ∧
      Emptied k pp ((pipesOf pp).drain.next k) pp' := by
  have hstocked : Stocked
      { pp with freeBufs := pp.bufs.reverse ++ pp.freeBufs, bufs := [], holes := [] } :=
    ⟨h.chunk, nofun, nofun, fun c hc => h.own c (by simpa using hc), h.iovs_le⟩
  have hdrain : (pipesOf pp).drain = pipesOf
      { pp with freeBufs := pp.bufs.reverse ++ pp.freeBufs, bufs := [], holes := [] } := by
    simp [Pipes.drain, pipesOf]
  rw [hdrain]
  rcases pagePipeGrow_emptied k lazyPages hstocked with
    ⟨-, pp', hgrow, hempty⟩ | ⟨hspent, -⟩
  · refine ⟨pp', ?_, { hempty with }⟩
    unfold pagePipeReinit
    rw [if_neg (by simp [h.chunk]), hgrow]
  · simp [Pipes.spent, pipesOf, h.nonempty] at hspent

end Pipe

section Loop

variable {s : Setting}

theorem dumpPages_frame (h : dumpPages s run = .ok run') :
    run'.pp = run.pp ∧ run'.nextData = run.nextData ∧ run'.nextHole = run.nextHole := by
  unfold dumpPages at h
  split at h
  · exact nomatch h
  · split at h
    · exact nomatch h
    · cases h
      exact ⟨rfl, rfl, rfl⟩

def taken (k : PipeKernel) (pp : PagePipe) (addr : ℕ) : ℕ :=
  if ((pipesOf pp).resize k).1 then 1 else fresh (lastTip pp) addr

inductive Dumped (run : ShmemRun) (addr new : ℕ) (q : Pipes) : Except Stop ShmemRun → Prop
  | put {run' : ShmemRun} : run.pp.freeIov + new ≤ run.pp.nrIovs →
      Put run.pp addr new q run'.pp → run'.nextData = run.nextData → run'.nextHole = run.nextHole →
      Dumped run addr new q (.ok run')
  | bug : run.pp.nrIovs < run.pp.freeIov + new → Dumped run addr new q (.error (.add .bug))
  | drain (f : Fault) : Dumped run addr new q (.error (.drain f))

theorem dumped_of_tried {fuel addr new : ℕ} {q : Pipes}
    (h : Tried run.pp addr new q (pagePipeAddPage s.pipes s.opts.lazyPages run'.pp addr 0))
    (hdata : run'.nextData = run.nextData) (hhole : run'.nextHole = run.nextHole) :
    Dumped run addr new q (addAgain s (fuel + 1) run' addr) := by
  unfold addAgain
  generalize pagePipeAddPage s.pipes s.opts.lazyPages run'.pp addr 0 = r at h
  cases h with
  | put hle hput => exact .put hle hput hdata hhole
  | bug hlt => exact .bug hlt

/-- A page needs one drain at most: an emptied page pipe has room. -/
theorem addAgain_dumped (h : Ready run.pp) (addr : ℕ) :
    Dumped run addr (taken s.pipes run.pp addr) ((pipesOf run.pp).take s.pipes)
      (addAgain s 2 run addr) := by
  unfold taken Pipes.take
  obtain ⟨q, ⟨hfull, htried⟩ | ⟨hfull, ⟨hleft, htried⟩ | ⟨hspent, pp1, hadd, hkept⟩⟩⟩ :=
    pagePipeAddPage_tried s.pipes s.opts.lazyPages h addr
  · rw [hfull]
    exact dumped_of_tried htried rfl rfl
  · rw [hfull]
    dsimp only
    rw [hleft]
    exact dumped_of_tried htried rfl rfl
  rw [hfull, addAgain, hadd]
  dsimp only
  rw [hspent]
  cases hdrain : dumpPages s { run with pp := pp1 } with
  | error f => exact .drain f
  | ok run1 =>
    obtain ⟨hpp, hdata, hhole⟩ := dumpPages_frame hdrain
    have hready : Ready run1.pp := hpp ▸ hkept.ready
    obtain ⟨pp2, hreinit, hempty⟩ := pagePipeReinit_emptied s.pipes s.opts.lazyPages hready
    have hq : pipesOf run1.pp = q := hpp ▸ hkept.pipes
    rw [hq] at hempty
    dsimp only
    rw [hreinit]
    have hnr : pp2.nrIovs = run.pp.nrIovs := by
      rw [hempty.nrIovs, hpp]
      exact hkept.nrIovs
    have hiov : pp2.freeIov = run.pp.freeIov := by
      rw [hempty.freeIov, hpp]
      exact hkept.freeIov
    obtain ⟨q2, ⟨hroom, htried⟩ | ⟨hyes, -⟩⟩ :=
      pagePipeAddPage_tried s.pipes s.opts.lazyPages hempty.ready addr
    · cases hempty.room.symm.trans hroom
      rw [hempty.tip] at htried
      exact dumped_of_tried (htried.of_kept hnr hiov) hdata hhole
    · cases hempty.room.symm.trans hyes

end Loop

section Iovs

variable (s : Setting)

/-- The data segment at hand before a page. -/
def dataAt : ℕ → Option (ℕ × ℕ)
  | 0 => some (0, 0)
  | n + 1 => (dataAt n).bind fun seg => seekStep s seg n

def dumped (n : ℕ) : Bool :=
  match dataAt s (n + 1) with
  | none => false
  | some (data, _) => pageWork s data n == .page

/-- The pipes before a page if all pages to dump went through them so far. -/
def pipesAt : ℕ → Pipes
  | 0 => ⟨[s.pipes.newPipe 0], 0, [], 1, 1⟩
  | n + 1 => if dumped s n then (pipesAt n).take s.pipes else pipesAt n

def fullAt (n : ℕ) : Bool := ((pipesAt s n).resize s.pipes).1

def startsRun (n : ℕ) : Bool := dumped s n && !(decide (0 < n) && dumped s (n - 1))

def breaksRun (n : ℕ) : Bool := dumped s n && decide (0 < n) && dumped s (n - 1) && fullAt s n

/-- The runs of pages to dump among the first ones, and the breaks in them. -/
def iovsNeeded (n : ℕ) : ℕ :=
  (List.range n).countP (startsRun s) + (List.range n).countP (breaksRun s)

/-- The page pipe before a page: it uses an iovec for each run and each break, and its last iovec
ends at the page exactly if the page before is dumped. -/
structure Walked (n : ℕ) (run : ShmemRun) : Prop where
  ready : Ready run.pp
  data : dataAt s n = some (run.nextData, run.nextHole)
  pipes : pipesOf run.pp = pipesAt s n
  nrIovs : run.pp.nrIovs = nrSegs s
  freeIov : run.pp.freeIov = iovsNeeded s n
  tip_le : ∀ e, lastTip run.pp = some e → e ≤ pgaddr s n
  tip_iff : lastTip run.pp = some (pgaddr s n) ↔ 0 < n ∧ dumped s (n - 1) = true

theorem pgaddr_succ (n : ℕ) : pgaddr s (n + 1) = pgaddr s n + pageSize := by
  rw [pgaddr, pgaddr, Nat.succ_mul, Nat.add_assoc]

theorem iovsNeeded_succ (n : ℕ) : iovsNeeded s (n + 1) = iovsNeeded s n +
    ((if startsRun s n then 1 else 0) + if breaksRun s n then 1 else 0) := by
  simp only [iovsNeeded, range_succ, countP_append, countP_singleton]
  omega

variable {s} {n : ℕ}

theorem pagePipeAddHole_frame (pp : PagePipe) (addr flags : ℕ) :
    ∃ holes, pagePipeAddHole pp addr flags = { pp with holes := holes } := by
  unfold pagePipeAddHole
  split
  · split
    · exact ⟨_, rfl⟩
    · exact ⟨_, rfl⟩
  · exact ⟨_, rfl⟩

/-- A page that is not dumped leaves the iovecs alone. -/
theorem Walked.pass (h : Walked s n run) (hno : dumped s n = false)
    (hdata : dataAt s (n + 1) = some (run'.nextData, run'.nextHole))
    (hpp : ∃ holes, run'.pp = { run.pp with holes := holes }) : Walked s (n + 1) run' := by
  obtain ⟨holes, hpp⟩ := hpp
  have htip : lastTip run'.pp = lastTip run.pp := by rw [hpp]; rfl
  have hend := pgaddr_succ s n
  have hpos : 0 < pageSize := by decide
  refine ⟨hpp ▸ { h.ready with }, hdata, ?_, by rw [hpp, ← h.nrIovs], ?_, ?_, ?_⟩
  · rw [pipesAt, hno, hpp]
    exact h.pipes
  · rw [hpp, iovsNeeded_succ, ← h.freeIov]
    simp [startsRun, breaksRun, hno]
  · intro e he
    have := h.tip_le e (htip ▸ he)
    omega
  · rw [htip, Nat.add_sub_cancel, hno]
    refine ⟨fun he => ?_, fun he => (Bool.false_ne_true he.2).elim⟩
    have := h.tip_le _ he
    omega

/-- A page to dump takes an iovec exactly if it starts a run or breaks one. -/
theorem Walked.taken_eq (h : Walked s n run) (hyes : dumped s n = true) :
    taken s.pipes run.pp (pgaddr s n) =
      (if startsRun s n then 1 else 0) + if breaksRun s n then 1 else 0 := by
  unfold taken fresh startsRun breaksRun fullAt
  rw [h.pipes, hyes]
  by_cases hprev : 0 < n ∧ dumped s (n - 1) = true
  · rw [if_pos (h.tip_iff.mpr hprev)]
    simp [hprev.1, hprev.2]
  · rw [if_neg fun htip => hprev (h.tip_iff.mp htip)]
    have hnot : (decide (0 < n) && dumped s (n - 1)) = false := by simpa using hprev
    simp [hnot]

theorem Walked.put (h : Walked s n run) (hyes : dumped s n = true)
    (hdata : dataAt s (n + 1) = some (run'.nextData, run'.nextHole))
    (hput : Put run.pp (pgaddr s n) (taken s.pipes run.pp (pgaddr s n))
      ((pipesOf run.pp).take s.pipes) run'.pp) : Walked s (n + 1) run' := by
  refine ⟨hput.ready, hdata, ?_, hput.nrIovs.trans h.nrIovs, ?_, ?_, ?_⟩
  · rw [hput.pipes, pipesAt, hyes, h.pipes, if_pos rfl]
  · rw [hput.freeIov, h.freeIov, h.taken_eq hyes, iovsNeeded_succ]
  · intro e he
    rw [hput.tip, Option.some.injEq] at he
    rw [pgaddr_succ, he]
  · rw [hput.tip, pgaddr_succ]
    exact ⟨fun _ => ⟨Nat.succ_pos n, hyes⟩, fun _ => rfl⟩

/-- The loop gets to page `n`, or the iovecs do not suffice, or a system call failed. -/
def Gets (s : Setting) (n : ℕ) : Except Stop ShmemRun → Prop
  | .ok run => Walked s n run
  | .error e => (e = .add .bug ∧ nrSegs s < iovsNeeded s n) ∨ e = .seek ∨ ∃ f, e = .drain f

theorem Walked.step (h : Walked s n run) : Gets s (n + 1) (shmemPage s run n) := by
  unfold shmemPage
  cases hseek : seekStep s (run.nextData, run.nextHole) n with
  | none => exact .inr (.inl rfl)
  | some seg =>
    obtain ⟨data, hole⟩ := seg
    have hdata : dataAt s (n + 1) = some (data, hole) := by rw [dataAt, h.data, ← hseek]; rfl
    have hdumped : dumped s n = (pageWork s data n == .page) := by simp only [dumped, hdata]
    dsimp only
    cases hwork : pageWork s data n with
    | skip =>
      rw [hwork] at hdumped
      exact h.pass hdumped hdata ⟨run.pp.holes, rfl⟩
    | hole =>
      rw [hwork] at hdumped
      exact h.pass hdumped hdata (pagePipeAddHole_frame run.pp (pgaddr s n) ppHoleParent)
    | page =>
      rw [hwork] at hdumped
      have hd := @addAgain_dumped { run with nextData := data, nextHole := hole } s h.ready
        (pgaddr s n)
      generalize addAgain s 2 { run with nextData := data, nextHole := hole } (pgaddr s n) = r
        at hd
      cases hd with
      | put hle hput hd hh => exact h.put hdumped (by rw [hd, hh, hdata]) hput
      | bug hlt =>
        rw [h.nrIovs, h.freeIov, h.taken_eq hdumped, ← iovsNeeded_succ] at hlt
        exact .inl ⟨rfl, hlt⟩
      | drain f => exact .inr (.inr ⟨f, rfl⟩)

theorem freshPipe_ready (k : PipeKernel) (lazyPages : Bool) (nrSegs : ℕ) (iovs : ℕ → Iovec) :
    Ready (freshPipe k lazyPages nrSegs iovs true) := by
  refine ⟨⟨rfl, forall_mem_singleton.mpr rfl, forall_mem_singleton.mpr (Nat.zero_le _),
    forall_mem_singleton.mpr ⟨rfl, k.newPipe_pos 0⟩, Nat.zero_le _⟩, cons_ne_nil _ _⟩

theorem runTo_gets (s : Setting) (n : ℕ) : Gets s n (runTo s n) := by
  induction n with
  | zero =>
    exact ⟨freshPipe_ready .., rfl, rfl, rfl, rfl, nofun,
      nofun, fun he => absurd he.1 (Nat.lt_irrefl 0)⟩
  | succ n ih =>
    rw [runTo]
    cases hrun : runTo s n with
    | ok run =>
      rw [hrun] at ih
      exact Walked.step ih
    | error e =>
      rw [hrun] at ih
      rcases ih with ⟨rfl, hlt⟩ | hother
      · exact .inl ⟨rfl, lt_of_lt_of_le hlt (iovsNeeded_succ s n ▸ Nat.le_add_right _ _)⟩
      · exact .inr hother

/-- The dump of a segment runs out of iovecs only if the runs of pages to dump and the buffers that
end inside them are more than the iovecs, and gets to its end only if they are not. Otherwise it
stops at a failed system call. -/
theorem shmem_iovs_suffice_iff (s : Setting) :
    (∀ f, doDumpOneShmem s = .error (.add f) → nrSegs s < iovsNeeded s (nrpages s)) ∧
      (∀ run, doDumpOneShmem s = .ok run → iovsNeeded s (nrpages s) ≤ nrSegs s) ∧
      (∀ e, doDumpOneShmem s = .error e →
        e = .add .bug ∨ e = .seek ∨ ∃ f, e = .drain f) := by
  have hgets := runTo_gets s (nrpages s)
  unfold doDumpOneShmem
  cases hrun : runTo s (nrpages s) with
  | error e =>
    rw [hrun] at hgets
    refine ⟨fun f hf => ?_, nofun, fun e' hf => ?_⟩
    · rcases hgets with ⟨-, hlt⟩ | rfl | ⟨f', rfl⟩
      · exact hlt
      · exact nomatch hf
      · exact nomatch hf
    · obtain rfl := Except.error.inj hf
      exact hgets.imp And.left id
  | ok run =>
    rw [hrun] at hgets
    have hw : Walked s (nrpages s) run := hgets
    have hle : iovsNeeded s (nrpages s) ≤ nrSegs s := by
      rw [← hw.freeIov, ← hw.nrIovs]
      exact hw.ready.iovs_le
    dsimp only
    cases dumpPages s run with
    | error f =>
      refine ⟨nofun, nofun, fun e hf => ?_⟩
      exact .inr (.inr ⟨f, (Except.error.inj hf).symm⟩)
    | ok run' => exact ⟨nofun, fun _ _ => hle, nofun⟩

/-- A segment of 32 pages with data in every second one and in the last one; pipes of 16 pages. -/
def raggedSegment : Setting where
  opts := ⟨false, false, false, false, .splice, 0, 2 ^ 47⟩
  size := 32 * pageSize
  pstateMap := none
  tracking := false
  addr := 0
  mem := fun _ => 0
  seekData := fun off => .found (if off / pageSize % 2 = 0 then off else off + pageSize)
  seekHole := fun off => some (if off / pageSize = 30 then 32 * pageSize else off + pageSize)
  pipes := fixedPipes
  splice := fun _ _ n => n
  iovs := fun _ => ⟨0, 0⟩
  snaps := []

/-- Sixteen single pages fill the first pipe. The last page goes to another buffer and takes a
seventeenth iovec. -/
theorem ragged_segment_overruns : doDumpOneShmem raggedSegment = .error (.add .bug) := by
  have hstop : (match doDumpOneShmem raggedSegment with
      | .error e => some e
      | .ok _ => none) = some (.add .bug) := by decide +kernel
  split at hstop
  · rename_i h
    rw [h, Option.some.inj hstop]
  · cases hstop

end Iovs

end Criu.ShmemDump

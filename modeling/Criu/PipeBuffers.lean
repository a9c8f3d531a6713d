import Criu.PageIo

/-!
The page pipe (criu/page-pipe.c): the pages to dump, collected in buffers of iovecs that
are later spliced through kernel pipes, and the holes, kept in an array of their own. All
buffers cut their iovecs out of one array, one after another. Buffers of one kind share a
pipe as long as it has room, except in chunk mode, where each has its own and at most
eight are used before the caller has to drain them.
-/

namespace Criu.PipeBuffers

open Pagemap ReadCursor PageIo

def ppbLazy : ℕ := 1
def ppHoleParent : ℕ := 1

/-- PIPE_MAX_SIZE: the pipe buffers that fit eight kernel pages, 40 bytes each. -/
def pipeMaxSize : ℕ := 8 * pageSize / 40

def nrPipesPerChunk : ℕ := 8

/-- `struct page_pipe_buf`; `iov` is the index of its first iovec in `pp->iovs`. -/
structure PagePipeBuf where
  pipe : ℕ
  pipeSize : ℕ
  pipeOff : ℕ
  pagesIn : ℕ
  nrSegs : ℕ
  flags : ℕ
  iov : ℕ
deriving DecidableEq, Repr

/-- The kernel's side of pipe capacities, in pages. A new pipe has room for a page, and a
successful F_SETPIPE_SZ grants at least what was asked for. -/
structure PipeKernel where
  newPipe : ℕ → ℕ
  setPipeSize : ℕ → ℕ → Option ℕ
  newPipe_pos : ∀ c, 0 < newPipe c
  setPipeSize_le : ∀ c n r, setPipeSize c n = some r → n ≤ r

theorem sixteen_pages_pos (_ : ℕ) : 0 < 16 := by decide

/-- `struct page_pipe`. `prev` holds positions in `bufs`. The last two fields are the
kernel's: how often it was called, and the capacities of the pipes. -/
structure PagePipe where
  chunkMode : Bool
  nrIovs : ℕ
  nrPipes : ℕ
  bufs : List PagePipeBuf
  freeBufs : List PagePipeBuf
  prev : Bool → Option ℕ
  freeIov : ℕ
  iovs : ℕ → Iovec
  holes : List (Iovec × ℕ)
  calls : ℕ
  caps : ℕ → ℕ

section Operations

variable (k : PipeKernel) (lazyPages : Bool)

/-- `ppb_resize_pipe`: whether the buffer is full, which is its return value. -/
def ppbResizePipe (pp : PagePipe) (ppb : PagePipeBuf) :
    Except Fault (Bool × PagePipeBuf × PagePipe) :=
  if ppb.pagesIn + ppb.pipeOff < ppb.pipeSize then .ok (false, ppb, pp)
  else if pipeMaxSize < 2 * ppb.pipeSize ∧ pipeMaxSize ≤ ppb.pipeSize then .ok (true, ppb, pp)
  else
    let ppb' := if pipeMaxSize < 2 * ppb.pipeSize then { ppb with pipeSize := pipeMaxSize }
      else ppb
    match k.setPipeSize pp.calls (2 * ppb.pipeSize) with
    | none => .ok (true, ppb', { pp with calls := pp.calls + 1 })
    | some ret =>
        if ret < ppb'.pipeSize then .error .bug
        else .ok (false, { ppb' with pipeSize := ret },
          { pp with calls := pp.calls + 1, caps := Function.update pp.caps ppb.pipe ret })

/-- The type of a buffer: 1, here `true`, for lazy buffers when pages are restored lazily. -/
def ppbType (flags : ℕ) : Bool := flags &&& ppbLazy != 0 && lazyPages

def ppPrevPpb (pp : PagePipe) (flags : ℕ) : Option ℕ :=
  if pp.chunkMode then none
  else if pp.bufs.isEmpty then none
  else pp.prev (ppbType lazyPages flags)

def ppUpdatePrevPpb (pp : PagePipe) (flags : ℕ) : PagePipe :=
  { pp with prev := Function.update pp.prev (ppbType lazyPages flags) (some pp.bufs.length) }

/-- The branch of `ppb_alloc` that makes a new pipe. -/
def ppbAllocPipe (pp : PagePipe) (flags : ℕ) : PagePipeBuf × PagePipe :=
  (⟨pp.nrPipes, k.newPipe pp.calls, 0, 0, 0, 0, 0⟩,
    ppUpdatePrevPpb lazyPages { pp with
      nrPipes := pp.nrPipes + 1
      calls := pp.calls + 1
      caps := Function.update pp.caps pp.nrPipes (k.newPipe pp.calls) } flags)

/-- `ppb_alloc`; the caller puts the buffer at the end of `bufs`. -/
def ppbAlloc (pp : PagePipe) (flags : ℕ) : Except Fault (PagePipeBuf × PagePipe) :=
  match ppPrevPpb lazyPages pp flags with
  | none => .ok (ppbAllocPipe k lazyPages pp flags)
  | some i =>
      match pp.bufs[i]? with
      | none => .error .bug
      | some prev =>
          match ppbResizePipe k pp prev with
          | .error f => .error f
          | .ok (full, prev', pp') =>
              let pp'' := { pp' with bufs := pp'.bufs.set i prev' }
              if full then .ok (ppbAllocPipe k lazyPages pp'' flags)
              else .ok (⟨prev'.pipe, prev'.pipeSize, prev'.pagesIn + prev'.pipeOff, 0, 0, 0, 0⟩,
                ppUpdatePrevPpb lazyPages pp'' flags)

def ppbInit (ppb : PagePipeBuf) (flags iov : ℕ) : PagePipeBuf :=
  { ppb with pagesIn := 0, nrSegs := 0, flags := flags, iov := iov }

/-- `page_pipe_grow`; the flag is the return value -EAGAIN. -/
def pagePipeGrow (pp : PagePipe) (flags : ℕ) : Except Fault (Bool × PagePipe) :=
  match pp.freeBufs with
  | ppb :: rest =>
      .ok (false,
        { pp with bufs := pp.bufs ++ [ppbInit ppb flags pp.freeIov], freeBufs := rest })
  | [] =>
      if pp.chunkMode && pp.nrPipes == nrPipesPerChunk then .ok (true, pp)
      else match ppbAlloc k lazyPages pp flags with
        | .error f => .error f
        | .ok (ppb, pp') =>
            .ok (false, { pp' with bufs := pp'.bufs ++ [ppbInit ppb flags pp'.freeIov] })

def createPagePipe (nrSegs : ℕ) (iovs : ℕ → Iovec) (chunkMode : Bool) : Except Fault PagePipe :=
  match pagePipeGrow k lazyPages
      ⟨chunkMode, nrSegs, 0, [], [], fun _ => none, 0, iovs, [], 0, fun _ => 0⟩ 0 with
  | .error f => .error f
  | .ok (true, _) => .error .err
  | .ok (false, pp) => .ok pp

/-- `page_pipe_reinit`; buffers are moved one by one to the head of the free list. -/
def pagePipeReinit (pp : PagePipe) : Except Fault PagePipe :=
  if !pp.chunkMode then .error .bug
  else match pagePipeGrow k lazyPages
      { pp with freeBufs := pp.bufs.reverse ++ pp.freeBufs, bufs := [], holes := [] } 0 with
    | .ok (false, pp') => .ok pp'
    | _ => .error .bug

def iovGrows (iov : Iovec) (addr : ℕ) : Bool := iov.base + iov.len == addr

def setLast (pp : PagePipe) (ppb : PagePipeBuf) : PagePipe :=
  { pp with bufs := pp.bufs.dropLast ++ [ppb] }

/-- The second half of `try_add_page_to`, once the buffer has room. -/
def putPage (pp : PagePipe) (ppb : PagePipeBuf) (addr : ℕ) : Except Fault PagePipe :=
  let last := ppb.iov + ppb.nrSegs - 1
  if 0 < ppb.nrSegs ∧ iovGrows (pp.iovs last) addr then
    .ok (setLast { pp with
      iovs := Function.update pp.iovs last ⟨(pp.iovs last).base, (pp.iovs last).len + pageSize⟩ }
      { ppb with pagesIn := ppb.pagesIn + 1 })
  else if pp.nrIovs < pp.freeIov + 1 then .error .bug
  else
    .ok (setLast { pp with
      iovs := Function.update pp.iovs (ppb.iov + ppb.nrSegs) ⟨addr, pageSize⟩
      freeIov := pp.freeIov + 1 }
      { ppb with nrSegs := ppb.nrSegs + 1, pagesIn := ppb.pagesIn + 1 })

/-- `try_add_page` on the last buffer; the flag is the return value 1. -/
def tryAddPage (pp : PagePipe) (addr flags : ℕ) : Except Fault (Bool × PagePipe) :=
  match pp.bufs.getLast? with
  | none => .error .bug
  | some ppb =>
      if ppb.flags ≠ flags then .ok (true, pp)
      else match ppbResizePipe k pp ppb with
        | .error f => .error f
        | .ok (true, ppb', pp') => .ok (true, setLast pp' ppb')
        | .ok (false, ppb', pp') =>
            match putPage pp' ppb' addr with
            | .error f => .error f
            | .ok pp'' => .ok (false, pp'')

/-- `page_pipe_add_page`; the flag is the return value -EAGAIN. -/
def pagePipeAddPage (pp : PagePipe) (addr flags : ℕ) : Except Fault (Bool × PagePipe) :=
  match tryAddPage k pp addr flags with
  | .error f => .error f
  | .ok (false, pp') => .ok (false, pp')
  | .ok (true, pp') =>
      match pagePipeGrow k lazyPages pp' flags with
      | .error f => .error f
      | .ok (true, pp'') => .ok (true, pp'')
      | .ok (false, pp'') =>
          match tryAddPage k pp'' addr flags with
          | .error f => .error f
          | .ok (true, _) => .error .bug
          | .ok (false, pp''') => .ok (false, pp''')

end Operations

/-- `page_pipe_add_hole`; the array of holes grows on demand. -/
def pagePipeAddHole (pp : PagePipe) (addr flags : ℕ) : PagePipe :=
  match pp.holes.getLast? with
  | some (iov, flags') =>
      if flags' = flags ∧ iovGrows iov addr then
        { pp with holes := pp.holes.dropLast ++ [(⟨iov.base, iov.len + pageSize⟩, flags)] }
      else { pp with holes := pp.holes ++ [(⟨addr, pageSize⟩, flags)] }
  | none => { pp with holes := pp.holes ++ [(⟨addr, pageSize⟩, flags)] }

end Criu.PipeBuffers

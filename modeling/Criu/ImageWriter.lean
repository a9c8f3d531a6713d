import Criu.Lib.Transfer
import Criu.Dedup
import Criu.PipeContents

/-!
Writing the collected pages to the images (criu/page-xfer.c). The buffers are walked in
order; before each iovec the holes below it are written. A pagemap entry is written for
every iovec and hole, and the data of present iovecs is spliced from the pipe of the
buffer.
-/

namespace Criu.ImageWriter

open Transfer Pagemap ReadCursor PageIo PipeBuffers PipeContents SnapshotChain Dedup

/-- A local `struct page_xfer`: the chain of the parent images, which is empty without a
parent, and what was written to the pagemap and pages images. -/
structure PageXfer where
  offset : ℕ
  transferLazy : Bool
  parent : List PageRead
  pmi : List PagemapEntry
  pi : List UInt8

def checkPageholeInParent : ℕ → List PageRead → ℕ → ℕ → Except Fault (List PageRead)
  | fuel + 1, p :: rest, off, stop =>
      if (seekPagemap p off).1 = false then .error .err
      else match (seekPagemap p off).2.pe with
        | none => .error .err
        | some pe =>
            if stop ≤ pe.stop then .ok ((seekPagemap p off).2 :: rest)
            else checkPageholeInParent fuel ((seekPagemap p off).2 :: rest) pe.stop stop
  | _, _, _, _ => .error .hang

/-- The bound of `check_pagehole_in_parent`: every round leaves an entry behind. -/
def holeFuel (parent : List PageRead) : ℕ :=
  match parent with
  | [] => 0
  | p :: _ => p.pmes.length + 1

section Dump

variable (autoDedup : Bool) (kernel : ℕ → ℕ → ℕ)

/-- `write_pagemap_loc`; the page count of the entry is a 32-bit field. -/
def writePagemapLoc (xfer : PageXfer) (iov : Iovec) (flags : ℕ) : Except Fault PageXfer :=
  let pe : PagemapEntry := ⟨iov.base, iov.len / pageSize % 2 ^ 32, flags⟩
  let checked : Except Fault (List PageRead) :=
    if pagemapPresent pe then
      if autoDedup then dedupOneIovec xfer.parent.length xfer.parent pe.vaddr (pagemapLen pe)
      else .ok xfer.parent
    else if pagemapInParent pe then
      if xfer.parent.isEmpty then .ok []
      else checkPageholeInParent (holeFuel xfer.parent) xfer.parent iov.base (iov.base + iov.len)
    else .ok xfer.parent
  match checked with
  | .error f => .error f
  | .ok parent => .ok { xfer with parent := parent, pmi := xfer.pmi ++ [pe] }

def pageXferDumpHole (xfer : PageXfer) (hole : Iovec) (flags : ℕ) : Except Fault PageXfer :=
  if hole.base < xfer.offset then .error .bug
  else writePagemapLoc autoDedup xfer ⟨hole.base - xfer.offset, hole.len⟩ flags

def getHoleFlags (flags : ℕ) : Except Fault ℕ :=
  if flags = ppHoleParent then .ok peParent else .error .bug

/-- `dump_holes`: the holes from `cur_hole` on are the list; a null limit is no limit. -/
def dumpHoles (limit : ℕ) : List (Iovec × ℕ) → PageXfer →
    Except Fault (PageXfer × List (Iovec × ℕ))
  | [], xfer => .ok (xfer, [])
  | (hole, holeFlags) :: rest, xfer =>
      if limit ≠ 0 ∧ limit ≤ hole.base then .ok (xfer, (hole, holeFlags) :: rest)
      else match getHoleFlags holeFlags with
        | .error f => .error f
        | .ok flags =>
            match pageXferDumpHole autoDedup xfer hole flags with
            | .error f => .error f
            | .ok xfer' => dumpHoles limit rest xfer'

def ppbXferFlags (transferLazy : Bool) (flags : ℕ) : ℕ :=
  if flags &&& ppbLazy ≠ 0 then (if transferLazy then pePresent else 0) ||| peLazy
  else pePresent

/-- The state of `page_xfer_dump_pages` with the pipes it drains. -/
structure DumpState where
  xfer : PageXfer
  holes : List (Iovec × ℕ)
  pipes : ℕ → List UInt8
  calls : ℕ

/-- `write_pages_loc`: splice until everything is moved. -/
def writePagesLoc (st : DumpState) (pipe len : ℕ) : Except Fault DumpState :=
  match transfer kernel len st.calls (st.pipes pipe) st.xfer.pi len with
  | none => .error .err
  | some (calls, rest, pi) =>
      .ok { st with
        xfer := { st.xfer with pi := pi }
        pipes := Function.update st.pipes pipe rest
        calls := calls }

/-- The body of the inner loop of `page_xfer_dump_pages`. -/
def dumpIov (ppb : PagePipeBuf) (iov : Iovec) (st : DumpState) : Except Fault DumpState :=
  match dumpHoles autoDedup iov.base st.holes st.xfer with
  | .error f => .error f
  | .ok (xfer, holes) =>
      if iov.base < xfer.offset then .error .bug
      else
        let flags := ppbXferFlags xfer.transferLazy ppb.flags
        match writePagemapLoc autoDedup xfer ⟨iov.base - xfer.offset, iov.len⟩ flags with
        | .error f => .error f
        | .ok xfer' =>
            let st' := { st with xfer := xfer', holes := holes }
            if flags &&& pePresent ≠ 0 then writePagesLoc kernel st' ppb.pipe iov.len
            else .ok st'

def dumpIovs (ppb : PagePipeBuf) : List Iovec → DumpState → Except Fault DumpState
  | [], st => .ok st
  | iov :: rest, st =>
      match dumpIov autoDedup kernel ppb iov st with
      | .error f => .error f
      | .ok st' => dumpIovs ppb rest st'

def dumpBufs (iovs : ℕ → Iovec) : List PagePipeBuf → DumpState → Except Fault DumpState
  | [], st => .ok st
  | ppb :: rest, st =>
      match dumpIovs autoDedup kernel ppb (segs iovs ppb) st with
      | .error f => .error f
      | .ok st' => dumpBufs iovs rest st'

/-- `page_xfer_dump_pages` on pipes that hold `pipes`. -/
def pageXferDumpPages (xfer : PageXfer) (pp : PagePipe) (pipes : ℕ → List UInt8) :
    Except Fault DumpState :=
  match dumpBufs autoDedup kernel pp.iovs pp.bufs ⟨xfer, pp.holes, pipes, 0⟩ with
  | .error f => .error f
  | .ok st =>
      match dumpHoles autoDedup 0 st.holes st.xfer with
      | .error f => .error f
      | .ok (xfer', holes) => .ok { st with xfer := xfer', holes := holes }

end Dump

def iovBytes (mem : ℕ → UInt8) (iov : Iovec) : List UInt8 :=
  (List.range iov.len).map (fun i => mem (iov.base + i))

def fillPipes (mem : ℕ → UInt8) (pp : PagePipe) (p : ℕ) : List UInt8 :=
  (pp.bufs.filter (fun b => b.pipe == p)).flatMap
    (fun b => (segs pp.iovs b).flatMap (iovBytes mem))

end Criu.ImageWriter

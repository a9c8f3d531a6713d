import Criu.Lib.Wire
import Criu.ImageWriter

/-!
Dumping to a page server (criu/page-xfer.c). The client sends a header for every pagemap
entry and the pages of the present ones behind it, all on one socket. The server takes the
headers and the pages off the stream and writes the images with the functions a local dump
uses. How much a splice moves is up to the kernel on both sides.
-/

namespace Criu.PageServer

open Wire Transfer Pagemap ReadCursor PageIo PipeBuffers SnapshotChain Dedup ImageWriter

/-- The `CR_FD_*` type of an image as far as page transfers tell them apart. -/
inductive FdType where
  | pagemap
  | shmemPagemap
  | other (type : ℕ)
deriving DecidableEq

abbrev ImageId : Type := FdType × ℕ

/-- `struct page_server_iov` with its field widths. -/
structure PageServerIov where
  cmd : ℕ
  nrPages : ℕ
  vaddr : ℕ
  dstId : ℕ
  cmd_lt : cmd < 2 ^ 32
  nrPages_lt : nrPages < 2 ^ 32
  vaddr_lt : vaddr < 2 ^ 64
  dstId_lt : dstId < 2 ^ 64

def psi (cmd nrPages vaddr dstId : ℕ) : PageServerIov where
  cmd := cmd % 2 ^ 32
  nrPages := nrPages % 2 ^ 32
  vaddr := vaddr % 2 ^ 64
  dstId := dstId % 2 ^ 64
  cmd_lt := Nat.mod_lt _ (by decide)
  nrPages_lt := Nat.mod_lt _ (by decide)
  vaddr_lt := Nat.mod_lt _ (by decide)
  dstId_lt := Nat.mod_lt _ (by decide)

def psi2iovec (ps : PageServerIov) : Iovec := ⟨ps.vaddr, ps.nrPages * pageSize⟩

def psIovAdd : ℕ := 1
def psIovHole : ℕ := 2
def psIovOpen : ℕ := 3
def psIovOpen2 : ℕ := 4
def psIovParent : ℕ := 5
def psIovAddF : ℕ := 6
def psIovFlush : ℕ := 0x1023
def psIovFlushNClose : ℕ := 0x1024

def psCmdBits : ℕ := 16
def psCmdMask : ℕ := 2 ^ psCmdBits - 1
def psTypeBits : ℕ := 8
def psTypeMask : ℕ := 2 ^ psTypeBits - 1
def psTypePid : ℕ := 1
def psTypeShmem : ℕ := 2

def encodePm (id : ImageId) : Except Fault ℕ :=
  match id.1 with
  | .pagemap => .ok (id.2 <<< psTypeBits % 2 ^ 64 ||| psTypePid)
  | .shmemPagemap => .ok (id.2 <<< psTypeBits % 2 ^ 64 ||| psTypeShmem)
  | .other _ => .error .bug

/-- `decode_pm`; the other numbers are the types of older versions. -/
def decodePm (dstId : ℕ) : Option ImageId :=
  let type := dstId &&& psTypeMask
  if type ∈ [10, 11, 16, 17, psTypePid] then some (.pagemap, dstId >>> psTypeBits)
  else if type ∈ [27, 28, 29, 32, 33, 34, psTypeShmem] then
    some (.shmemPagemap, dstId >>> psTypeBits)
  else none

def encodePsCmd (cmd flags : ℕ) : ℕ := (flags <<< psCmdBits ||| cmd) % 2 ^ 32

def decodePsCmd (cmd : ℕ) : ℕ := cmd &&& psCmdMask

def decodePsFlags (cmd : ℕ) : ℕ := cmd >>> psCmdBits

def psiBytes (pi : PageServerIov) : List UInt8 :=
  leBytes 4 pi.cmd ++ (leBytes 4 pi.nrPages ++ (leBytes 8 pi.vaddr ++ leBytes 8 pi.dstId))

def psiSize : ℕ := 24

def recvPsi (stream : List UInt8) : PageServerIov × List UInt8 :=
  let (cmd, r₁) := takeField 4 stream
  let (nrPages, r₂) := takeField 4 r₁
  let (vaddr, r₃) := takeField 8 r₂
  let (dstId, r₄) := takeField 8 r₃
  (psi cmd nrPages vaddr dstId, r₄)

/-- The image directory: the images written so far, and for every image the pagemaps and
pages images found through the parent link, nearest first. -/
structure ImageDir where
  images : ImageId → Option (List PagemapEntry × List UInt8)
  parents : ImageId → List (List PagemapEntry × PagesImage)

structure OpenXfer where
  id : ImageId
  xfer : PageXfer

section Transfers

variable (autoDedup stream : Bool) (kernel : ℕ → ℕ → ℕ)

/-- The parent that `open_page_local_xfer` finds. -/
def openParent (dir : ImageDir) (id : ImageId) : List PageRead :=
  match id.1 with
  | .other _ => []
  | _ => if stream then [] else (dir.parents id).map (fun f => openPageRead f.1 f.2)

/-- `open_page_local_xfer`: the images are created empty, or truncated. -/
def openPageLocalXfer (dir : ImageDir) (xfer : PageXfer) (id : ImageId) : ImageDir × OpenXfer :=
  ({ dir with images := Function.update dir.images id (some ([], [])) },
    ⟨id, { xfer with parent := openParent stream dir id, pmi := [], pi := [] }⟩)

/-- `close_page_xfer`: pending punches are done in the parent images, and the written images
are complete. -/
def closePageXfer (dir : ImageDir) (x : OpenXfer) : ImageDir where
  images := Function.update dir.images x.id (some (x.xfer.pmi, x.xfer.pi))
  parents :=
    if x.xfer.parent.isEmpty then dir.parents
    else Function.update dir.parents x.id
      (x.xfer.parent.map (fun pr => (pr.pmes, (closePageRead pr).pi)))

def checkParentLocalXfer (dir : ImageDir) (id : ImageId) : Bool :=
  !stream && !(dir.parents id).isEmpty

/-- What a dump does with its transfers: open one, write an entry and, if it is present, the
pages that wait in the pipe, close it, or ask for a parent image before a pre-dump. -/
inductive XferOp where
  | openXfer (id : ImageId)
  | write (id : ImageId) (iov : Iovec) (flags : ℕ) (pipe : List UInt8)
  | close (id : ImageId)
  | checkParent (id : ImageId)

inductive Answer where
  | hasParent (b : Bool)
  | parentImage (b : Bool)

structure LocalDump where
  dir : ImageDir
  opened : List OpenXfer
  answers : List Answer
  calls : ℕ

/-- `write_pagemap_loc` and `write_pages_loc` for one block. -/
def writeBlock (xfer : PageXfer) (iov : Iovec) (flags : ℕ) (pipe : List UInt8) (calls : ℕ) :
    PageXfer × ℕ × Except Fault Unit :=
  match writePagemapLoc autoDedup xfer iov flags with
  | .error f => (xfer, calls, .error f)
  | .ok xfer' =>
      if flags &&& pePresent = 0 then (xfer', calls, .ok ())
      else match writePagesLoc kernel ⟨xfer', [], fun _ => pipe, calls⟩ 0 iov.len with
        | .error f => (xfer', calls, .error f)
        | .ok st => (st.xfer, st.calls, .ok ())

/-- The fields of a `struct page_xfer` that `open_page_xfer` sets itself. -/
def newXfer : PageXfer := ⟨0, true, [], [], []⟩

def localOp (op : XferOp) (st : LocalDump) : LocalDump × Except Fault Unit :=
  match op with
  | .openXfer id =>
      let (dir, x) := openPageLocalXfer stream st.dir newXfer id
      ({ st with
        dir := dir
        opened := x :: st.opened
        answers := st.answers ++ [.hasParent !x.xfer.parent.isEmpty] }, .ok ())
  | .write id iov flags pipe =>
      match st.opened.find? (fun x => x.id = id) with
      | none => (st, .error .bug)
      | some x =>
          let (xfer, calls, ret) := writeBlock autoDedup kernel x.xfer iov flags pipe st.calls
          ({ st with
            opened := st.opened.map (fun y => if y.id = id then ⟨id, xfer⟩ else y)
            calls := calls }, ret)
  | .close id =>
      match st.opened.find? (fun x => x.id = id) with
      | none => (st, .error .bug)
      | some x =>
          ({ st with
            dir := closePageXfer st.dir x
            opened := st.opened.filter (fun y => y.id ≠ id) }, .ok ())
  | .checkParent id =>
      ({ st with
        answers := st.answers ++ [.parentImage (checkParentLocalXfer stream st.dir id)] }, .ok ())

/-- The dump stops at the first failure; transfers that are still open are closed. -/
def localDump : List XferOp → LocalDump → LocalDump × Except Fault Unit
  | [], st => ({ st with dir := st.opened.foldl closePageXfer st.dir, opened := [] }, .ok ())
  | op :: ops, st =>
      match localOp autoDedup stream kernel op st with
      | (st', .ok ()) => localDump ops st'
      | (st', .error f) =>
          ({ st' with dir := st'.opened.foldl closePageXfer st'.dir, opened := [] }, .error f)

structure Client where
  sk : List UInt8
  calls : ℕ

def sendPsi (c : Client) (pi : PageServerIov) : Client := { c with sk := c.sk ++ psiBytes pi }

def writePagesToServer (c : Client) (pipe : List UInt8) (len : ℕ) : Except Fault Client :=
  if len = 0 then .ok c
  else match transfer kernel len c.calls pipe c.sk len with
    | none => .error .err
    | some (calls, _, sk) => .ok ⟨sk, calls⟩

def writePagemapToServer (c : Client) (iov : Iovec) (flags dstId : ℕ) : Client :=
  sendPsi c (psi (encodePsCmd psIovAddF flags) (iov.len / pageSize) iov.base dstId)

/-- The operations of a dump with `--page-server`; closing sends nothing. -/
def remoteOp (op : XferOp) (c : Client) : Except Fault Client :=
  match op with
  | .openXfer id =>
      match encodePm id with
      | .error f => .error f
      | .ok dstId => .ok (sendPsi c (psi psIovOpen2 0 0 dstId))
  | .write id iov flags pipe =>
      match encodePm id with
      | .error f => .error f
      | .ok dstId =>
          let c' := writePagemapToServer c iov flags dstId
          if flags &&& pePresent = 0 then .ok c' else writePagesToServer kernel c' pipe iov.len
  | .close _ => .ok c
  | .checkParent id =>
      match encodePm id with
      | .error f => .error f
      | .ok dstId => .ok (sendPsi c (psi psIovParent 0 0 dstId))

/-- The whole dump, up to `disconnect_from_page_server`. -/
def remoteDump (psSocket : Bool) : List XferOp → Client → Except Fault Client
  | [], c => .ok (sendPsi c (psi (if psSocket then psIovFlushNClose else psIovFlush) 0 0 0))
  | op :: ops, c =>
      match remoteOp kernel op c with
      | .error f => .error f
      | .ok c' => remoteDump psSocket ops c'

/-- The receiving side, with `cxfer` and what was sent back. -/
structure Server where
  dir : ImageDir
  dstId : ℕ
  locXfer : OpenXfer
  replies : List UInt8
  flushed : Bool
  calls : ℕ

/-- The `~0` of a job without an open transfer. -/
def noDst : ℕ := 2 ^ 64 - 1

def pageServerClose (s : Server) : Server :=
  if s.dstId ≠ noDst then { s with dir := closePageXfer s.dir s.locXfer } else s

/-- `page_server_open`; with `reply` the client is told whether there is a parent. -/
def pageServerOpen (reply : Bool) (s : Server) (dstId : ℕ) : Server × Except Fault Unit :=
  match decodePm dstId with
  | none => (s, .error .err)
  | some id =>
      let s' := pageServerClose s
      let (dir, x) := openPageLocalXfer stream s'.dir s'.locXfer.xfer id
      let answer := if reply then [if x.xfer.parent.isEmpty then 0 else 1] else []
      ({ s' with dir := dir, locXfer := x, dstId := dstId, replies := s'.replies ++ answer },
        .ok ())

def prepLocXfer (s : Server) (dstId : ℕ) : Server × Except Fault Unit :=
  if s.dstId ≠ dstId then pageServerOpen stream false s dstId else (s, .ok ())

/-- The loop of `page_server_add`: from the socket into the pipe, from there to the image. -/
def addLoop (pipeSize : ℕ) : ℕ → ℕ → Server → List UInt8 →
    Server × Except Fault (List UInt8)
  | 0, _, s, _ => (s, .error .hang)
  | fuel + 1, len, s, sk =>
      if len = 0 then (s, .ok sk)
      else
        let chunk := min len pipeSize
        let n := min (kernel s.calls chunk) (min chunk sk.length)
        if n = 0 then (s, .error .err)
        else
          let pipe : DumpState := ⟨s.locXfer.xfer, [], fun _ => sk.take n, s.calls + 1⟩
          match writePagesLoc kernel pipe 0 n with
          | .error f => (s, .error f)
          | .ok st =>
              addLoop pipeSize fuel (len - n)
                { s with locXfer := ⟨s.locXfer.id, st.xfer⟩, calls := st.calls } (sk.drop n)

def pageServerAdd (pipeSize : ℕ) (s : Server) (pi : PageServerIov) (flags : ℕ)
    (sk : List UInt8) : Server × Except Fault (List UInt8) :=
  match prepLocXfer stream s pi.dstId with
  | (s', .error f) => (s', .error f)
  | (s', .ok ()) =>
      let iov := psi2iovec pi
      match writePagemapLoc autoDedup s'.locXfer.xfer iov flags with
      | .error f => (s', .error f)
      | .ok xfer =>
          let s'' := { s' with locXfer := ⟨s'.locXfer.id, xfer⟩ }
          if flags &&& pePresent = 0 then (s'', .ok sk)
          else addLoop kernel pipeSize (iov.len + 1) iov.len s'' sk

def pageServerCheckParent (s : Server) (dstId : ℕ) : Server × Except Fault Unit :=
  match decodePm dstId with
  | none => (s, .error .err)
  | some id =>
      let answer := leBytes 4 (if checkParentLocalXfer stream s.dir id then 1 else 0)
      ({ s with replies := s.replies ++ answer }, .ok ())

/-- One command of a receiving server. `PS_IOV_GET` is for a dump with lazy pages, which
receives nothing. -/
def serveCmd (pipeSize : ℕ) (s : Server) (pi : PageServerIov) (sk : List UInt8) :
    Server × Except Fault (List UInt8) :=
  let cmd := decodePsCmd pi.cmd
  if cmd = psIovOpen then
    let (s', ret) := pageServerOpen stream false s pi.dstId
    (s', ret.map (fun _ => sk))
  else if cmd = psIovOpen2 then
    let (s', ret) := pageServerOpen stream true s pi.dstId
    (s', ret.map (fun _ => sk))
  else if cmd = psIovParent then
    let (s', ret) := pageServerCheckParent stream s pi.dstId
    (s', ret.map (fun _ => sk))
  else if cmd = psIovAddF then
    pageServerAdd autoDedup stream kernel pipeSize s pi (decodePsFlags pi.cmd) sk
  else if cmd = psIovAdd then
    pageServerAdd autoDedup stream kernel pipeSize s pi pePresent sk
  else if cmd = psIovHole then
    pageServerAdd autoDedup stream kernel pipeSize s pi peParent sk
  else if cmd = psIovFlush ∨ cmd = psIovFlushNClose then
    ({ s with replies := s.replies ++ leBytes 4 0, flushed := true }, .ok sk)
  else (s, .error .err)

/-- The command loop of `page_server_serve`, until the client closes the socket. -/
def serveLoop (pipeSize : ℕ) : ℕ → Server → List UInt8 → Server × Except Fault Unit
  | 0, s, _ => (s, .error .hang)
  | fuel + 1, s, sk =>
      if sk = [] then (s, .ok ())
      else if sk.length < psiSize then (s, .error .err)
      else
        let (pi, rest) := recvPsi sk
        match serveCmd autoDedup stream kernel pipeSize { s with flushed := false } pi rest with
        | (s', .error f) => (s', .error f)
        | (s', .ok sk') =>
            if pi.cmd = psIovFlushNClose then (s', .ok ())
            else serveLoop pipeSize fuel s' sk'

/-- `page_server_serve` on everything the client sends before it closes the socket. -/
def pageServerServe (pipeSize : ℕ) (s : Server) (sk : List UInt8) : Server × Except Fault Unit :=
  let (s', ret) := serveLoop autoDedup stream kernel pipeSize (sk.length + 1) s sk
  let ret' : Except Fault Unit :=
    match ret with
    | .ok () => if s'.flushed then .ok () else .error .err
    | .error f => .error f
  (pageServerClose s', ret')

end Transfers

def startServer (dir : ImageDir) (calls : ℕ) : Server :=
  ⟨dir, noDst, ⟨(.pagemap, 0), ⟨0, false, [], [], []⟩⟩, [], false, calls⟩

end Criu.PageServer

import Criu.PageServer

/-!
A dump to a page server leaves the images of a local dump. The server, fed the stream of
the client, keeps step with a local dump that runs the same operations: it has the same
image open, with the same content, and has given the same answers. Splices of any size on
the way add up to the blocks the client wrote, and a failure stops both at the same block.
-/

namespace Criu.RemoteDump

open Wire Transfer Pagemap ReadCursor PageIo PipeBuffers PipeContents SnapshotChain Dedup List
  ImageWriter PageServer

variable {pipeSize : ℕ} {autoDedup stream : Bool} {cur : Option ImageId} {st : LocalDump}
  {s : Server}

open Delivery (Progress)

variable {id : ImageId} {iov : Iovec} {pipe : List UInt8}

def Sendable (id : ImageId) : Prop :=
  (id.1 = .pagemap ∨ id.1 = .shmemPagemap) ∧ id.2 < 2 ^ 56

structure BlockOk (iov : Iovec) (flags : ℕ) (pipe : List UInt8) : Prop where
  base_lt : iov.base < 2 ^ 64
  whole : WholePages iov
  pages_lt : iov.len / pageSize < 2 ^ 32
  flags_lt : flags < 2 ^ 16
  filled : flags &&& pePresent ≠ 0 → iov.len ≤ pipe.length

def Fits : XferOp → Prop
  | .openXfer id | .close id | .checkParent id => Sendable id
  | .write id iov flags pipe => Sendable id ∧ BlockOk iov flags pipe

def Sessions : Option ImageId → List XferOp → Prop
  | _, [] => True
  | cur, .openXfer id :: ops => cur = none ∧ Sessions (some id) ops
  | cur, .write id _ _ _ :: ops => cur = some id ∧ Sessions cur ops
  | cur, .close id :: ops => cur = some id ∧ Sessions none ops
  | cur, .checkParent _ :: ops => Sessions cur ops

def answerBytes : Answer → List UInt8
  | .hasParent b => [if b then 1 else 0]
  | .parentImage b => leBytes 4 (if b then 1 else 0)

theorem psiBytes_length (pi : PageServerIov) : (psiBytes pi).length = psiSize := by
  simp [psiBytes, psiSize]

theorem recvPsi_append (pi : PageServerIov) (rest : List UInt8) :
    recvPsi (psiBytes pi ++ rest) = (pi, rest) := by
  have h1 := takeField_append (show pi.cmd < 256 ^ 4 from pi.cmd_lt)
  have h2 := takeField_append (show pi.nrPages < 256 ^ 4 from pi.nrPages_lt)
  have h3 := takeField_append (show pi.vaddr < 256 ^ 8 from pi.vaddr_lt)
  have h4 := takeField_append (show pi.dstId < 256 ^ 8 from pi.dstId_lt)
  unfold recvPsi psiBytes
  simp only [append_assoc, h1, h2, h3, h4, psi, Nat.mod_eq_of_lt pi.cmd_lt,
    Nat.mod_eq_of_lt pi.nrPages_lt, Nat.mod_eq_of_lt pi.vaddr_lt, Nat.mod_eq_of_lt pi.dstId_lt]

variable {flags : ℕ} {x y : PageXfer}

/-- An id survives the packing, and is never taken for the mark of an idle server. -/
theorem decodePm_pack {id type : ℕ} (hid : id < 2 ^ 56) (htype : type < 3) :
    let d := id <<< psTypeBits % 2 ^ 64 ||| type
    d < 2 ^ 64 ∧ d &&& psTypeMask = type ∧ d >>> psTypeBits = id ∧ d ≠ noDst := by
  have hmod : id <<< psTypeBits % 2 ^ 64 = id <<< 8 := by
    rw [psTypeBits]
    exact Nat.mod_eq_of_lt (by omega)
  have hlt : type < 2 ^ 8 := by omega
  have hlow := pack_low id hlt
  rw [hmod]
  refine ⟨pack_lt hid hlt, hlow, pack_high id hlt, ?_⟩
  intro heq
  rw [heq, show noDst &&& (2 ^ 8 - 1) = 255 by decide] at hlow
  omega

def dstOf (id : ImageId) : ℕ := (encodePm id).toOption.getD 0

theorem encodePm_ok (h : Sendable id) :
    encodePm id = .ok (dstOf id) ∧ dstOf id < 2 ^ 64 ∧ decodePm (dstOf id) = some id ∧
      dstOf id ≠ noDst := by
  obtain ⟨type, nr⟩ := id
  obtain ⟨rfl | rfl, hnr⟩ := h
  · obtain ⟨hlt, hlow, hhigh, hne⟩ := decodePm_pack hnr (show psTypePid < 3 by decide)
    refine ⟨rfl, hlt, ?_, hne⟩
    change decodePm (nr <<< psTypeBits % 2 ^ 64 ||| psTypePid) = _
    rw [decodePm, hlow, hhigh]
    rfl
  · obtain ⟨hlt, hlow, hhigh, hne⟩ := decodePm_pack hnr (show psTypeShmem < 3 by decide)
    refine ⟨rfl, hlt, ?_, hne⟩
    change decodePm (nr <<< psTypeBits % 2 ^ 64 ||| psTypeShmem) = _
    rw [decodePm, hlow, hhigh]
    rfl

section Blocks

variable {kernel : ℕ → ℕ → ℕ}

/-- Splicing from a pipe that holds enough moves the head of the pipe into the image. -/
theorem writePagesLoc_pipe (hk : Progress kernel) (xfer : PageXfer) (calls : ℕ)
    {len : ℕ} (hpos : 0 < len) (hlen : len ≤ pipe.length) :
    ∃ st, writePagesLoc kernel ⟨xfer, [], fun _ => pipe, calls⟩ 0 len = .ok st ∧
      st.xfer = { xfer with pi := xfer.pi ++ pipe.take len } := by
  obtain ⟨calls', hrun⟩ := transfer_eq hk len calls pipe xfer.pi len hpos hlen (le_refl _)
  unfold writePagesLoc
  simp only [hrun]
  exact ⟨_, rfl, rfl⟩

def blockData (iov : Iovec) (flags : ℕ) (pipe : List UInt8) : List UInt8 :=
  if flags &&& pePresent = 0 then [] else pipe.take iov.len

/-- The part of `write_pagemap_loc` that works on the parent. -/
def checkedParent (autoDedup : Bool) (parent : List PageRead) (iov : Iovec) (flags : ℕ) :
    Except Fault (List PageRead) :=
  let pe : PagemapEntry := ⟨iov.base, iov.len / pageSize % 2 ^ 32, flags⟩
  if pagemapPresent pe then
    if autoDedup then dedupOneIovec parent.length parent pe.vaddr (pagemapLen pe) else .ok parent
  else if pagemapInParent pe then
    if parent.isEmpty then .ok []
    else checkPageholeInParent (holeFuel parent) parent iov.base (iov.base + iov.len)
  else .ok parent

def blockWritten (xfer : PageXfer) (parent : List PageRead) (iov : Iovec) (flags : ℕ)
    (data : List UInt8) : PageXfer :=
  { xfer with
    parent := parent
    pmi := xfer.pmi ++ [⟨iov.base, iov.len / pageSize % 2 ^ 32, flags⟩]
    pi := xfer.pi ++ data }

theorem writePagemapLoc_checked (xfer : PageXfer) (iov : Iovec) (flags : ℕ) :
    writePagemapLoc autoDedup xfer iov flags = (checkedParent autoDedup xfer.parent iov flags).map
        (fun parent => blockWritten xfer parent iov flags []) := by
  unfold writePagemapLoc
  dsimp only
  split
  · next f hc =>
    rw [show checkedParent autoDedup xfer.parent iov flags = .error f from hc]
    rfl
  · next parent hc =>
    rw [show checkedParent autoDedup xfer.parent iov flags = .ok parent from hc]
    simp [Except.map, blockWritten]

theorem writeBlock_eq (autoDedup : Bool) (hk : Progress kernel) (xfer : PageXfer)
    (h : BlockOk iov flags pipe) (calls : ℕ) :
    ∃ calls', writeBlock autoDedup kernel xfer iov flags pipe calls =
      match checkedParent autoDedup xfer.parent iov flags with
      | .error f => (xfer, calls, .error f)
      | .ok parent =>
        (blockWritten xfer parent iov flags (blockData iov flags pipe), calls', .ok ()) := by
  unfold writeBlock
  rw [writePagemapLoc_checked]
  cases checkedParent autoDedup xfer.parent iov flags with
  | error f => exact ⟨calls, rfl⟩
  | ok parent =>
    simp only [Except.map, blockData]
    by_cases hpres : flags &&& pePresent = 0
    · exact ⟨calls, by simp only [if_pos hpres]⟩
    obtain ⟨st, hrun, hst⟩ := writePagesLoc_pipe hk (blockWritten xfer parent iov flags []) calls
      h.whole.1 (h.filled hpres)
    simp only [if_neg hpres, hrun]
    rw [hst]
    simp [blockWritten]

/-- Whatever the server's splices move at a time, the loop takes exactly the pages of the
block off the stream and appends them to the image. -/
theorem addLoop_eq (hk : Progress kernel) (hp : 0 < pipeSize)
    (fuel : ℕ) (s : Server) (data rest : List UInt8) (hfuel : data.length < fuel) :
    ∃ calls, addLoop kernel pipeSize fuel data.length s (data ++ rest) = ({ s with
        locXfer := ⟨s.locXfer.id, { s.locXfer.xfer with pi := s.locXfer.xfer.pi ++ data }⟩
        calls := calls }, .ok rest) := by
  induction fuel generalizing s data with
  | zero => omega
  | succ fuel ih =>
    unfold addLoop
    by_cases hnil : data.length = 0
    · have hdata : data = [] := length_eq_zero_iff.mp hnil
      refine ⟨s.calls, ?_⟩
      rw [hdata]
      simp
    have hstep := hk s.calls (min data.length pipeSize) (by omega)
    rw [if_neg hnil]
    simp only [length_append]
    generalize hn : min (kernel s.calls (min data.length pipeSize))
      (min (min data.length pipeSize) (data.length + rest.length)) = n
    have hn0 : n ≠ 0 := by omega
    have hle : n ≤ data.length := by omega
    have htake : (data ++ rest).take n = data.take n := take_append_of_le_length hle
    have hdrop : (data ++ rest).drop n = data.drop n ++ rest := drop_append_of_le_length hle
    have hlen : (data.take n).length = n := by rw [length_take]; omega
    obtain ⟨st, hrun, hst⟩ := writePagesLoc_pipe hk s.locXfer.xfer (s.calls + 1)
      (by omega) (le_of_eq hlen.symm)
    rw [take_of_length_le (le_of_eq hlen)] at hst
    simp only [if_neg hn0, htake, hrun, hst, hdrop]
    obtain ⟨calls, hih⟩ := ih
      { s with
        locXfer := ⟨s.locXfer.id, { s.locXfer.xfer with pi := s.locXfer.xfer.pi ++ data.take n }⟩
        calls := st.calls } (data.drop n) (by rw [length_drop]; omega)
    refine ⟨calls, ?_⟩
    rw [length_drop] at hih
    simp only [hih, append_assoc, take_append_drop]

/-- The server does with a block what `writeBlock` does, and leaves the rest of the stream. -/
theorem pageServerAdd_eq (autoDedup stream : Bool) (hk : Progress kernel)
    (hp : 0 < pipeSize) (s : Server) (h : BlockOk iov flags pipe)
    (cmd : ℕ) (hdst : s.dstId < 2 ^ 64) (rest : List UInt8) :
    ∃ calls, pageServerAdd autoDedup stream kernel pipeSize s
        (psi cmd (iov.len / pageSize) iov.base s.dstId) flags (blockData iov flags pipe ++ rest) =
      match checkedParent autoDedup s.locXfer.xfer.parent iov flags with
      | .error f => (s, .error f)
      | .ok parent => ({ s with
          locXfer := ⟨s.locXfer.id,
            blockWritten s.locXfer.xfer parent iov flags (blockData iov flags pipe)⟩
          calls := calls }, .ok rest) := by
  have hprep : prepLocXfer stream s (psi cmd (iov.len / pageSize) iov.base s.dstId).dstId =
      (s, .ok ()) := by
    exact if_neg (not_not.mpr (Nat.mod_eq_of_lt hdst).symm)
  have hiov : psi2iovec (psi cmd (iov.len / pageSize) iov.base s.dstId) = iov := by
    simp only [psi2iovec, psi, Nat.mod_eq_of_lt h.base_lt, Nat.mod_eq_of_lt h.pages_lt,
      Nat.div_mul_cancel h.whole.2]
  unfold pageServerAdd
  simp only [hprep, hiov, writePagemapLoc_checked]
  cases checkedParent autoDedup s.locXfer.xfer.parent iov flags with
  | error f => exact ⟨s.calls, rfl⟩
  | ok parent =>
    simp only [Except.map]
    by_cases hpres : flags &&& pePresent = 0
    · exact ⟨s.calls, by simp [hpres, blockData]⟩
    have hlen : (blockData iov flags pipe).length = iov.len := by
      rw [blockData, if_neg hpres, length_take]
      exact Nat.min_eq_left (h.filled hpres)
    obtain ⟨calls, hrun⟩ := addLoop_eq hk hp (iov.len + 1)
      { s with locXfer := ⟨s.locXfer.id, blockWritten s.locXfer.xfer parent iov flags []⟩ }
      (blockData iov flags pipe) rest (by omega)
    rw [hlen] at hrun
    rw [if_neg hpres, hrun]
    simp [blockWritten]

end Blocks

def Like (x y : PageXfer) : Prop := x.parent = y.parent ∧ x.pmi = y.pmi ∧ x.pi = y.pi

theorem Like.blockWritten (h : Like x y) (parent : List PageRead) (iov : Iovec)
    (flags : ℕ) (data : List UInt8) :
    Like (blockWritten x parent iov flags data) (blockWritten y parent iov flags data) := by
  obtain ⟨_, hpmi, hpi⟩ := h
  exact ⟨rfl, by simp [RemoteDump.blockWritten, hpmi], by simp [RemoteDump.blockWritten, hpi]⟩

structure Busy (id : ImageId) (st : LocalDump) (s : Server) : Prop where
  opened : ∃ xfer, st.opened = [⟨id, xfer⟩] ∧ Like xfer s.locXfer.xfer
  locId : s.locXfer.id = id
  dst : s.dstId = dstOf id
  dst_lt : s.dstId < 2 ^ 64
  dst_ne : s.dstId ≠ noDst
  dir : st.dir = s.dir

structure Idle (st : LocalDump) (s : Server) : Prop where
  opened : st.opened = []
  dir : st.dir = (pageServerClose s).dir

def Agree : Option ImageId → LocalDump → Server → Prop
  | none => Idle
  | some id => Busy id

/-- The answers and the flush mark play no role. -/
theorem Agree.congr (h : Agree cur st s)
    (answers : List Answer) (replies : List UInt8) :
    Agree cur { st with answers := answers } { s with flushed := false, replies := replies } := by
  cases cur with
  | none =>
    obtain ⟨hopened, hdir⟩ := h
    refine ⟨hopened, hdir.trans ?_⟩
    simp only [pageServerClose]
    split <;> rfl
  | some id =>
    obtain ⟨hopened, hid, hdst, hlt, hne, hdir⟩ := h
    exact ⟨hopened, hid, hdst, hlt, hne, hdir⟩

/-- The server keeps step with the local dump. A parent that the server has open is a parent
in the image directory. -/
structure Follows (cur : Option ImageId) (st : LocalDump) (s : Server) : Prop where
  agree : Agree cur st s
  replies : s.replies = st.answers.flatMap answerBytes
  known : s.dstId ≠ noDst → s.locXfer.xfer.parent ≠ [] → s.dir.parents s.locXfer.id ≠ []

namespace Follows

/-- Closing what is open makes the directories equal. -/
theorem closed (h : Follows cur st s) :
    st.opened.foldl closePageXfer st.dir = (pageServerClose s).dir := by
  cases cur with
  | none =>
    rw [h.agree.opened]
    exact h.agree.dir
  | some id =>
    obtain ⟨⟨xfer, hopened, hlike⟩, hid, -, -, hne, hdir⟩ := h.agree
    rw [hopened, hdir, pageServerClose, if_pos hne]
    obtain ⟨hparent, hpmi, hpi⟩ := hlike
    simp only [foldl_cons, foldl_nil, closePageXfer, hparent, hpmi, hpi, hid]

/-- Closing an image does not decide whether an image has a parent. -/
theorem parents_isEmpty (h : Follows cur st s) (id : ImageId) :
    (st.dir.parents id).isEmpty = (s.dir.parents id).isEmpty := by
  cases cur with
  | some id => rw [h.agree.dir]
  | none =>
    rw [h.agree.dir, pageServerClose]
    split
    · rename_i hne
      unfold closePageXfer
      by_cases hempty : s.locXfer.xfer.parent.isEmpty = true
      · simp only [if_pos hempty]
      have hpar : s.locXfer.xfer.parent ≠ [] := by simpa using hempty
      simp only [if_neg hempty]
      by_cases hid : id = s.locXfer.id
      · subst hid
        have hdir := h.known hne hpar
        rw [Function.update_self, isEmpty_map, isEmpty_eq_false_iff.mpr hpar,
          isEmpty_eq_false_iff.mpr hdir]
      · rw [Function.update_of_ne hid]
    · rfl

end Follows

section Steps

variable {kernelL kernelC kernelS : ℕ → ℕ → ℕ}

/-- The command loop on a stream that starts with a header. -/
theorem serveLoop_psi (fuel : ℕ) (s : Server) (pi : PageServerIov) (rest : List UInt8) :
    serveLoop autoDedup stream kernelS pipeSize (fuel + 1) s (psiBytes pi ++ rest) =
      match serveCmd autoDedup stream kernelS pipeSize { s with flushed := false } pi rest with
      | (s', .error f) => (s', .error f)
      | (s', .ok sk) =>
        if pi.cmd = psIovFlushNClose then (s', .ok ())
        else serveLoop autoDedup stream kernelS pipeSize fuel s' sk := by
  have hlen : (psiBytes pi ++ rest).length = psiSize + rest.length := by
    rw [length_append, psiBytes_length]
  have hne : psiBytes pi ++ rest ≠ [] := by
    intro hnil
    rw [hnil, psiSize, length_nil] at hlen
    omega
  rw [serveLoop, if_neg hne, if_neg (by omega)]
  cases hcmd : serveCmd autoDedup stream kernelS pipeSize { s with flushed := false } pi rest with
  | mk s' ret => cases ret <;> simp only [recvPsi_append, hcmd]

def blockPsi (id : ImageId) (iov : Iovec) (flags : ℕ) : PageServerIov :=
  psi (encodePsCmd psIovAddF flags) (iov.len / pageSize) iov.base (dstOf id)

def opBytes : XferOp → List UInt8
  | .openXfer id => psiBytes (psi psIovOpen2 0 0 (dstOf id)) ++ []
  | .write id iov flags pipe => psiBytes (blockPsi id iov flags) ++ blockData iov flags pipe
  | .close _ => []
  | .checkParent id => psiBytes (psi psIovParent 0 0 (dstOf id)) ++ []

variable {pi : PageServerIov} {op : XferOp}

/-- Whatever the client's splices move at a time, it sends the bytes of the operation. -/
theorem remoteOp_sends (hk : Progress kernelC) (hop : Fits op) (c : Client) :
    ∃ c', remoteOp kernelC op c = .ok c' ∧ c'.sk = c.sk ++ opBytes op := by
  cases op with
  | openXfer id | checkParent id =>
    obtain ⟨henc, -⟩ := encodePm_ok hop
    simp only [remoteOp, henc]
    exact ⟨_, rfl, rfl⟩
  | close id => exact ⟨c, rfl, by simp [opBytes]⟩
  | write id iov flags pipe =>
    obtain ⟨hid, hb⟩ := hop
    obtain ⟨henc, -⟩ := encodePm_ok hid
    have hpos : iov.len ≠ 0 := Nat.pos_iff_ne_zero.mp hb.whole.1
    simp only [remoteOp, henc, opBytes, blockData]
    by_cases hpres : flags &&& pePresent = 0
    · rw [if_pos hpres, if_pos hpres]
      exact ⟨_, rfl, by simp [writePagemapToServer, sendPsi, blockPsi]⟩
    obtain ⟨calls, hrun⟩ := transfer_eq hk iov.len c.calls pipe
      (c.sk ++ psiBytes (blockPsi id iov flags)) iov.len hb.whole.1 (hb.filled hpres) (le_refl _)
    have hsent : writePagemapToServer c iov flags (dstOf id) =
        ⟨c.sk ++ psiBytes (blockPsi id iov flags), c.calls⟩ := rfl
    rw [if_neg hpres, if_neg hpres, writePagesToServer, if_neg hpos, hsent]
    simp only [hrun]
    exact ⟨_, rfl, by rw [append_assoc]⟩

def flushPsi (psSocket : Bool) : PageServerIov :=
  psi (if psSocket then psIovFlushNClose else psIovFlush) 0 0 0

theorem remoteDump_sends (hk : Progress kernelC) (psSocket : Bool)
    (ops : List XferOp) (hops : ∀ op ∈ ops, Fits op) (c : Client) :
    ∃ c', remoteDump kernelC psSocket ops c = .ok c' ∧
      c'.sk = c.sk ++ (ops.flatMap opBytes ++ psiBytes (flushPsi psSocket)) := by
  induction ops generalizing c with
  | nil => exact ⟨_, rfl, rfl⟩
  | cons op ops ih =>
    obtain ⟨hop, hops⟩ := forall_mem_cons.mp hops
    obtain ⟨c₁, hrun₁, hsk₁⟩ := remoteOp_sends hk hop c
    obtain ⟨c₂, hrun₂, hsk₂⟩ := ih hops c₁
    refine ⟨c₂, ?_, ?_⟩
    · rw [remoteDump, hrun₁]
      exact hrun₂
    · rw [hsk₂, hsk₁]
      simp

def Handled (autoDedup stream : Bool) (kernelS : ℕ → ℕ → ℕ) (pipeSize : ℕ) (s : Server)
    (bytes : List UInt8) (cur cur' : Option ImageId) (r : LocalDump × Except Fault Unit) : Prop :=
  ∀ rest fuel, (bytes ++ rest).length < fuel → ∃ s' fuel', rest.length < fuel' ∧
    match r.2 with
    | .ok () => Follows cur' r.1 s' ∧
        serveLoop autoDedup stream kernelS pipeSize fuel s (bytes ++ rest) =
          serveLoop autoDedup stream kernelS pipeSize fuel' s' rest
    | .error f => Follows cur r.1 s' ∧
        serveLoop autoDedup stream kernelS pipeSize fuel s (bytes ++ rest) = (s', .error f)

/-- It is enough to look at the command that the header holds. -/
theorem handled_cmd {data : List UInt8} {cur' : Option ImageId} {r : LocalDump × Except Fault Unit}
    (hcmd : pi.cmd ≠ psIovFlushNClose) (hrun : ∀ rest, ∃ s',
      match r.2 with
      | .ok () => Follows cur' r.1 s' ∧ serveCmd autoDedup stream kernelS pipeSize
          { s with flushed := false } pi (data ++ rest) = (s', .ok rest)
      | .error f => Follows cur r.1 s' ∧ serveCmd autoDedup stream kernelS pipeSize
          { s with flushed := false } pi (data ++ rest) = (s', .error f)) :
    Handled autoDedup stream kernelS pipeSize s (psiBytes pi ++ data) cur cur' r := by
  intro rest fuel hfuel
  obtain ⟨fuel, rfl⟩ : ∃ n, fuel = n + 1 := ⟨fuel - 1, by omega⟩
  obtain ⟨s', hs'⟩ := hrun rest
  have hlen := psiBytes_length pi
  simp only [length_append, hlen, psiSize] at hfuel
  refine ⟨s', fuel, by omega, ?_⟩
  rw [append_assoc, serveLoop_psi]
  obtain ⟨st', ret⟩ := r
  cases ret with
  | error f =>
    obtain ⟨hfollows, hserve⟩ := hs'
    exact ⟨hfollows, by rw [hserve]⟩
  | ok _ =>
    obtain ⟨hfollows, hserve⟩ := hs'
    refine ⟨hfollows, ?_⟩
    rw [hserve]
    exact if_neg hcmd

theorem openParent_known {dir : ImageDir} (h : openParent stream dir id ≠ []) :
    dir.parents id ≠ [] := by
  intro hnil
  apply h
  unfold openParent
  rw [hnil]
  split
  · rfl
  · split <;> rfl

theorem pageServerClose_replies (s : Server) : (pageServerClose s).replies = s.replies := by
  unfold pageServerClose
  split <;> rfl

theorem open_handled (hid : Sendable id) (h : Follows none st s) :
    Handled autoDedup stream kernelS pipeSize s (opBytes (.openXfer id)) none (some id)
      (localOp autoDedup stream kernelL (.openXfer id) st) := by
  obtain ⟨-, hlt, hdec, hne⟩ := encodePm_ok hid
  obtain ⟨hopened, hdir⟩ := h.agree.congr st.answers s.replies
  have hreplies := (pageServerClose_replies { s with flushed := false }).trans h.replies
  dsimp only at hopened hdir
  apply handled_cmd (show psIovOpen2 % 2 ^ 32 ≠ psIovFlushNClose by decide)
  intro rest
  have hcmd : decodePsCmd (psi psIovOpen2 0 0 (dstOf id)).cmd = psIovOpen2 :=
    show decodePsCmd (psIovOpen2 % 2 ^ 32) = psIovOpen2 by decide
  have hdst : (psi psIovOpen2 0 0 (dstOf id)).dstId = dstOf id := Nat.mod_eq_of_lt hlt
  unfold serveCmd pageServerOpen
  simp only [hcmd, hdst, hdec]
  refine ⟨_, ⟨⟨⟨{ newXfer with parent := openParent stream st.dir id }, ?_⟩, rfl, rfl, hlt,
    hne, ?_⟩, ?_, ?_⟩, rfl⟩
  · constructor
    · simp only [localOp, openPageLocalXfer, hopened, newXfer]
    · exact ⟨congrArg (openParent stream · id) hdir, rfl, rfl⟩
  · simp only [localOp, openPageLocalXfer, hdir]
  · simp only [localOp, openPageLocalXfer, hreplies, ← hdir]
    by_cases hpar : (openParent stream st.dir id).isEmpty = true <;> simp [answerBytes]
  · intro _ hpar
    exact openParent_known hpar

theorem checkParent_handled (hid : Sendable id) (h : Follows cur st s) :
    Handled autoDedup stream kernelS pipeSize s (opBytes (.checkParent id)) cur cur
      (localOp autoDedup stream kernelL (.checkParent id) st) := by
  obtain ⟨-, hlt, hdec, -⟩ := encodePm_ok hid
  apply handled_cmd (show psIovParent % 2 ^ 32 ≠ psIovFlushNClose by decide)
  intro rest
  have hcmd : decodePsCmd (psi psIovParent 0 0 (dstOf id)).cmd = psIovParent :=
    show decodePsCmd (psIovParent % 2 ^ 32) = psIovParent by decide
  have hdst : (psi psIovParent 0 0 (dstOf id)).dstId = dstOf id := Nat.mod_eq_of_lt hlt
  have hsame := h.parents_isEmpty id
  obtain ⟨hagree, hreplies, hknown⟩ := h
  refine ⟨{ s with
    flushed := false
    replies := s.replies ++
      leBytes 4 (if checkParentLocalXfer stream s.dir id then 1 else 0) }, ?_, ?_⟩
  · refine ⟨hagree.congr _ _, ?_, hknown⟩
    simp only [localOp, hreplies, checkParentLocalXfer, hsame]
    simp [answerBytes]
  · unfold serveCmd pageServerCheckParent
    simp only [hcmd, hdst, hdec]
    rfl

/-- Closing sends nothing; the server closes the image when it opens the next one. -/
theorem close_handled (h : Follows (some id) st s) :
    Handled autoDedup stream kernelS pipeSize s (opBytes (.close id)) (some id) none
      (localOp autoDedup stream kernelL (.close id) st) := by
  intro rest fuel hfuel
  have hclosed := h.closed
  obtain ⟨⟨⟨xfer, hopened, -⟩, -⟩, hreplies, hknown⟩ := h
  have hrun : localOp autoDedup stream kernelL (.close id) st =
      ({ st with dir := st.opened.foldl closePageXfer st.dir, opened := [] }, .ok ()) := by
    simp [localOp, hopened]
  rw [hrun]
  exact ⟨s, fuel, hfuel, ⟨⟨rfl, hclosed⟩, hreplies, hknown⟩, rfl⟩

/-- The header of a block decodes to the command and the flags it was made of. -/
theorem blockPsi_decodes (h : flags < 2 ^ 16) (id : ImageId) (iov : Iovec) :
    decodePsCmd (blockPsi id iov flags).cmd = psIovAddF ∧
    decodePsFlags (blockPsi id iov flags).cmd = flags ∧
    (blockPsi id iov flags).cmd ≠ psIovFlushNClose := by
  have hadd : psIovAddF < 2 ^ 16 := by decide
  have hcode : (blockPsi id iov flags).cmd = flags <<< psCmdBits ||| psIovAddF :=
    (Nat.mod_mod _ _).trans (Nat.mod_eq_of_lt (pack_lt h hadd))
  have hcmd : decodePsCmd (flags <<< psCmdBits ||| psIovAddF) = psIovAddF := pack_low flags hadd
  rw [hcode]
  refine ⟨hcmd, pack_high flags hadd, ?_⟩
  intro hclose
  rw [hclose] at hcmd
  exact absurd hcmd (by decide)

theorem localOp_write (hk : Progress kernelL)
    (hb : BlockOk iov flags pipe) {xfer : PageXfer} (hopened : st.opened = [⟨id, xfer⟩]) :
    ∃ calls, localOp autoDedup stream kernelL (.write id iov flags pipe) st =
      match checkedParent autoDedup xfer.parent iov flags with
      | .error f => ({ st with opened := [⟨id, xfer⟩] }, .error f)
      | .ok parent => ({ st with
          opened := [⟨id, blockWritten xfer parent iov flags (blockData iov flags pipe)⟩]
          calls := calls }, .ok ()) := by
  obtain ⟨calls, hwrite⟩ := writeBlock_eq autoDedup hk xfer hb st.calls
  simp only [localOp, hopened, find?_cons, decide_true, hwrite]
  cases checkedParent autoDedup xfer.parent iov flags <;> simp

/-- The entry and the pages of a block arrive at the image as the local dump writes them. -/
theorem write_handled (hkL : Progress kernelL) (hkS : Progress kernelS)
    (hp : 0 < pipeSize) (hb : BlockOk iov flags pipe) (h : Follows (some id) st s) :
    Handled autoDedup stream kernelS pipeSize s (opBytes (.write id iov flags pipe)) (some id)
      (some id) (localOp autoDedup stream kernelL (.write id iov flags pipe) st) := by
  obtain ⟨⟨⟨xfer, hopened, hlike⟩, hid, hdst, hlt, hne, hdir⟩, hreplies, hknown⟩ := h
  obtain ⟨hcmd, hflags, hclose⟩ := blockPsi_decodes hb.flags_lt id iov
  obtain ⟨calls, hlocal⟩ := localOp_write hkL hb hopened
  rw [hlocal, hlike.1]
  apply handled_cmd hclose
  intro rest
  obtain ⟨calls', hadd⟩ := pageServerAdd_eq autoDedup stream hkS hp { s with flushed := false } hb
    (encodePsCmd psIovAddF flags) hlt rest
  unfold serveCmd
  simp only [hcmd, hflags]
  rw [blockPsi, ← hdst]
  cases hc : checkedParent autoDedup s.locXfer.xfer.parent iov flags with
  | error f =>
    simp only [hc] at hadd
    exact ⟨{ s with flushed := false }, ⟨⟨⟨xfer, rfl, hlike⟩, hid, hdst, hlt, hne, hdir⟩,
      hreplies, hknown⟩, hadd⟩
  | ok parent =>
    simp only [hc] at hadd
    refine ⟨_, ?_, hadd⟩
    refine ⟨⟨⟨_, rfl, hlike.blockWritten _ _ _ _⟩, hid, hdst, hlt, hne, hdir⟩, hreplies, ?_⟩
    intro hopen hpar
    refine hknown hopen ?_
    intro hnil
    simp [hnil, checkedParent, dedupOneIovec] at hc
    exact hpar hc

/-- One operation: the server keeps step on its bytes. -/
theorem op_handled (autoDedup stream : Bool) (hkL : Progress kernelL)
    (hkS : Progress kernelS) (hp : 0 < pipeSize) {ops : List XferOp}
    (hop : Fits op) (hseq : Sessions cur (op :: ops)) (h : Follows cur st s) :
    ∃ cur', Sessions cur' ops ∧ Handled autoDedup stream kernelS pipeSize s (opBytes op) cur cur'
      (localOp autoDedup stream kernelL op st) := by
  cases op with
  | openXfer id =>
    obtain ⟨rfl, hrest⟩ := hseq
    exact ⟨some id, hrest, open_handled hop h⟩
  | write id iov flags pipe =>
    obtain ⟨rfl, hrest⟩ := hseq
    exact ⟨some id, hrest, write_handled hkL hkS hp hop.2 h⟩
  | close id =>
    obtain ⟨rfl, hrest⟩ := hseq
    exact ⟨none, hrest, close_handled h⟩
  | checkParent id => exact ⟨cur, hseq, checkParent_handled hop h⟩

/-- The server ends like the local dump: the same directory, the same result, the same
answers, and after a success the answer to the final flush. -/
structure EndsLike (r : Server × Except Fault Unit) (l : LocalDump × Except Fault Unit) : Prop where
  dir : (pageServerClose r.1).dir = l.1.dir
  ret : r.2 = l.2
  flushed : l.2 = .ok () → r.1.flushed = true
  replies : r.1.replies = l.1.answers.flatMap answerBytes ++
    (match l.2 with | .ok () => leBytes 4 0 | .error _ => [])

theorem flush_ends (psSocket : Bool) (h : Follows cur st s) (fuel : ℕ) :
    EndsLike (serveLoop autoDedup stream kernelS pipeSize (fuel + 2) s
        (psiBytes (flushPsi psSocket)))
      (localDump autoDedup stream kernelL [] st) := by
  have hrun : serveLoop autoDedup stream kernelS pipeSize (fuel + 2) s
      (psiBytes (flushPsi psSocket)) =
        ({ s with flushed := true, replies := s.replies ++ leBytes 4 0 }, .ok ()) := by
    cases psSocket <;> rfl
  have hclosed := h.closed
  rw [hrun]
  refine ⟨?_, rfl, fun _ => rfl, ?_⟩
  · simp only [localDump, hclosed, pageServerClose]
    split <;> rfl
  · simp only [localDump, h.replies]

/-- A whole dump: its stream takes the server to where the local dump ends. -/
theorem dump_ends (hkL : Progress kernelL) (hkS : Progress kernelS)
    (hp : 0 < pipeSize) (psSocket : Bool) (ops : List XferOp) (hops : ∀ op ∈ ops, Fits op) :
    ∀ cur st s fuel, Sessions cur ops → Follows cur st s →
      (ops.flatMap opBytes ++ psiBytes (flushPsi psSocket)).length < fuel →
      EndsLike (serveLoop autoDedup stream kernelS pipeSize fuel s
          (ops.flatMap opBytes ++ psiBytes (flushPsi psSocket)))
        (localDump autoDedup stream kernelL ops st) := by
  induction ops with
  | nil =>
    intro cur st s fuel _ h hfuel
    rw [flatMap_nil, nil_append] at hfuel
    rw [psiBytes_length, psiSize] at hfuel
    obtain ⟨n, rfl⟩ : ∃ n, fuel = n + 2 := ⟨fuel - 2, by omega⟩
    exact flush_ends psSocket h n
  | cons op ops ih =>
    intro cur st s fuel hseq h hfuel
    obtain ⟨hop, hops⟩ := forall_mem_cons.mp hops
    obtain ⟨cur', hseq', hrun⟩ := op_handled autoDedup stream hkL hkS hp hop hseq h
    rw [flatMap_cons, append_assoc] at hfuel ⊢
    obtain ⟨s', fuel', hfuel', hout⟩ := hrun _ fuel hfuel
    rw [localDump]
    generalize localOp autoDedup stream kernelL op st = r at hout
    obtain ⟨st', f | _⟩ := r
    · obtain ⟨hfollows, hserve⟩ := hout
      rw [hserve]
      have hclosed := hfollows.closed
      refine ⟨hclosed.symm, rfl, ?_, ?_⟩
      · intro hok
        exact absurd hok (by simp)
      · simp only [hfollows.replies, append_nil]
    · obtain ⟨hfollows, hserve⟩ := hout
      rw [hserve]
      exact ih hops cur' st' s' fuel' hseq' hfollows hfuel'

theorem pageServerServe_ends {sk : List UInt8} {l : LocalDump × Except Fault Unit}
    (h : EndsLike (serveLoop autoDedup stream kernelS pipeSize (sk.length + 1) s sk) l) :
    let r := pageServerServe autoDedup stream kernelS pipeSize s sk
    r.1.dir = l.1.dir ∧ r.2 = l.2 ∧ r.1.replies = l.1.answers.flatMap answerBytes ++
      (match l.2 with | .ok () => leBytes 4 0 | .error _ => []) := by
  unfold pageServerServe
  generalize serveLoop autoDedup stream kernelS pipeSize (sk.length + 1) s sk = r at h
  obtain ⟨s', ret⟩ := r
  obtain ⟨st, ret'⟩ := l
  obtain ⟨hdir, rfl, hflushed, hreplies⟩ := h
  refine ⟨hdir, ?_, (pageServerClose_replies s').trans hreplies⟩
  cases ret with
  | error f => rfl
  | ok _ => exact if_pos (hflushed rfl)

end Steps

/-- A dump that opens, writes and closes one image after the other, in blocks of fewer than
2^32 pages, leaves the same image directory on the page server as it leaves locally. It
succeeds or fails like the local dump, and gets the same answers about parent images. -/
theorem remote_dump_eq_local {kernelL kernelC kernelS : ℕ → ℕ → ℕ}
    (hkL : ∀ k n, 0 < n → 0 < kernelL k n) (hkC : ∀ k n, 0 < n → 0 < kernelC k n)
    (hkS : ∀ k n, 0 < n → 0 < kernelS k n) {pipeSize : ℕ} (hp : 0 < pipeSize)
    (autoDedup stream psSocket : Bool) (dir : ImageDir) (ops : List XferOp)
    (hseq : Sessions none ops) (hops : ∀ op ∈ ops, Fits op) :
    ∃ c, remoteDump kernelC psSocket ops ⟨[], 0⟩ = .ok c ∧
      let l := localDump autoDedup stream kernelL ops ⟨dir, [], [], 0⟩
      let r := pageServerServe autoDedup stream kernelS pipeSize (startServer dir 0) c.sk
      r.1.dir = l.1.dir ∧ r.2 = l.2 ∧ r.1.replies = l.1.answers.flatMap answerBytes ++
        (match l.2 with | .ok () => leBytes 4 0 | .error _ => []) := by
  obtain ⟨c, hsend, hsk⟩ := remoteDump_sends hkC psSocket ops hops ⟨[], 0⟩
  refine ⟨c, hsend, pageServerServe_ends ?_⟩
  rw [hsk]
  exact dump_ends hkL hkS hp psSocket ops hops none _ _ _ hseq
    ⟨⟨rfl, rfl⟩, rfl, fun hne => absurd rfl hne⟩ (Nat.lt_succ_self _)

def taskOps : List XferOp :=
  [.checkParent (.pagemap, 7), .openXfer (.pagemap, 7),
    .write (.pagemap, 7) ⟨4096, 4096⟩ pePresent (List.replicate 4096 5),
    .write (.pagemap, 7) ⟨8192, 4096⟩ peParent [], .close (.pagemap, 7)]

def pageDir (id : ImageId) (addr : ℕ) : ImageDir where
  images := fun _ => none
  parents := fun i => if i = id then [([⟨addr, 1, pePresent⟩], ⟨fun _ => 0, 4096⟩)] else []

theorem remote_dump_page_and_hole :
    ∃ c, remoteDump (fun _ n => n / 2 + 1) false taskOps ⟨[], 0⟩ = .ok c ∧
      let l := localDump true false (fun _ n => n) taskOps ⟨pageDir (.pagemap, 7) 8192, [], [], 0⟩
      let r := pageServerServe true false (fun _ _ => 1) 65536
        (startServer (pageDir (.pagemap, 7) 8192) 0) c.sk
      r.1.dir = l.1.dir ∧ r.2 = l.2 ∧ r.1.replies = l.1.answers.flatMap answerBytes ++
        (match l.2 with | .ok () => leBytes 4 0 | .error _ => []) := by
  have hid : Sendable (.pagemap, 7) := ⟨.inl rfl, by decide⟩
  refine remote_dump_eq_local (fun _ _ h => h) (fun _ n _ => Nat.succ_pos _)
    (fun _ _ _ => Nat.one_pos) (by decide) true false false _ taskOps ?_ ?_
  · exact ⟨rfl, rfl, rfl, rfl, trivial⟩
  intro op hop
  simp only [taskOps, mem_cons, not_mem_nil, or_false] at hop
  rcases hop with rfl | rfl | rfl | rfl | rfl
  · exact hid
  · exact hid
  · refine ⟨hid, by decide, ⟨by decide, by decide⟩, by decide, by decide, ?_⟩
    intro _
    rw [length_replicate]
  · exact ⟨hid, by decide, ⟨by decide, by decide⟩, by decide, by decide, fun h => absurd rfl h⟩
  · exact hid

def hugeHoleOps : List XferOp :=
  [.openXfer (.pagemap, 7), .write (.pagemap, 7) ⟨8192, 2 ^ 44 + 4096⟩ peParent [],
    .close (.pagemap, 7)]

def twoAtOnceOps : List XferOp :=
  [.openXfer (.shmemPagemap, 1), .openXfer (.shmemPagemap, 2),
    .write (.shmemPagemap, 1) ⟨0, 4096⟩ peParent [],
    .write (.shmemPagemap, 2) ⟨0, 4096⟩ peParent [],
    .write (.shmemPagemap, 1) ⟨4096, 4096⟩ peParent [],
    .close (.shmemPagemap, 1), .close (.shmemPagemap, 2)]

/-- Both conditions on the dump are needed. The header cuts the page count of a huge hole, so
the server accepts and writes what the local dump rejects. And a write to an image that is
not the last opened one makes the server open it again, which truncates it. -/
theorem huge_hole_and_two_at_once_differ :
    (∃ c, remoteDump (fun _ n => n) false hugeHoleOps ⟨[], 0⟩ = .ok c ∧
      (localDump false false (fun _ n => n) hugeHoleOps
        ⟨pageDir (.pagemap, 7) 8192, [], [], 0⟩).1.dir.images (.pagemap, 7) = some ([], []) ∧
      (pageServerServe false false (fun _ n => n) 65536
        (startServer (pageDir (.pagemap, 7) 8192) 0) c.sk).1.dir.images (.pagemap, 7) =
          some ([⟨8192, 1, peParent⟩], [])) ∧
    ∃ c, remoteDump (fun _ n => n) false twoAtOnceOps ⟨[], 0⟩ = .ok c ∧
      (localDump false false (fun _ n => n) twoAtOnceOps
        ⟨⟨fun _ => none, fun _ => []⟩, [], [], 0⟩).1.dir.images (.shmemPagemap, 1) =
          some ([⟨0, 1, peParent⟩, ⟨4096, 1, peParent⟩], []) ∧
      (pageServerServe false false (fun _ n => n) 65536
        (startServer ⟨fun _ => none, fun _ => []⟩ 0) c.sk).1.dir.images (.shmemPagemap, 1) =
          some ([⟨4096, 1, peParent⟩], []) := by
  refine ⟨⟨_, rfl, ?_, ?_⟩, ⟨_, rfl, ?_, ?_⟩⟩
  · rfl
  · rfl
  · rfl
  · rfl

end Criu.RemoteDump

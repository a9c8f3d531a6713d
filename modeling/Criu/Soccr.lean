import Mathlib.Data.BitVec
import Mathlib.Tactic.Ring

/-!
Saving and restoring a TCP connection (soccr/soccr.c). The kernel's side is a socket with its
sequence numbers and queues, as far as repair mode can see and set them: a FIN takes a sequence
number and is not in a queue as a byte. What is saved leaves the FINs out; restoring sets the edges
of the queues, sends the queues' contents, and then makes the FINs by `shutdown` and by packets
that seem to come from the other side.
-/

namespace Criu.Soccr

open List

variable {finIn : Bool} {n : ℕ} {queue : List UInt8}

abbrev Seq := BitVec 32

inductive TcpState
  | established
  | synSent
  | synRecv
  | finWait1
  | finWait2
  | timeWait
  | close
  | closeWait
  | lastAck
  | listen
  | closing
deriving DecidableEq

inductive Queue
  | none
  | recv
  | send
deriving DecidableEq

structure Sock where
  state : TcpState
  sndUna : Seq
  sndNxt : Seq
  writeSeq : Seq
  rcvNxt : Seq
  copiedSeq : Seq
  sendQueue : List UInt8
  recvQueue : List UInt8
  repair : Bool
  repairQueue : Queue

variable {s : Sock}

section Kernel

def seqLen (bytes : List UInt8) : Seq := BitVec.ofNat 32 bytes.length

/-- `SIOCOUTQ`. -/
def outq (s : Sock) : ℕ := if s.state = .synSent then 0 else (s.writeSeq - s.sndUna).toNat

/-- `SIOCOUTQNSD`. -/
def outqNsd (s : Sock) : ℕ := if s.state = .synSent then 0 else (s.writeSeq - s.sndNxt).toNat

/-- `SIOCINQ`. -/
def inq (s : Sock) : ℕ := s.recvQueue.length

/-- The bytes of the send queue that were never sent. -/
def unsentData (s : Sock) : ℕ := s.sendQueue.length - (s.sndNxt - s.sndUna).toNat

def getQueueSeq (s : Sock) : Queue → Seq
  | .recv => s.rcvNxt
  | _ => s.writeSeq

def peek (s : Sock) (n : ℕ) : Queue → List UInt8
  | .recv => s.recvQueue.take n
  | _ => s.sendQueue.take n

def setRepairQueue (s : Sock) (q : Queue) : Sock := { s with repairQueue := q }

def repairOff (s : Sock) : Sock := { s with repair := false }

def repairOn (s : Sock) : Sock := { s with repair := true, repairQueue := .none }

/-- Setting `TCP_QUEUE_SEQ`, for the queue that is selected. -/
def setSeq (s : Sock) (seq : Seq) : Sock :=
  match s.repairQueue with
  | .recv => { s with rcvNxt := seq }
  | .send => { s with writeSeq := seq }
  | .none => s

/-- In repair mode a socket is connected at once; otherwise a SYN is sent. -/
def connect (s : Sock) : Sock :=
  if s.repair then
    { s with
      state := .established
      sndUna := s.writeSeq
      sndNxt := s.writeSeq
      copiedSeq := s.rcvNxt }
  else
    { s with
      state := .synSent
      sndUna := s.writeSeq
      sndNxt := s.writeSeq + 1
      writeSeq := s.writeSeq + 1
      rcvNxt := 0
      copiedSeq := 0 }

/-- In repair mode the bytes go to the queue that is selected, as received or as already sent;
otherwise they are still to be sent. -/
def send (s : Sock) (bytes : List UInt8) : Sock :=
  match s.repair, s.repairQueue with
  | true, .recv =>
      { s with recvQueue := s.recvQueue ++ bytes, rcvNxt := s.rcvNxt + seqLen bytes }
  | true, .send =>
      { s with
        sendQueue := s.sendQueue ++ bytes
        writeSeq := s.writeSeq + seqLen bytes
        sndNxt := s.sndNxt + seqLen bytes }
  | true, .none => s
  | false, _ =>
      { s with sendQueue := s.sendQueue ++ bytes, writeSeq := s.writeSeq + seqLen bytes }

/-- `shutdown(SHUT_WR)` queues a FIN. In repair mode with the send queue selected everything
counts as sent. -/
def shutdown (s : Sock) : Sock :=
  let state :=
    match s.state with
    | .established => .finWait1
    | .closeWait => .lastAck
    | other => other
  { s with
    state := state
    writeSeq := s.writeSeq + 1
    sndNxt := if s.repair = true ∧ s.repairQueue = .send then s.writeSeq + 1 else s.sndNxt }

/-- An ACK of something that was sent; the ACK of the FIN changes the state. -/
def acked (s : Sock) (ack : Seq) : Sock :=
  if (ack - s.sndUna).toNat ≤ (s.sndNxt - s.sndUna).toNat then
    let state :=
      if ack = s.writeSeq then
        match s.state with
        | .finWait1 => .finWait2
        | .closing => .timeWait
        | .lastAck => .close
        | other => other
      else s.state
    { s with
      state := state
      sndUna := ack
      sendQueue := s.sendQueue.drop (ack - s.sndUna).toNat }
  else s

/-- A packet that the socket expects next, with an ACK and maybe a FIN. -/
def packet (s : Sock) (seq ack : Seq) (fin : Bool) : Sock :=
  if seq = s.rcvNxt then
    let s := acked s ack
    if fin then
      let state :=
        match s.state with
        | .established => .closeWait
        | .finWait1 => .closing
        | .finWait2 => .timeWait
        | other => other
      { s with state := state, rcvNxt := s.rcvNxt + 1 }
    else s
  else s

/-- How much of what it is given the kernel takes in each call of `send`; it always takes something
of a small buffer. -/
structure Sending where
  taken : ℕ → ℕ → ℕ
  taken_le : ∀ call n, taken call n ≤ n
  taken_small : ∀ call n, 0 < n → n ≤ 1024 → 0 < taken call n

end Kernel

/-- The fields of `struct libsoccr_sk_data` for the queues, with the queues of `struct
libsoccr_sk`; an empty queue has no buffer. -/
structure SkData where
  state : TcpState
  inqLen : ℕ
  inqSeq : Seq
  outqLen : ℕ
  unsqLen : ℕ
  outqSeq : Seq
  recvQueue : Option (List UInt8)
  sendQueue : Option (List UInt8)

def sndqFirstFin (st : TcpState) : Bool := st ∈ [.finWait1, .finWait2, .closing]
def sndqSecondFin (st : TcpState) : Bool := st ∈ [.lastAck, .close]
def sndqFinAcked (st : TcpState) : Bool := st ∈ [.finWait2, .close]
def rcvqFirstFin (st : TcpState) : Bool := st ∈ [.closeWait, .lastAck, .close]
def rcvqSecondFin (st : TcpState) : Bool := st ∈ [.closing]
def rcvqFinAcked (st : TcpState) : Bool := st ∈ [.close]

def sndqFin (st : TcpState) : Bool := sndqFirstFin st || sndqSecondFin st
def rcvqFin (st : TcpState) : Bool := rcvqFirstFin st || rcvqSecondFin st

section Save

/-- `refresh_sk`: the lengths of the queues without FINs, `outq`, `unsq` and `inq`. -/
def refreshSk (s : Sock) : Option (ℕ × ℕ × ℕ) :=
  if s.state ∈ [.established, .finWait1, .finWait2, .lastAck, .closeWait, .closing, .close,
      .synSent] then
    let outqLen := if s.state = .close then 0 else outq s
    let unsqLen := if s.state = .close then 0 else outqNsd s
    if sndqFin s.state then some (outqLen - 1, unsqLen - 1, inq s)
    else some (outqLen, unsqLen, inq s)
  else none

/-- `get_queue`; one more byte is asked for to see that there are no more than `len`. -/
def getQueue (s : Sock) (q : Queue) (len : ℕ) : Option (Seq × Option (List UInt8)) :=
  if len ≠ 0 then
    if (peek s (len + 1) q).length = len then
      some (getQueueSeq s q, some (peek s (len + 1) q))
    else none
  else some (getQueueSeq s q, none)

def libsoccrSave (s : Sock) : Option SkData := do
  let (outqLen, unsqLen, inqLen) ← refreshSk s
  let (inqSeq, recvQueue) ← getQueue s .recv inqLen
  let (outqSeq, sendQueue) ← getQueue s .send outqLen
  return ⟨s.state, inqLen, inqSeq, outqLen, unsqLen, outqSeq, recvQueue, sendQueue⟩

end Save

section Restore

variable (k : Sending)

def setQueueSeq (s : Sock) (q : Queue) (seq : Seq) : Sock := setSeq (setRepairQueue s q) seq

/-- `libsoccr_set_sk_data_noq`, which also takes the FINs off the sequence numbers of `data`. -/
def libsoccrSetSkDataNoq (s : Sock) (data : SkData) : Sock × SkData :=
  let data := if rcvqFin data.state then { data with inqSeq := data.inqSeq - 1 } else data
  let data := if sndqFin data.state then { data with outqSeq := data.outqSeq - 1 } else data
  let s := setQueueSeq s .recv (data.inqSeq - BitVec.ofNat 32 data.inqLen)
  let seq := data.outqSeq - BitVec.ofNat 32 data.outqLen
  let seq := if data.state = .synSent then seq - 1 else seq
  let s := setQueueSeq s .send seq
  let s := if data.state = .synSent then repairOff s else s
  let s := connect s
  let s := if data.state = .synSent then repairOn s else s
  (s, data)

/-- The loop of `__send_queue`: where the kernel takes nothing, smaller chunks are tried. -/
def sendLoop : ℕ → ℕ → ℕ → List UInt8 → Sock → Option Sock
  | 0, _, _, _, _ => none
  | fuel + 1, call, maxChunk, bytes, s =>
      let ret := k.taken call (min bytes.length maxChunk)
      if ret = 0 then
        if 1024 < maxChunk then sendLoop fuel (call + 1) (maxChunk / 2) bytes s else none
      else
        let s := send s (bytes.take ret)
        if bytes.drop ret = [] then some s
        else sendLoop fuel (call + 1) maxChunk (bytes.drop ret) s

/-- `__send_queue`; each round of the loop takes bytes off or makes the chunks smaller. -/
def sendQueueData (s : Sock) (bytes : List UInt8) : Option Sock :=
  sendLoop k (bytes.length + bytes.length) 0 bytes.length bytes s

def sendQueue (s : Sock) (q : Queue) (bytes : List UInt8) : Option Sock :=
  sendQueueData k (setRepairQueue s q) bytes

/-- `libsoccr_restore_queue` for the receive queue. -/
def restoreRecvQueue (s : Sock) (data : SkData) : Option Sock :=
  match data.recvQueue with
  | none => some s
  | some buf => if data.inqLen = 0 then some s else sendQueue k s .recv (buf.take data.inqLen)

/-- `libsoccr_restore_queue` for the send queue: what was sent and not acknowledged, then what was
never sent. -/
def restoreSendQueue (s : Sock) (data : SkData) : Option Sock :=
  match data.sendQueue with
  | none => some s
  | some buf => do
      let len := data.outqLen - data.unsqLen
      let s ← if len ≠ 0 then sendQueue k s .send (buf.take len) else some s
      if data.unsqLen ≠ 0 then
        let s ← sendQueueData k (repairOff s) ((buf.drop len).take data.unsqLen)
        return repairOn s
      else return s

def restoreFinInSndQueue (s : Sock) (finAcked : Bool) : Sock :=
  if finAcked then setRepairQueue (shutdown (setRepairQueue s .send)) .none else shutdown s

/-- `send_fin`: the packet acknowledges what was acknowledged before. -/
def sendFin (s : Sock) (data : SkData) (fin : Bool) : Sock :=
  packet s data.inqSeq (data.outqSeq - BitVec.ofNat 32 data.outqLen) fin

/-- The FINs of `libsoccr_restore`. -/
def restoreFins (s : Sock) (data : SkData) : Sock :=
  let s :=
    if sndqFirstFin data.state then restoreFinInSndQueue s (sndqFinAcked data.state) else s
  let s := if rcvqFin data.state then sendFin s data true else s
  let s :=
    if sndqSecondFin data.state then restoreFinInSndQueue s (sndqFinAcked data.state) else s
  let data := if rcvqFinAcked data.state then { data with inqSeq := data.inqSeq + 1 } else data
  if sndqFinAcked data.state then sendFin s { data with outqSeq := data.outqSeq + 1 } false else s

/-- `libsoccr_restore`, without the window parameters. -/
def libsoccrRestore (s : Sock) (data : SkData) : Option Sock := do
  let (s, data) := libsoccrSetSkDataNoq s data
  let s ← restoreRecvQueue k s data
  let s ← restoreSendQueue k s data
  return restoreFins s data

end Restore

def finOut (st : TcpState) : ℕ := if st ∈ [.finWait1, .closing, .lastAck] then 1 else 0

/-- A connection, and whether the FIN of the other side is in the receive queue: it may also have
been read, or the connection may have been reset without one. -/
structure Connected (s : Sock) (finIn : Bool) : Prop where
  accepted : s.state ∉ [.synRecv, .timeWait, .listen]
  recv : s.rcvNxt = s.copiedSeq + seqLen s.recvQueue + (if finIn then 1 else 0)
  finIn : finIn = true → rcvqFin s.state = true
  recv_lt : s.recvQueue.length + 1 < 2 ^ 31
  send_lt : s.sendQueue.length + 1 < 2 ^ 31
  synSent : s.state = .synSent → s.sendQueue = [] ∧ s.recvQueue = [] ∧ s.rcvNxt = 0 ∧
    s.writeSeq = s.sndUna + 1 ∧ s.sndNxt = s.sndUna + 1
  finWait2 : s.state = .finWait2 → s.sendQueue = [] ∧ s.writeSeq = s.sndUna ∧ s.sndNxt = s.sndUna
  send : s.state ∉ [.synSent, .finWait2, .close] →
    s.writeSeq = s.sndUna + seqLen s.sendQueue + BitVec.ofNat 32 (finOut s.state) ∧
    ∃ sent ≤ s.sendQueue.length + finOut s.state, s.sndNxt = s.sndUna + BitVec.ofNat 32 sent

/-- The connection is the same, up to the send queue of a closed one. -/
structure SameConnection (s t : Sock) : Prop where
  state : t.state = s.state
  rcvNxt : t.rcvNxt = s.rcvNxt
  copiedSeq : t.copiedSeq = s.copiedSeq
  recvQueue : t.recvQueue = s.recvQueue
  writeSeq : t.writeSeq = s.writeSeq
  send : s.state ≠ .close →
    t.sndUna = s.sndUna ∧ t.sendQueue = s.sendQueue ∧ unsentData t = unsentData s
  dropped : s.state = .close → t.sendQueue = []

variable {data : SkData} {t : Sock}

section Saved

theorem sub_toNat (a : Seq) (h : n < 2 ^ 32) : (a + BitVec.ofNat 32 n - a).toNat = n := by
  rw [add_sub_cancel_left, BitVec.toNat_ofNat, Nat.mod_eq_of_lt h]

theorem unsentData_eq (h : s.sndNxt = s.sndUna + BitVec.ofNat 32 n) (hn : n < 2 ^ 32) :
    unsentData s = s.sendQueue.length - n := by
  rw [unsentData, h, sub_toNat _ hn]

theorem sub_sub_toNat (a : Seq) {m : ℕ} (hm : m < 2 ^ 32) (hn : n ≤ m) :
    (a + BitVec.ofNat 32 m - (a + BitVec.ofNat 32 n)).toNat = m - n := by
  bv_omega

def buffer (queue : List UInt8) : Option (List UInt8) := if queue = [] then none else some queue

def saved (s : Sock) : SkData where
  state := s.state
  inqLen := s.recvQueue.length
  inqSeq := s.rcvNxt
  outqLen := if s.state = .close then 0 else s.sendQueue.length
  unsqLen := if s.state = .close then 0 else unsentData s
  outqSeq := s.writeSeq
  recvQueue := buffer s.recvQueue
  sendQueue := if s.state = .close then none else buffer s.sendQueue

theorem getQueue_eq {q : Queue} (h : ∀ n, peek s n q = queue.take n) :
    getQueue s q queue.length = some (getQueueSeq s q, buffer queue) := by
  unfold getQueue buffer
  by_cases hq : queue = []
  · simp [hq]
  · simp [hq, h]

/-- The kernel counts the FIN that is not acknowledged; if it was sent, all data was sent. -/
theorem outq_eq (h : Connected s finIn) (hst : s.state ∉ [.synSent, .finWait2, .close]) :
    outq s = s.sendQueue.length + finOut s.state ∧
      outqNsd s - finOut s.state = unsentData s ∧ unsentData s ≤ s.sendQueue.length := by
  obtain ⟨hw, sent, hle, hn⟩ := h.send hst
  have hlt := h.send_lt
  have hfin : finOut s.state ≤ 1 := by
    unfold finOut
    split <;> omega
  have hsyn : s.state ≠ .synSent := by
    intro heq
    simp [heq] at hst
  have hw' : s.writeSeq =
      s.sndUna + BitVec.ofNat 32 (s.sendQueue.length + finOut s.state) := by
    rw [hw, seqLen, BitVec.ofNat_add, add_assoc]
  unfold outq outqNsd unsentData
  rw [if_neg hsyn, if_neg hsyn, hw', hn, sub_toNat _ (by omega), sub_toNat _ (by omega),
    sub_sub_toNat _ (by omega) hle]
  omega

theorem refreshSk_eq (h : Connected s finIn) :
    refreshSk s = some ((saved s).outqLen, (saved s).unsqLen, (saved s).inqLen) := by
  by_cases hst : s.state ∈ [.synSent, .finWait2, .close]
  · simp only [mem_cons, not_mem_nil, or_false] at hst
    rcases hst with hst | hst | hst
    · obtain ⟨hq, -, -, hw, hn⟩ := h.synSent hst
      simp [refreshSk, saved, hst, outq, outqNsd, inq,
        unsentData, hq]
    · obtain ⟨hq, hw, hn⟩ := h.finWait2 hst
      simp [refreshSk, saved, hst, outq, outqNsd, inq,
        unsentData, hq, hw, hn]
    · simp [refreshSk, saved, hst, inq]
  · obtain ⟨hout, hnsd, hle⟩ := outq_eq h hst
    have hacc := h.accepted
    cases hstate : s.state <;>
      simp [refreshSk, saved, hstate, sndqFin, sndqFirstFin, sndqSecondFin, inq, finOut] at * <;>
      omega

theorem libsoccrSave_eq (h : Connected s finIn) : libsoccrSave s = some (saved s) := by
  unfold libsoccrSave
  rw [refreshSk_eq h]
  have hrecv := getQueue_eq (s := s) (q := .recv) fun _ => rfl
  by_cases hst : s.state = .close
  · have hnone : getQueue s .send 0 = some (s.writeSeq, none) := if_neg (fun hne => hne rfl)
    simp [saved, hst, hrecv, hnone, getQueueSeq]
  · have hsend := getQueue_eq (s := s) (q := .send) fun _ => rfl
    simp [saved, hst, hrecv, hsend, getQueueSeq]

end Saved

section Restored

variable (k : Sending)

theorem send_append (s : Sock) (a b : List UInt8) : send (send s a) b = send s (a ++ b) := by
  have hlen : seqLen (a ++ b) = seqLen a + seqLen b := by
    unfold seqLen
    rw [length_append, BitVec.ofNat_add]
  obtain ⟨st, una, nxt, w, r, c, sq, rq, rep, q⟩ := s
  cases rep <;> cases q <;> simp [send, hlen, add_assoc]

/-- The kernel gets all bytes, whatever it takes in each call. -/
theorem sendLoop_eq (fuel call maxChunk : ℕ) (bytes : List UInt8) (s : Sock) (hne : bytes ≠ [])
    (hpos : 0 < maxChunk) (hfuel : bytes.length + maxChunk ≤ fuel + 1) :
    sendLoop k fuel call maxChunk bytes s = some (send s bytes) := by
  induction fuel generalizing call maxChunk bytes s with
  | zero =>
    have := length_pos_iff.mpr hne
    omega
  | succ fuel ih =>
    have hlen := length_pos_iff.mpr hne
    unfold sendLoop
    by_cases hret : k.taken call (min bytes.length maxChunk) = 0
    · have hbig : 1024 < maxChunk := by
        by_contra hsmall
        have := k.taken_small call (min bytes.length maxChunk) (by omega) (by omega)
        omega
      rw [if_pos hret, if_pos hbig]
      exact ih _ _ bytes s hne (by omega) (by omega)
    rw [if_neg hret]
    generalize k.taken call (min bytes.length maxChunk) = ret at hret
    by_cases hall : bytes.drop ret = []
    · rw [if_pos hall, take_of_length_le (drop_eq_nil_iff.mp hall)]
    · rw [if_neg hall, ih _ _ _ _ hall hpos (by rw [length_drop]; omega), send_append,
        take_append_drop]

theorem sendQueueData_eq (s : Sock) {bytes : List UInt8} (h : bytes ≠ []) :
    sendQueueData k s bytes = some (send s bytes) := by
  have := length_pos_iff.mpr h
  exact sendLoop_eq k _ _ _ bytes s h this (by omega)

def finSeq (b : Bool) : Seq := if b then 1 else 0

def adjusted (s : Sock) : SkData :=
  { saved s with
    inqSeq := s.rcvNxt - finSeq (rcvqFin s.state)
    outqSeq := s.writeSeq - finSeq (sndqFin s.state) }

def recvEdge (s : Sock) : Seq := s.rcvNxt - finSeq (rcvqFin s.state) - seqLen s.recvQueue
def sendEdge (s : Sock) : Seq :=
  s.writeSeq - finSeq (sndqFin s.state) - BitVec.ofNat 32 (saved s).outqLen

def loaded (s : Sock) (q : Queue) : Sock where
  state := .established
  sndUna := sendEdge s
  sndNxt := sendEdge s + BitVec.ofNat 32 ((saved s).outqLen - (saved s).unsqLen)
  writeSeq := sendEdge s + BitVec.ofNat 32 (saved s).outqLen
  rcvNxt := recvEdge s + seqLen s.recvQueue
  copiedSeq := recvEdge s
  sendQueue := if s.state = .close then [] else s.sendQueue
  recvQueue := s.recvQueue
  repair := true
  repairQueue := q

def connectedSock (edgeR edgeS : Seq) (q : Queue) : Sock where
  state := .established
  sndUna := edgeS
  sndNxt := edgeS
  writeSeq := edgeS
  rcvNxt := edgeR
  copiedSeq := edgeR
  sendQueue := []
  recvQueue := []
  repair := true
  repairQueue := q

theorem restoreRecvQueue_eq (s : Sock) (edgeR edgeS : Seq)
    (hbuf : data.recvQueue = buffer s.recvQueue) (hlen : data.inqLen = s.recvQueue.length) :
    ∃ q, restoreRecvQueue k (connectedSock edgeR edgeS .send) data =
      some { connectedSock edgeR edgeS q with
        recvQueue := s.recvQueue
        rcvNxt := edgeR + seqLen s.recvQueue } := by
  unfold restoreRecvQueue
  rw [hbuf, hlen]
  unfold buffer
  by_cases h : s.recvQueue = []
  · simp [h, seqLen, connectedSock]
  · simp [h, sendQueue, sendQueueData_eq k _ h, send, setRepairQueue, connectedSock]

/-- What was sent counts as sent again, and what was not is queued behind it. -/
theorem restoreSendQueue_eq (t : Sock) (ht : t.repair = true)
    (hempty : t.sendQueue = []) (hnxt : t.sndNxt = t.writeSeq)
    (hbuf : data.sendQueue = buffer queue) (hlen : data.outqLen = queue.length)
    (hle : data.unsqLen ≤ queue.length) :
    ∃ q, restoreSendQueue k t data = some { t with
          sendQueue := queue
          writeSeq := t.writeSeq + seqLen queue
          sndNxt := t.writeSeq + BitVec.ofNat 32 (data.outqLen - data.unsqLen)
          repairQueue := q } ∧ (q = .send → data.unsqLen = 0) := by
  obtain ⟨st, una, nxt, w, r, c, sq, rq, rep, q⟩ := t
  dsimp only at hnxt
  subst ht hempty hnxt
  unfold restoreSendQueue
  rw [hbuf, hlen]
  unfold buffer
  by_cases h : queue = []
  · have hu : data.unsqLen = 0 := by
      rw [h] at hle
      exact Nat.le_zero.mp hle
    refine ⟨q, ?_, fun _ => hu⟩
    simp [h, seqLen]
  rw [if_neg h]
  dsimp only
  by_cases hu : data.unsqLen = 0
  · have hpos : queue.length ≠ 0 := fun h0 => h (length_eq_zero_iff.mp h0)
    simp [hu, hpos, sendQueue, sendQueueData_eq k _ h, send, setRepairQueue, seqLen]
  have hdrop : queue.drop (queue.length - data.unsqLen) ≠ [] := by
    rw [Ne, drop_eq_nil_iff]
    omega
  have hrest : (queue.drop (queue.length - data.unsqLen)).take data.unsqLen =
      queue.drop (queue.length - data.unsqLen) := by
    apply take_of_length_le
    rw [length_drop]
    omega
  have hcount : seqLen queue = BitVec.ofNat 32 (queue.length - data.unsqLen) +
      seqLen (queue.drop (queue.length - data.unsqLen)) := by
    unfold seqLen
    rw [← BitVec.ofNat_add, length_drop]
    congr 1
    omega
  rw [hrest, hcount]
  by_cases hsent : queue.length - data.unsqLen = 0
  · simp [hu, hsent, sendQueueData_eq k _ h, send, repairOff, repairOn]
  have htake : queue.take (queue.length - data.unsqLen) ≠ [] := by
    rw [Ne, take_eq_nil_iff]
    tauto
  have hseq : seqLen (queue.take (queue.length - data.unsqLen)) =
      BitVec.ofNat 32 (queue.length - data.unsqLen) := by
    unfold seqLen
    rw [length_take]
    congr 1
    omega
  rw [if_pos hsent]
  simp [hu, sendQueue, sendQueueData_eq k _ htake, sendQueueData_eq k _ hdrop, send,
    setRepairQueue, repairOff, repairOn, hseq, add_assoc]

theorem restoreQueues_loaded (s : Sock) :
    ∃ q, (restoreRecvQueue k (connectedSock (recvEdge s) (sendEdge s) .send) (adjusted s)).bind
        (fun t => restoreSendQueue k t (adjusted s)) = some (loaded s q) ∧
      (q = .send → (saved s).unsqLen = 0) := by
  obtain ⟨q, hrecv⟩ :=
    @restoreRecvQueue_eq (adjusted s) k s (recvEdge s) (sendEdge s) rfl rfl
  rw [hrecv]
  obtain ⟨hqueue, hlen, hle⟩ :
      (adjusted s).sendQueue = buffer (loaded s q).sendQueue ∧
      (adjusted s).outqLen = (loaded s q).sendQueue.length ∧
      (adjusted s).unsqLen ≤ (loaded s q).sendQueue.length := by
    by_cases hst : s.state = .close
    · simp [adjusted, saved, loaded, buffer, hst]
    · simp [adjusted, saved, loaded, hst, unsentData]
  obtain ⟨q', hsend, hq'⟩ := restoreSendQueue_eq k
    { connectedSock (recvEdge s) (sendEdge s) q with
      recvQueue := s.recvQueue
      rcvNxt := recvEdge s + seqLen s.recvQueue } rfl rfl rfl hqueue hlen hle
  have hedge : seqLen (loaded s q).sendQueue = BitVec.ofNat 32 (saved s).outqLen :=
    congrArg _ hlen.symm
  rw [hedge] at hsend
  exact ⟨q', hsend, hq'⟩

def newSock : Sock := ⟨.close, 0, 0, 0, 0, 0, [], [], true, .none⟩

theorem libsoccrSetSkDataNoq_eq (hsyn : s.state ≠ .synSent) :
    libsoccrSetSkDataNoq newSock (saved s) =
      (connectedSock (recvEdge s) (sendEdge s) .send, adjusted s) := by
  cases hr : rcvqFin s.state <;> cases hs : sndqFin s.state <;>
    simp [libsoccrSetSkDataNoq, hsyn, hr, hs, setQueueSeq, setSeq, setRepairQueue, connect,
      newSock, connectedSock, recvEdge, sendEdge, adjusted, finSeq, seqLen, saved]

abbrev Restored (s t : Sock) : Prop := SameConnection { s with copiedSeq := recvEdge s } t

variable {q : Queue}

theorem loaded_rcvNxt : (loaded s q).rcvNxt = s.rcvNxt - finSeq (rcvqFin s.state) :=
  sub_add_cancel ..

theorem loaded_rcvNxt_add : (loaded s q).rcvNxt + finSeq (rcvqFin s.state) = s.rcvNxt := by
  rw [loaded_rcvNxt, sub_add_cancel]

theorem loaded_writeSeq : (loaded s q).writeSeq = s.writeSeq - finSeq (sndqFin s.state) :=
  sub_add_cancel ..

theorem loaded_writeSeq_add : (loaded s q).writeSeq + finSeq (sndqFin s.state) = s.writeSeq := by
  rw [loaded_writeSeq, sub_add_cancel]

structure SendSide (s t : Sock) : Prop where
  sndUna : t.sndUna = s.sndUna
  sendQueue : t.sendQueue = s.sendQueue
  unsent : unsentData t = unsentData s
  writeSeq : t.writeSeq = t.sndUna + seqLen t.sendQueue
  short : t.sendQueue.length + 1 < 2 ^ 31
  selected : t.repair = true ∧ t.repairQueue = .send → unsentData t = 0

theorem loaded_sendSide (h : Connected s finIn) (hst : s.state ∉ [.synSent, .finWait2, .close])
    (hq : q = .send → (saved s).unsqLen = 0) : SendSide s (loaded s q) := by
  obtain ⟨hw, -⟩ := h.send hst
  obtain ⟨-, -, huns⟩ := outq_eq h hst
  have hlt := h.send_lt
  have hclose : s.state ≠ .close := by
    intro heq
    simp [heq] at hst
  have hfin : finSeq (sndqFin s.state) = BitVec.ofNat 32 (finOut s.state) := by
    cases hstate : s.state <;> simp [hstate] at hst <;> rfl
  have hout : (saved s).outqLen = s.sendQueue.length := if_neg hclose
  have hunsq : (saved s).unsqLen = unsentData s := if_neg hclose
  have hqueue : (loaded s q).sendQueue = s.sendQueue := if_neg hclose
  have huna : sendEdge s = s.sndUna := by
    rw [sendEdge, hw, hfin, hout]
    unfold seqLen
    ring
  have hunsent : unsentData (loaded s q) = unsentData s := by
    have hnxt : (loaded s q).sndNxt = sendEdge s +
        BitVec.ofNat 32 ((saved s).outqLen - (saved s).unsqLen) := rfl
    rw [unsentData_eq hnxt (by omega), hqueue]
    omega
  refine ⟨huna, hqueue, hunsent, ?_, hqueue ▸ hlt, fun hsel => ?_⟩
  · rw [hqueue, seqLen, ← hout]
    rfl
  · rw [hunsent, ← hunsq]
    exact hq hsel.2

theorem SendSide.fin_seq (h : SendSide s t) :
    t.writeSeq + 1 = t.sndUna + BitVec.ofNat 32 (t.sendQueue.length + 1) := by
  rw [h.writeSeq, BitVec.ofNat_add, ← add_assoc]
  rfl

theorem SendSide.shutdown (h : SendSide s t) :
    (shutdown t).sndUna = s.sndUna ∧ (shutdown t).sendQueue = s.sendQueue ∧
      unsentData (shutdown t) = unsentData s := by
  refine ⟨h.sndUna, h.sendQueue, ?_⟩
  rw [← h.unsent]
  by_cases hsel : t.repair = true ∧ t.repairQueue = .send
  · have hlt := h.short
    have hall : unsentData (Soccr.shutdown t) = t.sendQueue.length - (t.sendQueue.length + 1) :=
      unsentData_eq ((if_pos hsel).trans h.fin_seq) (by omega)
    have := h.selected hsel
    omega
  · have hsame : (Soccr.shutdown t).sndNxt = t.sndNxt := if_neg hsel
    unfold unsentData
    rw [hsame]
    rfl

def finState : TcpState → TcpState
  | .established => .closeWait
  | .finWait1 => .closing
  | .finWait2 => .timeWait
  | other => other

theorem acked_una (hne : t.state = .finWait1 ∨ t.state = .closing ∨ t.state = .lastAck →
    t.sndUna ≠ t.writeSeq) : acked t t.sndUna = t := by
  unfold acked
  rw [sub_self]
  by_cases heq : t.sndUna = t.writeSeq
  · have hst : t.state ≠ .finWait1 ∧ t.state ≠ .closing ∧ t.state ≠ .lastAck := by tauto
    obtain ⟨st, una, nxt, w, r, c, sq, rq, rep, q⟩ := t
    cases st <;> simp at hst ⊢
  · rw [if_neg heq]
    rfl

/-- The FIN packet that is made up for a connection. -/
theorem sendFin_eq (hrcv : t.rcvNxt = (loaded s q).rcvNxt) (huna : t.sndUna = sendEdge s)
    (hne : t.state = .finWait1 ∨ t.state = .closing ∨ t.state = .lastAck → t.sndUna ≠ t.writeSeq) :
    sendFin t (adjusted s) true =
      { t with state := finState t.state, rcvNxt := t.rcvNxt + 1 } := by
  have hseq : (adjusted s).inqSeq = t.rcvNxt := by
    rw [hrcv, loaded_rcvNxt]
    rfl
  have hack : (adjusted s).outqSeq - BitVec.ofNat 32 (adjusted s).outqLen = t.sndUna := huna.symm
  rw [sendFin, hack, packet, if_pos hseq, acked_una hne]
  rfl

theorem sendFin_closeWait : sendFin (loaded s q) (adjusted s) true =
    { loaded s q with state := .closeWait, rcvNxt := (loaded s q).rcvNxt + 1 } :=
  sendFin_eq rfl rfl (by rintro (hc | hc | hc) <;> cases hc)

theorem restoreFins_eq (t : Sock) (data : SkData) : restoreFins t data =
      match data.state with
      | .closeWait => sendFin t data true
      | .finWait1 => shutdown t
      | .lastAck => shutdown (sendFin t data true)
      | .closing => sendFin (shutdown t) data true
      | .finWait2 =>
        sendFin (restoreFinInSndQueue t true) { data with outqSeq := data.outqSeq + 1 } false
      | .close =>
        sendFin (restoreFinInSndQueue (sendFin t data true) true)
          { data with inqSeq := data.inqSeq + 1, outqSeq := data.outqSeq + 1 } false
      | _ => t := by
  obtain ⟨st, il, is, ol, ul, os, rq, sq⟩ := data
  cases st <;> rfl

theorem restoreFins_open (h : Connected s finIn) (hst : s.state ∉ [.synSent, .finWait2, .close])
    (hq : q = .send → (saved s).unsqLen = 0) :
    Restored s (restoreFins (loaded s q) (adjusted s)) := by
  have hside := loaded_sendSide h hst hq
  have hrcv := @loaded_rcvNxt_add s q
  have hwrite := @loaded_writeSeq_add s q
  have hadj : (adjusted s).state = s.state := rfl
  have hacc := h.accepted
  have hclose : ∀ {p : Prop}, s.state = .close → p := fun hc => absurd hst (by simp [hc])
  rw [restoreFins_eq, hadj]
  cases hs : s.state with
  | synSent | finWait2 | close => simp [hs] at hst
  | synRecv | timeWait | listen => simp [hs] at hacc
  | established =>
    rw [hs] at hrcv hwrite
    refine ⟨hs.symm, ?_, rfl, rfl, ?_, fun _ => ?_, hclose⟩
    · exact (add_zero _).symm.trans hrcv
    · exact (add_zero _).symm.trans hwrite
    · exact ⟨hside.sndUna, hside.sendQueue, hside.unsent⟩
  | closeWait =>
    rw [hs] at hrcv hwrite
    rw [sendFin_closeWait]
    refine ⟨hs.symm, hrcv, rfl, rfl, ?_, fun _ => ?_, hclose⟩
    · exact (add_zero _).symm.trans hwrite
    · exact ⟨hside.sndUna, hside.sendQueue, hside.unsent⟩
  | finWait1 =>
    rw [hs] at hrcv hwrite
    refine ⟨hs.symm, ?_, rfl, rfl, hwrite, fun _ => hside.shutdown, hclose⟩
    exact (add_zero _).symm.trans hrcv
  | lastAck =>
    rw [hs] at hrcv hwrite
    rw [sendFin_closeWait]
    have hside' : SendSide s
        { loaded s q with state := .closeWait, rcvNxt := (loaded s q).rcvNxt + 1 } :=
      { hside with }
    exact ⟨hs.symm, hrcv, rfl, rfl, hwrite, fun _ => hside'.shutdown, hclose⟩
  | closing =>
    rw [hs] at hrcv hwrite
    have hne : (shutdown (loaded s q)).sndUna ≠ (shutdown (loaded s q)).writeSeq := by
      have := hside.short
      intro heq
      have hdiff := sub_toNat (loaded s q).sndUna
        (show (loaded s q).sendQueue.length + 1 < 2 ^ 32 by omega)
      rw [← hside.fin_seq, ← show (loaded s q).sndUna = (loaded s q).writeSeq + 1 from heq,
        sub_self] at hdiff
      cases hdiff
    have hfin : sendFin (shutdown (loaded s q)) (adjusted s) true = _ :=
      sendFin_eq (q := q) rfl rfl (fun _ => hne)
    rw [hfin]
    exact ⟨hs.symm, hrcv, rfl, rfl, hwrite, fun _ => hside.shutdown, hclose⟩

theorem sendFin_ack (hseq : data.inqSeq = t.rcvNxt)
    (hack : data.outqSeq - BitVec.ofNat 32 data.outqLen = t.writeSeq)
    (hsent : t.sndNxt = t.writeSeq) :
    sendFin t data false = { t with
        state :=
          match t.state with
          | .finWait1 => .finWait2
          | .closing => .timeWait
          | .lastAck => .close
          | other => other
        sndUna := t.writeSeq
        sendQueue := t.sendQueue.drop (t.writeSeq - t.sndUna).toNat } := by
  unfold sendFin packet acked
  rw [hseq, hack, if_pos rfl, hsent, if_pos (Nat.le_refl _), if_pos rfl]
  rfl

/-- The ACK for a FIN behind an empty queue. -/
theorem fin_ack (hlen : (saved s).outqLen = 0) :
    (adjusted s).outqSeq + 1 - BitVec.ofNat 32 (saved s).outqLen = (loaded s q).writeSeq + 1 := by
  rw [hlen, loaded_writeSeq]
  exact sub_zero _

theorem restoreFins_finWait2 (h : Connected s finIn) (hst : s.state = .finWait2) :
    Restored s (restoreFins (loaded s q) (adjusted s)) := by
  obtain ⟨hq, hw, hn⟩ := h.finWait2 hst
  have hrcv : (loaded s q).rcvNxt + 0 = s.rcvNxt := (hst ▸ loaded_rcvNxt_add :)
  have hwrite : (loaded s q).writeSeq + 1 = s.writeSeq := (hst ▸ loaded_writeSeq_add :)
  have hlen : (saved s).outqLen = 0 := by simp [saved, hq]
  have hqueue : (loaded s q).sendQueue = [] := by simp [loaded, hq]
  have hadj : (adjusted s).state = .finWait2 := hst
  have hempty : ∀ n, (loaded s q).sendQueue.drop n = s.sendQueue := by
    intro n
    rw [hqueue, drop_nil, hq]
  rw [restoreFins_eq, hadj]
  rw [sendFin_ack (loaded_rcvNxt (q := q)).symm (fin_ack hlen) rfl]
  refine ⟨hst.symm, ?_, rfl, rfl, hwrite, fun _ => ⟨hwrite.trans hw, hempty _, ?_⟩,
    fun hc => nomatch hst.symm.trans hc⟩
  · exact (add_zero _).symm.trans hrcv
  · change ((loaded s q).sendQueue.drop _).length - _ = _
    simp [unsentData, hempty, hq]

theorem restoreFins_close (hst : s.state = .close) :
    Restored s (restoreFins (loaded s q) (adjusted s)) := by
  have hrcv : (loaded s q).rcvNxt + 1 = s.rcvNxt := (hst ▸ loaded_rcvNxt_add :)
  have hwrite : (loaded s q).writeSeq + 1 = s.writeSeq := (hst ▸ loaded_writeSeq_add :)
  have hlen : (saved s).outqLen = 0 := by simp [saved, hst]
  have hqueue : (loaded s q).sendQueue = [] := by simp [loaded, hst]
  have hadj : (adjusted s).state = .close := hst
  have hseq : (adjusted s).inqSeq + 1 = (loaded s q).rcvNxt + 1 := by
    rw [loaded_rcvNxt]
    rfl
  rw [restoreFins_eq, hadj]
  dsimp only
  rw [sendFin_closeWait, sendFin_ack hseq (fin_ack (q := q) hlen) rfl]
  refine ⟨hst.symm, hrcv, rfl, rfl, hwrite, fun hc => absurd hst hc, fun _ => ?_⟩
  change List.drop _ (loaded s q).sendQueue = []
  rw [hqueue, drop_nil]

theorem libsoccrRestore_synSent (h : Connected s finIn) (hst : s.state = .synSent) :
    ∃ t, libsoccrRestore k newSock (saved s) = some t ∧ Restored s t := by
  obtain ⟨hq, hr, hrcv, hw, hn⟩ := h.synSent hst
  have hdata : saved s = ⟨.synSent, 0, 0, 0, 0, s.sndUna + 1, none, none⟩ := by
    simp [saved, hst, hq, hr, hrcv, hw, unsentData, buffer]
  have hseq : s.sndUna + 1 - 0 - 1 = s.sndUna := by ring
  refine ⟨⟨.synSent, s.sndUna, s.sndUna + 1, s.sndUna + 1, 0, 0, [], [], true, .none⟩, ?_, ?_⟩
  · rw [hdata]
    have hrestore : libsoccrRestore k newSock ⟨.synSent, 0, 0, 0, 0, s.sndUna + 1, none, none⟩ =
        some ⟨.synSent, s.sndUna + 1 - 0 - 1, s.sndUna + 1 - 0 - 1 + 1, s.sndUna + 1 - 0 - 1 + 1,
          0, 0, [], [], true, .none⟩ := rfl
    rw [hrestore, hseq]
  · refine ⟨hst.symm, hrcv.symm, ?_, hr.symm, hw.symm, fun _ => ⟨rfl, hq.symm, ?_⟩, fun _ => rfl⟩
    · rw [recvEdge, hst, hrcv, hr]
      rfl
    · simp [unsentData, hq]

/-- Everything is restored; the place that the application has read to is set as if a FIN was
there to be read. -/
theorem libsoccrRestore_restored (h : Connected s finIn) :
    ∃ t, libsoccrRestore k newSock (saved s) = some t ∧ Restored s t := by
  by_cases hsyn : s.state = .synSent
  · exact libsoccrRestore_synSent k h hsyn
  obtain ⟨q, ht, hq⟩ := restoreQueues_loaded k s
  refine ⟨restoreFins (loaded s q) (adjusted s), ?_, ?_⟩
  · unfold libsoccrRestore
    rw [libsoccrSetSkDataNoq_eq hsyn]
    change (restoreRecvQueue k _ _).bind (fun t => (restoreSendQueue k t _).bind _) = _
    rw [← Option.bind_assoc, ht]
    rfl
  · by_cases hfw : s.state = .finWait2
    · exact restoreFins_finWait2 h hfw
    · by_cases hclose : s.state = .close
      · exact restoreFins_close hclose
      · exact restoreFins_open h (by simp [hsyn, hfw, hclose]) hq

end Restored

def takesAll : Sending := ⟨fun _ n => n, fun _ _ => Nat.le_refl _, fun _ _ h _ => h⟩

/-- A connection half closed by the other side, with data in both queues across the end of the
sequence numbers. -/
def halfClosed : Sock where
  state := .closeWait
  sndUna := 0xffffffff
  sndNxt := 0
  writeSeq := 1
  rcvNxt := 1
  copiedSeq := 0xfffffffe
  sendQueue := [1, 2]
  recvQueue := [3, 4]
  repair := true
  repairQueue := .none

theorem halfClosed_connected : Connected halfClosed true := by
  exact ⟨by decide, by decide, fun _ => by decide, by decide, by decide, nofun, nofun,
    fun _ => ⟨by decide, 1, by decide, by decide⟩⟩

def resetConnection : Sock where
  state := .close
  sndUna := 500
  sndNxt := 500
  writeSeq := 500
  rcvNxt := 1001
  copiedSeq := 1000
  sendQueue := []
  recvQueue := [7]
  repair := true
  repairQueue := .none

end Criu.Soccr

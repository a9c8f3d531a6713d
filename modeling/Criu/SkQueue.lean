import Mathlib.Algebra.GroupWithZero.Nat
import Mathlib.Data.Int.Notation
import Mathlib.Tactic.Common

/-!
Receive queues of sockets (criu/sk-queue.c). The dump reads a queue with peeking calls, at an offset
that moves on by itself, and takes the first empty result for the end. A packet with the
credentials of its sender is written later, when the pids of all tasks are known. The restore sends
the packets of a socket in the order of the image.
-/

namespace Criu.SkQueue

structure Ucred where
  pid : ℕ
  uid : ℕ
  gid : ℕ
deriving DecidableEq, Repr

/-- Control messages that the kernel adds of itself: one of the timestamps, the group of a netlink
packet, or any other. -/
inductive Note
  | timestamp
  | pktinfo (group : ℕ)
  | other
deriving DecidableEq, Repr

/-- Files are named by the ids that `dump_my_file` gives them. -/
inductive Cmsg
  | rights (files : List ℕ)
  | credentials (cred : Ucred)
  | note (n : Note)
deriving DecidableEq, Repr

/-- A message in a queue. A datagram that was sent without an address has an empty one. -/
structure Msg where
  data : List UInt8
  addr : List UInt8
  cred : Ucred
  rights : List ℕ
  notes : List Note
deriving DecidableEq, Repr

/-- The bytes and the files of a message, or of a piece of a stream. -/
abbrev Part := List UInt8 × List ℕ

/-- The kernel hands out the messages of a stream in pieces. A piece goes on from one message
to the next as long as there are no files, and ends within a message or behind it. A message
that is cut shows its files with every piece; `cut` says of which files it may be. -/
inductive Chunked (cut : List ℕ → Prop) : List Part → List Part → Prop
  | nil : Chunked cut [] []
  | whole {m : Part} {queue pieces : List Part} :
      Chunked cut queue pieces → Chunked cut (m :: queue) (m :: pieces)
  | join {a b : List UInt8} {files : List ℕ} {queue pieces : List Part} :
      b ≠ [] → Chunked cut queue ((b, files) :: pieces) →
      Chunked cut ((a, []) :: queue) ((a ++ b, files) :: pieces)
  | split {a b : List UInt8} {files : List ℕ} {queue pieces : List Part} :
      b ≠ [] → cut files → Chunked cut ((b, files) :: queue) pieces →
      Chunked cut ((a ++ b, files) :: queue) ((a, files) :: pieces)

def Msg.part (m : Msg) : Part := (m.data, m.rights)

/-- A socket. Its queue is read in the pieces `reports`, which for datagrams are the messages
themselves. `enobufs` is an error that the next call is to report. -/
structure Sock where
  id : ℕ
  stream : Bool
  queue : List Msg
  reports : List Msg
  passCred : Bool
  sndbuf : ℕ
  peekOff : ℤ
  enobufs : Bool
  sndbuf_min : 32 < sndbuf
  datagrams : stream = false → reports = queue
  chunked : stream = true → Chunked (fun _ => True) (queue.map Msg.part) (reports.map Msg.part)
  nonempty : stream = true → ∀ m ∈ reports, m.data ≠ []

/-- `SK_QUEUE_REAL_PID`, `SK_QUEUE_DUMP_ADDR` and `SK_QUEUE_TRACK_ENOBUFS`. -/
structure Flags where
  realPid : Bool
  dumpAddr : Bool
  trackEnobufs : Bool
deriving DecidableEq, Repr

structure Item where
  real : ℕ
  virt : ℕ
deriving DecidableEq, Repr

/-- What the dump finds around it: the processes that exist, the tasks of the tree, the user
namespace, the files it can dump, and whether the peek offset can be set back. -/
structure Env where
  alive : ℕ → Bool
  items : List Item
  usernsUid : ℕ → ℕ
  usernsGid : ℕ → ℕ
  canDump : ℕ → Bool
  peekOffOk : Bool

/-- `SkPacketEntry` and the data that follow it in the image, which are read back by their
length. -/
structure Entry where
  idFor : ℕ
  addr : Option (List UInt8)
  ucred : Option Ucred
  scm : List (List ℕ)
  data : List UInt8
deriving DecidableEq, Repr

section Control

def cmsgMaxSize : ℕ := 1024

def cmsgLen (n : ℕ) : ℕ := 16 + n

def cmsgSpace (n : ℕ) : ℕ := 16 + (n + 7) / 8 * 8

def Note.space : Note → ℕ
  | .timestamp => cmsgSpace 16
  | .pktinfo _ => cmsgSpace 4
  | .other => cmsgSpace 0

/-- The files for which the control buffer has room behind what comes first. -/
def room (passCred : Bool) (m : Msg) : ℕ :=
  (cmsgMaxSize - (m.notes.map Note.space).sum - (if passCred then cmsgSpace 12 else 0) -
    cmsgLen 0) / 4

/-- The files that `recvmsg` reports; nothing checks whether it left some out. -/
def shownRights (passCred : Bool) (m : Msg) : List ℕ :=
  m.rights.take (room passCred m)

/-- The control messages that `recvmsg` reports. -/
def controlMsgs (passCred : Bool) (m : Msg) : List Cmsg :=
  m.notes.map .note ++ (if passCred then [.credentials m.cred] else []) ++
    if shownRights passCred m = [] then [] else [.rights (shownRights passCred m)]

end Control

section Dump

variable (env : Env) (fl : Flags)

/-- What the control messages of a packet come to: `ret` is 1 for a packet to be deferred, and has
2 for one to be ignored. -/
structure Parsed where
  ucred : Option Ucred
  scm : List (List ℕ)
  ret : ℕ
deriving DecidableEq, Repr

/-- `dump_sk_creds`: the sender of a packet that is not deferred has to exist. -/
def dumpSkCreds (u : Ucred) : Option Ucred × ℕ :=
  let ent : Ucred := ⟨u.pid, env.usernsUid u.uid, env.usernsGid u.gid⟩
  if fl.realPid then (some ent, 1)
  else if u.pid = 0 ∨ env.alive u.pid = true then (some ent, 0)
  else (none, 2)

def dumpPacketCmsg : List Cmsg → Parsed → Option Parsed
  | [], p => some p
  | .rights files :: cs, p =>
      if p.scm ≠ [] then none
      else if files.all env.canDump then dumpPacketCmsg cs { p with scm := [files] }
      else none
  | .credentials u :: cs, p =>
      let r := dumpSkCreds env fl u
      dumpPacketCmsg cs { p with ucred := r.1, ret := p.ret ||| r.2 }
  | .note .timestamp :: cs, p => dumpPacketCmsg cs p
  | .note (.pktinfo group) :: cs, p => if group < 32 then dumpPacketCmsg cs p else none
  | .note .other :: _, _ => none

structure Live where
  queue : List Msg
  peekOff : ℤ
  enobufs : Bool
deriving DecidableEq, Repr

def peekAt : List Msg → ℕ → Option (Msg × ℕ)
  | [], _ => none
  | m :: ms, off =>
      if m.data.length ≤ off ∧ (m.data ≠ [] ∨ 0 < off) then peekAt ms (off - m.data.length)
      else some (m, off)

inductive Recv
  | message (m : Msg) (bytes : List UInt8) (trunc : Bool)
  | again
  | enobufs
deriving DecidableEq, Repr

/-- `recvmsg` with `MSG_PEEK`; the offset moves on. -/
def recvmsgPeek (size : ℕ) (s : Live) : Recv × Live :=
  if s.enobufs then (.enobufs, { s with enobufs := false })
  else
    match peekAt s.queue s.peekOff.toNat with
    | none => (.again, s)
    | some (m, skip) =>
        let bytes := (m.data.drop skip).take size
        (.message m bytes (size < m.data.length - skip),
          { s with peekOff := s.peekOff + bytes.length })

/-- The image of the queues, and `packets_list`. -/
structure Dump where
  image : List Entry
  deferred : List Entry
deriving DecidableEq, Repr

/-- A dump in progress; `val` tells the caller of an `ENOBUFS`. -/
structure Progress where
  live : Live
  dump : Dump
  val : Bool
deriving DecidableEq, Repr

inductive Code
  | next
  | finished
  | failed
deriving DecidableEq, Repr

def Dump.put (d : Dump) (e : Entry) (ret : ℕ) : Dump :=
  if ret = 0 then { d with image := d.image ++ [e] }
  else if ret = 1 then { d with deferred := d.deferred ++ [e] }
  else d

def packetAddr (m : Msg) : Option (List UInt8) :=
  if fl.dumpAddr = true ∧ m.addr ≠ [] then some m.addr else none

def dumpSkQueuePacket (id : ℕ) (passCred : Bool) (size : ℕ) (p : Progress) : Code × Progress :=
  match recvmsgPeek size p.live with
  | (.again, live) => (.finished, { p with live := live })
  | (.enobufs, live) =>
      if fl.trackEnobufs then (.next, { p with live := live, val := true })
      else (.failed, { p with live := live })
  | (.message m bytes trunc, live) =>
      if bytes = [] then (.finished, { p with live := live })
      else if trunc then (.failed, { p with live := live })
      else
        match dumpPacketCmsg env fl (controlMsgs passCred m) ⟨none, [], 0⟩ with
        | none => (.failed, { p with live := live })
        | some c =>
            (.next, { p with
              live := live
              dump := p.dump.put ⟨id, packetAddr fl m, c.ucred, c.scm, bytes⟩ c.ret })

/-- The loop of `dump_sk_queue`; without fuel it has not ended. -/
def dumpLoop (id : ℕ) (passCred : Bool) (size : ℕ) : ℕ → Progress → Option (Bool × Progress)
  | 0, _ => none
  | fuel + 1, p =>
      match dumpSkQueuePacket env fl id passCred size p with
      | (.finished, p) => some (true, p)
      | (.failed, p) => some (false, p)
      | (.next, p) => dumpLoop id passCred size fuel p

/-- `dump_sk_queue`: whether it returns 0, and what it leaves behind. -/
def dumpSkQueue (sk : Sock) (fuel : ℕ) (d : Dump) : Option (Bool × Progress) :=
  (dumpLoop env fl sk.id sk.passCred (sk.sndbuf - 32) fuel
    ⟨⟨sk.reports, 0, sk.enobufs⟩, d, false⟩).map fun r =>
      (r.1, if env.peekOffOk then
          { r.2 with live := { r.2.live with peekOff := sk.peekOff } }
        else r.2)

def dumpAll (fuel : ℕ) : List (Flags × Sock) → Dump → Option Dump
  | [], d => some d
  | (fl, sk) :: socks, d =>
      (dumpSkQueue env fl sk fuel d).bind fun r =>
        if r.1 then dumpAll fuel socks r.2.dump else none

/-- The pid of a deferred packet as the restored tasks will see it. -/
def fixupUcred (e : Entry) (u : Ucred) : Option Entry :=
  (env.items.find? fun it => it.real = u.pid).map fun it =>
    { e with ucred := some { u with pid := it.virt } }

/-- `sk_queue_post_actions`: whether it returns 0, and the image. -/
def skQueuePostActions : List Entry → List Entry → Bool × List Entry
  | [], img => (true, img)
  | e :: es, img =>
      match e.ucred with
      | none => (false, img)
      | some u => skQueuePostActions es (img ++ (fixupUcred env e u).toList)

end Dump

section Restore

def collectPackets (img : List Entry) : Option (List Entry) :=
  if img.all (fun e => e.scm.length ≤ 1) then some img else none

/-- What `sendmsg` is given. -/
structure Sent where
  data : List UInt8
  addr : Option (List UInt8)
  rights : List ℕ
  cred : Option Ucred
deriving DecidableEq, Repr

def sentCred (e : Entry) : Option Ucred :=
  e.ucred.filter fun u => u.pid ≠ 0

def rightsLen : List (List ℕ) → ℕ
  | [] => 0
  | files :: _ => cmsgSpace (files.length * 4)

/-- `send_one_pkt`, where a call succeeds; the control buffer must not overflow. -/
def sendOnePkt (e : Entry) : Option Sent :=
  if cmsgMaxSize ≤ rightsLen e.scm then none
  else if (sentCred e).isSome ∧ cmsgMaxSize ≤ rightsLen e.scm + cmsgSpace 12 then none
  else some ⟨e.data, e.addr, e.scm.headD [], sentCred e⟩

/-- `restore_sk_queue`: the messages that are sent, and the packets that are left. -/
def restoreSkQueue (id : ℕ) : List Entry → Option (List Sent × List Entry)
  | [] => some ([], [])
  | e :: es =>
      if e.idFor ≠ id then (restoreSkQueue id es).map fun r => (r.1, e :: r.2)
      else
        (sendOnePkt e).bind fun m => (restoreSkQueue id es).map fun r => (m :: r.1, r.2)

end Restore

end Criu.SkQueue

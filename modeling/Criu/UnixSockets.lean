import Mathlib.Data.List.Basic
import Criu.Lib.Run

/-!
Restoring unix sockets (criu/sk-unix.c). Collecting the image connects every socket to its peer and
gives it a queuer, the socket that will send the packets of its queue; a socket without one may
get a fake queuer. The open method is called again and again for each socket by its task, and
what is not possible yet is put off: the two ends of a pair are made by one of them, and the others
connect once their peer is bound.
-/

namespace Criu.UnixSockets

open Function

variable {ui peer i : ℕ}

inductive SkType
  | stream
  | dgram
  | seqpacket
deriving DecidableEq, Repr

inductive TcpState
  | established
  | close
  | listen
deriving DecidableEq, Repr

/-- The fields of `UnixSkEntry` that are read; the flags are those of `uflags`, `deleted` marks an
address that is to be put into the fdstore. -/
structure UnixSkEntry where
  id : ℕ
  ino : ℕ
  peer : ℕ
  type : SkType
  state : TcpState
  shutdownBoth : Bool
  named : Bool
  willBind : Bool
  deleted : Bool
  external : Bool
  callback : Bool
  service : Bool
  bindmount : Bool
  overmounted : Bool
deriving DecidableEq, Repr

structure Packet where
  idFor : ℕ
  data : List UInt8
deriving DecidableEq, Repr

inductive Sk
  | real (i : ℕ)
  | fake (i : ℕ)
deriving DecidableEq, Repr

def Sk.isFake : Sk → Bool
  | .real _ => false
  | .fake _ => true

/-- The image and the options: `hasFles` tells whether a task has the socket open, `inherited`
whether the user hands it over, `task` is the one that opens it, and `scms` are the files that
its packets carry. -/
structure Image where
  count : ℕ
  entry : ℕ → UnixSkEntry
  ino_inj : ∀ i j, i < count → j < count → (entry i).ino = (entry j).ino → i = j
  packets : List Packet
  hasFles : ℕ → Bool
  inherited : ℕ → Bool
  extUnixSk : Bool
  task : Sk → ℕ
  scms : Sk → List ℕ

/-! ### Peers and queuers -/

structure Prep where
  peer : ℕ → Option ℕ
  queuer : ℕ → Option Sk
  master : ℕ → Bool
  slave : ℕ → Bool

variable {p : Prep}

def initPrep : Prep := ⟨fun _ => none, fun _ => none, fun _ => false, fun _ => false⟩

def setPeer (p : Prep) (ui peer : ℕ) : Prep :=
  { p with
    peer := update p.peer ui (some peer)
    queuer :=
      if p.queuer peer = none then update p.queuer peer (some (.real ui))
      else p.queuer }

/-- The sockets collected before the given one, the last one first. -/
def findUnixSkByIno (img : Image) (n ino : ℕ) : Option ℕ :=
  (List.range n).reverse.find? (fun i => (img.entry i).ino = ino)

def tryResolveUnixPeer (img : Image) (p : Prep) (i : ℕ) : Prep :=
  if p.peer i ≠ none then p
  else if (img.entry i).peer = (img.entry i).ino then setPeer p i i
  else match findUnixSkByIno img i (img.entry i).peer with
    | none => p
    | some j =>
        if (img.entry j).peer = (img.entry i).ino then setPeer (setPeer p i j) j i
        else setPeer p i j

def collectOneUnixsk (img : Image) (p : Prep) (i : ℕ) : Prep :=
  if (img.entry i).peer ≠ 0 then tryResolveUnixPeer img p i else p

def collectUnixsk (img : Image) : Prep :=
  (List.range img.count).foldl (collectOneUnixsk img) initPrep

/-- Whether `add_fake_unix_queuers` gives the socket a queuer. -/
def needsFakeQueuer (img : Image) (p : Prep) (i : ℕ) : Bool :=
  let e := img.entry i
  !(e.external || e.callback || (p.queuer i).isSome) &&
    ((e.type = .stream && e.state = .established && (p.peer i).isNone) ||
      (e.type = .dgram && (p.peer i).isNone))

def addFakeUnixQueuers (img : Image) (p : Prep) : Prep :=
  { p with queuer := fun i =>
      if i < img.count ∧ needsFakeQueuer img p i = true then some (.fake i) else p.queuer i }

/-- A peer that was not found is fatal. The first of two sockets connected to each other becomes
the master of the pair. -/
def fixupUnixPeer (img : Image) (p : Prep) (i : ℕ) : Option Prep :=
  if (img.entry i).peer = 0 then some p
  else match p.peer i with
    | none => none
    | some j =>
        if j ≠ i ∧ p.peer j = some i ∧ p.master i = false ∧ p.slave i = false then
          some { p with
            master := update p.master i true
            slave := update p.slave j true }
        else some p

/-- The post-prepare callbacks run from the last one added to the first. -/
def prepare (img : Image) : Option Prep :=
  (List.range img.count).reverse.foldlM (fixupUnixPeer img)
    (addFakeUnixQueuers img (collectUnixsk img))

/-! ### The open method -/

/-- `FLE_INITIALIZED`, `FLE_OPEN` and `FLE_RESTORED`. -/
inductive Stage
  | initialized
  | opened
  | restored
deriving DecidableEq, Repr

inductive Ret
  | done
  | again
deriving DecidableEq, Repr

structure Sys where
  inherit : Bool
  netns : Bool
  makeSocket : Bool
  sendResp : Bool
  setup : Bool
  plugin : Bool
  bind : Bool
  listen : Bool
  connect : Bool
  bufsz : Bool
  sendQueue : Bool
  common : Bool
deriving DecidableEq, Repr

/-- Every task has a packet list of its own. `sent` is what has been sent so far, and `byPlugin`
marks sockets that came from a plugin. -/
structure State where
  stage : Sk → Stage
  bound : Sk → Bool
  listen : Sk → Bool
  isConnected : Sk → Bool
  peerQueueRestored : Sk → Bool
  byPlugin : Sk → Bool
  scmFles : Sk → List ℕ
  scmOpen : ℕ → Bool
  packets : ℕ → List Packet
  sent : List Packet

def initState (img : Image) : State where
  stage _ := .initialized
  bound _ := false
  listen _ := false
  isConnected _ := false
  peerQueueRestored _ := false
  byPlugin _ := false
  scmFles := img.scms
  scmOpen _ := false
  packets _ := img.packets
  sent := []

structure World where
  img : Image
  prep : Prep
  prepared : prepare img = some prep

namespace World

variable (w : World)

/-- The peer is always a socket of the image. -/
def peerOf : Sk → Option ℕ
  | .real i => w.prep.peer i
  | .fake i => some i

def queuerOf : Sk → Option Sk
  | .real i => w.prep.queuer i
  | .fake _ => none

def entryOf : Sk → UnixSkEntry
  | .real i => w.img.entry i
  | .fake i => { w.img.entry i with named := false, ino := 0 }

end World

variable (w : World) (sys : Sys)

/-- The list loses the files that are open; one that is not is waited for. -/
def chkRestoredScms (s : State) (u : Sk) : State × Bool :=
  let rest := (s.scmFles u).dropWhile (fun f => s.scmOpen f)
  ({ s with scmFles := update s.scmFles u rest }, rest ≠ [])

def peerIsNotPrepared (s : State) (peer : ℕ) : Bool :=
  if (w.img.entry peer).state ≠ .listen then !s.bound (.real peer) else !s.listen (.real peer)

/-- `restore_sk_queue`: what the task still has for the peer is sent. -/
def restoreSkQueue (s : State) (task peerId : ℕ) : State :=
  { s with
    sent := s.sent ++ (s.packets task).filter (fun p => p.idFor = peerId)
    packets := update s.packets task
      ((s.packets task).filter (fun p => p.idFor ≠ peerId)) }

def restoreUnixQueue (s : State) (task peer : ℕ) : Option State :=
  if sys.bufsz = false ∨ sys.sendQueue = false then none
  else
    let s := restoreSkQueue s task (w.img.entry peer).id
    match w.prep.queuer peer with
    | none => some s
    | some q => some { s with peerQueueRestored := update s.peerQueueRestored q true }

/-- The end of `post_open_standalone`, from the label `restore_sk_common` on. -/
def restoreSkCommon (s : State) (u : Sk) : Option (State × Ret) :=
  if (w.queuerOf u).any (fun q => !s.peerQueueRestored q) then some (s, .again)
  else if sys.common then some (s, .done)
  else none

/-- From the label `restore_queue` on. -/
def restoreQueue (s : State) (u : Sk) (peer : ℕ) : Option (State × Ret) :=
  if w.prep.queuer peer = some u ∧ (w.img.entry peer).external = false then
    (restoreUnixQueue w sys s (w.img.task u) peer).bind fun s => restoreSkCommon w sys s u
  else restoreSkCommon w sys s u

def postOpenStandalone (s : State) (u : Sk) : Option (State × Ret) :=
  if (w.entryOf u).callback then none
  else
    let (s, pending) := chkRestoredScms s u
    if pending then some (s, .again)
    else match w.peerOf u with
      | none => restoreSkCommon w sys s u
      | some peer =>
          if s.isConnected u then restoreSkCommon w sys s u
          else if u.isFake then restoreQueue w sys s u peer
          else if w.img.hasFles peer = true ∧ peerIsNotPrepared w s peer = true then
            some (s, .again)
          else if sys.connect = false then none
          else restoreQueue w sys { s with isConnected := update s.isConnected u true }
            u peer

def setupAndServeOut (s : State) (u : Sk) : Option State :=
  if sys.setup = true ∧ s.stage u = .initialized then
    some { s with stage := update s.stage u .opened }
  else none

def bindUnixSk (s : State) (u : Sk) : Option State :=
  let e := w.entryOf u
  if e.named = false ∨ e.willBind = false then some s
  else if sys.bind = false then none
  else if e.state ≠ .listen then some { s with bound := update s.bound u true }
  else some s

/-- The socket itself, with the second end of a pair for a fake queuer; the flag tells whether it
came from a plugin. -/
def openSocket (s : State) (u : Sk) : Option (State × Bool) :=
  let e := w.entryOf u
  let fakeQueuer := (w.queuerOf u).filter Sk.isFake
  let pair (s : State) : Option (State × Bool) :=
    if sys.makeSocket = false then none
    else match fakeQueuer with
      | none => none
      | some q => (setupAndServeOut sys s q).map fun s => (s, false)
  if e.service then
    if sys.makeSocket = true ∧ sys.sendResp = true then some (s, false) else none
  else if e.state = .established ∧ fakeQueuer.isSome then
    if e.type ≠ .stream ∨ e.shutdownBoth = false then none else pair s
  else if e.type = .dgram ∧ fakeQueuer.isSome then pair s
  else if e.callback = true ∧ sys.plugin = true then
    some ({ s with byPlugin := update s.byPlugin u true }, true)
  else if (w.peerOf u).any (fun peer => (w.img.entry peer).external) ∧
      w.img.extUnixSk = false then none
  else if sys.makeSocket then some (s, false)
  else none

/-- A socket that was bound early is not bound again. -/
def bindStandalone (s : State) (u : Sk) : Option State :=
  if (w.entryOf u).bindmount = false ∧ (w.entryOf u).overmounted = false then bindUnixSk w sys s u
  else some { s with bound := update s.bound u true }

def listenUnixSk (s : State) (u : Sk) : Option State :=
  if (w.entryOf u).state ≠ .listen then some s
  else if sys.listen then some { s with listen := update s.listen u true }
  else none

/-- The new state, what is returned, and whether there is a new file descriptor. -/
def openUnixskStandalone (s : State) (u : Sk) : Option (State × Ret × Bool) :=
  if (w.peerOf u).any (fun peer => (w.img.entry peer).deleted &&
      s.stage (.real peer) = .initialized) then some (s, .again, false)
  else if s.stage u = .opened then
    (postOpenStandalone w sys s u).map fun r => (r.1, r.2, false)
  else if (w.entryOf u).external = false ∧ u.isFake = true then some (s, .again, false)
  else if sys.netns = false then none
  else do
    let (s, plugin) ← openSocket w sys s u
    if plugin then
      if sys.common then some (s, .done, true) else none
    else
      let s ← bindStandalone w sys s u
      let s ← listenUnixSk w sys s u
      if (w.peerOf u).isSome ∨ (w.queuerOf u).isSome then some (s, .again, true)
      else if sys.common then some (s, .done, true)
      else none

/-- While a file of either end is not open, 0 is returned here. -/
def postOpenInterconnectedMaster (s : State) (i peer : ℕ) : Option (State × Ret) :=
  let (s, pending) := chkRestoredScms s (.real i)
  if pending then some (s, .done)
  else
    let (s, pending) := chkRestoredScms s (.real peer)
    if pending then some (s, .done)
    else do
      let s ← restoreUnixQueue w sys s (w.img.task (.real i)) peer
      let s ← restoreUnixQueue w sys s (w.img.task (.real i)) i
      if sys.common then some (s, .done) else none

def openUnixskPairMaster (s : State) (i peer : ℕ) : Option (State × Ret × Bool) :=
  if s.stage (.real i) = .opened then
    (postOpenInterconnectedMaster w sys s i peer).map fun r => (r.1, r.2, false)
  else if sys.netns = false ∨ sys.makeSocket = false then none
  else do
    let s ← setupAndServeOut sys s (.real peer)
    let s ← bindUnixSk w sys s (.real i)
    let s ← bindUnixSk w sys s (.real peer)
    some (s, .again, true)

/-- All the work is done by the master. -/
def openUnixskPairSlave (s : State) (peer : ℕ) : State × Ret × Bool :=
  (s, if s.stage (.real peer) ≠ .restored then .again else .done, false)

def openUnixSk (s : State) : Sk → Option (State × Ret × Bool)
  | .fake i => openUnixskStandalone w sys s (.fake i)
  | .real i =>
      if w.img.inherited i then
        if sys.inherit then some (s, .done, true) else none
      else if w.prep.master i then
        (w.prep.peer i).bind fun peer => openUnixskPairMaster w sys s i peer
      else if w.prep.slave i then
        (w.prep.peer i).map fun peer => openUnixskPairSlave s peer
      else openUnixskStandalone w sys s (.real i)

/-- What `open_fd` does around the open method. -/
def openFd (s : State) (u : Sk) : Option State :=
  (openUnixSk w sys s u).bind fun (s, ret, newFd) =>
    (if newFd then setupAndServeOut sys s u else some s).map fun s =>
      if ret = .done then { s with stage := update s.stage u .restored } else s

/-- A task visits one of its sockets, or a file that packets carry becomes open elsewhere. -/
inductive Step
  | visit (u : Sk) (sys : Sys)
  | scmOpens (f : ℕ)

def step (s : State) : Step → Option State
  | .visit u sys => if s.stage u = .restored then none else openFd w sys s u
  | .scmOpens f => some { s with scmOpen := update s.scmOpen f true }

/-! ### What the preparation gives -/

/-- A queuer is connected to the socket whose queue it sends; `n` sockets are collected. -/
structure Linked (img : Image) (n : ℕ) (p : Prep) : Prop where
  queuer : ∀ i q, p.queuer i = some (.real q) → p.peer q = some i
  fake : ∀ i j, p.queuer i ≠ some (.fake j)
  peer : ∀ q i, p.peer q = some i → q < n ∧ i < n ∧ (img.entry i).ino = (img.entry q).peer
  master : ∀ i, p.master i = false
  slave : ∀ i, p.slave i = false

variable {img : Image} {n : ℕ}

theorem setPeer_queuer_cases {u : Sk} (h : (setPeer p ui peer).queuer i = some u) :
    p.queuer i = some u ∨ (i = peer ∧ u = .real ui) := by
  simp only [setPeer] at h
  split at h
  · by_cases hi : i = peer
    · subst hi
      rw [update_self, Option.some.injEq] at h
      exact .inr ⟨rfl, h.symm⟩
    · rw [update_of_ne hi] at h
      exact .inl h
  · exact .inl h

@[simp] theorem setPeer_peer (p : Prep) (ui peer : ℕ) :
    (setPeer p ui peer).peer = update p.peer ui (some peer) := rfl

theorem Linked.setPeer (h : Linked img n p) (hnone : p.peer ui = none)
    (hui : ui < n) (hpeer : peer < n) (hino : (img.entry peer).ino = (img.entry ui).peer) :
    Linked img n (setPeer p ui peer) := by
  constructor
  · intro i q hq
    rcases setPeer_queuer_cases hq with hq | ⟨rfl, heq⟩
    · have hp := h.queuer i q hq
      have hne : q ≠ ui := by
        rintro rfl
        rw [hnone] at hp
        cases hp
      rw [setPeer_peer, update_of_ne hne]
      exact hp
    · rw [Sk.real.inj heq, setPeer_peer, update_self]
  · intro i j hj
    rcases setPeer_queuer_cases hj with hj | ⟨-, hj⟩
    · exact h.fake i j hj
    · cases hj
  · intro q i hq
    rw [setPeer_peer] at hq
    by_cases hne : q = ui
    · subst hne
      rw [update_self, Option.some.injEq] at hq
      subst hq
      exact ⟨hui, hpeer, hino⟩
    · rw [update_of_ne hne] at hq
      exact h.peer q i hq
  · exact h.master
  · exact h.slave

theorem Linked.succ (h : Linked img n p) : Linked img (n + 1) p where
  queuer := h.queuer
  fake := h.fake
  peer q i hq := ⟨Nat.lt_succ_of_lt (h.peer q i hq).1, Nat.lt_succ_of_lt (h.peer q i hq).2.1,
    (h.peer q i hq).2.2⟩
  master := h.master
  slave := h.slave

theorem Linked.collectOne (h : Linked img n p) (hn : n < img.count) :
    Linked img (n + 1) (collectOneUnixsk img p n) := by
  have hnone : p.peer n = none := by
    cases hp : p.peer n with
    | none => rfl
    | some i => exact absurd (h.peer n i hp).1 (Nat.lt_irrefl n)
  unfold collectOneUnixsk tryResolveUnixPeer
  split
  swap
  · exact h.succ
  simp only [hnone, ne_eq, not_true_eq_false, if_false]
  split
  case isTrue hself => exact h.succ.setPeer hnone (by omega) (by omega) hself.symm
  case isFalse =>
    cases hfind : findUnixSkByIno img n (img.entry n).peer with
    | none => exact h.succ
    | some j =>
      have hj := List.mem_of_find?_eq_some hfind
      rw [List.mem_reverse, List.mem_range] at hj
      have hino : (img.entry j).ino = (img.entry n).peer := by simpa using List.find?_some hfind
      have hfirst : Linked img (n + 1) (UnixSockets.setPeer p n j) :=
        h.succ.setPeer hnone (by omega) (by omega) hino
      simp only
      split
      · -- the other one is connected to this socket, which was not there before
        rename_i hback
        refine hfirst.setPeer ?_ (by omega) (by omega) hback.symm
        rw [setPeer_peer, update_of_ne (by omega)]
        cases hp : p.peer j with
        | none => rfl
        | some k =>
          obtain ⟨-, hk, hki⟩ := h.peer j k hp
          have := img.ino_inj k n (by omega) hn (hki.trans hback)
          omega
      · exact hfirst

theorem linked_collect (img : Image) : Linked img img.count (collectUnixsk img) := by
  have h : ∀ n, n ≤ img.count →
      Linked img n ((List.range n).foldl (collectOneUnixsk img) initPrep) := by
    intro n
    induction n with
    | zero =>
      intro _
      exact ⟨fun i q hq => (nomatch hq), fun i j hj => (nomatch hj), fun q i hq => (nomatch hq),
        fun _ => rfl, fun _ => rfl⟩
    | succ n ih =>
      intro hn
      rw [List.range_succ, List.foldl_append]
      exact (ih (by omega)).collectOne (by omega)
  exact h img.count (Nat.le_refl _)

/-- Queuers lead back to their socket, and the ends of a pair to each other. -/
structure Consistent (p : Prep) : Prop where
  queuer : ∀ i q, p.queuer i = some (.real q) → p.peer q = some i
  fake : ∀ i j, p.queuer i = some (.fake j) → j = i
  master : ∀ i, p.master i = true → ∀ j, p.peer i = some j → j ≠ i
  slave : ∀ j, p.slave j = true → ∃ i, p.peer j = some i ∧ p.master i = true ∧ p.peer i = some j

theorem Consistent.fixup {p' : Prep} (h : Consistent p)
    (hf : fixupUnixPeer img p i = some p') : Consistent p' := by
  unfold fixupUnixPeer at hf
  split at hf
  · cases hf
    exact h
  cases hp : p.peer i with
  | none =>
    rw [hp] at hf
    cases hf
  | some j =>
    simp only [hp] at hf
    split at hf
    swap
    · cases hf
      exact h
    rename_i hpair
    cases hf
    refine ⟨h.queuer, h.fake, fun k hk m hm => ?_, fun k hk => ?_⟩
    · by_cases hki : k = i
      · subst hki
        rw [← Option.some.inj (hp.symm.trans hm)]
        exact hpair.1
      · simp only [update_of_ne hki] at hk
        exact h.master k hk m hm
    by_cases hkj : k = j
    · subst hkj
      exact ⟨i, hpair.2.1, update_self .., hp⟩
    simp only [update_of_ne hkj] at hk
    obtain ⟨m, hm, hmaster, hback⟩ := h.slave k hk
    refine ⟨m, hm, ?_, hback⟩
    by_cases hmi : m = i
    · rw [hmi]
      exact update_self ..
    · simp only [update_of_ne hmi]
      exact hmaster

theorem consistent_prepare (h : prepare img = some p) : Consistent p := by
  have hl := linked_collect img
  have hstart : Consistent (addFakeUnixQueuers img (collectUnixsk img)) := by
    refine ⟨fun i q hq => ?_, fun i j hj => ?_, fun i hi => ?_, fun j hj => ?_⟩
    · simp only [addFakeUnixQueuers] at hq
      split at hq
      · cases hq
      · exact hl.queuer i q hq
    · simp only [addFakeUnixQueuers] at hj
      split at hj
      · cases hj
        rfl
      · exact absurd hj (hl.fake i j)
    · simp [addFakeUnixQueuers, hl.master i] at hi
    · simp [addFakeUnixQueuers, hl.slave j] at hj
  have hstep : ∀ (s : Prep) (i : ℕ) (t : Prep), i ∈ (List.range img.count).reverse →
      Consistent s → fixupUnixPeer img s i = some t → Consistent t ∧ True :=
    fun s i t _ hs ht => ⟨hs.fixup ht, trivial⟩
  exact (Run.foldlM_invariant hstep hstart h).1

end Criu.UnixSockets

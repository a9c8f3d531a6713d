import Criu.EpollTargets

/-!
The tasks open their files and fill the eventpoll files again. A task that comes to the master of
an eventpoll file creates it and, when the file has targets elsewhere, puts it into the store for
all tasks. The task that opens a descriptor from the tree takes the file from the store and adds
the descriptor to it; the other targets are added by the file's own task once they are ready.
-/

namespace Criu.EpollRestore

open FdDistribution (Layout Stage Ret)
open EpollTargets

variable {ε δ : Type}

/-- One `EPOLL_CTL_ADD`: the task that makes it, the file, and the arguments. -/
structure CtlAdd (δ : Type) where
  task : ℕ
  epoll : δ
  tfd : ℕ
  events : ℕ
  data : ℕ
deriving DecidableEq, Repr

/-- `store` is the descriptor store, in which other files may be too; `fdstoreId` has none for -1.
An entry leaves the list of its task when it is restored. -/
structure State (ε δ : Type) where
  stage : ε → Stage
  store : List (Option δ)
  fdstoreId : δ → Option ℕ
  fdstoreReady : δ → Bool
  log : List (CtlAdd δ)

def initState : State ε δ where
  stage _ := .initialized
  store := []
  fdstoreId _ := none
  fdstoreReady _ := false
  log := []

/-- What the rest of the system does in a visit: whether the message with a file of another master
has come, whether `epoll_ctl` succeeds, and what the open method of any other kind of file does. It
may return a new descriptor, open the other end of a pair, and put files into the store. -/
structure Sys (ε : Type) where
  received : Bool
  addOk : Bool
  ret : Ret
  newFd : Bool
  secondEnds : List ε
  stored : ℕ
deriving DecidableEq, Repr

/-- `fdstore_get`: with the id -1 the store has no peek offset and gives its first file. -/
def fdstoreGet (s : State ε δ) : Option ℕ → Option (Option δ)
  | none => s.store.head?
  | some id => s.store[id]?

/-- `eventpoll_retore_tfd` fails on what is not an eventpoll file. -/
def eventpollRetoreTfd (s : State ε δ) (sys : Sys ε) (task : ℕ) (efd : Option δ)
    (e : TfdEntry) : Option (State ε δ) :=
  match efd with
  | none => none
  | some d =>
      if sys.addOk then some { s with log := s.log ++ [⟨task, d, e.tfd, e.events, e.data⟩] }
      else none

variable [DecidableEq ε] [DecidableEq δ] (I : Image ε δ) (p : Prep δ)

def State.setStage (s : State ε δ) (f : ε) (st : Stage) : State ε δ :=
  { s with stage := Function.update s.stage f st }

/-- `fdstore_add` for an eventpoll file, with what is noted of it. -/
def State.putStore (s : State ε δ) (d : δ) : State ε δ :=
  { s with
    store := s.store ++ [some d]
    fdstoreId := Function.update s.fdstoreId d (some s.store.length)
    fdstoreReady := Function.update s.fdstoreReady d true }

/-- `eventpoll_notify_pre_open` returns 0. -/
def preOpenOk (s : State ε δ) (f : ε) : Bool :=
  match epollLookupTarget p.tree (I.layout.task f) (I.layout.fd f) with
  | none => true
  | some t => s.fdstoreReady t.info

def eventpollNotifyOpen (s : State ε δ) (sys : Sys ε) (f : ε) : Option (State ε δ) :=
  match epollLookupTarget p.tree (I.layout.task f) (I.layout.fd f) with
  | none => some s
  | some t =>
      (fdstoreGet s (s.fdstoreId t.info)).bind fun efd =>
        eventpollRetoreTfd s sys (I.layout.task f) efd t.tfde

/-- The entry of the current task with the number of a target is not there yet. -/
def epollNotReadyTfd (s : State ε δ) (task : ℕ) (e : TfdEntry) : Bool :=
  match (I.layout.fds task).find? (fun f => s.stage f ≠ .restored ∧ I.layout.fd f = e.tfd) with
  | none => false
  | some f => if I.layout.desc f ∈ I.epolls then s.stage f = .initialized else true

def restoreTfds (sys : Sys ε) (task : ℕ) (d : δ) : State ε δ → List TfdEntry → Option (State ε δ)
  | s, [] => some s
  | s, e :: es =>
      (eventpollRetoreTfd s sys task (some d) e).bind fun s => restoreTfds sys task d s es

/-- `eventpoll_post_open` for the master `f`, with the end of `open_fd`. -/
def eventpollPostOpen (s : State ε δ) (sys : Sys ε) (f : ε) : Option (State ε δ) :=
  let d := I.layout.desc f
  let tfds := (p.own d).reduceOption
  if tfds.any (epollNotReadyTfd I s (I.layout.task f)) then some s
  else (restoreTfds sys (I.layout.task f) d s tfds).map fun s => s.setStage f .restored

/-- `eventpoll_open` for the master `f` with the end of `open_fd`. -/
def eventpollOpen (s : State ε δ) (sys : Sys ε) (f : ε) : Option (State ε δ) :=
  let d := I.layout.desc f
  if s.stage f ≠ .initialized then eventpollPostOpen I p s sys f
  else
    let s := if p.needed d then s.putStore d else s
    eventpollNotifyOpen I p (s.setStage f .opened) sys f

/-- What other open methods keep to: a new descriptor comes once for an entry, 0 is not returned
before it, and only masters of other kinds of files in the same task are opened along. -/
def Sys.Legal (s : State ε δ) (f : ε) (sys : Sys ε) : Prop :=
  sys.ret ≠ .error ∧
    (sys.newFd = true → s.stage f = .initialized) ∧
    (sys.ret = .done → s.stage f ≠ .initialized ∨ sys.newFd = true) ∧
    ∀ q ∈ sys.secondEnds, q ≠ f ∧ I.layout.task q = I.layout.task f ∧ I.layout.Leads q ∧
      s.stage q = .initialized ∧ I.layout.desc q ∉ I.epolls

instance (s : State ε δ) (f : ε) (sys : Sys ε) : Decidable (sys.Legal I s f) :=
  inferInstanceAs (Decidable (_ ∧ _ ∧ _ ∧ _))

def State.openAlong (s : State ε δ) (ends : List ε) (stored : ℕ) : State ε δ :=
  { s with
    store := s.store ++ List.replicate stored none
    stage := fun g => if g ∈ ends then .opened else s.stage g }

def otherOpen (s : State ε δ) (sys : Sys ε) (f : ε) : Option (State ε δ) :=
  if sys.Legal I s f then
    let s := s.openAlong sys.secondEnds sys.stored
    (if sys.newFd then eventpollNotifyOpen I p (s.setStage f .opened) sys f else some s).map
      fun s => if sys.ret = .done then s.setStage f .restored else s
  else none

/-- `open_fd` on an entry that is on the list of its task. Without a state the restore failed; 1 is
returned with the entry left on the list. -/
def openFd (s : State ε δ) (f : ε) (sys : Sys ε) : Option (State ε δ) :=
  if s.stage f = .restored then none
  else if ¬ I.layout.Leads f then
    if sys.received then
      (eventpollNotifyOpen I p s sys f).map fun s => s.setStage f .restored
    else some s
  else if preOpenOk I p s f = false then some s
  else if I.layout.desc f ∈ I.epolls then eventpollOpen I p s sys f
  else otherOpen I p s sys f

end Criu.EpollRestore

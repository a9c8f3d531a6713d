import Mathlib.Data.List.Count
import Mathlib.Data.List.Nodup
import Criu.Lib.Run

/-!
How tasks share files at restore (criu/files.c). Every task goes through the entries of its list
again and again. The master entry of a file opens it and serves it out to the other entries, those
of its own task by `dup2` and those of other tasks by a message. Files that one system call creates
in pairs are sent to the master entry of the other end in the same way. A task that made no
progress waits until its event bit is set, which a sender does after the message.
-/

namespace Criu.FdDistribution

open Function

/-- `FLE_INITIALIZED`, `FLE_OPEN` and `FLE_RESTORED`. -/
inductive Stage
  | initialized
  | opened
  | restored
deriving DecidableEq, Repr

inductive Ret
  | done
  | again
  | error
deriving DecidableEq, Repr

variable {τ ε δ : Type}

/-- The entries of all tasks. An entry (`fdinfo_list_entry`) belongs to the task that has it on its
list and to the file it describes, and one of the users of a file is its master. The open method
of a passive master gets the file from a peer, with `recv_desc_from_peer`. -/
structure Layout (τ ε δ : Type) where
  task : ε → τ
  fd : ε → ℕ
  desc : ε → δ
  users : δ → List ε
  master : δ → ε
  passive : ε → Bool
  fds : τ → List ε
  mem_users : ∀ e d, e ∈ users d ↔ desc e = d
  users_nodup : ∀ d, (users d).Nodup
  desc_master : ∀ d, desc (master d) = d
  mem_fds : ∀ e t, e ∈ fds t ↔ task e = t
  fds_nodup : ∀ t, (fds t).Nodup
  fd_inj : ∀ e e', task e = task e' → fd e = fd e' → e = e'

def Layout.Leads (L : Layout τ ε δ) (e : ε) : Prop :=
  L.master (L.desc e) = e

theorem leads_master (L : Layout τ ε δ) (d : δ) : L.Leads (L.master d) := by
  rw [Layout.Leads, L.desc_master]

/-- The file comes to the entry from outside: from its master, or from the peer of the file. -/
def Layout.Awaits (L : Layout τ ε δ) (e : ε) : Prop :=
  L.Leads e → L.passive e = true

instance [DecidableEq ε] (L : Layout τ ε δ) (e : ε) : Decidable (L.Leads e) :=
  inferInstanceAs (Decidable (_ = _))

structure Cursor (ε : Type) where
  todo : List ε
  progress : Bool
  again : Bool
deriving DecidableEq, Repr

/-- The visit of an entry: its stage before, and what `open_fd` is to return. -/
structure Visit (ε : Type) where
  fle : ε
  before : Stage
  ret : Ret
deriving DecidableEq, Repr

/-- What is left to send in a visit: files to the masters of their other ends, then the open file
of `source` to its users, then the files of other masters in turn. -/
structure Work (ε : Type) where
  posts : List ε
  source : ε
  users : List ε
  more : List ε
deriving DecidableEq, Repr

inductive Pc (τ ε : Type)
  | clear
  | visit (c : Cursor ε)
  | receive (c : Cursor ε) (fle : ε)
  | serve (c : Cursor ε) (v : Visit ε) (w : Work ε)
  | signal (target : τ) (c : Cursor ε) (v : Visit ε) (w : Work ε)
  | wait
  | woken
  | finished
  | failed
deriving DecidableEq, Repr

/-- `queue` has the messages on the transport socket of a task, `event` is its event bit,
`skipped` has the masters that its pass went by without a look at the messages, `planted` counts
how often a file was put at the number of an entry, and `poster` is the task whose open method
sends the file of a passive master. -/
structure State (τ ε : Type) where
  pc : τ → Pc τ ε
  stage : ε → Stage
  received : ε → Bool
  listed : τ → List ε
  queue : τ → List ε
  event : τ → Bool
  skipped : τ → List ε
  planted : ε → ℕ
  poster : ε → Option τ
  bug : Bool

def initState (L : Layout τ ε δ) : State τ ε where
  pc _ := .clear
  stage _ := .initialized
  received _ := false
  listed := L.fds
  queue _ := []
  event _ := false
  skipped _ := []
  planted _ := 0
  poster _ := none
  bug := false

/-- What an open method does: what it returns, whether it first waits for its own message, which
passive masters it sends a file to, and which masters of the task have a new descriptor after it
(the visited one, or also the other end of a socket pair). -/
structure Opens (ε : Type) where
  ret : Ret
  receives : Bool
  posts : List ε
  served : List ε
deriving DecidableEq, Repr

namespace State

variable [DecidableEq ε]

def post (s : State τ ε) (t : τ) (ps : List ε) : State τ ε :=
  { s with poster := fun e => if e ∈ ps then some t else s.poster e }

def receiveFd (s : State τ ε) (e : ε) : State τ ε :=
  { s with
    received := update s.received e true
    planted := update s.planted e (s.planted e + 1) }

/-- A second file for the same entry is a bug. -/
def plantFd (s : State τ ε) (e : ε) : State τ ε :=
  { s with bug := s.bug || s.received e }.receiveFd e

def markOpen (s : State τ ε) (m : ε) : State τ ε :=
  { s with
    bug := s.bug || decide (s.stage m ≠ Stage.initialized)
    stage := update s.stage m .opened }

@[simp]
theorem markOpen_stage (s : State τ ε) (m : ε) :
    (s.markOpen m).stage = update s.stage m .opened := rfl

@[simp]
theorem post_poster (s : State τ ε) (t : τ) (ps : List ε) (e : ε) :
    (s.post t ps).poster e = if e ∈ ps then some t else s.poster e := rfl

@[simp]
theorem receiveFd_received (s : State τ ε) (e : ε) :
    (s.receiveFd e).received = update s.received e true := rfl

@[simp]
theorem receiveFd_planted (s : State τ ε) (e : ε) :
    (s.receiveFd e).planted = update s.planted e (s.planted e + 1) := rfl

end State

namespace State

variable [DecidableEq τ]

def goto (s : State τ ε) (t : τ) (pc : Pc τ ε) : State τ ε :=
  { s with pc := update s.pc t pc }

def setEvent (s : State τ ε) (t : τ) (b : Bool) : State τ ε :=
  { s with event := update s.event t b }

def setSkipped (s : State τ ε) (t : τ) (l : List ε) : State τ ε :=
  { s with skipped := update s.skipped t l }

def setQueue (s : State τ ε) (t : τ) (q : List ε) : State τ ε :=
  { s with queue := update s.queue t q }

def send (L : Layout τ ε δ) (s : State τ ε) (e : ε) : State τ ε :=
  s.setQueue (L.task e) (s.queue (L.task e) ++ [e])

def complete [DecidableEq ε] (s : State τ ε) (t : τ) (e : ε) : State τ ε :=
  { s with
    stage := update s.stage e .restored
    listed := update s.listed t ((s.listed t).erase e) }

@[simp]
theorem goto_pc (s : State τ ε) (t : τ) (pc : Pc τ ε) : (s.goto t pc).pc = update s.pc t pc := rfl

@[simp]
theorem setEvent_event (s : State τ ε) (t : τ) (b : Bool) :
    (s.setEvent t b).event = update s.event t b := rfl

@[simp]
theorem setSkipped_skipped (s : State τ ε) (t : τ) (l : List ε) :
    (s.setSkipped t l).skipped = update s.skipped t l := rfl

@[simp]
theorem setQueue_queue (s : State τ ε) (t : τ) (q : List ε) :
    (s.setQueue t q).queue = update s.queue t q := rfl

end State

variable [DecidableEq τ] [DecidableEq ε]

/-- The end of `open_fd`, and what `open_fdinfos` makes of its result. -/
def finishVisit (s : State τ ε) (t : τ) (c : Cursor ε) (v : Visit ε) : State τ ε :=
  match v.ret with
  | .done => (s.complete t v.fle).goto t (.visit ⟨c.todo, true, c.again⟩)
  | .again =>
      s.goto t (.visit ⟨c.todo, c.progress || decide (v.before ≠ s.stage v.fle), true⟩)
  | .error => s.goto t .failed

variable (L : Layout τ ε δ)

/-- `setup_and_serve_out` for the next master, if there is one. -/
def nextServed (s : State τ ε) (t : τ) (c : Cursor ε) (v : Visit ε) : List ε → State τ ε
  | [] => finishVisit s t c v
  | m :: more =>
      (s.markOpen m).goto t (.serve c v ⟨[], m, L.users (L.desc m), more⟩)

/-- What the engine asks of open methods: a new descriptor comes once for an entry, and not before
the file of a passive one has arrived; 0 is not returned before it; and the file of a passive
master is sent once. -/
def Opens.Legal (s : State τ ε) (t : τ) (fle : ε) (o : Opens ε) : Prop :=
  o.served.Nodup ∧
    (∀ m ∈ o.served, L.task m = t ∧ L.Leads m ∧ s.stage m = .initialized ∧
      (L.passive m = true → s.received m = true)) ∧
    (o.ret = .done → s.stage fle ≠ .initialized ∨ fle ∈ o.served) ∧
    o.posts.Nodup ∧
    ∀ p ∈ o.posts, L.Leads p ∧ L.passive p = true ∧ s.poster p = none

instance (s : State τ ε) (t : τ) (fle : ε) (o : Opens ε) : Decidable (o.Legal L s t fle) :=
  inferInstanceAs (Decidable (_ ∧ _ ∧ _ ∧ _ ∧ _))

def openMaster (s : State τ ε) (t : τ) (c : Cursor ε) (fle : ε) (o : Opens ε) :
    Option (State τ ε) :=
  if o.Legal L s t fle then
    some ((s.post t o.posts).goto t
      (.serve c ⟨fle, s.stage fle, o.ret⟩ ⟨o.posts, fle, [], o.served⟩))
  else none

/-- `open_fd` of an entry that is not the master ends with `eventpoll_notify_open`, which can only
succeed or fail. -/
def openReceived (s : State τ ε) (t : τ) (c : Cursor ε) (fle : ε) (o : Opens ε) : State τ ε :=
  finishVisit s t c ⟨fle, s.stage fle, if o.ret = .error then .error else .done⟩

/-- `open_fd` up to the point where it waits for a message or sends one. -/
def visitEntry (s : State τ ε) (t : τ) (c : Cursor ε) (fle : ε) (o : Opens ε) :
    Option (State τ ε) :=
  if L.Leads fle then
    if o.receives = true ∧ s.received fle = false then
      if L.passive fle then some (s.goto t (.receive c fle)) else none
    else openMaster L (s.setSkipped t (fle :: s.skipped t)) t c fle o
  else
    let s := { s with bug := s.bug || decide (s.stage fle ≠ .initialized) }
    if s.received fle then some (openReceived s t c fle o)
    else some (s.goto t (.receive c fle))

def receiveOne (s : State τ ε) (t : τ) (c : Cursor ε) (fle : ε) (o : Opens ε) :
    Option (State τ ε) :=
  match s.queue t with
  | [] => some (s.goto t (.visit ⟨c.todo, c.progress, true⟩))
  | m :: rest =>
      let s := s.setQueue t rest
      if m ∉ s.listed t then some (s.goto t .failed)
      else
        let s := s.plantFd m
        if m ≠ fle then some s
        else if L.Leads fle then openMaster L s t c fle o
        else some (openReceived s t c fle o)

/-- The next message of `send_desc_to_peer`, or the next user in `serve_out_fd`. -/
def serveOne (s : State τ ε) (t : τ) (c : Cursor ε) (v : Visit ε) (w : Work ε) : State τ ε :=
  match w.posts, w.users with
  | p :: posts, users =>
      (s.send L p).goto t (.signal (L.task p) c v ⟨posts, w.source, users, w.more⟩)
  | [], [] => nextServed L s t c v w.more
  | [], u :: users =>
      if L.task u = t then
        (if L.fd u = L.fd w.source then s else s.receiveFd u).goto t
          (.serve c v ⟨[], w.source, users, w.more⟩)
      else
        (s.send L u).goto t (.signal (L.task u) c v ⟨[], w.source, users, w.more⟩)

def passEnd (s : State τ ε) (t : τ) (c : Cursor ε) : State τ ε :=
  if c.progress = false ∧ c.again = true then s.goto t .wait
  else if c.progress = true ∨ c.again = true then s.goto t .clear
  else { s with bug := s.bug || decide (s.listed t ≠ []) }.goto t .finished

def runTask (s : State τ ε) (t : τ) (o : Opens ε) : Option (State τ ε) :=
  match s.pc t with
  | .clear =>
      some (((s.setEvent t false).setSkipped t []).goto t (.visit ⟨s.listed t, false, false⟩))
  | .visit ⟨[], progress, again⟩ => some (passEnd s t ⟨[], progress, again⟩)
  | .visit ⟨fle :: todo, progress, again⟩ => visitEntry L s t ⟨todo, progress, again⟩ fle o
  | .receive c fle => receiveOne L s t c fle o
  | .serve c v w => some (serveOne L s t c v w)
  | .signal target c v w => some ((s.setEvent target true).goto t (.serve c v w))
  | .wait => if s.event t then some (s.goto t .woken) else none
  | .woken => some ((s.setEvent t false).goto t .clear)
  | .finished => none
  | .failed => none

/-- A task takes a step, or another subsystem wakes a task with `set_fds_event`. -/
inductive Action (τ ε : Type)
  | run (t : τ) (o : Opens ε)
  | notify (t : τ)
deriving DecidableEq, Repr

def step (s : State τ ε) : Action τ ε → Option (State τ ε)
  | .run t o => runTask L s t o
  | .notify t => some (s.setEvent t true)

end Criu.FdDistribution

import Criu.RemoteDump
import Criu.LazyBuffers

/-!
Reads from a page server that answers later (criu/page-xfer.c). A request for pages is sent, and a
read is put at the end of a queue; whenever the socket has something, the first read of the queue
goes on with its header or with its pages. Requests, arrivals and reads of any sizes come in any
order. The state keeps what was asked for and answered, and what the reads were completed with.
-/

namespace Criu.RemoteReads

open Blit Pagemap PageServer RemoteDump List

variable {mem : ℕ → UInt8} {n : ℕ}
open LazyDaemon (cInt)

/-- `request_remote_pages` followed by `page_server_start_async_read`; `priv` stands for the
arguments of the read that are only handed back. -/
structure Request where
  imgId : ℕ
  vaddr : ℕ
  nrPages : ℕ
  buf : ℕ
  priv : ℕ
  nrPages_lt : nrPages < 2 ^ 31

structure Answer where
  pi : PageServerIov
  pages : List UInt8
  pages_length : pages.length = pi.nrPages * pageSize

def answerBytes (a : Answer) : List UInt8 := psiBytes a.pi ++ a.pages

/-- `struct ps_async_read`, with the header as far as it has arrived. -/
structure PsAsyncRead where
  rb : ℕ
  goal : ℕ
  nrPages : ℕ
  pi : List UInt8
  pages : ℕ
  priv : ℕ

def asyncReadSetGoal (ar : PsAsyncRead) (nrPages : ℕ) : PsAsyncRead :=
  { ar with goal := psiSize + nrPages * pageSize, nrPages := nrPages }

def initPsAsyncRead (buf nrPages priv : ℕ) : PsAsyncRead :=
  asyncReadSetGoal ⟨0, 0, 0, [], buf, priv⟩ nrPages

/-- What `complete` is called with, and what is then in the buffer. -/
structure Completion where
  dstId : ℤ
  vaddr : ℕ
  nrPages : ℤ
  priv : ℕ
  contents : List UInt8

/-- A difference that is stored in an `int` and then passed on as a `size_t`. -/
def intSize (n : ℕ) : ℕ :=
  if n % 2 ^ 32 < 2 ^ 31 then n % 2 ^ 32 else n % 2 ^ 32 + (2 ^ 64 - 2 ^ 32)

/-- The server may return fewer pages than it was asked for. -/
def shrinkGoal (ar : PsAsyncRead) : PsAsyncRead :=
  if (recvPsi ar.pi).1.nrPages < ar.nrPages then asyncReadSetGoal ar (recvPsi ar.pi).1.nrPages
  else ar

/-- The length that the first read of the queue passes to `recv`. -/
def recvLen (ar : PsAsyncRead) : ℕ :=
  if ar.rb < psiSize then psiSize - ar.rb else intSize ((shrinkGoal ar).goal - ar.rb)

def recvInto (mem : ℕ → UInt8) (pos : ℕ) (bytes : List UInt8) : ℕ → UInt8 :=
  blit mem pos (fun i => bytes.getD i 0) 0 bytes.length

def complete (ar : PsAsyncRead) (mem : ℕ → UInt8) : Completion :=
  let pi := (recvPsi ar.pi).1
  { dstId := cInt pi.dstId
    vaddr := pi.vaddr
    nrPages := cInt pi.nrPages
    priv := ar.priv
    contents := (List.range (pi.nrPages * pageSize)).map (fun j => mem (ar.pages + j)) }

inductive ReadResult
  | more (ar : PsAsyncRead) (mem : ℕ → UInt8)
  | done (c : Completion) (mem : ℕ → UInt8)
  | bug

/-- Bytes go to the header first and then to the buffer. -/
def receive (mem : ℕ → UInt8) (ar : PsAsyncRead) (bytes : List UInt8) :
    PsAsyncRead × (ℕ → UInt8) :=
  if ar.rb < psiSize then ({ ar with pi := ar.pi ++ bytes, rb := ar.rb + bytes.length }, mem)
  else
    ({ shrinkGoal ar with rb := ar.rb + bytes.length },
      recvInto mem (ar.pages + (ar.rb - psiSize)) bytes)

/-- `page_server_read`, when `recv` returns `bytes`. -/
def pageServerRead (mem : ℕ → UInt8) (ar : PsAsyncRead) (bytes : List UInt8) : ReadResult :=
  let (ar', mem') := receive mem ar bytes
  if ar'.rb < ar'.goal then .more ar' mem'
  else if ar'.goal < ar'.rb then .bug
  else .done (complete ar' mem') mem'

structure State where
  log : List (Request × Answer)
  wire : List UInt8
  sk : List UInt8
  asyncReads : List PsAsyncRead
  mem : ℕ → UInt8
  completed : List Completion

/-- `page_server_async_read`, when `recv` returns `n` bytes; nothing comes of it where `BUG_ON` is
hit. -/
def pageServerAsyncRead (s : State) (n : ℕ) : Option State :=
  match s.asyncReads with
  | [] => none
  | ar :: rest =>
      match pageServerRead s.mem ar (s.sk.take n) with
      | .more ar' mem => some { s with sk := s.sk.drop n, asyncReads := ar' :: rest, mem := mem }
      | .done c mem =>
          some { s with
            sk := s.sk.drop n
            asyncReads := rest
            mem := mem
            completed := s.completed ++ [c] }
      | .bug => none

/-- A request and the answer it will get, an arrival of some bytes, or a read event in which `recv`
returns `n` bytes. -/
inductive Event
  | request (r : Request) (a : Answer)
  | arrive (n : ℕ)
  | read (n : ℕ)

/-- No call of the kernel transfers more. -/
def maxRwCount : ℕ := 2 ^ 31 - 4096

/-- There are events as long as something is at the socket, and `recv` returns no more than there
is and than it was asked for. -/
structure CanRead (s : State) (n : ℕ) : Prop where
  ready : s.sk ≠ []
  avail : n ≤ s.sk.length
  asked : ∀ ar ∈ s.asyncReads.head?, n ≤ recvLen ar
  capped : n ≤ maxRwCount

def Step (s : State) (e : Event) (t : State) : Prop :=
  match e with
  | .request r a =>
      t = { s with
        log := s.log ++ [(r, a)]
        wire := s.wire ++ answerBytes a
        asyncReads := s.asyncReads ++ [initPsAsyncRead r.buf r.nrPages r.priv] }
  | .arrive n => t = { s with wire := s.wire.drop n, sk := s.sk ++ s.wire.take n }
  | .read n => CanRead s n ∧ pageServerAsyncRead s n = some t

def startState (mem : ℕ → UInt8) : State := ⟨[], [], [], [], mem, []⟩

def AtMost (_ : State) : Event → Prop
  | .request r a => a.pi.nrPages ≤ r.nrPages
  | _ => True

/-- An answer without pages is only for a request without pages, and four gigabytes are too much
for one answer. -/
def Regular (_ : State) : Event → Prop
  | .request r a => a.pi.nrPages ≤ r.nrPages ∧ (a.pi.nrPages = 0 → r.nrPages = 0) ∧
      a.pi.nrPages < 2 ^ 20
  | _ => True

section Property

def expected (x : Request × Answer) : Completion where
  dstId := cInt x.2.pi.dstId
  vaddr := x.2.pi.vaddr
  nrPages := x.2.pi.nrPages
  priv := x.1.priv
  contents := x.2.pages

def frontBytes (s : State) : ℕ := (s.asyncReads.head?.map (·.rb)).getD 0

/-- Reads are completed in the order of the requests, each with its own answer, and the first one
in the queue takes nothing of the next answer; all are completed when all answers are there, and no
event finds the client in a bad state or unable to go on. -/
structure InOrder (mem : ℕ → UInt8) (s : State) : Prop where
  completed : s.completed = (s.log.take s.completed.length).map expected
  waiting : s.asyncReads.map (·.priv) = (s.log.drop s.completed.length).map (·.1.priv)
  unread : s.sk ++ s.wire =
    ((s.log.drop s.completed.length).flatMap (fun x => answerBytes x.2)).drop (frontBytes s)
  own : ∀ x ∈ (s.log.drop s.completed.length).head?, frontBytes s < (answerBytes x.2).length
  outside : ∀ addr, (∀ x ∈ s.log, ¬ (x.1.buf ≤ addr ∧ addr < x.1.buf + x.2.pages.length)) →
    s.mem addr = mem addr
  finished : s.sk = [] → s.wire = [] → s.completed = s.log.map expected
  safe : ∀ n, CanRead s n → ∃ t, pageServerAsyncRead s n = some t
  live : s.sk ≠ [] → CanRead s 1

end Property

section Read

variable {r : Request} {a : Answer} {ar : PsAsyncRead}

theorem answerBytes_length (a : Answer) :
    (answerBytes a).length = psiSize + a.pi.nrPages * pageSize := by
  unfold answerBytes
  rw [length_append, psiBytes_length, a.pages_length]

theorem recvPsi_psiBytes (pi : PageServerIov) : (recvPsi (psiBytes pi)).1 = pi := by
  have := recvPsi_append pi []
  rw [append_nil] at this
  rw [this]

/-- A read that has some of its answer. Its goal is for the pages that were asked for, until it
goes on behind the header. -/
structure Partial (mem : ℕ → UInt8) (r : Request) (a : Answer) (ar : PsAsyncRead) : Prop where
  priv : ar.priv = r.priv
  pages : ar.pages = r.buf
  lacks : ar.rb < (answerBytes a).length
  header : ar.pi = (psiBytes a.pi).take ar.rb
  data : ∀ j, psiSize + j < ar.rb → mem (r.buf + j) = a.pages.getD j 0
  goal : ar.goal = psiSize + ar.nrPages * pageSize
  nrPages : ar.nrPages = r.nrPages ∨ ar.nrPages = a.pi.nrPages
  shrunk : psiSize < ar.rb → ar.nrPages = a.pi.nrPages

structure Fits (r : Request) (a : Answer) : Prop where
  le : a.pi.nrPages ≤ r.nrPages
  zero : a.pi.nrPages = 0 → r.nrPages = 0
  short : a.pi.nrPages < 2 ^ 20

theorem initPsAsyncRead_outstanding (mem : ℕ → UInt8) (r : Request) (a : Answer) :
    Partial mem r a (initPsAsyncRead r.buf r.nrPages r.priv) := by
  constructor
  · rfl
  · rfl
  · rw [answerBytes_length]
    have hsize : 0 < psiSize := by decide
    exact Nat.lt_of_lt_of_le hsize (Nat.le_add_right psiSize _)
  · rfl
  · exact fun j hj => absurd hj (Nat.not_lt_zero _)
  · rfl
  · exact .inl rfl
  · exact fun h => absurd h (Nat.not_lt_zero _)

namespace Partial

theorem header_read (h : Partial mem r a ar) (hrb : psiSize ≤ ar.rb) :
    (recvPsi ar.pi).1 = a.pi := by
  rw [h.header, take_of_length_le (by exact hrb)]
  exact recvPsi_psiBytes a.pi

/-- Behind the header the goal is the end of the answer. -/
theorem shrinkGoal_eq (h : Partial mem r a ar) (hf : Fits r a) (hrb : psiSize ≤ ar.rb) :
    shrinkGoal ar = { ar with
      goal := (answerBytes a).length
      nrPages := a.pi.nrPages } := by
  unfold shrinkGoal
  rw [h.header_read hrb, answerBytes_length]
  split
  · rfl
  next hge =>
  have hnr : ar.nrPages = a.pi.nrPages := by
    rcases h.nrPages with hnr | hnr
    · have := hf.le
      omega
    · exact hnr
  rw [← hnr, ← h.goal]

/-- The read asks for something, and for nothing behind its own answer. -/
theorem recvLen_le (h : Partial mem r a ar) (hf : Fits r a) :
    0 < recvLen ar ∧ min (recvLen ar) maxRwCount ≤ (answerBytes a).length - ar.rb := by
  have hlacks := h.lacks
  unfold recvLen
  by_cases hrb : ar.rb < psiSize
  · rw [if_pos hrb]
    rw [answerBytes_length]
    omega
  rw [if_neg hrb, h.shrinkGoal_eq hf (Nat.not_lt.mp hrb)]
  have hshort := hf.short
  rw [answerBytes_length] at hlacks ⊢
  simp only [pageSize] at hlacks ⊢
  unfold intSize maxRwCount
  split <;> omega

end Partial

theorem recvInto_outside (mem : ℕ → UInt8) {pos x : ℕ} {bytes : List UInt8}
    (h : ¬ (pos ≤ x ∧ x < pos + bytes.length)) : recvInto mem pos bytes x = mem x :=
  blit_outside mem _ h

theorem complete_eq (hf : Fits r a)
    (hpi : (recvPsi ar.pi).1 = a.pi) (hpages : ar.pages = r.buf) (hpriv : ar.priv = r.priv)
    (hdata : ∀ j < a.pages.length, mem (r.buf + j) = a.pages.getD j 0) :
    complete ar mem = expected (r, a) := by
  have hcontents : (List.range a.pages.length).map (fun j => mem (r.buf + j)) = a.pages := by
    apply ext_getElem
    · simp
    · intro j hj hj'
      simp [hdata j hj', hj']
  have hnr : cInt a.pi.nrPages = a.pi.nrPages :=
    LazyBuffers.cInt_of_lt (Nat.lt_trans hf.short (by decide))
  simp only [complete, expected, hpi, hpages, hpriv, hnr, ← a.pages_length, hcontents]

inductive Went (mem : ℕ → UInt8) (r : Request) (a : Answer) (rb : ℕ) : ReadResult → Prop
  | more {ar : PsAsyncRead} {mem' : ℕ → UInt8} (h : Partial mem' r a ar) (hrb : ar.rb = rb)
      (hout : ∀ x, ¬ (r.buf ≤ x ∧ x < r.buf + a.pages.length) → mem' x = mem x) :
      Went mem r a rb (.more ar mem')
  | done {c : Completion} {mem' : ℕ → UInt8} (hc : c = expected (r, a))
      (hrb : (answerBytes a).length = rb)
      (hout : ∀ x, ¬ (r.buf ≤ x ∧ x < r.buf + a.pages.length) → mem' x = mem x) :
      Went mem r a rb (.done c mem')

theorem pageServerRead_header (h : Partial mem r a ar) (hf : Fits r a)
    (hrb : ar.rb < psiSize) (hn : ar.rb + n ≤ psiSize) :
    Went mem r a (ar.rb + n) (pageServerRead mem ar (((answerBytes a).drop ar.rb).take n)) := by
  have hlen := psiBytes_length a.pi
  have hbytes : ((answerBytes a).drop ar.rb).take n = ((psiBytes a.pi).drop ar.rb).take n := by
    unfold answerBytes
    rw [drop_append_of_le_length (by omega), take_append_of_le_length]
    rw [length_drop]
    omega
  have hcount : (((psiBytes a.pi).drop ar.rb).take n).length = n := by
    rw [length_take, length_drop]
    omega
  have hpi : ar.pi ++ ((psiBytes a.pi).drop ar.rb).take n = (psiBytes a.pi).take (ar.rb + n) := by
    rw [h.header, ← take_add]
  have hgoal := h.goal
  have hle := hf.le
  have hnr := h.nrPages
  unfold pageServerRead receive
  rw [hbytes, if_pos hrb, hcount, hpi]
  dsimp only
  by_cases hmore : ar.rb + n < ar.goal
  · rw [if_pos hmore]
    refine .more ⟨h.priv, h.pages, ?_, rfl, fun j hj => ?_, h.goal, h.nrPages, fun hgt => ?_⟩ rfl
      (fun _ _ => rfl)
    · rw [answerBytes_length]
      dsimp only
      by_cases hzero : a.pi.nrPages = 0
      · have := hf.zero hzero
        have hnone : ar.nrPages = 0 := by omega
        rw [hnone] at hgoal
        omega
      · have : 0 < a.pi.nrPages * pageSize := Nat.mul_pos (by omega) (by decide)
        omega
    · dsimp only at hj
      omega
    · dsimp only at hgt
      omega
  · rw [if_neg hmore, if_neg (by omega)]
    have hnone : ar.nrPages * pageSize = 0 := by omega
    have hzero : a.pi.nrPages = 0 := by
      have := (Nat.mul_eq_zero.mp hnone).resolve_right (by decide)
      omega
    have hempty : a.pages.length = 0 := by rw [a.pages_length, hzero, Nat.zero_mul]
    have hdone : ar.rb + n = psiSize := by omega
    have hread : (recvPsi ((psiBytes a.pi).take (ar.rb + n))).1 = a.pi := by
      rw [hdone]
      exact recvPsi_psiBytes a.pi
    refine .done (complete_eq hf hread h.pages h.priv (fun j hj => by omega)) ?_ (fun _ _ => rfl)
    rw [answerBytes_length, hzero]
    omega

theorem pageServerRead_data (h : Partial mem r a ar) (hf : Fits r a)
    (hrb : psiSize ≤ ar.rb) (hn : ar.rb + n ≤ (answerBytes a).length) :
    Went mem r a (ar.rb + n) (pageServerRead mem ar (((answerBytes a).drop ar.rb).take n)) := by
  have hlen := psiBytes_length a.pi
  have htotal : (answerBytes a).length = psiSize + a.pages.length := by
    rw [answerBytes_length, a.pages_length]
  have hbytes : ((answerBytes a).drop ar.rb).take n = (a.pages.drop (ar.rb - psiSize)).take n := by
    unfold answerBytes
    rw [drop_append, drop_eq_nil_of_le (by omega), hlen, nil_append]
  have hcount : ((a.pages.drop (ar.rb - psiSize)).take n).length = n := by
    rw [length_take, length_drop]
    omega
  have hpages := h.pages
  unfold pageServerRead receive
  rw [hbytes, if_neg (Nat.not_lt.mpr hrb), h.shrinkGoal_eq hf hrb, hcount, hpages]
  dsimp only
  have hout : ∀ x, ¬ (r.buf ≤ x ∧ x < r.buf + a.pages.length) →
      recvInto mem (r.buf + (ar.rb - psiSize)) ((a.pages.drop (ar.rb - psiSize)).take n) x =
        mem x := by
    intro x hx
    apply recvInto_outside
    omega
  have hdata : ∀ j, psiSize + j < ar.rb + n →
      recvInto mem (r.buf + (ar.rb - psiSize)) ((a.pages.drop (ar.rb - psiSize)).take n)
        (r.buf + j) = a.pages.getD j 0 := by
    intro j hj
    by_cases hold : psiSize + j < ar.rb
    · rw [recvInto_outside _ (by omega)]
      exact h.data j hold
    have hpos : r.buf + j = r.buf + (ar.rb - psiSize) + (j - (ar.rb - psiSize)) := by omega
    have hlt : j - (ar.rb - psiSize) < n := by omega
    have hadd : ar.rb - psiSize + (j - (ar.rb - psiSize)) = j := by omega
    rw [hpos, recvInto, blit_inside _ _ (by omega) (by omega), Nat.zero_add,
      Nat.add_sub_cancel_left]
    simp only [getD_eq_getElem?_getD, getElem?_take, if_pos hlt, getElem?_drop, hadd]
  have hheader : ar.pi = (psiBytes a.pi).take (ar.rb + n) := by
    rw [h.header, take_of_length_le (by omega), take_of_length_le (by omega)]
  by_cases hmore : ar.rb + n < (answerBytes a).length
  · rw [if_pos hmore]
    exact .more ⟨h.priv, rfl, hmore, hheader, hdata, answerBytes_length a, .inr rfl,
      fun _ => rfl⟩ rfl hout
  · rw [if_neg hmore, if_neg (by omega)]
    exact .done (complete_eq hf (h.header_read hrb) rfl h.priv (fun j hj => hdata j (by omega)))
      (by omega) hout

theorem pageServerRead_went (h : Partial mem r a ar) (hf : Fits r a)
    (hn : n ≤ recvLen ar) (hcap : n ≤ maxRwCount) :
    Went mem r a (ar.rb + n) (pageServerRead mem ar (((answerBytes a).drop ar.rb).take n)) := by
  by_cases hrb : ar.rb < psiSize
  · unfold recvLen at hn
    rw [if_pos hrb] at hn
    exact pageServerRead_header h hf hrb (by omega)
  · have := (h.recvLen_le hf).2
    have := h.lacks
    exact pageServerRead_data h hf (by omega) (by omega)

end Read

section Runs

variable {mem₀ mem' : ℕ → UInt8} {s t : State} {reads : List PsAsyncRead}
  {rest : List (Request × Answer)} {bytes : List UInt8}

def startRead (x : Request × Answer) : PsAsyncRead :=
  initPsAsyncRead x.1.buf x.1.nrPages x.1.priv

/-- The queue for the requests that wait, with the bytes that are still to be read for them: only
the first read has something of its answer. -/
inductive Queue (mem : ℕ → UInt8) :
    List (Request × Answer) → List PsAsyncRead → List UInt8 → Prop
  | idle : Queue mem [] [] []
  | busy {r : Request} {a : Answer} {rest : List (Request × Answer)} {ar : PsAsyncRead}
      (h : Partial mem r a ar) :
      Queue mem ((r, a) :: rest) (ar :: rest.map startRead)
        ((answerBytes a).drop ar.rb ++ rest.flatMap (fun x => answerBytes x.2))

theorem Queue.fresh (mem : ℕ → UInt8) (rest : List (Request × Answer)) :
    Queue mem rest (rest.map startRead) (rest.flatMap (fun x => answerBytes x.2)) := by
  cases rest with
  | nil => exact .idle
  | cons x rest => exact .busy (initPsAsyncRead_outstanding mem x.1 x.2)

theorem Queue.request (h : Queue mem rest reads bytes) (x : Request × Answer) :
    Queue mem (rest ++ [x]) (reads ++ [startRead x]) (bytes ++ answerBytes x.2) := by
  cases h with
  | idle =>
    simpa using Queue.fresh mem [x]
  | @busy r a rest ar h =>
    simpa using @Queue.busy mem r a (rest ++ [x]) ar h

structure Inv (mem₀ : ℕ → UInt8) (s : State) : Prop where
  split : ∃ done rest, s.log = done ++ rest ∧ s.completed = done.map expected ∧
    Queue s.mem rest s.asyncReads (s.sk ++ s.wire)
  fits : ∀ x ∈ s.log, Fits x.1 x.2
  outside : ∀ addr, (∀ x ∈ s.log, ¬ (x.1.buf ≤ addr ∧ addr < x.1.buf + x.2.pages.length)) →
    s.mem addr = mem₀ addr

theorem Inv.start (mem₀ : ℕ → UInt8) : Inv mem₀ (startState mem₀) :=
  ⟨⟨[], [], rfl, rfl, .idle⟩, nofun, fun _ _ => rfl⟩

/-- A read event serves the first request, from its own answer. -/
theorem Inv.read (h : Inv mem₀ s) (hn : CanRead s n) :
    ∃ t, pageServerAsyncRead s n = some t ∧ Inv mem₀ t := by
  obtain ⟨⟨done, rest, hlog, hdone, hqueue⟩, hfits, hout⟩ := h
  obtain ⟨hready, havail, hasked, hcap⟩ := hn
  unfold pageServerAsyncRead
  generalize hreads : s.asyncReads = reads at hqueue hasked
  generalize hbytes : s.sk ++ s.wire = bytes at hqueue
  cases hqueue with
  | idle => exact absurd (append_eq_nil_iff.mp hbytes).1 hready
  | @busy r a rest ar hp =>
    have hmem : (r, a) ∈ s.log := hlog ▸ mem_append_right _ mem_cons_self
    have hf := hfits (r, a) hmem
    have hlen := hasked ar rfl
    have hown : n ≤ ((answerBytes a).drop ar.rb).length := by
      have := (hp.recvLen_le hf).2
      rw [length_drop]
      omega
    have htake : s.sk.take n = ((answerBytes a).drop ar.rb).take n := by
      have hsk : (s.sk ++ s.wire).take n = s.sk.take n := take_append_of_le_length havail
      rw [← hsk, hbytes, take_append_of_le_length hown]
    have hdrop : s.sk.drop n ++ s.wire = (answerBytes a).drop (ar.rb + n) ++
        rest.flatMap (fun x => answerBytes x.2) := by
      rw [← drop_append_of_le_length havail, hbytes, drop_append_of_le_length hown, drop_drop]
    have hwent := pageServerRead_went hp hf hlen hcap
    rw [← htake] at hwent
    dsimp only
    generalize pageServerRead s.mem ar (s.sk.take n) = res at hwent
    have hkeep : ∀ {mem' : ℕ → UInt8},
        (∀ x, ¬ (r.buf ≤ x ∧ x < r.buf + a.pages.length) → mem' x = s.mem x) → ∀ addr,
        (∀ x ∈ s.log, ¬ (x.1.buf ≤ addr ∧ addr < x.1.buf + x.2.pages.length)) →
        mem' addr = mem₀ addr := by
      intro mem' hsame addr haddr
      rw [hsame addr (haddr (r, a) hmem)]
      exact hout addr haddr
    cases hwent with
    | more hp' hrb hsame =>
      refine ⟨_, rfl, ⟨done, (r, a) :: rest, hlog, hdone, ?_⟩, hfits, hkeep hsame⟩
      rw [hdrop, ← hrb]
      exact .busy hp'
    | done hc hrb hsame =>
      refine ⟨_, rfl, ⟨done ++ [(r, a)], rest, ?_, ?_, ?_⟩, hfits, hkeep hsame⟩
      · rw [hlog, append_assoc]
        rfl
      · rw [map_append, ← hdone, hc]
        rfl
      · rw [hdrop, ← hrb, drop_length]
        exact Queue.fresh _ rest

theorem Inv.step (h : Inv mem₀ s) {e : Event} (hok : Regular s e) (hstep : Step s e t) :
    Inv mem₀ t := by
  cases e with
  | request r a =>
    obtain ⟨⟨done, rest, hlog, hdone, hqueue⟩, hfits, hout⟩ := h
    cases hstep
    refine ⟨⟨done, rest ++ [(r, a)], ?_, hdone, ?_⟩, ?_, fun addr haddr => ?_⟩
    · rw [hlog, append_assoc]
    · rw [← append_assoc]
      exact hqueue.request (r, a)
    · exact forall_mem_append.mpr ⟨hfits, forall_mem_singleton.mpr ⟨hok.1, hok.2.1, hok.2.2⟩⟩
    · exact hout addr (fun x hx => haddr x (mem_append_left _ hx))
  | arrive n =>
    obtain ⟨⟨done, rest, hlog, hdone, hqueue⟩, hfits, hout⟩ := h
    cases hstep
    refine ⟨⟨done, rest, hlog, hdone, ?_⟩, hfits, hout⟩
    rw [append_assoc, take_append_drop]
    exact hqueue
  | read n =>
    obtain ⟨hn, ht⟩ := hstep
    obtain ⟨t', ht', hinv⟩ := h.read hn
    cases ht.symm.trans ht'
    exact hinv

theorem Inv.inOrder (h : Inv mem₀ s) : InOrder mem₀ s := by
  have hsafe : ∀ n, CanRead s n → ∃ t, pageServerAsyncRead s n = some t := fun n hn =>
    (h.read hn).imp (fun _ ht => ht.1)
  obtain ⟨⟨done, rest, hlog, hdone, hqueue⟩, hfits, hout⟩ := h
  have hlen : s.completed.length = done.length := by rw [hdone, length_map]
  have hrest : s.log.drop s.completed.length = rest := by
    rw [hlen, hlog, drop_left]
  have htaken : s.log.take s.completed.length = done := by
    rw [hlen, hlog, take_left]
  have hcompleted : s.completed = (s.log.take s.completed.length).map expected := by
    rw [htaken, hdone]
  generalize hreads : s.asyncReads = reads at hqueue
  generalize hbytes : s.sk ++ s.wire = bytes at hqueue
  cases hqueue with
  | idle =>
    have hfront : frontBytes s = 0 := by rw [frontBytes, hreads]; rfl
    refine ⟨hcompleted, ?_, ?_, ?_, hout, fun _ _ => ?_, hsafe, fun hsk => ?_⟩
    · rw [hrest, hreads]
      rfl
    · rw [hrest, hbytes, hfront]
      rfl
    · rw [hrest]
      exact fun x hx => absurd hx (Option.not_mem_none x)
    · rw [hlog, append_nil, hdone]
    · exact absurd (append_eq_nil_iff.mp hbytes).1 hsk
  | @busy r a rest ar hp =>
    have hfront : frontBytes s = ar.rb := by rw [frontBytes, hreads]; rfl
    have hlacks := hp.lacks
    refine ⟨hcompleted, ?_, ?_, ?_, hout, fun hsk hwire => ?_, hsafe, fun hsk => ?_⟩
    · rw [hrest, hreads]
      simp [hp.priv, startRead, initPsAsyncRead, asyncReadSetGoal]
    · rw [hrest, hbytes, hfront, flatMap_cons, drop_append_of_le_length hlacks.le]
    · rw [hrest, hfront]
      rintro x ⟨⟩
      exact hlacks
    · rw [hsk, hwire] at hbytes
      have hnil := (append_eq_nil_iff.mp hbytes.symm).1
      exact absurd (drop_eq_nil_iff.mp hnil) (Nat.not_le.mpr hlacks)
    · have hf := hfits (r, a) (hlog ▸ mem_append_right _ mem_cons_self)
      refine ⟨hsk, length_pos_iff.mpr hsk, ?_, by decide⟩
      rw [hreads]
      rintro x ⟨⟩
      exact (hp.recvLen_le hf).1

/-- With a server that answers each request by at least one page, at most as many as it was asked
for and less than four gigabytes, every read is completed in order with its own answer. -/
theorem remote_reads_in_order
    (h : Run.Reach (fun s => s = startState mem₀) Step Regular s) : InOrder mem₀ s := by
  apply Inv.inOrder
  refine Run.Reach.invariant ?_ ?_ h
  · rintro s rfl
    exact Inv.start mem₀
  · intro s e t _ hinv hok hstep
    exact hinv.step hok hstep

def askOne : Request := ⟨1, 0x1000, 1, 0, 0, by decide⟩

def giveOne : Answer := ⟨psi 0x10006 1 0x1000 1, List.replicate pageSize 7, length_replicate⟩

def headerArrived (a : Answer) : State where
  log := [(askOne, a)]
  wire := (answerBytes a).drop psiSize
  sk := (answerBytes a).take psiSize
  asyncReads := [initPsAsyncRead 0 1 0]
  mem := fun _ => 0
  completed := []

theorem headerArrived_reach {ok : State → Event → Prop} (a : Answer)
    (hask : ok (startState fun _ => 0) (.request askOne a))
    (harrive : ∀ s, ok s (.arrive psiSize)) :
    Run.Reach (fun s => s = startState fun _ => 0) Step ok (headerArrived a) :=
  .next (.next (.start rfl) hask rfl) (harrive _) rfl

/-- A page is asked for and its answer arrives up to the end of the header. -/
theorem remote_reads_in_order_one : InOrder (fun _ => 0) (headerArrived giveOne) :=
  remote_reads_in_order (headerArrived_reach giveOne
    ⟨Nat.le_refl 1, fun h => absurd h (by decide), by decide⟩ (fun _ => trivial))

def giveNone : Answer := ⟨psi 0x10006 0 0x1000 1, [], rfl⟩

/-- A page is asked for and the answer has none: the read lacks nothing, but it is only completed
by an event after the one that ends the header, and no byte is left for such an event. -/
theorem empty_answer_not_completed :
    ∃ s, Run.Reach (fun s => s = startState fun _ => 0) Step AtMost s ∧
      s.sk = [] ∧ s.wire = [] ∧ s.log.length = 1 ∧ s.completed = [] ∧
      ¬ InOrder (fun _ => 0) s := by
  have hcan : CanRead (headerArrived giveNone) psiSize := by
    refine ⟨by decide, by decide, ?_, by decide⟩
    decide
  have hreach : Run.Reach (fun s => s = startState fun _ => 0) Step AtMost
      (headerArrived giveNone) :=
    headerArrived_reach giveNone (Nat.zero_le 1) (fun _ => trivial)
  refine ⟨_, .next (e := .read psiSize) hreach trivial ⟨hcan, rfl⟩, rfl, rfl, rfl, rfl, ?_⟩
  intro h
  have := congrArg List.length (h.finished rfl rfl)
  cases this

end Runs

end Criu.RemoteReads

import Mathlib.Data.List.Nodup
import Criu.PageServer

/-!
The local transfers of a page server session, with everything that can fail (criu/page-xfer.c).
There is one slot for an open transfer. It is closed when the next one is opened, when the reply
to the client cannot be sent, and at the end of the session; whether there is something to close
is told from the `dst_id` of the job alone, which no close resets. Transfers are numbered in the
order in which they are opened.
-/

namespace Criu.ServerSession

open List

open PageServer (PageServerIov decodePm decodePsCmd noDst psIovAdd psIovHole psIovOpen psIovOpen2
  psIovParent psIovAddF psIovFlush psIovFlushNClose)

def psIovGet : ℕ := 7

/-- What is outside of the server's hands for one command: whether the images can be opened,
whether a reply can be sent, and whether everything else works out (writing pages, looking for
a parent image, reading the pages of a lazy dump). -/
structure Outcome where
  opens : Bool
  sends : Bool
  works : Bool

/-- `cxfer`, with the transfer that the slot was last opened for, the number of transfers opened so
far, and the ones that `close` was called for. -/
structure Session where
  dstId : ℕ
  locXfer : Option ℕ
  opened : ℕ
  closed : List ℕ

def pageServerClose (s : Session) : Session :=
  if s.dstId ≠ noDst then { s with closed := s.closed ++ s.locXfer.toList } else s

/-- `page_server_open`. A failed open leaves `dst_id` as it was and some of the images of the
transfer that was closed before it in the slot, where `close` takes them again. -/
def pageServerOpen (reply : Bool) (s : Session) (dstId : ℕ) (out : Outcome) : Session × Bool :=
  match decodePm dstId with
  | none => (s, false)
  | some _ =>
      let s₁ := pageServerClose s
      if out.opens then
        let s₂ := { s₁ with dstId := dstId, locXfer := some s₁.opened, opened := s₁.opened + 1 }
        if reply && !out.sends then
          ({ s₂ with closed := s₂.closed ++ s₂.locXfer.toList }, false)
        else (s₂, true)
      else (s₁, false)

def prepLocXfer (s : Session) (dstId : ℕ) (out : Outcome) : Session × Bool :=
  if s.dstId ≠ dstId then pageServerOpen false s dstId out else (s, true)

def pageServerAdd (s : Session) (dstId : ℕ) (out : Outcome) : Session × Bool :=
  match prepLocXfer s dstId out with
  | (s', false) => (s', false)
  | (s', true) => (s', out.works)

def pageServerCheckParent (s : Session) (dstId : ℕ) (out : Outcome) : Session × Bool :=
  match decodePm dstId with
  | none => (s, false)
  | some _ => (s, out.works && out.sends)

def serveCmd (s : Session) (pi : PageServerIov) (out : Outcome) : Session × Bool :=
  let cmd := decodePsCmd pi.cmd
  if cmd = psIovOpen then pageServerOpen false s pi.dstId out
  else if cmd = psIovOpen2 then pageServerOpen true s pi.dstId out
  else if cmd = psIovParent then pageServerCheckParent s pi.dstId out
  else if cmd = psIovAddF ∨ cmd = psIovAdd ∨ cmd = psIovHole then pageServerAdd s pi.dstId out
  else if cmd = psIovFlush ∨ cmd = psIovFlushNClose then (s, out.sends)
  else if cmd = psIovGet then (s, out.works && out.sends)
  else (s, false)

/-- The commands that are received before the socket is closed or fails. -/
def serveLoop : List (PageServerIov × Outcome) → Session → Session
  | [], s => s
  | (pi, out) :: rest, s =>
      match serveCmd s pi out with
      | (s', false) => s'
      | (s', true) => if pi.cmd = psIovFlushNClose then s' else serveLoop rest s'

def startSession : Session := ⟨noDst, none, 0, []⟩

/-- `page_server_serve`; `ready` says whether the pipe for the pages could be made. -/
def pageServerServe (ready : Bool) (cmds : List (PageServerIov × Outcome)) : Session :=
  if ready then pageServerClose (serveLoop cmds startSession) else startSession

section Close

/-- Every transfer that was opened is closed exactly once. -/
def ClosedOnce (s : Session) : Prop := ∀ k < s.opened, s.closed.count k = 1

inductive Serving : Session → Prop
  | idle : Serving startSession
  | busy {dstId n : ℕ} (h : dstId ≠ noDst) : Serving ⟨dstId, some n, n + 1, List.range n⟩

def OpensXfer (s : Session) (pi : PageServerIov) : Prop :=
  decodePm pi.dstId ≠ none ∧
    (decodePsCmd pi.cmd = psIovOpen ∨ decodePsCmd pi.cmd = psIovOpen2 ∨
      (decodePsCmd pi.cmd = psIovAddF ∨ decodePsCmd pi.cmd = psIovAdd ∨
        decodePsCmd pi.cmd = psIovHole) ∧ s.dstId ≠ pi.dstId)

def CleanStep (s : Session) (pi : PageServerIov) (out : Outcome) : Prop :=
  OpensXfer s pi → (out.opens = true ∨ s.dstId = noDst) ∧
    (decodePsCmd pi.cmd = psIovOpen2 → out.opens = true → out.sends = true)

def CleanRun : List (PageServerIov × Outcome) → Session → Prop
  | [], _ => True
  | (pi, out) :: rest, s =>
      CleanStep s pi out ∧
        match serveCmd s pi out with
        | (_, false) => True
        | (s', true) => pi.cmd = psIovFlushNClose ∨ CleanRun rest s'

variable {s : Session}

theorem Serving.closedOnce (h : Serving s) : ClosedOnce (pageServerClose s) := by
  cases h with
  | idle => exact fun k hk => absurd hk (Nat.not_lt_zero k)
  | @busy dstId n hne =>
    intro k hk
    unfold pageServerClose at hk ⊢
    rw [if_pos hne] at hk ⊢
    simp only [Option.toList_some, ← range_succ]
    exact count_eq_one_of_mem nodup_range (mem_range.mpr hk)

/-- The states after a failure in which the last transfer is closed once more at the end. -/
structure ClosedTwice (s : Session) : Prop where
  dstId : s.dstId ≠ noDst
  slot : ∃ n, s.locXfer = some n ∧ n < s.opened ∧ n ∈ s.closed

theorem ClosedTwice.not_closedOnce (h : ClosedTwice s) : ¬ ClosedOnce (pageServerClose s) := by
  obtain ⟨hne, n, hslot, hlt, hmem⟩ := h
  intro hall
  unfold pageServerClose at hall
  rw [if_pos hne] at hall
  have hone := hall n hlt
  have hpos := count_pos_iff.mpr hmem
  simp only [hslot, Option.toList_some, count_append, count_singleton_self] at hone
  omega

/-- How a command leaves the session: in order, or stopped with a transfer that will be closed
again. -/
inductive Handled (clean : Prop) : Session × Bool → Prop
  | keeps {s : Session} {b : Bool} (hclean : clean) (h : Serving s) : Handled clean (s, b)
  | spoils {s : Session} (hclean : ¬ clean) (h : ClosedTwice s) : Handled clean (s, false)

theorem Handled.congr {p q : Prop} {r : Session × Bool} (h : Handled p r) (hpq : p ↔ q) :
    Handled q r := by
  cases h with
  | keeps hclean h => exact .keeps (hpq.mp hclean) h
  | spoils hclean h => exact .spoils (fun hq => hclean (hpq.mpr hq)) h

/-- What opening asks for: the images can be opened, or nothing was open before, and the reply
can be sent. -/
def CleanOpen (reply : Bool) (s : Session) (out : Outcome) : Prop :=
  (out.opens = true ∨ s.dstId = noDst) ∧ (reply = true → out.opens = true → out.sends = true)

theorem pageServerOpen_handled (h : Serving s) (reply : Bool) (dstId : ℕ) (out : Outcome) :
    Handled (decodePm dstId ≠ none → CleanOpen reply s out) (pageServerOpen reply s dstId out) := by
  unfold pageServerOpen
  cases hdec : decodePm dstId with
  | none => exact .keeps (fun hne => absurd rfl hne) h
  | some id =>
    have hsome : some id ≠ none := Option.some_ne_none id
    have hne : dstId ≠ noDst := by
      intro heq
      rw [heq] at hdec
      exact hsome hdec.symm
    by_cases hopen : out.opens = true
    · rw [if_pos hopen]
      have hnext : Serving { pageServerClose s with
          dstId := dstId
          locXfer := some (pageServerClose s).opened
          opened := (pageServerClose s).opened + 1 } := by
        cases h with
        | idle => exact .busy hne
        | @busy old n hold =>
          unfold pageServerClose
          rw [if_pos hold]
          simp only [Option.toList_some, ← range_succ]
          exact .busy hne
      by_cases hreply : (reply && !out.sends) = true
      · rw [if_pos hreply]
        obtain ⟨hr, hs⟩ := Bool.and_eq_true_iff.mp hreply
        apply Handled.spoils
        · intro hclean
          simp [(hclean hsome).2 hr hopen] at hs
        · exact ⟨hne, _, rfl, Nat.lt_succ_self _, mem_append_right _ (mem_singleton_self _)⟩
      · rw [if_neg hreply]
        apply Handled.keeps _ hnext
        intro _
        refine ⟨.inl hopen, fun hr _ => ?_⟩
        simpa [hr] using hreply
    · rw [if_neg hopen]
      cases h with
      | idle => exact .keeps (fun _ => ⟨.inr rfl, fun _ hf => absurd hf hopen⟩) .idle
      | @busy old n hold =>
        apply Handled.spoils
        · intro hclean
          exact (hclean hsome).1.elim hopen hold
        · unfold pageServerClose
          rw [if_pos hold]
          exact ⟨hold, n, rfl, Nat.lt_succ_self n, mem_append_right _ (mem_singleton_self n)⟩

/-- A page of another task than the last one opens the images of that task. -/
theorem pageServerAdd_handled (h : Serving s) (dstId : ℕ) (out : Outcome) :
    Handled (decodePm dstId ≠ none → s.dstId ≠ dstId → CleanOpen false s out)
      (pageServerAdd s dstId out) := by
  unfold pageServerAdd prepLocXfer
  by_cases heq : s.dstId = dstId
  · rw [if_neg (fun hne => hne heq)]
    exact .keeps (fun _ hne => absurd heq hne) h
  rw [if_pos heq]
  have hopen := pageServerOpen_handled h false dstId out
  generalize pageServerOpen false s dstId out = r at hopen
  cases hopen with
  | @keeps _ b hclean h' => cases b <;> exact .keeps (fun hd _ => hclean hd) h'
  | spoils hclean h' => exact .spoils (fun hc => hclean (fun hd => hc hd heq)) h'

theorem serveCmd_handled (h : Serving s) (pi : PageServerIov) (out : Outcome) :
    Handled (CleanStep s pi out) (serveCmd s pi out) := by
  unfold serveCmd CleanStep OpensXfer
  dsimp only
  split
  · next hcmd =>
    refine (pageServerOpen_handled h false pi.dstId out).congr ?_
    simp [CleanOpen, hcmd, psIovOpen, psIovOpen2]
  next hopen =>
  split
  · next hcmd =>
    refine (pageServerOpen_handled h true pi.dstId out).congr ?_
    simp [CleanOpen, hcmd]
  next hopen2 =>
  split
  · next hcmd =>
    unfold pageServerCheckParent
    split
    all_goals
      refine .keeps ?_ h
      simp [hcmd, psIovParent, psIovOpen, psIovOpen2, psIovAddF, psIovAdd, psIovHole]
  split
  · next hcmd =>
    refine (pageServerAdd_handled h pi.dstId out).congr ?_
    simp [CleanOpen, hcmd, hopen, hopen2]
  next hadd =>
  split
  · exact .keeps (by simp [hopen, hopen2, hadd]) h
  · split
    · exact .keeps (by simp [hopen, hopen2, hadd]) h
    · exact .keeps (by simp [hopen, hopen2, hadd]) h

/-- The session is in order when the last command is through, or the transfer in the slot is
already closed. -/
theorem serveLoop_handled (cmds : List (PageServerIov × Outcome)) (h : Serving s) :
    CleanRun cmds s ∧ Serving (serveLoop cmds s) ∨
      ¬ CleanRun cmds s ∧ ClosedTwice (serveLoop cmds s) := by
  induction cmds generalizing s with
  | nil => exact .inl ⟨trivial, h⟩
  | cons c rest ih =>
    obtain ⟨pi, out⟩ := c
    have hcmd := serveCmd_handled h pi out
    unfold serveLoop CleanRun
    generalize serveCmd s pi out = r at hcmd
    cases hcmd with
    | spoils hclean h' => exact .inr ⟨fun hrun => hclean hrun.1, h'⟩
    | @keeps s' b hclean h' =>
      cases b with
      | false => exact .inl ⟨⟨hclean, trivial⟩, h'⟩
      | true =>
        dsimp only
        by_cases hlast : pi.cmd = psIovFlushNClose
        · rw [if_pos hlast]
          exact .inl ⟨⟨hclean, .inl hlast⟩, h'⟩
        · rw [if_neg hlast]
          rcases ih h' with ⟨hrun, hs⟩ | ⟨hrun, hs⟩
          · exact .inl ⟨⟨hclean, .inr hrun⟩, hs⟩
          · exact .inr ⟨fun hall => hall.2.elim hlast hrun, hs⟩

/-- Each transfer is closed exactly once if and only if no opening fails while another transfer is
open and no reply to an opening is lost. -/
theorem transfers_closed_once_iff (ready : Bool) (cmds : List (PageServerIov × Outcome)) :
    ClosedOnce (pageServerServe ready cmds) ↔ (ready = true → CleanRun cmds startSession) := by
  unfold pageServerServe
  by_cases hready : ready = true
  · rw [if_pos hready]
    rcases serveLoop_handled cmds .idle with ⟨hrun, hs⟩ | ⟨hrun, hs⟩
    · exact ⟨fun _ _ => hrun, fun _ => hs.closedOnce⟩
    · exact ⟨fun honce => absurd honce hs.not_closedOnce, fun hall => absurd (hall hready) hrun⟩
  · rw [if_neg hready]
    exact ⟨fun _ hr => absurd hr hready, fun _ k hk => absurd hk (Nat.not_lt_zero k)⟩

def openTask : PageServerIov where
  cmd := psIovOpen2
  nrPages := 0
  vaddr := 0
  dstId := 257
  cmd_lt := by decide
  nrPages_lt := by decide
  vaddr_lt := by decide
  dstId_lt := by decide

/-- The reply to the only `PS_IOV_OPEN2` cannot be sent: the transfer is closed where that is
noticed and again at the end of the session. -/
theorem lost_reply_closed_twice :
    (pageServerServe true [(openTask, ⟨true, false, true⟩)]).closed = [0, 0] ∧
      ¬ ClosedOnce (pageServerServe true [(openTask, ⟨true, false, true⟩)]) := by
  have hclosed : (pageServerServe true [(openTask, ⟨true, false, true⟩)]).closed = [0, 0] := by
    decide
  refine ⟨hclosed, fun honce => ?_⟩
  have hone := honce 0 (by decide)
  exact absurd hone (by decide)

end Close

end Criu.ServerSession

import Mathlib.Data.Nat.Init
import Mathlib.Logic.Function.Iterate

/-!
Freezing the tasks of a cgroup (criu/seize.c). `freeze_processes` seizes the tree again as long
as it gets -EAGAIN. A freezer that was thawed is thawed and frozen anew for that, and the jump
back does not count as an attempt. It is never made, since `seize_cgroup_tree` is still given
the old state and answers -EAGAIN for a frozen tree only.
-/

namespace Criu.FreezeProcesses

inductive FreezerState
  | error | thawed | frozen | freezing
deriving DecidableEq, Repr

def eagain : ℤ := 11

/-- A thread that is passed over or seized, one that may not be interrupted, and one that could
not be seized now. -/
inductive Thread
  | passed | refused | left
deriving DecidableEq, Repr

mutual

/-- A freezer cgroup: its list of threads cannot be opened, or it is read, and then the
directory. -/
inductive Cgroup
  | noThreads
  | node (threads : List Thread) (dirs : Dirs)

/-- The nested cgroups, up to an entry that cannot be read. -/
inductive Dirs
  | nil
  | failed
  | sub (c : Cgroup) (rest : Dirs)

end

def seizeThreads (state : FreezerState) : List Thread → Option ℤ
  | [] => none
  | .passed :: l => seizeThreads state l
  | .refused :: _ => some (-1)
  | .left :: l => if state = .frozen then some (-eagain) else seizeThreads state l

mutual

def seizeCgroupTree (state : FreezerState) : Cgroup → ℤ
  | .noThreads => -1
  | .node threads dirs => (seizeThreads state threads).getD (seizeDirs state dirs)

def seizeDirs (state : FreezerState) : Dirs → ℤ
  | .nil => 0
  | .failed => -1
  | .sub c rest =>
      if seizeCgroupTree state c < 0 then seizeCgroupTree state c else seizeDirs state rest

end

/-- What the calls of `freeze_processes` return: the first state, and then those that are read
in turn, the results of seizing, of asking for the alarm and of writing a state. -/
structure Env where
  opens : Bool
  state : FreezerState
  reads : ℕ → FreezerState
  seizes : ℕ → ℤ
  alarms : ℕ → Bool
  writes : ℕ → Bool
  saves : Bool
  thaws : Bool
  closes : Bool

inductive Pc
  | again | wait | attempt | done
deriving DecidableEq, Repr

structure Conf where
  pc : Pc
  i : ℕ := 0
  reads : ℕ := 0
  seized : ℕ := 0
  alarms : ℕ := 0
  writes : ℕ := 0
  freezerThawed : Bool := false
  exitCode : ℤ := -1

/-- 100 ms are an attempt; with no timeout it is ten seconds. -/
def nrAttempts (timeout : ℕ) : ℕ :=
  if timeout * 1000 / 100 = 0 then 10 * 1000 / 100 else timeout * 1000 / 100

section Run

variable (e : Env) (nr : ℕ)

/-- The label `err`. -/
def err (c : Conf) : Conf :=
  { c with
    pc := .done
    exitCode := if !e.closes || (decide (c.exitCode = 0) && !e.thaws) then -1 else c.exitCode }

/-- One read in `__wait_freezer_state_change` for FROZEN, with the alarm. -/
def waitStep (c : Conf) : Conf :=
  if c.i < nr then
    match e.reads c.reads with
    | .error => err e { c with reads := c.reads + 1 }
    | .frozen => { c with pc := .attempt, reads := c.reads + 1 }
    | .thawed | .freezing =>
        if e.alarms c.alarms then err e { c with reads := c.reads + 1, alarms := c.alarms + 1 }
        else { c with i := c.i + 1, reads := c.reads + 1, alarms := c.alarms + 1 }
  else err e c

def attemptStep (c : Conf) : Conf :=
  if c.i < nr then
    let ret := e.seizes c.seized
    let c' := { c with seized := c.seized + 1, exitCode := ret }
    if ret = -eagain then
      if e.alarms c.alarms then err e { c' with alarms := c.alarms + 1 }
      else if c.freezerThawed then
        if e.writes c.writes then
          { c' with pc := .again, alarms := c.alarms + 1, writes := c.writes + 1 }
        else err e { c' with alarms := c.alarms + 1, writes := c.writes + 1, exitCode := -1 }
      else { c' with i := c.i + 1, alarms := c.alarms + 1 }
    else err e (if e.saves then c' else { c' with exitCode := -1 })
  else err e (if e.saves then c else { c with exitCode := -1 })

def step (c : Conf) : Conf :=
  match c.pc with
  | .again =>
      if e.state = .thawed then
        { c with
          pc := if e.writes c.writes then .wait else .done
          writes := c.writes + 1
          freezerThawed := true
          exitCode := if e.writes c.writes then c.exitCode else -1 }
      else { c with pc := .attempt }
  | .wait => waitStep e nr c
  | .attempt => attemptStep e nr c
  | .done => c

def start : Conf := { pc := if e.opens && e.state != .error then .again else .done }

/-- `freeze_processes` after `t` steps. -/
def run (t : ℕ) : Conf := (step e nr)^[t] (start e)

/-- It returns, after at most as many calls of `seize_cgroup_tree` as there are attempts. -/
def GivesUp : Prop := ∃ t, (run e nr t).pc = .done ∧ (run e nr t).seized ≤ nr

structure Counted (c : Conf) : Prop where
  busy : c.pc ≠ .done
  seized : c.seized ≤ c.i
  bound : c.i ≤ nr
  thawed : c.freezerThawed = true → e.state = .thawed

def rank (c : Conf) : ℕ :=
  3 * (nr - c.i) + match c.pc with
    | .again => 2
    | .wait => 1
    | .attempt | .done => 0

end Run

mutual

theorem seizeCgroupTree_thawed (c : Cgroup) : seizeCgroupTree .thawed c ≠ -eagain := by
  cases c with
  | noThreads => decide
  | node threads dirs =>
    have hthreads : seizeThreads .thawed threads = none ∨
        seizeThreads .thawed threads = some (-1) := by
      induction threads with
      | nil => exact .inl rfl
      | cons t l ih => cases t <;> simp [seizeThreads, ih]
    rw [seizeCgroupTree]
    rcases hthreads with h | h <;> rw [h]
    · exact seizeDirs_thawed dirs
    · exact (by decide : (-1) ≠ -eagain)

theorem seizeDirs_thawed (d : Dirs) : seizeDirs .thawed d ≠ -eagain := by
  cases d with
  | nil | failed => decide
  | sub c rest =>
    rw [seizeDirs]
    split
    · exact seizeCgroupTree_thawed c
    · exact seizeDirs_thawed rest

end

variable {e : Env} {nr : ℕ} {c : Conf}

theorem step_counted (h : Counted e nr c) (hseize : e.state = .thawed → ∀ k, e.seizes k ≠ -eagain) :
    ((step e nr c).pc = .done ∧ (step e nr c).seized ≤ nr) ∨
      Counted e nr (step e nr c) ∧ rank nr (step e nr c) < rank nr c := by
  obtain ⟨hbusy, hseized, hbound, hthawed⟩ := h
  cases hpc : c.pc with
  | again => grind [step, rank, Counted]
  | wait => grind [step, waitStep, err, rank, Counted]
  | attempt => grind [step, attemptStep, err, rank, Counted]
  | done => exact absurd hpc hbusy

theorem exists_done (h : Counted e nr c) (hseize : e.state = .thawed → ∀ k, e.seizes k ≠ -eagain) :
    ∃ t, ((step e nr)^[t] c).pc = .done ∧ ((step e nr)^[t] c).seized ≤ nr := by
  induction hn : rank nr c using Nat.strong_induction_on generalizing c with
  | _ n ih =>
    rcases step_counted h hseize with hdone | ⟨hnext, hlt⟩
    · exact ⟨1, hdone⟩
    · obtain ⟨t, ht⟩ := ih _ (hn ▸ hlt) hnext rfl
      exact ⟨t + 1, ht⟩

/-- Whatever states are read and whatever trees are met, freezing ends within the attempts. -/
theorem freezing_gives_up (e : Env) (trees : ℕ → Cgroup) (timeout : ℕ) :
    GivesUp { e with seizes := fun k => seizeCgroupTree e.state (trees k) }
      (nrAttempts timeout) := by
  by_cases hstart : (start e).pc = .done
  · exact ⟨0, hstart, Nat.zero_le _⟩
  · refine exists_done ⟨hstart, Nat.le_refl _, Nat.zero_le _, nofun⟩ fun hstate k => ?_
    have hthawed := seizeCgroupTree_thawed (trees k)
    rwa [← hstate] at hthawed

end Criu.FreezeProcesses

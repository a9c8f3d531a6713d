import Mathlib.Tactic.Choose

/-!
Interval timers of a task (criu/cr-restore.c, criu/pie/restorer.c). The decoder and the restorer
both take a timer without an interval for one that is not armed.
-/

namespace Criu.Itimers

/-- Seconds of 2^63 and more are negative ones. -/
structure Timeval where
  sec : UInt64
  usec : UInt64
deriving DecidableEq, Repr

structure Itimerval where
  interval : Timeval
  value : Timeval
deriving DecidableEq, Repr

structure ItimerEntry where
  isec : UInt64
  iusec : UInt64
  vsec : UInt64
  vusec : UInt64

def timevalValid (tv : Timeval) : Bool := tv.sec < 0x8000000000000000 && tv.usec < 1000000

def decodeItimer (ie : ItimerEntry) : Option Itimerval :=
  if ie.isec = 0 ∧ ie.iusec = 0 then some ⟨⟨0, 0⟩, ⟨0, 0⟩⟩
  else if !timevalValid ⟨ie.isec, ie.iusec⟩ then none
  else
    -- the remaining time was too short
    let value := if ie.vsec = 0 ∧ ie.vusec = 0 then ⟨ie.isec, ie.iusec⟩ else ⟨ie.vsec, ie.vusec⟩
    if !timevalValid value then none else some ⟨⟨ie.isec, ie.iusec⟩, value⟩

inductive Timer
  | real | virt | prof
deriving DecidableEq, Repr

def prepareItimers (tte : Timer → ItimerEntry) : Option (Timer → Itimerval) :=
  match decodeItimer (tte .real), decodeItimer (tte .virt), decodeItimer (tte .prof) with
  | some real, some virt, some prof => some fun | .real => real | .virt => virt | .prof => prof
  | _, _, _ => none

def itimerArmed (val : Itimerval) : Bool := val.interval.sec ≠ 0 || val.interval.usec ≠ 0

/-- What the restorer calls `setitimer` with, if it does. -/
def setitimer (val : Itimerval) : Option Itimerval := if itimerArmed val then some val else none

/-- How a timer should be armed: a value of zero had come too close to its end. -/
def expected (ie : ItimerEntry) : Option Itimerval :=
  if ie.vsec ≠ 0 ∨ ie.vusec ≠ 0 then some ⟨⟨ie.isec, ie.iusec⟩, ⟨ie.vsec, ie.vusec⟩⟩
  else if ie.isec ≠ 0 ∨ ie.iusec ≠ 0 then some ⟨⟨ie.isec, ie.iusec⟩, ⟨ie.isec, ie.iusec⟩⟩
  else none

structure ItimerEntry.Valid (ie : ItimerEntry) : Prop where
  interval : ie.iusec < 1000000
  value : ie.vusec < 1000000

/-- No seconds are negative, and a timer that is to expire has an interval. -/
structure ItimerEntry.Periodic (ie : ItimerEntry) : Prop where
  interval : ie.isec < 0x8000000000000000
  value : ie.vsec < 0x8000000000000000
  again : ie.vsec ≠ 0 ∨ ie.vusec ≠ 0 → ie.isec ≠ 0 ∨ ie.iusec ≠ 0

def Restored (tte : Timer → ItimerEntry) : Prop :=
  ∃ vals, prepareItimers tte = some vals ∧ ∀ t, setitimer (vals t) = expected (tte t)

theorem prepareItimers_eq_some {tte : Timer → ItimerEntry} {vals : Timer → Itimerval} :
    prepareItimers tte = some vals ↔ ∀ t, decodeItimer (tte t) = some (vals t) := by
  constructor
  · intro h
    unfold prepareItimers at h
    split at h
    · cases h
      rintro (_ | _ | _) <;> assumption
    · cases h
  · intro h
    simp only [prepareItimers, h]
    congr 1
    funext t
    cases t <;> rfl

theorem decodeItimer_expected {ie : ItimerEntry} (h : ie.Valid) :
    (∃ val, decodeItimer ie = some val ∧ setitimer val = expected ie) ↔ ie.Periodic := by
  obtain ⟨hi, hv⟩ := h
  constructor
  · rintro ⟨val, hval, hset⟩
    constructor <;> grind [decodeItimer, setitimer, expected, timevalValid]
  · rintro ⟨hisec, hvsec, hagain⟩
    cases hd : decodeItimer ie with
    | none => grind [decodeItimer, timevalValid]
    | some val => exact ⟨val, rfl, by grind [decodeItimer, setitimer, expected, itimerArmed]⟩

/-- All timers run on as they did exactly if none of them was to expire once. -/
theorem itimers_restored_iff (tte : Timer → ItimerEntry) (h : ∀ t, (tte t).Valid) :
    Restored tte ↔ ∀ t, (tte t).Periodic := by
  constructor
  · rintro ⟨vals, hvals, hset⟩ t
    exact (decodeItimer_expected (h t)).mp ⟨_, prepareItimers_eq_some.mp hvals t, hset t⟩
  · intro hperiodic
    choose vals hvals hset using fun t => (decodeItimer_expected (h t)).mpr (hperiodic t)
    exact ⟨vals, prepareItimers_eq_some.mpr hvals, hset⟩

theorem periodic_itimers_restored : Restored fun _ => ⟨1, 0, 0, 500000⟩ :=
  (itimers_restored_iff _ fun _ => ⟨by decide +kernel, by decide +kernel⟩).mpr fun _ =>
    ⟨by decide +kernel, by decide +kernel, by decide +kernel⟩

/-- An alarm that is due in five seconds is not set. -/
theorem alarm_not_restored : ¬ Restored fun _ => ⟨0, 0, 5, 0⟩ := by
  rintro ⟨vals, hvals, hset⟩
  have hreal := hset .real
  rw [← Option.some.inj (prepareItimers_eq_some.mp hvals .real)] at hreal
  cases hreal

end Criu.Itimers

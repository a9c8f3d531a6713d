import Criu.PstreeIds

/-!
How a task comes into its session (criu/cr-restore.c), which its process group depends on. A task
that is forked is in the session its parent is in at that moment. Every task first forks the
children that belong to the session it was born in, then becomes the leader of its own session if
it is one, and forks the rest. Sessions are told apart by their numbers in the root pid namespace;
the numbers that a task sees in its own namespace, and the check of the session it was born in, are
left out.
-/

namespace Criu.Sessions

open Pstree Reparent PstreeIds

def restoreBeforeSetsid (t : Tree) (child : ℕ) : Bool :=
  match t.parent child with
  | none => false
  | some p => t.bornSid p == some ((t.bornSid child).getD (t.vsid child))

/-- `restore_sid`: the session afterwards, if the checks pass. -/
def restoreSid (t : Tree) (x currSid : ℕ) : Option ℕ :=
  let sid := if t.isSessionLeader x then t.vpid x else currSid
  if sid = t.vsid x then some sid else none

def Reachable (t : Tree) (x : ℕ) : Prop := ∃ path, t.follow t.root path = some x

variable {t : Tree} {x sid : ℕ}

theorem restoreSid_eq {sid' : ℕ} (h : restoreSid t x sid = some sid') : sid' = t.vsid x := by
  unfold restoreSid at h
  generalize (if t.isSessionLeader x then t.vpid x else sid) = s at h
  by_cases hs : s = t.vsid x
  · simp only [hs, if_true, Option.some.injEq] at h
    exact h.symm
  · simp [hs] at h

end Criu.Sessions

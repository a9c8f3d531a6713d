import Mathlib.Data.List.Sort
import Criu.Lib.Forest

/-!
The process tree as it is kept during a restore (criu/pstree.c). Items are numbered in the order
in which they are allocated. An item that only stands for a pid, because some task has it as its
sid or pgid, is not linked into the tree. A pid has one number in every pid namespace from the
root's down to the task's own, and a pid namespace is written as the list of the ids on the way
down to it.
-/

namespace Criu.Pstree

open List

variable {x virt : ℕ}

inductive TaskState where
  | undef
  | alive
  | dead
  | stopped
  | helper
  deriving DecidableEq, Repr

structure Item where
  pid : List ℕ
  pgid : List ℕ
  sid : List ℕ
  threads : List (List ℕ)
  state : TaskState
  pidNs : List ℕ
  childSubreaper : Bool
  deriving DecidableEq, Repr

/-- `opts.shell_job`, and whether the root task has a pid namespace of its own. -/
structure Opts where
  shellJob : Bool
  newPidns : Bool

structure Tree extends Forest.Links ℕ where
  item : ℕ → Item
  size : ℕ
  root : ℕ
  bornSid : ℕ → Option ℕ
  myChildSubreaper : ℕ → Option ℕ
  pgrpMemberCnt : ℕ → ℕ

def initPid : ℕ := 1

def reservedPids : ℕ := 300

namespace Item

def vpid (i : Item) : ℕ := i.pid.headD 0

def vpgid (i : Item) : ℕ := i.pgid.headD 0

def vsid (i : Item) : ℕ := i.sid.headD 0

def level (i : Item) : ℕ := i.pid.length

def lastLevelPid (i : Item) : ℕ := i.pid.getLastD 0

/-- `is_session_leader`. That the numbers agree on the other levels too is a `BUG_ON` of the
source, which is left out: fewer trees are turned down here. -/
def isSessionLeader (i : Item) : Bool := i.vsid == i.vpid

def isGroupLeader (i : Item) : Bool := i.vpid == i.vpgid

end Item

/-- `equal_pid`: the numbers are the same, and zero where one of the two has none. -/
def equalPid : List ℕ → List ℕ → Bool
  | a :: as, b :: bs => a == b && equalPid as bs
  | [], bs => bs.all (· == 0)
  | as, [] => as.all (· == 0)

def getPidnsOnLevel (i : Item) (level : ℕ) : Option (List ℕ) :=
  if i.level < level then none else some (i.pidNs.take level)

def getRelativePid (base i : Item) : ℕ :=
  if i.level = base.level then
    if base.pidNs = i.pidNs then i.lastLevelPid else 0
  else if getPidnsOnLevel i base.level = some base.pidNs then i.pid.getD (base.level - 1) 0
  else 0

namespace Tree

variable (t : Tree)

def tasks : Set ℕ := {x | x < t.size ∧ (t.item x).state ≠ .undef}

def vpid (x : ℕ) : ℕ := (t.item x).vpid

def vpgid (x : ℕ) : ℕ := (t.item x).vpgid

def vsid (x : ℕ) : ℕ := (t.item x).vsid

def isSessionLeader (x : ℕ) : Bool := (t.item x).isSessionLeader

def isGroupLeader (x : ℕ) : Bool := (t.item x).isGroupLeader

def itemByVirt (virt : ℕ) : Option ℕ :=
  (List.range t.size).find? fun x => t.vpid x == virt

def inPidns (ns : List ℕ) (x : ℕ) : Bool := ns.isPrefixOf (t.item x).pidNs

def itemByVirtIn (ns : List ℕ) (virt : ℕ) : Option ℕ :=
  (List.range t.size).find? fun x =>
    t.inPidns ns x && (t.item x).pid[ns.length - 1]? == some virt

def pssubtreeItemNext (x root : ℕ) (skipDescendants : Bool) : Option (Option ℕ) :=
  if skipDescendants then t.climb (some root) (t.size + 1) x
  else t.next (some root) (t.size + 1) x

/-- The items that `for_each_pstree_item` goes over. -/
def forEachItem : Option (List ℕ) := t.walk (t.size + 1) (t.size + 1) t.root

/-- Where `add_child_task` puts a child: at the end, but the init of a pid namespace goes to the
front, behind those of the namespaces above. -/
def insertChild (child : ℕ) (l : List ℕ) : List ℕ :=
  if t.vpid child ≠ initPid then l ++ [child]
  else
    let above := fun x => t.vpid x == initPid && decide ((t.item x).level < (t.item child).level)
    l.takeWhile above ++ child :: l.dropWhile above

def addChildTask (child parent : ℕ) : Tree :=
  let siblings := t.insertChild child (t.children parent)
  { t with children := Function.update t.children parent siblings }

/-- `list_del` on the sibling link; an item is in one list at most. -/
def delChild (child : ℕ) : Tree :=
  { t with children := fun p => (t.children p).erase child }

def moveChildTask (child newParent : ℕ) : Tree :=
  (t.delChild child).addChildTask child newParent

def usedPids (ns : List ℕ) : List ℕ :=
  (((List.range t.size).filter (t.inPidns ns)).flatMap fun x =>
    ((t.item x).pid :: (t.item x).threads).filterMap (·[ns.length - 1]?)).insertionSort (· ≤ ·)

end Tree

def pidAfter (prev : ℕ) : ℕ :=
  if prev + 1 < reservedPids then reservedPids + 1 else prev + 1

/-- The loop of `get_free_pid` from the number `prev` on. -/
def freePidAfter : ℕ → List ℕ → ℕ
  | prev, [] => pidAfter prev
  | prev, next :: rest => if next > pidAfter prev then pidAfter prev else freePidAfter next rest

def getFreePid (t : Tree) (ns : List ℕ) : Option ℕ :=
  match t.usedPids ns with
  | [] => none
  | first :: rest => some (freePidAfter first rest)

/-- `get_free_pids`: a number in the namespace and in each of those above it. -/
def getFreePids (t : Tree) (ns : List ℕ) : Option (List ℕ) :=
  if ns = [] then none
  else (List.range ns.length).mapM fun k => getFreePid t (ns.take (k + 1))

namespace Tree

/-- `lookup_create_item` for pids that are free, with what is then set for a helper that is to be
in the session of the item `x`. It is not in a list of children yet. -/
def addHelper (t : Tree) (pids ns : List ℕ) (x leader : ℕ) : Tree :=
  let sid := (t.item x).sid.take pids.length
  { t with
    size := t.size + 1
    item := Function.update t.item t.size ⟨pids, sid, sid, [], .helper, ns, false⟩
    parent := Function.update t.parent t.size (some leader) }

end Tree

def setBornSid (t : Tree) (x sid : ℕ) : Option Tree :=
  if t.bornSid x ≠ none ∧ t.bornSid x ≠ some sid then none
  else some { t with bornSid := Function.update t.bornSid x (some sid) }

/-- The loop of `__can_inherit_sid` from the ancestor `p` on. -/
def canInheritFrom (set : Bool) (sid : ℕ) : ℕ → Option ℕ → Tree → Option (Tree × Bool)
  | 0, _, _ => none
  | _ + 1, none, t => some (t, false)
  | n + 1, some p, t =>
      if sid = t.vsid p then some (t, true)
      else if !t.isSessionLeader p then some (t, false)
      else if set then
        match setBornSid t p sid with
        | none => some (t, false)
        | some t' => canInheritFrom set sid n (t'.parent p) t'
      else canInheritFrom set sid n (t.parent p) t

def canInheritSid (t : Tree) (x : ℕ) : Option Bool :=
  (canInheritFrom false (t.vsid x) (t.size + 1) (t.parent x) t).map (·.2)

theorem getFreePids_head {t : Tree} {ns pids : List ℕ} (h : getFreePids t ns = some pids) :
    ∃ pid rest, pids = pid :: rest := by
  unfold getFreePids at h
  cases ns with
  | nil => simp at h
  | cons n ns =>
    simp only [length_cons, range_succ_eq_map, mapM_cons] at h
    obtain ⟨pid, -, h⟩ := Option.bind_eq_some_iff.mp h
    obtain ⟨rest, -, h⟩ := Option.bind_eq_some_iff.mp h
    exact ⟨pid, rest, (Option.some.inj h).symm⟩

namespace Tree

variable {t : Tree}

theorem itemByVirt_eq_some :
    t.itemByVirt virt = some x ↔ t.vpid x = virt ∧ x < t.size ∧ ∀ y < x, t.vpid y ≠ virt := by
  unfold itemByVirt
  simp

/-- A pid that is found is found as the same item after others were added. -/
theorem itemByVirt_mono {t' : Tree} (hsize : t.size ≤ t'.size)
    (hitem : ∀ y < t.size, t'.item y = t.item y) (h : t.itemByVirt virt = some x) :
    t'.itemByVirt virt = some x := by
  obtain ⟨hv, hlt, hfirst⟩ := itemByVirt_eq_some.mp h
  have hpid : ∀ y < t.size, t'.vpid y = t.vpid y := fun y hy => congrArg Item.vpid (hitem y hy)
  refine itemByVirt_eq_some.mpr ⟨(hpid x hlt).trans hv, hlt.trans_le hsize, fun y hy => ?_⟩
  rw [hpid y (hy.trans hlt)]
  exact hfirst y hy

theorem insertChild_perm (child : ℕ) (l : List ℕ) : (t.insertChild child l).Perm (child :: l) := by
  unfold insertChild
  split
  · exact perm_append_singleton child l
  · refine perm_middle.trans (List.Perm.cons child ?_)
    rw [takeWhile_append_dropWhile]

theorem mem_insertChild {child : ℕ} {l : List ℕ} :
    x ∈ t.insertChild child l ↔ x = child ∨ x ∈ l := by
  rw [(t.insertChild_perm child l).mem_iff, mem_cons]

end Tree

end Criu.Pstree

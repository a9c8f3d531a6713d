import Mathlib.Algebra.Order.BigOperators.Group.Finset
import Mathlib.Order.WellFoundedSet
import Criu.PgrpMembers
import Criu.Sessions

/-!
The restore of process groups (`restore_pgid`, criu/cr-restore.c). A task that leads a group with
members first moves into that group, says so, and waits until all of the members have joined; only
then does it move on to the group it has to be in itself, after the leader of that group has said
that it is there. The tasks run at the same time, and every statement of `restore_pgid` that others
can see is one step.

A session leader is not counted as a leader and never says that it is there. So a task that has
left its session leader's group to lead one, and has gone back, waits for ever; and so do tasks
that lead each other's groups.
-/

namespace Criu.ProcessGroups

open Pstree Reparent PstreeIds Sessions PgrpMembers List Function

variable {outside x sid : ℕ} {pgids : ℕ → ℕ} {o : Opts} {t : Tree} {ids : List (ℕ × ℕ)}

inductive Pc where
  | check
  | lead
  | wake
  | members
  | join
  | await
  | move
  | drop
  | done
  | failed
  deriving DecidableEq, Repr

/-- What the tasks share. How often a counter was decremented is not in the source. -/
structure State where
  pc : ℕ → Pc
  currPgid : ℕ → ℕ
  pgrpSet : ℕ → Bool
  memberCnt : ℕ → ℕ
  dropped : ℕ → ℕ

/-- The checks of `check_set_pgid` for a task that moves itself. -/
def checkSetPgid (t : Tree) (s : State) (x pgid : ℕ) : Bool :=
  pgid != 0 && pgid != s.currPgid x &&
    match t.itemByVirt pgid with
    | none => false
    | some leader =>
        (t.item leader).state != .undef && getRelativePid (t.item x) (t.item x) != 0 &&
          getRelativePid (t.item x) (t.item leader) != 0 && t.vsid x != t.vpid x

/-- What `setpgid` asks: the group is the task's own, or there is one in its session. -/
def setpgidAllowed (t : Tree) (s : State) (x pgid : ℕ) : Bool :=
  pgid == t.vpid x || (List.range t.size).any fun y =>
    decide (y ∈ t.tasks) && s.currPgid y == pgid && t.vsid y == t.vsid x

def setPgid (t : Tree) (s : State) (x pgid : ℕ) : Option State :=
  if checkSetPgid t s x pgid && setpgidAllowed t s x pgid then
    some { s with currPgid := update s.currPgid x pgid }
  else none

def State.goto (s : State) (x : ℕ) (pc : Pc) : State :=
  { s with pc := update s.pc x pc }

/-- `set_pgid` with the exit of `restore_pgid` where it fails. -/
def moveTo (t : Tree) (s : State) (x pgid : ℕ) (pc : Pc) : State :=
  match setPgid t s x pgid with
  | none => s.goto x .failed
  | some s' => s'.goto x pc

/-- The next step of a task; there is none while it is blocked, and at the end. -/
def step (o : Opts) (t : Tree) (s : State) (x : ℕ) : Option State :=
  match s.pc x with
  | .check =>
      if externalGroup o t x then
        some (s.goto x (if s.currPgid x = t.vpgid x then .done else .failed))
      else some (s.goto x (if s.memberCnt x = 0 then .join else .lead))
  | .lead =>
      if s.currPgid x = t.vpid x then some (s.goto x .wake)
      else some (moveTo t s x (t.vpid x) .wake)
  | .wake => some { s.goto x .members with pgrpSet := update s.pgrpSet x true }
  | .members => if s.memberCnt x = 0 then some (s.goto x .join) else none
  | .join =>
      match t.itemByVirt (t.vpgid x) with
      | none => some (s.goto x .failed)
      | some leader =>
          if (t.item leader).state = .undef then some (s.goto x .failed)
          else if s.currPgid x = t.vpgid x then some (s.goto x .drop)
          else some (s.goto x (if x = leader then .move else .await))
  | .await =>
      match t.itemByVirt (t.vpgid x) with
      | none => some (s.goto x .failed)
      | some leader => if s.pgrpSet leader then some (s.goto x .move) else none
  | .move => some (moveTo t s x (t.vpgid x) .drop)
  | .drop =>
      match t.itemByVirt (t.vpgid x) with
      | none => some (s.goto x .failed)
      | some leader =>
          if x = leader ∨ t.isSessionLeader leader = true then some (s.goto x .done)
          else if s.memberCnt leader = 0 then some (s.goto x .failed)
          else some { s.goto x .done with
            memberCnt := update s.memberCnt leader (s.memberCnt leader - 1)
            dropped := update s.dropped leader (s.dropped leader + 1) }
  | .done => none
  | .failed => none

def start (t : Tree) (pgids : ℕ → ℕ) : State :=
  ⟨fun _ => .check, pgids, fun _ => false, t.pgrpMemberCnt, fun _ => 0⟩

inductive ForkedInto (t : Tree) (outside : ℕ) : ℕ → ℕ → ℕ → Prop
  | root : ForkedInto t outside t.root (t.vsid t.root) outside
  | alien {p c sid pgid : ℕ} : ForkedInto t outside p sid pgid → c ∈ t.children p →
      restoreBeforeSetsid t c = true → ForkedInto t outside c sid pgid
  | own {p c sid sid' pgid : ℕ} : ForkedInto t outside p sid pgid →
      restoreSid t p sid = some sid' → c ∈ t.children p → restoreBeforeSetsid t c = false →
      ForkedInto t outside c sid' (if t.isSessionLeader p then t.vpid p else pgid)

/-- The groups in which the tasks are when they come to `restore_pgid`, if the root starts in the
group `outside`. -/
def StartedIn (t : Tree) (outside : ℕ) (pgids : ℕ → ℕ) : Prop :=
  ∀ x, Reachable t x → ∃ sid pgid, ForkedInto t outside x sid pgid ∧
    restoreSid t x sid = some (t.vsid x) ∧
    pgids x = if t.isSessionLeader x then t.vpid x else pgid

def Reached (o : Opts) (t : Tree) (outside : ℕ) : State → Prop :=
  Run.Reach (fun s => ∃ pgids, StartedIn t outside pgids ∧ s = start t pgids)
    (fun s x s' => step o t s x = some s') fun _ x => Reachable t x

/-- What the tree has to be like. The tasks can be reached, groups are in one session, pids are
numbers of tasks, and the root can be in its group. If the root is not a session leader, its session
is led from outside, and the group from outside is in that session and not led by a task. A leader
with members is in a group of the tree, either its own or one that is not led by a session leader,
and going from leader to leader does not lead back. -/
structure Orderly (o : Opts) (t : Tree) (outside : ℕ) : Prop where
  reachable : ∀ x ∈ t.tasks, Reachable t x
  grouped : Grouped o t
  positive : ∀ x ∈ t.tasks, t.vpid x ≠ 0 ∧ (t.item x).lastLevelPid ≠ 0
  receives : t.isGroupLeader t.root = true ∨ canReceivePgid o t t.root = some true
  session : t.isSessionLeader t.root = false → ∀ x ∈ t.tasks, t.isSessionLeader x = true →
    t.vsid x ≠ t.vsid t.root
  external : ∀ x ∈ t.tasks, externalGroup o t x = true →
    t.vsid x = t.vsid t.root ∧ t.vpgid x = outside
  elsewhere : ∀ x ∈ t.tasks, t.vpid x ≠ outside
  inside : ∀ x l, Member o t x l → externalGroup o t l = false
  away : ∀ x l k, Member o t x l → t.itemByVirt (t.vpgid l) = some k → k ≠ l →
    t.isSessionLeader k = false
  acyclic : ∀ x, ¬ Relation.TransGen (Member o t) x x

/-- What is asked of a state: not all of the unfinished tasks are blocked, no task has failed,
what is left of a counter and what was taken away make up what was counted, and at the end all is
taken away and the tasks are in their groups. -/
structure Sound (o : Opts) (t : Tree) (s : State) : Prop where
  progress : (∃ x, Reachable t x ∧ s.pc x ≠ .done) →
    ∃ x, Reachable t x ∧ (step o t s x).isSome
  unfailed : ∀ x, Reachable t x → s.pc x ≠ .failed
  counted : ∀ g, s.dropped g + s.memberCnt g = t.pgrpMemberCnt g
  finished : (∀ x, Reachable t x → s.pc x = .done) →
    (∀ x, Reachable t x → s.currPgid x = t.vpgid x) ∧ ∀ g, s.dropped g = t.pgrpMemberCnt g

/-! ### Where the tasks start -/

def birthPgid (t : Tree) (outside sid : ℕ) : ℕ :=
  if t.isSessionLeader t.root = false ∧ sid = t.vsid t.root then outside else sid

variable {pc : Pc} {l n pgid : ℕ}

section Start

def LedOutside (t : Tree) : Prop :=
  t.isSessionLeader t.root = false → ∀ x ∈ t.tasks, t.isSessionLeader x = true →
    t.vsid x ≠ t.vsid t.root

theorem restoreSid_keep {sid' : ℕ} (h : restoreSid t x sid = some sid')
    (hl : t.isSessionLeader x = false) : sid' = sid := by
  simp only [restoreSid, hl, Bool.false_eq_true, if_false] at h
  split at h
  · exact (Option.some.inj h).symm
  · cases h

theorem forkedInto_pgid (h : Prepared t) (hs : LedOutside t)
    (hf : ForkedInto t outside x sid pgid) :
    x = t.root ∧ t.isSessionLeader t.root = true ∨ pgid = birthPgid t outside sid := by
  induction hf with
  | root =>
    cases hl : t.isSessionLeader t.root with
    | true => exact .inl ⟨rfl, rfl⟩
    | false => exact .inr (by simp [birthPgid, hl])
  | @alien p c sid pgid _ hc hbefore ih =>
    refine .inr (ih.resolve_left ?_)
    rintro ⟨rfl, -⟩
    have hpar := ((h.linked.hung.mem_children _ c).mp hc).1
    simp [restoreBeforeSetsid, hpar, h.root] at hbefore
  | @own p c sid sid' pgid _ hsid hc hafter ih =>
    right
    cases hl : t.isSessionLeader p with
    | true =>
      have hmem := (h.linked.child_mem hc).2
      rw [if_pos rfl, restoreSid_eq hsid, birthPgid, if_neg, isSessionLeader_iff.mp hl]
      rintro ⟨hno, hsame⟩
      exact hs hno p hmem hl hsame
    | false =>
      rw [restoreSid_keep hsid hl]
      refine ih.resolve_left ?_
      rintro ⟨rfl, hlead⟩
      rw [hl] at hlead
      cases hlead

theorem started_pgid (h : Prepared t) (hs : LedOutside t)
    (hst : StartedIn t outside pgids) (hx : Reachable t x) : pgids x =
      if t.isSessionLeader x then t.vpid x else birthPgid t outside (t.vsid x) := by
  obtain ⟨sid, pgid, hf, hsid, heq⟩ := hst x hx
  rw [heq]
  cases hl : t.isSessionLeader x with
  | true => rfl
  | false =>
    rw [restoreSid_keep hsid hl]
    refine (forkedInto_pgid h hs hf).resolve_left ?_
    rintro ⟨rfl, hlead⟩
    rw [hl] at hlead
    cases hlead

end Start

structure Groups (o : Opts) (t : Tree) (pgids : ℕ → ℕ) : Prop where
  led : ∀ x ∈ t.tasks, externalGroup o t x = false →
    ∃ l ∈ t.tasks, t.itemByVirt (t.vpgid x) = some l
  visible : ∀ x l, Member o t x l → getRelativePid (t.item x) (t.item l) ≠ 0
  positive : ∀ x ∈ t.tasks, t.vpid x ≠ 0 ∧ getRelativePid (t.item x) (t.item x) ≠ 0
  external : ∀ x ∈ t.tasks, externalGroup o t x = true → pgids x = t.vpgid x
  settled : ∀ x ∈ t.tasks, ∀ l, externalGroup o t x = false →
    t.itemByVirt (t.vpgid x) = some l → t.isSessionLeader l = true → pgids x = t.vpgid x
  apart : ∀ x l, Member o t x l → pgids x ≠ t.vpgid x ∧ t.isSessionLeader x = false
  together : ∀ x l, Member o t x l → t.vsid l = t.vsid x
  inside : ∀ x l, Member o t x l → externalGroup o t l = false
  away : ∀ x l k, Member o t x l → t.itemByVirt (t.vpgid l) = some k → k ≠ l →
    t.isSessionLeader k = false
  acyclic : ∀ x, ¬ Relation.TransGen (Member o t) x x
  count : ∀ g, t.pgrpMemberCnt g = (members o t g).card

theorem Orderly.groups {namespaces : List (List ℕ)} {fuel : ℕ} {t₀ : Tree}
    (ht : GroupTree t₀) (h : preparePstreeIds o namespaces fuel t₀ = some t)
    (ho : Orderly o t outside) (hst : StartedIn t outside pgids) : Groups o t pgids := by
  have hp := prepared_of_ids ht.process h
  have hstart : ∀ x ∈ t.tasks, pgids x =
      if t.isSessionLeader x then t.vpid x else birthPgid t outside (t.vsid x) :=
    fun x hx => started_pgid hp ho.session hst (ho.reachable x hx)
  have hfound : ∀ x ∈ t.tasks, externalGroup o t x = false → ∃ l ∈ t.tasks,
      t.itemByVirt (t.vpgid x) = some l ∧
        (l = x ∨ t.isSessionLeader l = true ∨ getRelativePid (t.item x) (t.item l) ≠ 0) := by
    intro x hx hext
    obtain ⟨path, hpath⟩ := ho.reachable x hx
    exact leader_found ht h hpath hext ho.receives
  have htogether : ∀ x l, Member o t x l → t.vsid l = t.vsid x := by
    rintro x l ⟨hx, hext, hlook, -, -⟩
    exact ho.grouped.together x hx l hext hlook
  have hnot : ∀ x l, Member o t x l → t.vsid x ≠ t.vpgid x := by
    intro x l hm hsame
    have hsl : t.isSessionLeader l = true := by
      rw [isSessionLeader_iff, htogether x l hm, hsame]
      exact (Tree.itemByVirt_eq_some.mp hm.2.2.1).1.symm
    rw [hm.2.2.2.2] at hsl
    cases hsl
  have hplain : ∀ x l, Member o t x l → t.isSessionLeader x = false := by
    intro x l hm
    rw [Bool.eq_false_iff]
    intro hsl
    refine hnot x l hm ((isSessionLeader_iff.mp hsl).trans ?_)
    exact isGroupLeader_iff.mp (ho.grouped.leads x hm.1 hsl)
  refine ⟨fun x hx hext => ?_, fun x l hm => ?_, fun x hx => ?_, fun x hx hext => ?_,
    fun x hx l hext hlook hsl => ?_, fun x l hm => ?_, htogether, ho.inside, ho.away, ho.acyclic,
    member_count ht h ho.grouped⟩
  · obtain ⟨l, hl, hlook, -⟩ := hfound x hx hext
    exact ⟨l, hl, hlook⟩
  · obtain ⟨l', -, hlook, hsee⟩ := hfound x hm.1 hm.2.1
    cases Option.some.inj (hm.2.2.1.symm.trans hlook)
    rcases hsee with hself | hsl | hrel
    · exact absurd hself.symm hm.2.2.2.1
    · rw [hm.2.2.2.2] at hsl
      cases hsl
    · exact hrel
  · simpa [getRelativePid] using ho.positive x hx
  · obtain ⟨hsid, hpgid⟩ := ho.external x hx hext
    have hroot : t.isSessionLeader t.root = false := by
      simp only [externalGroup, Bool.and_eq_true, Bool.not_eq_true'] at hext
      exact hext.1.1.2
    have hsl : t.isSessionLeader x = false := by
      rw [Bool.eq_false_iff]
      exact fun hsl => ho.session hroot x hx hsl hsid
    rw [hstart x hx, hsl, hpgid]
    simp [birthPgid, hroot, hsid]
  · have hsame : t.vsid x = t.vpgid x := by
      rw [← ho.grouped.together x hx l hext hlook, isSessionLeader_iff.mp hsl]
      exact (Tree.itemByVirt_eq_some.mp hlook).1
    rw [hstart x hx]
    cases hslx : t.isSessionLeader x with
    | true =>
      rw [← hsame]
      exact (isSessionLeader_iff.mp hslx).symm
    | false =>
      rw [if_neg Bool.false_ne_true, birthPgid, if_neg, hsame]
      rintro ⟨hroot, hsid⟩
      obtain ⟨l', hl', hlook', -⟩ := hfound x hx hext
      cases Option.some.inj (hlook.symm.trans hlook')
      refine ho.session hroot l hl' hsl ?_
      rw [ho.grouped.together x hx l hext hlook, hsid]
  · have hslx := hplain x l hm
    refine ⟨?_, hslx⟩
    rw [hstart x hm.1, hslx, if_neg Bool.false_ne_true, birthPgid]
    split
    · obtain ⟨l', hl', hlook', -⟩ := hfound x hm.1 hm.2.1
      have := ho.elsewhere l' hl'
      rw [(Tree.itemByVirt_eq_some.mp hlook').1] at this
      exact this.symm
    · exact hnot x l hm

/-! ### The invariant of the steps -/

structure Over (o : Opts) (t : Tree) (s : State) (x : ℕ) : Prop where
  cnt : s.memberCnt x = 0
  set : (∃ m, Member o t m x) → s.pgrpSet x = true

structure Ready (o : Opts) (t : Tree) (pgids : ℕ → ℕ) (s : State) (x : ℕ) : Prop where
  inside : externalGroup o t x = false
  gathered : Over o t s x
  leader : (∃ m, Member o t m x) → s.currPgid x = t.vpid x
  plain : (¬ ∃ m, Member o t m x) → s.currPgid x = pgids x

structure Joined (o : Opts) (t : Tree) (s : State) (x : ℕ) : Prop where
  gathered : externalGroup o t x = false → Over o t s x
  curr : s.currPgid x = t.vpgid x
  waited : ∀ l, Member o t x l → s.pgrpSet l = true

/-- What is known of a task at a point of `restore_pgid`. -/
def At (o : Opts) (t : Tree) (pgids : ℕ → ℕ) (s : State) (x : ℕ) : Pc → Prop
  | .check => s.currPgid x = pgids x ∧ s.pgrpSet x = false
  | .lead => externalGroup o t x = false ∧ (∃ m, Member o t m x) ∧
      s.currPgid x = pgids x ∧ s.pgrpSet x = false
  | .wake => externalGroup o t x = false ∧ (∃ m, Member o t m x) ∧
      s.currPgid x = t.vpid x ∧ s.pgrpSet x = false
  | .members => externalGroup o t x = false ∧ (∃ m, Member o t m x) ∧
      s.currPgid x = t.vpid x ∧ s.pgrpSet x = true
  | .join => Ready o t pgids s x
  | .await => Ready o t pgids s x ∧ s.currPgid x ≠ t.vpgid x ∧ ∃ l, Member o t x l
  | .move => Ready o t pgids s x ∧ s.currPgid x ≠ t.vpgid x ∧
      (t.itemByVirt (t.vpgid x) = some x ∨ ∃ l, Member o t x l ∧ s.pgrpSet l = true)
  | .drop => Joined o t s x ∧ externalGroup o t x = false
  | .done => Joined o t s x
  | .failed => False

structure Inv (o : Opts) (t : Tree) (pgids : ℕ → ℕ) (s : State) : Prop where
  task : ∀ x ∈ t.tasks, At o t pgids s x (s.pc x)
  cnt : ∀ g, s.memberCnt g = ((members o t g).filter fun x => s.pc x ≠ .done).card
  dropped : ∀ g, s.dropped g + s.memberCnt g = t.pgrpMemberCnt g

structure Same (s s' : State) (x : ℕ) : Prop where
  curr : s'.currPgid x = s.currPgid x
  set : s'.pgrpSet x = s.pgrpSet x
  mono : ∀ y, s.pgrpSet y = true → s'.pgrpSet y = true
  cnt : s.memberCnt x = 0 → s'.memberCnt x = 0

section Steps

variable {s s' : State} {y : ℕ}

theorem Same.gathered (hs : Same s s' x) (h : Over o t s x) : Over o t s' x :=
  ⟨hs.cnt h.cnt, fun hm => hs.mono x (h.set hm)⟩

theorem Same.ready (hs : Same s s' x) (h : Ready o t pgids s x) : Ready o t pgids s' x := by
  refine ⟨h.inside, hs.gathered h.gathered, ?_, ?_⟩
  · rw [hs.curr]
    exact h.leader
  · rw [hs.curr]
    exact h.plain

theorem Same.joined (hs : Same s s' x) (h : Joined o t s x) : Joined o t s' x := by
  refine ⟨fun hext => hs.gathered (h.gathered hext), ?_, fun l hl => hs.mono l (h.waited l hl)⟩
  rw [hs.curr]
  exact h.curr

theorem Same.at (hs : Same s s' x) (h : At o t pgids s x pc) : At o t pgids s' x pc := by
  cases pc with
  | check | lead | wake | members =>
    simp only [At, hs.curr, hs.set]
    exact h
  | join => exact hs.ready h
  | await =>
    obtain ⟨hr, hne, hl⟩ := h
    exact ⟨hs.ready hr, by rwa [hs.curr], hl⟩
  | move =>
    obtain ⟨hr, hne, hl⟩ := h
    refine ⟨hs.ready hr, by rwa [hs.curr], hl.imp_right ?_⟩
    rintro ⟨l, hm, hset⟩
    exact ⟨l, hm, hs.mono l hset⟩
  | drop => exact ⟨hs.joined h.1, h.2⟩
  | done => exact hs.joined h
  | failed => exact h

theorem same_goto (s : State) (x y : ℕ) (pc : Pc) : Same s (s.goto x pc) y :=
  ⟨rfl, rfl, fun _ h => h, fun h => h⟩

theorem goto_pc (s : State) (x : ℕ) (pc : Pc) : (s.goto x pc).pc x = pc :=
  update_self ..

theorem goto_pc_of_ne (s : State) (pc : Pc) (h : y ≠ x) : (s.goto x pc).pc y = s.pc y :=
  update_of_ne h ..

theorem member_unique {l' : ℕ} (h : Member o t x l) (h' : Member o t x l') : l = l' :=
  Option.some.inj (h.2.2.1.symm.trans h'.2.2.1)

theorem Groups.leader_mem (hg : Groups o t pgids) (h : Member o t x l) : l ∈ t.tasks := by
  obtain ⟨l', hl', hlook⟩ := hg.led x h.1 h.2.1
  cases Option.some.inj (h.2.2.1.symm.trans hlook)
  exact hl'

theorem setPgid_eq (h0 : pgid ≠ 0) (hcurr : s.currPgid x ≠ pgid)
    (hlook : t.itemByVirt pgid = some l) (hl : l ∈ t.tasks)
    (hself : getRelativePid (t.item x) (t.item x) ≠ 0)
    (hsee : getRelativePid (t.item x) (t.item l) ≠ 0) (hsl : t.isSessionLeader x = false)
    (hgroup : pgid = t.vpid x ∨ ∃ y ∈ t.tasks, s.currPgid y = pgid ∧ t.vsid y = t.vsid x) :
    setPgid t s x pgid = some { s with currPgid := update s.currPgid x pgid } := by
  have hno : t.vsid x ≠ t.vpid x := by
    intro he
    rw [isSessionLeader_iff.mpr he] at hsl
    cases hsl
  have hallowed : setpgidAllowed t s x pgid = true := by
    rw [setpgidAllowed, Bool.or_eq_true, beq_iff_eq, any_eq_true]
    refine hgroup.imp_right ?_
    rintro ⟨y, hy, hc, hv⟩
    exact ⟨y, mem_range.mpr hy.1, by simp [hy, hc, hv]⟩
  rw [setPgid]
  simp [checkSetPgid, h0, hcurr.symm, hlook, hl.2, hself, hsee, hno, hallowed]

theorem itemByVirt_leader {m : ℕ} (h : Member o t m x) : t.itemByVirt (t.vpid x) = some x := by
  rw [(Tree.itemByVirt_eq_some.mp h.2.2.1).1]
  exact h.2.2.1

/-- A task that is in the right group when it comes to join it is not a member of it. -/
theorem Ready.not_member (hg : Groups o t pgids) (h : Ready o t pgids s x)
    (hcurr : s.currPgid x = t.vpgid x) (l : ℕ) : ¬ Member o t x l := by
  intro hm
  by_cases hlead : ∃ m, Member o t m x
  · obtain ⟨m, hmx⟩ := hlead
    have hself := itemByVirt_leader hmx
    rw [← h.leader ⟨m, hmx⟩, hcurr, hm.2.2.1] at hself
    exact hm.2.2.2.1 (Option.some.inj hself).symm
  · exact (hg.apart x l hm).1 ((h.plain hlead).symm.trans hcurr)

/-- The leader whose group a task still has to join is not a session leader, unless it is the task
itself. -/
theorem Ready.not_session (hg : Groups o t pgids) (hx : x ∈ t.tasks) (h : Ready o t pgids s x)
    (hcurr : s.currPgid x ≠ t.vpgid x) (hlook : t.itemByVirt (t.vpgid x) = some l) :
    t.isSessionLeader l = false := by
  rw [Bool.eq_false_iff]
  intro hsl
  have hstart := hg.settled x hx l h.inside hlook hsl
  by_cases hlead : ∃ m, Member o t m x
  · obtain ⟨m, hm⟩ := hlead
    by_cases hlx : l = x
    · rw [hlx, hm.2.2.2.2] at hsl
      cases hsl
    · rw [hg.away m x l hm hlook hlx] at hsl
      cases hsl
  · exact hcurr ((h.plain hlead).trans hstart)

theorem Inv.start (hg : Groups o t pgids) : Inv o t pgids (start t pgids) := by
  refine ⟨fun x _ => ⟨rfl, rfl⟩, fun g => ?_, fun g => Nat.zero_add _⟩
  refine (hg.count g).trans ?_
  congr 1
  refine (Finset.filter_true_of_mem fun x _ hd => ?_).symm
  cases hd

variable (h : Inv o t pgids s)
include h

theorem Inv.at (hx : x ∈ t.tasks) (hpc : s.pc x = pc) :
    At o t pgids s x pc := hpc ▸ h.task x hx

/-- The invariant after a step, if it holds for the task that made it, and the counters went down
for a member that is done. -/
theorem Inv.of_same (hpc : ∀ y ≠ x, s'.pc y = s.pc y)
    (hs : ∀ y ≠ x, Same s s' y) (hnot : s.pc x ≠ .done) (hx : At o t pgids s' x (s'.pc x))
    (hcnt : ∀ g, s'.memberCnt g + (if Member o t x g ∧ s'.pc x = .done then 1 else 0) =
      s.memberCnt g) (hdrop : ∀ g, s'.dropped g + s'.memberCnt g = s.dropped g + s.memberCnt g) :
    Inv o t pgids s' := by
  refine ⟨fun y hy => ?_, fun g => ?_, fun g => (hdrop g).trans (h.dropped g)⟩
  · by_cases hyx : y = x
    · exact hyx ▸ hx
    · rw [hpc y hyx]
      exact (hs y hyx).at (h.task y hy)
  have hold := h.cnt g
  rw [← hcnt g] at hold
  by_cases hdone : Member o t x g ∧ s'.pc x = .done
  · rw [if_pos hdone] at hold
    have hmem : x ∈ (members o t g).filter fun y => s.pc y ≠ .done :=
      Finset.mem_filter.mpr ⟨mem_members.mpr hdone.1, hnot⟩
    have herase : (members o t g).filter (fun y => s'.pc y ≠ .done) =
        ((members o t g).filter fun y => s.pc y ≠ .done).erase x := by
      ext y
      by_cases hyx : y = x
      · subst hyx
        simp [hdone.2]
      · simp [hyx, hpc y hyx]
    rw [herase, Finset.card_erase_of_mem hmem]
    omega
  · rw [if_neg hdone, Nat.add_zero] at hold
    rw [hold]
    congr 1
    refine Finset.filter_congr fun y hy => ?_
    by_cases hyx : y = x
    · subst hyx
      have : s'.pc y ≠ .done := fun hd => hdone ⟨mem_members.mp hy, hd⟩
      simp [this, hnot]
    · rw [hpc y hyx]

/-- A step that goes on to another point and leaves the counters as they are. -/
theorem Inv.still {curr : ℕ → ℕ} {set : ℕ → Bool} (hnot : s.pc x ≠ .done)
    (hpc : pc = .done → ∀ g, ¬ Member o t x g)
    (hx : At o t pgids { s with currPgid := curr, pgrpSet := set } x pc)
    (hs : ∀ y ≠ x, Same s { s with currPgid := curr, pgrpSet := set } y) :
    Inv o t pgids { s.goto x pc with currPgid := curr, pgrpSet := set } := by
  refine h.of_same (fun y hy => goto_pc_of_ne s pc hy)
    (fun y hy => ⟨(hs y hy).curr, (hs y hy).set, (hs y hy).mono, id⟩) hnot ?_ (fun g => ?_)
    fun g => rfl
  · rw [goto_pc ..]
    exact (same_goto _ x x pc).at hx
  · rw [if_neg]
    · rfl
    · rintro ⟨hm, hd⟩
      exact hpc ((goto_pc s x pc).symm.trans hd) g hm

theorem Inv.goto (hnot : s.pc x ≠ .done)
    (hpc : pc = .done → ∀ g, ¬ Member o t x g) (hx : At o t pgids s x pc) :
    Inv o t pgids (s.goto x pc) :=
  h.still hnot hpc hx fun _ _ => ⟨rfl, rfl, fun _ h => h, id⟩

/-- A member that is not done is counted. -/
theorem Inv.cnt_ne_zero (hm : Member o t x l) (hnot : s.pc x ≠ .done) : s.memberCnt l ≠ 0 := by
  rw [h.cnt, Finset.card_ne_zero]
  exact ⟨x, Finset.mem_filter.mpr ⟨mem_members.mpr hm, hnot⟩⟩

/-- As long as the leader has not said that it is there, none of its members is done. -/
theorem Inv.waiting (hset : s.pgrpSet x = false) (hm : ∃ m, Member o t m x) :
    s.memberCnt x ≠ 0 := by
  obtain ⟨m, hm⟩ := hm
  refine h.cnt_ne_zero hm fun hd => ?_
  have := (h.at hm.1 hd).waited x hm
  rw [hset] at this
  cases this

/-- A leader that has said that it is there stays until its members are done. -/
theorem Inv.leader_stays (hl : y ∈ t.tasks) (hm : Member o t x y)
    (hnot : s.pc x ≠ .done) (hset : s.pgrpSet y = true) (hin : externalGroup o t y = false) :
    s.currPgid y = t.vpid y := by
  have hcnt := h.cnt_ne_zero hm hnot
  cases hpc : s.pc y with
  | check => cases hset.symm.trans (h.at hl hpc).2
  | lead | wake => cases hset.symm.trans (h.at hl hpc).2.2.2
  | members => exact (h.at hl hpc).2.2.1
  | join => exact absurd (h.at hl hpc).gathered.cnt hcnt
  | await | move => exact absurd (h.at hl hpc).1.gathered.cnt hcnt
  | drop => exact absurd ((h.at hl hpc).1.gathered hin).cnt hcnt
  | done => exact absurd ((h.at hl hpc).gathered hin).cnt hcnt
  | failed => exact (h.at hl hpc).elim

theorem Inv.moveTo (hnot : s.pc x ≠ .done)
    (hset : setPgid t s x pgid = some { s with currPgid := update s.currPgid x pgid })
    (hpc : pc ≠ .done) (hx : At o t pgids { s with currPgid := update s.currPgid x pgid } x pc) :
    Inv o t pgids (moveTo t s x pgid pc) := by
  rw [ProcessGroups.moveTo, hset]
  exact h.still hnot (fun hd => absurd hd hpc) hx
    fun y hy => ⟨update_of_ne hy _ _, rfl, fun _ hs => hs, id⟩

section

variable (hx : x ∈ t.tasks) (hs : step o t s x = some s')
include hx hs

theorem wake_step (hpc : s.pc x = .wake) : Inv o t pgids s' := by
  obtain ⟨hin, hm, hcurr, hset⟩ := h.at hx hpc
  simp only [step, hpc] at hs
  cases hs
  refine h.still (by simp [hpc]) nofun ⟨hin, hm, hcurr, update_self ..⟩ fun y hy => ?_
  refine ⟨rfl, update_of_ne hy _ _, fun z hz => ?_, id⟩
  by_cases hzx : z = x
  · rw [hzx]
    exact update_self ..
  · exact (update_of_ne hzx _ _).trans hz

theorem members_step (hpc : s.pc x = .members) : Inv o t pgids s' := by
  obtain ⟨hin, hm, hcurr, hset⟩ := h.at hx hpc
  simp only [step, hpc] at hs
  split at hs
  · rename_i hcnt
    cases hs
    exact h.goto (by simp [hpc]) nofun ⟨hin, ⟨hcnt, fun _ => hset⟩,
      fun _ => hcurr, fun hno => absurd hm hno⟩
  · cases hs

theorem await_step (hpc : s.pc x = .await) : Inv o t pgids s' := by
  obtain ⟨hready, hcurr, l, hm⟩ := h.at hx hpc
  simp only [step, hpc, hm.2.2.1] at hs
  split at hs
  · rename_i hset
    cases hs
    exact h.goto (by simp [hpc]) nofun ⟨hready, hcurr, .inr ⟨l, hm, hset⟩⟩
  · cases hs

variable (hg : Groups o t pgids)
include hg

theorem check_step (hpc : s.pc x = .check) : Inv o t pgids s' := by
  obtain ⟨hcurr, hset⟩ := h.at hx hpc
  have hnot : s.pc x ≠ .done := by simp [hpc]
  simp only [step, hpc] at hs
  cases hext : externalGroup o t x with
  | true =>
    have hstart : s.currPgid x = t.vpgid x := hcurr.trans (hg.external x hx hext)
    have hmem : ∀ l, ¬ Member o t x l := by
      intro l hm
      cases hext.symm.trans hm.2.1
    rw [hext, if_pos hstart] at hs
    cases hs
    refine h.goto hnot (fun _ => hmem) ⟨fun hno => ?_, hstart, fun l hm => absurd hm (hmem l)⟩
    cases hext.symm.trans hno
  | false =>
    rw [hext] at hs
    cases hs
    by_cases hcnt : s.memberCnt x = 0
    · have hnone : ¬ ∃ m, Member o t m x := fun hm => h.waiting hset hm hcnt
      rw [if_pos hcnt]
      exact h.goto hnot nofun ⟨hext, ⟨hcnt, fun hm => absurd hm hnone⟩,
        fun hm => absurd hm hnone, fun _ => hcurr⟩
    · rw [if_neg hcnt]
      refine h.goto hnot nofun ⟨hext, ?_, hcurr, hset⟩
      rw [h.cnt] at hcnt
      obtain ⟨m, hm⟩ := Finset.card_ne_zero.mp hcnt
      exact ⟨m, mem_members.mp (Finset.mem_filter.mp hm).1⟩

theorem lead_step (hpc : s.pc x = .lead) : Inv o t pgids s' := by
  obtain ⟨hin, ⟨m, hm⟩, hcurr, hset⟩ := h.at hx hpc
  have hnot : s.pc x ≠ .done := by simp [hpc]
  simp only [step, hpc] at hs
  split at hs
  · rename_i hc
    cases hs
    exact h.goto hnot nofun ⟨hin, ⟨m, hm⟩, hc, hset⟩
  rename_i hc
  cases hs
  obtain ⟨h0, hself⟩ := hg.positive x hx
  refine h.moveTo hnot ?_ nofun ⟨hin, ⟨m, hm⟩, ?_, hset⟩
  · exact setPgid_eq h0 hc (itemByVirt_leader hm) hx hself hself hm.2.2.2.2 (.inl rfl)
  · exact update_self ..

theorem join_step (hpc : s.pc x = .join) : Inv o t pgids s' := by
  have hready := h.at hx hpc
  have hnot : s.pc x ≠ .done := by simp [hpc]
  obtain ⟨l, hl, hlook⟩ := hg.led x hx hready.inside
  simp only [step, hpc, hlook, if_neg hl.2] at hs
  split at hs
  · rename_i hcurr
    cases hs
    have hno := hready.not_member hg hcurr
    exact h.goto hnot nofun ⟨⟨fun _ => hready.gathered, hcurr,
      fun l hm => absurd hm (hno l)⟩, hready.inside⟩
  rename_i hcurr
  cases hs
  split
  · rename_i hself
    refine h.goto hnot nofun ⟨hready, hcurr, .inl ?_⟩
    rw [hlook, ← hself]
  · rename_i hself
    have hsl := hready.not_session hg hx hcurr hlook
    exact h.goto hnot nofun ⟨hready, hcurr, l, hx, hready.inside, hlook, hself,
      hsl⟩

theorem move_step (hpc : s.pc x = .move) : Inv o t pgids s' := by
  obtain ⟨hready, hcurr, hlead⟩ := h.at hx hpc
  have hnot : s.pc x ≠ .done := by simp [hpc]
  simp only [step, hpc] at hs
  cases hs
  have hself := (hg.positive x hx).2
  have hset : setPgid t s x (t.vpgid x) =
      some { s with currPgid := update s.currPgid x (t.vpgid x) } := by
    rcases hlead with hlook | ⟨l, hm, hset⟩
    · have hpid := (Tree.itemByVirt_eq_some.mp hlook).1
      refine setPgid_eq ?_ hcurr hlook hx hself hself ?_ (.inl hpid.symm)
      · rw [← hpid]
        exact (hg.positive x hx).1
      · exact hready.not_session hg hx hcurr hlook
    have hl := hg.leader_mem hm
    have hpid := (Tree.itemByVirt_eq_some.mp hm.2.2.1).1
    refine setPgid_eq ?_ hcurr hm.2.2.1 hl hself (hg.visible x l hm) (hg.apart x l hm).2
      (.inr ⟨l, hl, ?_, hg.together x l hm⟩)
    · rw [← hpid]
      exact (hg.positive l hl).1
    · rw [h.leader_stays hl hm hnot hset (hg.inside x l hm), hpid]
  refine h.moveTo hnot hset nofun ⟨⟨fun _ => ?_, update_self .., ?_⟩,
    hready.inside⟩
  · exact ⟨hready.gathered.cnt, hready.gathered.set⟩
  · intro l hm
    rcases hlead with hlook | ⟨l', hm', hset'⟩
    · exact absurd (Option.some.inj (hlook.symm.trans hm.2.2.1)) hm.2.2.2.1
    · rw [member_unique hm hm']
      exact hset'

theorem drop_step (hpc : s.pc x = .drop) : Inv o t pgids s' := by
  obtain ⟨hjoined, hin⟩ := h.at hx hpc
  have hnot : s.pc x ≠ .done := by simp [hpc]
  obtain ⟨l, hl, hlook⟩ := hg.led x hx hin
  simp only [step, hpc, hlook] at hs
  split at hs
  · rename_i hno
    cases hs
    refine h.goto hnot (fun _ g hm => ?_) hjoined
    cases Option.some.inj (hlook.symm.trans hm.2.2.1)
    rcases hno with hself | hsl
    · exact hm.2.2.2.1 hself
    · cases hsl.symm.trans hm.2.2.2.2
  rename_i hno
  simp only [not_or, Bool.not_eq_true] at hno
  have hm : Member o t x l := ⟨hx, hin, hlook, hno.1, hno.2⟩
  have hcnt := h.cnt_ne_zero hm hnot
  rw [if_neg hcnt] at hs
  cases hs
  have hzero : ∀ y, s.memberCnt y = 0 →
      update s.memberCnt l (s.memberCnt l - 1) y = 0 := by
    intro y hy
    by_cases hyl : y = l
    · exact absurd (hyl ▸ hy) hcnt
    · rw [update_of_ne hyl]
      exact hy
  refine h.of_same (fun y hy => goto_pc_of_ne s _ hy)
    (fun y hy => ⟨rfl, rfl, fun _ hs => hs, hzero y⟩) hnot ?_ (fun g => ?_) fun g => ?_
  · rw [goto_pc ..]
    refine ⟨fun hext => ?_, hjoined.curr, hjoined.waited⟩
    exact ⟨hzero x (hjoined.gathered hext).cnt, (hjoined.gathered hext).set⟩
  · by_cases hgl : g = l
    · subst hgl
      rw [if_pos ⟨hm, goto_pc ..⟩]
      change update s.memberCnt g _ g + 1 = _
      rw [update_self]
      omega
    · rw [if_neg]
      · exact update_of_ne hgl _ _
      · rintro ⟨hm', -⟩
        exact hgl (member_unique hm' hm)
  · by_cases hgl : g = l
    · subst hgl
      change update s.dropped g _ g + update s.memberCnt g _ g = _
      rw [update_self, update_self]
      omega
    · change update s.dropped l _ g + update s.memberCnt l _ g = _
      rw [update_of_ne hgl, update_of_ne hgl]

theorem step_inv : Inv o t pgids s' := by
  cases hpc : s.pc x with
  | check => exact check_step h hx hs hg hpc
  | lead => exact lead_step h hx hs hg hpc
  | wake => exact wake_step h hx hs hpc
  | members => exact members_step h hx hs hpc
  | join => exact join_step h hx hs hg hpc
  | await => exact await_step h hx hs hpc
  | move => exact move_step h hx hs hg hpc
  | drop => exact drop_step h hx hs hg hpc
  | done | failed => simp [step, hpc] at hs

end

theorem blocked_at (hx : x ∈ t.tasks) (hnot : s.pc x ≠ .done) (hs : step o t s x = none) :
    s.pc x = .members ∧ s.memberCnt x ≠ 0 ∨
      s.pc x = .await ∧ ∃ l, Member o t x l ∧ s.pgrpSet l = false := by
  cases hpc : s.pc x with
  | check | lead =>
    simp only [step, hpc] at hs
    split at hs <;> cases hs
  | wake | move => simp [step, hpc] at hs
  | members =>
    simp only [step, hpc] at hs
    split at hs
    · cases hs
    · exact .inl ⟨rfl, ‹_›⟩
  | await =>
    obtain ⟨-, -, l, hm⟩ := h.at hx hpc
    simp only [step, hpc, hm.2.2.1] at hs
    split at hs
    · cases hs
    · rename_i hset
      exact .inr ⟨rfl, l, hm, by simpa using hset⟩
  | join | drop =>
    simp only [step, hpc] at hs
    split at hs
    · cases hs
    · split at hs
      · cases hs
      · split at hs <;> cases hs
  | done => exact absurd hpc hnot
  | failed => exact (h.at hx hpc).elim

/-- Whom a member waits for can go on: it has not come to wait itself. -/
theorem leader_enabled (hg : Groups o t pgids) (hm : Member o t x l)
    (hset : s.pgrpSet l = false) : (step o t s l).isSome := by
  have hl := hg.leader_mem hm
  have hin := hg.inside x l hm
  have hno : ¬ Over o t s l := fun hgath => by
    cases hset.symm.trans (hgath.set ⟨x, hm⟩)
  rw [Option.isSome_iff_ne_none]
  intro hs
  have hnot : s.pc l ≠ .done := fun hd => hno ((h.at hl hd).gathered hin)
  rcases blocked_at h hl hnot hs with ⟨hpc, -⟩ | ⟨hpc, -⟩
  · cases hset.symm.trans (h.at hl hpc).2.2.2
  · exact hno (h.at hl hpc).1.gathered

/-- If all were blocked, each of them would wait for a member of its group that is blocked as
well, and going from member to member would lead back. -/
theorem Inv.progress (hg : Groups o t pgids)
    (hx : ∃ x ∈ t.tasks, s.pc x ≠ .done) : ∃ x ∈ t.tasks, (step o t s x).isSome := by
  by_contra hnone
  have hblocked : ∀ x ∈ t.tasks, step o t s x = none := by
    intro x hx
    by_contra hs
    exact hnone ⟨x, hx, Option.isSome_iff_ne_none.mpr hs⟩
  have hnext : ∀ x ∈ t.tasks, s.pc x ≠ .done → ∃ m ∈ t.tasks, s.pc m ≠ .done ∧ Member o t m x := by
    intro x hx hnot
    rcases blocked_at h hx hnot (hblocked x hx) with ⟨-, hcnt⟩ | ⟨-, l, hm, hset⟩
    · rw [h.cnt, Finset.card_ne_zero] at hcnt
      obtain ⟨m, hm⟩ := hcnt
      obtain ⟨hm, hnot⟩ := Finset.mem_filter.mp hm
      rw [mem_members] at hm
      exact ⟨m, hm.1, hnot, hm⟩
    · exact absurd ⟨l, hg.leader_mem hm, leader_enabled h hg hm hset⟩ hnone
  have : IsStrictOrder ℕ (Relation.TransGen (Member o t)) :=
    { irrefl := hg.acyclic, trans := fun _ _ _ => Relation.TransGen.trans }
  have hfin : {x | x ∈ t.tasks ∧ s.pc x ≠ .done}.Finite :=
    (Set.finite_lt_nat t.size).subset fun x hx => hx.1.1
  have hwf : {x | x ∈ t.tasks ∧ s.pc x ≠ .done}.WellFoundedOn
      (Relation.TransGen (Member o t)) := hfin.wellFoundedOn
  obtain ⟨x₀, hx₀⟩ := hx
  obtain ⟨⟨x, hx, hnot⟩, -, hmin⟩ := hwf.has_min Set.univ ⟨⟨x₀, hx₀⟩, trivial⟩
  obtain ⟨m, hm, hmnot, hmx⟩ := hnext x hx hnot
  exact hmin ⟨m, hm, hmnot⟩ trivial (.single hmx)

theorem Inv.sound (hg : Groups o t pgids)
    (hr : ∀ x, Reachable t x ↔ x ∈ t.tasks) : Sound o t s := by
  refine ⟨?_, fun x hx hfail => ?_, h.dropped, fun hall => ⟨fun x hx => ?_, fun g => ?_⟩⟩
  · simp only [hr]
    exact h.progress hg
  · exact h.at ((hr x).mp hx) hfail
  · exact (h.at ((hr x).mp hx) (hall x hx)).curr
  have hnone : s.memberCnt g = 0 := by
    rw [h.cnt, Finset.card_eq_zero, Finset.filter_eq_empty_iff]
    intro x hx
    rw [hall x ((hr x).mpr (mem_members.mp hx).1)]
    exact fun hne => hne rfl
  rw [← h.dropped g, hnone, Nat.add_zero]

end Steps

/-- In a tree of this kind the tasks do not block each other, whatever the order of their steps,
and they all end up in their groups. -/
theorem process_groups_restored {o : Opts} {namespaces : List (List ℕ)} {fuel outside : ℕ}
    {t₀ t : Tree} (ht : GroupTree t₀) (h : preparePstreeIds o namespaces fuel t₀ = some t)
    (ho : Orderly o t outside) {s : State} (hs : Reached o t outside s) : Sound o t s := by
  have hlinked := (prepared_of_ids ht.process h).linked
  have hr : ∀ x, Reachable t x ↔ x ∈ t.tasks := by
    refine fun x => ⟨?_, ho.reachable x⟩
    rintro ⟨path, hpath⟩
    exact follow_mem_tasks hlinked hpath
  have hinv : ∃ pgids, Groups o t pgids ∧ Inv o t pgids s := by
    induction hs with
    | start hs =>
      obtain ⟨pgids, hst, rfl⟩ := hs
      have hg := ho.groups ht h hst
      exact ⟨pgids, hg, .start hg⟩
    | next _ hx hstep ih =>
      obtain ⟨pgids, hg, hi⟩ := ih
      exact ⟨pgids, hg, step_inv hi ((hr _).mp hx) hstep hg⟩
  obtain ⟨pgids, hg, hi⟩ := hinv
  exact hi.sound hg hr

/-- A shell that leads the session, with pid 1, and a line of tasks below it, each the child of the
one before; by their pids and pgids. -/
def jobTree (ids : List (ℕ × ℕ)) : Tree where
  parent := fun x => if x = 0 ∨ ids.length ≤ x then none else some (x - 1)
  children := fun x => if x + 1 < ids.length then [x + 1] else []
  item := fun x => ⟨[(ids.getD x (0, 0)).1], [(ids.getD x (0, 0)).2], [1], [], .alive, [0], false⟩
  size := ids.length
  root := 0
  bornSid := fun _ => none
  myChildSubreaper := fun _ => none
  pgrpMemberCnt := fun _ => 0

theorem jobTree_group (hne : ids ≠ []) (hnodup : (ids.map Prod.fst).Nodup) :
    GroupTree (jobTree ids) := by
  have himage : ImageTree (jobTree ids) := by
    refine .of_numbered rfl (length_pos_iff.mpr hne) (fun x hx => ?_)
      (fun x _ => TaskState.noConfusion) (fun x hx h0 => ?_) (fun x hx p hp => ?_) fun p hp => ?_
    all_goals simp only [jobTree] at *
    · simp
      omega
    · simp [h0, hx]
    · simp at hp
      omega
    · refine ⟨?_, ?_, fun c hc => ?_⟩ <;> split_ifs <;> simp <;> omega
  have hproc : ProcessTree (jobTree ids) := by
    refine .of_alive himage (fun x _ => rfl) (fun x _ => cons_ne_nil _ _) ?_
      (fun x _ y _ _ => rfl) fun _ => rfl
    intro x _ y _ hy
    exact isSessionLeader_iff.mpr hy.symm
  refine ⟨hproc, fun x hx y hy he => ?_, nofun, fun _ => rfl⟩
  have hlen : (ids.map Prod.fst).length = (jobTree ids).size := length_map _
  have hget : ∀ z, ∀ hz : z < (ids.map Prod.fst).length,
      (jobTree ids).vpid z = (ids.map Prod.fst)[z] := by
    intro z hz
    rw [length_map] at hz
    simp [jobTree, Tree.vpid, Item.vpid, hz]
  rw [hget x (hlen ▸ hx), hget y (hlen ▸ hy)] at he
  exact hnodup.getElem_inj_iff.mp he

structure Line (t : Tree) (n : ℕ) : Prop where
  root : t.root = 0
  below : ∀ x, Reachable t x → x < n
  child : ∀ x, x + 1 < n → x + 1 ∈ t.children x
  late : ∀ x < n, restoreBeforeSetsid t x = false
  sid : ∀ x < n, t.vsid x = 1
  shell : t.vpid 0 = 1
  others : ∀ x < n, x ≠ 0 → t.isSessionLeader x = false

theorem Line.reachable (h : Line t n) (hx : x < n) : Reachable t x := by
  induction x with
  | zero => exact ⟨[], by simp [Forest.Links.follow, h.root]⟩
  | succ x ih =>
    obtain ⟨path, hpath⟩ := ih (by omega)
    obtain ⟨i, hi⟩ := mem_iff_getElem?.mp (h.child x hx)
    refine ⟨path ++ [i], ?_⟩
    rw [Forest.Links.follow_concat, hpath]
    exact hi

theorem Line.started (h : Line t n) (outside : ℕ) : StartedIn t outside fun _ => 1 := by
  have hlead : t.isSessionLeader 0 = true ∨ n = 0 := by
    rcases Nat.eq_zero_or_pos n with h0 | hpos
    · exact .inr h0
    · exact .inl (isSessionLeader_iff.mpr ((h.sid 0 hpos).trans h.shell.symm))
  have hrestore : ∀ x < n, restoreSid t x 1 = some (t.vsid x) := by
    intro x hx
    rcases Nat.eq_zero_or_pos x with rfl | hpos
    · simp [restoreSid, h.sid 0 hx, h.shell]
    · simp [restoreSid, h.sid x hx, h.others x hx hpos.ne']
  have hforked : ∀ x < n, ∃ pgid, ForkedInto t outside x 1 pgid ∧
      1 = if t.isSessionLeader x then t.vpid x else pgid := by
    intro x hx
    induction x with
    | zero =>
      refine ⟨outside, ?_, ?_⟩
      · have hroot : ForkedInto t outside t.root (t.vsid t.root) outside := .root
        rwa [h.root, h.sid 0 hx] at hroot
      · rw [hlead.resolve_right (by omega), if_pos rfl, h.shell]
    | succ x ih =>
      obtain ⟨pgid, hf, hpgid⟩ := ih (by omega)
      have hown := ForkedInto.own hf (hrestore x (by omega)) (h.child x hx) (h.late _ hx)
      rw [← hpgid, h.sid x (by omega)] at hown
      refine ⟨1, hown, ?_⟩
      rw [h.others _ hx (by omega), if_neg Bool.false_ne_true]
  intro x hx
  have hlt := h.below x hx
  obtain ⟨pgid, hf, hpgid⟩ := hforked x hlt
  exact ⟨1, pgid, hf, hrestore x hlt, hpgid⟩

/-- A run that is given by the tasks that take the steps. -/
theorem Line.run {xs : List ℕ} {s : State} (h : Line t n) (hx : ∀ x ∈ xs, x < n)
    (hs : xs.foldlM (step o t) (start t fun _ => 1) = some s) : Reached o t outside s :=
  Run.Reach.foldlM (.start ⟨_, h.started outside, rfl⟩)
    (fun x hin _ _ hstep => ⟨x, h.reachable (hx x hin), hstep⟩) hs

def prepared (ids : List (ℕ × ℕ)) : Tree :=
  (preparePstreeIds ⟨false, false⟩ [] 0 (jobTree ids)).getD (jobTree ids)

def backIds : List (ℕ × ℕ) := [(1, 1), (2, 1), (3, 2)]

theorem backIds_prepared :
    preparePstreeIds ⟨false, false⟩ [] 0 (jobTree backIds) = some (prepared backIds) := rfl

theorem prepared_line (hg : GroupTree (jobTree ids))
    (h : preparePstreeIds ⟨false, false⟩ [] 0 (jobTree ids) = some (prepared ids))
    (hroot : (prepared ids).root = 0) (hsize : (prepared ids).size = n)
    (hchild : ∀ x < n - 1, x + 1 ∈ (prepared ids).children x)
    (hlate : ∀ x < n, restoreBeforeSetsid (prepared ids) x = false)
    (hsid : ∀ x < n, (prepared ids).vsid x = 1) (hshell : (prepared ids).vpid 0 = 1)
    (hothers : ∀ x < n, x ≠ 0 → (prepared ids).isSessionLeader x = false) :
    Line (prepared ids) n := by
  refine ⟨hroot, ?_, fun x hx => hchild x (by omega), hlate, hsid, hshell, hothers⟩
  rintro x ⟨path, hpath⟩
  exact hsize ▸ (follow_mem_tasks (prepared_of_ids hg.process h).linked hpath).1

theorem backIds_line : Line (prepared backIds) 3 :=
  prepared_line (jobTree_group (by decide) (by decide)) backIds_prepared rfl rfl (by decide)
    (by decide) (by decide) rfl (by decide)

/-- The shell is done, the member has joined the task's group, and the task waits for the shell to
say that it is there, which it never does. -/
theorem leader_back_with_shell_blocked :
    GroupTree (jobTree backIds) ∧
      preparePstreeIds ⟨false, false⟩ [] 0 (jobTree backIds) = some (prepared backIds) ∧
      ∃ s, Reached ⟨false, false⟩ (prepared backIds) 9 s ∧
        Reachable (prepared backIds) 1 ∧ s.pc 1 = .await ∧
        ∀ x, Reachable (prepared backIds) x →
          step ⟨false, false⟩ (prepared backIds) s x = none := by
  refine ⟨jobTree_group (by decide) (by decide), backIds_prepared, ?_⟩
  have hrun : ([0, 0, 0, 1, 1, 1, 2, 2, 2, 2, 2, 1, 1].foldlM
      (step ⟨false, false⟩ (prepared backIds)) (start (prepared backIds) fun _ => 1)).map
      (fun s => (s.pc 1, [0, 1, 2].map fun x =>
        (step ⟨false, false⟩ (prepared backIds) s x).isNone)) =
      some (.await, [true, true, true]) := by decide
  obtain ⟨s, hs, hfacts⟩ := Option.map_eq_some_iff.mp hrun
  simp only [Prod.mk.injEq, map_cons, map_nil, List.cons.injEq, and_true,
    Option.isNone_iff_eq_none] at hfacts
  obtain ⟨hpc, h0, h1, h2⟩ := hfacts
  have hline := backIds_line
  refine ⟨s, hline.run (by decide) hs, hline.reachable (by decide), hpc, fun x hx => ?_⟩
  have hlt := hline.below x hx
  obtain rfl | rfl | rfl : x = 0 ∨ x = 1 ∨ x = 2 := by omega
  · exact h0
  · exact h1
  · exact h2

def awayIds : List (ℕ × ℕ) := [(1, 1), (2, 3), (3, 3), (4, 2)]

theorem awayIds_prepared :
    preparePstreeIds ⟨false, false⟩ [] 0 (jobTree awayIds) = some (prepared awayIds) := rfl

theorem awayIds_line : Line (prepared awayIds) 4 :=
  prepared_line (jobTree_group (by decide) (by decide)) awayIds_prepared rfl rfl (by decide)
    (by decide) (by decide) rfl (by decide)

theorem awayIds_orderly : Orderly ⟨false, false⟩ (prepared awayIds) 9 := by
  have hmember : ∀ x l, Member ⟨false, false⟩ (prepared awayIds) x l → x < 4 ∧ l < 4 :=
    fun x l hm => ⟨hm.1.1, (Tree.itemByVirt_eq_some.mp hm.2.2.1).2.1⟩
  have hgrouped : Grouped ⟨false, false⟩ (prepared awayIds) := by
    refine ⟨fun x hx => ?_, fun x hx l _ hlook => ?_, nofun⟩
    · have : ∀ x < 4, (prepared awayIds).isSessionLeader x = true →
          (prepared awayIds).isGroupLeader x = true := by decide
      exact this x hx.1
    · have hl := (Tree.itemByVirt_eq_some.mp hlook).2.1
      rw [awayIds_line.sid x hx.1, awayIds_line.sid l hl]
  refine ⟨fun x hx => awayIds_line.reachable hx.1, hgrouped, fun x hx => ?_, .inl rfl,
    nofun, nofun, fun x hx => ?_, fun x l _ => rfl,
    fun x l k hm hlook _ => ?_, fun x hcycle => ?_⟩
  · have : ∀ x < 4, (prepared awayIds).vpid x ≠ 0 ∧
        ((prepared awayIds).item x).lastLevelPid ≠ 0 := by decide
    exact this x hx.1
  · have : ∀ x < 4, (prepared awayIds).vpid x ≠ 9 := by decide
    exact this x hx.1
  · have : ∀ x < 4, ∀ l < 4, Member ⟨false, false⟩ (prepared awayIds) x l →
        (prepared awayIds).itemByVirt ((prepared awayIds).vpgid l) ≠ some 0 := by decide
    obtain ⟨hx, hl⟩ := hmember x l hm
    refine awayIds_line.others k (Tree.itemByVirt_eq_some.mp hlook).2.1 ?_
    rintro rfl
    exact this x hx l hl hm hlook
  -- the member is the last task of the line; from then on leaders come further down
  have hrank : ∀ x < 4, ∀ l < 4, Member ⟨false, false⟩ (prepared awayIds) x l →
      x % 3 < l % 3 := by decide
  have hlt := hcycle.lift (· % 3) fun x l hm => hrank x (hmember x l hm).1 l (hmember x l hm).2 hm
  rw [Relation.transGen_eq_self] at hlt
  exact hlt.false

/-- The task moves out to lead its member and then on to the group of the task below. -/
theorem leader_away_restored :
    ∃ s, Reached ⟨false, false⟩ (prepared awayIds) 9 s ∧ s.pc 1 = .done ∧
      s.currPgid 1 = 3 ∧ s.dropped 1 = 1 ∧ Sound ⟨false, false⟩ (prepared awayIds) s := by
  have hrun : ([0, 0, 0, 2, 2, 2, 1, 1, 1, 3, 3, 3, 3, 3, 1, 1, 1, 1, 1].foldlM
      (step ⟨false, false⟩ (prepared awayIds)) (start (prepared awayIds) fun _ => 1)).map
      (fun s => (s.pc 1, s.currPgid 1, s.dropped 1)) = some (.done, 3, 1) := by decide
  obtain ⟨s, hs, hfacts⟩ := Option.map_eq_some_iff.mp hrun
  simp only [Prod.mk.injEq] at hfacts
  obtain ⟨hpc, hcurr, hdropped⟩ := hfacts
  have hreach : Reached ⟨false, false⟩ (prepared awayIds) 9 s := awayIds_line.run (by decide) hs
  exact ⟨s, hreach, hpc, hcurr, hdropped, process_groups_restored
    (jobTree_group (by decide) (by decide)) awayIds_prepared awayIds_orderly hreach⟩

section Schedules

/-- How many steps a task can still take. -/
def Pc.rank : Pc → ℕ
  | check => 8
  | lead => 7
  | wake => 6
  | members => 5
  | join => 4
  | await => 3
  | move => 2
  | drop => 1
  | done | failed => 0

variable {s s' : State}

theorem moveTo_pc (t : Tree) (s : State) (x pgid : ℕ) (pc : Pc) :
    (moveTo t s x pgid pc).pc = update s.pc x pc ∨
      (moveTo t s x pgid pc).pc = update s.pc x .failed := by
  rw [moveTo]
  split <;> rename_i h
  · exact .inr rfl
  · obtain ⟨-, h⟩ := Option.ite_none_right_eq_some.mp h
    rw [← Option.some.inj h]
    exact .inl rfl

theorem step_rank (h : step o t s x = some s') :
    ∃ pc, s'.pc = update s.pc x pc ∧ pc.rank < (s.pc x).rank := by
  unfold step at h
  split at h <;> rename_i hpc <;> rw [hpc]
  case h_2 =>
    split at h <;> cases h
    · exact ⟨.wake, rfl, by decide⟩
    · rcases moveTo_pc t s x (t.vpid x) .wake with h | h <;> exact ⟨_, h, by decide⟩
  case h_7 =>
    cases h
    rcases moveTo_pc t s x (t.vpgid x) .drop with h | h <;> exact ⟨_, h, by decide⟩
  all_goals
    grind [State.goto, Pc.rank]

theorem schedule_length {xs : List ℕ} (hx : ∀ x ∈ xs, x < t.size)
    (hs : xs.foldlM (step o t) s = some s') :
    xs.length + ∑ x ∈ Finset.range t.size, (s'.pc x).rank ≤
      ∑ x ∈ Finset.range t.size, (s.pc x).rank := by
  induction xs generalizing s with
  | nil =>
    cases hs
    simp
  | cons x xs ih =>
    obtain ⟨s₁, h₁, hs⟩ := Option.bind_eq_some_iff.mp hs
    obtain ⟨hlt, hx⟩ := forall_mem_cons.mp hx
    have hrest := ih hx hs
    obtain ⟨pc, hpc, hrank⟩ := step_rank h₁
    have hless : ∑ y ∈ Finset.range t.size, (s₁.pc y).rank <
        ∑ y ∈ Finset.range t.size, (s.pc y).rank := by
      refine Finset.sum_lt_sum (fun y _ => ?_) ⟨x, Finset.mem_range.mpr hlt, ?_⟩ <;> rw [hpc]
      · by_cases hy : y = x
        · rw [hy, update_self]
          exact hrank.le
        · rw [update_of_ne hy]
      · rwa [update_self]
    rw [length_cons]
    omega

/-- Every schedule of the tasks ends, after at most eight steps of each of them. When none can go
on, they all have returned, and are in their groups. -/
theorem every_schedule_ends {o : Opts} {namespaces : List (List ℕ)} {fuel outside : ℕ}
    {t₀ t : Tree} (ht : GroupTree t₀) (h : preparePstreeIds o namespaces fuel t₀ = some t)
    (ho : Orderly o t outside) {pgids : ℕ → ℕ} (hst : StartedIn t outside pgids) {xs : List ℕ}
    (hx : ∀ x ∈ xs, Reachable t x) {s : State}
    (hs : xs.foldlM (step o t) (start t pgids) = some s) :
    xs.length ≤ 8 * t.size ∧ ((∀ x, Reachable t x → step o t s x = none) →
      ∀ x, Reachable t x → s.pc x = .done ∧ s.currPgid x = t.vpgid x) := by
  have hlinked := (prepared_of_ids ht.process h).linked
  have hr : ∀ x, Reachable t x ↔ x ∈ t.tasks := by
    refine fun x => ⟨?_, ho.reachable x⟩
    rintro ⟨path, hpath⟩
    exact follow_mem_tasks hlinked hpath
  have hg := ho.groups ht h hst
  have hinv : Inv o t pgids s := (Run.foldlM_invariant
    (fun _ x _ hin hi hstep => ⟨step_inv hi ((hr x).mp (hx x hin)) hstep hg, trivial⟩)
    (.start hg) hs).1
  have hsound := hinv.sound hg hr
  constructor
  · have hlen := schedule_length (fun x hin => ((hr x).mp (hx x hin)).1) hs
    have hall : ∑ x ∈ Finset.range t.size, ((start t pgids).pc x).rank =
        (Finset.range t.size).card * 8 := Finset.sum_const_nat fun _ _ => rfl
    rw [hall, Finset.card_range] at hlen
    omega
  · intro hend
    have hdone : ∀ x, Reachable t x → s.pc x = .done := by
      by_contra hne
      push Not at hne
      obtain ⟨x, hx, hsome⟩ := hsound.progress hne
      simp [hend x hx] at hsome
    exact fun x hx => ⟨hdone x hx, (hsound.finished hdone).1 x hx⟩

/-- The member joins, its leader moves on, and the leader of the other group is the last. -/
theorem leader_away_ends :
    ∃ s, [0, 0, 0, 2, 2, 2, 1, 1, 1, 3, 3, 3, 3, 3, 1, 1, 1, 1, 1, 2, 2, 2].foldlM
        (step ⟨false, false⟩ (prepared awayIds)) (start (prepared awayIds) fun _ => 1) = some s ∧
      s.pc 2 = .done ∧ s.currPgid 2 = 3 := by
  have hrun : ([0, 0, 0, 2, 2, 2, 1, 1, 1, 3, 3, 3, 3, 3, 1, 1, 1, 1, 1, 2, 2, 2].foldlM
      (step ⟨false, false⟩ (prepared awayIds)) (start (prepared awayIds) fun _ => 1)).map
      (fun s => (range 4).all fun x => (step ⟨false, false⟩ (prepared awayIds) s x).isNone) =
      some true := by decide
  obtain ⟨s, hs, hend⟩ := Option.map_eq_some_iff.mp hrun
  have hline := awayIds_line
  exact ⟨s, hs, (every_schedule_ends (jobTree_group (by decide) (by decide)) awayIds_prepared
    awayIds_orderly (hline.started 9) (fun x hx => hline.reachable (by revert x; decide)) hs).2
    (fun x hx => Option.isNone_iff_eq_none.mp
      (all_eq_true.mp hend x (mem_range.mpr (hline.below x hx))))
    2 (hline.reachable (by decide))⟩

end Schedules

end Criu.ProcessGroups

import Criu.Reparent

/-!
How the process tree is prepared for the restore of sids and pgids (`prepare_pstree_ids`,
criu/pstree.c). Leaders of sessions and groups that are no more get a helper in their place,
reparented branches are moved, and at the end every task is checked: it has to get its session
from an ancestor, through session leaders that were born in that session and left it later, and
it has to see the leader of its group.

A helper that is added on the way of a walk has no children, and nothing is done for it when the
walk comes to it; so the walks go over the items that are there at their start.
-/

namespace Criu.PstreeIds

open Pstree Reparent List Function

variable {ns : List ℕ} {o : Opts} {t t₀ t' t₁ : Tree} {p x sid y : ℕ} {s : Option ℕ}

def externalSession (o : Opts) (t : Tree) (x : ℕ) : Bool :=
  o.shellJob && !t.isSessionLeader t.root && t.vsid t.root == t.vsid x

def externalGroup (o : Opts) (t : Tree) (x : ℕ) : Bool :=
  o.shellJob && !t.isSessionLeader t.root && !t.isGroupLeader t.root &&
    t.vpgid t.root == t.vpgid x

section Congr

variable (hroot : t'.root = t.root) (hr : t'.item t.root = t.item t.root)
  (hx : t'.item x = t.item x)
include hroot hr hx

theorem externalSession_congr : externalSession o t' x = externalSession o t x := by
  simp only [externalSession, Tree.isSessionLeader, Tree.vsid, hroot, hr, hx]

theorem externalGroup_congr : externalGroup o t' x = externalGroup o t x := by
  simp only [externalGroup, Tree.isSessionLeader, Tree.isGroupLeader, Tree.vpgid, hroot, hr, hx]

end Congr

def becomeHelper (t : Tree) (x : ℕ) (pgid sid ns : List ℕ) (parent : ℕ) : Tree :=
  let i := t.item x
  let helper : Item := ⟨i.pid, pgid.take i.level, sid.take i.level, i.threads, .helper, ns,
    i.childSubreaper⟩
  { t with
    item := update t.item x helper
    parent := update t.parent x (some parent) }.addChildTask x parent

def initOnLevel (o : Opts) (t : Tree) (x level : ℕ) : Option ℕ :=
  if o.newPidns then
    (getPidnsOnLevel (t.item x) level).bind fun ns => t.itemByVirtIn ns initPid
  else none

/-- The part of `prepare_pstree_leaders` for the session leader of an item, with the leader. -/
def prepareSessionLeader (o : Opts) (t : Tree) (x : ℕ) : Option (Tree × Option ℕ) :=
  if externalSession o t x then some (t, none)
  else
    match t.itemByVirt (t.vsid x) with
    | none => none
    | some leader =>
        if (t.item leader).state = .undef then
          match initOnLevel o t x (t.item leader).level with
          | none => none
          | some init =>
              let sid := (t.item x).sid
              some (becomeHelper t leader sid sid (t.item init).pidNs init, some leader)
        else some (t, some leader)

def incMemberCnt (t : Tree) (x : ℕ) : Tree :=
  { t with pgrpMemberCnt := update t.pgrpMemberCnt x (t.pgrpMemberCnt x + 1) }

def groupHelperPlace (o : Opts) (t : Tree) (x leader : ℕ) (sessionLeader : Option ℕ) :
    Option (ℕ × List ℕ) :=
  if (t.item x).level = (t.item leader).level then some (x, (t.item x).pidNs)
  else
    match initOnLevel o t x (t.item leader).level with
    | none => none
    | some init =>
        if externalSession o t x then some (t.root, (t.item init).pidNs)
        else sessionLeader.map fun s => (s, (t.item init).pidNs)

/-- The part of `prepare_pstree_leaders` for the group leader of an item. -/
def prepareGroupLeader (o : Opts) (t : Tree) (x : ℕ) (sessionLeader : Option ℕ) : Option Tree :=
  if t.isGroupLeader x then some t
  else if externalGroup o t x then some t
  else
    match t.itemByVirt (t.vpgid x) with
    | none => none
    | some leader =>
        let t' := if t.isSessionLeader leader then t else incMemberCnt t leader
        if equalPid (t.item x).pgid (t.item leader).pid && (t.item leader).state == .undef then
          match groupHelperPlace o t' x leader sessionLeader with
          | none => none
          | some (parent, ns) =>
              some (becomeHelper t' leader (t.item x).pgid (t.item x).sid ns parent)
        else some t'

def leadersStep (o : Opts) (t : Tree) (x : ℕ) : Option Tree :=
  if (t.item x).state = .undef then some t
  else if t.isSessionLeader x then some t
  else
    match prepareSessionLeader o t x with
    | none => none
    | some (t', sessionLeader) => prepareGroupLeader o t' x sessionLeader

def preparePstreeLeaders (o : Opts) (t : Tree) : Option Tree :=
  t.forEachItem.bind fun items => items.foldlM (leadersStep o) t

def subreaperOf (t : Tree) (x : ℕ) : Option ℕ :=
  match t.parent x with
  | none => t.myChildSubreaper x
  | some p =>
      if (t.item x).lastLevelPid = initPid then t.myChildSubreaper x
      else if (t.item p).childSubreaper then some p
      else if (t.myChildSubreaper p).isSome then t.myChildSubreaper p
      else t.myChildSubreaper x

def myChildSubreaperStep (t : Tree) (x : ℕ) : Tree :=
  { t with myChildSubreaper := update t.myChildSubreaper x (subreaperOf t x) }

def preparePstreeMyChildSubreaper (t : Tree) : Option Tree :=
  t.forEachItem.map fun items => items.foldl myChildSubreaperStep t

def canReceivePgid (o : Opts) (t : Tree) (x : ℕ) : Option Bool :=
  if externalGroup o t x then some true
  else if t.vpgid x = 0 then none
  else
    match t.itemByVirt (t.vpgid x) with
    | none => none
    | some leader =>
        if (t.item leader).state = .undef then none
        else if t.isSessionLeader leader then some true
        else some (getRelativePid (t.item x) (t.item leader) != 0)

/-- One turn of the last loop of `prepare_pstree_ids`. -/
def idsStep (o : Opts) (t : Tree) (x : ℕ) : Option Tree :=
  if t.parent x = none then some t
  else if (t.item x).state = .helper then some t
  else
    let inherited :=
      if t.isSessionLeader x then some (t, true)
      else canInheritFrom true (t.vsid x) (t.size + 1) (t.parent x) t
    match inherited with
    | some (t', true) =>
        if t'.isGroupLeader x ∨ canReceivePgid o t' x = some true then some t' else none
    | _ => none

/-- `prepare_pstree_ids`; `fuel` is for the run over all the pid namespaces. -/
def preparePstreeIds (o : Opts) (namespaces : List (List ℕ)) (fuel : ℕ) (t : Tree) :
    Option Tree :=
  (preparePstreeLeaders o t).bind fun t₁ =>
  (preparePstreeMyChildSubreaper t₁).bind fun t₂ =>
  (if o.newPidns then finish fuel (start t₂ namespaces) else some t₂).bind fun t₃ =>
  t₃.forEachItem.bind fun items => items.foldlM (idsStep o) t₃

/-- What a tree is like that was read from the image of a dump. A pid namespace has an init. A sid
is the pid of the leader of the session, so a task with that pid is the leader, and a process group
with that number is in the session. -/
structure ProcessTree (t : Tree) : Prop where
  image : ImageTree t
  levels : ∀ x < t.size, (t.item x).pid ≠ []
  inits : ∀ ns x, t.itemByVirtIn ns initPid = some x → x ∈ t.tasks
  session : ∀ x ∈ t.tasks, ∀ y ∈ t.tasks, t.vpid y = t.vsid x → t.isSessionLeader y = true
  group : ∀ x ∈ t.tasks, ∀ y ∈ t.tasks, t.vpgid x = t.vsid y → t.vsid x = t.vsid y
  noHelper : ∀ x ∈ t.tasks, (t.item x).state ≠ .helper
  bornSid : ∀ x, t.bornSid x = none

theorem ProcessTree.of_alive (h : ImageTree t) (halive : ∀ x < t.size, (t.item x).state = .alive)
    (hlevels : ∀ x < t.size, (t.item x).pid ≠ [])
    (hsession : ∀ x < t.size, ∀ y < t.size, t.vpid y = t.vsid x → t.isSessionLeader y = true)
    (hgroup : ∀ x < t.size, ∀ y < t.size, t.vpgid x = t.vsid y → t.vsid x = t.vsid y)
    (hborn : ∀ x, t.bornSid x = none) : ProcessTree t := by
  refine ⟨h, hlevels, fun ns x hx => ?_, fun x hx y hy => hsession x hx.1 y hy.1,
    fun x hx y hy => hgroup x hx.1 y hy.1, fun x hx => ?_, hborn⟩
  · have hlt := mem_range.mp (mem_of_find?_eq_some hx)
    exact ⟨hlt, by rw [halive x hlt]; exact TaskState.noConfusion⟩
  · rw [halive x hx.1]
    exact TaskState.noConfusion

theorem prepareSessionLeader_cases (h : prepareSessionLeader o t x = some (t', s)) :
    externalSession o t x = true ∧ t' = t ∨
    ∃ l, t.itemByVirt (t.vsid x) = some l ∧ s = some l ∧
      ((t.item l).state ≠ .undef ∧ t' = t ∨ (t.item l).state = .undef ∧
        ∃ init, initOnLevel o t x (t.item l).level = some init ∧
          t' = becomeHelper t l (t.item x).sid (t.item x).sid (t.item init).pidNs init) := by
  unfold prepareSessionLeader at h
  split at h
  · cases h
    exact .inl ⟨‹_›, rfl⟩
  cases hl : t.itemByVirt (t.vsid x) with
  | none => simp [hl] at h
  | some l =>
    simp only [hl] at h
    split at h
    · split at h
      · cases h
      · cases h
        exact .inr ⟨l, rfl, rfl, .inr ⟨‹_›, _, ‹_›, rfl⟩⟩
    · cases h
      exact .inr ⟨l, rfl, rfl, .inl ⟨‹_›, rfl⟩⟩

/-- The group leader of an item is counted up, and made a helper if it was only a placeholder. -/
theorem prepareGroupLeader_cases (h : prepareGroupLeader o t x s = some t') :
    (t.isGroupLeader x = true ∨ externalGroup o t x = true) ∧ t' = t ∨
    t.isGroupLeader x = false ∧ externalGroup o t x = false ∧
      ∃ l cnt, t.itemByVirt (t.vpgid x) = some l ∧ (∀ g, cnt g = t.pgrpMemberCnt g +
          if l = g ∧ t.isSessionLeader g = false then 1 else 0) ∧
        (t' = { t with pgrpMemberCnt := cnt } ∨ (t.item l).state = .undef ∧ ∃ p ns,
          groupHelperPlace o { t with pgrpMemberCnt := cnt } x l s = some (p, ns) ∧
          t' = becomeHelper { t with pgrpMemberCnt := cnt } l (t.item x).pgid (t.item x).sid
            ns p) := by
  unfold prepareGroupLeader at h
  split at h
  · cases h
    exact .inl ⟨.inl ‹_›, rfl⟩
  rename_i hgl
  split at h
  · cases h
    exact .inl ⟨.inr ‹_›, rfl⟩
  rename_i hext
  cases hl : t.itemByVirt (t.vpgid x) with
  | none => simp [hl] at h
  | some l =>
    simp only [hl] at h
    obtain ⟨cnt, hc, hcnt⟩ : ∃ cnt, (if t.isSessionLeader l then t else incMemberCnt t l) =
        { t with pgrpMemberCnt := cnt } ∧ ∀ g, cnt g = t.pgrpMemberCnt g +
          if l = g ∧ t.isSessionLeader g = false then 1 else 0 := by
      cases hsl : t.isSessionLeader l with
      | true => exact ⟨t.pgrpMemberCnt, rfl, fun g => by grind⟩
      | false => exact ⟨_, rfl, fun g => by grind [update_apply]⟩
    rw [hc] at h
    refine .inr ⟨by simpa using hgl, by simpa using hext, l, cnt, rfl, hcnt, ?_⟩
    split at h
    · rename_i hcond
      simp only [Bool.and_eq_true, beq_iff_eq] at hcond
      split at h
      · cases h
      · cases h
        exact .inr ⟨hcond.2, _, _, ‹_›, rfl⟩
    · cases h
      exact .inl rfl

theorem isSessionLeader_iff : t.isSessionLeader x = true ↔ t.vsid x = t.vpid x := by
  simp [Tree.isSessionLeader, Item.isSessionLeader, Tree.vsid, Tree.vpid]

theorem isGroupLeader_iff : t.isGroupLeader x = true ↔ t.vpid x = t.vpgid x := by
  simp [Tree.isGroupLeader, Item.isGroupLeader, Tree.vpgid, Tree.vpid]

section BecomeHelper

variable {pgid sid : List ℕ}

theorem becomeHelper_item (hy : y ≠ x) : (becomeHelper t x pgid sid ns p).item y = t.item y :=
  update_of_ne hy _ _

theorem becomeHelper_item_self :
    (becomeHelper t x pgid sid ns p).item x = ⟨(t.item x).pid, pgid.take (t.item x).level,
      sid.take (t.item x).level, (t.item x).threads, .helper, ns, (t.item x).childSubreaper⟩ :=
  update_self _ _ _

theorem becomeHelper_parent (hy : y ≠ x) : (becomeHelper t x pgid sid ns p).parent y = t.parent y :=
  update_of_ne hy _ _

theorem becomeHelper_parent_self : (becomeHelper t x pgid sid ns p).parent x = some p :=
  update_self _ _ _

theorem becomeHelper_mem_children {c q : ℕ} :
    c ∈ (becomeHelper t x pgid sid ns p).children q ↔ c = x ∧ q = p ∨ c ∈ t.children q := by
  by_cases hq : q = p
  · subst hq
    simp [becomeHelper, Tree.addChildTask, Tree.mem_insertChild]
  · simp [becomeHelper, Tree.addChildTask, hq]

theorem becomeHelper_tasks (hx : x < t.size) :
    y ∈ (becomeHelper t x pgid sid ns p).tasks ↔ y = x ∨ y ∈ t.tasks := by
  by_cases hy : y = x
  · subst hy
    refine iff_of_true ⟨hx, ?_⟩ (.inl rfl)
    rw [becomeHelper_item_self]
    exact TaskState.noConfusion
  · refine Iff.trans ?_ (or_iff_right hy).symm
    refine and_congr Iff.rfl (not_congr ?_)
    rw [becomeHelper_item hy]

theorem becomeHelper_linked (h : Linked t []) (hx : x < t.size) (hu : (t.item x).state = .undef)
    (hp : p ∈ t.tasks) : Linked (becomeHelper t x pgid sid ns p) [] := by
  have hout : ∀ q, t.parent x ≠ some q := fun q hq => (h.member x q hq).1.2 hu
  constructor
  · constructor
    · intro q c
      rw [becomeHelper_mem_children, h.hung.mem_children]
      by_cases hc : c = x
      · subst hc
        rw [becomeHelper_parent_self]
        simp [hout, eq_comm]
      · rw [becomeHelper_parent hc]
        simp [hc]
    intro q
    by_cases hq : q = p
    · subst hq
      have hnew : x ∉ t.children q := fun hc => hout q ((h.hung.mem_children q x).mp hc).1
      simp only [becomeHelper, Tree.addChildTask, update_self]
      refine (Tree.insertChild_perm _ _).nodup_iff.mpr (nodup_cons.mpr ⟨hnew, ?_⟩)
      exact h.hung.nodup q
    · simp only [becomeHelper, Tree.addChildTask, update_of_ne hq]
      exact h.hung.nodup q
  · refine (becomeHelper_parent fun he => ?_).trans h.top
    exact h.root_mem.2 (he ▸ hu)
  · exact (becomeHelper_tasks hx).mpr (.inr h.root_mem)
  · intro y q hy
    rw [becomeHelper_tasks hx, becomeHelper_tasks hx]
    by_cases he : y = x
    · subst he
      rw [becomeHelper_parent_self] at hy
      cases hy
      exact ⟨.inl rfl, .inr hp⟩
    · rw [becomeHelper_parent he] at hy
      exact (h.member y q hy).imp .inr .inr
  · exact nodup_nil
  · exact forall_mem_nil _

theorem becomeHelper_vpgid (hl : (t.item x).pid ≠ []) :
    (becomeHelper t x pgid sid ns p).vpgid x = pgid.headD 0 := by
  obtain ⟨a, l, hpid⟩ := exists_cons_of_ne_nil hl
  rw [Tree.vpgid, becomeHelper_item_self, Item.vpgid, Item.level, hpid]
  cases pgid <;> simp

end BecomeHelper

structure WithLeaders (t₀ t : Tree) : Prop where
  linked : Linked t []
  size : t.size = t₀.size
  root : t.root = t₀.root
  pid : ∀ x, (t.item x).pid = (t₀.item x).pid
  kept : ∀ x ∈ t₀.tasks, t.item x = t₀.item x
  placeholder : ∀ x ∉ t.tasks, t.item x = t₀.item x
  helper : ∀ h ∈ t.tasks, h ∉ t₀.tasks → t.isGroupLeader h = true
  bornSid : t.bornSid = t₀.bornSid

section Leaders

theorem WithLeaders.start (h : ProcessTree t₀) : WithLeaders t₀ t₀ := by
  have hlinked := (h.image.inv []).linked
  exact ⟨hlinked, rfl, rfl, fun _ => rfl, fun _ _ => rfl, fun _ _ => rfl,
    fun x hx hn => absurd hx hn, rfl⟩

variable (h : WithLeaders t₀ t)
include h

theorem WithLeaders.mem (hx : x ∈ t₀.tasks) : x ∈ t.tasks := by
  refine ⟨h.size ▸ hx.1, ?_⟩
  rw [h.kept x hx]
  exact hx.2

theorem WithLeaders.vpid (x : ℕ) : t.vpid x = t₀.vpid x := by
  rw [Tree.vpid, Item.vpid, h.pid]
  rfl

theorem WithLeaders.vsid (hx : x ∈ t₀.tasks) : t.vsid x = t₀.vsid x :=
  congrArg Item.vsid (h.kept x hx)

theorem WithLeaders.vpgid (hx : x ∈ t₀.tasks) : t.vpgid x = t₀.vpgid x :=
  congrArg Item.vpgid (h.kept x hx)

theorem WithLeaders.isSessionLeader (hx : x ∈ t₀.tasks) :
    t.isSessionLeader x = t₀.isSessionLeader x :=
  congrArg Item.isSessionLeader (h.kept x hx)

/-- The init of a namespace is a task of the tree all along. -/
theorem WithLeaders.init_mem (ht : ProcessTree t₀) (hx : t.itemByVirtIn ns initPid = some x) :
    x ∈ t.tasks := by
  by_contra hn
  obtain ⟨hmatch, hlt, hfirst⟩ := find?_range_eq_some.mp hx
  have hsame := h.placeholder x hn
  -- what is found in the image is a task, and comes first still
  cases hy : t₀.itemByVirtIn ns initPid with
  | none =>
    have := find?_eq_none.mp hy x (by simpa [h.size] using hlt)
    refine this ?_
    simpa [Tree.inPidns, hsame] using hmatch
  | some y =>
    obtain ⟨hmatch', hlt', hfirst'⟩ := find?_range_eq_some.mp hy
    have hyt := ht.inits ns y hy
    rcases Nat.lt_trichotomy y x with hlt | rfl | hgt
    · have := hfirst y hlt
      simp only [Tree.inPidns, h.kept y hyt] at this
      simp only [Tree.inPidns] at hmatch'
      rw [hmatch'] at this
      cases this
    · exact hn (h.mem hyt)
    · have := hfirst' x hgt
      simp only [Tree.inPidns, hsame] at hmatch
      simp only [Tree.inPidns] at this
      rw [hmatch] at this
      cases this

theorem WithLeaders.initOnLevel_mem (ht : ProcessTree t₀) {level init : ℕ}
    (hi : initOnLevel o t x level = some init) : init ∈ t.tasks := by
  unfold initOnLevel at hi
  split at hi
  · obtain ⟨ns, -, hns⟩ := Option.bind_eq_some_iff.mp hi
    exact h.init_mem ht hns
  · cases hi

theorem WithLeaders.becomeHelper (ht : ProcessTree t₀) {pgid sid : List ℕ}
    (hx : x < t.size) (hu : (t.item x).state = .undef) (hp : p ∈ t.tasks)
    (hgroup : t.vpid x = pgid.headD 0) : WithLeaders t₀ (becomeHelper t x pgid sid ns p) := by
  have hout : x ∉ t.tasks := fun hmem => hmem.2 hu
  have hne : ∀ y ∈ t.tasks, y ≠ x := fun y hy he => hout (he ▸ hy)
  have hpid : ∀ y, ((PstreeIds.becomeHelper t x pgid sid ns p).item y).pid = (t.item y).pid := by
    intro y
    by_cases hy : y = x
    · rw [hy, becomeHelper_item_self]
    · rw [becomeHelper_item hy]
  constructor
  · exact becomeHelper_linked h.linked hx hu hp
  · exact h.size
  · exact h.root
  · exact fun y => (hpid y).trans (h.pid y)
  · exact fun y hy => (becomeHelper_item (hne y (h.mem hy))).trans (h.kept y hy)
  · intro y hy
    rw [becomeHelper_tasks hx, not_or] at hy
    exact (becomeHelper_item hy.1).trans (h.placeholder y hy.2)
  · intro y hy hy₀
    rcases (becomeHelper_tasks hx).mp hy with rfl | hyt
    · have hlevel : (t.item y).pid ≠ [] := h.pid y ▸ ht.levels y (h.size ▸ hx)
      rw [isGroupLeader_iff, becomeHelper_vpgid hlevel, Tree.vpid, Item.vpid, hpid]
      exact hgroup
    · rw [Tree.isGroupLeader, becomeHelper_item (hne y hyt)]
      exact h.helper y hyt hy₀
  · exact h.bornSid

theorem WithLeaders.itemByVirt (virt : ℕ) : t.itemByVirt virt = t₀.itemByVirt virt := by
  unfold Tree.itemByVirt
  rw [h.size]
  simp only [h.vpid]

theorem leadersStep_cases (hx : x ∈ t₀.tasks) (hs : leadersStep o t x = some t') :
    t₀.isSessionLeader x = true ∧ t' = t ∨ t₀.isSessionLeader x = false ∧
      ∃ tm s, prepareSessionLeader o t x = some (tm, s) ∧
        prepareGroupLeader o tm x s = some t' := by
  unfold leadersStep at hs
  rw [h.isSessionLeader hx, h.kept x hx, if_neg hx.2] at hs
  split at hs
  · cases hs
    exact .inl ⟨‹_›, rfl⟩
  rename_i hl
  split at hs
  · cases hs
  · exact .inr ⟨by simpa using hl, _, _, ‹_›, hs⟩

variable (ht : ProcessTree t₀) (hx : x ∈ t₀.tasks)
include ht hx

theorem WithLeaders.externalSession : externalSession o t x = externalSession o t₀ x :=
  externalSession_congr h.root (h.kept _ ht.image.root_mem) (h.kept x hx)

theorem WithLeaders.externalGroup : externalGroup o t x = externalGroup o t₀ x :=
  externalGroup_congr h.root (h.kept _ ht.image.root_mem) (h.kept x hx)

/-- The session leader of a task is there, unless the session is one from outside of the tree. -/
theorem prepareSessionLeader_spec (hs : prepareSessionLeader o t x = some (t', s)) :
    WithLeaders t₀ t' ∧ (externalSession o t₀ x = false →
      ∃ l ∈ t'.tasks, s = some l ∧ t₀.itemByVirt (t₀.vsid x) = some l) := by
  rcases prepareSessionLeader_cases hs with ⟨hext, rfl⟩ | ⟨l, hl, rfl, hcase⟩
  · refine ⟨h, fun hno => ?_⟩
    rw [h.externalSession ht hx, hno] at hext
    cases hext
  obtain ⟨hpid, hlt, -⟩ := Tree.itemByVirt_eq_some.mp hl
  rw [h.vsid hx, h.itemByVirt] at hl
  rcases hcase with ⟨hu, rfl⟩ | ⟨hu, init, hinit, rfl⟩
  · exact ⟨h, fun _ => ⟨l, ⟨hlt, hu⟩, rfl, hl⟩⟩
  · exact ⟨h.becomeHelper ht hlt hu (h.initOnLevel_mem ht hinit) hpid,
      fun _ => ⟨l, (becomeHelper_tasks hlt).mpr (.inl rfl), rfl, hl⟩⟩

/-- The helper for a group leader gets a parent that is there. -/
theorem groupHelperPlace_spec {leader : ℕ}
    (hs : externalSession o t₀ x = false → ∃ l ∈ t.tasks, s = some l)
    (hp : groupHelperPlace o t x leader s = some (p, ns)) : p ∈ t.tasks := by
  unfold groupHelperPlace at hp
  split at hp
  · obtain ⟨rfl, -⟩ := Prod.mk.inj (Option.some.inj hp)
    exact h.mem hx
  split at hp
  · cases hp
  rw [h.externalSession ht hx] at hp
  split at hp
  · obtain ⟨rfl, -⟩ := Prod.mk.inj (Option.some.inj hp)
    exact h.linked.root_mem
  rename_i hext
  obtain ⟨l, hl, rfl⟩ := hs (by simpa using hext)
  obtain ⟨rfl, -⟩ := Prod.mk.inj (Option.some.inj hp)
  exact hl

theorem prepareGroupLeader_spec
    (hs : externalSession o t₀ x = false → ∃ l ∈ t.tasks, s = some l)
    (hg : prepareGroupLeader o t x s = some t') : WithLeaders t₀ t' := by
  rcases prepareGroupLeader_cases hg with ⟨-, rfl⟩ | ⟨-, -, l, cnt, hl, -, hcase⟩
  · exact h
  obtain ⟨hpid, hlt, -⟩ := Tree.itemByVirt_eq_some.mp hl
  have h₁ : WithLeaders t₀ { t with pgrpMemberCnt := cnt } :=
    { h with linked := { h.linked with leader := nofun } }
  rcases hcase with rfl | ⟨hu, p, ns, hplace, rfl⟩
  · exact h₁
  · exact h₁.becomeHelper ht hlt hu (groupHelperPlace_spec h₁ ht hx hs hplace) hpid

theorem leadersStep_spec (hs : leadersStep o t x = some t') : WithLeaders t₀ t' := by
  rcases leadersStep_cases h hx hs with ⟨-, rfl⟩ | ⟨-, tm, s, hsess, hs⟩
  · exact h
  obtain ⟨h₁, hleader⟩ := prepareSessionLeader_spec h ht hx hsess
  refine prepareGroupLeader_spec h₁ ht hx (fun hext => ?_) hs
  obtain ⟨l, hl, hsl, -⟩ := hleader hext
  exact ⟨l, hl, hsl⟩

end Leaders

variable {namespaces : List (List ℕ)} {items : List ℕ} {r r' : State} {t₃ : Tree} {fuel : ℕ}

theorem forEachItem_mem (h : Linked t []) (hw : t.forEachItem = some items) (y : ℕ) :
    y ∈ items ↔ ∃ path, t.follow t.root path = some y :=
  (Forest.Links.walk_root h.hung h.top hw).2 y

theorem follow_mem_tasks {helpers : List ℕ} (h : Linked t helpers) {path : List ℕ}
    (hy : t.follow t.root path = some y) : y ∈ t.tasks := by
  rcases eq_nil_or_concat path with rfl | ⟨path, i, rfl⟩
  · cases hy
    exact h.root_mem
  · obtain ⟨z, -, hz⟩ := Forest.Links.follow_concat_eq (concat_eq_append ▸ hy)
    exact (h.child_mem (mem_of_getElem? hz)).1

theorem preparePstreeLeaders_spec (ht : ProcessTree t₀) (h : preparePstreeLeaders o t₀ = some t) :
    WithLeaders t₀ t := by
  obtain ⟨items, hitems, hfold⟩ := Option.bind_eq_some_iff.mp h
  have hstart := WithLeaders.start ht
  have hstep : ∀ t x t', x ∈ items → WithLeaders t₀ t → leadersStep o t x = some t' →
      WithLeaders t₀ t' ∧ True := by
    intro t x t' hx hwl hs
    obtain ⟨path, hpath⟩ := (forEachItem_mem hstart.linked hitems x).mp hx
    exact ⟨leadersStep_spec hwl ht (follow_mem_tasks hstart.linked hpath) hs, trivial⟩
  exact (Run.foldlM_invariant hstep hstart hfold).1

theorem preparePstreeMyChildSubreaper_eq (h : preparePstreeMyChildSubreaper t = some t') :
    ∃ subreapers, t' = { t with myChildSubreaper := subreapers } := by
  obtain ⟨items, -, rfl⟩ := Option.map_eq_some_iff.mp h
  clear h
  induction items generalizing t with
  | nil => exact ⟨t.myChildSubreaper, rfl⟩
  | cons x items ih =>
    obtain ⟨subreapers, hs⟩ := @ih (myChildSubreaperStep t x)
    exact ⟨subreapers, hs⟩

/-- What was in the tree is there as it was. Only helpers were added, in the groups of session
leaders. -/
structure Follows (t₁ t : Tree) : Prop where
  root : t.root = t₁.root
  size : t₁.size ≤ t.size
  item : ∀ x < t₁.size, t.item x = t₁.item x
  added : ∀ x ∈ t.tasks, x ∈ t₁.tasks ∨ (t.item x).state = .helper ∧
    ∃ l ∈ t.tasks, t.itemByVirt (t.vpgid x) = some l ∧ t.isSessionLeader l = true
  bornSid : t.bornSid = t₁.bornSid
  pgrpMemberCnt : t.pgrpMemberCnt = t₁.pgrpMemberCnt

theorem Follows.itemByVirt (h : Follows t₁ t) {v l : ℕ} (hl : t₁.itemByVirt v = some l) :
    t.itemByVirt v = some l :=
  Tree.itemByVirt_mono h.size h.item hl

theorem Follows.mem (h : Follows t₁ t) (hx : x ∈ t₁.tasks) : x ∈ t.tasks := by
  refine ⟨hx.1.trans_le h.size, ?_⟩
  rw [h.item x hx.1]
  exact hx.2

/-- The tasks of the image are as they were. -/
structure Extends (t₀ t : Tree) : Prop where
  root : t.root = t₀.root
  pid : ∀ x < t₀.size, t.vpid x = t₀.vpid x
  item : ∀ x ∈ t₀.tasks, t.item x = t₀.item x

theorem WithLeaders.extends (h : WithLeaders t₀ t₁) (hf : Follows t₁ t) : Extends t₀ t := by
  refine ⟨hf.root.trans h.root, fun x hx => ?_, fun x hx => ?_⟩
  · rw [← h.vpid, Tree.vpid, hf.item x (hx.trans_le h.size.ge)]
    rfl
  · exact (hf.item x (h.mem hx).1).trans (h.kept x hx)

theorem effect_follows (hi : Reparent.Inv r) (he : Effect r r') (h : Follows t₁ r.tree) :
    Follows t₁ r'.tree := by
  refine he.rule hi (fun _ => { h with }) fun top x branch helper t hl hv hfor hb => ?_
  have hlook : ∀ v l, r.tree.itemByVirt v = some l → t.itemByVirt v = some l := fun v l =>
    Tree.itemByVirt_mono hfor.size hfor.item
  have hlead : ∀ l < r.tree.size, r.tree.isSessionLeader l = true →
      t.isSessionLeader l = true := by
    intro l hl hlead
    rw [Tree.isSessionLeader, hfor.item l hl]
    exact hlead
  refine ⟨hfor.root.trans h.root, h.size.trans hfor.size, fun y hy => ?_, fun y hy => ?_,
    hfor.bornSid.trans h.bornSid, hfor.pgrpMemberCnt.trans h.pgrpMemberCnt⟩
  · exact (hfor.item y (hy.trans_le h.size)).trans (h.item y hy)
  rcases hfor.added y hy with hyt | ⟨rfl, hhelper, hgroup⟩
  · refine (h.added y hyt).imp_right ?_
    rintro ⟨hhelper, l, hmem, hl, hsl⟩
    have hsame := hfor.item y hyt.1
    refine ⟨?_, l, hfor.tasks l hmem, hlook _ l ?_, hlead l hmem.1 hsl⟩
    · exact (congrArg Item.state hsame).trans hhelper
    · exact (congrArg (fun i => r.tree.itemByVirt (Item.vpgid i)) hsame).trans hl
  obtain ⟨l, hl, -⟩ := hfor.leader
  obtain ⟨hv, -, hsl⟩ := sessionLeader_eq_some.mp hl
  have hmem := sessionLeader_mem hl
  refine .inr ⟨hhelper, l, hfor.tasks l hmem, hlook _ l ?_, hlead l hmem.1 hsl⟩
  refine Eq.trans ?_ hv
  exact congrArg r.tree.itemByVirt (hgroup.trans hfor.sid)

/-- The stages of `prepare_pstree_ids`: the tree with the leaders, the one before the last loop,
and the items that this loop goes over. -/
structure Stages (o : Opts) (t₀ t₁ t₃ t : Tree) (items : List ℕ) : Prop where
  leaders : preparePstreeLeaders o t₀ = some t₁
  linked : Linked t₃ []
  follows : Follows t₁ t₃
  walk : t₃.forEachItem = some items
  check : items.foldlM (idsStep o) t₃ = some t

theorem stages_of_ids (ht : ProcessTree t₀) (h : preparePstreeIds o namespaces fuel t₀ = some t) :
    ∃ t₁ t₃ items, Stages o t₀ t₁ t₃ t items := by
  obtain ⟨t₁, h₁, h⟩ := Option.bind_eq_some_iff.mp h
  obtain ⟨t₂, h₂, h⟩ := Option.bind_eq_some_iff.mp h
  obtain ⟨t₃, h₃, h⟩ := Option.bind_eq_some_iff.mp h
  obtain ⟨items, hitems, hfold⟩ := Option.bind_eq_some_iff.mp h
  have hwl := preparePstreeLeaders_spec ht h₁
  obtain ⟨subreapers, rfl⟩ := preparePstreeMyChildSubreaper_eq h₂
  have hl : Linked { t₁ with myChildSubreaper := subreapers } [] :=
    { hwl.linked with leader := nofun }
  have hfollows : Follows t₁ { t₁ with myChildSubreaper := subreapers } :=
    ⟨rfl, le_refl _, fun _ _ => rfl, fun _ hx => .inl hx, rfl, rfl⟩
  have hdone : Linked t₃ [] ∧ Follows t₁ t₃ := by
    split at h₃
    · have hinv : Reparent.Inv (start { t₁ with myChildSubreaper := subreapers } namespaces) := by
        refine ⟨hl, fun top x hlook => ?_, fun _ => rfl⟩
        cases hlook
      exact (finish_spec (fun r r' hi he hf => effect_follows hi he hf) hinv hfollows h₃).symm
    · exact Option.some.inj h₃ ▸ ⟨hl, hfollows⟩
  exact ⟨t₁, t₃, items, h₁, hdone.1, hdone.2, hitems, hfold⟩

/-- Only born sids were set, and only in tasks that have a parent. -/
structure Marked (t t' : Tree) : Prop where
  same : t' = { t with bornSid := t'.bornSid }
  below : ∀ y, t'.bornSid y ≠ none → t.bornSid y ≠ none ∨ t.parent y ≠ none

theorem Marked.refl (t : Tree) : Marked t t := ⟨rfl, fun _ => .inl⟩

theorem Marked.exists_born (h : Marked t t') : ∃ born, t' = { t with bornSid := born } :=
  ⟨_, h.same⟩

theorem Marked.trans {t'' : Tree} (h : Marked t t') (h' : Marked t' t'') : Marked t t'' := by
  obtain ⟨born, hborn⟩ := h.exists_born
  refine ⟨by rw [h'.same, hborn], fun y hy => ?_⟩
  rcases h'.below y hy with hy' | hp
  · exact h.below y hy'
  · rw [hborn] at hp
    exact .inr hp

theorem setBornSid_eq (h : setBornSid t x sid = some t') :
    t' = { t with bornSid := update t.bornSid x (some sid) } := by
  unfold setBornSid at h
  split at h
  · cases h
  · exact (Option.some.inj h).symm

/-- If a session can be inherited from an ancestor on, there is an ancestor behind each of the
session leaders that are marked on the way. -/
theorem canInheritFrom_marked {n : ℕ} (h : canInheritFrom true sid n (some p) t = some (t', true)) :
    Marked t t' := by
  induction n generalizing p t with
  | zero => cases h
  | succ n ih =>
    unfold canInheritFrom at h
    split at h
    · cases h
      exact .refl _
    split at h
    · cases h
    cases hset : setBornSid t p sid with
    | none => simp [hset] at h
    | some t₁ =>
      simp only [hset] at h
      obtain rfl := setBornSid_eq hset
      cases hpar : t.parent p with
      | none =>
        simp only [hpar] at h
        cases n <;> cases h
      | some q =>
        simp only [hpar] at h
        refine .trans ⟨rfl, fun y hy => ?_⟩ (ih h)
        by_cases hyp : y = p
        · exact .inr (by simp [hyp, hpar])
        · exact .inl fun hnone => hy ((update_of_ne hyp _ _).trans hnone)

def Accepted (o : Opts) (t : Tree) (x : ℕ) : Prop :=
  t.parent x ≠ none → (t.item x).state ≠ .helper →
    t.isGroupLeader x = true ∨ canReceivePgid o t x = some true

/-- One turn of the last loop, which started with the tree `t₃`. -/
theorem idsStep_spec (hm : Marked t₃ t) (h : idsStep o t x = some t') :
    Marked t₃ t' ∧ Accepted o t₃ x := by
  obtain ⟨born, rfl⟩ := hm.exists_born
  unfold idsStep at h
  split at h
  · rename_i hnone
    cases h
    exact ⟨hm, fun hp => absurd hnone hp⟩
  rename_i hsome
  split at h
  · rename_i hhelper
    cases h
    exact ⟨hm, fun _ hs => absurd hhelper hs⟩
  simp only at h
  split at h
  · rename_i hinh
    split at h
    · rename_i hok
      cases h
      have hmark : Marked t₃ t' := by
        split at hinh
        · obtain ⟨rfl, -⟩ := Prod.mk.inj (Option.some.inj hinh)
          exact hm
        · obtain ⟨p, hp⟩ := Option.ne_none_iff_exists'.mp hsome
          rw [hp] at hinh
          exact hm.trans (canInheritFrom_marked hinh)
      obtain ⟨born', rfl⟩ := hmark.exists_born
      exact ⟨hmark, fun _ _ => hok⟩
    · cases h
  · cases h

theorem Stages.checking (hs : Stages o t₀ t₁ t₃ t items) :
    Marked t₃ t ∧ ∀ x ∈ items, Accepted o t₃ x := by
  have hstep : ∀ t x t', x ∈ items → Marked t₃ t → idsStep o t x = some t' →
      Marked t₃ t' ∧ Accepted o t₃ x := fun _ _ _ _ => idsStep_spec
  exact Run.foldlM_invariant hstep (.refl t₃) hs.check

/-- A tree that `prepare_pstree_ids` is done with. -/
structure Prepared (t : Tree) : Prop where
  linked : Linked t []
  root : t.bornSid t.root = none

theorem prepared_of_ids (ht : ProcessTree t₀) (h : preparePstreeIds o namespaces fuel t₀ = some t) :
    Prepared t := by
  obtain ⟨t₁, t₃, items, hs⟩ := stages_of_ids ht h
  obtain ⟨hsame, hbelow⟩ := hs.checking.1
  have hnone : ∀ y, t₃.bornSid y = none := by
    intro y
    rw [hs.follows.bornSid, (preparePstreeLeaders_spec ht hs.leaders).bornSid, ht.bornSid]
  have hroot : t.root = t₃.root := by rw [hsame]
  refine ⟨?_, by_contra fun hb => ?_⟩
  · rw [hsame]
    exact { hs.linked with leader := nofun }
  · exact ((hbelow _ hb).resolve_left (· (hnone _))) (hroot ▸ hs.linked.top)

end Criu.PstreeIds

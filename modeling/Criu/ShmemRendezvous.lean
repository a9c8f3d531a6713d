import Mathlib.Algebra.Group.Nat.Defs
import Criu.Lib.Run
import Mathlib.Data.List.Perm.Subperm

/-!
Who creates an anonymous shared memory segment on restore, and how long it waits
(criu/shmem.c). `collect_shmem` is called for each region of each task and keeps the smallest
pid with the number of its regions. That task makes the segment, counts itself on a futex and
waits until the futex has counted a region of the other tasks for each that was collected. The
others count themselves after they tried to open the file, whether they succeeded or not.
-/

namespace Criu.ShmemRendezvous

open Run List Function

variable {owner : ℕ}

structure Region where
  pid : ℕ
  pgoff : ℕ
  start : ℕ
  stop : ℕ

/-- The size the segment must have for a region, an unsigned long. -/
def Region.extent (r : Region) : ℕ := (r.pgoff + r.stop + 2 ^ 64 - r.start) % 2 ^ 64

structure ShmemInfo where
  pid : ℕ
  size : ℕ
  count : ℕ
  selfCount : ℕ
deriving DecidableEq

/-- `collect_shmem`; the segment is not known yet at its first region. -/
def collectShmem : Option ShmemInfo → Region → ShmemInfo
  | none, r => ⟨r.pid, r.extent, 1, 1⟩
  | some si, r =>
      let size := if si.size < r.extent then r.extent else si.size
      if r.pid < si.pid then ⟨r.pid, size, si.count + 1, 1⟩
      else if si.pid = r.pid then ⟨si.pid, size, si.count + 1, si.selfCount + 1⟩
      else ⟨si.pid, size, si.count + 1, si.selfCount⟩

def collectAll (rs : List Region) : Option ShmemInfo :=
  rs.foldl (fun si r => some (collectShmem si r)) none

def regionsOf (rs : List Region) (p : ℕ) : ℕ := (rs.map Region.pid).count p

/-- What `collect_shmem` knows after the regions. -/
structure Tally (rs : List Region) (si : ShmemInfo) : Prop where
  least : ∀ r ∈ rs, si.pid ≤ r.pid
  mem : si.pid ∈ rs.map Region.pid
  self : si.selfCount = regionsOf rs si.pid
  all : si.count = rs.length
  covers : ∀ r ∈ rs, r.extent ≤ si.size
  largest : ∃ r ∈ rs, si.size = r.extent

variable {rs : List Region}

theorem Tally.collect {si : ShmemInfo} (h : Tally rs si) (r : Region) :
    Tally (rs ++ [r]) (collectShmem (some si) r) := by
  have hcount : ∀ p, regionsOf (rs ++ [r]) p = regionsOf rs p + if r.pid = p then 1 else 0 := by
    simp [regionsOf, count_singleton]
  have hsize : (∀ x ∈ rs ++ [r], x.extent ≤ if si.size < r.extent then r.extent else si.size) ∧
      ∃ x ∈ rs ++ [r], (if si.size < r.extent then r.extent else si.size) = x.extent := by
    obtain ⟨x, hx, heq⟩ := h.largest
    rw [forall_mem_append, forall_mem_singleton]
    split
    · exact ⟨⟨fun y hy => Nat.le_trans (h.covers y hy) (by omega), Nat.le_refl _⟩, r, by simp, rfl⟩
    · exact ⟨⟨h.covers, by omega⟩, x, mem_append_left _ hx, heq⟩
  have hlen : si.count + 1 = (rs ++ [r]).length := by simp [h.all]
  have hmem : ∀ {p}, p ∈ rs.map Region.pid ∨ p = r.pid → p ∈ (rs ++ [r]).map Region.pid := by
    simp
  have hleast : ∀ {p}, (∀ x ∈ rs, p ≤ x.pid) → p ≤ r.pid → ∀ x ∈ rs ++ [r], p ≤ x.pid := by
    intro p hrs hr
    exact forall_mem_append.mpr ⟨hrs, forall_mem_singleton.mpr hr⟩
  unfold collectShmem
  dsimp only
  split
  · next hlt =>
    have hnew : regionsOf rs r.pid = 0 := by
      apply count_eq_zero.mpr
      intro hin
      obtain ⟨x, hx, heq⟩ := mem_map.mp hin
      have := h.least x hx
      omega
    have hsmall : ∀ x ∈ rs, r.pid ≤ x.pid := fun x hx =>
      Nat.le_trans (Nat.le_of_lt hlt) (h.least x hx)
    exact ⟨hleast hsmall (Nat.le_refl _), hmem (.inr rfl), by simp [hcount, hnew], hlen, hsize.1,
      hsize.2⟩
  · next hge =>
    have hleast' := hleast h.least (Nat.le_of_not_lt hge)
    split
    · next heq =>
      exact ⟨hleast', hmem (.inl h.mem), by simp [hcount, heq, h.self], hlen, hsize.1, hsize.2⟩
    · next hne =>
      exact ⟨hleast', hmem (.inl h.mem), by simp [hcount, Ne.symm hne, h.self], hlen, hsize.1,
        hsize.2⟩

theorem collectAll_tally (hne : rs ≠ []) : ∃ si, collectAll rs = some si ∧ Tally rs si := by
  induction rs using reverseRecOn with
  | nil => exact absurd rfl hne
  | append_singleton rs r ih =>
    rw [collectAll, foldl_append]
    by_cases hrs : rs = []
    · subst hrs
      exact ⟨_, rfl, by simp [collectShmem], by simp [collectShmem],
        by simp [collectShmem, regionsOf], rfl, by simp [collectShmem], r, by simp, rfl⟩
    · obtain ⟨si, hsi, ht⟩ := ih hrs
      rw [← collectAll, hsi]
      exact ⟨_, rfl, ht.collect r⟩

section Rendezvous

/-- Where a task is in `open_shmem`: between two regions, after its try to open the file, after
it has made the file, in `futex_wait_until`, or out with an error. -/
inductive Pc
  | idle
  | opened (ok : Bool)
  | created
  | waiting
  | failed
deriving DecidableEq

variable {c : Pc}

/-- The segment's futex and file, the regions each task has still to open, and who has counted
itself on the futex after which result. -/
structure State where
  lock : ℕ
  fd : Bool
  todo : ℕ → ℕ
  pc : ℕ → Pc
  log : List (ℕ × Bool)

def target (si : ShmemInfo) : ℕ := si.count - si.selfCount + 1

/-- One step of the task `p`, up to its next system call; `ok` is the call's result. A task
that has to wait has no step. -/
def next (si : ShmemInfo) (s : State) (p : ℕ) (ok : Bool) : Option State :=
  match s.pc p with
  | .idle =>
      match s.todo p with
      | 0 => none
      | k + 1 =>
          let s' := { s with todo := update s.todo p k }
          if p ≠ si.pid then
            if s.lock = 0 then none
            else some { s' with pc := update s.pc p (.opened ok) }
          else if s.fd then
            some { s' with pc := update s.pc p (if ok then .idle else .failed) }
          else
            some { s' with
              fd := ok
              pc := update s.pc p (if ok then .created else .failed) }
  | .opened res =>
      some { s with
        lock := s.lock + 1
        log := s.log ++ [(p, res)]
        pc := update s.pc p (if res then .idle else .failed) }
  | .created => some { s with lock := s.lock + 1, pc := update s.pc p .waiting }
  | .waiting =>
      if s.lock = target si then some { s with pc := update s.pc p .idle } else none
  | .failed => none

def start (rs : List Region) : State := ⟨0, false, regionsOf rs, fun _ => .idle, []⟩

abbrev Reachable (rs : List Region) (si : ShmemInfo) : State → Prop :=
  Reach (fun s => s = start rs) (fun s (e : ℕ × Bool) t => next si s e.1 e.2 = some t)
    fun _ _ => True

def tries (s : State) (p : ℕ) : ℕ := (s.log.map Prod.fst).count p

def opens (s : State) (p : ℕ) : ℕ := s.log.count (p, true)

def pending : Pc → ℕ
  | .opened _ => 1
  | _ => 0

structure Inv (rs : List Region) (owner : ℕ) (s : State) : Prop where
  early : s.lock = 0 → s.log = [] ∧ ∀ p ≠ owner, pending (s.pc p) = 0
  late : s.lock ≠ 0 → s.lock = s.log.length + 1 ∧ s.pc owner ≠ .created ∧ s.fd = true
  waits : s.pc owner = .waiting → s.lock ≠ 0
  made : s.pc owner = .created → s.fd = true
  alone : pending (s.pc owner) = 0
  roles : ∀ p ≠ owner, s.pc p ≠ .created ∧ s.pc p ≠ .waiting
  others : ∀ p ∈ s.log.map Prod.fst, p ≠ owner
  counts : ∀ p ≠ owner, tries s p + pending (s.pc p) + s.todo p = regionsOf rs p

variable {si : ShmemInfo} {s t : State} {p : ℕ} {ok : Bool}

theorem start_inv (rs : List Region) (owner : ℕ) : Inv rs owner (start rs) := by
  constructor
  · exact fun _ => ⟨rfl, fun _ _ => rfl⟩
  · exact fun h => absurd rfl h
  · exact fun h => Pc.noConfusion h
  · exact fun h => Pc.noConfusion h
  · rfl
  · exact fun p _ => ⟨Pc.noConfusion, Pc.noConfusion⟩
  · exact nofun
  · exact fun p _ => by simp [start, tries, pending]

theorem Inv.own (h : Inv rs owner s) (hpc : t.pc = update s.pc owner c)
    (hlog : t.log = s.log) (htodo : ∀ q ≠ owner, t.todo q = s.todo q) (hc : pending c = 0)
    (hearly : t.lock = 0 → s.lock = 0 ∧ c ≠ .waiting)
    (hlate : t.lock ≠ 0 → t.lock = s.log.length + 1 ∧ c ≠ .created ∧ t.fd = true)
    (hmade : c = .created → t.fd = true) : Inv rs owner t := by
  have hself : t.pc owner = c := by rw [hpc, update_self]
  have hrest : ∀ q ≠ owner, t.pc q = s.pc q := by
    intro q hq
    rw [hpc, update_of_ne hq]
  constructor
  · intro hl
    obtain ⟨hnil, hidle⟩ := h.early (hearly hl).1
    exact ⟨hlog.trans hnil, fun q hq => by rw [hrest q hq, hidle q hq]⟩
  · rwa [hself, hlog]
  · rw [hself]
    exact fun hw hl => (hearly hl).2 hw
  · rwa [hself]
  · rwa [hself]
  · intro q hq
    rw [hrest q hq]
    exact h.roles q hq
  · rw [hlog]
    exact h.others
  · intro q hq
    rw [tries, hlog, hrest q hq, htodo q hq]
    exact h.counts q hq

/-- A step of another task, which has seen the futex counted up by the owner. -/
theorem Inv.other (h : Inv rs owner s) (hp : p ≠ owner) (hl : s.lock ≠ 0)
    (hpc : t.pc = update s.pc p c) (hfd : t.fd = s.fd) (hlock : t.lock = t.log.length + 1)
    (hothers : ∀ q ∈ t.log.map Prod.fst, q ≠ owner) (hc : c ≠ .created ∧ c ≠ .waiting)
    (hcount : tries t p + pending c + t.todo p = regionsOf rs p)
    (hrest : ∀ q ≠ p, tries t q = tries s q ∧ t.todo q = s.todo q) : Inv rs owner t := by
  obtain ⟨-, hcreated, hset⟩ := h.late hl
  have hown : t.pc owner = s.pc owner := by rw [hpc, update_of_ne (Ne.symm hp)]
  constructor
  · exact fun hzero => by omega
  · exact fun _ => ⟨hlock, hown ▸ hcreated, hfd.trans hset⟩
  · exact fun _ => by omega
  · exact fun _ => hfd.trans hset
  · rw [hown]
    exact h.alone
  · intro q hq
    by_cases hqp : q = p
    · rwa [hqp, hpc, update_self]
    · rw [hpc, update_of_ne hqp]
      exact h.roles q hq
  · exact hothers
  intro q hq
  by_cases hqp : q = p
  · rw [hqp, hpc, update_self]
    exact hcount
  · rw [hpc, update_of_ne hqp, (hrest q hqp).1, (hrest q hqp).2]
    exact h.counts q hq

theorem Inv.next (h : Inv rs si.pid s) (hs : next si s p ok = some t) : Inv rs si.pid t := by
  have hown : s.pc p = .created ∨ s.pc p = .waiting → p = si.pid := by
    intro hpc
    by_contra hp
    exact hpc.elim (h.roles p hp).1 (h.roles p hp).2
  unfold ShmemRendezvous.next at hs
  split at hs
  · next hpc =>
    split at hs
    · cases hs
    next k hk =>
    split at hs
    · next hp =>
      split at hs
      · cases hs
      next hl =>
      cases hs
      have hc := h.counts p hp
      rw [hpc, hk] at hc
      refine h.other hp hl rfl rfl (h.late hl).1 h.others (by simp) ?_ fun q hq =>
        ⟨rfl, update_of_ne hq ..⟩
      dsimp only [pending]
      rw [update_self]
      exact (Nat.add_right_comm ..).trans hc
    next hp =>
    obtain rfl := not_not.mp hp
    have htodo : ∀ q ≠ si.pid, update s.todo si.pid k q = s.todo q :=
      fun q hq => update_of_ne hq ..
    split at hs
    · cases hs
      refine h.own rfl rfl htodo (by cases ok <;> rfl) (fun hl => ⟨hl, by cases ok <;> decide⟩)
        (fun hl => ⟨(h.late hl).1, by cases ok <;> decide, (h.late hl).2.2⟩) ?_
      cases ok <;> exact fun hc => Pc.noConfusion hc
    next hfd =>
    have hlock : s.lock = 0 := by
      by_contra hl
      exact hfd (h.late hl).2.2
    cases hs
    refine h.own rfl rfl htodo (by cases ok <;> rfl) (fun hl => ⟨hl, by cases ok <;> decide⟩)
      (absurd hlock) ?_
    cases ok
    · exact fun hc => Pc.noConfusion hc
    · exact fun _ => rfl
  · next res hpc =>
    have hp : p ≠ si.pid := by
      rintro rfl
      have := h.alone
      rw [hpc] at this
      cases this
    have hl : s.lock ≠ 0 := by
      intro hzero
      have := (h.early hzero).2 p hp
      rw [hpc] at this
      cases this
    cases hs
    have hc := h.counts p hp
    rw [hpc] at hc
    refine h.other hp hl rfl rfl ?_ ?_ (by cases res <;> decide) ?_ fun q hq => ⟨?_, rfl⟩
    · simp [(h.late hl).1]
    · rw [map_append]
      exact forall_mem_append.mpr ⟨h.others, forall_mem_singleton.mpr hp⟩
    · cases res <;> simpa [tries, pending] using hc
    · simp [tries, Ne.symm hq]
  · next hpc =>
    obtain rfl := hown (.inl hpc)
    have hlock : s.lock = 0 := by
      by_contra hl
      exact (h.late hl).2.1 hpc
    have hlog := (h.early hlock).1
    cases hs
    refine h.own rfl rfl (fun _ _ => rfl) rfl (fun hl => absurd hl (Nat.succ_ne_zero _)) ?_
      (fun hc => Pc.noConfusion hc)
    exact fun _ => ⟨by simp [hlock, hlog], by decide, h.made hpc⟩
  · next hpc =>
    obtain rfl := hown (.inr hpc)
    split at hs
    · cases hs
      exact h.own rfl rfl (fun _ _ => rfl) rfl (fun hl => ⟨hl, by decide⟩)
        (fun hl => ⟨(h.late hl).1, by decide, (h.late hl).2.2⟩) (fun hc => Pc.noConfusion hc)
    · cases hs
  · cases hs

theorem Reachable.inv (h : Reachable rs si s) : Inv rs si.pid s := by
  refine Reach.invariant ?_ ?_ h
  · rintro s rfl
    exact start_inv rs si.pid
  · intro s e t _ hi _ hstep
    exact hi.next hstep

/-- The futex has its last value exactly when all regions of the others are counted. -/
theorem Inv.satisfied_iff (h : Inv rs si.pid s) (ht : Tally rs si) (hw : s.pc si.pid = .waiting) :
    s.lock = target si ↔ ∀ p ≠ si.pid, tries s p = regionsOf rs p := by
  have hlock := (h.late (h.waits hw)).1
  let rest := (rs.map Region.pid).filter (· ≠ si.pid)
  have hrest : ∀ p ≠ si.pid, rest.count p = regionsOf rs p := fun p hp =>
    count_filter (by simpa using hp)
  have hnone : rest.count si.pid = 0 := count_eq_zero.mpr (by simp [rest])
  have hlog : (s.log.map Prod.fst).count si.pid = 0 :=
    count_eq_zero.mpr fun hin => h.others _ hin rfl
  have hlen : rest.length + si.selfCount = si.count := by
    have hsplit := length_eq_countP_add_countP (· == si.pid) (l := rs.map Region.pid)
    rw [length_map] at hsplit
    rw [ht.self, ht.all, hsplit, Nat.add_comm]
    simp [rest, regionsOf, List.count, countP_eq_length_filter]
  have hiff : s.lock = target si ↔ (s.log.map Prod.fst).length = rest.length := by
    rw [length_map, target]
    omega
  rw [hiff]
  constructor
  · intro heq p hp
    have hsub : (s.log.map Prod.fst).Subperm rest := by
      apply subperm_ext_iff.mpr
      intro q hq
      rw [hrest q (h.others q hq), ← h.counts q (h.others q hq), Nat.add_assoc]
      exact Nat.le_add_right ..
    have hperm := hsub.perm_of_length_le (Nat.le_of_eq heq.symm)
    rw [← hrest p hp]
    exact hperm.count_eq p
  · intro hall
    apply List.Perm.length_eq
    apply perm_iff_count.mpr
    intro p
    by_cases hp : p = si.pid
    · rw [hp, hnone, hlog]
    · rw [hrest p hp]
      exact hall p hp

/-- The counted regions have opened the file, if no call failed. -/
theorem opens_eq_tries (h : ∀ e ∈ s.log, e.2 = true) (p : ℕ) : opens s p = tries s p := by
  unfold opens tries
  generalize s.log = log at h
  induction log with
  | nil => rfl
  | cons e log ih =>
    obtain ⟨he, hlog⟩ := forall_mem_cons.mp h
    obtain ⟨q, ok⟩ := e
    obtain rfl := he
    simp [count_cons, ih hlog]

/-- The regions give the smallest pid, its number of regions, their number and the largest
extent. In every state of every interleaving in which the owner waits, the file is there, and
the wait is over exactly if each region of each other task has tried to open it and has counted
itself; if none of these calls has failed, exactly if each region has opened it. -/
theorem shmem_rendezvous (hne : rs ≠ []) : ∃ si, collectAll rs = some si ∧ Tally rs si ∧
    ∀ s, Reachable rs si s → s.pc si.pid = .waiting → s.fd = true ∧
      (s.lock = target si ↔ ∀ p ≠ si.pid, tries s p = regionsOf rs p) ∧
      ((∀ e ∈ s.log, e.2 = true) →
        (s.lock = target si ↔ ∀ p ≠ si.pid, opens s p = regionsOf rs p)) := by
  obtain ⟨si, hsi, ht⟩ := collectAll_tally hne
  refine ⟨si, hsi, ht, ?_⟩
  intro s hs hw
  have hiff := hs.inv.satisfied_iff ht hw
  refine ⟨(hs.inv.late (hs.inv.waits hw)).2.2, hiff, ?_⟩
  intro hok
  simp only [hiff, opens_eq_tries hok]

end Rendezvous

def twoTasks : List Region := [⟨2, 0, 0x1000, 0x2000⟩, ⟨1, 0, 0x1000, 0x2000⟩]

theorem two_tasks_meet : ∃ si, collectAll twoTasks = some si ∧ Tally twoTasks si ∧
    ∀ s, Reachable twoTasks si s → s.pc si.pid = .waiting → s.fd = true ∧
      (s.lock = target si ↔ ∀ p ≠ si.pid, tries s p = regionsOf twoTasks p) ∧
      ((∀ e ∈ s.log, e.2 = true) →
        (s.lock = target si ↔ ∀ p ≠ si.pid, opens s p = regionsOf twoTasks p)) :=
  shmem_rendezvous (cons_ne_nil _ _)

/-- The second task counts itself though it could not open the file. -/
theorem failed_open_counts : ∃ si, collectAll twoTasks = some si ∧
    ¬ ∀ s, Reachable twoTasks si s → s.pc si.pid = .waiting →
      (s.lock = target si ↔ ∀ p ≠ si.pid, opens s p = regionsOf twoTasks p) := by
  refine ⟨⟨1, 0x1000, 2, 1⟩, by decide, fun h => ?_⟩
  have hcreate := Reach.next (e := (1, true)) (.start rfl : Reachable twoTasks ⟨1, 0x1000, 2, 1⟩ _)
    trivial rfl
  have hwait := Reach.next (e := (1, true)) hcreate trivial rfl
  have hopen := Reach.next (e := (2, false)) hwait trivial rfl
  have hcount := Reach.next (e := (2, true)) hopen trivial rfl
  exact absurd ((h _ hcount rfl).mp rfl 2 (by decide)) (by decide)

section Progress

variable {si : ShmemInfo} {s t : State} {p : ℕ} {ok : Bool}

/-- Until the futex is counted up, the owner is at its first region. -/
def Untouched (rs : List Region) (owner : ℕ) (s : State) : Prop :=
  s.lock = 0 → s.pc owner = .idle → s.fd = false ∧ s.todo owner = regionsOf rs owner


theorem Untouched.next (h : Untouched rs si.pid s) (hs : next si s p ok = some t) :
    Untouched rs si.pid t := by
  intro hl hi
  unfold ShmemRendezvous.next at hs
  split at hs <;> rename_i hpc
  · split at hs
    · cases hs
    split at hs <;> rename_i hp
    · split at hs
      · cases hs
      · cases hs
        contradiction
    obtain rfl := not_not.mp hp
    split at hs <;> rename_i hfd <;> cases hs
    · simp [(h hl hpc).1] at hfd
    · cases ok <;> simp at hi
  · cases hs
    cases hl
  · cases hs
    cases hl
  · split at hs <;> rename_i hw <;> cases hs
    rw [target] at hw
    change s.lock = 0 at hl
    omega
  · cases hs

theorem Reachable.untouched (h : Reachable rs si s) : Untouched rs si.pid s := by
  refine Reach.invariant ?_ (fun _ _ _ _ hi _ hstep => hi.next hstep) h
  rintro s rfl
  exact fun _ _ => ⟨rfl, rfl⟩

/-- The tasks never wait for each other for ever: when none of them can go on and none has failed,
each has opened all its regions. -/
theorem rendezvous_never_stuck {rs : List Region} {si : ShmemInfo} (hsi : collectAll rs = some si)
    {s : State} (hs : Reachable rs si s)
    (hstuck : ∀ p ∈ rs.map Region.pid, ∀ ok, next si s p ok = none)
    (hok : ∀ p ∈ rs.map Region.pid, s.pc p ≠ .failed) :
    ∀ p ∈ rs.map Region.pid, s.pc p = .idle ∧ s.todo p = 0 := by
  have ht : Tally rs si := by
    obtain ⟨si', hsi', ht⟩ := collectAll_tally (show rs ≠ [] by rintro rfl; cases hsi)
    exact Option.some.inj (hsi'.symm.trans hsi) ▸ ht
  have hinv := hs.inv
  -- the others can only be held up by the futex
  have hother : ∀ p ∈ rs.map Region.pid, p ≠ si.pid →
      s.pc p = .idle ∧ (s.lock ≠ 0 → s.todo p = 0) := by
    intro p hp hne
    have hnone := hstuck p hp true
    unfold next at hnone
    split at hnone <;> rename_i hpc
    · refine ⟨hpc, fun hl => ?_⟩
      split at hnone
      · assumption
      · simp [hne, hl] at hnone
    · cases hnone
    · cases hnone
    · exact absurd hpc (hinv.roles p hne).2
    · exact absurd hpc (hok p hp)
  have hown : s.pc si.pid = .idle ∧ s.todo si.pid = 0 := by
    have hnone := hstuck _ ht.mem true
    unfold next at hnone
    split at hnone <;> rename_i hpc
    · refine ⟨hpc, ?_⟩
      split at hnone
      · assumption
      · split at hnone
        · contradiction
        · split at hnone <;> cases hnone
    · cases hnone
    · cases hnone
    · -- all the others are through, so the wait is over
      have hl := hinv.waits hpc
      rw [if_pos] at hnone
      · cases hnone
      refine (hinv.satisfied_iff ht hpc).mpr fun p hp => ?_
      have hc := hinv.counts p hp
      by_cases hmem : p ∈ rs.map Region.pid
      · obtain ⟨hidle, htodo⟩ := hother p hmem hp
        rwa [hidle, htodo hl] at hc
      · have : regionsOf rs p = 0 := count_eq_zero.mpr hmem
        omega
    · exact absurd hpc (hok _ ht.mem)
  have hl : s.lock ≠ 0 := by
    intro hl
    have htodo := (hs.untouched hl hown.1).2
    have hpos : 0 < regionsOf rs si.pid := count_pos_iff.mpr ht.mem
    omega
  intro p hp
  by_cases hne : p = si.pid
  · rwa [hne]
  · exact ⟨(hother p hp hne).1, (hother p hp hne).2 hl⟩

theorem two_tasks_done : ∃ s, Reachable twoTasks ⟨1, 0x1000, 2, 1⟩ s ∧ s.log = [(2, true)] ∧
    ∀ p ∈ twoTasks.map Region.pid, s.pc p = .idle ∧ s.todo p = 0 := by
  have hcreate := Reach.next (e := (1, true)) (.start rfl : Reachable twoTasks ⟨1, 0x1000, 2, 1⟩ _)
    trivial rfl
  have hwait := Reach.next (e := (1, true)) hcreate trivial rfl
  have hopen := Reach.next (e := (2, true)) hwait trivial rfl
  have hcount := Reach.next (e := (2, true)) hopen trivial rfl
  have hdone := Reach.next (e := (1, true)) hcount trivial rfl
  exact ⟨_, hdone, rfl, rendezvous_never_stuck (by decide) hdone (by decide) (by decide)⟩

end Progress

end Criu.ShmemRendezvous

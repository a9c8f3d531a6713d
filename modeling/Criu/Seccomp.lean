import Mathlib.Algebra.GroupWithZero.Nat
import Criu.SeccompWalk

/-!
Seccomp filters of threads (criu/seccomp.c, criu/pie/restorer.c). On dump the filters of all
threads are read by ptrace, pushed on a chain each, and written as one array in which every
filter but the newest of a thread refers to the one before it. If the threads of a task have
equal chains, only the leader keeps its chain, marked to be installed in all of them. On
restore each thread follows the references from its own position and installs what it finds.
-/

namespace Criu.Seccomp

open List

variable {tid : ℕ}

inductive Mode
  | disabled
  | strict
  | filter
deriving DecidableEq, Repr

/-- A BPF program, by its `struct sock_filter`s. -/
abbrev Program := List (BitVec 64)

abbrev Flags := BitVec 32

def flagTsync : Flags := 1

structure Filter where
  program : Program
  flags : Flags
deriving DecidableEq, Repr

structure ImgFilter where
  filter : Filter
  prev : Option ℕ
deriving DecidableEq, Repr

/-- `struct seccomp_entry`; the chain has the filter that was collected last in front. -/
structure Entry where
  mode : Mode
  chain : List Filter
  imgFilterPos : ℕ
deriving DecidableEq, Repr

structure Tree where
  tids : List ℕ
  nodup : tids.Nodup
  entry : ℕ → Entry

variable {t t' : Tree}

def Tree.update (t : Tree) (tid : ℕ) (e : Entry) : Tree :=
  { t with entry := Function.update t.entry tid e }

def Tree.find (t : Tree) (tid : ℕ) : Option Entry :=
  if tid ∈ t.tids then some (t.entry tid) else none

/-- A thread as the kernel has it: ptrace reports the filters in the order of installation. -/
structure Thread where
  tid : ℕ
  mode : Mode
  reported : List Filter
deriving DecidableEq, Repr

structure Task where
  pid : ℕ
  dead : Bool
  threads : List Thread
deriving DecidableEq, Repr

def Thread.filters (th : Thread) : List Filter := if th.mode = .filter then th.reported else []

/-! ### Dump -/

/-- `collect_filter`: each filter is put in front of the chain. -/
def collectFilter (th : Thread) (e : Entry) : Entry :=
  if e.mode = .filter then
    { e with chain := th.reported.foldl (fun chain f => f :: chain) e.chain }
  else e

/-- The loop over two chains in `try_use_tsync`. -/
def sameChain : List Filter → List Filter → Bool
  | a :: as, b :: bs => if a.program = b.program then sameChain as bs else false
  | _, _ => true

def likeLeader (leader e : Entry) : Bool :=
  if e.mode ≠ leader.mode ∨ e.chain.length ≠ leader.chain.length then false
  else sameChain leader.chain e.chain

def tsync (f : Filter) : Filter := { f with flags := f.flags ||| flagTsync }

/-- The mark on all filters of the leader. -/
def Entry.markTsync (e : Entry) : Entry := { e with chain := e.chain.map tsync }

/-- A thread whose filters come from the leader: `seccomp_free_chain` and no mode. -/
def Entry.disable (e : Entry) : Entry := { e with mode := .disabled, chain := [] }

/-- The second loop of `try_use_tsync`. -/
def disableOthers (pid : ℕ) : List Thread → Tree → Tree
  | [], t => t
  | th :: rest, t =>
      if th.tid = pid then disableOthers pid rest t
      else disableOthers pid rest (t.update th.tid (t.entry th.tid).disable)

def tryUseTsync (t : Tree) (task : Task) : Tree :=
  let leader := t.entry task.pid
  if leader.mode ≠ .filter then t
  else if ∀ th ∈ task.threads, th.tid = task.pid ∨ likeLeader leader (t.entry th.tid) = true then
    disableOthers task.pid task.threads (t.update task.pid leader.markTsync)
  else t

/-- The loop of `collect_filters` over the threads. -/
def collectThreads (t : Tree) : List Thread → Option Tree
  | [] => some t
  | th :: rest => do
      let e ← t.find th.tid
      collectThreads (t.update th.tid (collectFilter th e)) rest

def collectFilters (t : Tree) (task : Task) : Option Tree :=
  if task.dead then some t
  else do
    let _ ← t.find task.pid
    let t' ← collectThreads t task.threads
    some (tryUseTsync t' task)

/-- The inner loop of `dump_seccomp_filters`: the filters of a chain at their positions. -/
def dumpChain (nrChains : ℕ) : List Filter → Bool → List ImgFilter → Option (List ImgFilter)
  | [], _, img => some img
  | f :: chain, first, img =>
      if nrChains ≤ img.length then none
      else dumpChain nrChains chain false
        (img ++ [⟨f, if first then none else some (img.length - 1)⟩])

def dumpEntry (nrChains : ℕ) (s : Tree × List ImgFilter) (tid : ℕ) :
    Option (Tree × List ImgFilter) :=
  let e := s.1.entry tid
  if e.chain = [] then some s
  else do
    let img ← dumpChain nrChains e.chain true s.2
    some (s.1.update tid { e with imgFilterPos := img.length - 1 }, img)

def dumpSeccompFilters (t : Tree) : Option (Tree × List ImgFilter) :=
  let nrChains := (t.tids.map (fun tid => (t.entry tid).chain.length)).sum
  t.tids.foldlM (dumpEntry nrChains) (t, [])

def seccompCollectDumpFilters (t : Tree) (tasks : List Task) : Option (Tree × List ImgFilter) := do
  let t' ← tasks.foldlM collectFilters t
  dumpSeccompFilters t'

structure ThreadCore where
  seccompMode : Option Mode
  seccompFilter : Option ℕ
deriving DecidableEq, Repr

def seccompDumpThread (t : Tree) (tid : ℕ) : Option ThreadCore := do
  let e ← t.find tid
  if e.mode = .disabled then some ⟨none, none⟩
  else if e.mode = .filter then some ⟨some e.mode, some e.imgFilterPos⟩
  else some ⟨some e.mode, none⟩

/-! ### Restore -/

/-- What `seccomp_prepare_threads` does for one thread. A program has whole `struct sock_filter`s,
and the references of the image lead on as many times as it has filters, or for ever. -/
def prepareThread (img : List ImgFilter) (core : ThreadCore) : Option (List Filter) := do
  let filters ← (SeccompWalk.prepareThread (fun _ => true) ImgFilter.prev img (img.length + 1)
    ⟨core.seccompMode.getD .disabled = .filter, core.seccompFilter.getD 0, true⟩).join
  filters.mapM (·.map ImgFilter.filter)

def seccompPrepareThreads (img : List ImgFilter) (cores : List ThreadCore) :
    Option (List (List Filter)) :=
  cores.mapM (prepareThread img)

/-- A call of `seccomp` by a thread. -/
structure Install where
  tid : ℕ
  filter : Filter
deriving DecidableEq, Repr

/-- The calls of `restore_seccomp_filter`. -/
def restoreSeccompFilter (forceTsync : Bool) (tid : ℕ) (filters : List Filter) : List Install :=
  filters.map (fun f =>
    ⟨tid, { f with flags := f.flags ||| (if forceTsync then flagTsync else 0) }⟩)

/-- What the calls of a task leave in a thread: its own filters and those for all threads. -/
def installedIn (calls : List Install) (tid : ℕ) : List Filter :=
  (calls.filter (fun c => c.tid = tid ∨ c.filter.flags &&& flagTsync ≠ 0)).map (·.filter)

/-! ### Collecting -/

theorem update_entry (t : Tree) (tid : ℕ) (e : Entry) (x : ℕ) :
    (t.update tid e).entry x = if x = tid then e else t.entry x := by
  simp [Tree.update, Function.update_apply]

theorem find_of_mem (h : tid ∈ t.tids) : t.find tid = some (t.entry tid) := by
  simp [Tree.find, h]

theorem sameChain_iff {as bs : List Filter} (h : as.length = bs.length) :
    sameChain as bs = true ↔ bs.map (·.program) = as.map (·.program) := by
  induction as generalizing bs with
  | nil =>
    have hb : bs = [] := length_eq_zero_iff.mp h.symm
    simp [hb, sameChain]
  | cons a as ih =>
    cases bs with
    | nil => cases h
    | cons b bs =>
      rw [sameChain]
      by_cases hab : a.program = b.program
      · rw [if_pos hab, ih (Nat.succ.inj h)]
        simp [hab]
      · rw [if_neg hab]
        simp [Ne.symm hab]

theorem likeLeader_iff (leader e : Entry) : likeLeader leader e = true ↔
    e.mode = leader.mode ∧ e.chain.map (·.program) = leader.chain.map (·.program) := by
  rw [likeLeader]
  by_cases h : e.mode ≠ leader.mode ∨ e.chain.length ≠ leader.chain.length
  · rw [if_pos h]
    refine ⟨fun h => (nomatch h), fun ⟨hm, hp⟩ => ?_⟩
    have hlen := congrArg List.length hp
    rw [length_map, length_map] at hlen
    rcases h with h | h
    · exact absurd hm h
    · exact absurd hlen h
  · obtain ⟨hm, hlen⟩ := not_or.mp h
    rw [if_neg h, sameChain_iff (not_not.mp hlen).symm]
    exact ⟨fun hp => ⟨not_not.mp hm, hp⟩, fun hp => hp.2⟩

section Collect

variable {threads : List Thread} {task : Task} {tasks : List Task}

def Thread.collected (th : Thread) : Entry := ⟨th.mode, th.filters.reverse, 0⟩

def Thread.seized (th : Thread) : Entry := ⟨th.mode, [], 0⟩

theorem collectFilter_seized (th : Thread) : collectFilter th th.seized = th.collected := by
  rw [collectFilter, Thread.collected, Thread.filters, Thread.seized]
  by_cases h : th.mode = .filter <;> simp [h]

def Fresh (t : Tree) (threads : List Thread) : Prop :=
  ∀ th ∈ threads, th.tid ∈ t.tids ∧ t.entry th.tid = th.seized

theorem collectThreads_spec (hnd : (threads.map (·.tid)).Nodup) (hf : Fresh t threads) :
    ∃ t', collectThreads t threads = some t' ∧ t'.tids = t.tids ∧
      (∀ th ∈ threads, t'.entry th.tid = th.collected) ∧
      ∀ x, (∀ th ∈ threads, th.tid ≠ x) → t'.entry x = t.entry x := by
  induction threads generalizing t with
  | nil => exact ⟨t, rfl, rfl, by simp, fun _ _ => rfl⟩
  | cons th threads ih =>
    rw [map_cons, nodup_cons] at hnd
    obtain ⟨⟨hmem, hentry⟩, hf⟩ := forall_mem_cons.mp hf
    have hne : ∀ th' ∈ threads, th'.tid ≠ th.tid :=
      fun th' h heq => hnd.1 (heq ▸ mem_map_of_mem h)
    have hf' : Fresh (t.update th.tid th.collected) threads := by
      intro th' h
      obtain ⟨hm, he⟩ := hf th' h
      exact ⟨hm, by rw [update_entry, if_neg (hne th' h), he]⟩
    obtain ⟨t', ht', htids, hall, hkeep⟩ := ih hnd.2 hf'
    refine ⟨t', ?_, htids, forall_mem_cons.mpr ⟨?_, hall⟩, fun x hx => ?_⟩
    · rw [collectThreads, find_of_mem hmem, hentry]
      simpa only [Option.bind_eq_bind, Option.bind_some, collectFilter_seized] using ht'
    · rw [hkeep _ hne, update_entry, if_pos rfl]
    · obtain ⟨hth, hx⟩ := forall_mem_cons.mp hx
      rw [hkeep x hx, update_entry, if_neg hth.symm]

def Merged (task : Task) : Prop :=
  ∀ ld ∈ task.threads, ld.tid = task.pid → ∀ th ∈ task.threads,
    th.mode = .filter ∧ th.reported.map (·.program) = ld.reported.map (·.program)

instance (task : Task) : Decidable (Merged task) :=
  inferInstanceAs (Decidable (∀ ld ∈ task.threads, ld.tid = task.pid → ∀ th ∈ task.threads, _ ∧ _))

/-- The entry of a thread after `collect_filters`. -/
def finalEntry (task : Task) (th : Thread) : Entry :=
  if Merged task then
    if th.tid = task.pid then ⟨.filter, (th.reported.map tsync).reverse, 0⟩ else ⟨.disabled, [], 0⟩
  else th.collected

theorem disableOthers_spec (pid : ℕ) (threads : List Thread) (t : Tree) :
    (disableOthers pid threads t).tids = t.tids ∧ (∀ th ∈ threads, th.tid ≠ pid →
        (disableOthers pid threads t).entry th.tid = (t.entry th.tid).disable) ∧
      ∀ x, (x = pid ∨ ∀ th ∈ threads, th.tid ≠ x) →
        (disableOthers pid threads t).entry x = t.entry x := by
  induction threads generalizing t with
  | nil => exact ⟨rfl, by simp, fun _ _ => rfl⟩
  | cons th threads ih =>
    rw [disableOthers]
    by_cases hp : th.tid = pid
    · rw [if_pos hp]
      obtain ⟨htids, hall, hkeep⟩ := ih t
      exact ⟨htids, forall_mem_cons.mpr ⟨absurd hp, hall⟩,
        fun x hx => hkeep x (hx.imp_right fun h => (forall_mem_cons.mp h).2)⟩
    rw [if_neg hp]
    obtain ⟨htids, hall, hkeep⟩ := ih (t.update th.tid (t.entry th.tid).disable)
    refine ⟨htids, fun th' h hne => ?_, fun x hx => ?_⟩
    · -- a thread is disabled once more without a change
      by_cases hin : ∃ th'' ∈ threads, th''.tid = th'.tid
      · obtain ⟨th'', h'', heq⟩ := hin
        rw [← heq, hall th'' h'' (heq ▸ hne), update_entry]
        split
        · next h => rw [h]; rfl
        · rfl
      · rcases mem_cons.mp h with rfl | h
        · rw [hkeep _ (.inr (fun th'' h'' heq => hin ⟨th'', h'', heq⟩)), update_entry, if_pos rfl]
        · exact absurd ⟨th', h, rfl⟩ hin
    · rw [forall_mem_cons] at hx
      have hne : x ≠ th.tid := by
        rintro rfl
        exact hx.elim hp fun h => h.1 rfl
      rw [hkeep x (hx.imp_right And.right), update_entry, if_neg hne]

/-- The condition of `try_use_tsync`, for threads whose filters were collected. -/
theorem merged_iff {ld : Thread} (hld : ld ∈ task.threads) (hpid : ld.tid = task.pid)
    (hnd : (task.threads.map (·.tid)).Nodup)
    (hall : ∀ th ∈ task.threads, t.entry th.tid = th.collected) : Merged task ↔
    (t.entry task.pid).mode = .filter ∧ ∀ th ∈ task.threads,
      th.tid = task.pid ∨ likeLeader (t.entry task.pid) (t.entry th.tid) = true := by
  have huniq : ∀ th ∈ task.threads, th.tid = task.pid → th = ld := fun th h heq =>
    inj_on_of_nodup_map hnd h hld (heq.trans hpid.symm)
  rw [← hpid, hall ld hld]
  constructor
  · intro h
    have hm : ld.mode = .filter := (h ld hld hpid ld hld).1
    refine ⟨hm, fun th hth => ?_⟩
    by_cases heq : th.tid = ld.tid
    · exact .inl heq
    obtain ⟨hmode, hprog⟩ := h ld hld hpid th hth
    refine .inr ((likeLeader_iff _ _).mpr ⟨?_, ?_⟩)
    · rw [hall th hth]
      exact hmode.trans hm.symm
    · rw [hall th hth]
      simp only [Thread.collected, Thread.filters, hmode, hm, if_true, map_reverse, hprog]
  rintro ⟨hm, h⟩ ld' hld' hpid' th hth
  obtain rfl := huniq ld' hld' hpid'
  have hm' : ld'.mode = .filter := hm
  rcases h th hth with heq | hlike
  · obtain rfl := huniq th hth (heq.trans hpid)
    exact ⟨hm', rfl⟩
  rw [hall th hth, likeLeader_iff] at hlike
  obtain ⟨hmode, hprog⟩ := hlike
  have hmode' : th.mode = .filter := hmode.trans hm'
  simp only [Thread.collected, Thread.filters, hmode', hm', map_reverse,
    reverse_inj] at hprog
  exact ⟨hmode', hprog⟩

theorem collectFilters_spec (hlive : task.dead = false) (hnd : (task.threads.map (·.tid)).Nodup)
    (hld : ∃ ld ∈ task.threads, ld.tid = task.pid) (hf : Fresh t task.threads) :
    ∃ t', collectFilters t task = some t' ∧ t'.tids = t.tids ∧
      (∀ th ∈ task.threads, t'.entry th.tid = finalEntry task th) ∧
      ∀ x, (∀ th ∈ task.threads, th.tid ≠ x) → t'.entry x = t.entry x := by
  obtain ⟨ld, hldm, hpid⟩ := hld
  obtain ⟨t₁, ht₁, htids, hall, hkeep⟩ := collectThreads_spec hnd hf
  have hmem : task.pid ∈ t.tids := hpid ▸ (hf ld hldm).1
  have hcollect : collectFilters t task = some (tryUseTsync t₁ task) := by
    rw [collectFilters, hlive, find_of_mem hmem, ht₁]
    rfl
  refine ⟨tryUseTsync t₁ task, hcollect, ?_⟩
  have hiff := merged_iff hldm hpid hnd hall
  rw [tryUseTsync]
  by_cases hm : Merged task
  · obtain ⟨hmode, hlike⟩ := hiff.mp hm
    simp only [hmode, ne_eq, not_true_eq_false, if_false]
    rw [if_pos hlike]
    obtain ⟨htids', hdis, hsame⟩ := disableOthers_spec task.pid task.threads
      (t₁.update task.pid (t₁.entry task.pid).markTsync)
    refine ⟨htids'.trans htids, fun th hth => ?_, fun x hx => ?_⟩
    · rw [finalEntry, if_pos hm]
      by_cases heq : th.tid = task.pid
      · have hth' : th.mode = .filter := (hm ld hldm hpid th hth).1
        have he : t₁.entry task.pid = th.collected := heq ▸ hall th hth
        rw [heq, hsame _ (.inl rfl), update_entry, he]
        simp [Entry.markTsync, Thread.collected, Thread.filters, hth']
      · rw [if_neg heq, hdis th hth heq, update_entry, if_neg heq, hall th hth]
        rfl
    · have hxp : x ≠ task.pid := fun h => hx ld hldm (hpid.trans h.symm)
      rw [hsame x (.inr hx), update_entry, if_neg hxp, hkeep x hx]
  · have hsame : tryUseTsync t₁ task = t₁ := by
      rw [tryUseTsync]
      by_cases hmode : (t₁.entry task.pid).mode = .filter
      · have hno := fun h => hm (hiff.mpr ⟨hmode, h⟩)
        simp only [hmode, ne_eq, not_true_eq_false, if_false]
        rw [if_neg hno]
      · simp only [ne_eq, hmode, not_false_eq_true, if_true]
    rw [tryUseTsync] at hsame
    rw [hsame]
    refine ⟨htids, fun th hth => ?_, hkeep⟩
    rw [hall th hth, finalEntry, if_neg hm]

def liveTids (tasks : List Task) : List ℕ :=
  (tasks.filter (fun task => !task.dead)).flatMap (fun task => task.threads.map (·.tid))

/-- All threads of the live tasks were seized, under different tids, the leaders among them. -/
structure Seized (t : Tree) (tasks : List Task) : Prop where
  distinct : (liveTids tasks).Nodup
  fresh : ∀ task ∈ tasks, task.dead = false → Fresh t task.threads
  leader : ∀ task ∈ tasks, task.dead = false → ∃ ld ∈ task.threads, ld.tid = task.pid

theorem collectAll_spec (h : Seized t tasks) :
    ∃ t', tasks.foldlM collectFilters t = some t' ∧ t'.tids = t.tids ∧
      (∀ task ∈ tasks, task.dead = false → ∀ th ∈ task.threads,
        t'.entry th.tid = finalEntry task th) ∧
      ∀ x, x ∉ liveTids tasks → t'.entry x = t.entry x := by
  induction tasks generalizing t with
  | nil => exact ⟨t, rfl, rfl, by simp, fun _ _ => rfl⟩
  | cons task tasks ih =>
    obtain ⟨hfresh, hfreshs⟩ := forall_mem_cons.mp h.fresh
    obtain ⟨hleader, hleaders⟩ := forall_mem_cons.mp h.leader
    cases hlive : task.dead with
    | true =>
      have hl : liveTids (task :: tasks) = liveTids tasks := by simp [liveTids, hlive]
      obtain ⟨t', ht', htids, hall, hkeep⟩ := ih ⟨hl ▸ h.distinct, hfreshs, hleaders⟩
      refine ⟨t', ?_, htids, forall_mem_cons.mpr ⟨fun hno => ?_, hall⟩, hl ▸ hkeep⟩
      · rw [foldlM_cons, collectFilters, if_pos hlive]
        exact ht'
      · exact nomatch hlive.symm.trans hno
    | false =>
      have hl : liveTids (task :: tasks) = task.threads.map (·.tid) ++ liveTids tasks := by
        simp [liveTids, hlive]
      have hd := h.distinct
      rw [hl, nodup_append] at hd
      obtain ⟨hnd, hnd', hdis⟩ := hd
      obtain ⟨t₁, ht₁, htids₁, hall₁, hkeep₁⟩ :=
        collectFilters_spec hlive hnd (hleader hlive) (hfresh hlive)
      have hother : ∀ x ∈ liveTids tasks, t₁.entry x = t.entry x := fun x hx =>
        hkeep₁ x (fun th hth heq => hdis _ (mem_map_of_mem hth) x hx heq)
      have hmem : ∀ x ∈ tasks, x.dead = false → ∀ th ∈ x.threads, th.tid ∈ liveTids tasks := by
        intro x hx hxl th hth
        refine mem_flatMap.mpr ⟨x, mem_filter.mpr ⟨hx, by simp [hxl]⟩, ?_⟩
        exact mem_map_of_mem hth
      obtain ⟨t', ht', htids, hall, hkeep⟩ := ih ⟨hnd', fun x hx hxl th hth => by
          obtain ⟨hm, he⟩ := hfreshs x hx hxl th hth
          exact ⟨htids₁ ▸ hm, (hother _ (hmem x hx hxl th hth)).trans he⟩, hleaders⟩
      refine ⟨t', ?_, htids.trans htids₁, forall_mem_cons.mpr ⟨fun _ th hth => ?_, hall⟩,
        fun x hx => ?_⟩
      · rw [foldlM_cons, ht₁]
        exact ht'
      · rw [hkeep _ (fun hin => hdis _ (mem_map_of_mem hth) _ hin rfl)]
        exact hall₁ th hth
      · rw [hl, mem_append, not_or] at hx
        rw [hkeep x hx.2]
        exact hkeep₁ x (fun th hth heq => hx.1 (heq ▸ mem_map_of_mem hth))

end Collect

/-! ### The array of the image -/

section Image

variable {img img' : List ImgFilter} {chain : List Filter}

def block (pos : ℕ) (first : Bool) : List Filter → List ImgFilter
  | [] => []
  | f :: chain => ⟨f, if first then none else some (pos - 1)⟩ :: block (pos + 1) false chain

@[simp] theorem length_block (pos : ℕ) (first : Bool) (chain : List Filter) :
    (block pos first chain).length = chain.length := by
  induction chain generalizing pos first with
  | nil => rfl
  | cons f chain ih => simp [block, ih]

variable {f : Filter} {n pos i fuel : ℕ}

theorem dumpChain_eq {first : Bool} (h : img.length + chain.length ≤ n) :
    dumpChain n chain first img = some (img ++ block img.length first chain) := by
  induction chain generalizing img first with
  | nil => simp [dumpChain, block]
  | cons f chain ih =>
    rw [length_cons] at h
    rw [dumpChain, if_neg (by omega), ih (by simp; omega)]
    simp [block]

/-- The filter at an index of a chain in the array, and what it refers to. -/
theorem block_getElem? (pos i : ℕ) (first : Bool) (h : chain[i]? = some f) :
    (block pos first chain)[i]? =
      some ⟨f, if first = true ∧ i = 0 then none else some (pos + i - 1)⟩ := by
  induction chain generalizing pos i first with
  | nil => simp at h
  | cons g chain ih =>
    cases i with
    | zero =>
      obtain rfl : g = f := by simpa using h
      simp [block]
    | succ i =>
      rw [block, getElem?_cons_succ, ih (pos + 1) i false h]
      simp only [Bool.false_eq_true, false_and, Nat.succ_ne_zero, and_false]
      rw [show pos + 1 + i - 1 = pos + (i + 1) - 1 by omega]

/-- The chain stands in the array from `pos` on. -/
def Stands (img : List ImgFilter) (pos : ℕ) (chain : List Filter) : Prop :=
  ∃ pre post, img = pre ++ block pos true chain ++ post ∧ pre.length = pos

theorem Stands.append (h : Stands img n chain) (more : List ImgFilter) :
    Stands (img ++ more) n chain := by
  obtain ⟨pre, post, rfl, hpos⟩ := h
  exact ⟨pre, post ++ more, by simp, hpos⟩

theorem Stands.getElem? (h : Stands img pos chain) (hi : chain[i]? = some f) :
    img[pos + i]? = some ⟨f, if i = 0 then none else some (pos + i - 1)⟩ := by
  obtain ⟨pre, post, rfl, rfl⟩ := h
  obtain ⟨hlt, -⟩ := List.getElem?_eq_some_iff.mp hi
  rw [append_assoc, getElem?_append_right (by omega), Nat.add_sub_cancel_left,
    getElem?_append_left (by simpa using hlt), block_getElem? _ i true hi]
  simp

structure Written (img : List ImgFilter) (e e' : Entry) : Prop where
  mode : e'.mode = e.mode
  empty : e.chain = [] → e' = e
  chain : e.chain ≠ [] → ∃ pos, Stands img pos e.chain ∧
    e'.imgFilterPos = pos + (e.chain.length - 1)

theorem Written.append {e e' : Entry} (h : Written img e e') (more : List ImgFilter) :
    Written (img ++ more) e e' := by
  refine ⟨h.mode, h.empty, fun hne => ?_⟩
  obtain ⟨pos, hst, hpos⟩ := h.chain hne
  exact ⟨pos, hst.append more, hpos⟩

theorem dumpEntry_spec (h : img.length + (t.entry tid).chain.length ≤ n) :
    ∃ t' more, dumpEntry n (t, img) tid = some (t', img ++ more) ∧ t'.tids = t.tids ∧
      more.length = (t.entry tid).chain.length ∧
      Written (img ++ more) (t.entry tid) (t'.entry tid) ∧
      ∀ x, x ≠ tid → t'.entry x = t.entry x := by
  rw [dumpEntry]
  by_cases hnil : (t.entry tid).chain = []
  · refine ⟨t, [], ?_, rfl, by simp [hnil], ⟨rfl, fun _ => rfl, fun h => absurd hnil h⟩,
      fun _ _ => rfl⟩
    rw [append_nil, if_pos hnil]
  have hpos : 0 < (t.entry tid).chain.length := length_pos_of_ne_nil hnil
  refine ⟨t.update tid { t.entry tid with
      imgFilterPos := (img ++ block img.length true (t.entry tid).chain).length - 1 },
    block img.length true (t.entry tid).chain, ?_, rfl, length_block .., ?_, fun x hx => ?_⟩
  · rw [if_neg hnil, dumpChain_eq h]
    rfl
  · rw [update_entry, if_pos rfl]
    refine ⟨rfl, fun h => absurd h hnil, fun _ => ⟨img.length, ⟨img, [], by simp, rfl⟩, ?_⟩⟩
    simp only [length_append, length_block]
    omega
  · rw [update_entry, if_neg hx]

theorem dumpEntries_spec {l : List ℕ} (hnd : l.Nodup)
    (h : img.length + (l.map (fun tid => (t.entry tid).chain.length)).sum ≤ n) :
    ∃ t' more, l.foldlM (dumpEntry n) (t, img) = some (t', img ++ more) ∧ t'.tids = t.tids ∧
      (∀ tid ∈ l, Written (img ++ more) (t.entry tid) (t'.entry tid)) ∧
      ∀ x, x ∉ l → t'.entry x = t.entry x := by
  induction l generalizing t img with
  | nil => exact ⟨t, [], by simp, rfl, by simp, fun _ _ => rfl⟩
  | cons tid l ih =>
    rw [nodup_cons] at hnd
    rw [map_cons, sum_cons] at h
    obtain ⟨t₁, more₁, hd, htids₁, hlen, hw, hkeep₁⟩ :=
      dumpEntry_spec (show img.length + (t.entry tid).chain.length ≤ n by omega)
    have hsame : ∀ x ∈ l, t₁.entry x = t.entry x := fun x hx =>
      hkeep₁ x (fun heq => hnd.1 (heq ▸ hx))
    have hsum : l.map (fun tid => (t₁.entry tid).chain.length) =
        l.map (fun tid => (t.entry tid).chain.length) :=
      map_congr_left (fun x hx => by rw [hsame x hx])
    have hroom : (img ++ more₁).length +
        (l.map (fun tid => (t₁.entry tid).chain.length)).sum ≤ n := by
      rw [hsum, length_append]
      omega
    obtain ⟨t', more, hf, htids, hall, hkeep⟩ := ih hnd.2 hroom
    refine ⟨t', more₁ ++ more, ?_, htids.trans htids₁, ?_, fun x hx => ?_⟩
    · rw [foldlM_cons, hd, ← append_assoc]
      exact hf
    · rw [← append_assoc]
      refine forall_mem_cons.mpr ⟨?_, fun x hx => hsame x hx ▸ hall x hx⟩
      rw [hkeep tid hnd.1]
      exact hw.append more
    · rw [mem_cons, not_or] at hx
      rw [hkeep x hx.2, hkeep₁ x hx.1]

theorem dumpSeccompFilters_spec (t : Tree) :
    ∃ t' img, dumpSeccompFilters t = some (t', img) ∧ t'.tids = t.tids ∧
      ∀ tid ∈ t.tids, Written img (t.entry tid) (t'.entry tid) := by
  have hroom : ([] : List ImgFilter).length +
      (t.tids.map (fun tid => (t.entry tid).chain.length)).sum ≤
        (t.tids.map (fun tid => (t.entry tid).chain.length)).sum :=
    Nat.le_of_eq (Nat.zero_add _)
  obtain ⟨t', img, hf, htids, hall, -⟩ := dumpEntries_spec t.nodup hroom
  exact ⟨t', img, hf, htids, hall⟩

/-! ### Following the references -/

theorem countFilters_stands (h : Stands img pos chain)
    (hi : chain[i]? = some f) (hfuel : i < fuel) (n : ℕ) :
    SeccompWalk.countFilters (fun _ => true) ImgFilter.prev img fuel
      ⟨f, if i = 0 then none else some (pos + i - 1)⟩ n = some (some (n + i)) := by
  induction i generalizing f fuel n with
  | zero =>
    obtain ⟨fuel, rfl⟩ := Nat.exists_eq_succ_of_ne_zero (show fuel ≠ 0 by omega)
    simp [SeccompWalk.countFilters]
  | succ i ih =>
    obtain ⟨fuel, rfl⟩ := Nat.exists_eq_succ_of_ne_zero (show fuel ≠ 0 by omega)
    obtain ⟨hlt, -⟩ := List.getElem?_eq_some_iff.mp hi
    have hi' : chain[i]? = some chain[i] := getElem?_eq_getElem (by omega)
    rw [if_neg (Nat.succ_ne_zero i), SeccompWalk.countFilters,
      show pos + (i + 1) - 1 = pos + i by omega]
    simp only [SeccompWalk.checked, h.getElem? hi', Option.filter_some, if_true]
    rw [ih hi' (by omega) (n + 1)]
    congr 2
    omega

theorem copyFilters_stands (h : Stands img pos chain) (hi : chain[i]? = some f) :
    (SeccompWalk.copyFilters ImgFilter.prev img (i + 1)
      (some ⟨f, if i = 0 then none else some (pos + i - 1)⟩)).mapM (·.map ImgFilter.filter) =
        some (chain.take (i + 1)).reverse := by
  induction i generalizing f with
  | zero =>
    obtain ⟨g, chain, rfl⟩ := exists_cons_of_ne_nil (show chain ≠ [] by rintro rfl; simp at hi)
    obtain rfl : g = f := by simpa using hi
    simp [SeccompWalk.copyFilters]
  | succ i ih =>
    obtain ⟨hlt, hf⟩ := List.getElem?_eq_some_iff.mp hi
    have hi' : chain[i]? = some chain[i] := getElem?_eq_getElem (by omega)
    rw [if_neg (Nat.succ_ne_zero i), SeccompWalk.copyFilters, Option.bind_some, Option.getD_some,
      show pos + (i + 1) - 1 = pos + i by omega, h.getElem? hi', mapM_cons, ih hi',
      take_succ_eq_append_getElem hlt, hf, reverse_append]
    rfl

/-- A thread gets its chain back in the order of installation. -/
theorem prepareThread_stands (h : Stands img pos chain) (hne : chain ≠ []) :
    prepareThread img ⟨some .filter, some (pos + (chain.length - 1))⟩ = some chain.reverse := by
  have hlen : 0 < chain.length := length_pos_of_ne_nil hne
  have hi : chain[chain.length - 1]? = some chain[chain.length - 1] :=
    getElem?_eq_getElem (by omega)
  have hfuel : chain.length - 1 < img.length + 1 := by
    obtain ⟨pre, post, rfl, -⟩ := h
    simp
    omega
  simp only [prepareThread, SeccompWalk.prepareThread, SeccompWalk.checked, Option.getD_some,
    decide_true, Bool.not_true, Bool.false_eq_true, if_false, h.getElem? hi, Option.filter_some,
    if_true, countFilters_stands h hi hfuel 1, Option.map_some, Option.bind_eq_bind,
    Option.bind_some, Option.join_some]
  rw [Nat.add_comm 1, copyFilters_stands h hi, Nat.sub_add_cancel hlen, take_length]

/-- A thread in filter mode is given at least one filter, its own or another thread's. -/
theorem prepareThread_ne_nil {core : ThreadCore} {fs : List Filter}
    (hmode : core.seccompMode = some .filter) (h : prepareThread img core = some fs) :
    fs ≠ [] := by
  obtain ⟨filters, hwalk, h⟩ := Option.bind_eq_some_iff.mp h
  have hne := SeccompWalk.prepareThread_ne_nil (by simp [hmode]) (Option.join_eq_some_iff.mp hwalk)
  obtain ⟨f, filters, rfl⟩ := exists_cons_of_ne_nil hne
  obtain ⟨g, -, h⟩ := Option.bind_eq_some_iff.mp (mapM_cons.symm.trans h)
  obtain ⟨gs, -, h⟩ := Option.bind_eq_some_iff.mp h
  rw [← Option.some.inj h]
  exact cons_ne_nil g gs

end Image

end Criu.Seccomp

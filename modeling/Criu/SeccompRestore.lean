import Criu.Seccomp

/-!
What the threads of a task end up with after a dump and a restore of their seccomp filters.
The calls of the threads can come in any order. Each thread gets its own filters back,
whatever else was dumped with it, unless the threads were merged although the flags of
their filters differ, or a filter was reported with the flag that installs it everywhere.
-/

namespace Criu.SeccompRestore

open Seccomp List

variable {th : Thread} {t : Tree} {img : List ImgFilter}

def plain (f : Filter) : Filter := { f with flags := f.flags &&& ~~~flagTsync }

structure Interleaves (threads : List Thread) (args : List (List Filter))
    (calls : List Install) : Prop where
  own : List.Forall₂ (fun th fs =>
    calls.filter (fun c => c.tid = th.tid) = restoreSeccompFilter false th.tid fs) threads args
  known : ∀ c ∈ calls, ∃ th ∈ threads, c.tid = th.tid

/-- The filters of all threads of a task survive: whatever the order of the calls, each thread has
the filters it had, and one in filter mode has some. -/
def Survives (t : Tree) (img : List ImgFilter) (task : Task) : Prop :=
  ∃ cores args, task.threads.mapM (fun th => seccompDumpThread t th.tid) = some cores ∧
    seccompPrepareThreads img cores = some args ∧
    ∀ calls, Interleaves task.threads args calls → ∀ th ∈ task.threads,
      (installedIn calls th.tid).map plain = th.filters.map plain ∧
      (th.mode = .filter → installedIn calls th.tid ≠ [])

structure Faithful (task : Task) : Prop where
  some : ∀ th ∈ task.threads, th.mode = .filter → th.reported ≠ []
  merged : Merged task → ∀ ld ∈ task.threads, ld.tid = task.pid → ∀ th ∈ task.threads,
    th.reported.map plain = ld.reported.map plain
  apart : ¬ Merged task → ∀ th ∈ task.threads, ∀ f ∈ th.filters, f.flags &&& flagTsync = 0

/-! ### Flags -/

theorem plain_tsync (f : Filter) : plain (tsync f) = plain f := by
  have h : (f.flags ||| flagTsync) &&& ~~~flagTsync = f.flags &&& ~~~flagTsync := by
    ext i hi
    simp only [BitVec.getElem_and, BitVec.getElem_or, BitVec.getElem_not]
    cases flagTsync[i] <;> simp
  simp only [plain, tsync, h]

theorem tsync_flag (f : Filter) : (tsync f).flags &&& flagTsync ≠ 0 := by
  intro h
  have h0 : ((f.flags ||| flagTsync) &&& flagTsync)[0] = (0 : BitVec 32)[0] := by
    rw [show (f.flags ||| flagTsync) &&& flagTsync = 0 from h]
  simp [flagTsync] at h0

/-- Without the old kind of image the flags are left alone. -/
theorem restore_false (tid : ℕ) (fs : List Filter) :
    restoreSeccompFilter false tid fs = fs.map (fun f => ⟨tid, f⟩) := by
  simp [restoreSeccompFilter]

/-! ### The arguments of the threads -/

variable {fs : List Filter} {threads : List Thread} {α β : Type}

theorem mapM_eq_some_iff {f : α → Option β} {l : List α} {r : List β} :
    l.mapM f = some r ↔ List.Forall₂ (fun a b => f a = some b) l r := by
  induction l generalizing r with
  | nil => simp
  | cons a l ih =>
    rw [mapM_cons]
    constructor
    · intro h
      obtain ⟨b, hb, h⟩ := Option.bind_eq_some_iff.mp h
      obtain ⟨bs, hbs, h⟩ := Option.bind_eq_some_iff.mp h
      obtain rfl : b :: bs = r := Option.some.inj h
      exact .cons hb (ih.mp hbs)
    · rintro (_ | ⟨hb, hbs⟩)
      rw [hb, ih.mpr hbs]
      rfl

def given (t : Tree) (img : List ImgFilter) (th : Thread) : Option (List Filter) :=
  (seccompDumpThread t th.tid).bind (prepareThread img)

theorem exists_args_iff {args : List (List Filter)} :
    (∃ cores, threads.mapM (fun th => seccompDumpThread t th.tid) = some cores ∧
      seccompPrepareThreads img cores = some args) ↔
      List.Forall₂ (fun th fs => given t img th = some fs) threads args := by
  simp only [seccompPrepareThreads, mapM_eq_some_iff]
  constructor
  · rintro ⟨cores, h1, h2⟩
    induction h1 generalizing args with
    | nil => cases h2; exact .nil
    | cons ha _ ih =>
      cases h2 with
      | cons hb h2 => exact .cons (by rw [given, ha]; exact hb) (ih h2)
  intro h
  induction h with
  | nil => exact ⟨[], .nil, .nil⟩
  | cons ha _ ih =>
    obtain ⟨core, hc, hf⟩ := Option.bind_eq_some_iff.mp ha
    obtain ⟨cores, h1, h2⟩ := ih
    exact ⟨core :: cores, .cons hc h1, .cons hf h2⟩

theorem exists_of_forall₂ {R S : α → β → Prop} {l : List α} {r : List β}
    (hR : List.Forall₂ R l r) (hS : List.Forall₂ S l r) : ∀ a ∈ l, ∃ b, R a b ∧ S a b := by
  induction hR with
  | nil => simp
  | cons hab _ ih =>
    cases hS with
    | cons hab' hS =>
      exact forall_mem_cons.mpr ⟨⟨_, hab, hab'⟩, ih hS⟩

section Given

variable {e : Entry}

theorem given_none (hmem : th.tid ∈ t.tids) (hw : Written img e (t.entry th.tid))
    (hmode : e.mode ≠ .filter) : given t img th = some [] := by
  have hm : (t.entry th.tid).mode ≠ .filter := hw.mode ▸ hmode
  rw [given, seccompDumpThread, find_of_mem hmem]
  by_cases hd : (t.entry th.tid).mode = .disabled
  · simp [hd, prepareThread, SeccompWalk.prepareThread]
  · simp [hd, prepareThread, SeccompWalk.prepareThread, hm]

theorem given_chain (hmem : th.tid ∈ t.tids) (hw : Written img e (t.entry th.tid))
    (hmode : e.mode = .filter) (hne : e.chain ≠ []) : given t img th = some e.chain.reverse := by
  have hm : (t.entry th.tid).mode = .filter := hw.mode.trans hmode
  obtain ⟨pos, hst, hpos⟩ := hw.chain hne
  rw [given, seccompDumpThread, find_of_mem hmem]
  simp only [Option.bind_eq_bind, Option.bind_some, hm, hpos]
  exact prepareThread_stands hst hne

end Given

/-- The threads of a task are written as `collect_filters` left them. -/
structure Dumped (t : Tree) (img : List ImgFilter) (task : Task) : Prop where
  distinct : (task.threads.map (·.tid)).Nodup
  leader : ∃ ld ∈ task.threads, ld.tid = task.pid
  written : ∀ th ∈ task.threads, th.tid ∈ t.tids ∧
    Written img (finalEntry task th) (t.entry th.tid)

section Survives

variable {task : Task} {args : List (List Filter)} {calls : List Install}

/-- Threads that were not merged are given their own filters. -/
theorem Dumped.given_apart (h : Dumped t img task) (hm : ¬ Merged task)
    (hsome : ∀ th ∈ task.threads, th.mode = .filter → th.reported ≠ []) :
    ∀ th ∈ task.threads, given t img th = some th.filters := by
  intro th hth
  obtain ⟨hmem, hw⟩ := h.written th hth
  rw [finalEntry, if_neg hm] at hw
  by_cases hmode : th.mode = .filter
  · have hne : th.collected.chain ≠ [] := by
      simpa [Thread.collected, Thread.filters, hmode] using hsome th hth hmode
    rw [given_chain hmem hw hmode hne, Thread.collected, reverse_reverse]
  · rw [given_none hmem hw hmode, Thread.filters, if_neg hmode]

/-- Of merged threads only the leader is given filters. -/
theorem Dumped.given_merged (h : Dumped t img task) (hm : Merged task)
    (hsome : ∀ th ∈ task.threads, th.mode = .filter → th.reported ≠ []) :
    ∀ th ∈ task.threads,
      given t img th = some (if th.tid = task.pid then th.reported.map tsync else []) := by
  intro th hth
  obtain ⟨ld, hld, hpid⟩ := h.leader
  obtain ⟨hmem, hw⟩ := h.written th hth
  rw [finalEntry, if_pos hm] at hw
  by_cases heq : th.tid = task.pid
  · rw [if_pos heq] at hw ⊢
    have hne : (th.reported.map tsync).reverse ≠ [] := by
      simpa using hsome th hth (hm ld hld hpid th hth).1
    rw [given_chain hmem hw rfl hne, reverse_reverse]
  · rw [if_neg heq] at hw ⊢
    exact given_none hmem hw (by simp)

/-- The calls one thread after the other are one possible order. -/
theorem exists_interleaves (hnd : (threads.map (·.tid)).Nodup)
    (hlen : threads.length = args.length) : ∃ calls, Interleaves threads args calls := by
  induction threads generalizing args with
  | nil =>
    obtain rfl : args = [] := length_eq_zero_iff.mp hlen.symm
    exact ⟨[], .nil, by simp⟩
  | cons th threads ih =>
    cases args with
    | nil => cases hlen
    | cons fs args =>
      rw [map_cons, nodup_cons] at hnd
      obtain ⟨calls, hown, hknown⟩ := ih hnd.2 (Nat.succ.inj hlen)
      have hne : ∀ th' ∈ threads, th'.tid ≠ th.tid :=
        fun th' h heq => hnd.1 (heq ▸ mem_map_of_mem h)
      have hrest : calls.filter (fun c => c.tid = th.tid) = [] := by
        refine filter_eq_nil_iff.mpr (fun c hc htid => ?_)
        obtain ⟨th', h', heq⟩ := hknown c hc
        exact hne th' h' (heq.symm.trans (by simpa using htid))
      have hself : ∀ tid, tid ≠ th.tid →
          (restoreSeccompFilter false th.tid fs).filter (fun c => c.tid = tid) = [] := by
        intro tid hne'
        rw [restore_false]
        simp [Ne.symm hne']
      refine ⟨restoreSeccompFilter false th.tid fs ++ calls, .cons ?_ ?_, fun c hc => ?_⟩
      · rw [filter_append, hrest, restore_false]
        simp
      · refine (forall₂_iff_zip.mpr ⟨hown.length_eq, fun {th' fs'} h' => ?_⟩)
        rw [filter_append, hself _ (hne th' (of_mem_zip h').1)]
        exact (forall₂_iff_zip.mp hown).2 h'
      rcases mem_append.mp hc with hc | hc
      · obtain ⟨f, -, rfl⟩ := mem_map.mp hc
        exact ⟨th, mem_cons_self .., rfl⟩
      · obtain ⟨th', h', heq⟩ := hknown c hc
        exact ⟨th', mem_cons_of_mem _ h', heq⟩

/-- The calls of a thread, for any order of all calls. -/
theorem Interleaves.filter_eq (hi : Interleaves task.threads args calls)
    (hg : List.Forall₂ (fun th fs => given t img th = some fs) task.threads args)
    (hth : th ∈ task.threads) (hfs : given t img th = some fs) :
    calls.filter (fun c => c.tid = th.tid) = fs.map (fun f => ⟨th.tid, f⟩) := by
  obtain ⟨fs', hown, hgiven⟩ := exists_of_forall₂ hi.own hg th hth
  rw [hgiven, Option.some.injEq] at hfs
  rw [hown, restore_false, hfs]

/-- If only the leader is given filters, all calls are the leader's. -/
theorem Interleaves.installed_merged (hi : Interleaves task.threads args calls)
    (hg : List.Forall₂ (fun th fs => given t img th = some fs) task.threads args) {ld : Thread}
    (hld : ld ∈ task.threads) (hpid : ld.tid = task.pid) (hgiven : ∀ th ∈ task.threads,
      given t img th = some (if th.tid = task.pid then th.reported.map tsync else [])) (tid :
    ℕ) : installedIn calls tid = ld.reported.map tsync := by
  have hall : ∀ c ∈ calls, c.tid = ld.tid := by
    intro c hc
    obtain ⟨th, hth, heq⟩ := hi.known c hc
    by_contra hne
    have hnil := hi.filter_eq hg hth (hgiven th hth)
    rw [if_neg (fun h => hne (heq.trans (h.trans hpid.symm)))] at hnil
    have hmem : c ∈ calls.filter (fun c => c.tid = th.tid) :=
      mem_filter.mpr ⟨hc, by simpa using heq⟩
    rw [hnil] at hmem
    cases hmem
  have hcalls : calls = (ld.reported.map tsync).map (fun f => ⟨ld.tid, f⟩) := by
    have h := hi.filter_eq hg hld (hgiven ld hld)
    rw [if_pos hpid] at h
    rw [← h]
    exact (filter_eq_self.mpr (fun c hc => by simpa using hall c hc)).symm
  have hflag : ∀ c ∈ calls, c.filter.flags &&& flagTsync ≠ 0 := by
    intro c hc
    rw [hcalls] at hc
    obtain ⟨f, hf, rfl⟩ := mem_map.mp hc
    obtain ⟨g, -, rfl⟩ := mem_map.mp hf
    exact tsync_flag g
  rw [installedIn, filter_eq_self.mpr (fun c hc => by simpa using .inr (hflag c hc)), hcalls,
    map_map]
  exact map_id _

theorem survives_of_faithful (h : Dumped t img task) (hf : Faithful task) :
    Survives t img task := by
  obtain ⟨ld, hld, hpid⟩ := h.leader
  by_cases hm : Merged task
  · have hgiven := h.given_merged hm hf.some
    have hg : List.Forall₂ (fun th fs => given t img th = some fs) task.threads
        (task.threads.map (fun th => if th.tid = task.pid then th.reported.map tsync else [])) := by
      rw [forall₂_map_right_iff, forall₂_same]
      exact hgiven
    obtain ⟨cores, hc, ha⟩ := exists_args_iff.mpr hg
    refine ⟨cores, _, hc, ha, fun calls hi th hth => ?_⟩
    have hinst := hi.installed_merged hg hld hpid hgiven th.tid
    have hmode := (hm ld hld hpid th hth).1
    refine ⟨?_, fun _ => ?_⟩
    · rw [hinst, Thread.filters, if_pos hmode, hf.merged hm ld hld hpid th hth, map_map]
      exact map_congr_left (fun f _ => plain_tsync f)
    · rw [hinst]
      simpa using hf.some ld hld (hm ld hld hpid ld hld).1
  have hgiven := h.given_apart hm hf.some
  have hg : List.Forall₂ (fun th fs => given t img th = some fs) task.threads
      (task.threads.map Thread.filters) := by
    rw [forall₂_map_right_iff, forall₂_same]
    exact hgiven
  obtain ⟨cores, hc, ha⟩ := exists_args_iff.mpr hg
  refine ⟨cores, _, hc, ha, fun calls hi th hth => ?_⟩
  -- no call reaches another thread
  have hflag : ∀ c ∈ calls, c.filter.flags &&& flagTsync = 0 := by
    intro c hcm
    obtain ⟨th', hth', heq⟩ := hi.known c hcm
    have hmem : c ∈ calls.filter (fun c => c.tid = th'.tid) :=
      mem_filter.mpr ⟨hcm, by simpa using heq⟩
    rw [hi.filter_eq hg hth' (hgiven th' hth')] at hmem
    obtain ⟨f, hfm, rfl⟩ := mem_map.mp hmem
    exact hf.apart hm th' hth' f hfm
  have hinst : installedIn calls th.tid = th.filters := by
    have hown : calls.filter (fun c => c.tid = th.tid ∨ c.filter.flags &&& flagTsync ≠ 0) =
        calls.filter (fun c => c.tid = th.tid) := by
      refine filter_congr (fun c hcm => ?_)
      simp [hflag c hcm]
    rw [installedIn, hown, hi.filter_eq hg hth (hgiven th hth), map_map]
    exact map_id _
  refine ⟨by rw [hinst], fun hmode => ?_⟩
  rw [hinst, Thread.filters, if_pos hmode]
  exact hf.some th hth hmode

theorem mem_installedIn (hi : Interleaves task.threads args calls)
    (hg : List.Forall₂ (fun th fs => given t img th = some fs) task.threads args)
    (hth : th ∈ task.threads) (hfs : given t img th = some fs) (hne : fs ≠ []) :
    installedIn calls th.tid ≠ [] := by
  obtain ⟨f, fs, rfl⟩ := exists_cons_of_ne_nil hne
  have hmem : (⟨th.tid, f⟩) ∈ calls.filter (fun c => c.tid = th.tid) := by
    rw [hi.filter_eq hg hth hfs]
    exact mem_cons_self ..
  have hc := (mem_filter.mp hmem).1
  refine ne_nil_of_mem (mem_map.mpr ⟨⟨th.tid, f⟩, ?_, rfl⟩)
  exact mem_filter.mpr ⟨hc, by simp⟩

theorem faithful_of_survives (h : Dumped t img task) (hs : Survives t img task) :
    Faithful task := by
  obtain ⟨ld, hld, hpid⟩ := h.leader
  obtain ⟨cores, args, hc, ha, hall⟩ := hs
  have hg := exists_args_iff.mp ⟨cores, hc, ha⟩
  obtain ⟨calls, hi⟩ := exists_interleaves h.distinct hg.length_eq
  have hres := hall calls hi
  -- a thread in filter mode without filters would be given some of another thread
  have hsome : ∀ th ∈ task.threads, th.mode = .filter → th.reported ≠ [] := by
    intro th hth hmode hnil
    have hbad : ∀ w ∈ task.threads, (finalEntry task w).mode = .filter → w.filters ≠ [] := by
      intro w hw hwm hwf
      obtain ⟨hmem, hwr⟩ := h.written w hw
      obtain ⟨fs, hfs, -⟩ := exists_of_forall₂ hg hg w hw
      have hgiven := hfs
      have hm : (t.entry w.tid).mode = .filter := hwr.mode.trans hwm
      rw [given, seccompDumpThread, find_of_mem hmem] at hgiven
      simp only [Option.bind_eq_bind, Option.bind_some, hm]
        at hgiven
      have hne := mem_installedIn hi hg hw hfs (prepareThread_ne_nil rfl hgiven)
      have heq := (hres w hw).1
      rw [hwf, map_nil, map_eq_nil_iff] at heq
      exact hne heq
    by_cases hm : Merged task
    · refine hbad ld hld (by rw [finalEntry, if_pos hm, if_pos hpid]) ?_
      have hprog := (hm ld hld hpid th hth).2
      rw [hnil] at hprog
      rw [Thread.filters, if_pos (hm ld hld hpid ld hld).1]
      exact map_eq_nil_iff.mp hprog.symm
    · refine hbad th hth (by rw [finalEntry, if_neg hm]; exact hmode) ?_
      rw [Thread.filters, if_pos hmode, hnil]
  refine ⟨hsome, fun hm ld' hld' hpid' th hth => ?_, fun hm th hth f hfm => ?_⟩
  · have hinst := hi.installed_merged hg hld' hpid' (h.given_merged hm hsome) th.tid
    have heq := (hres th hth).1
    rw [hinst, Thread.filters, if_pos (hm ld' hld' hpid' th hth).1, map_map] at heq
    rw [← heq]
    exact map_congr_left (fun f _ => plain_tsync f)
  by_contra hflag
  have hgiven := h.given_apart hm hsome
  -- there is another thread, which gets the filter on top of its own
  obtain ⟨w, hw, hne⟩ : ∃ w ∈ task.threads, w.tid ≠ th.tid := by
    by_contra hno
    have hno : ∀ w ∈ task.threads, w.tid = th.tid := fun w hw => by
      by_contra hne
      exact hno ⟨w, hw, hne⟩
    have hthf : th.mode = .filter := by
      by_contra hmode
      rw [Thread.filters, if_neg hmode] at hfm
      cases hfm
    have huniq : ∀ x ∈ task.threads, x = th := fun x hx =>
      inj_on_of_nodup_map h.distinct hx hth (hno x hx)
    refine hm (fun x hx _ y hy => ?_)
    rw [huniq x hx, huniq y hy]
    exact ⟨hthf, rfl⟩
  have hown := hi.filter_eq hg hw (hgiven w hw)
  have hcall : (⟨th.tid, f⟩) ∈ calls := by
    have hmem : (⟨th.tid, f⟩) ∈ calls.filter (fun c => c.tid = th.tid) := by
      rw [hi.filter_eq hg hth (hgiven th hth)]
      exact mem_map_of_mem hfm
    exact (mem_filter.mp hmem).1
  have hsub : (calls.filter (fun c => c.tid = w.tid)).Sublist
      (calls.filter (fun c => c.tid = w.tid ∨ c.filter.flags &&& flagTsync ≠ 0)) :=
    monotone_filter_right _ (fun c hcw => by simpa using .inl (by simpa using hcw))
  have hlen : (calls.filter (fun c => c.tid = w.tid ∨
      c.filter.flags &&& flagTsync ≠ 0)).length = w.filters.length := by
    have := congrArg List.length (hres w hw).1
    simpa [installedIn] using this
  have hsame := hsub.eq_of_length (by rw [hlen, hown, length_map])
  have hmem : (⟨th.tid, f⟩) ∈ calls.filter (fun c => c.tid = w.tid) := by
    rw [hsame]
    exact mem_filter.mpr ⟨hcall, by simpa using .inr hflag⟩
  have heq : th.tid = w.tid := by simpa using (mem_filter.mp hmem).2
  exact hne heq.symm

/-- A dump of seized tasks writes every thread as it was collected. -/
theorem seccompCollectDumpFilters_dumped {tasks : List Task} (h : Seized t tasks) :
    ∃ t' img, seccompCollectDumpFilters t tasks = some (t', img) ∧
      ∀ task ∈ tasks, task.dead = false → Dumped t' img task := by
  obtain ⟨t₁, hcollect, htids₁, hfinal, -⟩ := collectAll_spec h
  obtain ⟨t', img, hdump, htids, hwritten⟩ := dumpSeccompFilters_spec t₁
  refine ⟨t', img, ?_, fun task htask hlive => ⟨?_, h.leader task htask hlive, fun th hth => ?_⟩⟩
  · rw [seccompCollectDumpFilters, hcollect]
    exact hdump
  · have hd := nodup_flatMap.mp h.distinct
    exact hd.1 task (mem_filter.mpr ⟨htask, by simp [hlive]⟩)
  · have hmem : th.tid ∈ t₁.tids := htids₁ ▸ (h.fresh task htask hlive th hth).1
    refine ⟨htids ▸ hmem, ?_⟩
    rw [← hfinal task htask hlive th hth]
    exact hwritten th.tid hmem

/-- Exactly the tasks with faithful reports keep the filters of their threads. -/
theorem seccomp_filters_survive {tasks : List Task} (h : Seized t tasks) :
    ∃ t' img, seccompCollectDumpFilters t tasks = some (t', img) ∧
      ∀ task ∈ tasks, task.dead = false → (Survives t' img task ↔ Faithful task) := by
  obtain ⟨t', img, hdump, hall⟩ := seccompCollectDumpFilters_dumped h
  refine ⟨t', img, hdump, fun task htask hlive => ?_⟩
  have hd := hall task htask hlive
  exact ⟨faithful_of_survives hd, survives_of_faithful hd⟩

end Survives

/-- Two threads with the same program, the flags of which are the same in one of the tasks. -/
def agreeingTask : Task where
  pid := 10
  dead := false
  threads := [⟨10, .filter, [⟨[6], 2⟩]⟩, ⟨11, .filter, [⟨[6], 2⟩]⟩]

def loggingTask : Task where
  pid := 20
  dead := false
  threads := [⟨20, .filter, [⟨[6], 2⟩]⟩, ⟨21, .filter, [⟨[6], 0⟩]⟩]

def seizedTree : Tree where
  tids := [10, 11, 20, 21]
  nodup := by decide
  entry _ := ⟨.filter, [], 0⟩

theorem seizedTree_seized : Seized seizedTree [agreeingTask, loggingTask] :=
  ⟨by decide, by unfold Fresh; decide, by decide⟩

theorem agreeing_task_survives : Seized seizedTree [agreeingTask, loggingTask] ∧ ∃ t' img,
    seccompCollectDumpFilters seizedTree [agreeingTask, loggingTask] = some (t', img) ∧
      Survives t' img agreeingTask := by
  obtain ⟨t', img, hdump, hall⟩ := seccomp_filters_survive seizedTree_seized
  refine ⟨seizedTree_seized, t', img, hdump, (hall agreeingTask mem_cons_self rfl).mpr ?_⟩
  exact ⟨by decide, by decide, fun hm => absurd (by decide) hm⟩

/-- The second thread gets the flag of the first one's filter. -/
theorem logging_task_merged : ∃ t' img,
    seccompCollectDumpFilters seizedTree [agreeingTask, loggingTask] = some (t', img) ∧
      ¬ Survives t' img loggingTask := by
  obtain ⟨t', img, hdump, hall⟩ := seccompCollectDumpFilters_dumped seizedTree_seized
  refine ⟨t', img, hdump, fun hs => ?_⟩
  have hf := faithful_of_survives (hall loggingTask (by decide) rfl) hs
  have heq := hf.merged (by decide) _ mem_cons_self rfl ⟨21, .filter, [⟨[6], 0⟩]⟩ (by decide)
  revert heq
  decide

end Criu.SeccompRestore

import Mathlib.Data.List.Forall2
import Criu.AsyncQueue

/-!
Delivery of page data by a chain of `page_read` levels. Each level keeps the image
it was opened on above its frontier, although auto-dedup punches below it. A read
is delivered when the bytes are in memory or promised by the queued jobs; reads
into consecutive windows compose and a read of the parents is one of the chain.
-/

namespace Criu.Delivery

open Pagemap ReadCursor PageIo AsyncQueue Blit

variable {mem : ℕ → UInt8} {pr' pr : PageRead} {prs prs' parents : List PageRead}
  {origs : List PagesImage} {kernel : ℕ → ℕ → ℕ} {jobs : List PageReadIov} {orig : PagesImage}
  {b : UInt8} {a : ℕ}

structure SameCursor (pr pr' : PageRead) : Prop where
  pmes : pr'.pmes = pr.pmes
  nextPme : pr'.nextPme = pr.nextPme
  pe : pr'.pe = pr.pe
  cvaddr : pr'.cvaddr = pr.cvaddr
  piOff : pr'.piOff = pr.piOff

namespace SameCursor

theorem refl (pr : PageRead) : SameCursor pr pr := ⟨rfl, rfl, rfl, rfl, rfl⟩

theorem trans {a b c : PageRead} (h : SameCursor a b) (h' : SameCursor b c) : SameCursor a c :=
  ⟨h'.pmes.trans h.pmes, h'.nextPme.trans h.nextPme, h'.pe.trans h.pe,
    h'.cvaddr.trans h.cvaddr, h'.piOff.trans h.piOff⟩

theorem exists_eq (h : SameCursor pr pr') :
    ∃ pi bunch async, pr' = { pr with pi := pi, bunch := bunch, async := async } := by
  obtain ⟨_, _, _, _, _, pi, bunch, async⟩ := pr'
  obtain ⟨rfl, rfl, rfl, rfl, rfl⟩ := h
  exact ⟨pi, bunch, async, rfl⟩

theorem ready {v : ℕ} (h : SameCursor pr pr') (hr : Ready pr v) : Ready pr' v := by
  obtain ⟨_, _, _, rfl⟩ := h.exists_eq
  cases hr with
  | fresh hf => exact .fresh { hf with }
  | inside pre post e hat hpre hcv => exact .inside pre post e { hat with } hpre hcv

end SameCursor

theorem punchHole_sameCursor (pr : PageRead) (off len : ℕ) (cleanup : Bool) :
    SameCursor pr (punchHole pr off len cleanup) := by
  unfold punchHole
  split <;> exact ⟨rfl, rfl, rfl, rfl, rfl⟩

@[simp] theorem punchHole_async (pr : PageRead) (off len : ℕ) (cleanup : Bool) :
    (punchHole pr off len cleanup).async = pr.async := by
  unfold punchHole
  split <;> rfl

@[simp] theorem punchHole_size (pr : PageRead) (off len : ℕ) (cleanup : Bool) :
    (punchHole pr off len cleanup).pi.size = pr.pi.size := by
  unfold punchHole
  split
  · rfl
  · split <;> rfl

/-- Punching below an offset leaves the image above it alone. -/
theorem punchHole_above (pr : PageRead) (off len : ℕ) (cleanup : Bool) {u : ℕ}
    (hb : pr.bunch.base + pr.bunch.len ≤ u) (ho : off + len ≤ u) :
    (punchHole pr off len cleanup).bunch.base + (punchHole pr off len cleanup).bunch.len ≤ u ∧
      ∀ o, u ≤ o → (punchHole pr off len cleanup).pi.data o = pr.pi.data o := by
  unfold punchHole
  split
  · rename_i hext
    simp only [canExtendBunch, Bool.and_eq_true, beq_iff_eq] at hext
    refine ⟨?_, fun o _ => rfl⟩
    simp only
    omega
  refine ⟨ho, ?_⟩
  intro o hle
  split
  · exact wipe_outside _ _ (by omega)
  · rfl

/-- Reading with or without punching moves no cursor, and leaves the image above alone. -/
theorem punched_above (autoDedup : Bool) (pr : PageRead) {off len u : ℕ}
    (hb : pr.bunch.base + pr.bunch.len ≤ u) (ho : off + len ≤ u) :
    let pr' := if autoDedup then punchHole pr off len false else pr
    SameCursor pr pr' ∧ pr'.async = pr.async ∧ pr'.pi.size = pr.pi.size ∧
      (∀ o, u ≤ o → pr'.pi.data o = pr.pi.data o) ∧ pr'.bunch.base + pr'.bunch.len ≤ u := by
  obtain ⟨hbunch, hdata⟩ := punchHole_above pr off len false hb ho
  cases autoDedup with
  | true => exact ⟨punchHole_sameCursor .., punchHole_async .., punchHole_size .., hdata, hbunch⟩
  | false => exact ⟨.refl pr, rfl, rfl, fun _ _ => rfl, hb⟩

/-- Every read call that asks for something returns something. -/
def Progress (kernel : ℕ → ℕ → ℕ) : Prop := ∀ k n, 0 < n → 0 < kernel k n

section Reads

variable (hk : Progress kernel)

include hk

theorem readRet_pos (img : PagesImage) (io : Io) {len off : ℕ} (hlen : 0 < len)
    (hoff : off < img.size) : 0 < readRet kernel img io len off := by
  have := hk io.calls len hlen
  unfold readRet
  omega

omit hk in
theorem readRet_le (kernel : ℕ → ℕ → ℕ) (img : PagesImage) (io : Io) (len off : ℕ) :
    readRet kernel img io len off ≤ len := by
  unfold readRet
  omega

/-- Any pattern of short results delivers the whole block. -/
theorem readLoop_ok (img : PagesImage) (buf len off : ℕ) (hsize : off + len ≤ img.size)
    (fuel curr : ℕ) (io : Io) (hcurr : curr < len) (hfuel : len - curr ≤ fuel) :
    ∃ io', readLoop kernel img buf len off fuel curr io = .ok io' ∧
      io'.mem = blit io.mem (buf + curr) img.data (off + curr) (len - curr) := by
  induction fuel generalizing curr io with
  | zero => omega
  | succ fuel ih =>
    have hpos : 0 < readRet kernel img io (len - curr) (off + curr) :=
      readRet_pos hk img io (by omega) (by omega)
    have hle := readRet_le kernel img io (len - curr) (off + curr)
    simp only [readLoop]
    set ret := readRet kernel img io (len - curr) (off + curr)
    rw [if_neg (by omega)]
    by_cases hdone : curr + ret = len
    · rw [if_pos hdone]
      refine ⟨_, rfl, ?_⟩
      have : len - curr = ret := by omega
      rw [pread, this]
    rw [if_neg hdone]
    obtain ⟨io', hio, hmem⟩ := ih (curr + ret)
      (pread img io (buf + curr) (off + curr) ret) (by omega) (by omega)
    refine ⟨io', hio, ?_⟩
    rw [hmem]
    have hsplit : len - curr = ret + (len - (curr + ret)) := by omega
    rw [hsplit, ← blit_append, pread]
    simp only [Nat.add_assoc]

/-- A job delivers its whole range whatever the short results are. -/
theorem jobLoop_ok {img : PagesImage} (src : ℕ → UInt8) (fuel : ℕ) (piov : PageReadIov) (io : Io)
    (hstop : piov.stop = piov.start + iovTotal piov.iovs)
    (hsize : piov.start < piov.stop → piov.stop ≤ img.size)
    (hdata : ∀ o, piov.start ≤ o → o < piov.stop → img.data o = src o)
    (hfuel : piov.stop - piov.start < fuel) :
    ∃ ret io', jobLoop kernel img fuel piov io = .ok (ret, io') ∧
      io'.mem = scatter io.mem piov.iovs src piov.start (piov.stop - piov.start) ∧
      ret ≤ piov.stop - piov.start := by
  induction fuel generalizing piov io with
  | zero => cases hfuel
  | succ fuel ih =>
    have hle := readRet_le kernel img io (iovTotal piov.iovs) piov.start
    have hpos : 0 < iovTotal piov.iovs →
        0 < readRet kernel img io (iovTotal piov.iovs) piov.start :=
      fun h => readRet_pos hk img io h (by omega)
    simp only [jobLoop]
    set ret := readRet kernel img io (iovTotal piov.iovs) piov.start
    have hsrc : ∀ mem, scatter mem piov.iovs img.data piov.start ret =
        scatter mem piov.iovs src piov.start ret := by
      intro mem
      exact scatter_congr_src mem piov.iovs (fun o hlo hhi => hdata o hlo (by omega))
    by_cases hdone : ret = piov.stop - piov.start
    · rw [if_neg (by omega)]
      refine ⟨ret, _, rfl, ?_, by omega⟩
      simp only [preadv, hsrc]
      rw [← hdone]
    rw [if_pos hdone]
    obtain ⟨ret', io', hio, hmem, hret⟩ := ih (advancePiov piov ret)
      (preadv img io piov.iovs piov.start ret)
      (by simp only [advancePiov, iovTotal_advance piov.iovs hle]; omega)
      (fun hlt => hsize (by omega))
      (fun o ho => hdata o (by simp only [advancePiov] at ho; omega))
      (by simp only [advancePiov]; omega)
    refine ⟨ret', io', hio, ?_, by simp only [advancePiov] at hret; omega⟩
    rw [hmem]
    simp only [advancePiov, preadv, hsrc]
    rw [scatter_advance]
    congr 1
    omega

/-- Processing a queue applies all its jobs, and whatever it punches lies below. -/
theorem asyncJobs_ok (autoDedup : Bool) {lo hi : ℕ}
    (hhi : hi ≤ orig.size) (io : Io) (hasync : pr.async = jobs) (hjobs : JobsIn lo hi jobs)
    (hsize : pr.pi.size = orig.size) (hdata : ∀ o, lo ≤ o → pr.pi.data o = orig.data o)
    (hbunch : pr.bunch.base + pr.bunch.len ≤ lo) :
    ∃ pr' io', asyncJobs kernel autoDedup jobs pr io = .ok (pr', io') ∧
      io'.mem = applyJobs orig.data jobs io.mem ∧ SameCursor pr pr' ∧ pr'.async = [] ∧
      pr'.pi.size = orig.size ∧ (∀ o, hi ≤ o → pr'.pi.data o = orig.data o) ∧
      pr'.bunch.base + pr'.bunch.len ≤ hi := by
  induction jobs generalizing pr io lo with
  | nil =>
    refine ⟨pr, io, rfl, rfl, .refl pr, hasync, hsize, ?_, le_trans hbunch hjobs⟩
    intro o ho
    exact hdata o (le_trans hjobs ho)
  | cons piov rest ih =>
    obtain ⟨hlo, hstop, hrest⟩ := hjobs
    have hle := jobsIn_le hrest
    obtain ⟨ret, io', hloop, hmem, hret⟩ := jobLoop_ok hk orig.data
      (piov.stop - piov.start + 1) piov io hstop (fun _ => by omega)
      (fun o ho _ => hdata o (le_trans hlo ho)) (by omega)
    simp only [asyncJobsWithin, hloop]
    set pr1 : PageRead := if autoDedup then punchHole pr piov.start ret false else pr with hpr1
    obtain ⟨hcur, -, hsize1, hdata1, hbunch1⟩ := @punched_above autoDedup pr piov.start
      ret piov.stop (by omega) (by omega)
    obtain ⟨pr', io'', hrun, hmem', hcur', hasync', hsize', hdata', hbunch'⟩ :=
      @ih { pr1 with async := rest } piov.stop io' rfl hrest (hsize1.trans hsize)
        (fun o ho => (hdata1 o ho).trans (hdata o (by omega))) hbunch1
    refine ⟨pr', io'', hrun, ?_, ?_, hasync', hsize', hdata', hbunch'⟩
    · rw [hmem', hmem]
      rfl
    · exact hcur.trans { hcur' with }

end Reads

def frontier (pr : PageRead) : ℕ := queueStart pr.piOff pr.async

/-- The level still holds, above its frontier, the image it was opened on. -/
structure LevelOk (orig : PagesImage) (pr : PageRead) : Prop where
  size : pr.pi.size = orig.size
  off : pr.piOff ≤ orig.size
  jobs : JobsIn (frontier pr) pr.piOff pr.async
  data : ∀ o, frontier pr ≤ o → pr.pi.data o = orig.data o
  bunch : pr.bunch.base + pr.bunch.len ≤ frontier pr

def pendingMem : List PagesImage → List PageRead → (ℕ → UInt8) → ℕ → UInt8
  | orig :: origs, pr :: prs, mem => pendingMem origs prs (applyJobs orig.data pr.async mem)
  | _, _, mem => mem

def ChainTargets (prs : List PageRead) (a : ℕ) : Prop := ∃ pr ∈ prs, Targets pr.async a

structure Flushed (pr pr' : PageRead) : Prop where
  cursor : SameCursor pr pr'
  async : pr'.async = []

section Chain

theorem openPageRead_levelOk (pmes : List PagemapEntry) (pi : PagesImage) :
    LevelOk pi (openPageRead pmes pi) :=
  ⟨rfl, Nat.zero_le _, le_refl _, fun _ _ => rfl, le_refl _⟩

theorem jobsIn_mono {lo hi hi' : ℕ} (h : JobsIn lo hi jobs)
    (hle : hi ≤ hi') : JobsIn lo hi' jobs := by
  induction jobs generalizing lo with
  | nil => exact le_trans h hle
  | cons j rest ih => exact ⟨h.1, h.2.1, ih h.2.2⟩

theorem LevelOk.forward (h : LevelOk orig pr) (hsame : SameFile pr pr')
    (hle : pr.piOff ≤ pr'.piOff) (hoff : pr'.piOff ≤ orig.size) : LevelOk orig pr' := by
  have hfront : frontier pr ≤ frontier pr' := by
    unfold frontier
    rw [hsame.async]
    cases pr.async with
    | nil => exact hle
    | cons j rest => exact le_refl _
  refine ⟨?_, hoff, ?_, ?_, ?_⟩
  · rw [hsame.pi]
    exact h.size
  · have hjobs := jobsIn_mono h.jobs hle
    unfold frontier at hjobs ⊢
    rw [hsame.async]
    cases hasync : pr.async with
    | nil => exact le_refl _
    | cons j rest =>
      rw [hasync] at hjobs
      exact hjobs
  · intro o ho
    rw [hsame.pi]
    exact h.data o (le_trans hfront ho)
  · rw [hsame.bunch]
    exact le_trans h.bunch hfront

theorem async_nil_of_flushed (h : List.Forall₂ Flushed prs prs') : ∀ q ∈ prs', q.async = [] := by
  induction h with
  | nil => simp
  | cons hpr _ ih => exact List.forall_mem_cons.mpr ⟨hpr.async, ih⟩

/-- A sync of the chain succeeds and leaves in memory what was pending. -/
theorem processAsyncReads_ok (hk : Progress kernel) (autoDedup : Bool)
    (h : List.Forall₂ LevelOk origs prs) (io : Io) :
    ∃ prs' io', processAsyncReads kernel autoDedup prs io = .ok (prs', io') ∧
      io'.mem = pendingMem origs prs io.mem ∧ List.Forall₂ Flushed prs prs' ∧
      List.Forall₂ LevelOk origs prs' := by
  induction h generalizing io with
  | nil => exact ⟨[], io, rfl, rfl, .nil, .nil⟩
  | @cons orig pr origs prs hlevel _ ih =>
    obtain ⟨pr', io', hrun, hmem, hcur, hasync, hsize, hdata, hbunch⟩ :=
      asyncJobs_ok hk autoDedup hlevel.off io rfl hlevel.jobs hlevel.size hlevel.data hlevel.bunch
    obtain ⟨prs', io'', hrun', hmem', hflushed, hlevels⟩ := ih io'
    have hfront : frontier pr' = pr.piOff := by
      simp [frontier, queueStart, hasync, hcur.piOff]
    refine ⟨pr' :: prs', io'', ?_, ?_, .cons ⟨hcur, hasync⟩ hflushed, .cons ?_ hlevels⟩
    · simp [processAsyncReadsWithin, hrun, hrun']
    · rw [hmem', hmem]
      rfl
    refine ⟨hsize, ?_, ?_, ?_, ?_⟩
    · rw [hcur.piOff]
      exact hlevel.off
    · rw [hasync, hfront, hcur.piOff]
      exact le_refl _
    · rw [hfront]
      exact hdata
    · rw [hfront]
      exact hbunch

/-- Every job of the level that writes to `a` leaves `b` there. -/
def LevelPromise (a : ℕ) (b : UInt8) (orig : PagesImage) (pr : PageRead) : Prop :=
  Targets pr.async a → ∀ mem, applyJobs orig.data pr.async mem a = b

/-- `b` is at address `a`, or will be when the queues are processed in any order. -/
structure Promised (origs : List PagesImage) (prs : List PageRead) (mem : ℕ → UInt8)
    (a : ℕ) (b : UInt8) : Prop where
  queued : List.Forall₂ (LevelPromise a b) origs prs
  stored : ¬ ChainTargets prs a → mem a = b

theorem pendingMem_of_promised (h : Promised origs prs mem a b) :
    pendingMem origs prs mem a = b := by
  obtain ⟨hqueued, hstored⟩ := h
  induction hqueued generalizing mem with
  | nil =>
    apply hstored
    rintro ⟨pr, hpr, -⟩
    simp at hpr
  | @cons orig pr origs prs hpr _ ih =>
    apply ih
    intro hnot
    by_cases ht : Targets pr.async a
    · exact hpr ht mem
    rw [applyJobs_untouched mem _ ht]
    apply hstored
    rintro ⟨q, hq, hqt⟩
    rcases List.mem_cons.mp hq with rfl | hq
    · exact ht hqt
    · exact hnot ⟨q, hq, hqt⟩

theorem promised_of_flushed (hlen : List.Forall₂ LevelOk origs prs) (h : ∀ pr ∈ prs, pr.async = [])
    (hb : mem a = b) : Promised origs prs mem a b := by
  refine ⟨?_, fun _ => hb⟩
  induction hlen with
  | nil => exact .nil
  | @cons orig pr origs prs _ _ ih =>
    refine .cons ?_ (ih (fun q hq => h q (List.mem_cons_of_mem _ hq)))
    rintro ⟨j, hj, -⟩
    rw [h pr List.mem_cons_self] at hj
    simp at hj

/-- A read of `len` bytes into `buf` delivers `val` there, at once or, when it may be
`async`, as soon as the queues are processed, and leaves every other destination alone. -/
structure Delivered (async : Bool) (origs : List PagesImage) (prs prs' : List PageRead)
    (mem mem' : ℕ → UInt8) (buf len : ℕ) (val : ℕ → UInt8) : Prop where
  levels : List.Forall₂ LevelOk origs prs'
  inside : ∀ i, i < len → ¬ ChainTargets prs (buf + i) →
    Promised origs prs' mem' (buf + i) (val i)
  outside : ∀ a b, ¬ (buf ≤ a ∧ a < buf + len) → Promised origs prs mem a b →
    Promised origs prs' mem' a b
  targets : ∀ a, ChainTargets prs' a →
    ChainTargets prs a ∨ (async = true ∧ buf ≤ a ∧ a < buf + len)

theorem chainTargets_cons :
    ChainTargets (pr :: prs) a ↔ Targets pr.async a ∨ ChainTargets prs a := by
  simp [ChainTargets]

/-- Levels that nothing targets promise everything. -/
theorem forall₂_promise_of_not_targets (hlen : List.Forall₂ LevelOk origs prs)
    (h : ¬ ChainTargets prs a) (b : UInt8) : List.Forall₂ (LevelPromise a b) origs prs := by
  induction hlen with
  | nil => exact .nil
  | cons _ _ ih =>
    rw [chainTargets_cons, not_or] at h
    exact .cons (fun ht => absurd ht h.1) (ih h.2)

/-- The asynchronous branch: the request is queued at the level's offset. -/
theorem enqueue_delivered (hlevel : LevelOk orig pr) (hparents : List.Forall₂ LevelOk origs parents)
    (mem : ℕ → UInt8) (buf len : ℕ) (hsize : pr.piOff + len ≤ orig.size) :
    Delivered true (orig :: origs) (pr :: parents) ({ pr with
        async := pagemapEnqueueIovec pr.piOff buf len pr.async
        piOff := pr.piOff + len } :: parents) mem mem buf len
      (fun i => orig.data (pr.piOff + i)) := by
  have hq := enqueue_queued orig.data buf len hlevel.jobs
  set pr' : PageRead := { pr with
    async := pagemapEnqueueIovec pr.piOff buf len pr.async
    piOff := pr.piOff + len } with hpr'
  have hfront : frontier pr' = frontier pr := hq.head
  refine ⟨.cons ⟨hlevel.size, hsize, ?_, ?_, ?_⟩ hparents, ?_, ?_, ?_⟩
  · rw [hfront]
    exact hq.jobs
  · rw [hfront]
    exact hlevel.data
  · rw [hfront]
    exact hlevel.bunch
  · intro i hi hnot
    rw [chainTargets_cons, not_or] at hnot
    refine ⟨.cons ?_ (forall₂_promise_of_not_targets hparents hnot.2 _), ?_⟩
    · intro _ mem
      rw [hq.apply, blit_inside _ _ (by omega) (by omega)]
      congr 2
      omega
    · intro hno
      rw [chainTargets_cons, not_or] at hno
      exact absurd ((hq.targets (buf + i)).mpr (Or.inr ⟨by omega, by omega⟩)) hno.1
  · rintro a b ha ⟨hqueued, hstored⟩
    cases hqueued with
    | cons hhead htail =>
    have htargets : Targets pr'.async a ↔ Targets pr.async a := by
      rw [hq.targets a]
      simp [ha]
    refine ⟨.cons ?_ htail, ?_⟩
    · intro ht mem
      rw [hq.apply, blit_outside _ _ ha]
      exact hhead (htargets.mp ht) mem
    · intro hno
      apply hstored
      rwa [chainTargets_cons, htargets, ← chainTargets_cons] at hno
  · intro a ha
    rw [chainTargets_cons] at ha ⊢
    rcases ha with ha | ha
    · rcases (hq.targets a).mp ha with ht | ht
      · exact Or.inl (Or.inl ht)
      · exact Or.inr ⟨rfl, ht⟩
    · exact Or.inl (Or.inr ha)

/-- The synchronous branch: the queues are flushed, then the block is read. -/
theorem readLocalPage_delivered (hk : Progress kernel) (autoDedup : Bool) (hlevel : LevelOk orig pr)
    (hparents : List.Forall₂ LevelOk origs parents) (io : Io) (buf : ℕ) {len : ℕ} (hlen : 0 < len)
    (hsize : pr.piOff + len ≤ orig.size) :
    ∃ pr' parents' io',
      readLocalPage kernel autoDedup pr parents io len buf = .ok (pr', parents', io') ∧
      SameCursor pr pr' ∧ List.Forall₂ SameCursor parents parents' ∧
      Delivered false (orig :: origs) (pr :: parents)
        ({ pr' with piOff := pr'.piOff + len } :: parents') io.mem io'.mem buf len
        (fun i => orig.data (pr.piOff + i)) := by
  obtain ⟨prs1, io1, hsync, hmem1, hflushed, hlevels⟩ :=
    processAsyncReads_ok hk autoDedup (.cons hlevel hparents) io
  cases hflushed with
  | @cons _ pr1 _ parents1 hpr1 hparents1 =>
  cases hlevels with
  | cons hlevel1 hlevels1 =>
  have hfront : frontier pr1 = pr.piOff := by
    simp [frontier, queueStart, hpr1.async, hpr1.cursor.piOff]
  have hdata : ∀ o, pr.piOff ≤ o → pr1.pi.data o = orig.data o := by
    intro o ho
    exact hlevel1.data o (by omega)
  obtain ⟨io2, hread, hmem2⟩ := readLoop_ok hk pr1.pi buf len pr1.piOff
    (by rw [hlevel1.size, hpr1.cursor.piOff]; exact hsize) (len + 1) 0 io1 hlen (by omega)
  have hmem : io2.mem = blit (pendingMem (orig :: origs) (pr :: parents) io.mem) buf
      orig.data pr.piOff len := by
    rw [hmem2, hmem1, hpr1.cursor.piOff]
    exact blit_congr_src (fun o ho _ => hdata o ho)
  set pr2 : PageRead := if autoDedup then punchHole pr1 pr1.piOff len false else pr1 with hpr2
  obtain ⟨hcur2, hasync2, hsize2, hdata2, hbunch2⟩ := @punched_above autoDedup pr1
    pr1.piOff len (pr.piOff + len) (by have := hlevel1.bunch; omega)
    (by rw [hpr1.cursor.piOff])
  rw [← hpr2, hpr1.async] at hasync2
  have hoff2 : pr2.piOff = pr.piOff := hcur2.piOff.trans hpr1.cursor.piOff
  have hfront2 : frontier { pr2 with piOff := pr2.piOff + len } = pr.piOff + len := by
    simp [frontier, queueStart, hasync2, hoff2]
  have hlevel2 : LevelOk orig { pr2 with piOff := pr2.piOff + len } := by
    refine ⟨hsize2.trans hlevel1.size, ?_, ?_, fun o ho => ?_, ?_⟩
    · simpa only [hoff2] using hsize
    · simp only [hasync2]
      exact le_refl _
    · rw [hfront2] at ho
      exact (hdata2 o ho).trans (hdata o (by omega))
    · rw [hfront2]
      exact hbunch2
  have hclean : ∀ q ∈ ({ pr2 with piOff := pr2.piOff + len }) :: parents1,
      q.async = [] := List.forall_mem_cons.mpr ⟨hasync2, async_nil_of_flushed hparents1⟩
  refine ⟨pr2, parents1, io2, ?_, hpr1.cursor.trans hcur2,
    hparents1.imp (fun _ _ h => h.cursor), .cons hlevel2 hlevels1, ?_, ?_, ?_⟩
  · simp only [readLocalPage, hsync, hread]
    rw [← hpr2]
  · intro i hi _
    apply promised_of_flushed (.cons hlevel2 hlevels1) hclean
    rw [hmem, blit_inside _ _ (by omega) (by omega)]
    congr 2
    omega
  · intro a b ha hb
    apply promised_of_flushed (.cons hlevel2 hlevels1) hclean
    rw [hmem, blit_outside _ _ ha]
    exact pendingMem_of_promised hb
  · rintro a ⟨q, hq, j, hj, -⟩
    rw [hclean q hq] at hj
    simp at hj

/-- `maybe_read_page_local` delivers the block of the image at the level's offset,
with either kind of read, and moves only that offset. -/
theorem maybeReadPageLocal_delivered (hk : Progress kernel) (autoDedup : Bool)
    (hlevel : LevelOk orig pr) (hparents : List.Forall₂ LevelOk origs parents) (io : Io) {nr : ℕ}
    (buf flags : ℕ) (hnr : 0 < nr) (hsize : pr.piOff + nr * pageSize ≤ orig.size) :
    ∃ pr' parents' io', maybeReadPageLocal kernel autoDedup pr parents io nr buf flags =
        .ok (pr', parents', io') ∧
      SameCursor { pr with piOff := pr.piOff + nr * pageSize } pr' ∧
      List.Forall₂ SameCursor parents parents' ∧
      Delivered (isAsync flags) (orig :: origs) (pr :: parents) (pr' :: parents') io.mem io'.mem buf
        (nr * pageSize) (fun i => orig.data (pr.piOff + i)) := by
  unfold maybeReadPageLocal
  cases hasync : isAsync flags with
  | true =>
    refine ⟨_, parents, io, rfl, ⟨rfl, rfl, rfl, rfl, rfl⟩, ?_,
      enqueue_delivered hlevel hparents io.mem buf _ hsize⟩
    exact List.forall₂_same.mpr (fun q _ => .refl q)
  | false =>
    obtain ⟨pr', parents', io', hrun, hcur, hcurs, hdel⟩ :=
      readLocalPage_delivered hk autoDedup hlevel hparents io buf
        (Nat.mul_pos hnr (by decide)) hsize
    simp only [hrun]
    refine ⟨_, parents', io', rfl, { hcur with piOff := ?_ }, hcurs, hdel⟩
    simp only [hcur.piOff]

/-- What is promised only depends on the queues. -/
theorem chainTargets_congr (h : prs'.map PageRead.async = prs.map PageRead.async) (a : ℕ) :
    ChainTargets prs' a ↔ ChainTargets prs a := by
  have hmap : ∀ l : List PageRead,
      ChainTargets l a ↔ ∃ q ∈ l.map PageRead.async, Targets q a := by
    simp [ChainTargets]
  rw [hmap, hmap, h]

theorem promised_congr (h : prs'.map PageRead.async = prs.map PageRead.async)
    (hp : Promised origs prs mem a b) : Promised origs prs' mem a b := by
  have hmap : ∀ l : List PageRead, List.Forall₂ (LevelPromise a b) origs l ↔
      List.Forall₂ (fun o q => Targets q a → ∀ mem, applyJobs o.data q mem a = b) origs
        (l.map PageRead.async) := by
    intro l
    rw [List.forall₂_map_right_iff]
    rfl
  refine ⟨?_, ?_⟩
  · rw [hmap, h, ← hmap]
    exact hp.queued
  · intro hno
    exact hp.stored (by rwa [chainTargets_congr h] at hno)

namespace Delivered

variable {async : Bool} {prs'' : List PageRead} {mem' mem'' : ℕ → UInt8} {buf m n : ℕ}
  {val val' : ℕ → UInt8}

/-- Two reads into consecutive windows are one read into both. -/
theorem append (h : Delivered async origs prs prs' mem mem' buf m val)
    (h' : Delivered async origs prs' prs'' mem' mem'' (buf + m) n val') :
    Delivered async origs prs prs'' mem mem'' buf (m + n)
      (fun i => if i < m then val i else val' (i - m)) := by
  refine ⟨h'.levels, ?_, ?_, ?_⟩
  · intro i hi hnot
    by_cases him : i < m
    · simp only [him]
      exact h'.outside _ _ (by omega) (h.inside i him hnot)
    simp only [him]
    have hnot' : ¬ ChainTargets prs' (buf + m + (i - m)) := by
      intro ht
      rcases h.targets _ ht with ht | ⟨-, ht⟩
      · exact hnot (by rwa [show buf + m + (i - m) = buf + i by omega] at ht)
      · omega
    have hin := h'.inside (i - m) (by omega) hnot'
    rwa [show buf + m + (i - m) = buf + i by omega] at hin
  · intro a b ha hb
    exact h'.outside a b (by omega) (h.outside a b (by omega) hb)
  · intro a ha
    rcases h'.targets a ha with ha | ⟨hasync, ha⟩
    · rcases h.targets a ha with ha | ⟨hasync, ha⟩
      · exact Or.inl ha
      · exact Or.inr ⟨hasync, ha.1, by omega⟩
    · exact Or.inr ⟨hasync, by omega, by omega⟩

/-- Moving cursors before or after a read does not change what it delivers. -/
theorem congr {prs₀ prs₁ : List PageRead} (h : Delivered async origs prs prs' mem mem' buf m val)
    (hpre : prs₀.map PageRead.async = prs.map PageRead.async)
    (hpost : prs₁.map PageRead.async = prs'.map PageRead.async)
    (hlevels : List.Forall₂ LevelOk origs prs₁) :
    Delivered async origs prs₀ prs₁ mem mem' buf m val := by
  refine ⟨hlevels, ?_, ?_, ?_⟩
  · intro i hi hnot
    rw [chainTargets_congr hpre] at hnot
    exact promised_congr hpost (h.inside i hi hnot)
  · intro a b ha hb
    exact promised_congr hpost (h.outside a b ha (promised_congr hpre.symm hb))
  · intro a ha
    rw [chainTargets_congr hpost] at ha
    rw [chainTargets_congr hpre]
    exact h.targets a ha

/-- A read done by the parents is a read of the whole chain. -/
theorem lift (h : Delivered async origs prs prs' mem mem' buf m val)
    (hlevels : List.Forall₂ LevelOk origs prs) (hlevel : LevelOk orig pr')
    (hasync : pr'.async = pr.async) :
    Delivered async (orig :: origs) (pr :: prs) (pr' :: prs') mem mem' buf m val := by
  have hpromise : ∀ a b, LevelPromise a b orig pr → LevelPromise a b orig pr' := by
    intro a b hp ht mem
    rw [hasync] at ht ⊢
    exact hp ht mem
  refine ⟨.cons hlevel h.levels, ?_, ?_, ?_⟩
  · intro i hi hnot
    rw [chainTargets_cons, not_or] at hnot
    obtain ⟨hq, hs⟩ := h.inside i hi hnot.2
    refine ⟨.cons (hpromise _ _ (fun ht => absurd ht hnot.1)) hq, ?_⟩
    intro hno
    rw [chainTargets_cons, not_or] at hno
    exact hs hno.2
  · rintro a b ha ⟨hqueued, hstored⟩
    cases hqueued with
    | cons hhead htail =>
    by_cases ht : ChainTargets prs a
    · obtain ⟨hq, hs⟩ := h.outside a b ha ⟨htail, fun hno => absurd ht hno⟩
      refine ⟨.cons (hpromise _ _ hhead) hq, ?_⟩
      intro hno
      rw [chainTargets_cons, not_or] at hno
      exact hs hno.2
    obtain ⟨-, hs⟩ := h.outside a (mem a) ha
      ⟨forall₂_promise_of_not_targets hlevels ht _, fun _ => rfl⟩
    have hno' : ¬ ChainTargets prs' a := by
      intro ht'
      rcases h.targets a ht' with hc | ⟨-, hc⟩
      · exact ht hc
      · exact ha hc
    refine ⟨.cons (hpromise _ _ hhead) (forall₂_promise_of_not_targets h.levels hno' b), ?_⟩
    intro hno
    rw [hs hno']
    apply hstored
    rw [chainTargets_cons, not_or] at hno ⊢
    rw [hasync] at hno
    exact ⟨hno.1, ht⟩
  · intro a ha
    rw [chainTargets_cons] at ha ⊢
    rw [hasync] at ha
    rcases ha with ha | ha
    · exact Or.inl (Or.inl ha)
    · rcases h.targets a ha with ha | ha
      · exact Or.inl (Or.inr ha)
      · exact Or.inr ha

end Delivered

end Chain

end Criu.Delivery

import Mathlib.Data.List.Induction
import Criu.Delivery

/-!
Requests for pages that are read later (criu/pagemap.c, criu/pie/restorer.c). A
sequence of requests at any offsets is merged into jobs; `process_async_reads` runs
the jobs of each level, and the restorer runs those of the list rendered for it with
a loop of its own. Both leave what reading each request at its offset leaves. With
auto-dedup the jobs also say which parts of the image are given to `punch_hole`.
-/

namespace Criu.AsyncReads

open Pagemap ReadCursor PageIo AsyncQueue Delivery Blit List

variable {kernel : ℕ → ℕ → ℕ} {autoDedup : Bool} {doomed : ℕ → Prop} {ret : ℕ}

/-- A call of `pagemap_enqueue_iovec`, with the image offset it is made at. -/
structure ReadRequest where
  off : ℕ
  buf : ℕ
  len : ℕ

variable {r : ReadRequest}

def enqueueAll (rs : List ReadRequest) : List PageReadIov :=
  rs.foldl (fun queue r => pagemapEnqueueIovec r.off r.buf r.len queue) []

def readDirect (src : ℕ → UInt8) (rs : List ReadRequest) (mem : ℕ → UInt8) : ℕ → UInt8 :=
  rs.foldl (fun mem r => blit mem r.buf src r.off r.len) mem

structure RestoreVmaIo where
  off : ℕ
  iovs : List Iovec

def pagemapRenderIovec (jobs : List PageReadIov) : List RestoreVmaIo :=
  jobs.map fun piov => ⟨piov.start, piov.iovs⟩

/-- How the restorer advances its iovecs; it also steps over empty ones in front. -/
def skipIovs : List Iovec → ℕ → List Iovec
  | [], _ => []
  | iov :: rest, r =>
      if iov.len ≤ r then skipIovs rest (r - iov.len)
      else ⟨iov.base + r, iov.len - r⟩ :: rest

section Restorer

variable (kernel : ℕ → ℕ → ℕ) (autoDedup : Bool)

/-- The loop of the restorer over the iovecs of one `restore_vma_io`. -/
def rioLoop : ℕ → RestoreVmaIo → PagesImage → Io → Except Fault (PagesImage × Io)
  | 0, _, _, _ => .error .hang
  | fuel + 1, rio, img, io =>
      if rio.iovs.isEmpty then .ok (img, io)
      else
        let r := readRet kernel img io (iovTotal rio.iovs) rio.off
        rioLoop fuel ⟨rio.off + r, skipIovs rio.iovs r⟩
          (if decide (0 < r) && autoDedup then fallocatePunch img rio.off r else img)
          (preadv img io rio.iovs rio.off r)

/-- The restorer's loop over `vma_ios`, with `fuel` read calls for each of them at most. -/
def restoreVmaIos (fuel : ℕ) : List RestoreVmaIo → PagesImage → Io →
    Except Fault (PagesImage × Io)
  | [], img, io => .ok (img, io)
  | rio :: rest, img, io =>
      match rioLoop kernel autoDedup fuel rio img io with
      | .error f => .error f
      | .ok r => restoreVmaIos fuel rest r.1 r.2

end Restorer

def Spans (j : PageReadIov) (o : ℕ) : Prop := j.start ≤ o ∧ o < j.stop

def Covers (r : ReadRequest) (o : ℕ) : Prop := r.off ≤ o ∧ o < r.off + r.len

structure JobShape (j : PageReadIov) : Prop where
  total : j.stop = j.start + iovTotal j.iovs
  count : j.iovs.length < iovMax

variable {queue : List PageReadIov} {rs : List ReadRequest} {j : PageReadIov} {img : PagesImage}

section Merging

structure Merged (rs : List ReadRequest) (queue : List PageReadIov) : Prop where
  shape : ∀ j ∈ queue, JobShape j
  apply : ∀ src mem, applyJobs src queue mem = readDirect src rs mem
  spans : ∀ o, (∃ j ∈ queue, Spans j o) ↔ ∃ r ∈ rs, Covers r o
  apart : rs.Pairwise (fun r r' => ∀ o, Covers r o → ¬ Covers r' o) →
    queue.Pairwise (fun j j' => ∀ o, Spans j o → ¬ Spans j' o)

theorem readDirect_concat (src : ℕ → UInt8) (rs : List ReadRequest) (r : ReadRequest)
    (mem : ℕ → UInt8) :
    readDirect src (rs ++ [r]) mem = blit (readDirect src rs mem) r.buf src r.off r.len := by
  simp [readDirect]

/-- A request apart from the earlier ones is apart from the jobs they were merged into. -/
theorem apart_jobs (h : Merged rs queue)
    (hr : (rs ++ [r]).Pairwise (fun r r' => ∀ o, Covers r o → ¬ Covers r' o)) :
    queue.Pairwise (fun j j' => ∀ o, Spans j o → ¬ Spans j' o) ∧
      ∀ j ∈ queue, ∀ o, Spans j o → ¬ Covers r o := by
  obtain ⟨hrs, -, hlast⟩ := pairwise_append.mp hr
  refine ⟨h.apart hrs, fun j hj o ho => ?_⟩
  obtain ⟨r', hr', ho'⟩ := (h.spans o).mp ⟨j, hj, ho⟩
  exact hlast r' hr' r (mem_singleton_self r) o ho'

theorem merged_new (r : ReadRequest) (h : Merged rs queue) :
    Merged (rs ++ [r]) (queue ++ [⟨r.off, r.off + r.len, [⟨r.buf, r.len⟩]⟩]) := by
  refine ⟨?_, ?_, ?_, ?_⟩
  · refine forall_mem_append.mpr ⟨h.shape, forall_mem_singleton.mpr ?_⟩
    exact ⟨by simp [iovTotal], by simp [iovMax]⟩
  · intro src mem
    rw [applyJobs_append, h.apply, readDirect_concat]
    simp [applyJobs, scatter]
  · intro o
    simp only [mem_append, mem_singleton, or_and_right, exists_or, exists_eq_left, h.spans]
    rfl
  intro hr
  obtain ⟨hjobs, hlast⟩ := apart_jobs h hr
  refine pairwise_append.mpr ⟨hjobs, pairwise_singleton _ _, ?_⟩
  intro j hj j' hj'
  obtain rfl := mem_singleton.mp hj'
  exact hlast j hj

theorem merged_extend {front : List PageReadIov} {cur : PageReadIov} {iovs : List Iovec}
    (h : Merged rs (front ++ [cur])) (hoff : r.off = cur.stop)
    (hiovs : Appends r.buf r.len cur.iovs iovs) :
    Merged (rs ++ [r]) (front ++ [⟨cur.start, cur.stop + r.len, iovs⟩]) := by
  have hcur : JobShape cur := h.shape cur (by simp)
  have htotal := hcur.total
  have hsplit : ∀ o, Spans ⟨cur.start, cur.stop + r.len, iovs⟩ o ↔ Spans cur o ∨ Covers r o := by
    simp only [Spans, Covers]
    omega
  refine ⟨?_, ?_, ?_, ?_⟩
  · refine forall_mem_append.mpr ⟨(forall_mem_append.mp h.shape).1, forall_mem_singleton.mpr ?_⟩
    refine ⟨?_, hiovs.count hcur.count⟩
    simp only [hiovs.total]
    omega
  · intro src mem
    have h1 : cur.stop + r.len - cur.start = iovTotal cur.iovs + r.len := by omega
    have h2 : cur.stop - cur.start = iovTotal cur.iovs := by omega
    rw [readDirect_concat, ← h.apply]
    simp only [applyJobs_append, applyJobs, h1, h2, hiovs.scatter]
    rw [hoff, htotal]
  · intro o
    have hspans := h.spans o
    simp only [mem_append, mem_singleton, or_and_right, exists_or, exists_eq_left] at hspans ⊢
    rw [hsplit, ← hspans, or_assoc]
  intro hr
  obtain ⟨hjobs, hlast⟩ := apart_jobs h hr
  obtain ⟨hfront, -, hcross⟩ := pairwise_append.mp hjobs
  refine pairwise_append.mpr ⟨hfront, pairwise_singleton _ _, ?_⟩
  intro j hj j' hj' o ho ho'
  obtain rfl := mem_singleton.mp hj'
  rcases (hsplit o).mp ho' with ho' | ho'
  · exact hcross j hj cur (mem_singleton_self cur) o ho ho'
  · exact hlast j (mem_append_left _ hj) o ho ho'

/-- Requests at any offsets, into any buffers, are merged. -/
theorem enqueueAll_merged (rs : List ReadRequest) : Merged rs (enqueueAll rs) := by
  induction rs using reverseRecOn with
  | nil => exact ⟨by simp [enqueueAll], fun _ _ => rfl, by simp [enqueueAll],
      fun _ => List.Pairwise.nil⟩
  | append_singleton rs r ih =>
    have hstep : enqueueAll (rs ++ [r]) =
        pagemapEnqueueIovec r.off r.buf r.len (enqueueAll rs) := by
      simp [enqueueAll]
    have hq := enqueue_enqueued r.off r.buf r.len (enqueueAll rs)
    rw [← hstep] at hq
    generalize enqueueAll (rs ++ [r]) = queue' at hq
    cases hq with
    | new => exact merged_new r ih
    | extend hqueue hcont hiovs =>
      rw [hqueue] at ih
      exact merged_extend ih hcont hiovs

/-- What every request finds in the image, every job does. -/
theorem Merged.stored (h : Merged rs queue) {size : ℕ}
    (hsize : ∀ r ∈ rs, 0 < r.len → r.off + r.len ≤ size) :
    ∀ j ∈ queue, j.start < j.stop → j.stop ≤ size := by
  intro j hj hlt
  obtain ⟨r, hr, ho⟩ := (h.spans (j.stop - 1)).mp ⟨j, hj, by omega, by omega⟩
  have := hsize r hr (by have := ho.1; have := ho.2; omega)
  have := ho.2
  omega

end Merging

section Processing

variable (hk : Progress kernel)

/-- The jobs can be read from the image, whatever is punched on the way: they find in it what `src`
has, and with auto-dedup they are apart from each other and from what is `doomed`, to be punched
next. -/
structure Readable (autoDedup : Bool) (src : ℕ → UInt8) (doomed : ℕ → Prop) (img : PagesImage)
    (jobs : List PageReadIov) : Prop where
  shape : ∀ j ∈ jobs, JobShape j
  stored : ∀ j ∈ jobs, j.start < j.stop → j.stop ≤ img.size
  data : ∀ j ∈ jobs, ∀ o, Spans j o → img.data o = src o
  apart : autoDedup = true → jobs.Pairwise (fun j j' => ∀ o, Spans j o → ¬ Spans j' o)
  kept : autoDedup = true → ∀ j ∈ jobs, ∀ o, Spans j o → ¬ doomed o

structure Punches (autoDedup : Bool) (j : PageReadIov) (doomed doomed' : ℕ → Prop)
    (img img' : PagesImage) : Prop where
  size : img'.size = img.size
  data : ∀ o, (autoDedup = true → ¬ doomed o ∧ ¬ Spans j o) → img'.data o = img.data o
  doomed : autoDedup = true → ∀ o, doomed' o → doomed o ∨ Spans j o

/-- After the first job the others can still be read. -/
theorem Readable.tail {src : ℕ → UInt8} {doomed' : ℕ → Prop} {img' : PagesImage}
    {rest : List PageReadIov} (h : Readable autoDedup src doomed img (j :: rest))
    (hp : Punches autoDedup j doomed doomed' img img') :
    Readable autoDedup src doomed' img' rest := by
  have hrest : ∀ {i}, i ∈ rest → i ∈ j :: rest := fun hi => mem_cons_of_mem _ hi
  have hhead : autoDedup = true → ∀ i ∈ rest, ∀ o, Spans i o → ¬ Spans j o := by
    intro ha i hi o ho hj
    exact (pairwise_cons.mp (h.apart ha)).1 i hi o hj ho
  refine ⟨fun i hi => h.shape i (hrest hi), fun i hi hlt => ?_, fun i hi o ho => ?_,
    fun ha => (pairwise_cons.mp (h.apart ha)).2, fun ha i hi o ho hd => ?_⟩
  · rw [hp.size]
    exact h.stored i (hrest hi) hlt
  · rw [hp.data o (fun ha => ⟨h.kept ha i (hrest hi) o ho, hhead ha i hi o ho⟩)]
    exact h.data i (hrest hi) o ho
  · rcases hp.doomed ha o hd with hd | hd
    · exact h.kept ha i (hrest hi) o ho hd
    · exact hhead ha i hi o ho hd

def InBunch (pr : PageRead) (o : ℕ) : Prop :=
  pr.bunch.base ≤ o ∧ o < pr.bunch.base + pr.bunch.len

theorem punchHole_changes (pr : PageRead) (off len : ℕ) (cleanup : Bool) {o : ℕ} :
    (¬ InBunch pr o → (punchHole pr off len cleanup).pi.data o = pr.pi.data o) ∧
      (InBunch (punchHole pr off len cleanup) o → InBunch pr o ∨ (off ≤ o ∧ o < off + len)) := by
  unfold punchHole
  split
  · rename_i hext
    simp only [canExtendBunch, Bool.and_eq_true, beq_iff_eq] at hext
    refine ⟨fun _ => rfl, fun ho => ?_⟩
    simp only [InBunch] at ho ⊢
    omega
  · refine ⟨fun ho => ?_, fun ho => .inr ho⟩
    split
    · exact wipe_outside _ _ ho
    · rfl

/-- The level after a job, whose last result was `ret`. -/
def afterJob (autoDedup : Bool) (pr : PageRead) (j : PageReadIov) (rest : List PageReadIov)
    (ret : ℕ) : PageRead :=
  { (if autoDedup then punchHole pr j.start ret false else pr) with async := rest }

theorem afterJob_punches (autoDedup : Bool) (pr : PageRead) (j : PageReadIov)
    (rest : List PageReadIov) (hret : ret ≤ j.stop - j.start) :
    Punches autoDedup j (InBunch pr) (InBunch (afterJob autoDedup pr j rest ret)) pr.pi
      (afterJob autoDedup pr j rest ret).pi := by
  cases autoDedup with
  | false => exact ⟨rfl, fun _ _ => rfl, nofun⟩
  | true =>
    refine ⟨punchHole_size _ _ _ _, fun o ho => ?_, fun _ o ho => ?_⟩
    · exact (punchHole_changes pr j.start ret false).1 (ho rfl).1
    · rcases (punchHole_changes pr j.start ret false).2 ho with hb | hb
      · exact .inl hb
      · exact .inr ⟨hb.1, by omega⟩

include hk in
theorem asyncJobs_applies (src : ℕ → UInt8) (jobs : List PageReadIov) (pr : PageRead) (io : Io)
    (h : Readable autoDedup src (InBunch pr) pr.pi jobs) :
    ∃ pr' io', asyncJobs kernel autoDedup jobs pr io = .ok (pr', io') ∧
      io'.mem = applyJobs src jobs io.mem := by
  induction jobs generalizing pr io with
  | nil => exact ⟨pr, io, rfl, rfl⟩
  | cons j rest ih =>
    have hj : j ∈ j :: rest := mem_cons_self ..
    obtain ⟨ret, io', hloop, hmem, hret⟩ := jobLoop_ok hk src (j.stop - j.start + 1) j io
      (h.shape j hj).total (h.stored j hj) (fun o hlo hhi => h.data j hj o ⟨hlo, hhi⟩) (by omega)
    obtain ⟨pr', io'', hrun, hmem'⟩ := ih (afterJob autoDedup pr j rest ret) io'
      (h.tail (afterJob_punches autoDedup pr j rest hret))
    refine ⟨pr', io'', ?_, ?_⟩
    · simp only [asyncJobsWithin, hloop]
      exact hrun
    · rw [hmem', hmem]
      rfl

/-- The queue of the level holds the requests, which lie in its image; with auto-dedup no part of
it is asked for twice. -/
structure Queues (autoDedup : Bool) (pr : PageRead) (rs : List ReadRequest) : Prop where
  queue : pr.async = enqueueAll rs
  stored : ∀ r ∈ rs, 0 < r.len → r.off + r.len ≤ pr.pi.size
  apart : autoDedup = true → rs.Pairwise (fun r r' => ∀ o, Covers r o → ¬ Covers r' o)
  bunch : autoDedup = true → ∀ r ∈ rs, ∀ o, Covers r o → ¬ InBunch pr o

theorem Merged.readable (h : Merged rs queue)
    (hstored : ∀ r ∈ rs, 0 < r.len → r.off + r.len ≤ img.size)
    (hapart : autoDedup = true → rs.Pairwise (fun r r' => ∀ o, Covers r o → ¬ Covers r' o))
    (hkept : autoDedup = true → ∀ r ∈ rs, ∀ o, Covers r o → ¬ doomed o) :
    Readable autoDedup img.data doomed img queue := by
  refine ⟨h.shape, h.stored hstored, fun _ _ _ _ => rfl, fun ha => h.apart (hapart ha), ?_⟩
  intro ha j hj o ho
  obtain ⟨r, hr, ho⟩ := (h.spans o).mp ⟨j, hj, ho⟩
  exact hkept ha r hr o ho

def readChain : List PageRead → List (List ReadRequest) → (ℕ → UInt8) → ℕ → UInt8
  | pr :: prs, rs :: rss, mem => readChain prs rss (readDirect pr.pi.data rs mem)
  | _, _, mem => mem

include hk in
theorem processAsyncReads_direct {prs : List PageRead} {rss : List (List ReadRequest)}
    (h : List.Forall₂ (Queues autoDedup) prs rss) (io : Io) :
    ∃ prs' io', processAsyncReads kernel autoDedup prs io = .ok (prs', io') ∧
      io'.mem = readChain prs rss io.mem := by
  induction h generalizing io with
  | nil => exact ⟨[], io, rfl, rfl⟩
  | @cons pr rs prs rss hlevel _ ih =>
    have hmerged : Merged rs pr.async := by
      rw [hlevel.queue]
      exact enqueueAll_merged rs
    obtain ⟨pr', io', hjobs, hmem⟩ := asyncJobs_applies hk pr.pi.data pr.async pr io
      (hmerged.readable hlevel.stored hlevel.apart hlevel.bunch)
    obtain ⟨prs', io'', hrun, hmem'⟩ := ih io'
    refine ⟨pr' :: prs', io'', ?_, ?_⟩
    · simp only [processAsyncReadsWithin, hjobs, hrun]
    · rw [hmem', hmem, hmerged.apply]
      rfl

end Processing

section RestorerLoop

variable (hk : Progress kernel)

theorem scatter_skip (src mem : ℕ → UInt8) (iovs : List Iovec) (n off k : ℕ) :
    scatter mem (skipIovs iovs n) src off k = scatter mem (advanceIovs iovs n) src off k := by
  induction iovs generalizing n with
  | nil => rfl
  | cons iov rest ih =>
    by_cases hn : n = 0
    · subst hn
      by_cases hlen : iov.len = 0
      · have hnil (l : List Iovec) : advanceIovs l 0 = l := by cases l <;> rfl
        simp only [skipIovs, hlen, Nat.le_refl, if_true, ih, hnil, scatter,
          Nat.zero_min, blit_zero, Nat.add_zero, Nat.sub_zero]
      · have hle : ¬ iov.len ≤ 0 := by omega
        simp only [skipIovs, hle, if_false, advanceIovs, if_true, Nat.add_zero, Nat.sub_zero]
    · by_cases hle : iov.len ≤ n
      · simp only [skipIovs, advanceIovs, hn, hle, if_true, if_false, ih]
      · simp only [skipIovs, advanceIovs, hn, hle, if_false]

/-- What is left after skipping is as long as it should be, and has an iovec only if it has a
byte. -/
theorem skipIovs_total (iovs : List Iovec) {n : ℕ} (h : n ≤ iovTotal iovs) :
    iovTotal (skipIovs iovs n) = iovTotal iovs - n ∧
      (iovTotal iovs = n → skipIovs iovs n = []) := by
  induction iovs generalizing n with
  | nil => simp [skipIovs, iovTotal]
  | cons iov rest ih =>
    rw [iovTotal_cons] at h ⊢
    by_cases hle : iov.len ≤ n
    · simp only [skipIovs, hle, if_true]
      obtain ⟨htotal, hnil⟩ := ih (n := n - iov.len) (by omega)
      exact ⟨by omega, fun heq => hnil (by omega)⟩
    · simp only [skipIovs, hle, if_false, iovTotal_cons]
      exact ⟨by omega, fun heq => by omega⟩

/-- What one round of the restorer's loop may punch. -/
theorem punched_changes (autoDedup : Bool) (img : PagesImage) (off r : ℕ) :
    (if decide (0 < r) && autoDedup then fallocatePunch img off r else img).size = img.size ∧
      ∀ o, (autoDedup = true → ¬ (off ≤ o ∧ o < off + r)) →
        (if decide (0 < r) && autoDedup then fallocatePunch img off r else img).data o =
          img.data o := by
  split
  · rename_i hp
    exact ⟨rfl, fun o ho => wipe_outside _ _ (ho (Bool.and_eq_true_iff.mp hp).2)⟩
  · exact ⟨rfl, fun _ _ => rfl⟩

include hk in
/-- The restorer's loop reads the whole range, and punches nothing else. -/
theorem rioLoop_ok (autoDedup : Bool) (src : ℕ → UInt8) (fuel : ℕ) (rio : RestoreVmaIo)
    (img : PagesImage) (io : Io)
    (hsize : 0 < iovTotal rio.iovs → rio.off + iovTotal rio.iovs ≤ img.size)
    (hdata : ∀ o, rio.off ≤ o → o < rio.off + iovTotal rio.iovs → img.data o = src o)
    (hfuel : rio.iovs ≠ [] → iovTotal rio.iovs + 1 < fuel) (hpos : 0 < fuel) :
    ∃ img' io', rioLoop kernel autoDedup fuel rio img io = .ok (img', io') ∧
      io'.mem = scatter io.mem rio.iovs src rio.off (iovTotal rio.iovs) ∧
      img'.size = img.size ∧
      ∀ o, (autoDedup = true → ¬ (rio.off ≤ o ∧ o < rio.off + iovTotal rio.iovs)) →
        img'.data o = img.data o := by
  induction fuel generalizing rio img io with
  | zero => cases hpos
  | succ fuel ih =>
    by_cases hnil : rio.iovs = []
    · refine ⟨img, io, ?_, ?_, rfl, fun _ _ => rfl⟩
      · simp [rioLoop, hnil]
      · rw [hnil]
        rfl
    have hfuel := hfuel hnil
    have hle := readRet_le kernel img io (iovTotal rio.iovs) rio.off
    have hpos : 0 < iovTotal rio.iovs →
        0 < readRet kernel img io (iovTotal rio.iovs) rio.off :=
      fun h => readRet_pos hk img io h (by omega)
    have hne : rio.iovs.isEmpty = false := isEmpty_eq_false_iff.mpr hnil
    simp only [rioLoop, hne]
    set r := readRet kernel img io (iovTotal rio.iovs) rio.off
    obtain ⟨htotal, hend⟩ := skipIovs_total rio.iovs hle
    obtain ⟨hsize', hdata'⟩ := punched_changes autoDedup img rio.off r
    set img1 := if decide (0 < r) && autoDedup then fallocatePunch img rio.off r else img
    obtain ⟨img', io', hrun, hmem, hsz, hout⟩ := ih ⟨rio.off + r, skipIovs rio.iovs r⟩ img1
      (preadv img io rio.iovs rio.off r)
      (fun h => by
        simp only [htotal] at h ⊢
        omega)
      (fun o hlo hhi => by
        simp only [htotal] at hlo hhi
        rw [hdata' o (fun _ => by omega)]
        exact hdata o (by omega) (by omega))
      (fun h => by
        simp only [htotal]
        have : iovTotal rio.iovs ≠ r := fun heq => h (hend heq)
        omega)
      (by omega)
    refine ⟨img', io', hrun, ?_, hsz.trans hsize', ?_⟩
    · have hsrc : scatter io.mem rio.iovs img.data rio.off r =
          scatter io.mem rio.iovs src rio.off r :=
        scatter_congr_src io.mem rio.iovs (fun o hlo hhi => hdata o hlo (by omega))
      rw [hmem]
      simp only [preadv, hsrc]
      rw [scatter_skip, scatter_advance]
      congr 1
      omega
    intro o ho
    have hr : autoDedup = true → ¬ (rio.off ≤ o ∧ o < rio.off + r) := by
      intro ha hin
      exact ho ha ⟨hin.1, by omega⟩
    have hl : autoDedup = true →
        ¬ (rio.off + r ≤ o ∧ o < rio.off + r + iovTotal (skipIovs rio.iovs r)) := by
      intro ha hin
      exact ho ha ⟨by omega, by omega⟩
    rw [hout o hl, hdata' o hr]

def rioFuel (jobs : List PageReadIov) : ℕ := (jobs.map fun j => iovTotal j.iovs).sum + 2

include hk in
theorem restoreVmaIos_ok (autoDedup : Bool) (src : ℕ → UInt8) (fuel : ℕ) (jobs : List PageReadIov)
    (hfuel : rioFuel jobs ≤ fuel) (img : PagesImage) (io : Io)
    (h : Readable autoDedup src (fun _ => False) img jobs) :
    ∃ img' io', restoreVmaIos kernel autoDedup fuel (pagemapRenderIovec jobs) img io =
      .ok (img', io') ∧ io'.mem = applyJobs src jobs io.mem := by
  induction jobs generalizing img io with
  | nil => exact ⟨img, io, rfl, rfl⟩
  | cons j rest ih =>
    have hj : j ∈ j :: rest := mem_cons_self ..
    have htotal := (h.shape j hj).total
    have hsum : iovTotal j.iovs + rioFuel rest ≤ fuel := by
      simp only [rioFuel, map_cons, sum_cons] at hfuel ⊢
      omega
    have htwo : 2 ≤ rioFuel rest := Nat.le_add_left _ _
    obtain ⟨img', io', hloop, hmem, hsize, hout⟩ := rioLoop_ok hk autoDedup src fuel
      ⟨j.start, j.iovs⟩ img io
      (fun hpos => by
        have := h.stored j hj (by dsimp only at hpos; omega)
        dsimp only
        omega)
      (fun o hlo hhi => h.data j hj o ⟨hlo, by dsimp only at hhi; omega⟩)
      (fun _ => by dsimp only; omega) (by omega)
    have hp : Punches autoDedup j (fun _ => False) (fun _ => False) img img' := by
      refine ⟨hsize, fun o ho => hout o fun ha hin => ?_, fun _ _ hf => hf.elim⟩
      exact (ho ha).2 ⟨hin.1, by dsimp only at hin; omega⟩
    obtain ⟨img'', io'', hrun, hmem'⟩ := ih (by omega) img' io' (h.tail hp)
    refine ⟨img'', io'', ?_, ?_⟩
    · simp only [pagemapRenderIovec, map_cons, restoreVmaIos, hloop]
      exact hrun
    · have hlen : j.stop - j.start = iovTotal j.iovs := by omega
      rw [hmem', hmem, applyJobs, hlen]

end RestorerLoop

section Direct

/-- Requests read later through the queues, by `process_async_reads` on a chain of levels and by the
restorer on a rendered list, are read as directly, whatever the sizes of the results of `preadv`
are; the jobs keep the limit on iovecs and cover their range. -/
theorem queued_reads_direct (hk : Progress kernel) (autoDedup : Bool) (io : Io) :
    (∀ rs, ∀ j ∈ enqueueAll rs,
      j.iovs.length < iovMax ∧ j.stop = j.start + iovTotal j.iovs) ∧
    (∀ prs rss, List.Forall₂ (Queues autoDedup) prs rss →
      ∃ prs' io', processAsyncReads kernel autoDedup prs io = .ok (prs', io') ∧
        io'.mem = readChain prs rss io.mem) ∧
    (∀ (rs : List ReadRequest) (img : PagesImage),
      (∀ r ∈ rs, 0 < r.len → r.off + r.len ≤ img.size) →
      (autoDedup = true → rs.Pairwise (fun r r' => ∀ o, Covers r o → ¬ Covers r' o)) →
      ∃ n, ∀ fuel, n ≤ fuel →
        ∃ img' io', restoreVmaIos kernel autoDedup fuel (pagemapRenderIovec (enqueueAll rs)) img io
          = .ok (img', io') ∧ io'.mem = readDirect img.data rs io.mem) := by
  refine ⟨fun rs j hj => ?_, fun prs rss h => processAsyncReads_direct hk h io, ?_⟩
  · have hshape := (enqueueAll_merged rs).shape j hj
    exact ⟨hshape.count, hshape.total⟩
  intro rs img hstored hapart
  refine ⟨rioFuel (enqueueAll rs), fun fuel hfuel => ?_⟩
  have hmerged := enqueueAll_merged rs
  obtain ⟨img', io', hrun, hmem⟩ := restoreVmaIos_ok hk autoDedup img.data fuel (enqueueAll rs)
    hfuel img io (hmerged.readable hstored hapart (fun _ _ _ _ _ hf => hf))
  exact ⟨img', io', hrun, by rw [hmem, hmerged.apply]⟩

def queuedLevel (pi : PagesImage) (rs : List ReadRequest) : PageRead :=
  { openPageRead [] pi with async := enqueueAll rs }

theorem three_requests_direct :
    Progress (fun _ _ => 1) ∧
      ∃ prs' io', processAsyncReads (fun _ _ => 1) true
        [queuedLevel ⟨fun o => o.toUInt8, 20⟩ [⟨0, 10, 4⟩, ⟨4, 14, 4⟩, ⟨16, 40, 4⟩]] ⟨fun _ => 0, 0⟩
          = .ok (prs', io') ∧
        io'.mem = readChain
          [queuedLevel ⟨fun o => o.toUInt8, 20⟩ [⟨0, 10, 4⟩, ⟨4, 14, 4⟩, ⟨16, 40, 4⟩]]
          [[⟨0, 10, 4⟩, ⟨4, 14, 4⟩, ⟨16, 40, 4⟩]] (fun _ => 0) := by
  have hk : Progress (fun _ _ => 1) := fun _ _ _ => Nat.one_pos
  refine ⟨hk, (queued_reads_direct hk true ⟨fun _ => 0, 0⟩).2.1 _ _ (.cons ?_ .nil)⟩
  refine ⟨rfl, ?_, fun _ => ?_, fun _ => ?_⟩
  · simp [queuedLevel, openPageRead]
  · simp only [pairwise_cons, mem_cons, not_mem_nil, or_false, Covers]
    refine ⟨?_, ?_, ?_, List.Pairwise.nil⟩
    all_goals rintro r hr o ho
    · rcases hr with rfl | rfl <;> dsimp only <;> omega
    · subst hr
      dsimp only
      omega
    · exact hr.elim
  · intro r _ o _ hb
    simp [InBunch, queuedLevel, openPageRead] at hb

end Direct

section Dedup

variable (kernel : ℕ → ℕ → ℕ)

/-- The jobs of one level with auto-dedup, and the ranges that are passed to `punch_hole` for
them. -/
def asyncPunches : List PageReadIov → PageRead → Io → Except Fault (List Iovec × PageRead × Io)
  | [], pr, io => .ok ([], pr, io)
  | piov :: rest, pr, io =>
      match jobLoop kernel pr.pi (piov.stop - piov.start + 1) piov io with
      | .error f => .error f
      | .ok r =>
          match asyncPunches rest (afterJob true pr piov rest r.1) r.2 with
          | .error f => .error f
          | .ok (ranges, end_) => .ok (⟨piov.start, r.1⟩ :: ranges, end_)

/-- `process_async_reads` with auto-dedup and the ranges passed to `punch_hole`, level by level. -/
def processPunches : List PageRead → Io → Except Fault (List (List Iovec) × List PageRead × Io)
  | [], io => .ok ([], [], io)
  | pr :: parents, io =>
      match asyncPunches kernel pr.async pr io with
      | .error f => .error f
      | .ok (ranges, pr', io') =>
          match processPunches parents io' with
          | .error f => .error f
          | .ok (more, parents', io'') => .ok (ranges :: more, pr' :: parents', io'')

theorem asyncPunches_run (jobs : List PageReadIov) (pr : PageRead) (io : Io) :
    (asyncPunches kernel jobs pr io).map Prod.snd = asyncJobs kernel true jobs pr io := by
  induction jobs generalizing pr io with
  | nil => rfl
  | cons j rest ih =>
    simp only [asyncPunches, asyncJobsWithin]
    cases jobLoop kernel pr.pi (jobFuel j) j io with
    | error f => rfl
    | ok r =>
      have hrest := ih (afterJob true pr j rest r.1) r.2
      dsimp only
      cases hrun : asyncPunches kernel rest (afterJob true pr j rest r.1) r.2 <;>
        exact (congrArg _ hrun.symm).trans hrest

/-- The ranges are kept beside the run of `process_async_reads`, and change nothing in it. -/
theorem processPunches_run (prs : List PageRead) (io : Io) :
    (processPunches kernel prs io).map Prod.snd = processAsyncReads kernel true prs io := by
  induction prs generalizing io with
  | nil => rfl
  | cons pr parents ih =>
    simp only [processPunches, processAsyncReadsWithin, ← asyncPunches_run]
    cases asyncPunches kernel pr.async pr io with
    | error f => rfl
    | ok r =>
      simp only [Except.map, ← ih]
      cases processPunches kernel parents r.2.2 <;> rfl

def Whole (j : PageReadIov) (range : Iovec) : Prop :=
  ∀ o, (range.base ≤ o ∧ o < range.base + range.len) ↔ Spans j o

/-- The first `preadv` of every job, the first of them being read call number `calls`, returns all
that the job asks for. -/
def ReadsAtOnce (size : ℕ) : List PageReadIov → ℕ → Prop
  | [], _ => True
  | j :: rest, calls =>
      (iovTotal j.iovs ≤ kernel calls (iovTotal j.iovs) ∧ iovTotal j.iovs ≤ size - j.start) ∧
        ReadsAtOnce size rest (calls + 1)

def ChainReadsAtOnce : List PageRead → ℕ → Prop
  | [], _ => True
  | pr :: parents, calls =>
      ReadsAtOnce kernel pr.pi.size pr.async calls ∧
        ChainReadsAtOnce parents (calls + pr.async.length)

variable {kernel}

theorem whole_iff (hle : j.start ≤ j.stop) (hret : ret ≤ j.stop - j.start) :
    Whole j ⟨j.start, ret⟩ ↔ ret = j.stop - j.start := by
  constructor
  · intro h
    by_contra hne
    have := ((h (j.start + ret)).mpr ⟨by omega, by omega⟩).2
    dsimp only at this
    omega
  · intro h o
    simp only [Spans]
    omega

variable {r : ℕ × Io} {io : Io} {fuel : ℕ}

/-- A job that is done lies in the image, and its last result is at most what was to be read. -/
theorem jobLoop_bounds (h : jobLoop kernel img fuel j io = .ok r) :
    r.1 ≤ j.stop - j.start ∧ (j.start < j.stop → j.stop ≤ img.size) := by
  induction fuel generalizing j io with
  | zero => cases h
  | succ fuel ih =>
    have hret : readRet kernel img io (iovTotal j.iovs) j.start ≤ img.size - j.start := by
      unfold readRet
      omega
    simp only [jobLoop] at h
    split at h
    · have := ih h
      simp only [advancePiov] at this
      omega
    · cases h
      omega

/-- The range of a job is whole exactly if its first `preadv` returns everything. -/
theorem jobLoop_whole_iff (hk : Progress kernel) (hj : JobShape j)
    (h : jobLoop kernel img (fuel + 1) j io = .ok r) :
    r.1 = j.stop - j.start ↔
      iovTotal j.iovs ≤ kernel io.calls (iovTotal j.iovs) ∧
        iovTotal j.iovs ≤ img.size - j.start := by
  have htotal := hj.total
  have hfirst : readRet kernel img io (iovTotal j.iovs) j.start = iovTotal j.iovs ↔
      iovTotal j.iovs ≤ kernel io.calls (iovTotal j.iovs) ∧
        iovTotal j.iovs ≤ img.size - j.start := by
    unfold readRet
    omega
  have hstored := (jobLoop_bounds h).2
  have hpos : 0 < iovTotal j.iovs → 0 < readRet kernel img io (iovTotal j.iovs) j.start :=
    fun hlt => readRet_pos hk img io hlt (by omega)
  simp only [jobLoop] at h
  split at h
  · have := (jobLoop_bounds h).1
    simp only [advancePiov] at this
    omega
  · cases h
    omega

theorem jobLoop_at_once (fuel : ℕ) (io : Io) (hj : JobShape j)
    (hk : iovTotal j.iovs ≤ kernel io.calls (iovTotal j.iovs))
    (hsize : iovTotal j.iovs ≤ img.size - j.start) :
    ∃ io', jobLoop kernel img (fuel + 1) j io = .ok (j.stop - j.start, io') ∧
      io'.calls = io.calls + 1 := by
  have htotal := hj.total
  have hret : readRet kernel img io (iovTotal j.iovs) j.start = j.stop - j.start := by
    unfold readRet
    omega
  refine ⟨preadv img io j.iovs j.start (j.stop - j.start), ?_, rfl⟩
  simp only [jobLoop, hret, ne_eq, not_true, if_false]

structure AllWhole (jobs : List PageReadIov) (io : Io) (ranges : List Iovec) (io' : Io) : Prop where
  whole : List.Forall₂ Whole jobs ranges
  calls : io'.calls = io.calls + jobs.length

theorem asyncPunches_whole (jobs : List PageReadIov) (pr : PageRead) (io : Io)
    (hshape : ∀ j ∈ jobs, JobShape j) (h : ReadsAtOnce kernel pr.pi.size jobs io.calls) :
    ∃ ranges pr' io', asyncPunches kernel jobs pr io = .ok (ranges, pr', io') ∧
      AllWhole jobs io ranges io' := by
  induction jobs generalizing pr io with
  | nil => exact ⟨[], pr, io, rfl, .nil, rfl⟩
  | cons j rest ih =>
    obtain ⟨⟨hfirst, hsize⟩, hrest⟩ := h
    obtain ⟨hj, hshape⟩ := forall_mem_cons.mp hshape
    have htotal := hj.total
    obtain ⟨io', hloop, hcalls⟩ := jobLoop_at_once (j.stop - j.start) io hj hfirst hsize
    obtain ⟨ranges, pr', io'', hrun, hall⟩ := ih (afterJob true pr j rest (j.stop - j.start)) io'
      hshape (by
        rw [hcalls, (afterJob_punches true pr j rest (le_refl _)).size]
        exact hrest)
    refine ⟨⟨j.start, j.stop - j.start⟩ :: ranges, pr', io'', ?_, .cons ?_ hall.whole, ?_⟩
    · simp only [asyncPunches, hloop, hrun]
    · exact (whole_iff (by omega) (le_refl _)).mpr rfl
    · rw [hall.calls, length_cons]
      omega

theorem asyncPunches_readsAtOnce (hk : Progress kernel) (jobs : List PageReadIov) (pr : PageRead)
    (io : Io) {ranges : List Iovec} {pr' : PageRead} {io' : Io} (hshape : ∀ j ∈ jobs, JobShape j)
    (hrun : asyncPunches kernel jobs pr io = .ok (ranges, pr', io'))
    (hwhole : List.Forall₂ Whole jobs ranges) :
    ReadsAtOnce kernel pr.pi.size jobs io.calls ∧ io'.calls = io.calls + jobs.length := by
  induction jobs generalizing pr io ranges with
  | nil =>
    cases hrun
    exact ⟨trivial, rfl⟩
  | cons j rest ih =>
    obtain ⟨hj, hshape⟩ := forall_mem_cons.mp hshape
    have htotal := hj.total
    rw [asyncPunches] at hrun
    split at hrun
    · cases hrun
    rename_i r hloop
    split at hrun
    · cases hrun
    rename_i others _ hrest
    cases hrun
    obtain ⟨hfirst, hothers⟩ := forall₂_cons.mp hwhole
    have hle := (jobLoop_bounds hloop).1
    have hret := (whole_iff (by omega) hle).mp hfirst
    obtain ⟨hkernel, hsize⟩ := (jobLoop_whole_iff hk hj hloop).mp hret
    obtain ⟨io2, hloop', hcalls⟩ := jobLoop_at_once (j.stop - j.start) io hj hkernel hsize
    obtain rfl : r = (j.stop - j.start, io2) := Except.ok.inj (hloop.symm.trans hloop')
    obtain ⟨hmore, hcalls'⟩ := ih _ _ hshape hrest hothers
    rw [hcalls, (afterJob_punches true pr j rest hle).size] at hmore
    refine ⟨⟨⟨hkernel, hsize⟩, hmore⟩, ?_⟩
    rw [hcalls', hcalls, length_cons]
    omega

/-- With auto-dedup, the ranges passed to `punch_hole` are those of the jobs exactly if no first
`preadv` of a job is short: after a short one, the length of what is punched at the start of the
job is that of the last piece. -/
theorem punched_ranges_whole_iff (hk : Progress kernel) (prs : List PageRead) (io : Io)
    (hshape : ∀ pr ∈ prs, ∀ j ∈ pr.async, JobShape j) :
    (∃ ranges prs' io', processPunches kernel prs io = .ok (ranges, prs', io') ∧
      List.Forall₂ (fun pr mine => List.Forall₂ Whole pr.async mine) prs ranges) ↔
    ChainReadsAtOnce kernel prs io.calls := by
  induction prs generalizing io with
  | nil => exact ⟨fun _ => trivial, fun _ => ⟨[], [], io, rfl, .nil⟩⟩
  | cons pr parents ih =>
    have hlevel : ∀ j ∈ pr.async, JobShape j := hshape pr mem_cons_self
    have hparents : ∀ q ∈ parents, ∀ j ∈ q.async, JobShape j :=
      fun q hq => hshape q (mem_cons_of_mem _ hq)
    constructor
    · rintro ⟨ranges, prs', io', hrun, hwhole⟩
      rw [processPunches] at hrun
      split at hrun
      · cases hrun
      rename_i mine pr' io1 hjobs
      split at hrun
      · cases hrun
      rename_i theirs parents' io2 hrest
      cases hrun
      obtain ⟨hmine, htheirs⟩ := forall₂_cons.mp hwhole
      obtain ⟨hfirst, hcalls⟩ := asyncPunches_readsAtOnce hk pr.async pr io hlevel hjobs hmine
      refine ⟨hfirst, ?_⟩
      rw [← hcalls]
      exact (ih io1 hparents).mp ⟨theirs, parents', _, hrest, htheirs⟩
    · rintro ⟨hfirst, hrest⟩
      obtain ⟨mine, pr', io1, hjobs, hall⟩ := asyncPunches_whole pr.async pr io hlevel hfirst
      rw [← hall.calls] at hrest
      obtain ⟨theirs, parents', io2, hrun, hwhole⟩ := (ih io1 hparents).mpr hrest
      refine ⟨mine :: theirs, pr' :: parents', io2, ?_, .cons hall.whole hwhole⟩
      simp only [processPunches, hjobs, hrun]

theorem unbroken_reads_punch_all :
    Progress (fun _ n => n) ∧
      ∃ ranges prs' io', processPunches (fun _ n => n)
        [queuedLevel ⟨fun _ => 1, 2 * pageSize⟩ [⟨0, 0, pageSize⟩, ⟨pageSize, 0, pageSize⟩]]
          ⟨fun _ => 0, 0⟩ = .ok (ranges, prs', io') ∧
        List.Forall₂ (fun pr mine => List.Forall₂ Whole pr.async mine)
          [queuedLevel ⟨fun _ => 1, 2 * pageSize⟩ [⟨0, 0, pageSize⟩, ⟨pageSize, 0, pageSize⟩]]
          ranges := by
  have hk : Progress (fun _ n => n) := fun _ _ hn => hn
  refine ⟨hk, (punched_ranges_whole_iff hk _ _ ?_).mpr ?_⟩
  · intro pr hpr j hj
    obtain rfl := mem_singleton.mp hpr
    exact (enqueueAll_merged _).shape j hj
  · exact ⟨⟨⟨le_refl _, by decide⟩, trivial⟩, trivial⟩

/-- The first `preadv` of a job of two pages returns one of them. -/
def onePageFirst (calls n : ℕ) : ℕ := if calls = 0 then min n pageSize else n

/-- Of the two pages read, only the first is punched. -/
theorem short_read_punches_half :
    Progress onePageFirst ∧
      (processPunches onePageFirst
        [queuedLevel ⟨fun _ => 1, 2 * pageSize⟩ [⟨0, 0, pageSize⟩, ⟨pageSize, pageSize, pageSize⟩]]
        ⟨fun _ => 0, 0⟩).map Prod.fst = .ok [[⟨0, pageSize⟩]] ∧
      ¬ List.Forall₂ (fun pr mine => List.Forall₂ Whole pr.async mine)
        [queuedLevel ⟨fun _ => 1, 2 * pageSize⟩ [⟨0, 0, pageSize⟩, ⟨pageSize, pageSize, pageSize⟩]]
        [[⟨0, pageSize⟩]] := by
  refine ⟨?_, by decide +kernel, ?_⟩
  · intro k n hn
    unfold onePageFirst
    split
    · simp only [pageSize]
      omega
    · exact hn
  intro h
  obtain ⟨hlevel, -⟩ := forall₂_cons.mp h
  have hin := ((forall₂_cons.mp hlevel).1 pageSize).mpr ⟨by decide, by decide⟩
  exact absurd hin.2 (by decide)

end Dedup

end Criu.AsyncReads

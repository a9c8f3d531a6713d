import Criu.PageIo

/-!
Queues of asynchronous page reads (criu/pagemap.c). A queued request continues
the last `preadv` job or opens a new one; either way processing the queue has the
effect of the old queue followed by a copy of the requested block of the image.
A job read in pieces, after any short results, is the job read at once.
-/

namespace Criu.AsyncQueue

open Pagemap ReadCursor PageIo Blit List

variable {n a : ℕ}

section Scatter

variable (src : ℕ → UInt8)

theorem scatter_zero (mem : ℕ → UInt8) (iovs : List Iovec) (off : ℕ) :
    scatter mem iovs src off 0 = mem := by
  induction iovs with
  | nil => rfl
  | cons iov rest ih => simp [scatter, ih]

/-- A short result followed by the rest of the destinations is the whole transfer. -/
theorem scatter_advance (mem : ℕ → UInt8) (iovs : List Iovec) (off m n : ℕ) :
    scatter (scatter mem iovs src off m) (advanceIovs iovs m) src (off + m) n =
      scatter mem iovs src off (m + n) := by
  induction iovs generalizing mem off m with
  | nil => rfl
  | cons iov rest ih =>
    by_cases hm : m = 0
    · subst m
      simp [advanceIovs, scatter_zero]
    by_cases hle : iov.len ≤ m
    · have h1 : min iov.len m = iov.len := by omega
      have h2 : min iov.len (m + n) = iov.len := by omega
      simp only [scatter, advanceIovs, hm, hle, if_true, if_false, h1, h2]
      have hoff : off + m = off + iov.len + (m - iov.len) := by omega
      rw [hoff, ih]
      congr 1
      omega
    · have h1 : min iov.len m = m := by omega
      have h2 : min iov.len (m + n) = m + min (iov.len - m) n := by omega
      simp only [scatter, advanceIovs, hm, hle, if_false, h1, h2, Nat.sub_self,
        scatter_zero, blit_append]
      congr 1 <;> omega

theorem iovTotal_cons (iov : Iovec) (rest : List Iovec) :
    iovTotal (iov :: rest) = iov.len + iovTotal rest := by
  simp [iovTotal]

theorem iovTotal_advance (iovs : List Iovec) (h : n ≤ iovTotal iovs) :
    iovTotal (advanceIovs iovs n) = iovTotal iovs - n := by
  induction iovs generalizing n with
  | nil => simp [advanceIovs, iovTotal]
  | cons iov rest ih =>
    rw [iovTotal_cons] at h ⊢
    by_cases hn : n = 0
    · simp [advanceIovs, hn, iovTotal_cons]
    by_cases hle : iov.len ≤ n
    · simp only [advanceIovs, hn, hle, if_true, if_false]
      rw [ih (by omega)]
      omega
    · simp only [advanceIovs, hn, hle, if_false, iovTotal_cons]
      omega

/-- An address that no destination contains keeps its cell. -/
theorem scatter_untouched (mem : ℕ → UInt8) (iovs : List Iovec) (off n : ℕ)
    (h : ∀ iov ∈ iovs, ¬ (iov.base ≤ a ∧ a < iov.base + iov.len)) :
    scatter mem iovs src off n a = mem a := by
  induction iovs generalizing mem off n with
  | nil => rfl
  | cons iov rest ih =>
    have hhead := h iov mem_cons_self
    rw [scatter, ih _ _ _ (fun i hi => h i (mem_cons_of_mem _ hi))]
    exact blit_outside _ _ (by omega)

theorem scatter_congr_src {src src' : ℕ → UInt8} (mem : ℕ → UInt8) (iovs : List Iovec)
    {off : ℕ} (h : ∀ o, off ≤ o → o < off + n → src o = src' o) :
    scatter mem iovs src off n = scatter mem iovs src' off n := by
  induction iovs generalizing mem off n with
  | nil => rfl
  | cons iov rest ih =>
    have hblit : blit mem iov.base src off (min iov.len n) =
        blit mem iov.base src' off (min iov.len n) :=
      blit_congr_src (fun o hlo hhi => h o hlo (by omega))
    rw [scatter, hblit]
    exact ih _ (fun o hlo hhi => h o (by omega) (by omega))

theorem scatter_append (mem : ℕ → UInt8) (l r : List Iovec) (off n : ℕ) :
    scatter mem (l ++ r) src off (iovTotal l + n) =
      scatter (scatter mem l src off (iovTotal l)) r src (off + iovTotal l) n := by
  induction l generalizing mem off with
  | nil => simp [scatter, iovTotal]
  | cons iov rest ih =>
    have h1 : min iov.len (iov.len + iovTotal rest + n) = iov.len := by omega
    have h2 : min iov.len (iov.len + iovTotal rest) = iov.len := by omega
    simp only [cons_append, scatter, iovTotal_cons, h1, h2]
    have h3 : iov.len + iovTotal rest + n - iov.len = iovTotal rest + n := by omega
    have h4 : iov.len + iovTotal rest - iov.len = iovTotal rest := by omega
    rw [h3, h4, ih, Nat.add_assoc]

theorem scatter_concat (mem : ℕ → UInt8) (l : List Iovec) (off buf len : ℕ) :
    scatter mem (l ++ [⟨buf, len⟩]) src off (iovTotal l + len) =
      blit (scatter mem l src off (iovTotal l)) buf src (off + iovTotal l) len := by
  rw [scatter_append]
  simp [scatter]

end Scatter

def applyJobs (src : ℕ → UInt8) : List PageReadIov → (ℕ → UInt8) → ℕ → UInt8
  | [], mem => mem
  | j :: rest, mem => applyJobs src rest (scatter mem j.iovs src j.start (j.stop - j.start))

/-- Jobs cover increasing ranges of the image between `lo` and `hi`. -/
def JobsIn (lo hi : ℕ) : List PageReadIov → Prop
  | [] => lo ≤ hi
  | j :: rest => lo ≤ j.start ∧ j.stop = j.start + iovTotal j.iovs ∧ JobsIn j.stop hi rest

/-- Where the first job starts, or `dflt` when there is none. -/
def queueStart (dflt : ℕ) : List PageReadIov → ℕ
  | [] => dflt
  | j :: _ => j.start

def Targets (jobs : List PageReadIov) (a : ℕ) : Prop :=
  ∃ j ∈ jobs, ∃ iov ∈ j.iovs, iov.base ≤ a ∧ a < iov.base + iov.len

section Jobs

variable {src : ℕ → UInt8}

theorem applyJobs_append (l r : List PageReadIov) (mem : ℕ → UInt8) :
    applyJobs src (l ++ r) mem = applyJobs src r (applyJobs src l mem) := by
  induction l generalizing mem with
  | nil => rfl
  | cons j rest ih => exact ih _

theorem applyJobs_untouched (mem : ℕ → UInt8) (jobs : List PageReadIov)
    (h : ¬ Targets jobs a) : applyJobs src jobs mem a = mem a := by
  induction jobs generalizing mem with
  | nil => rfl
  | cons j rest ih =>
    have hrest : ¬ Targets rest a := by
      rintro ⟨j', hj', hiov⟩
      exact h ⟨j', mem_cons_of_mem _ hj', hiov⟩
    rw [applyJobs, ih _ hrest]
    apply scatter_untouched
    intro iov hiov ha
    exact h ⟨j, mem_cons_self .., iov, hiov, ha⟩

variable {jobs queue : List PageReadIov} {lo buf len hi piOff : ℕ} {j : PageReadIov}

theorem jobsIn_le (h : JobsIn lo hi jobs) : lo ≤ hi := by
  induction jobs generalizing lo with
  | nil => exact h
  | cons j rest ih =>
    obtain ⟨h1, h2, h3⟩ := h
    have := ih h3
    omega

theorem jobsIn_concat {mid : ℕ} (h : JobsIn lo mid jobs)
    (hj : mid ≤ j.start) (hstop : j.stop = j.start + iovTotal j.iovs) :
    JobsIn lo j.stop (jobs ++ [j]) := by
  induction jobs generalizing lo with
  | nil => exact ⟨le_trans h hj, hstop, le_refl _⟩
  | cons i rest ih => exact ⟨h.1, h.2.1, ih h.2.2⟩

theorem jobsIn_dropLast (h : JobsIn lo hi (jobs ++ [j])) :
    JobsIn lo j.start jobs ∧ j.stop = j.start + iovTotal j.iovs := by
  induction jobs generalizing lo with
  | nil => exact ⟨h.1, h.2.1⟩
  | cons i rest ih =>
    obtain ⟨h1, h2⟩ := ih h.2.2
    exact ⟨⟨h.1, h.2.1, h1⟩, h2⟩

/-- `queue'` is the queue after a read of `len` bytes at `piOff` into `buf`. -/
structure Queued (src : ℕ → UInt8) (lo piOff buf len : ℕ)
    (queue queue' : List PageReadIov) : Prop where
  jobs : JobsIn lo (piOff + len) queue'
  apply : ∀ mem, applyJobs src queue' mem = blit (applyJobs src queue mem) buf src piOff len
  targets : ∀ a, Targets queue' a ↔ Targets queue a ∨ (buf ≤ a ∧ a < buf + len)
  head : queueStart (piOff + len) queue' = queueStart piOff queue

theorem queued_new (buf len : ℕ) (h : JobsIn lo piOff queue) :
    Queued src lo piOff buf len queue (queue ++ [⟨piOff, piOff + len, [⟨buf, len⟩]⟩]) := by
  refine ⟨?_, ?_, ?_, ?_⟩
  · exact jobsIn_concat (j := ⟨piOff, piOff + len, [⟨buf, len⟩]⟩) h (le_refl _) (by simp [iovTotal])
  · simp [applyJobs_append, applyJobs, scatter]
  · simp [Targets]
  · cases queue <;> rfl

/-- Destinations that are the old ones followed by a block of `len` bytes at `buf`. -/
structure Appends (buf len : ℕ) (old iovs : List Iovec) : Prop where
  total : iovTotal iovs = iovTotal old + len
  scatter : ∀ (src : ℕ → UInt8) mem off, scatter mem iovs src off (iovTotal old + len) =
    blit (scatter mem old src off (iovTotal old)) buf src (off + iovTotal old) len
  targets : ∀ a, (∃ i ∈ iovs, i.base ≤ a ∧ a < i.base + i.len) ↔
    (∃ i ∈ old, i.base ≤ a ∧ a < i.base + i.len) ∨ (buf ≤ a ∧ a < buf + len)
  nonempty : iovs ≠ []
  count : old.length < iovMax → iovs.length < iovMax

theorem appends_concat {old : List Iovec} (hcount : old.length < iovMax → old.length + 1 < iovMax) :
    Appends buf len old (old ++ [⟨buf, len⟩]) := by
  refine ⟨?_, fun src mem off => scatter_concat src mem old off buf len, ?_, ?_, ?_⟩
  · simp [iovTotal]
  · simp
  · exact append_ne_nil_of_right_ne_nil _ (cons_ne_nil _ _)
  · rw [length_append]
    exact hcount

theorem appends_grow {init : List Iovec} {iov : Iovec} (hbuf : iov.base + iov.len = buf) :
    Appends buf len (init ++ [iov]) (init ++ [⟨iov.base, iov.len + len⟩]) := by
  have htotal : iovTotal (init ++ [iov]) = iovTotal init + iov.len := by simp [iovTotal]
  refine ⟨?_, ?_, ?_, ?_, ?_⟩
  · simp [iovTotal, Nat.add_assoc]
  · intro src mem off
    rw [htotal, Nat.add_assoc, scatter_concat, scatter_concat, ← hbuf, ← Nat.add_assoc, blit_append]
  · intro a
    have hsplit : (iov.base ≤ a ∧ a < iov.base + (iov.len + len)) ↔
        (iov.base ≤ a ∧ a < iov.base + iov.len) ∨ (buf ≤ a ∧ a < buf + len) := by
      omega
    simp [hsplit, or_assoc]
  · exact append_ne_nil_of_right_ne_nil _ (cons_ne_nil _ _)
  · simp

/-- What `pagemap_enqueue_iovec` does to a queue. -/
inductive Enqueued (piOff buf len : ℕ) (queue : List PageReadIov) : List PageReadIov → Prop
  | new : Enqueued piOff buf len queue (queue ++ [⟨piOff, piOff + len, [⟨buf, len⟩]⟩])
  | extend {front : List PageReadIov} {cur : PageReadIov} {iovs : List Iovec} :
      queue = front ++ [cur] → piOff = cur.stop → Appends buf len cur.iovs iovs →
      Enqueued piOff buf len queue (front ++ [⟨cur.start, cur.stop + len, iovs⟩])

theorem enqueue_enqueued (piOff buf len : ℕ) (queue : List PageReadIov) :
    Enqueued piOff buf len queue (pagemapEnqueueIovec piOff buf len queue) := by
  unfold pagemapEnqueueIovec
  cases hlast : queue.getLast? with
  | none => exact .new
  | some cur =>
    obtain ⟨front, rfl⟩ := getLast?_eq_some_iff.mp hlast
    simp only [dropLast_concat]
    by_cases hcont : piOff = cur.stop
    · rw [if_neg (not_not.mpr hcont)]
      cases hiov : cur.iovs.getLast? with
      | none =>
        have hnil : cur.iovs = [] := getLast?_eq_none_iff.mp hiov
        refine .extend rfl hcont ?_
        rw [hnil]
        have hone : Appends buf len [] ([] ++ [⟨buf, len⟩]) := appends_concat fun _ => by decide
        exact hone
      | some iov =>
        obtain ⟨init, hinit⟩ := getLast?_eq_some_iff.mp hiov
        dsimp only
        split
        · rename_i hbuf
          refine .extend rfl hcont ?_
          rw [hinit, dropLast_concat]
          exact appends_grow hbuf
        · split
          · exact .new
          · rename_i hmax
            exact .extend rfl hcont (appends_concat fun _ => Nat.lt_of_not_le hmax)
    · rw [if_pos hcont]
      exact .new

/-- Continuing the last job by destinations that append the requested block. -/
theorem queued_extend {front : List PageReadIov} {cur : PageReadIov} {iovs : List Iovec}
    (h : JobsIn lo cur.stop (front ++ [cur])) (hiovs : Appends buf len cur.iovs iovs) :
    Queued src lo cur.stop buf len (front ++ [cur])
      (front ++ [⟨cur.start, cur.stop + len, iovs⟩]) := by
  obtain ⟨hfront, hcur⟩ := jobsIn_dropLast h
  refine ⟨?_, ?_, ?_, ?_⟩
  · refine jobsIn_concat (j := ⟨cur.start, cur.stop + len, iovs⟩) hfront (le_refl _) ?_
    simp only [hiovs.total]
    omega
  · intro mem
    have h1 : cur.stop + len - cur.start = iovTotal cur.iovs + len := by omega
    have h2 : cur.stop - cur.start = iovTotal cur.iovs := by omega
    simp only [applyJobs_append, applyJobs, h1, h2, hiovs.scatter]
    rw [← hcur]
  · simp [Targets, hiovs.targets, or_assoc]
  · cases front <;> rfl

/-- A queued read delivers, after the jobs already queued, exactly the requested
block of the image, whether it opens a job or continues the last one. -/
theorem enqueue_queued (src : ℕ → UInt8) (buf len : ℕ) (h : JobsIn lo piOff queue) :
    Queued src lo piOff buf len queue (pagemapEnqueueIovec piOff buf len queue) := by
  have hq := enqueue_enqueued piOff buf len queue
  generalize pagemapEnqueueIovec piOff buf len queue = queue' at hq
  cases hq with
  | new => exact queued_new buf len h
  | extend hqueue hcont hiovs =>
    subst hqueue hcont
    exact queued_extend h hiovs

end Jobs

end Criu.AsyncQueue

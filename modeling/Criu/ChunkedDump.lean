import Criu.TaskDump

/-!
The dump in chunk mode writes the pages and holes of the task in the order of the walk, as
if the page pipe never had to be drained. Each round of the walk collects a stretch of the
calls that a single round would make, the next round starts at the page the last one could
not add, and between the rounds all pipes are empty and `args->off` points behind the
iovecs used so far.
-/

namespace Criu.ChunkedDump

open List Pagemap ReadCursor PageIo PipeBuffers PipeContents SnapshotChain Dedup ImageWriter
  DumpPlan DumpPages ChunkMode ParasiteDrain TaskDump

variable {pp pp' : PagePipe} {calls part : List AddCall} {flags addr off n : ℕ} {run : DumpRun}
  {hasParent lazyPages : Bool} {snaps : List Snapshot} {e : VmaEntry} {k : PipeKernel}
  {opts : DumpOpts} {task : Task} {kernel : ℕ → ℕ → ℕ → ℕ} {parentMode : Option PreDumpMode}

section Calls

variable (opts : DumpOpts) (task : Task)

/-- What the walk adds for `n` pages of an area from the offset on. -/
def vmaCalls (e : VmaEntry) (hasParent : Bool) : ℕ → ℕ → List AddCall
  | 0, _ => []
  | n + 1, off =>
      (pageCall opts task e hasParent (e.start + off)).toList ++
        vmaCalls e hasParent n (off + pageSize)

def areaCalls (parentMode : Option PreDumpMode) (hasParent : Bool) (e : VmaEntry) :
    List AddCall :=
  match vmaHasParent opts false parentMode e hasParent with
  | none => []
  | some hasParent' => vmaCalls opts task e hasParent' e.nrPages 0

def taskCalls (parentMode : Option PreDumpMode) (hasParent : Bool) : List AddCall :=
  task.vmas.flatMap (areaCalls opts task parentMode hasParent)

end Calls

section Append

variable {start : ℕ}

theorem pagesOf_append (a b : List AddCall) : pagesOf (a ++ b) = pagesOf a ++ pagesOf b := by
  simp [pagesOf]

theorem holesOf_append (a b : List AddCall) : holesOf (a ++ b) = holesOf a ++ holesOf b := by
  simp [holesOf]

theorem holds_add_page (h : Holds start calls pp)
    (hc : Collected start (pagesOf calls ++ [(addr, flags)]) pp') (hh : pp'.holes = pp.holes) :
    Holds start (calls ++ [.page addr flags]) pp' := by
  refine ⟨?_, hh ▸ h.whole, ?_⟩
  · rw [pagesOf_append]
    exact hc
  · rw [hh, h.holes]
    simp [holesOf, AddCall.isPage]

theorem holds_add_hole (h : Holds start calls pp) (addr flags : ℕ) :
    ∃ holes, pagePipeAddHole pp addr flags = { pp with holes := holes } ∧
      Holds start (calls ++ [.hole addr flags]) { pp with holes := holes } := by
  obtain ⟨holes, heq, hadded⟩ := pagePipeAddHole_ok pp addr flags h.whole
  refine ⟨holes, heq, ?_, hadded.whole, ?_⟩
  · have hpages : pagesOf (calls ++ [.hole addr flags]) = pagesOf calls := by
      simp [pagesOf, AddCall.isPage]
    rw [hpages]
    exact { h.collected with }
  · rw [hadded.pages, h.holes, holesOf_append]
    rfl

end Append

variable {vmas : List VmaEntry} {c : AddCall}

section Walk

theorem pageCall_addr {vaddr : ℕ} (h : pageCall opts task e hasParent vaddr = some c) :
    c.addr = vaddr := by
  unfold pageCall at h
  split at h
  · simp at h
  · split at h <;>
    · cases h
      rfl

structure Walked (opts : DumpOpts) (task : Task) (e : VmaEntry) (hasParent : Bool) (start n off : ℕ)
    (chunk : List AddCall) (pp : PagePipe) (again : Bool) (m : ℕ) (done : List AddCall)
    (pp' : PagePipe) : Prop where
  le : m ≤ n
  calls : vmaCalls opts task e hasParent n off =
    done ++ vmaCalls opts task e hasParent (n - m) (off + m * pageSize)
  holds : Holds start (chunk ++ done) pp'
  capped : Capped pp'
  nrIovs : pp'.nrIovs = pp.nrIovs
  finished : again = false → m = n ∧ (done = [] → pp' = pp)
  full : again = true → Full pp' ∧ (done = [] → pp.freeBufs = []) ∧ ∃ flags rest,
    vmaCalls opts task e hasParent (n - m) (off + m * pageSize) =
      .page (e.start + (off + m * pageSize)) flags :: rest

theorem generateIovs_walked (hg : Grants k) (opts : DumpOpts) (task : Task) (e : VmaEntry)
    (hasParent : Bool) {start : ℕ} (n off : ℕ) (chunk : List AddCall) (pp : PagePipe)
    (h : Holds start chunk pp) (hcap : Capped pp)
    (hiovs : start + (pagesOf (chunk ++ vmaCalls opts task e hasParent n off)).length ≤ pp.nrIovs) :
    ∃ again m done pp',
      generateIovs opts task k e hasParent n off pp = .ok (again, off + m * pageSize, pp') ∧
      Walked opts task e hasParent start n off chunk pp again m done pp' := by
  induction n generalizing off chunk pp with
  | zero =>
    refine ⟨false, 0, [], pp, by simp [generateIovs], le_refl _, by simp, ?_, hcap,
      rfl, ?_,
      by simp⟩
    · rwa [append_nil]
    · exact fun _ => ⟨rfl, fun _ => rfl⟩
  | succ n ih =>
    have hstep : ∀ m, off + pageSize + m * pageSize = off + (m + 1) * pageSize := by
      intro m
      rw [Nat.succ_mul]
      omega
    -- the call of this page is made, and the rest of the walk follows
    have hnext : ∀ (front : List AddCall) (pp1 : PagePipe),
        vmaCalls opts task e hasParent (n + 1) off =
          front ++ vmaCalls opts task e hasParent n (off + pageSize) →
        Holds start (chunk ++ front) pp1 → Capped pp1 → pp1.nrIovs = pp.nrIovs →
        (front = [] → pp1 = pp) →
        ∃ again m done pp',
          generateIovs opts task k e hasParent n (off + pageSize) pp1 =
            .ok (again, off + m * pageSize, pp') ∧
          Walked opts task e hasParent start (n + 1) off chunk pp again m done pp' := by
      intro front pp1 hcalls h1 hcap1 hn1 hsame
      rw [hcalls, ← append_assoc, ← hn1] at hiovs
      obtain ⟨again, m, done, pp', hrun, hw⟩ :=
        ih (off + pageSize) (chunk ++ front) pp1 h1 hcap1 hiovs
      have hsub : n + 1 - (m + 1) = n - m := by omega
      refine ⟨again, m + 1, front ++ done, pp', ?_, Nat.succ_le_succ hw.le, ?_, ?_, hw.capped,
        hw.nrIovs.trans hn1, ?_, ?_⟩
      · rw [hrun, hstep]
      · rw [hcalls, hw.calls, hstep, hsub, append_assoc]
      · rw [← append_assoc]
        exact hw.holds
      · intro hagain
        refine ⟨by rw [(hw.finished hagain).1], ?_⟩
        intro hnil
        obtain ⟨hf, hd⟩ := append_eq_nil_iff.mp hnil
        rw [(hw.finished hagain).2 hd, hsame hf]
      intro hagain
      obtain ⟨hfull, hfree, hpage⟩ := hw.full hagain
      rw [hstep] at hpage
      refine ⟨hfull, ?_, hsub ▸ hpage⟩
      intro hnil
      obtain ⟨hf, hd⟩ := append_eq_nil_iff.mp hnil
      rw [← hsame hf]
      exact hfree hd
    cases hcall : pageCall opts task e hasParent (e.start + off) with
    | none =>
      simp only [generateIovs, hcall]
      refine hnext [] pp (by simp [vmaCalls, hcall]) ?_ hcap rfl (fun _ => rfl)
      rwa [append_nil]
    | some c =>
      have haddr := pageCall_addr hcall
      cases c with
      | hole vaddr flags =>
        obtain ⟨holes, heq, h1⟩ := holds_add_hole h vaddr flags
        simp only [generateIovs, hcall, heq]
        refine hnext [.hole vaddr flags] _ (by simp [vmaCalls, hcall]) h1 ?_ rfl (by simp)
        exact hcap.of_perm rfl rfl rfl (List.Perm.refl _)
      | page vaddr flags =>
        have hcalls : vmaCalls opts task e hasParent (n + 1) off =
            [.page vaddr flags] ++ vmaCalls opts task e hasParent n (off + pageSize) := by
          simp [vmaCalls, hcall]
        have hroom : start + (pagesOf chunk).length < pp.nrIovs := by
          rw [hcalls, pagesOf_append, pagesOf_append, length_append, length_append] at hiovs
          have : (pagesOf [AddCall.page vaddr flags]).length = 1 := rfl
          omega
        obtain ⟨again, pp1, hadd, hc1, hcap1, hn1, hh1, hagain⟩ := addPage_chunk hg opts.lazyPages
          hcap h.collected vaddr flags hroom
        simp only [generateIovs, hcall, hadd]
        cases again with
        | false => exact hnext _ pp1 hcalls (holds_add_page h hc1 hh1) hcap1 hn1 (by simp)
        | true =>
          obtain ⟨hfull, hfree⟩ := hagain rfl
          refine ⟨true, 0, [], pp1, by simp, Nat.zero_le _, by simp, ?_, hcap1, hn1, by simp, ?_⟩
          · rw [append_nil]
            exact ⟨hc1, hh1 ▸ h.whole, hh1 ▸ h.holes⟩
          · intro _
            refine ⟨hfull, fun _ => hfree, flags,
              vmaCalls opts task e hasParent n (off + pageSize), ?_⟩
            have haddr : vaddr = e.start + off := haddr
            simpa [← haddr] using hcalls

end Walk

structure Plan (snaps : List Snapshot) (calls : List AddCall) : Prop where
  increasing : Increasing calls
  fits : Fits calls
  flags : ∀ c ∈ calls, c.isPage = false → c.flags = ppHoleParent
  backed : HolesBacked snaps 0 calls

def ZeroOk (calls : List AddCall) : Prop :=
  (∃ flags, AddCall.page 0 flags ∈ calls) → ∀ c ∈ calls, c.isPage = true

theorem ZeroOk.subset (h : ZeroOk calls) (hs : part ⊆ calls) : ZeroOk part := by
  rintro ⟨flags, hpage⟩ c hc
  exact h ⟨flags, hs hpage⟩ c (hs hc)

theorem Plan.sublist (h : Plan snaps calls) (hs : part.Sublist calls) : Plan snaps part := by
  have hsub := hs.subset
  refine ⟨⟨h.increasing.sorted.sublist hs, fun c hc => h.increasing.aligned c (hsub hc)⟩,
    ⟨lt_of_le_of_lt ((hs.filter _).map _).length_le h.fits.pages, ?_⟩,
    fun c hc => h.flags c (hsub hc), fun c hc => h.backed c (hsub hc)⟩
  intro a hrun
  refine h.fits.holes a ?_
  intro i hi
  obtain ⟨flags, hmem⟩ := hrun i hi
  exact ⟨flags, hsub hmem⟩

/-- Between two rounds: the images have the calls done so far, the parent images can be read
from `v` on, all pipes are empty, and every buffer was drained from the place of its iovecs. -/
structure ImagesOk (task : Task) (snaps : List Snapshot) (v : ℕ) (done : List AddCall)
    (run : DumpRun) : Prop where
  written : WritesCalls task.mem 0 true done run.xfer.pmi run.xfer.pi
  offset : run.xfer.offset = 0
  transferLazy : run.xfer.transferLazy = true
  parent : ParentOk snaps v run.xfer.parent
  pipes : ∀ p, run.drain.pipes p = []
  log : ∀ d ∈ run.drain.log, d.1 = d.2

section Rounds

variable {done chunk : List AddCall} {v w : ℕ}

/-- Draining in chunk mode fills each pipe with the iovecs of its buffer. -/
theorem drainPages_ok (h : Holds run.drain.off chunk run.pp) (hcap : Capped run.pp)
    (hi : ImagesOk task snaps v done run) :
    ∃ pipes log, drainPages task.mem run.pp run.drain = .ok ⟨pipes, run.pp.freeIov, log⟩ ∧
      (∀ d ∈ log, d.1 = d.2) ∧ PipesHold task.mem (fun _ => True) (items run.pp) pipes := by
  have hnodup : (run.pp.bufs.map PagePipeBuf.pipe).Nodup := by
    have := hcap.nodup
    rw [map_append] at this
    exact (nodup_append.mp this).1
  obtain ⟨pipes, hrun, hpipes⟩ := drainBufs_ok task.mem run.drain h.collected.tiled
    h.collected.bufs (by
      intro b hb
      have hroom := (h.collected.bufs b hb).room
      have hfits := hcap.fits b (mem_append_left _ hb)
      exact ⟨by omega, hi.pipes _⟩) hnodup
  refine ⟨pipes, _, hrun, ?_, ?_⟩
  · exact forall_mem_append.mpr ⟨hi.log, forall_mem_map.mpr fun _ _ => rfl⟩
  · intro p _
    rw [hpipes p, hi.pipes p, ← fillPipes_items]
    rfl

/-- Draining and writing a chunk adds its calls to the images. -/
theorem drainAndXfer_ok (hk : ∀ i c n, 0 < n → 0 < kernel i c n) (opts : DumpOpts)
    (run : DumpRun) (hplan : Plan snaps (done ++ chunk)) (hzero : ZeroOk chunk)
    (h : Holds run.drain.off chunk run.pp) (hcap : Capped run.pp)
    (hi : ImagesOk task snaps v done run) (hv : ∀ c ∈ chunk, v ≤ c.addr)
    (hw : ∀ c ∈ chunk, c.addr + pageSize ≤ w) (hvw : v ≤ w) :
    ∃ xfer drain, drainAndXfer kernel opts task run =
        .ok { run with xfer := xfer, drain := drain } ∧
      ImagesOk task snaps w (done ++ chunk) { run with xfer := xfer, drain := drain } ∧
      drain.off = run.pp.freeIov := by
  obtain ⟨pipes, log, hdrain, hlog, hpipes⟩ := drainPages_ok h hcap hi
  have hchunk := hplan.sublist (sublist_append_right done chunk)
  obtain ⟨st, pmi, pi, hrun, hparent, hempty, hpmi, hpi, hwrites⟩ := dump_holds
    (hk run.restarts.length) opts.autoDedup run.xfer h hchunk.increasing
    hchunk.fits (by simp [hi.offset]) (hi.offset ▸ hchunk.backed) hchunk.flags hzero hi.parent
      (by simpa [hi.offset] using hv)
    (by simpa [hi.offset] using hw) hvw hpipes (by
      intro it _
      rw [itemPresent_eq, hi.transferLazy]
      simp)
  obtain ⟨-, hoff, hlazy, -⟩ := pageXferDumpPages_eq hrun
  rw [hi.offset, hi.transferLazy] at hwrites
  refine ⟨st.xfer, ⟨st.pipes, run.pp.freeIov, log⟩, by simp only [drainAndXfer, hdrain, hrun],
    ?_, rfl⟩
  refine ⟨?_, hoff.trans hi.offset, hlazy.trans hi.transferLazy, hparent, ?_, hlog⟩
  · simp only [hpmi, hpi]
    exact hi.written.append hwrites hplan.increasing (fun _ _ => Nat.zero_le _)
  · intro p
    simpa using hempty p trivial

/-- The state of the walk: `done` is written, `chunk` is in the page pipe, and `rest` is still
to be added. No earlier restart was at a call to come, unless the page pipe can still grow. -/
structure RunOk (task : Task) (snaps : List Snapshot) (v : ℕ) (done chunk rest : List AddCall)
    (run : DumpRun) : Prop where
  images : ImagesOk task snaps v done run
  holds : Holds run.drain.off chunk run.pp
  capped : Capped run.pp
  above : ∀ c ∈ chunk ++ rest, v ≤ c.addr
  room : run.drain.off + (pagesOf (chunk ++ rest)).length ≤ run.pp.nrIovs
  restarts : run.restarts.Pairwise (· < ·)
  fresh : ∀ r ∈ run.restarts, (∀ c ∈ rest, r < c.addr) ∨
    (run.pp.freeBufs ≠ [] ∧ ∀ c ∈ rest, r ≤ c.addr)

structure Going (task : Task) (snaps : List Snapshot) (calls : List AddCall) (v : ℕ)
    (done chunk rest : List AddCall) (run : DumpRun) : Prop where
  ok : RunOk task snaps v done chunk rest run
  plan : Plan snaps calls
  split : done ++ chunk ++ rest = calls
  zero : ZeroOk (chunk ++ rest)

variable {dn rest : List AddCall} {a : ℕ}

theorem Going.round (hgo : Going task snaps calls v done chunk (dn ++ rest) run)
    (hholds : Holds run.drain.off (chunk ++ dn) pp) (hcap : Capped pp)
    (hn : pp.nrIovs = run.pp.nrIovs) (hsame : dn = [] → pp = run.pp) :
    Going task snaps calls v done (chunk ++ dn) rest { run with pp := pp } := by
  obtain ⟨h, hplan, rfl, hzero⟩ := hgo
  have hrest := (pairwise_append.mp hplan.increasing.sorted).2.1
  have hcross := (pairwise_append.mp hrest).2.2
  refine ⟨?_, hplan, by simp, by rwa [append_assoc]⟩
  refine ⟨{ h.images with }, hholds, hcap, ?_, ?_, h.restarts, ?_⟩
  · rw [append_assoc]
    exact h.above
  · rw [append_assoc]
    exact hn ▸ h.room
  intro r hr
  rcases h.fresh r hr with hlt | ⟨hfree, hle⟩
  · exact Or.inl fun c hc => hlt c (mem_append_right _ hc)
  · cases dn with
    | nil => exact Or.inr ⟨by rw [hsame rfl]; exact hfree, hle⟩
    | cons d dn =>
      refine Or.inl fun c hc => ?_
      exact lt_of_le_of_lt (hle d (by simp)) (hcross d (by simp) c hc)

/-- A round that stopped at the page `a`: the chunk is written, and the walk can go on there
with a page pipe that has room for it. -/
theorem Going.again (hk : ∀ i c n, 0 < n → 0 < kernel i c n) (k : PipeKernel) (opts : DumpOpts)
    (hgo : Going task snaps calls v done chunk (dn ++ .page a flags :: rest) run)
    (hholds : Holds run.drain.off (chunk ++ dn) pp) (hcap : Capped pp) (hfull : Full pp)
    (hn : pp.nrIovs = run.pp.nrIovs) (hfree : dn = [] → run.pp.freeBufs = []) :
    ∃ xfer drain pp', drainAndXfer kernel opts task { run with pp := pp } =
        .ok ⟨pp, xfer, drain, run.restarts⟩ ∧
      pagePipeReinit k opts.lazyPages pp = .ok pp' ∧ pp'.freeBufs ≠ [] ∧
      Going task snaps calls a (done ++ chunk ++ dn) [] (.page a flags :: rest)
        ⟨pp', xfer, drain, run.restarts ++ [a]⟩ := by
  obtain ⟨h, hplan, rfl, hzero⟩ := hgo
  have hsorted := hplan.increasing.sorted
  rw [← append_assoc, pairwise_append, pairwise_cons] at hsorted
  obtain ⟨-, ⟨hafter, -⟩, hbefore⟩ := hsorted
  have hbefore : ∀ c ∈ done ++ chunk ++ dn, c.addr + pageSize ≤ a := by
    intro c hc
    have hlt := hbefore c hc _ mem_cons_self
    obtain ⟨i, hi⟩ := hplan.increasing.aligned c
      (by rw [← append_assoc]; exact mem_append_left _ hc)
    obtain ⟨j, hj⟩ := hplan.increasing.aligned (.page a flags) (by simp)
    simp only [AddCall.addr, pageSize] at *
    omega
  have hge : ∀ c ∈ AddCall.page a flags :: rest, a ≤ c.addr :=
    forall_mem_cons.mpr ⟨le_refl _, fun c hc => le_of_lt (hafter c hc)⟩
  have hva : v ≤ a := h.above (.page a flags) (by simp)
  have hplan' : Plan snaps (done ++ (chunk ++ dn)) := by
    refine hplan.sublist ?_
    rw [← append_assoc, ← append_assoc]
    exact sublist_append_left ..
  obtain ⟨xfer, drain, hrun, himages, hoff⟩ := drainAndXfer_ok hk opts { run with pp := pp }
    hplan' (hzero.subset (by rw [← append_assoc]; exact subset_append_left ..)) hholds hcap
    { h.images with } (by
      intro c hc
      refine h.above c ?_
      rw [← append_assoc]
      exact mem_append_left _ hc) (by
      intro c hc
      refine hbefore c ?_
      rw [append_assoc]
      exact mem_append_right _ hc) hva
  obtain ⟨pp', hre, hc', hcap', hfi, hn', hh', hlen⟩ := reinit_chunk k opts.lazyPages hcap
    hholds.collected
  have hfree' : pp'.freeBufs ≠ [] := by
    intro hnil
    rw [hnil, hfull.2] at hlen
    simp [nrPipesPerChunk] at hlen
  have hold : ∀ r ∈ run.restarts, r < a := by
    intro r hr
    rcases h.fresh r hr with hlt | ⟨hne, hle⟩
    · exact hlt (.page a flags) (by simp)
    cases dn with
    | nil => exact absurd (hfree rfl) hne
    | cons d dn =>
      have := hle d (by simp)
      have := hbefore d (by simp)
      have : 0 < pageSize := by decide
      omega
  refine ⟨xfer, drain, pp', hrun, hre, hfree', ⟨{ himages with written := ?_ },
    ⟨?_, by simp [hh'], by simp [hh', holePages, holesOf]⟩, hcap', hge, ?_, ?_, ?_⟩, hplan,
    by simp, hzero.subset (by simp)⟩
  · rw [append_assoc]
    exact himages.written
  · rw [hoff]
    exact hc'
  · have hused := hholds.collected.used
    have hroom := h.room
    rw [← append_assoc, pagesOf_append, length_append] at hroom
    rw [hoff, nil_append]
    simp only
    omega
  · refine pairwise_append.mpr ⟨h.restarts, pairwise_singleton _ _, ?_⟩
    intro r hr b hb
    rw [mem_singleton.mp hb]
    exact hold r hr
  intro r hr
  right
  refine ⟨hfree', ?_⟩
  intro c hc
  rcases mem_append.mp hr with hr | hr
  · exact le_of_lt (lt_of_lt_of_le (hold r hr) (hge c hc))
  · rw [mem_singleton.mp hr]
    exact hge c hc

theorem Going.finish (hk : ∀ i c n, 0 < n → 0 < kernel i c n) (opts : DumpOpts)
    (hgo : Going task snaps calls v done chunk [] run) :
    ∃ run', drainAndXfer kernel opts task run = .ok run' ∧
      WritesCalls task.mem 0 true calls run'.xfer.pmi run'.xfer.pi ∧
      (∀ d ∈ run'.drain.log, d.1 = d.2) ∧ run'.restarts.Pairwise (· < ·) := by
  obtain ⟨h, hplan, rfl, hzero⟩ := hgo
  rw [append_nil] at hplan hzero ⊢
  obtain ⟨xfer, drain, hlast, himages, -⟩ := drainAndXfer_ok hk opts run hplan hzero h.holds
    h.capped h.images (w := v + ((chunk.map AddCall.addr).sum + pageSize))
    (fun c hc => h.above c (by simpa using hc)) (by
      intro c hc
      have := le_sum_of_mem (mem_map_of_mem (f := AddCall.addr) hc)
      omega) (Nat.le_add_right _ _)
  exact ⟨_, hlast, himages.written, himages.log, h.restarts⟩

end Rounds

section Loop

theorem generateLoop_again {fuel off' : ℕ} {run' : DumpRun} (hgen :
    generateIovs opts task k e hasParent ((e.stop - e.start - off) / pageSize) off run.pp = .ok
    (true, off', pp)) (hchunk : pp.chunkMode = true)
    (hxfer : drainAndXfer kernel opts task { run with pp := pp } = .ok run')
    (hre : pagePipeReinit k opts.lazyPages run'.pp = .ok pp') :
    generateLoop k kernel opts task e hasParent (fuel + 1) off run =
      generateLoop k kernel opts task e hasParent fuel off'
        { run' with pp := pp', restarts := run'.restarts ++ [e.start + off'] } := by
  simp only [generateLoop, hgen, hchunk, Bool.not_true, Bool.false_eq_true, if_false, hxfer, hre]

/-- The walk over the rest of an area ends. A page pipe that can still grow takes the page it
stopped at, so every round but the first makes progress. -/
theorem generateLoop_ok (hg : Grants k) (hk : ∀ i c n, 0 < n → 0 < kernel i c n)
    (later : List AddCall) (fuel n off v : ℕ) (done chunk : List AddCall) (run : DumpRun)
    (hn : n = (e.stop - e.start - off) / pageSize)
    (hfuel : n < fuel ∨ (n ≤ fuel ∧ 0 < n ∧ run.pp.freeBufs ≠ []))
    (h : Going task snaps calls v done chunk (vmaCalls opts task e hasParent n off ++ later) run) :
    ∃ run' v' done' chunk', generateLoop k kernel opts task e hasParent fuel off run = .ok run' ∧
      Going task snaps calls v' done' chunk' later run' := by
  induction fuel generalizing n off v done chunk run with
  | zero => omega
  | succ fuel ih =>
    have hroom := h.ok.room
    rw [← append_assoc, pagesOf_append, length_append] at hroom
    obtain ⟨again, m, dn, pp, hrun, hw⟩ := generateIovs_walked hg opts task e hasParent n off
      chunk run.pp h.ok.holds h.ok.capped (by omega)
    cases again with
    | false =>
      simp only [generateLoop, ← hn, hrun]
      obtain ⟨rfl, hsame⟩ := hw.finished rfl
      have hdn : vmaCalls opts task e hasParent m off = dn := by
        have := hw.calls
        rwa [Nat.sub_self, vmaCalls, append_nil] at this
      rw [hdn] at h
      exact ⟨_, v, done, chunk ++ dn, rfl, h.round hw.holds hw.capped hw.nrIovs hsame⟩
    | true =>
      obtain ⟨hfull, hfree, flags, rest, hpage⟩ := hw.full rfl
      have hcalls := hw.calls
      have hsplit : vmaCalls opts task e hasParent n off ++ later =
          dn ++ .page (e.start + (off + m * pageSize)) flags :: (rest ++ later) := by
        rw [hcalls, hpage]
        simp
      rw [hsplit] at h
      obtain ⟨xfer, drain, pp', hxfer, hre, hne, hnext⟩ := h.again hk k opts hw.holds hw.capped
        hfull hw.nrIovs hfree
      have hm : m < n := by
        by_contra hge
        rw [show n - m = 0 by omega, vmaCalls] at hpage
        simp at hpage
      have hprogress : run.pp.freeBufs ≠ [] → 0 < m := by
        intro hne
        by_contra hzero
        obtain rfl : m = 0 := by omega
        simp only [Nat.sub_zero, Nat.zero_mul, Nat.add_zero, self_eq_append_left] at hcalls
        exact hne (hfree hcalls)
      rw [generateLoop_again (hn ▸ hrun) hw.capped.chunk hxfer hre]
      exact ih (n - m) (off + m * pageSize)
        (e.start + (off + m * pageSize)) (done ++ chunk ++ dn) []
        ⟨pp', xfer, drain, run.restarts ++ [e.start + (off + m * pageSize)]⟩ (by
          rw [hn]
          simp only [pageSize]
          omega) (by
          right
          refine ⟨?_, by omega, hne⟩
          rcases hfuel with hlt | ⟨hle, -, hfr⟩
          · omega
          · have := hprogress hfr
            omega) (by rw [hpage]; exact hnext)

theorem generateVmas_ok (hg : Grants k) (hk : ∀ i c n, 0 < n → 0 < kernel i c n)
    (parentMode : Option PreDumpMode) (hasParent : Bool) {v : ℕ} {done chunk : List AddCall}
    (h : Going task snaps calls v done chunk
      (vmas.flatMap (areaCalls opts task parentMode hasParent)) run) :
    ∃ run' v' done' chunk',
      generateVmas k kernel opts task false parentMode hasParent vmas run = .ok run' ∧
      Going task snaps calls v' done' chunk' [] run' := by
  induction vmas generalizing v done chunk run with
  | nil => exact ⟨run, v, done, chunk, rfl, h⟩
  | cons e vmas ih =>
    rw [flatMap_cons] at h
    simp only [generateVmas, generateVmaIovs]
    cases hvma : vmaHasParent opts false parentMode e hasParent with
    | none =>
      have hnone : areaCalls opts task parentMode hasParent e = [] := by simp [areaCalls, hvma]
      rw [hnone] at h
      exact ih h
    | some hasParent' =>
      have hsome : areaCalls opts task parentMode hasParent e =
          vmaCalls opts task e hasParent' e.nrPages 0 := by simp [areaCalls, hvma]
      rw [hsome] at h
      obtain ⟨run1, v1, done1, chunk1, hrun1, h1⟩ := generateLoop_ok hg hk _
        (e.nrPages + 1) e.nrPages 0 v done chunk run rfl (Or.inl (Nat.lt_succ_self _)) h
      simp only [hrun1]
      exact ih h1

end Loop

section Task

theorem vmaCalls_eq (n off : ℕ) : vmaCalls opts task e hasParent n off =
    (List.range n).filterMap fun i =>
      pageCall opts task e hasParent (e.start + off + i * pageSize) := by
  induction n generalizing off with
  | zero => rfl
  | succ n ih =>
    have hnext : ∀ i, e.start + (off + pageSize) + i * pageSize =
        e.start + off + (i + 1) * pageSize := by
      intro i
      rw [Nat.succ_mul]
      omega
    rw [vmaCalls, ih, range_succ_eq_map, filterMap_cons, filterMap_map]
    simp only [hnext, Nat.zero_mul]
    cases pageCall opts task e hasParent (e.start + off) <;> rfl

theorem mem_vmaCalls {c : AddCall} : c ∈ vmaCalls opts task e hasParent n off ↔
      ∃ i < n, pageCall opts task e hasParent (e.start + off + i * pageSize) = some c := by
  simp [vmaCalls_eq]

theorem vmaCalls_sorted :
    (vmaCalls opts task e hasParent n off).Pairwise (fun a b => a.addr < b.addr) := by
  rw [vmaCalls_eq, pairwise_filterMap]
  refine pairwise_lt_range.imp fun {i j} hij a ha b hb => ?_
  rw [pageCall_addr ha, pageCall_addr hb]
  simp only [pageSize]
  omega

theorem vmaCalls_length : (vmaCalls opts task e hasParent n off).length ≤ n := by
  rw [vmaCalls_eq]
  exact (length_filterMap_le _ _).trans_eq length_range

/-- The calls of an area are at page addresses inside it. -/
theorem areaCalls_inside (hc : c ∈ areaCalls opts task parentMode hasParent e) :
    e.start ≤ c.addr ∧ c.addr < e.stop ∧ (pageSize ∣ e.start → pageSize ∣ c.addr) := by
  unfold areaCalls at hc
  split at hc
  · simp at hc
  obtain ⟨i, hi, hcall⟩ := mem_vmaCalls.mp hc
  have haddr := pageCall_addr hcall
  simp only [VmaEntry.nrPages, pageSize] at *
  refine ⟨by omega, by omega, ?_⟩
  rintro ⟨j, hj⟩
  exact ⟨j + i, by omega⟩

theorem taskCalls_increasing (opts : DumpOpts) (task : Task) (parentMode : Option PreDumpMode)
    (hasParent : Bool) :
    Increasing (taskCalls opts task parentMode hasParent) := by
  refine ⟨?_, ?_⟩
  · rw [taskCalls, pairwise_flatMap]
    refine ⟨?_, task.sorted.imp ?_⟩
    · intro e _
      unfold areaCalls
      split
      · exact .nil
      · exact vmaCalls_sorted
    · intro e e' hle a ha b hb
      have := (areaCalls_inside ha).2.1
      have := (areaCalls_inside hb).1
      omega
  · intro c hc
    obtain ⟨e, he, hc⟩ := mem_flatMap.mp hc
    exact (areaCalls_inside hc).2.2 (task.aligned e he)

/-- Only areas counted as private have pages collected. -/
theorem areaCalls_private (h : e.isPrivate opts.taskSize = false) :
    areaCalls opts task parentMode hasParent e = [] := by
  have hnone : vmaHasParent opts false parentMode e hasParent = none := by
    cases hs : e.is vmaAnonShared <;> simp [vmaHasParent, h]
  simp [areaCalls, hnone]

theorem pagesOf_le (calls : List AddCall) : (pagesOf calls).length ≤ calls.length := by
  rw [pagesOf, length_map]
  exact length_filter_le ..

theorem taskCalls_count (opts : DumpOpts) (task : Task) (parentMode : Option PreDumpMode)
    (hasParent : Bool) :
    (pagesOf (taskCalls opts task parentMode hasParent)).length ≤ nrPrivPages opts task := by
  refine le_trans (pagesOf_le _) ?_
  rw [taskCalls, nrPrivPages]
  induction task.vmas with
  | nil => simp
  | cons e vmas ih =>
    rw [flatMap_cons, length_append, filter_cons]
    cases hp : e.isPrivate opts.taskSize with
    | false => simpa [areaCalls_private hp] using ih
    | true =>
      have hle : (areaCalls opts task parentMode hasParent e).length ≤ e.nrPages := by
        unfold areaCalls
        split
        · simp
        · exact vmaCalls_length
      simp only [if_true, map_cons, sum_cons]
      omega

end Task

section Unlimited

/-- A page that is added asks for no drain. -/
theorem addAll_page (h : addAll k lazyPages (.page addr flags :: calls) pp = .ok pp') :
    ∃ pp₁, pagePipeAddPage k lazyPages pp addr flags = .ok (false, pp₁) ∧
      addAll k lazyPages calls pp₁ = .ok pp' := by
  rw [addAll] at h
  split at h
  · cases h
  · cases h
  · exact ⟨_, ‹_›, h⟩

theorem addAll_append {a b : List AddCall} (h : addAll k lazyPages (a ++ b) pp = .ok pp') :
    ∃ pp₁, addAll k lazyPages a pp = .ok pp₁ ∧ addAll k lazyPages b pp₁ = .ok pp' := by
  induction a generalizing pp with
  | nil => exact ⟨pp, rfl, h⟩
  | cons c a ih =>
    cases c with
    | hole addr flags => exact ih h
    | page addr flags =>
      obtain ⟨pp₁, hadd, h⟩ := addAll_page h
      simp only [addAll, hadd]
      exact ih h

/-- If no call asks for a drain, the walk over an area just makes its calls. -/
theorem generateIovs_addAll
    (h : addAll k opts.lazyPages (vmaCalls opts task e hasParent n off) pp = .ok pp') :
    generateIovs opts task k e hasParent n off pp = .ok (false, off + n * pageSize, pp') := by
  induction n generalizing off pp with
  | zero =>
    cases h
    simp [generateIovs]
  | succ n ih =>
    rw [vmaCalls] at h
    rw [Nat.succ_mul, Nat.add_comm (n * _), ← Nat.add_assoc]
    cases hcall : pageCall opts task e hasParent (e.start + off) with
    | none =>
      simp only [generateIovs, hcall] at h ⊢
      exact ih h
    | some c =>
      cases c with
      | hole addr flags =>
        simp only [generateIovs, hcall] at h ⊢
        exact ih h
      | page addr flags =>
        rw [hcall] at h
        obtain ⟨pp₁, hadd, h⟩ := addAll_page h
        simp only [generateIovs, hcall, hadd]
        exact ih h

theorem collectVmas_addAll
    (h : addAll k opts.lazyPages (vmas.flatMap (areaCalls opts task parentMode hasParent)) pp = .ok
      pp') :
    collectVmas k opts task parentMode hasParent vmas pp = .ok pp' := by
  induction vmas generalizing pp with
  | nil => exact h
  | cons e vmas ih =>
    obtain ⟨pp1, harea, hrest⟩ := addAll_append h
    simp only [collectVmas]
    unfold areaCalls at harea
    cases hvma : vmaHasParent opts false parentMode e hasParent with
    | none =>
      simp only [hvma, addAll, Except.ok.injEq] at harea
      subst harea
      exact ih hrest
    | some hasParent' =>
      simp only [hvma] at harea
      simp only [generateIovs_addAll harea]
      exact ih hrest

end Unlimited

def startRun (k : PipeKernel) (opts : DumpOpts) (task : Task) (iovs : ℕ → Iovec)
    (snaps : List Snapshot) : DumpRun :=
  ⟨freshPipe k opts.lazyPages (nrPrivPages opts task % 2 ^ 32) iovs true,
    ⟨0, true, openChain snaps, [], []⟩, ⟨fun _ => [], 0, []⟩, []⟩

/-- The dump in chunk mode writes the calls of the task. -/
theorem dumpPagesSeized_ok (hg : Grants k)
    (hk : ∀ i c n, 0 < n → 0 < kernel i c n) (opts : DumpOpts) (task : Task)
    (parentMode : Option PreDumpMode) (pidReuse : Bool) (iovs : ℕ → Iovec)
    (hcount : nrPrivPages opts task < 2 ^ 32)
    (hcalls : taskCalls opts task parentMode (!snaps.isEmpty && !pidReuse) = calls)
    (hplan : Plan snaps calls) (hzero : ZeroOk calls) :
    ∃ run, dumpPagesSeized k kernel opts task parentMode pidReuse iovs snaps = .ok run ∧
      WritesCalls task.mem 0 true calls run.xfer.pmi run.xfer.pi ∧
      (∀ d ∈ run.drain.log, d.1 = d.2) ∧ run.restarts.Pairwise (· < ·) := by
  subst hcalls
  have hpages := taskCalls_count opts task parentMode (!snaps.isEmpty && !pidReuse)
  rw [← Nat.mod_eq_of_lt hcount] at hpages
  have hstart : RunOk task snaps 0 [] [] _ (startRun k opts task iovs snaps) :=
    ⟨⟨⟨.nil, by simp [startRun], rfl, rfl⟩, rfl, rfl, openChain_parentOk snaps, fun _ => rfl,
      by simp [startRun]⟩, ⟨freshPipe_collected .., by simp [startRun, freshPipe], rfl⟩,
      freshPipe_capped .., by simp, by simpa [startRun, freshPipe] using hpages, .nil,
      by simp [startRun]⟩
  obtain ⟨run, v, done, chunk, hrun, hok⟩ := generateVmas_ok hg hk parentMode
    (!snaps.isEmpty && !pidReuse) ⟨hstart, hplan, rfl, hzero⟩
  obtain ⟨run', hlast, hwrites⟩ := hok.finish hk opts
  refine ⟨run', ?_, hwrites⟩
  rw [startRun] at hrun
  simp only [dumpPagesSeized, createPagePipe_eq, hrun, hlast]

/-- The dump in chunk mode succeeds and writes the same pages, flags and bytes as the dump with
unlimited pipes. Every buffer is drained from the place of its iovecs, and no two rounds start
at the same page. -/
theorem chunked_dump_eq_unlimited (k k' : PipeKernel) (hg : Grants k)
    (kernel : ℕ → ℕ → ℕ → ℕ) (hk : ∀ i c n, 0 < n → 0 < kernel i c n)
    (kernel' : ℕ → ℕ → ℕ) (hk' : ∀ c n, 0 < n → 0 < kernel' c n) (opts : DumpOpts) (task : Task)
    (parentMode : Option PreDumpMode) (pidReuse : Bool) (iovs : ℕ → Iovec) (snaps : List Snapshot)
    (hcount : nrPrivPages opts task < 2 ^ 32)
    (hd : Dumpable (taskCalls opts task parentMode (!snaps.isEmpty && !pidReuse)))
    (hback : HolesBacked snaps 0 (taskCalls opts task parentMode (!snaps.isEmpty && !pidReuse))) :
    ∃ run st,
      dumpPagesSeized k kernel opts task parentMode pidReuse iovs snaps = .ok run ∧
      dumpUnlimited k' kernel' opts task parentMode pidReuse iovs snaps = .ok st ∧
      expandEntries run.xfer.pmi = expandEntries st.xfer.pmi ∧ run.xfer.pi = st.xfer.pi ∧
      WritesCalls task.mem 0 true (taskCalls opts task parentMode (!snaps.isEmpty && !pidReuse))
        run.xfer.pmi run.xfer.pi ∧
      (∀ d ∈ run.drain.log, d.1 = d.2) ∧ run.restarts.Pairwise (· < ·) := by
  have hpages := taskCalls_count opts task parentMode (!snaps.isEmpty && !pidReuse)
  have hinc := taskCalls_increasing opts task parentMode (!snaps.isEmpty && !pidReuse)
  have hmod : nrPrivPages opts task % 2 ^ 32 = nrPrivPages opts task := Nat.mod_eq_of_lt hcount
  obtain ⟨run, hrun, hwrites, hlog, hrestarts⟩ := dumpPagesSeized_ok hg hk opts task parentMode
    pidReuse iovs hcount rfl ⟨hinc, ⟨by omega, hd.run⟩, hd.flags, hback⟩ hd.zero
  obtain ⟨pp, hadd, h, hs, -⟩ := addAll_holds k' opts.lazyPages iovs (.inl (hmod.symm ▸ hpages))
  obtain ⟨st, hst, hwrites'⟩ := dump_of_dumpable hk' opts.autoDedup
    (show true = false → opts.lazyPages = true by simp) h hs hinc (by omega)
    (fun _ _ => Nat.zero_le _) hback hd task.mem
  refine ⟨run, st, hrun, ?_, ?_, ?_, hwrites, hlog, hrestarts⟩
  · simp only [dumpUnlimited, createPagePipe_eq, collectVmas_addAll hadd, hst]
  · rw [hwrites.pages, hwrites'.pages]
  · rw [hwrites.data, hwrites'.data]

/-- A task with one anonymous area of `n` pages from page `i` on, all written to since the last
dump but the page `clean`. -/
def oneAreaTask (flags i n clean : ℕ) : Task where
  vmas := [⟨i * pageSize, (i + n) * pageSize, protRead, mapPrivate ||| mapAnonymous ||| flags,
    vmaAreaRegular ||| vmaAnonPrivate⟩]
  pme := fun a =>
    if a = clean * pageSize then pmePresent ||| 1 else pmePresent ||| pmeSoftDirty ||| 1
  threadSp := []
  mem := fun _ => 7
  sorted := pairwise_singleton _ _
  aligned := by simp

def trackOpts : DumpOpts := ⟨true, true, false, false, .splice, 0, 2 ^ 47⟩

def growingPipes : PipeKernel := ⟨fun _ => 16, fun _ n => some n, sixteen_pages_pos, by simp⟩

def tinyPipes : PipeKernel :=
  ⟨fun _ => 1, fun _ n => if n ≤ pipeMaxSize then none else some n, by simp, by simp⟩

/-- Nine pages and a hole behind them, in pipes of one page: the ninth page starts a second
round. -/
theorem chunked_dump_page_and_hole :
    ∃ run st,
      dumpPagesSeized tinyPipes (fun _ _ n => n) trackOpts (oneAreaTask mapLocked 1 10 10) none
        false (fun _ => ⟨0, 0⟩) [lonePage 10 5] = .ok run ∧ run.restarts ≠ [] ∧
      dumpUnlimited growingPipes (fun _ n => n) trackOpts (oneAreaTask mapLocked 1 10 10) none
        false (fun _ => ⟨0, 0⟩) [lonePage 10 5] = .ok st ∧
      expandEntries run.xfer.pmi = expandEntries st.xfer.pmi ∧ run.xfer.pi = st.xfer.pi := by
  have hhole : ∀ c ∈ taskCalls trackOpts (oneAreaTask mapLocked 1 10 10) none true,
      c.isPage = false → c = .hole (10 * pageSize) ppHoleParent := by
    decide +kernel
  obtain ⟨run, st, hrun, hst, hpmi, hpi, -⟩ := chunked_dump_eq_unlimited tinyPipes growingPipes
    (fun _ n hn => by simp [tinyPipes, Nat.not_le.mpr hn]) (fun _ _ n => n) (fun _ _ _ h => h)
    (fun _ n => n) (fun _ _ h => h) trackOpts (oneAreaTask mapLocked 1 10 10) none false
    (fun _ => ⟨0, 0⟩) [lonePage 10 5] (by decide) (dumpable_of_hole hhole (by decide +kernel))
    (backed_of_hole hhole)
  obtain ⟨run', hrun', hrestarts⟩ := Run.exists_ok_of_map (f := fun run => run.restarts.isEmpty)
    (show (dumpPagesSeized tinyPipes (fun _ _ n => n) trackOpts (oneAreaTask mapLocked 1 10 10)
      none false (fun _ => ⟨0, 0⟩) [lonePage 10 5]).toOption.map _ = some false by decide +kernel)
  cases hrun.symm.trans hrun'
  exact ⟨run, st, hrun, by simpa using hrestarts, hst, hpmi, hpi⟩

def zeroTask : Task := oneAreaTask mapLocked 0 10 9

/-- The dump with unlimited pipes writes the hole before the pages, since the first is at
address 0; in chunk mode the hole is in a later chunk. -/
theorem page_at_zero_differs :
    ∃ run st,
      dumpPagesSeized tinyPipes (fun _ _ n => n) trackOpts zeroTask none false
        (fun _ => ⟨0, 0⟩) [lonePage 9 5] = .ok run ∧
      dumpUnlimited growingPipes (fun _ n => n) trackOpts zeroTask none false
        (fun _ => ⟨0, 0⟩) [lonePage 9 5] = .ok st ∧
      (expandEntries run.xfer.pmi).head? = some (0, pePresent) ∧
      (expandEntries st.xfer.pmi).head? = some (0x9000, peParent) := by
  obtain ⟨run, hrun, hhead⟩ := Run.exists_ok_of_map
    (f := fun run => (expandEntries run.xfer.pmi).head?)
    (show (dumpPagesSeized tinyPipes (fun _ _ n => n) trackOpts zeroTask none false
      (fun _ => ⟨0, 0⟩) [lonePage 9 5]).toOption.map _ = some (some (0, pePresent)) by
        decide +kernel)
  obtain ⟨st, hst, hhead'⟩ := Run.exists_ok_of_map
    (f := fun st => (expandEntries st.xfer.pmi).head?)
    (show (dumpUnlimited growingPipes (fun _ n => n) trackOpts zeroTask none false
      (fun _ => ⟨0, 0⟩) [lonePage 9 5]).toOption.map _ = some (some (0x9000, peParent)) by
        decide +kernel)
  exact ⟨run, st, hrun, hst, hhead, hhead'⟩

section Cycles

inductive ChunkOp
  | page (addr flags : ℕ)
  | hole (addr flags : ℕ)
  | reinit

variable (k : PipeKernel) (lazyPages : Bool)

def chunkOp (pp : PagePipe) : ChunkOp → Except Fault PagePipe
  | .page addr flags => (pagePipeAddPage k lazyPages pp addr flags).map Prod.snd
  | .hole addr flags => .ok (pagePipeAddHole pp addr flags)
  | .reinit => pagePipeReinit k lazyPages pp

/-- The iovecs that an operation may use. -/
def ChunkOp.iovs : ChunkOp → ℕ
  | .page .. => 1
  | .hole .. | .reinit => 0

variable {k}

theorem chunkOps_capped (hg : Grants k) {ops : List ChunkOp} {pp : PagePipe} {start : ℕ}
    {pages : List (ℕ × ℕ)} (hc : Collected start pages pp) (h : Capped pp)
    (hiovs : start + pages.length + (ops.map ChunkOp.iovs).sum ≤ pp.nrIovs) :
    ∃ pp', ops.foldlM (chunkOp k lazyPages) pp = .ok pp' ∧ Capped pp' := by
  induction ops generalizing pp start pages with
  | nil => exact ⟨pp, rfl, h⟩
  | cons op ops ih =>
    rw [map_cons, sum_cons] at hiovs
    rw [foldlM_cons]
    cases op with
    | page addr flags =>
      rw [ChunkOp.iovs] at hiovs
      obtain ⟨again, pp₁, hrun, hc₁, h₁, hnr, -⟩ :=
        addPage_chunk hg lazyPages h hc addr flags (by omega)
      obtain ⟨pp', hpp', h'⟩ := ih hc₁ h₁ (by cases again <;> simp <;> omega)
      exact ⟨pp', by simp [chunkOp, hrun, Except.map, bind, Except.bind, hpp'], h'⟩
    | hole addr flags =>
      obtain ⟨holes, heq⟩ : ∃ holes,
          pagePipeAddHole pp addr flags = { pp with holes := holes } := by
        unfold pagePipeAddHole
        split
        · split <;> exact ⟨_, rfl⟩
        · exact ⟨_, rfl⟩
      rw [ChunkOp.iovs, Nat.zero_add] at hiovs
      rw [chunkOp, heq]
      exact @ih { pp with holes := holes } _ _ { hc with } { h with } hiovs
    | reinit =>
      obtain ⟨pp₁, hrun, hc₁, h₁, -, hnr, -⟩ := reinit_chunk k lazyPages h hc
      have hused := hc.used
      obtain ⟨pp', hpp', h'⟩ := ih hc₁ h₁ (by simp; omega)
      exact ⟨pp', by simp [chunkOp, hrun, bind, Except.bind, hpp'], h'⟩

/-- Pages and holes are added and the page pipe is started again, in any order. No call fails, at
most eight pipes are made, each is that of one buffer, and no buffer takes its pipe to be larger
than it is. -/
theorem chunk_pipes_reused {k : PipeKernel} (hg : Grants k) (lazyPages : Bool) {nrSegs : ℕ}
    (iovs : ℕ → Iovec) {ops : List ChunkOp} (hops : (ops.map ChunkOp.iovs).sum ≤ nrSegs) :
    ∃ pp, ops.foldlM (chunkOp k lazyPages) (freshPipe k lazyPages nrSegs iovs true) = .ok pp ∧
      Capped pp := by
  refine chunkOps_capped lazyPages hg (freshPipe_collected ..) (freshPipe_capped ..) ?_
  simpa [freshPipe] using hops

theorem chunk_pages_in_cycles :
    ∃ pp, [.page 0x1000 0, .page 0x2000 ppbLazy, .hole 0x3000 0, .reinit, .page 0x4000 0].foldlM
        (chunkOp growingPipes false) (freshPipe growingPipes false 3 (fun _ => ⟨0, 0⟩) true) =
      .ok pp ∧ Capped pp :=
  chunk_pipes_reused (by simp [Grants, growingPipes]) false _ (by decide)

end Cycles

end Criu.ChunkedDump

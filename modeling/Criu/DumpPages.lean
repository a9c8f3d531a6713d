import Mathlib.Algebra.Order.BigOperators.Group.List
import Mathlib.Algebra.Order.Group.Nat
import Criu.Lib.Run
import Criu.DumpPlan

/-!
What `page_xfer_dump_pages` writes for a filled page pipe: it succeeds on every sorted plan
whose holes the parent images back, and takes the data of the present pages from the pipes
in the order of the plan. Several buffers may share a pipe, and lazy buffers may be left in
theirs; no page gets the data of another.
-/

namespace Criu.DumpPages

open Transfer Pagemap ReadCursor PageIo PipeBuffers PipeContents SnapshotChain Dedup List Function
  ImageWriter DumpPlan

variable {calls : List AddCall} {transferLazy : Bool} {snaps : List Snapshot} {pp : PagePipe}
  {kernel : ℕ → ℕ → ℕ} {prs : List PageRead} {rest : List UInt8}
open Delivery (Progress)

variable {b : Block} {iov : Iovec} {it : Item} {its : List Item} {xfer : PageXfer} {offset v w : ℕ}
  {pipes : ℕ → List UInt8}

/-- The parent images are readable from address `v` on. -/
def ParentOk (snaps : List Snapshot) (v : ℕ) (prs : List PageRead) : Prop :=
  ∃ R, Deduped R snaps prs ∧ ∀ q ∈ prs, Ready q v

theorem ParentOk.mono (h : ParentOk snaps v prs) (hle : v ≤ w) : ParentOk snaps w prs := by
  obtain ⟨R, hd, hr⟩ := h
  exact ⟨R, hd, fun q hq => ready_mono (hr q hq) hle⟩

section Parent

theorem checkPageholeInParent_ok {s : Snapshot} {off stop fuel : ℕ}
    (hp : ParentOk (s :: snaps) off prs) (hlt : off < stop)
    (hcov : ∀ v ∈ Set.Ico off stop, v ∈ coverage s.pmes) (hfuel : ahead s.pmes off < fuel) :
    ∃ prs', checkPageholeInParent fuel prs off stop = .ok prs' ∧
      ParentOk (s :: snaps) stop prs' := by
  induction fuel generalizing prs off with
  | zero => cases hfuel
  | succ fuel ih =>
    obtain ⟨R, hd, hready⟩ := hp
    cases prs with
    | nil => exact hd.elim
    | cons p rest =>
      rw [forall_mem_cons] at hready
      have hs : SortedMap p.pmes := hd.1.1 ▸ s.sorted
      obtain ⟨hok, pre, e, post, hat, hc, hcv⟩ := seekPagemap_found hs hready.1
        (hd.1.1 ▸ hcov off ⟨le_refl _, hlt⟩)
      have hsame := seek_sameFile p off
      have hs' : SortedMap (seekPagemap p off).2.pmes := hsame.pmes ▸ hs
      have hd' : Deduped R (s :: snaps) ((seekPagemap p off).2 :: rest) :=
        ⟨⟨hsame.pmes.trans hd.1.1, by rw [hsame.pi, hd.1.2.1],
          (effective_sameFile hsame).trans hd.1.2.2⟩, hd.2⟩
      have hto : ∀ w, off ≤ w → ParentOk (s :: snaps) w ((seekPagemap p off).2 :: rest) := by
        intro w hw
        refine ⟨R, hd', forall_mem_cons.mpr ⟨at_ready hs' hat (by omega), ?_⟩⟩
        exact fun q hq => ready_mono (hready.2 q hq) hw
      simp only [checkPageholeInParent, hok, hat.pe]
      by_cases hdone : stop ≤ e.stop
      · rw [if_pos hdone]
        exact ⟨_, rfl, hto stop hlt.le⟩
      rw [if_neg hdone]
      have he : e ∈ s.pmes := by
        have := mem_pmes hat
        rwa [hsame.pmes, hd.1.1] at this
      have hlt' := hc.2
      exact ih (hto e.stop hlt'.le) (by omega)
        (fun v hv => hcov v ⟨le_trans hlt'.le hv.1, hv.2⟩)
        (lt_of_lt_of_le (ahead_lt he hlt') (Nat.le_of_lt_succ hfuel))

def Backed (snaps : List Snapshot) (base len : ℕ) : Prop :=
  ∀ s, snaps.head? = some s → ∀ v ∈ Set.Ico base (base + len), v ∈ coverage s.pmes

/-- Writing an entry succeeds and moves the parent on. -/
theorem writePagemapLoc_ok (autoDedup : Bool) (xfer : PageXfer) (flags : ℕ) (hw : WholePages iov)
    (hsize : iov.len / pageSize < 2 ^ 32) (hp : ParentOk snaps iov.base xfer.parent)
    (hback : flags = peParent → Backed snaps iov.base iov.len)
    (hflags : flags &&& pePresent = 0 → flags &&& peParent ≠ 0 → flags = peParent) :
    ∃ xfer', writePagemapLoc autoDedup xfer iov flags = .ok xfer' ∧
      ParentOk snaps (iov.base + iov.len) xfer'.parent := by
  have hlen : iov.len / pageSize % 2 ^ 32 * pageSize = iov.len := by
    obtain ⟨-, n, hn⟩ := hw
    simp only [pageSize] at *
    omega
  have hkeep := hp.mono (Nat.le_add_right iov.base iov.len)
  simp only [writePagemapLoc, pagemapPresent, pagemapInParent, pagemapLen, hlen]
  by_cases hpres : flags &&& pePresent = 0
  · by_cases hpar : flags &&& peParent = 0
    · simp only [hpres, hpar]
      exact ⟨_, rfl, hkeep⟩
    have hne : (flags &&& peParent != 0) = true := by simpa using hpar
    simp only [hpres, hne]
    cases hparent : xfer.parent with
    | nil => exact ⟨_, rfl, hparent ▸ hkeep⟩
    | cons p rest =>
      obtain ⟨R, hd, hr⟩ := hp
      rw [hparent] at hd hr
      cases snaps with
      | nil => exact hd.elim
      | cons s snaps =>
        have hfuel : ahead s.pmes iov.base < p.pmes.length + 1 := by
          rw [hd.1.1]
          exact Nat.lt_succ_of_le countP_le_length
        obtain ⟨prs', hrun, hok⟩ := checkPageholeInParent_ok ⟨R, hd, hr⟩
          (by have := hw.1; omega) (hback (hflags hpres hpar) s rfl) hfuel
        simp only [holeFuel, hrun]
        exact ⟨_, rfl, hok⟩
  · have hne : (flags &&& pePresent != 0) = true := by simpa using hpres
    simp only [hne]
    cases autoDedup with
    | false => exact ⟨_, rfl, hkeep⟩
    | true =>
      obtain ⟨R, hd, hr⟩ := hp
      obtain ⟨prs', hrun, hd', hr'⟩ := dedupOneIovec_serves snaps xfer.parent.length
        (le_of_eq hd.length_eq) xfer.parent iov.base iov.len R hd hr
      simp only [hrun]
      exact ⟨_, rfl, _, hd', hr'⟩

end Parent

structure BlockOk (offset : ℕ) (snaps : List Snapshot) (b : Block) : Prop where
  whole : WholePages b.1
  size : b.1.len / pageSize < 2 ^ 32
  off : offset ≤ b.1.base
  backed : b.2 = peParent → Backed snaps (b.1.base - offset) b.1.len

def pageBytes (mem : ℕ → UInt8) (a : ℕ) : List UInt8 :=
  (List.range pageSize).map (fun i => mem (a + i))

def itemPresent (transferLazy : Bool) (it : Item) : Bool :=
  ppbXferFlags transferLazy it.1.flags &&& pePresent != 0

def PipesHold (mem : ℕ → UInt8) (drained : ℕ → Prop) (its : List Item)
    (pipes : ℕ → List UInt8) : Prop :=
  ∀ p, drained p →
    pipes p = (its.filter (fun j => j.1.pipe == p)).flatMap (fun j => iovBytes mem j.2)

def Consistent (transferLazy : Bool) (drained : ℕ → Prop) (its : List Item) : Prop :=
  ∀ it ∈ its, itemPresent transferLazy it = true ↔ drained it.1.pipe

variable {mem : ℕ → UInt8} {drained : ℕ → Prop} {st : DumpState} {lazyPages : Bool}

section Success

theorem ppbXferFlags_ne_parent (transferLazy : Bool) (flags : ℕ) :
    ppbXferFlags transferLazy flags &&& peParent = 0 := by
  unfold ppbXferFlags
  split
  · cases transferLazy <;> rfl
  · rfl

theorem ppbXferFlags_ne (transferLazy : Bool) (flags : ℕ) :
    ppbXferFlags transferLazy flags ≠ peParent := by
  intro heq
  have := ppbXferFlags_ne_parent transferLazy flags
  rw [heq] at this
  simp [peParent] at this

theorem dumpHoles_ok (autoDedup : Bool) (limit : ℕ) {holes : List (Iovec × ℕ)}
    (hp : ParentOk snaps v xfer.parent)
    (hall : ∀ x ∈ holes.takeWhile (passes limit), x.2 = ppHoleParent ∧
      BlockOk xfer.offset snaps (holeBlock x) ∧ v ≤ x.1.base - xfer.offset ∧
      x.1.base - xfer.offset + x.1.len ≤ w)
    (hsorted : holes.Pairwise (fun a b => Before a.1 b.1)) (hle : v ≤ w) :
    ∃ xfer', dumpHoles autoDedup limit holes xfer = .ok (xfer', holes.dropWhile (passes limit)) ∧
      ParentOk snaps w xfer'.parent := by
  induction holes generalizing xfer v with
  | nil => exact ⟨xfer, rfl, hp.mono hle⟩
  | cons x holes ih =>
    obtain ⟨hole, holeFlags⟩ := x
    rw [pairwise_cons] at hsorted
    by_cases hstop : limit ≠ 0 ∧ limit ≤ hole.base
    · refine ⟨xfer, ?_, hp.mono hle⟩
      rw [dumpHoles, if_pos hstop, dropWhile_cons, passes_eq_false hstop]
      simp
    have hpass : passes limit (hole, holeFlags) = true := passes_iff.mpr hstop
    simp only [takeWhile_cons, hpass, if_true, forall_mem_cons] at hall
    obtain ⟨⟨hflags, hok, hv, hw⟩, hrest⟩ := hall
    have hoff : xfer.offset ≤ hole.base := hok.off
    have hwhole : WholePages hole := hok.whole
    obtain ⟨xfer1, hrun1, hp1⟩ := writePagemapLoc_ok autoDedup xfer peParent
      (show WholePages ⟨hole.base - xfer.offset, hole.len⟩ from hwhole) hok.size
      (hp.mono hv) (fun _ => hok.backed rfl) (fun _ _ => rfl)
    obtain ⟨parent1, rfl⟩ := writePagemapLoc_eq hrun1
    obtain ⟨xfer2, hrun2, hp2⟩ := ih hp1 (by
      intro y hy
      obtain ⟨hyf, hyok, -, hyw⟩ := hrest y hy
      refine ⟨hyf, hyok, ?_, hyw⟩
      have hbefore := hsorted.1 y ((takeWhile_sublist _).subset hy)
      simp only [Before] at hbefore ⊢
      omega) hsorted.2 hw
    refine ⟨xfer2, ?_, hp2⟩
    simp only [hflags]
    rw [dumpHoles, if_neg hstop]
    simp only [getHoleFlags, if_true, pageXferDumpHole, if_neg (not_lt.mpr hoff), hrun1, hrun2,
      dropWhile_cons, show passes limit (hole, ppHoleParent) = true from hpass]

theorem iovBytes_length (mem : ℕ → UInt8) (iov : Iovec) : (iovBytes mem iov).length = iov.len := by
  simp [iovBytes]

/-- Splicing takes the data of the iovec from the head of its pipe. -/
theorem writePagesLoc_ok (hk : Progress kernel) (st : DumpState) {pipe : ℕ}
    (hpos : 0 < iov.len) (hpipe : st.pipes pipe = iovBytes mem iov ++ rest) :
    ∃ calls, writePagesLoc kernel st pipe iov.len = .ok { st with
      xfer := { st.xfer with pi := st.xfer.pi ++ iovBytes mem iov }
      pipes := update st.pipes pipe rest
      calls := calls } := by
  have hlen := iovBytes_length mem iov
  obtain ⟨calls, hrun⟩ := transfer_eq hk iov.len st.calls (st.pipes pipe) st.xfer.pi iov.len hpos
    (by rw [hpipe, length_append]; omega) (le_refl _)
  rw [hpipe, take_left' hlen, drop_left' hlen] at hrun
  refine ⟨calls, ?_⟩
  rw [writePagesLoc, hpipe]
  simp only [hrun]

theorem PipesHold.head (h : PipesHold mem drained (it :: its) pipes) (hd : drained it.1.pipe) :
    pipes it.1.pipe = iovBytes mem it.2 ++
      (its.filter (fun j => j.1.pipe == it.1.pipe)).flatMap (fun j => iovBytes mem j.2) := by
  rw [h _ hd]
  simp

theorem PipesHold.tail (h : PipesHold mem drained (it :: its) pipes)
    (hc : Consistent transferLazy drained (it :: its)) :
    PipesHold mem drained its
      (if itemPresent transferLazy it then update pipes it.1.pipe
        ((its.filter (fun j => j.1.pipe == it.1.pipe)).flatMap (fun j => iovBytes mem j.2))
        else pipes) := by
  intro p hp
  have hit := hc it mem_cons_self
  by_cases hsame : p = it.1.pipe
  · subst hsame
    rw [if_pos (hit.mpr hp), update_self]
  have hfilter : (it :: its).filter (fun i => i.1.pipe == p) =
      its.filter (fun i => i.1.pipe == p) := by
    rw [filter_cons_of_neg]
    simpa using fun h => hsame h.symm
  have hold := h p hp
  rw [hfilter] at hold
  split
  · rw [update_of_ne hsame]
    exact hold
  · exact hold

theorem Consistent.tail (h : Consistent transferLazy drained (it :: its)) :
    Consistent transferLazy drained its :=
  fun a ha => h a (mem_cons_of_mem _ ha)

/-- A dump that can go on: the blocks to come are in order between the place of the parent and
`w`, and the pipes hold their data. -/
structure Planned (snaps : List Snapshot) (mem : ℕ → UInt8) (drained : ℕ → Prop) (v w : ℕ)
    (its : List Item) (st : DumpState) : Prop where
  parent : ParentOk snaps v st.xfer.parent
  sorted : (planned st.xfer.transferLazy its st.holes).Pairwise (fun a b => Before a.1 b.1)
  blocks : ∀ b ∈ planned st.xfer.transferLazy its st.holes, BlockOk st.xfer.offset snaps b ∧
    v ≤ b.1.base - st.xfer.offset ∧ b.1.base - st.xfer.offset + b.1.len ≤ w
  holes : st.holes.Pairwise (fun a b => Before a.1 b.1)
  flags : ∀ x ∈ st.holes, x.2 = ppHoleParent
  pipes : PipesHold mem drained its st.pipes
  consistent : Consistent st.xfer.transferLazy drained its
  le : v ≤ w

/-- One round of the inner loop: holes, entry and data. -/
theorem dumpIov_ok (autoDedup : Bool) (hk : Progress kernel)
    (h : Planned snaps mem drained v w (it :: its) st) :
    ∃ st', dumpIov autoDedup kernel it.1 it.2 st = .ok st' ∧
      ParentOk snaps (it.2.base - st.xfer.offset + it.2.len) st'.xfer.parent ∧
      PipesHold mem drained its st'.pipes ∧ st'.xfer.pi = st.xfer.pi ++
        (if itemPresent st.xfer.transferLazy it then iovBytes mem it.2 else []) := by
  have hcross := (pairwise_append.mp h.sorted).2.2
  have hall := h.blocks
  simp only [planned] at hall
  obtain ⟨hit, hv, -⟩ := hall (itemBlock st.xfer.transferLazy it) (by simp)
  have hoff : st.xfer.offset ≤ it.2.base := hit.off
  obtain ⟨xfer1, hrun1, hp1⟩ := dumpHoles_ok autoDedup it.2.base
    (w := it.2.base - st.xfer.offset) h.parent (by
      intro x hx
      have hblock : holeBlock x ∈ (st.holes.takeWhile (passes it.2.base)).map holeBlock :=
        mem_map_of_mem hx
      obtain ⟨hok, hle, -⟩ := hall (holeBlock x) (mem_append_left _ hblock)
      have hoffx : st.xfer.offset ≤ x.1.base := hok.off
      have hb : Before x.1 it.2 := hcross (holeBlock x) hblock _ mem_cons_self
      simp only [Before] at hb
      exact ⟨h.flags x ((takeWhile_sublist _).subset hx), hok, hle, by omega⟩) h.holes hv
  obtain ⟨-, -, parent1, hx1⟩ := dumpHoles_eq hrun1
  have hoff1 : xfer1.offset = st.xfer.offset := by rw [hx1]
  have hlazy1 : xfer1.transferLazy = st.xfer.transferLazy := by rw [hx1]
  have hpi1 : xfer1.pi = st.xfer.pi := by rw [hx1]
  obtain ⟨xfer2, hrun2, hp2⟩ := writePagemapLoc_ok autoDedup xfer1
    (ppbXferFlags st.xfer.transferLazy it.1.flags)
    (show WholePages ⟨it.2.base - st.xfer.offset, it.2.len⟩ from hit.whole) hit.size hp1
    (fun h => absurd h (ppbXferFlags_ne _ _))
    (fun _ h => absurd (ppbXferFlags_ne_parent st.xfer.transferLazy it.1.flags) h)
  obtain ⟨parent2, hx2⟩ := writePagemapLoc_eq hrun2
  have hpi2 : xfer2.pi = st.xfer.pi := by rw [hx2, hpi1]
  have hpipes := h.pipes.tail h.consistent
  simp only [dumpIov, hrun1, hoff1, hlazy1, if_neg (not_lt.mpr hoff), hrun2]
  by_cases hpres : itemPresent st.xfer.transferLazy it = true
  · have hne : ppbXferFlags st.xfer.transferLazy it.1.flags &&& pePresent ≠ 0 := by
      simpa [itemPresent] using hpres
    obtain ⟨calls, hrun3⟩ := writePagesLoc_ok hk
      { st with xfer := xfer2, holes := st.holes.dropWhile (passes it.2.base) }
      (show 0 < it.2.len from hit.whole.1)
      (h.pipes.head ((h.consistent it mem_cons_self).mp hpres))
    rw [if_pos hpres] at hpipes ⊢
    rw [if_pos hne]
    exact ⟨_, hrun3, hp2, hpipes, by simp only [hpi2]⟩
  · have heq : ¬ ppbXferFlags st.xfer.transferLazy it.1.flags &&& pePresent ≠ 0 := by
      simpa [itemPresent] using hpres
    rw [if_neg hpres] at hpipes ⊢
    rw [if_neg heq, append_nil]
    exact ⟨_, rfl, hp2, hpipes, hpi2⟩

/-- The walk over all iovecs succeeds and copies the data of the present ones. -/
theorem dumpItems_ok (autoDedup : Bool) (hk : Progress kernel) (st : DumpState)
    (h : Planned snaps mem drained v w its st) :
    ∃ st' u, dumpItems autoDedup kernel its st = .ok st' ∧ Planned snaps mem drained u w [] st' ∧
      st'.xfer.pi = st.xfer.pi ++
        (its.filter (itemPresent st.xfer.transferLazy)).flatMap (fun j => iovBytes mem j.2) := by
  induction its generalizing st v with
  | nil => exact ⟨st, v, rfl, h, by simp⟩
  | cons it its ih =>
    obtain ⟨st1, hrun1, hp1, hpipes1, hpi1⟩ := dumpIov_ok autoDedup hk h
    obtain ⟨-, hsorted, hall, hholes, hflags, -, hcons, -⟩ := h
    simp only [planned] at hsorted hall
    rw [pairwise_append, pairwise_cons] at hsorted
    obtain ⟨-, ⟨hlater, hsorted'⟩, -⟩ := hsorted
    obtain ⟨hitOk, -, hitw⟩ := hall (itemBlock st.xfer.transferLazy it) (by simp)
    obtain ⟨hholes1, -, hoff1, hlazy1, -⟩ := dumpIov_eq hrun1
    have hdrop := (dropWhile_sublist (passes it.2.base) (l := st.holes))
    obtain ⟨st2, u, hrun2, h2, hpi2⟩ := ih st1 ⟨hp1, by rw [hlazy1, hholes1]; exact hsorted',
      (by
        rw [hlazy1, hholes1, hoff1]
        intro b hb
        have hb' := mem_append_right ((st.holes.takeWhile (passes it.2.base)).map holeBlock)
          (mem_cons_of_mem (itemBlock st.xfer.transferLazy it) hb)
        refine ⟨(hall b hb').1, ?_, (hall b hb').2.2⟩
        have hbefore := hlater b hb
        have hoffi : st.xfer.offset ≤ it.2.base := hitOk.off
        simp only [Before, itemBlock] at hbefore
        omega),
      (by rw [hholes1]; exact hholes.sublist hdrop),
      (by rw [hholes1]; exact fun x hx => hflags x (hdrop.subset hx)),
      hpipes1, (by rw [hlazy1]; exact hcons.tail), hitw⟩
    rw [hlazy1, hpi1] at hpi2
    refine ⟨st2, u, by simp only [dumpItems, hrun1, hrun2], h2, ?_⟩
    rw [hpi2]
    cases hpres : itemPresent st.xfer.transferLazy it <;> simp [hpres]

/-- The whole of `page_xfer_dump_pages` succeeds on a sorted plan. -/
theorem pageXferDumpPages_ok (autoDedup : Bool) (hk : Progress kernel)
    (h : Planned snaps mem drained v w (items pp) ⟨xfer, pp.holes, pipes, 0⟩) :
    ∃ st, pageXferDumpPages autoDedup kernel xfer pp pipes = .ok st ∧
      ParentOk snaps w st.xfer.parent ∧ PipesHold mem drained [] st.pipes ∧
      st.xfer.pi = xfer.pi ++ ((items pp).filter (itemPresent xfer.transferLazy)).flatMap
        (fun j => iovBytes mem j.2) := by
  obtain ⟨st, u, hrun, hst, hpi⟩ := dumpItems_ok autoDedup hk _ h
  obtain ⟨xfer', hrun', hpw⟩ := dumpHoles_ok autoDedup 0 hst.parent (by
    intro x hx
    have hx' := (takeWhile_sublist _).subset hx
    exact ⟨hst.flags x hx', hst.blocks (holeBlock x) (mem_map_of_mem hx')⟩) hst.holes hst.le
  obtain ⟨-, -, parent', hx'⟩ := dumpHoles_eq hrun'
  refine ⟨{ st with xfer := xfer', holes := st.holes.dropWhile (passes 0) }, ?_, hpw, hst.pipes, ?_⟩
  · simp only [pageXferDumpPages, dumpBufs_eq_items]
    rw [← items, hrun]
    simp only [hrun']
  · simp only [hx']
    exact hpi

theorem fillPipes_items (mem : ℕ → UInt8) (pp : PagePipe) (p : ℕ) : fillPipes mem pp p =
      ((items pp).filter (fun j => j.1.pipe == p)).flatMap (fun j => iovBytes mem j.2) := by
  rw [fillPipes, items]
  induction pp.bufs with
  | nil => rfl
  | cons b bufs ih =>
    rw [flatMap_cons, filter_append, flatMap_append, ← ih, filter_map]
    by_cases hb : b.pipe = p
    · simp [hb, comp_def, flatMap_map]
    · simp [hb]

theorem itemPresent_eq (transferLazy : Bool) (it : Item) :
    itemPresent transferLazy it = (transferLazy || it.1.flags &&& ppbLazy == 0) := by
  unfold itemPresent ppbXferFlags
  by_cases hlazy : it.1.flags &&& ppbLazy = 0
  · simp [hlazy, pePresent]
  · cases transferLazy <;> simp [hlazy, pePresent, peLazy]

/-- Lazy buffers that are not transferred do not share a pipe with others. -/
theorem consistent_of_sharing (hs : Sharing lazyPages pp)
    (hlazy : transferLazy = false → lazyPages = true) :
    Consistent transferLazy
      (fun p => ∀ it ∈ items pp, it.1.pipe = p → itemPresent transferLazy it = true)
      (items pp) := by
  have hkey : ∀ it ∈ items pp, (it.1.pipe, it.1.flags) ∈ keys pp := by
    intro it hit
    obtain ⟨b, hb, hit⟩ := mem_flatMap.mp hit
    obtain ⟨iov, -, rfl⟩ := mem_map.mp hit
    exact mem_map.mpr ⟨b, hb, rfl⟩
  intro b hb
  refine ⟨?_, fun h => h b hb rfl⟩
  intro hpres a ha hab
  rw [itemPresent_eq] at hpres ⊢
  cases htl : transferLazy with
  | true => rfl
  | false =>
    have htype := hs.typed.types _ (hkey a ha) _ (hkey b hb) hab
    simp only [ppbType, hlazy htl] at htype
    simp only [htl, Bool.false_or, beq_iff_eq] at hpres
    rw [hpres] at htype
    simpa using htype

end Success

def presentBytes (mem : ℕ → UInt8) (l : List (ℕ × ℕ)) : List UInt8 :=
  (l.filter (fun x => x.2 &&& pePresent != 0)).flatMap (fun x => pageBytes mem x.1)

/-- A stretch of memory is its blocks of size `p` one after another. -/
theorem range_blocks (mem : ℕ → UInt8) (base p n : ℕ) :
    (List.range (p * n)).map (fun i => mem (base + i)) =
      ((List.range n).map (fun i => base + i * p)).flatMap
        (fun a => (List.range p).map (fun i => mem (a + i))) := by
  induction n with
  | zero => rfl
  | succ n ih =>
    rw [range_succ, map_append, flatMap_append, Nat.mul_succ,
      range_add, map_append, map_map, map_singleton, flatMap_singleton]
    congr 1
    refine map_congr_left ?_
    intro i _
    simp only [comp_apply, Nat.mul_comm n p, Nat.add_assoc]

theorem iovBytes_pages (mem : ℕ → UInt8) (h : pageSize ∣ iov.len) :
    iovBytes mem iov = (iovPages iov).flatMap (pageBytes mem) := by
  obtain ⟨n, hn⟩ := h
  have hdiv : iov.len / pageSize = n := by rw [hn, Nat.mul_div_cancel_left _ (by decide)]
  rw [iovBytes, iovPages, hdiv, hn]
  exact range_blocks mem iov.base pageSize n

theorem presentBytes_items (mem : ℕ → UInt8) (transferLazy : Bool)
    (hw : ∀ it ∈ its, WholePages it.2) :
    presentBytes mem (expandBlocks (its.map (itemBlock transferLazy))) =
      (its.filter (itemPresent transferLazy)).flatMap (fun j => iovBytes mem j.2) := by
  induction its with
  | nil => rfl
  | cons it its ih =>
    rw [forall_mem_cons] at hw
    have htail := ih hw.2
    simp only [presentBytes, expandBlocks, map_cons, flatMap_cons, filter_append,
      flatMap_append] at htail ⊢
    rw [htail]
    cases hp : itemPresent transferLazy it with
    | true =>
      have hflag : (ppbXferFlags transferLazy it.1.flags &&& pePresent != 0) = true := hp
      rw [filter_cons_of_pos hp, flatMap_cons, iovBytes_pages mem hw.1.2]
      simp [itemBlock, filter_map, comp_def, hflag, flatMap_map]
    | false =>
      have hflag : (ppbXferFlags transferLazy it.1.flags &&& pePresent != 0) = false := hp
      simp [itemBlock, filter_map, hflag, hp]

/-- What the images should get for a sequence of calls. -/
structure WritesCalls (mem : ℕ → UInt8) (offset : ℕ) (transferLazy : Bool) (calls : List AddCall)
    (pmi : List PagemapEntry) (pi : List UInt8) : Prop where
  sorted : SortedMap pmi
  nonempty : ∀ e ∈ pmi, 0 < e.nrPages
  pages : expandEntries pmi =
    calls.map (fun c => ((callPage transferLazy c).1 - offset, (callPage transferLazy c).2))
  data : pi = presentBytes mem (calls.map (callPage transferLazy))

theorem mem_expandEntries {l : List PagemapEntry} {x : ℕ × ℕ} :
    x ∈ expandEntries l ↔ ∃ e ∈ l, ∃ i < e.nrPages, (e.vaddr + i * pageSize, e.flags) = x := by
  simp [expandEntries]

theorem WritesCalls.append {a b : List AddCall} {pmi pmi' : List PagemapEntry}
    {pi pi' : List UInt8} (ha : WritesCalls mem offset transferLazy a pmi pi)
    (hb : WritesCalls mem offset transferLazy b pmi' pi') (hinc : Increasing (a ++ b))
    (hoff : ∀ c ∈ a, offset ≤ c.addr) :
    WritesCalls mem offset transferLazy (a ++ b) (pmi ++ pmi') (pi ++ pi') := by
  refine ⟨?_, ?_, ?_, ?_⟩
  · refine pairwise_append.mpr ⟨ha.sorted, hb.sorted, ?_⟩
    intro e he e' he'
    have hpos := ha.nonempty e he
    have hlast := mem_expandEntries.mpr ⟨e, he, e.nrPages - 1, by omega, rfl⟩
    have hfirst := mem_expandEntries.mpr ⟨e', he', 0, hb.nonempty e' he', rfl⟩
    rw [ha.pages] at hlast
    rw [hb.pages] at hfirst
    obtain ⟨c, hc, hceq⟩ := mem_map.mp hlast
    obtain ⟨c', hc', hceq'⟩ := mem_map.mp hfirst
    have hlt := (pairwise_append.mp hinc.sorted).2.2 c hc c' hc'
    have hle := hoff c hc
    obtain ⟨i, hi⟩ := hinc.aligned c (mem_append_left _ hc)
    obtain ⟨j, hj⟩ := hinc.aligned c' (mem_append_right _ hc')
    have hceq := congrArg Prod.fst hceq
    have hceq' := congrArg Prod.fst hceq'
    simp only [callPage, PagemapEntry.stop, pagemapLen, pageSize] at *
    omega
  · exact forall_mem_append.mpr ⟨ha.nonempty, hb.nonempty⟩
  · rw [map_append, ← ha.pages, ← hb.pages]
    simp [expandEntries]
  · rw [ha.data, hb.data]
    simp [presentBytes]

def HolesBacked (snaps : List Snapshot) (offset : ℕ) (calls : List AddCall) : Prop :=
  ∀ c ∈ calls, c.isPage = false → Backed snaps (c.addr - offset) pageSize

/-- Runs of pages and holes short enough for the 32-bit page count of a pagemap entry. -/
structure Fits (calls : List AddCall) : Prop where
  pages : (pagesOf calls).length < 2 ^ 32
  holes : ∀ a, ¬∀ i < 2 ^ 32, ∃ flags, AddCall.hole (a + i * pageSize) flags ∈ calls

section Calls

variable {start : ℕ}

/-- The pages of a planned block were added, as holes if the entry says so. -/
theorem planned_call (h : Holds start calls pp) (hb : b ∈ planned transferLazy (items pp) pp.holes)
    {x : ℕ} (hx : x ∈ iovPages b.1) :
    ∃ c ∈ calls, c.addr = x ∧ (b.2 = peParent → c.isPage = false) := by
  obtain ⟨it, hit, rfl⟩ | ⟨y, hy, rfl⟩ := mem_planned.mp hb
  · exact ⟨_, h.page_iff.mpr ⟨it, hit, hx, rfl⟩, rfl, fun heq => absurd heq (ppbXferFlags_ne _ _)⟩
  · exact ⟨_, h.hole_iff.mpr ⟨y, hy, hx, rfl⟩, rfl, fun _ => rfl⟩

/-- The count of pages of a planned block fits the pagemap entry. -/
theorem planned_size (h : Holds start calls pp) (hfit : Fits calls)
    (hb : b ∈ planned transferLazy (items pp) pp.holes) : b.1.len / pageSize < 2 ^ 32 := by
  obtain ⟨it, hit, rfl⟩ | ⟨y, hy, rfl⟩ := mem_planned.mp hb
  · have hnodup : (iovPages it.2).Nodup := (iovPages_pairwise it.2).imp (fun h => Nat.ne_of_lt h)
    have hsub : iovPages it.2 ⊆ (pagesOf calls).map Prod.fst := by
      intro x hx
      have hpage := h.page_iff.mpr ⟨it, hit, hx, rfl⟩
      exact mem_map.mpr ⟨_, mem_pagesOf.mpr hpage, rfl⟩
    have hle := (subperm_of_subset hnodup hsub).length_le
    simp only [iovPages, length_map, length_range] at hle
    exact lt_of_le_of_lt hle hfit.pages
  · by_contra hbig
    rw [not_lt] at hbig
    refine hfit.holes y.1.base ?_
    intro i hi
    have hx := mem_iovPages.mpr ⟨i, lt_of_lt_of_le hi hbig, rfl⟩
    exact ⟨y.2, h.hole_iff.mpr ⟨y, hy, hx, rfl⟩⟩

theorem exists_page (hw : WholePages iov) (hlo : iov.base ≤ v) (hhi : v < iov.base + iov.len) :
    ∃ x ∈ iovPages iov, x ≤ v ∧ v < x + pageSize := by
  obtain ⟨-, n, hn⟩ := hw
  refine ⟨iov.base + (v - iov.base) / pageSize * pageSize,
    mem_iovPages.mpr ⟨_, ?_, rfl⟩, ?_, ?_⟩ <;>
  · simp only [pageSize] at *
    omega

theorem planned_block_ok (h : Holds start calls pp) (hfit : Fits calls)
    (hoff : ∀ c ∈ calls, offset ≤ c.addr) (hback : HolesBacked snaps offset calls)
    (hb : b ∈ planned transferLazy (items pp) pp.holes) : BlockOk offset snaps b := by
  have hw := planned_whole h transferLazy b hb
  obtain ⟨c, hc, hbase, -⟩ := planned_call h hb (base_mem_iovPages hw)
  refine ⟨hw, planned_size h hfit hb, hbase ▸ hoff c hc, ?_⟩
  intro hpar s hs v hv
  have hle : offset ≤ b.1.base := hbase ▸ hoff c hc
  obtain ⟨x, hx, hxlo, hxhi⟩ := exists_page (v := v + offset) hw
    (by have := hv.1; omega) (by have := hv.2; omega)
  obtain ⟨c', hc', rfl, hhole⟩ := planned_call h hb hx
  exact hback c' hc' (hhole hpar) s hs v ⟨by omega, by omega⟩

theorem planned_end (h : Holds start calls pp) (hb : b ∈ planned transferLazy (items pp) pp.holes) :
    ∃ c ∈ calls, b.1.base + b.1.len = c.addr + pageSize := by
  have hw := planned_whole h transferLazy b hb
  obtain ⟨hpos, n, hn⟩ := planned_whole h transferLazy b hb
  obtain ⟨x, hx, hxlo, hxhi⟩ := exists_page (v := b.1.base + b.1.len - 1) hw (by omega) (by omega)
  obtain ⟨c, hc, rfl, -⟩ := planned_call h hb hx
  refine ⟨c, hc, ?_⟩
  obtain ⟨i, -, hi⟩ := mem_iovPages.mp hx
  simp only [pageSize] at *
  omega

theorem presentBytes_calls (mem : ℕ → UInt8) (calls : List AddCall) :
    presentBytes mem ((calls.filter (fun c => c.isPage)).map (callPage transferLazy)) =
      presentBytes mem (calls.map (callPage transferLazy)) := by
  induction calls with
  | nil => rfl
  | cons c calls ih =>
    cases c with
    | page addr flags =>
      simp only [presentBytes, AddCall.isPage, filter_cons, map_cons, if_true] at ih ⊢
      split
      · simp only [flatMap_cons, ih]
      · exact ih
    | hole addr flags =>
      simpa [presentBytes, AddCall.isPage, callPage, peParent, pePresent] using ih

/-- A page pipe that holds calls with increasing addresses is dumped as those calls. -/
theorem dump_holds (hk : Progress kernel) (autoDedup : Bool) (xfer : PageXfer)
    (h : Holds start calls pp) (hinc : Increasing calls) (hfit : Fits calls)
    (hoff : ∀ c ∈ calls, xfer.offset ≤ c.addr) (hback : HolesBacked snaps xfer.offset calls)
    (hflags : ∀ c ∈ calls, c.isPage = false → c.flags = ppHoleParent)
    (hzero : (∃ flags, AddCall.page 0 flags ∈ calls) → ∀ c ∈ calls, c.isPage = true)
    (hp : ParentOk snaps v xfer.parent) (hv : ∀ c ∈ calls, v ≤ c.addr - xfer.offset)
    (hw : ∀ c ∈ calls, c.addr - xfer.offset + pageSize ≤ w) (hvw : v ≤ w)
    (hpipes : PipesHold mem drained (items pp) pipes)
    (hcons : Consistent xfer.transferLazy drained (items pp)) :
    ∃ st pmi pi, pageXferDumpPages autoDedup kernel xfer pp pipes = .ok st ∧
      ParentOk snaps w st.xfer.parent ∧ PipesHold mem drained [] st.pipes ∧
      st.xfer.pmi = xfer.pmi ++ pmi ∧ st.xfer.pi = xfer.pi ++ pi ∧
      WritesCalls mem xfer.offset xfer.transferLazy calls pmi pi := by
  obtain ⟨hsorted, hexpand⟩ := planned_ok h hinc xfer.transferLazy hzero
  have hblocks : ∀ b ∈ planned xfer.transferLazy (items pp) pp.holes,
      BlockOk xfer.offset snaps b := fun b hb => planned_block_ok h hfit hoff hback hb
  obtain ⟨st, hrun, hpw, hpipesw, hpi⟩ := pageXferDumpPages_ok autoDedup hk
    ⟨hp, hsorted, (by
      intro b hb
      obtain ⟨c, hc, hbase, -⟩ := planned_call h hb
        (base_mem_iovPages (planned_whole h xfer.transferLazy b hb))
      obtain ⟨c', hc', hend⟩ := planned_end h hb
      have := hv c hc
      have := hw c' hc'
      have := (hblocks b hb).off
      exact ⟨hblocks b hb, (by omega : v ≤ b.1.base - xfer.offset),
        (by omega : b.1.base - xfer.offset + b.1.len ≤ w)⟩), holes_sorted h hinc,
    (fun x hx => hflags _ (h.hole_base hx) rfl), hpipes, hcons, hvw⟩
  obtain ⟨hmap, hfull⟩ := sortedMap_blocks (fun b hb => (hblocks b hb).off)
    (fun b hb => (hblocks b hb).whole) (fun b hb => (hblocks b hb).size) hsorted
  refine ⟨st, _, _, hrun, hpw, hpipesw, (pageXferDumpPages_eq hrun).2.2.2, hpi, hmap, hfull, ?_, ?_⟩
  · rw [expandEntries_blocks (fun b hb => (hblocks b hb).off) (fun b hb => (hblocks b hb).size),
      hexpand, map_map]
    rfl
  · rw [← presentBytes_items mem xfer.transferLazy h.items_whole, expand_items h,
      presentBytes_calls]

/-- Entries lose pages if a block has more of them than an entry can count. -/
theorem expandEntries_lt (offset : ℕ) {l : List Block} (hb : b ∈ l)
    (hbig : 2 ^ 32 ≤ b.1.len / pageSize) :
    (expandEntries (l.map (blockEntry offset))).length < (expandBlocks l).length := by
  have hentries : (expandEntries (l.map (blockEntry offset))).length =
      (l.map (fun b => b.1.len / pageSize % 2 ^ 32)).sum := by
    simp [expandEntries, blockEntry, comp_def]
  have hblocks : (expandBlocks l).length = (l.map (fun b => b.1.len / pageSize)).sum := by
    simp [expandBlocks, iovPages]
  rw [hentries, hblocks]
  exact sum_lt_sum _ _ (fun _ _ => Nat.mod_le _ _)
    ⟨b, hb, lt_of_lt_of_le (Nat.mod_lt _ (by decide)) hbig⟩

/-- The holes before a page at address 0 are out of order. -/
theorem zero_misplaced (h : Holds start calls pp) (hinc : Increasing calls) {flags : ℕ}
    (hpage : AddCall.page 0 flags ∈ calls) {y : Iovec × ℕ} (hy : y ∈ pp.holes)
    (hsorted : SortedMap ((planned transferLazy (items pp) pp.holes).map (blockEntry offset)))
    (hnonempty : ∀ e ∈ (planned transferLazy (items pp) pp.holes).map (blockEntry offset), 0 <
    e.nrPages) : False := by
  obtain ⟨it, hit, hx, -⟩ := h.page_iff.mp hpage
  obtain ⟨i, -, hi⟩ := mem_iovPages.mp hx
  have hbase : it.2.base = 0 := by
    omega
  have hsort := items_sorted h hinc
  cases hits : items pp with
  | nil => simp [hits] at hit
  | cons first rest =>
    rw [hits] at hsort hit
    have hfirst : first = it := by
      rcases mem_cons.mp hit with rfl | hit
      · rfl
      · have hb := (pairwise_cons.mp hsort).1 it hit
        have := (h.items_whole first (by simp [hits])).1
        simp only [Before] at hb
        omega
    rw [hits, planned_zero transferLazy (hfirst ▸ hbase), map_append] at hsorted hnonempty
    have hlt := (pairwise_append.mp hsorted).2.2 (blockEntry offset (holeBlock y))
      (mem_map_of_mem (mem_map_of_mem hy)) _ mem_cons_self
    have hpos := hnonempty (blockEntry offset (holeBlock y))
      (mem_append_left _ (mem_map_of_mem (mem_map_of_mem hy)))
    rw [hfirst] at hlt
    simp only [PagemapEntry.stop, pagemapLen, blockEntry, itemBlock, pageSize] at hlt hpos
    omega

/-- What the code needs to dump calls as they were made: every hole is marked as a hole in
the parent, no page at address 0 comes with holes, and no run of holes is too long. -/
structure Dumpable (calls : List AddCall) : Prop where
  flags : ∀ c ∈ calls, c.isPage = false → c.flags = ppHoleParent
  zero : (∃ flags, AddCall.page 0 flags ∈ calls) → ∀ c ∈ calls, c.isPage = true
  run : ∀ a, ¬∀ i < 2 ^ 32, ∃ flags, AddCall.hole (a + i * pageSize) flags ∈ calls

/-- A dump that writes the calls as they were made had calls it can dump. -/
theorem dumpable_of_writes {autoDedup : Bool}
    (h : Holds start calls pp) (hm : Merged pp.holes) (hinc : Increasing calls)
    (hrun : pageXferDumpPages autoDedup kernel xfer pp pipes = .ok st) (hpmi : xfer.pmi = [])
    (hw : WritesCalls mem xfer.offset xfer.transferLazy calls st.xfer.pmi st.xfer.pi) :
    Dumpable calls := by
  obtain ⟨hflags, -, -, heq⟩ := pageXferDumpPages_eq hrun
  rw [hpmi, nil_append] at heq
  have hcall : ∀ c ∈ calls, c.isPage = false → ∃ y ∈ pp.holes, y.2 = c.flags := by
    intro c hc hhole
    cases c with
    | page => cases hhole
    | hole =>
      obtain ⟨y, hy, -, hcy⟩ := h.hole_iff.mp hc
      exact ⟨y, hy, hcy⟩
  refine ⟨?_, ?_, ?_⟩
  · intro c hc hhole
    obtain ⟨y, hy, hcy⟩ := hcall c hc hhole
    rw [← hcy, hflags y hy]
  · rintro ⟨flags, hpage⟩ c hc
    by_contra hhole
    rw [Bool.not_eq_true] at hhole
    obtain ⟨y, hy, -⟩ := hcall c hc hhole
    exact zero_misplaced h hinc hpage hy (heq ▸ hw.sorted) (heq ▸ hw.nonempty)
  intro a hlong
  obtain ⟨y, hy, hmem⟩ := hole_run h hinc hm hflags hlong
  have hblock : holeBlock y ∈ planned xfer.transferLazy (items pp) pp.holes :=
    mem_planned.mpr (.inr ⟨y, hy, rfl⟩)
  refine absurd (expandEntries_lt xfer.offset hblock ?_) ?_
  · obtain ⟨i, hi, hfirst⟩ := mem_iovPages.mp (hmem 0 (by omega))
    obtain ⟨j, hj, hlast⟩ := mem_iovPages.mp (hmem (2 ^ 32 - 1) (by omega))
    simp only [holeBlock, pageSize] at *
    omega
  · rw [← heq, hw.pages, (expand_planned_perm h xfer.transferLazy).length_eq]
    simp

end Calls

/-- A new page pipe takes every sequence of calls it has iovecs for. -/
theorem addAll_holds (k : PipeKernel) (lazyPages : Bool) {nrSegs : ℕ} (iovs : ℕ → Iovec)
    (hiovs : (pagesOf calls).length ≤ nrSegs ∨
      addAll k lazyPages calls (freshPipe k lazyPages nrSegs iovs false) ≠ .error .bug) :
    ∃ pp, addAll k lazyPages calls (freshPipe k lazyPages nrSegs iovs false) = .ok pp ∧
      Holds 0 calls pp ∧ Sharing lazyPages pp ∧ Merged pp.holes := by
  obtain ⟨pp, hrun, hc, hs, hw, hh, hm⟩ := addAll_ok k calls
    (freshPipe_collected k lazyPages nrSegs iovs false) (freshPipe_sharing ..)
    (by simp [freshPipe]) (by simpa [freshPipe] using hiovs)
  exact ⟨pp, hrun, ⟨hc, hw, hh⟩, hs, hm .nil⟩

theorem openChain_parentOk (snaps : List Snapshot) : ParentOk snaps 0 (openChain snaps) := by
  refine ⟨∅, openChain_deduped snaps, ?_⟩
  intro q hq
  obtain ⟨s, -, rfl⟩ := mem_map.mp hq
  exact .fresh (openPageRead_fresh _ _)

theorem dump_of_dumpable (hk : ∀ c n, 0 < n → 0 < kernel c n) (autoDedup : Bool)
    (hlazy : transferLazy = false → lazyPages = true) (h : Holds 0 calls pp)
    (hs : Sharing lazyPages pp) (hinc : Increasing calls) (hpages : (pagesOf calls).length < 2 ^ 32)
    (hoff : ∀ c ∈ calls, offset ≤ c.addr) (hback : HolesBacked snaps offset calls)
    (hd : Dumpable calls) (mem : ℕ → UInt8) :
    ∃ st, pageXferDumpPages autoDedup kernel ⟨offset, transferLazy, openChain snaps, [], []⟩ pp
        (fillPipes mem pp) = .ok st ∧
      WritesCalls mem offset transferLazy calls st.xfer.pmi st.xfer.pi := by
  obtain ⟨st, pmi, pi, hrun, -, -, hpmi, hpi, hw⟩ := dump_holds hk autoDedup
    ⟨offset, transferLazy, openChain snaps, [], []⟩
    (w := (calls.map AddCall.addr).sum + pageSize) h hinc ⟨hpages, hd.run⟩ hoff hback hd.flags
    hd.zero (openChain_parentOk snaps) (fun _ _ => Nat.zero_le _) (by
      intro c hc
      have := le_sum_of_mem (mem_map_of_mem (f := AddCall.addr) hc)
      omega) (Nat.zero_le _) (fun p _ => fillPipes_items mem pp p) (consistent_of_sharing hs hlazy)
  exact ⟨st, hrun, hpmi ▸ hpi ▸ hw⟩

/-- `page_xfer_dump_pages` writes the pages and holes as they were collected, if and only if
they can be dumped. One iovec a page is enough to collect them. -/
theorem dump_writes_collected_iff (k : PipeKernel) (kernel : ℕ → ℕ → ℕ)
    (hk : ∀ c n, 0 < n → 0 < kernel c n) (autoDedup lazyPages transferLazy : Bool)
    (hlazy : transferLazy = false → lazyPages = true) (nrSegs : ℕ) (iovs : ℕ → Iovec)
    {calls : List AddCall} (hinc : Increasing calls) (hpages : (pagesOf calls).length < 2 ^ 32)
    {offset : ℕ} (hoff : ∀ c ∈ calls, offset ≤ c.addr) {snaps : List Snapshot}
    (hback : HolesBacked snaps offset calls) (mem : ℕ → UInt8) :
    ∃ pp₀, createPagePipe k lazyPages nrSegs iovs false = .ok pp₀ ∧
      ((pagesOf calls).length ≤ nrSegs → ∃ pp, addAll k lazyPages calls pp₀ = .ok pp) ∧
      ∀ pp, addAll k lazyPages calls pp₀ = .ok pp →
        ((∃ st, pageXferDumpPages autoDedup kernel ⟨offset, transferLazy, openChain snaps, [], []⟩
            pp (fillPipes mem pp) = .ok st ∧
          WritesCalls mem offset transferLazy calls st.xfer.pmi st.xfer.pi) ↔ Dumpable calls) := by
  refine ⟨_, createPagePipe_eq .., fun hiovs => ?_, fun pp hadd => ?_⟩
  · obtain ⟨pp, hadd, -⟩ := addAll_holds k lazyPages iovs (.inl hiovs)
    exact ⟨pp, hadd⟩
  obtain ⟨pp', hadd', h, hs, hm⟩ := addAll_holds k lazyPages iovs (.inr (hadd.trans_ne (by simp)))
  cases hadd.symm.trans hadd'
  constructor
  · rintro ⟨st, hrun, hw⟩
    exact dumpable_of_writes h hm hinc hrun rfl hw
  · intro hd
    exact dump_of_dumpable hk autoDedup hlazy h hs hinc hpages hoff hback hd mem

def fixedPipes : PipeKernel := ⟨fun _ => 16, fun _ _ => none, sixteen_pages_pos, by simp⟩

def pageAndHole : List AddCall := [.page 0x1000 ppbLazy, .hole 0x2000 ppHoleParent]

theorem backed_of_hole {k : ℕ} {b : UInt8}
    (h : ∀ c ∈ calls, c.isPage = false → c = .hole (k * pageSize) ppHoleParent) :
    HolesBacked [lonePage k b] 0 calls := by
  intro c hc hhole s hs v hv
  obtain rfl := h c hc hhole
  cases hs
  refine ⟨_, mem_cons_self .., ?_⟩
  simpa [PagemapEntry.Covers, PagemapEntry.stop, pagemapLen, AddCall.addr] using hv

theorem dumpable_of_hole {addr : ℕ}
    (h : ∀ c ∈ calls, c.isPage = false → c = .hole addr ppHoleParent)
    (hzero : ∀ c ∈ calls, c.addr ≠ 0) : Dumpable calls := by
  refine ⟨fun c hc hhole => by rw [h c hc hhole, AddCall.flags], ?_, fun a hrun => ?_⟩
  · rintro ⟨flags, hpage⟩
    exact absurd rfl (hzero _ hpage)
  · obtain ⟨_, h₀⟩ := hrun 0 (by decide)
    obtain ⟨_, h₁⟩ := hrun 1 (by decide)
    have h₀ := h _ h₀ rfl
    have h₁ := h _ h₁ rfl
    simp only [AddCall.hole.injEq, pageSize] at h₀ h₁
    omega

theorem dump_writes_page_and_hole :
    ∃ pp₀ pp, createPagePipe fixedPipes true 1 (fun _ => ⟨0, 0⟩) false = .ok pp₀ ∧
      addAll fixedPipes true pageAndHole pp₀ = .ok pp ∧
      ∃ st, pageXferDumpPages false (fun _ n => n) ⟨0, false, openChain [lonePage 2 5], [], []⟩ pp
          (fillPipes (fun _ => 7) pp) = .ok st ∧
        WritesCalls (fun _ => 7) 0 false pageAndHole st.xfer.pmi st.xfer.pi := by
  have hinc : Increasing pageAndHole := ⟨by decide, by decide⟩
  have hhole : ∀ c ∈ pageAndHole, c.isPage = false → c = .hole (2 * pageSize) ppHoleParent := by
    decide
  obtain ⟨pp₀, hcreate, hok, hiff⟩ := dump_writes_collected_iff fixedPipes
    (fun _ n => n) (fun _ _ h => h) false true false (fun _ => rfl) 1 (fun _ => ⟨0, 0⟩) hinc
    (by decide) (fun _ _ => Nat.zero_le _) (backed_of_hole hhole) (fun _ => 7)
  obtain ⟨pp, hadd⟩ := hok (by decide)
  exact ⟨pp₀, pp, hcreate, hadd, (hiff pp hadd).mpr (dumpable_of_hole hhole (by decide))⟩

/-- With a page at address 0 the hole behind it is written before it. -/
theorem page_at_zero_misplaces_hole :
    ∃ pp₀ pp, createPagePipe fixedPipes false 1 (fun _ => ⟨0, 0⟩) false = .ok pp₀ ∧
      addAll fixedPipes false [.page 0 0, .hole 0x1000 ppHoleParent] pp₀ = .ok pp ∧
      ∃ st, pageXferDumpPages false (fun _ n => n) ⟨0, true, openChain [lonePage 1 5], [], []⟩ pp
          (fillPipes (fun _ => 7) pp) = .ok st ∧
        st.xfer.pmi = [⟨0x1000, 1, peParent⟩, ⟨0, 1, pePresent⟩] ∧ ¬SortedMap st.xfer.pmi := by
  obtain ⟨pp, hadd, hrun⟩ : ∃ pp, addAll fixedPipes false [.page 0 0, .hole 0x1000 ppHoleParent]
        (freshPipe fixedPipes false 1 (fun _ => ⟨0, 0⟩) false) = .ok pp ∧
      (pageXferDumpPages false (fun _ n => n) ⟨0, true, openChain [lonePage 1 5], [], []⟩ pp
        (fillPipes (fun _ => 7) pp)).toOption.map (fun st => st.xfer.pmi) =
          some [⟨0x1000, 1, peParent⟩, ⟨0, 1, pePresent⟩] := ⟨_, rfl, by decide +kernel⟩
  obtain ⟨st, hst, hpmi⟩ := Run.exists_ok_of_map hrun
  refine ⟨_, pp, createPagePipe_eq .., hadd, st, hst, hpmi, ?_⟩
  rw [hpmi]
  decide

end Criu.DumpPages

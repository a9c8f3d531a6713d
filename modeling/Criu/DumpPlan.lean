import Mathlib.Data.List.Sort
import Mathlib.Data.List.TakeWhile
import Criu.ImageWriter

/-!
The entries that `page_xfer_dump_pages` writes. The walk over buffers and holes is a merge
of two lists of blocks. When the page pipe was filled by calls with increasing addresses,
the merge is sorted and its pages are those of the calls in their order. The merge goes
wrong in one case: the address 0 of a block is taken for "no limit" and lets all holes
pass before it.
-/

namespace Criu.DumpPlan

open Transfer Pagemap ReadCursor PageIo PipeBuffers PipeContents SnapshotChain Dedup List
  ImageWriter

variable {holes : List (Iovec × ℕ)} {xfer' : PageXfer} {y : Iovec × ℕ}

abbrev Item := PagePipeBuf × Iovec

variable {its : List Item}

def items (pp : PagePipe) : List Item :=
  pp.bufs.flatMap (fun b => (segs pp.iovs b).map (fun iov => (b, iov)))

abbrev Block := Iovec × ℕ

def holeBlock (h : Iovec × ℕ) : Block := (h.1, peParent)

def itemBlock (transferLazy : Bool) (it : Item) : Block :=
  (it.2, ppbXferFlags transferLazy it.1.flags)

def blockEntry (offset : ℕ) (b : Block) : PagemapEntry :=
  ⟨b.1.base - offset, b.1.len / pageSize % 2 ^ 32, b.2⟩

/-- The hole is dumped before a block at `limit`. -/
def passes (limit : ℕ) (h : Iovec × ℕ) : Bool := limit == 0 || decide (h.1.base < limit)

def planned (transferLazy : Bool) : List Item → List (Iovec × ℕ) → List Block
  | [], holes => holes.map holeBlock
  | it :: rest, holes =>
      (holes.takeWhile (passes it.2.base)).map holeBlock ++
        itemBlock transferLazy it :: planned transferLazy rest (holes.dropWhile (passes it.2.base))

variable {st st' : DumpState} {iov : Iovec} {l : List Block} {xfer : PageXfer}
  {x flags limit offset : ℕ} {it : Item}

section Partial

variable {autoDedup : Bool} {kernel : ℕ → ℕ → ℕ}

theorem writePagemapLoc_eq (h : writePagemapLoc autoDedup xfer iov flags = .ok xfer') :
    ∃ parent, xfer' = { xfer with
      parent := parent
      pmi := xfer.pmi ++ [⟨iov.base, iov.len / pageSize % 2 ^ 32, flags⟩] } := by
  simp only [writePagemapLoc] at h
  split at h
  · simp at h
  · simp only [Except.ok.injEq] at h
    exact ⟨_, h.symm⟩

theorem writePagesLoc_eq {pipe len : ℕ} (h : writePagesLoc kernel st pipe len = .ok st') :
    st'.holes = st.holes ∧ ∃ pi, st'.xfer = { st.xfer with pi := pi } := by
  simp only [writePagesLoc] at h
  split at h
  · simp at h
  · simp only [Except.ok.injEq] at h
    subst h
    exact ⟨rfl, _, rfl⟩

theorem passes_iff {x : Iovec × ℕ} : passes limit x = true ↔ ¬ (limit ≠ 0 ∧ limit ≤ x.1.base) := by
  simp only [passes, Bool.or_eq_true, beq_iff_eq, decide_eq_true_eq]
  omega

theorem passes_eq_false {x : Iovec × ℕ} (h : limit ≠ 0 ∧ limit ≤ x.1.base) :
    passes limit x = false :=
  Bool.eq_false_iff.mpr fun hp => passes_iff.mp hp h

theorem pageXferDumpHole_eq {hole : Iovec}
    (h : pageXferDumpHole autoDedup xfer hole flags = .ok xfer') :
    ∃ parent, xfer' = { xfer with
      parent := parent
      pmi := xfer.pmi ++ [blockEntry xfer.offset (hole, flags)] } := by
  unfold pageXferDumpHole at h
  split_ifs at h
  exact writePagemapLoc_eq h

theorem dumpHoles_eq {holes' : List (Iovec × ℕ)}
    (h : dumpHoles autoDedup limit holes xfer = .ok (xfer', holes')) :
    holes' = holes.dropWhile (passes limit) ∧
    (∀ x ∈ holes.takeWhile (passes limit), x.2 = ppHoleParent) ∧
    ∃ parent, xfer' = { xfer with
      parent := parent
      pmi := xfer.pmi ++
        ((holes.takeWhile (passes limit)).map holeBlock).map (blockEntry xfer.offset) } := by
  fun_induction dumpHoles autoDedup limit holes xfer with
  | case1 =>
    cases h
    exact ⟨rfl, by simp, xfer'.parent, by simp⟩
  | case2 hole holeFlags rest xfer hstop =>
    have hpass : passes limit (hole, holeFlags) = false := passes_eq_false hstop
    cases h
    exact ⟨by simp [hpass], by simp [hpass], xfer'.parent, by simp [hpass]⟩
  | case3 => cases h
  | case4 => cases h
  | case5 hole holeFlags rest xfer hstop flags hflags xfer1 hdump ih =>
    have hpass : passes limit (hole, holeFlags) = true := passes_iff.mpr hstop
    unfold getHoleFlags at hflags
    split_ifs at hflags with hparent
    cases hflags
    obtain ⟨parent1, rfl⟩ := pageXferDumpHole_eq hdump
    obtain ⟨hrest, hall, parent2, rfl⟩ := ih h
    refine ⟨by simp [hpass, hrest], ?_, parent2, by simp [hpass, holeBlock]⟩
    simp only [takeWhile_cons, hpass, if_true, forall_mem_cons]
    exact ⟨hparent, hall⟩

/-- The inner and the outer loop of `page_xfer_dump_pages` in one. -/
def dumpItems (autoDedup : Bool) (kernel : ℕ → ℕ → ℕ) :
    List Item → DumpState → Except Fault DumpState
  | [], st => .ok st
  | it :: rest, st =>
      match dumpIov autoDedup kernel it.1 it.2 st with
      | .error f => .error f
      | .ok st' => dumpItems autoDedup kernel rest st'

theorem dumpIovs_append (b : PagePipeBuf) (l : List Iovec) (rest : List Item) (st : DumpState) :
    dumpItems autoDedup kernel (l.map (fun iov => (b, iov)) ++ rest) st =
      match dumpIovs autoDedup kernel b l st with
      | .error f => .error f
      | .ok st' => dumpItems autoDedup kernel rest st' := by
  induction l generalizing st with
  | nil => rfl
  | cons iov l ih =>
    simp only [map_cons, cons_append, dumpItems, dumpIovs]
    cases dumpIov autoDedup kernel b iov st with
    | error f => rfl
    | ok st' => exact ih st'

theorem dumpBufs_eq_items (iovs : ℕ → Iovec) (bufs : List PagePipeBuf) (st : DumpState) :
    dumpBufs autoDedup kernel iovs bufs st = dumpItems autoDedup kernel
      (bufs.flatMap (fun b => (segs iovs b).map (fun iov => (b, iov)))) st := by
  induction bufs generalizing st with
  | nil => rfl
  | cons b bufs ih =>
    rw [flatMap_cons, dumpIovs_append, dumpBufs]
    cases dumpIovs autoDedup kernel b (segs iovs b) st with
    | error f => rfl
    | ok st' => exact ih st'

theorem dumpIov_eq {b : PagePipeBuf} (h : dumpIov autoDedup kernel b iov st = .ok st') :
    st'.holes = st.holes.dropWhile (passes iov.base) ∧
    (∀ x ∈ st.holes.takeWhile (passes iov.base), x.2 = ppHoleParent) ∧
    st'.xfer.offset = st.xfer.offset ∧ st'.xfer.transferLazy = st.xfer.transferLazy ∧
    st'.xfer.pmi = st.xfer.pmi ++ ((st.holes.takeWhile (passes iov.base)).map holeBlock ++
        [itemBlock st.xfer.transferLazy (b, iov)]).map (blockEntry st.xfer.offset) := by
  simp only [dumpIov] at h
  cases hh : dumpHoles autoDedup iov.base st.holes st.xfer with
  | error f => simp [hh] at h
  | ok res =>
    obtain ⟨xfer1, holes1⟩ := res
    obtain ⟨hholes, hflags, parent1, hx1⟩ := dumpHoles_eq hh
    simp only [hh] at h
    by_cases hoff : iov.base < xfer1.offset
    · simp [hoff] at h
    rw [if_neg hoff] at h
    cases hw : writePagemapLoc autoDedup xfer1 ⟨iov.base - xfer1.offset, iov.len⟩
        (ppbXferFlags xfer1.transferLazy b.flags) with
    | error f => simp [hw] at h
    | ok xfer2 =>
      obtain ⟨parent2, hx2⟩ := writePagemapLoc_eq hw
      have hxfer : st'.holes = holes1 ∧ ∃ pi, st'.xfer = { xfer2 with pi := pi } := by
        simp only [hw] at h
        split at h
        · exact writePagesLoc_eq h
        · simp only [Except.ok.injEq] at h
          subst h
          exact ⟨rfl, xfer2.pi, rfl⟩
      obtain ⟨hholes', pi, hx'⟩ := hxfer
      refine ⟨hholes'.trans hholes, hflags, ?_, ?_, ?_⟩
      · rw [hx', hx2, hx1]
      · rw [hx', hx2, hx1]
      · rw [hx', hx2, hx1]
        simp [itemBlock, blockEntry]

theorem dumpItems_eq (h : dumpItems autoDedup kernel its st = .ok st') :
    ((∀ x ∈ st'.holes, x.2 = ppHoleParent) → ∀ x ∈ st.holes, x.2 = ppHoleParent) ∧
    st'.xfer.offset = st.xfer.offset ∧ st'.xfer.transferLazy = st.xfer.transferLazy ∧
    st'.xfer.pmi ++ (st'.holes.map holeBlock).map (blockEntry st.xfer.offset) = st.xfer.pmi ++
        (planned st.xfer.transferLazy its st.holes).map (blockEntry st.xfer.offset) := by
  induction its generalizing st with
  | nil =>
    simp only [dumpItems, Except.ok.injEq] at h
    subst h
    exact ⟨fun h => h, rfl, rfl, rfl⟩
  | cons it its ih =>
    simp only [dumpItems] at h
    cases hd : dumpIov autoDedup kernel it.1 it.2 st with
    | error f => simp [hd] at h
    | ok st1 =>
      rw [hd] at h
      obtain ⟨hholes, hflags, hoff, hlazy, hpmi⟩ := dumpIov_eq hd
      obtain ⟨hflags', hoff', hlazy', hpmi'⟩ := ih h
      refine ⟨?_, hoff'.trans hoff, hlazy'.trans hlazy, ?_⟩
      · intro hrest
        rw [← takeWhile_append_dropWhile (l := st.holes)]
        exact forall_mem_append.mpr ⟨hflags, hholes ▸ hflags' hrest⟩
      · rw [hoff, hlazy, hholes, hpmi] at hpmi'
        rw [hpmi', planned]
        simp only [append_assoc, map_append, map_cons, map_nil, singleton_append]

/-- A dump that returns has written the planned entries, and met no hole of another kind. -/
theorem pageXferDumpPages_eq {pp : PagePipe} {pipes : ℕ → List UInt8}
    (h : pageXferDumpPages autoDedup kernel xfer pp pipes = .ok st) :
    (∀ x ∈ pp.holes, x.2 = ppHoleParent) ∧
    st.xfer.offset = xfer.offset ∧ st.xfer.transferLazy = xfer.transferLazy ∧
    st.xfer.pmi = xfer.pmi ++
      (planned xfer.transferLazy (items pp) pp.holes).map (blockEntry xfer.offset) := by
  simp only [pageXferDumpPages, dumpBufs_eq_items] at h
  cases hd : dumpItems autoDedup kernel (items pp) ⟨xfer, pp.holes, pipes, 0⟩ with
  | error f => simp [items] at hd; simp [hd] at h
  | ok st1 =>
    obtain ⟨hflags, hoff, hlazy, hpmi⟩ := dumpItems_eq hd
    simp only [items] at hd
    simp only [hd] at h
    cases hh : dumpHoles autoDedup 0 st1.holes st1.xfer with
    | error f => simp [hh] at h
    | ok res =>
      simp only [hh, Except.ok.injEq] at h
      subst h
      obtain ⟨-, hall, parent2, hx⟩ := dumpHoles_eq hh
      have hpass : ∀ l : List (Iovec × ℕ), l.takeWhile (passes 0) = l :=
        fun l => takeWhile_eq_self_iff.mpr fun _ _ => rfl
      rw [hpass] at hall hx
      refine ⟨hflags hall, by rw [hx, hoff], by rw [hx, hlazy], ?_⟩
      simp only [hx]
      rw [← hpmi, hoff]

end Partial

def Before (a b : Iovec) : Prop := a.base + a.len ≤ b.base

/-- Which blocks are planned, regardless of the order. -/
theorem planned_perm (transferLazy : Bool) (its : List Item) (holes : List (Iovec × ℕ)) :
    (planned transferLazy its holes).Perm
      (its.map (itemBlock transferLazy) ++ holes.map holeBlock) := by
  induction its generalizing holes with
  | nil => exact .refl _
  | cons it its ih =>
    have hsplit : holes.map holeBlock = (holes.takeWhile (passes it.2.base)).map holeBlock ++
        (holes.dropWhile (passes it.2.base)).map holeBlock := by
      rw [← map_append, takeWhile_append_dropWhile]
    simp only [map_cons, cons_append]
    refine perm_middle.trans (List.Perm.cons _ ?_)
    rw [hsplit]
    refine ((ih _).append_left _).trans ?_
    rw [← append_assoc, ← append_assoc]
    exact perm_append_comm.append_right _

theorem mem_planned {transferLazy : Bool} {b : Block} : b ∈ planned transferLazy its holes ↔
      (∃ it ∈ its, itemBlock transferLazy it = b) ∨ ∃ y ∈ holes, holeBlock y = b := by
  rw [(planned_perm ..).mem_iff, mem_append, mem_map, mem_map]

section Sorted

theorem mem_dropWhile_ge (hs : holes.Pairwise (fun a b => Before a.1 b.1)) :
    ∀ h ∈ holes.dropWhile (passes limit), limit ≤ h.1.base := by
  induction holes with
  | nil => simp
  | cons x holes ih =>
    rw [pairwise_cons] at hs
    by_cases hpass : passes limit x = true
    · simpa [hpass] using ih hs.2
    have hx : limit ≤ x.1.base := (not_not.mp (mt passes_iff.mpr hpass)).2
    simp only [dropWhile_cons, hpass]
    refine forall_mem_cons.mpr ⟨hx, fun h hh => ?_⟩
    have := hs.1 h hh
    simp only [Before] at this
    omega

/-- The merge is sorted, unless a block at address 0 lets holes pass. -/
theorem planned_sorted (transferLazy : Bool) (hits : its.Pairwise (fun a b => Before a.2 b.2))
    (hholes : holes.Pairwise (fun a b => Before a.1 b.1))
    (hapart : ∀ it ∈ its, ∀ h ∈ holes, Before it.2 h.1 ∨ Before h.1 it.2)
    (hpos : ∀ h ∈ holes, 0 < h.1.len) (hzero : ∀ it ∈ its, it.2.base = 0 → holes = []) :
    (planned transferLazy its holes).Pairwise (fun a b => Before a.1 b.1) := by
  induction its generalizing holes with
  | nil =>
    rw [planned, pairwise_map]
    exact hholes
  | cons it its ih =>
    rw [pairwise_cons] at hits
    rw [forall_mem_cons] at hapart hzero
    have hmemD : ∀ h ∈ holes.dropWhile (passes it.2.base), h ∈ holes :=
      fun h hh => (dropWhile_sublist _).subset hh
    have hbefore : ∀ h ∈ holes.takeWhile (passes it.2.base), Before h.1 it.2 := by
      intro h hh
      rcases hapart.1 h ((takeWhile_sublist _).subset hh) with hap | hap
      · have hlt := passes_iff.mp (mem_takeWhile_imp hh)
        by_cases h0 : it.2.base = 0
        · rw [hzero.1 h0] at hh
          simp at hh
        · simp only [Before] at hap
          omega
      · exact hap
    have hafter : ∀ h ∈ holes.dropWhile (passes it.2.base), Before it.2 h.1 := by
      intro h hh
      have hge := mem_dropWhile_ge hholes h hh
      rcases hapart.1 h (hmemD h hh) with hap | hap
      · exact hap
      · have := hpos h (hmemD h hh)
        simp only [Before] at hap
        omega
    have hzeroD : ∀ i ∈ its, i.2.base = 0 → holes.dropWhile (passes it.2.base) = [] := by
      intro i hi h0
      rw [hzero.2 i hi h0]
      rfl
    have hrest := ih hits.2 (hholes.sublist (dropWhile_sublist _))
      (fun i hi h hh => hapart.2 i hi h (hmemD h hh)) (fun h hh => hpos h (hmemD h hh)) hzeroD
    have hlater : ∀ b ∈ planned transferLazy its (holes.dropWhile (passes it.2.base)),
        Before it.2 b.1 := by
      intro b hb
      obtain ⟨i, hi, rfl⟩ | ⟨h, hh, rfl⟩ := mem_planned.mp hb
      · exact hits.1 i hi
      · exact hafter h hh
    rw [planned, pairwise_append, pairwise_cons, pairwise_map]
    refine ⟨hholes.sublist (takeWhile_sublist _), ⟨hlater, hrest⟩, ?_⟩
    refine forall_mem_map.mpr fun h hh => ?_
    have hfirst := hbefore h hh
    refine forall_mem_cons.mpr ⟨hfirst, fun b hb => ?_⟩
    have := hlater b hb
    simp only [Before, holeBlock] at *
    omega

/-- A first block at address 0 comes after all holes. -/
theorem planned_zero (transferLazy : Bool) (h0 : it.2.base = 0) :
    planned transferLazy (it :: its) holes =
      holes.map holeBlock ++ itemBlock transferLazy it :: planned transferLazy its [] := by
  have hall : ∀ h ∈ holes, passes it.2.base h = true := fun _ _ => passes_iff.mpr fun h => h.1 h0
  rw [planned, takeWhile_eq_self_iff.mpr hall, dropWhile_eq_nil_iff.mpr hall]

end Sorted

section Runs

theorem mem_iovPages :
    x ∈ iovPages iov ↔ ∃ i, i < iov.len / pageSize ∧ iov.base + i * pageSize = x := by
  simp [iovPages]

theorem base_mem_iovPages (h : WholePages iov) : iov.base ∈ iovPages iov := by
  refine mem_iovPages.mpr ⟨0, ?_, by simp⟩
  obtain ⟨hpos, n, hn⟩ := h
  simp only [pageSize] at hn ⊢
  omega

theorem iovPages_pairwise (iov : Iovec) : (iovPages iov).Pairwise (· < ·) := by
  rw [iovPages, pairwise_map]
  refine pairwise_lt_range.imp ?_
  simp only [pageSize]
  omega

/-- Runs whose pages are all below the pages of another run end before it. -/
theorem before_of_pages {a b : Iovec} (ha : WholePages a) (hb : WholePages b)
    (hala : pageSize ∣ a.base) (halb : pageSize ∣ b.base)
    (h : ∀ x ∈ iovPages a, ∀ y ∈ iovPages b, x < y) : Before a b := by
  obtain ⟨hpos, n, hn⟩ := ha
  have hlast : a.base + (n - 1) * pageSize ∈ iovPages a := by
    refine mem_iovPages.mpr ⟨n - 1, ?_, rfl⟩
    simp only [pageSize] at hn ⊢
    omega
  have hlt := h _ hlast _ (base_mem_iovPages hb)
  simp only [Before, pageSize] at *
  omega

theorem apart_of_pages {a b : Iovec} (ha : WholePages a) (hb : WholePages b)
    (hala : pageSize ∣ a.base) (halb : pageSize ∣ b.base) (h : ∀ x ∈ iovPages a, x ∉ iovPages b) :
    Before a b ∨ Before b a := by
  have hin : ∀ {a b : Iovec}, pageSize ∣ a.len → pageSize ∣ a.base → pageSize ∣ b.base →
      a.base ≤ b.base → b.base < a.base + a.len → b.base ∈ iovPages a := by
    rintro a b ⟨n, hn⟩ ⟨c, hc⟩ ⟨d, hd⟩ hle hlt
    refine mem_iovPages.mpr ⟨d - c, ?_, ?_⟩ <;>
    · simp only [pageSize] at *
      omega
  by_cases hle : a.base ≤ b.base
  · left
    by_contra hno
    simp only [Before, not_le] at hno
    exact h _ (hin ha.2 hala halb hle hno) (base_mem_iovPages hb)
  · right
    by_contra hno
    simp only [Before, not_le] at hno
    exact h _ (base_mem_iovPages ha) (hin hb.2 halb hala (by omega) hno)

theorem pairwise_before {α : Type} {f : α → Iovec} {l : List α}
    (hw : ∀ a ∈ l, WholePages (f a)) (hal : ∀ a ∈ l, pageSize ∣ (f a).base)
    (hp : (l.flatMap (fun a => iovPages (f a))).Pairwise (· < ·)) :
    l.Pairwise (fun a b => Before (f a) (f b)) := by
  rw [pairwise_flatMap] at hp
  refine hp.2.imp_of_mem ?_
  intro a b ha hb h
  exact before_of_pages (hw a ha) (hw b hb) (hal a ha) (hal b hb) h

end Runs

def expandBlocks (l : List Block) : List (ℕ × ℕ) :=
  l.flatMap (fun b => (iovPages b.1).map (fun a => (a, b.2)))

def expandEntries (l : List PagemapEntry) : List (ℕ × ℕ) :=
  l.flatMap (fun e => (List.range e.nrPages).map (fun i => (e.vaddr + i * pageSize, e.flags)))

theorem expandBlocks_map_fst (l : List Block) :
    (expandBlocks l).map Prod.fst = l.flatMap (fun b => iovPages b.1) := by
  simp [expandBlocks, map_flatMap, Function.comp_def]

theorem expandBlocks_pairwise (h : l.Pairwise (fun a b => Before a.1 b.1)) :
    (expandBlocks l).Pairwise (fun a b => a.1 < b.1) := by
  rw [← pairwise_map, expandBlocks_map_fst, pairwise_flatMap]
  refine ⟨fun b _ => iovPages_pairwise b.1, h.imp ?_⟩
  intro a b hab x hx y hy
  obtain ⟨i, hi, rfl⟩ := mem_iovPages.mp hx
  obtain ⟨j, -, rfl⟩ := mem_iovPages.mp hy
  simp only [Before, pageSize] at *
  omega

theorem expandEntries_blocks (hoff : ∀ b ∈ l, offset ≤ b.1.base)
    (hsize : ∀ b ∈ l, b.1.len / pageSize < 2 ^ 32) :
    expandEntries (l.map (blockEntry offset)) =
      (expandBlocks l).map (fun x => (x.1 - offset, x.2)) := by
  rw [expandEntries, expandBlocks, flatMap_map, map_flatMap]
  refine flatMap_congr ?_
  intro b hb
  have hle := hoff b hb
  rw [iovPages, map_map, map_map, blockEntry, Nat.mod_eq_of_lt (hsize b hb)]
  refine map_congr_left ?_
  simp only [Function.comp_apply, Prod.mk.injEq, and_true]
  omega

theorem sortedMap_blocks (hoff : ∀ b ∈ l, offset ≤ b.1.base) (hw : ∀ b ∈ l, WholePages b.1)
    (hsize : ∀ b ∈ l, b.1.len / pageSize < 2 ^ 32) (h : l.Pairwise (fun a b => Before a.1 b.1)) :
    SortedMap (l.map (blockEntry offset)) ∧ ∀ e ∈ l.map (blockEntry offset), 0 < e.nrPages := by
  have hcount : ∀ b ∈ l, b.1.len / pageSize % 2 ^ 32 * pageSize = b.1.len ∧
      0 < b.1.len / pageSize % 2 ^ 32 := by
    intro b hb
    obtain ⟨hpos, n, hn⟩ := hw b hb
    rw [Nat.mod_eq_of_lt (hsize b hb)]
    simp only [pageSize] at *
    omega
  refine ⟨?_, ?_⟩
  · rw [SortedMap, pairwise_map]
    refine h.imp_of_mem ?_
    intro a b ha hb hab
    have := hoff a ha
    have := (hcount a ha).1
    simp only [Before, PagemapEntry.stop, pagemapLen, blockEntry] at *
    omega
  · intro e he
    obtain ⟨b, hb, rfl⟩ := mem_map.mp he
    exact (hcount b hb).2

theorem items_pages (pp : PagePipe) :
    (items pp).flatMap (fun it => (iovPages it.2).map (fun a => (a, it.1.flags))) =
      pipePages pp := by
  rw [items, flatMap_assoc]
  refine flatMap_congr ?_
  intro b _
  rw [flatMap_map, bufPages, map_flatMap]

structure Increasing (calls : List AddCall) : Prop where
  sorted : calls.Pairwise (fun a b => a.addr < b.addr)
  aligned : ∀ c ∈ calls, pageSize ∣ c.addr

structure Holds (start : ℕ) (calls : List AddCall) (pp : PagePipe) : Prop where
  collected : Collected start (pagesOf calls) pp
  whole : ∀ h ∈ pp.holes, WholePages h.1
  holes : holePages pp.holes = holesOf calls

def callPage (transferLazy : Bool) (c : AddCall) : ℕ × ℕ :=
  (c.addr, if c.isPage then ppbXferFlags transferLazy c.flags else peParent)

section Calls

variable {start : ℕ} {calls : List AddCall} {pp : PagePipe}

theorem Holds.items_whole (h : Holds start calls pp) : ∀ it ∈ items pp, WholePages it.2 := by
  intro it hit
  obtain ⟨b, hb, hit⟩ := mem_flatMap.mp hit
  obtain ⟨iov, hiov, rfl⟩ := mem_map.mp hit
  exact (h.collected.bufs b hb).whole iov hiov

/-- The pages of an iovec were added as pages with the flags of its buffer. -/
theorem Holds.page_iff (h : Holds start calls pp) : AddCall.page x flags ∈ calls ↔
    ∃ it ∈ items pp, x ∈ iovPages it.2 ∧ it.1.flags = flags := by
  rw [← mem_pagesOf, ← h.collected.contents, ← items_pages]
  simp

theorem Holds.hole_iff (h : Holds start calls pp) : AddCall.hole x flags ∈ calls ↔
    ∃ y ∈ pp.holes, x ∈ iovPages y.1 ∧ y.2 = flags := by
  rw [← mem_holesOf, ← h.holes]
  simp [holePages]

theorem Holds.item_base (h : Holds start calls pp) (hit : it ∈ items pp) :
    AddCall.page it.2.base it.1.flags ∈ calls :=
  h.page_iff.mpr ⟨it, hit, base_mem_iovPages (h.items_whole it hit), rfl⟩

theorem Holds.hole_base (h : Holds start calls pp) (hy : y ∈ pp.holes) :
    AddCall.hole y.1.base y.2 ∈ calls :=
  h.hole_iff.mpr ⟨y, hy, base_mem_iovPages (h.whole y hy), rfl⟩

variable (h : Holds start calls pp) (hinc : Increasing calls)

include h hinc

theorem items_aligned : ∀ it ∈ items pp, pageSize ∣ it.2.base :=
  fun _ hit => hinc.aligned _ (h.item_base hit)

theorem holes_aligned : ∀ y ∈ pp.holes, pageSize ∣ y.1.base :=
  fun _ hy => hinc.aligned _ (h.hole_base hy)

theorem items_sorted : (items pp).Pairwise (fun a b => Before a.2 b.2) := by
  apply pairwise_before h.items_whole (items_aligned h hinc)
  have hfst : (items pp).flatMap (fun it => iovPages it.2) = (pagesOf calls).map Prod.fst := by
    rw [← h.collected.contents, ← items_pages, map_flatMap]
    simp [Function.comp_def]
  rw [hfst, pagesOf, map_map, pairwise_map]
  exact hinc.sorted.sublist (filter_sublist ..)

theorem holes_sorted : pp.holes.Pairwise (fun a b => Before a.1 b.1) := by
  apply pairwise_before h.whole (holes_aligned h hinc)
  have hfst : pp.holes.flatMap (fun y => iovPages y.1) = (holesOf calls).map Prod.fst := by
    rw [← h.holes, holePages, map_flatMap]
    simp [Function.comp_def]
  rw [hfst, holesOf, map_map, pairwise_map]
  exact hinc.sorted.sublist (filter_sublist ..)

theorem items_apart : ∀ it ∈ items pp, ∀ y ∈ pp.holes, Before it.2 y.1 ∨ Before y.1 it.2 := by
  intro it hit y hy
  apply apart_of_pages (h.items_whole it hit) (h.whole y hy) (items_aligned h hinc it hit)
    (holes_aligned h hinc y hy)
  intro x hx hx'
  have hnodup : (calls.map AddCall.addr).Nodup := by
    rw [List.Nodup, pairwise_map]
    exact hinc.sorted.imp fun h => Nat.ne_of_lt h
  have heq := inj_on_of_nodup_map hnodup (h.page_iff.mpr ⟨it, hit, hx, rfl⟩)
    (h.hole_iff.mpr ⟨y, hy, hx', rfl⟩) rfl
  simp at heq

omit hinc in
theorem planned_whole (transferLazy : Bool) :
    ∀ b ∈ planned transferLazy (items pp) pp.holes, WholePages b.1 := by
  intro b hb
  obtain ⟨it, hit, rfl⟩ | ⟨y, hy, rfl⟩ := mem_planned.mp hb
  · exact h.items_whole it hit
  · exact h.whole y hy

omit hinc in
theorem expand_items (transferLazy : Bool) :
    expandBlocks ((items pp).map (itemBlock transferLazy)) =
      (calls.filter (fun c => c.isPage)).map (callPage transferLazy) := by
  have hflags : expandBlocks ((items pp).map (itemBlock transferLazy)) =
      (pipePages pp).map (fun x => (x.1, ppbXferFlags transferLazy x.2)) := by
    rw [← items_pages, expandBlocks, flatMap_map, map_flatMap]
    simp [itemBlock, Function.comp_def]
  rw [hflags, h.collected.contents, pagesOf, map_map]
  refine map_congr_left ?_
  intro c hc
  simp [callPage, (mem_filter.mp hc).2]

omit hinc in
/-- The planned pages are those of the calls, in some order. -/
theorem expand_planned_perm (transferLazy : Bool) :
    (expandBlocks (planned transferLazy (items pp) pp.holes)).Perm
      (calls.map (callPage transferLazy)) := by
  have hholes : expandBlocks (pp.holes.map holeBlock) =
      (calls.filter (fun c => !c.isPage)).map (callPage transferLazy) := by
    have hflags : expandBlocks (pp.holes.map holeBlock) =
        (holePages pp.holes).map (fun x => (x.1, peParent)) := by
      rw [holePages, expandBlocks, flatMap_map, map_flatMap]
      simp [holeBlock, Function.comp_def]
    rw [hflags, h.holes, holesOf, map_map]
    refine map_congr_left ?_
    intro c hc
    have hc := (mem_filter.mp hc).2
    simp only [Bool.not_eq_true'] at hc
    simp [callPage, hc]
  have hperm := (planned_perm transferLazy (items pp) pp.holes).flatMap_right
    (fun b => (iovPages b.1).map (fun a => (a, b.2)))
  rw [flatMap_append] at hperm
  refine hperm.trans ?_
  rw [← expandBlocks, ← expandBlocks, expand_items h, hholes, ← map_append]
  exact (filter_append_perm _ _).map _

/-- Different holes do not touch unless their flags differ. -/
theorem touching_holes (hm : Merged pp.holes) {z : Iovec × ℕ} (hy : y ∈ pp.holes)
    (hz : z ∈ pp.holes) (hne : y ≠ z) (hx : x ∈ iovPages y.1) (hx' : x + pageSize ∈ iovPages z.1) :
    y.2 ≠ z.2 := by
  have hsorted := holes_sorted h hinc
  have hpos : ∀ w ∈ pp.holes, 0 < w.1.len := fun w hw => (h.whole w hw).1
  obtain ⟨i, hi, hi'⟩ := mem_iovPages.mp hx
  obtain ⟨j, hj, hj'⟩ := mem_iovPages.mp hx'
  obtain ⟨l, r, hlr⟩ := append_of_mem hy
  rw [hlr] at hm hsorted hz hpos
  rw [pairwise_append, pairwise_cons] at hsorted
  obtain ⟨-, ⟨hafter, hr⟩, hbefore⟩ := hsorted
  rcases mem_append.mp hz with hz | hz
  · have hbz := hbefore z hz y mem_cons_self
    simp only [Before, pageSize] at *
    omega
  rcases mem_cons.mp hz with rfl | hz
  · exact absurd rfl hne
  have hyz := hafter z hz
  have htouch : y.1.base + y.1.len = z.1.base := by
    simp only [Before, pageSize] at *
    omega
  cases r with
  | nil => simp at hz
  | cons w r =>
    rcases mem_cons.mp hz with rfl | hz
    · exact (isChain_append_cons_cons.mp hm).2.1 htouch
    · have hyw := hafter w mem_cons_self
      have hwz := (pairwise_cons.mp hr).1 z hz
      have := hpos w (by simp)
      simp only [Before] at *
      omega

/-- Holes of one kind that touch are one hole, so a run of added holes lies in one. -/
theorem hole_run (hm : Merged pp.holes) (hflags : ∀ y ∈ pp.holes, y.2 = flags)
    {a : ℕ} {n : ℕ} (hrun : ∀ i < n + 1, ∃ flags, AddCall.hole (a + i * pageSize) flags ∈ calls) :
    ∃ y ∈ pp.holes, ∀ i < n + 1, a + i * pageSize ∈ iovPages y.1 := by
  induction n with
  | zero =>
    obtain ⟨_, hcall⟩ := hrun 0 (by omega)
    obtain ⟨y, hy, hx, -⟩ := h.hole_iff.mp hcall
    refine ⟨y, hy, ?_⟩
    intro i hi
    rwa [show i = 0 by omega]
  | succ n ih =>
    obtain ⟨y, hy, hall⟩ := ih fun i hi => hrun i (by omega)
    obtain ⟨_, hcall⟩ := hrun (n + 1) (by omega)
    obtain ⟨z, hz, hx, -⟩ := h.hole_iff.mp hcall
    have hyz : z = y := by
      by_contra hne
      have hnext : a + n * pageSize + pageSize ∈ iovPages z.1 := by
        rwa [Nat.succ_mul, ← Nat.add_assoc] at hx
      refine touching_holes h hinc hm hy hz (fun h => hne h.symm) (hall n (by omega)) hnext ?_
      rw [hflags y hy, hflags z hz]
    refine ⟨y, hy, ?_⟩
    intro i hi
    rcases Nat.lt_succ_iff_lt_or_eq.mp hi with hi | rfl
    · exact hall i hi
    · exact hyz ▸ hx

/-- Unless a page at address 0 meets holes, the dump goes through the calls in order. -/
theorem planned_ok (transferLazy : Bool)
    (hzero : (∃ flags, AddCall.page 0 flags ∈ calls) → ∀ c ∈ calls, c.isPage = true) :
    (planned transferLazy (items pp) pp.holes).Pairwise (fun a b => Before a.1 b.1) ∧
      expandBlocks (planned transferLazy (items pp) pp.holes) =
        calls.map (callPage transferLazy) := by
  have hsorted : (planned transferLazy (items pp) pp.holes).Pairwise
      (fun a b => Before a.1 b.1) := by
    apply planned_sorted transferLazy (items_sorted h hinc) (holes_sorted h hinc)
      (items_apart h hinc) (fun y hy => (h.whole y hy).1)
    intro it hit h0
    rw [eq_nil_iff_forall_not_mem]
    intro y hy
    have := hzero ⟨_, h0 ▸ h.item_base hit⟩ _ (h.hole_base hy)
    simp [AddCall.isPage] at this
  refine ⟨hsorted, (expand_planned_perm h transferLazy).eq_of_pairwise ?_
    (expandBlocks_pairwise hsorted) ?_⟩
  · omega
  · rw [pairwise_map]
    exact hinc.sorted

end Calls

end Criu.DumpPlan

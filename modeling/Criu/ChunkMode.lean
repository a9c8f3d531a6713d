import Mathlib.Data.List.Nodup
import Criu.PipeContents

/-!
The page pipe in chunk mode. Every buffer has a pipe of its own, at most eight of them are
made, and when all are in use the page pipe asks for a drain instead of growing. After
`page_pipe_reinit` the buffers are used again, with the pipe sizes they had before. As long
as the kernel grants the last doubling of a pipe, no buffer ever believes its pipe to be
larger than it is.
-/

namespace Criu.ChunkMode

open Pagemap ReadCursor PageIo PipeBuffers PipeContents List

/-- All buffers in use or recycled have different pipes of at least the believed sizes. -/
structure Capped (pp : PagePipe) : Prop where
  chunk : pp.chunkMode = true
  count : pp.bufs.length + pp.freeBufs.length = pp.nrPipes
  bound : pp.nrPipes ≤ nrPipesPerChunk
  lt : ∀ b ∈ pp.bufs ++ pp.freeBufs, b.pipe < pp.nrPipes
  nodup : ((pp.bufs ++ pp.freeBufs).map PagePipeBuf.pipe).Nodup
  own : ∀ b ∈ pp.bufs ++ pp.freeBufs, b.pipeOff = 0
  fits : ∀ b ∈ pp.bufs ++ pp.freeBufs, b.pipeSize ≤ pp.caps b.pipe

section Chunk

variable {k : PipeKernel} {start : ℕ} {pages : List (ℕ × ℕ)} {pp pp' : PagePipe}

/-- Only the pipes, offsets and sizes of the buffers matter. -/
theorem Capped.of_perm (h : Capped pp) (hchunk : pp'.chunkMode = pp.chunkMode)
    (hpipes : pp'.nrPipes = pp.nrPipes) (hcaps : pp'.caps = pp.caps)
    (hperm : ((pp'.bufs ++ pp'.freeBufs).map fun b => (b.pipe, b.pipeOff, b.pipeSize)).Perm
      ((pp.bufs ++ pp.freeBufs).map fun b => (b.pipe, b.pipeOff, b.pipeSize))) : Capped pp' := by
  have hmem : ∀ b ∈ pp'.bufs ++ pp'.freeBufs, ∃ c ∈ pp.bufs ++ pp.freeBufs,
      c.pipe = b.pipe ∧ c.pipeOff = b.pipeOff ∧ c.pipeSize = b.pipeSize := by
    intro b hb
    obtain ⟨c, hc, heq⟩ := mem_map.mp (hperm.subset (mem_map_of_mem hb))
    rw [Prod.mk.injEq, Prod.mk.injEq] at heq
    exact ⟨c, hc, heq⟩
  refine ⟨hchunk.trans h.chunk, ?_, hpipes ▸ h.bound, ?_, ?_, ?_, ?_⟩
  · have hlen := hperm.length_eq
    simp only [length_map, length_append] at hlen
    rw [hlen, hpipes, h.count]
  · intro b hb
    obtain ⟨c, hc, hp, -⟩ := hmem b hb
    rw [hpipes, ← hp]
    exact h.lt c hc
  · have hnodup := (hperm.map Prod.fst).nodup_iff
    rw [map_map, map_map] at hnodup
    exact hnodup.mpr h.nodup
  · intro b hb
    obtain ⟨c, hc, -, ho, -⟩ := hmem b hb
    rw [← ho, h.own c hc]
  · intro b hb
    obtain ⟨c, hc, hp, -, hs⟩ := hmem b hb
    rw [hcaps, ← hp, ← hs]
    exact h.fits c hc

theorem Capped.of_frame {init : List PagePipeBuf} {b : PagePipeBuf} (h : Capped pp)
    (hg : Grants k) (hf : LastFrame k pp pp' init b) (hbufs : pp.bufs = init ++ [b]) :
    Capped pp' := by
  obtain ⟨⟨b', hbufs', hpipe, hoff, -, hsize⟩, hcaps, bufs, _, _, _, _, rfl⟩ := hf
  obtain rfl : bufs = init ++ [b'] := hbufs'
  have hall : pp.bufs ++ pp.freeBufs = init ++ b :: pp.freeBufs := by simp [hbufs]
  have hb : b ∈ pp.bufs ++ pp.freeBufs := by simp [hall]
  have hmem : ∀ c ∈ init ++ [b'] ++ pp.freeBufs, c = b' ∨
      (c ∈ pp.bufs ++ pp.freeBufs ∧ c.pipe ≠ b.pipe) := by
    intro c hc
    have hnodup := h.nodup
    rw [hall, map_append, map_cons, nodup_append, nodup_cons] at hnodup
    obtain ⟨-, ⟨hfree, -⟩, hinit⟩ := hnodup
    rw [append_assoc, mem_append, singleton_append, mem_cons] at hc
    rcases hc with hc | rfl | hc
    · exact Or.inr ⟨by simp [hall, hc], hinit _ (mem_map_of_mem hc) _ (by simp)⟩
    · exact Or.inl rfl
    · refine Or.inr ⟨by simp [hc], ?_⟩
      intro heq
      exact hfree (heq ▸ mem_map_of_mem hc)
  refine ⟨h.chunk, ?_, h.bound, ?_, ?_, ?_, ?_⟩
  · have := h.count
    rw [hbufs] at this
    simpa using this
  · intro c hc
    rcases hmem c hc with rfl | ⟨hc, -⟩
    · rw [hpipe]
      exact h.lt b hb
    · exact h.lt c hc
  · simpa [hall, hpipe] using h.nodup
  · intro c hc
    rcases hmem c hc with rfl | ⟨hc, -⟩
    · rw [hoff, h.own b hb]
    · exact h.own c hc
  intro c hc
  rcases hmem c hc with rfl | ⟨hc, hne⟩
  · rw [hpipe]
    exact hsize hg (h.fits b hb)
  · exact (h.fits c hc).trans_eq (hcaps _ hne).symm

def Full (pp : PagePipe) : Prop := pp.freeBufs = [] ∧ pp.nrPipes = nrPipesPerChunk

theorem Capped.alloc (h : Capped pp) (hfree : pp.freeBufs = []) (hlt : pp.nrPipes < nrPipesPerChunk)
    (k : PipeKernel) (lazyPages : Bool) (flags : ℕ) :
    let alloc := ppbAllocPipe k lazyPages pp flags
    Capped { alloc.2 with bufs := alloc.2.bufs ++ [ppbInit alloc.1 flags alloc.2.freeIov] } := by
  have hcount := h.count
  have hltb := h.lt
  have hown := h.own
  have hfits := h.fits
  have hnodup := h.nodup
  rw [hfree, append_nil] at hltb hown hfits hnodup
  rw [hfree] at hcount
  simp only [ppbAllocPipe, ppUpdatePrevPpb, ppbInit, length_nil, Nat.add_zero] at hcount ⊢
  refine ⟨h.chunk, ?_, hlt, ?_, ?_, ?_, ?_⟩
  · simp [hfree, hcount]
  · simp only [hfree, append_nil, forall_mem_append, forall_mem_singleton]
    exact ⟨fun b hb => Nat.lt_succ_of_lt (hltb b hb), Nat.lt_succ_self _⟩
  · simp only [hfree, append_nil, map_append]
    refine nodup_append.mpr ⟨hnodup, nodup_singleton _, ?_⟩
    intro x hx y hy
    obtain ⟨b, hb, rfl⟩ := mem_map.mp hx
    rw [mem_singleton.mp hy]
    exact Nat.ne_of_lt (hltb b hb)
  · simp only [hfree, append_nil, forall_mem_append, forall_mem_singleton]
    exact ⟨hown, trivial⟩
  simp only [hfree, append_nil, forall_mem_append, forall_mem_singleton, Function.update_self,
    le_refl, and_true]
  intro b hb
  rw [Function.update_of_ne (Nat.ne_of_lt (hltb b hb))]
  exact hfits b hb

/-- In chunk mode the page pipe grows by an empty buffer, or it is full. -/
theorem grow_chunk (k : PipeKernel) (lazyPages : Bool) (h : Capped pp)
    (hc : Collected start pages pp) (flags : ℕ) :
    (pagePipeGrow k lazyPages pp flags = .ok (true, pp) ∧ Full pp) ∨
    ∃ pp' nb, pagePipeGrow k lazyPages pp flags = .ok (false, pp') ∧
      pp'.bufs = pp.bufs ++ [nb] ∧ nb.flags = flags ∧ nb.pagesIn + nb.pipeOff < nb.pipeSize ∧
      Collected start pages pp' ∧ Capped pp' ∧ pp'.nrIovs = pp.nrIovs ∧ pp'.holes = pp.holes := by
  unfold pagePipeGrow
  cases hfree : pp.freeBufs with
  | cons b rest =>
    have hb := hc.free b (by simp [hfree])
    have hroom : b.pipeOff < b.pipeSize := by omega
    refine Or.inr ⟨_, ppbInit b flags pp.freeIov, rfl, rfl, rfl,
      by simpa [ppbInit] using hroom, ?_, ?_, rfl, rfl⟩
    · refine hc.append_empty rfl rfl rfl ?_ rfl rfl rfl hroom
      intro c hmem
      rw [hfree]
      exact mem_cons_of_mem _ hmem
    · refine h.of_perm rfl rfl rfl ?_
      simp [hfree, ppbInit]
  | nil =>
    by_cases hfull : pp.nrPipes = nrPipesPerChunk
    · simp [h.chunk, hfull, hfree, Full]
    right
    have hlt : pp.nrPipes < nrPipesPerChunk := lt_of_le_of_ne h.bound hfull
    have hcond : (pp.chunkMode && pp.nrPipes == nrPipesPerChunk) = false := by simp [hfull]
    have halloc : ppbAlloc k lazyPages pp flags = .ok (ppbAllocPipe k lazyPages pp flags) := by
      simp [ppbAlloc, ppPrevPpb, h.chunk]
    simp only [hcond, halloc]
    refine ⟨_, _, rfl, rfl, rfl, k.newPipe_pos _, ?_, h.alloc hfree hlt k lazyPages flags, rfl, rfl⟩
    exact hc.append_empty rfl rfl rfl (fun _ hb => hb) rfl rfl rfl (k.newPipe_pos _)

/-- In chunk mode a page is added unless the page pipe is full; then it keeps what it has. -/
theorem addPage_chunk (hg : Grants k) (lazyPages : Bool) (h : Capped pp)
    (hc : Collected start pages pp) (addr flags : ℕ) (hiovs : start + pages.length < pp.nrIovs) :
    ∃ again pp', pagePipeAddPage k lazyPages pp addr flags = .ok (again, pp') ∧
      Collected start (if again then pages else pages ++ [(addr, flags)]) pp' ∧ Capped pp' ∧
      pp'.nrIovs = pp.nrIovs ∧ pp'.holes = pp.holes ∧
      (again = true → Full pp' ∧ pp.freeBufs = []) := by
  have hbufs := (dropLast_append_getLast hc.nonempty).symm
  obtain ⟨full, pp1, hrun1, hframe1, hc1, -⟩ := tryAddPage_ok k addr flags hbufs hc
    (.inl (hc.used.trans_lt hiovs))
  have h1 := h.of_frame hg hframe1 hbufs
  obtain ⟨_, _, _, _, _, rfl⟩ := hframe1.rest
  simp only [pagePipeAddPage, hrun1]
  cases full with
  | false => exact ⟨false, _, rfl, hc1, h1, rfl, rfl, by simp⟩
  | true =>
    rcases grow_chunk k lazyPages h1 hc1 flags with
      ⟨hrun2, hfull⟩ | ⟨pp2, nb, hrun2, hbufs2, hflags, hroom,
      hc2, h2, hn2, hh2⟩
    · simp only [hrun2]
      exact ⟨true, _, rfl, hc1, h1, rfl, rfl, fun _ => ⟨hfull, hfull.1⟩⟩
    obtain ⟨full, pp3, hrun3, hframe3, hc3, hfit⟩ := tryAddPage_ok k addr flags hbufs2 hc2
      (.inl (hc2.used.trans_lt (hn2 ▸ hiovs)))
    have h3 := h2.of_frame hg hframe3 hbufs2
    obtain ⟨_, _, _, _, _, rfl⟩ := hframe3.rest
    obtain rfl := hfit hflags hroom
    simp only [hrun2, hrun3]
    exact ⟨false, _, rfl, hc3, h3, hn2, hh2, by simp⟩

/-- `page_pipe_reinit` makes an empty page pipe that goes on in the array of iovecs. -/
theorem reinit_chunk (k : PipeKernel) (lazyPages : Bool) (h : Capped pp)
    (hc : Collected start pages pp) :
    ∃ pp', pagePipeReinit k lazyPages pp = .ok pp' ∧ Collected pp.freeIov [] pp' ∧ Capped pp' ∧
      pp'.freeIov = pp.freeIov ∧ pp'.nrIovs = pp.nrIovs ∧ pp'.holes = [] ∧
      pp'.freeBufs.length + 1 = pp.nrPipes := by
  have hcount := h.count
  cases hrec : pp.bufs.reverse ++ pp.freeBufs with
  | nil =>
    have hnil : pp.bufs = [] := by simpa using (append_eq_nil_iff.mp hrec).1
    exact absurd hnil hc.nonempty
  | cons b rest =>
    have hperm : (b :: rest).Perm (pp.bufs ++ pp.freeBufs) :=
      hrec ▸ (reverse_perm _).append_right _
    have hold : ∀ c ∈ b :: rest, c.pipeOff = 0 ∧ 0 < c.pipeSize := by
      intro c hmem
      rcases mem_append.mp (hperm.subset hmem) with hmem | hmem
      · exact ⟨h.own c (mem_append_left _ hmem), (hc.bufs c hmem).pos⟩
      · exact hc.free c hmem
    rw [forall_mem_cons] at hold
    simp only [pagePipeReinit, h.chunk, hrec]
    refine ⟨_, rfl, ⟨⟨rfl, rfl⟩, cons_ne_nil _ _, ?_, hold.2, rfl, le_refl _⟩, ?_, rfl, rfl, rfl,
      ?_⟩
    · refine forall_mem_singleton.mpr ⟨by simp [segs, ppbInit],
        by simp [bufPages, segs, ppbInit], ?_, hold.1.2⟩
      simp only [ppbInit]
      omega
    · refine h.of_perm h.chunk.symm rfl rfl ?_
      have hkeys := hperm.map fun b : PagePipeBuf => (b.pipe, b.pipeOff, b.pipeSize)
      simpa [ppbInit] using hkeys
    · have hlen := hperm.length_eq
      simp only [length_cons, length_append] at hlen
      show rest.length + 1 = pp.nrPipes
      omega

end Chunk

section Create

variable (k : PipeKernel) (lazyPages : Bool) (nrSegs : ℕ) (iovs : ℕ → Iovec)

theorem freshPipe_capped : Capped (freshPipe k lazyPages nrSegs iovs true) := by
  refine ⟨rfl, rfl, show 1 ≤ nrPipesPerChunk by decide, ?_, nodup_singleton _, ?_, ?_⟩ <;>
  · intro b hb
    rw [mem_singleton.mp hb]
    simp [freshPipe, firstBuf]

end Create

end Criu.ChunkMode

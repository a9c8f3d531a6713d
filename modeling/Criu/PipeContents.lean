import Mathlib.Data.List.Chain
import Criu.PipeBuffers

/-!
What a page pipe holds. The iovecs of the buffers tile a stretch of the common array, and
read in order they are the pages that were added, each with the flags it was added with.
Adding a page never fails while there are iovecs left, whatever capacities the kernel
gives to the pipes; in chunk mode it may ask for a drain instead.
-/

namespace Criu.PipeContents

open Pagemap ReadCursor PageIo PipeBuffers List Function

variable {pp pp' : PagePipe} {pages : List (ℕ × ℕ)} {b b' nb : PagePipeBuf} {k : PipeKernel}
  {start i a f : ℕ} {iov : Iovec} {l : List PagePipeBuf} {iovs iovs' : ℕ → Iovec}

/-- The kernel never refuses to make a pipe larger than PIPE_MAX_SIZE. A buffer takes such
a pipe to have PIPE_MAX_SIZE pages even if the request fails. -/
def Grants (k : PipeKernel) : Prop := ∀ c n, pipeMaxSize < n → k.setPipeSize c n ≠ none

section Resize

variable {full : Bool}

def believed (b : PagePipeBuf) : ℕ :=
  if pipeMaxSize < 2 * b.pipeSize then pipeMaxSize else b.pipeSize

/-- The outcomes of `ppb_resize_pipe`. -/
inductive Resized (k : PipeKernel) (pp : PagePipe) (b : PagePipeBuf) :
    Bool → PagePipeBuf → PagePipe → Prop
  | room : b.pagesIn + b.pipeOff < b.pipeSize → Resized k pp b false b pp
  | limit : b.pipeSize ≤ b.pagesIn + b.pipeOff → pipeMaxSize ≤ b.pipeSize →
      Resized k pp b true b pp
  | refused : b.pipeSize ≤ b.pagesIn + b.pipeOff → b.pipeSize < pipeMaxSize →
      k.setPipeSize pp.calls (2 * b.pipeSize) = none →
      Resized k pp b true { b with pipeSize := believed b } { pp with calls := pp.calls + 1 }
  | granted (ret : ℕ) : b.pipeSize ≤ b.pagesIn + b.pipeOff → b.pipeSize < pipeMaxSize →
      k.setPipeSize pp.calls (2 * b.pipeSize) = some ret →
      Resized k pp b false { b with pipeSize := ret }
        { pp with calls := pp.calls + 1, caps := Function.update pp.caps b.pipe ret }

theorem pipeMaxSize_eq : pipeMaxSize = 819 := rfl

/-- Resizing does not fail. -/
theorem ppbResizePipe_ok (k : PipeKernel) (pp : PagePipe) (b : PagePipeBuf) :
    ∃ full b' pp', ppbResizePipe k pp b = .ok (full, b', pp') ∧ Resized k pp b full b' pp' := by
  unfold ppbResizePipe
  by_cases hfree : b.pagesIn + b.pipeOff < b.pipeSize
  · exact ⟨false, b, pp, if_pos hfree, .room hfree⟩
  rw [if_neg hfree]
  have hfull := Nat.le_of_not_lt hfree
  by_cases hmax : pipeMaxSize < 2 * b.pipeSize ∧ pipeMaxSize ≤ b.pipeSize
  · exact ⟨true, b, pp, if_pos hmax, .limit hfull hmax.2⟩
  rw [if_neg hmax]
  have hsmall : b.pipeSize < pipeMaxSize := by
    rw [pipeMaxSize_eq] at hmax ⊢
    omega
  have hbelieved : (if pipeMaxSize < 2 * b.pipeSize then { b with pipeSize := pipeMaxSize }
      else b) = { b with pipeSize := believed b } := by
    unfold believed
    split <;> rfl
  simp only [hbelieved]
  cases hset : k.setPipeSize pp.calls (2 * b.pipeSize) with
  | none => exact ⟨true, _, _, rfl, .refused hfull hsmall hset⟩
  | some ret =>
    have hret : ¬ ret < believed b := by
      have := k.setPipeSize_le _ _ _ hset
      unfold believed
      split <;> omega
    exact ⟨false, _, _, if_neg hret, .granted ret hfull hsmall hset⟩

theorem ppbResizePipe_resized (h : ppbResizePipe k pp b = .ok (full, b', pp')) :
    Resized k pp b full b' pp' := by
  obtain ⟨_, _, _, hrun, hres⟩ := ppbResizePipe_ok k pp b
  cases hrun.symm.trans h
  exact hres

section

variable (h : Resized k pp b full b' pp')
include h

/-- A resize changes the size of the buffer and the kernel's part of the page pipe. -/
theorem Resized.frame : ∃ n calls caps,
    b' = { b with pipeSize := n } ∧ pp' = { pp with calls := calls, caps := caps } := by
  cases h with
  | room _ | limit _ _ => exact ⟨b.pipeSize, pp.calls, pp.caps, rfl, rfl⟩
  | refused _ _ _ => exact ⟨_, _, pp.caps, rfl, rfl⟩
  | granted _ _ _ _ => exact ⟨_, _, _, rfl, rfl⟩

theorem Resized.flags_eq : b'.flags = b.flags := by
  obtain ⟨n, -, -, rfl, -⟩ := h.frame
  rfl

end

theorem Resized.fits (h : Resized k pp b false b' pp')
    (hroom : b.pagesIn + b.pipeOff ≤ b.pipeSize) (hpos : 0 < b.pipeSize) :
    b'.pagesIn + b'.pipeOff < b'.pipeSize := by
  cases h with
  | room hlt => exact hlt
  | granted ret _ _ hset =>
    have := k.setPipeSize_le _ _ _ hset
    change b.pagesIn + b.pipeOff < ret
    omega

theorem Resized.size_le (h : Resized k pp b full b' pp') : b.pipeSize ≤ b'.pipeSize := by
  cases h with
  | room _ | limit _ _ => exact le_refl _
  | refused _ hmax _ =>
    change _ ≤ believed b
    unfold believed
    split <;> omega
  | granted ret _ _ hset =>
    have := k.setPipeSize_le _ _ _ hset
    change b.pipeSize ≤ ret
    omega

theorem Resized.noRoom (h : Resized k pp b true b' pp') : b.pipeSize ≤ b.pagesIn + b.pipeOff := by
  cases h with
  | limit hfull _ | refused hfull _ _ => exact hfull

theorem Resized.caps (h : Resized k pp b full b' pp') : (∀ p, p ≠ b.pipe → pp'.caps p = pp.caps p) ∧
      (Grants k → b.pipeSize ≤ pp.caps b.pipe → b'.pipeSize ≤ pp'.caps b.pipe) := by
  cases h with
  | room _ | limit _ _ => exact ⟨fun _ _ => rfl, fun _ h => h⟩
  | refused _ _ hset =>
    refine ⟨fun _ _ => rfl, fun hg hcap => ?_⟩
    unfold believed
    split
    · exact absurd hset (hg _ _ ‹_›)
    · exact hcap
  | granted ret _ _ _ => exact ⟨fun p hp => update_of_ne hp _ _, fun _ _ => by simp⟩

end Resize

def segs (iovs : ℕ → Iovec) (b : PagePipeBuf) : List Iovec :=
  (List.range b.nrSegs).map (fun i => iovs (b.iov + i))

def iovPages (iov : Iovec) : List ℕ :=
  (List.range (iov.len / pageSize)).map (fun i => iov.base + i * pageSize)

def bufPages (iovs : ℕ → Iovec) (b : PagePipeBuf) : List (ℕ × ℕ) :=
  ((segs iovs b).flatMap iovPages).map (fun a => (a, b.flags))

def pipePages (pp : PagePipe) : List (ℕ × ℕ) := pp.bufs.flatMap (bufPages pp.iovs)

/-- The buffers use up the iovecs from `s` to `e`, one after another. -/
def Tiled : ℕ → List PagePipeBuf → ℕ → Prop
  | s, [], e => s = e
  | s, b :: bs, e => b.iov = s ∧ Tiled (s + b.nrSegs) bs e

def WholePages (iov : Iovec) : Prop := 0 < iov.len ∧ pageSize ∣ iov.len

structure BufOk (iovs : ℕ → Iovec) (b : PagePipeBuf) : Prop where
  whole : ∀ s ∈ segs iovs b, WholePages s
  pages : (bufPages iovs b).length = b.pagesIn
  room : b.pagesIn + b.pipeOff ≤ b.pipeSize
  pos : 0 < b.pipeSize

/-- The page pipe holds the given pages in iovecs from `start` on. -/
structure Collected (start : ℕ) (pages : List (ℕ × ℕ)) (pp : PagePipe) : Prop where
  tiled : Tiled start pp.bufs pp.freeIov
  nonempty : pp.bufs ≠ []
  bufs : ∀ b ∈ pp.bufs, BufOk pp.iovs b
  free : ∀ b ∈ pp.freeBufs, b.pipeOff = 0 ∧ 0 < b.pipeSize
  contents : pipePages pp = pages
  used : pp.freeIov ≤ start + pages.length

theorem tiled_append {r : List PagePipeBuf} :
    ∀ {s e : ℕ}, Tiled s (l ++ r) e ↔ ∃ m, Tiled s l m ∧ Tiled m r e := by
  induction l with
  | nil => simp [Tiled]
  | cons b l ih =>
    intro s e
    simp only [cons_append, Tiled, ih]
    constructor
    · rintro ⟨hb, m, hl, hr⟩
      exact ⟨m, ⟨hb, hl⟩, hr⟩
    · rintro ⟨m, ⟨hb, hl⟩, hr⟩
      exact ⟨hb, m, hl, hr⟩

theorem tiled_le {s e : ℕ} (h : Tiled s l e) : s ≤ e := by
  induction l generalizing s with
  | nil => exact le_of_eq h
  | cons b l ih =>
    have := ih h.2
    omega

theorem segs_congr (h : ∀ i, b.iov ≤ i → i < b.iov + b.nrSegs → iovs' i = iovs i) :
    segs iovs' b = segs iovs b := by
  apply map_congr_left
  intro i hi
  exact h _ (by omega) (by have := mem_range.mp hi; omega)

/-- Later iovecs do not matter to the buffers before them. -/
theorem segs_congr_tiled {s e : ℕ} (ht : Tiled s l e) (h : ∀ i, i < e → iovs' i = iovs i) :
    ∀ b ∈ l, segs iovs' b = segs iovs b := by
  induction l generalizing s with
  | nil => simp
  | cons a l ih =>
    have hle := tiled_le ht.2
    exact forall_mem_cons.mpr ⟨segs_congr fun i _ hi => h i (by have := ht.1; omega), ih ht.2⟩

theorem bufPages_of_segs (h : segs iovs' b = segs iovs b) : bufPages iovs' b = bufPages iovs b := by
  simp [bufPages, h]

theorem bufOk_of_segs (h : segs iovs' b = segs iovs b) (hb : BufOk iovs b) : BufOk iovs' b :=
  ⟨h ▸ hb.whole, by rw [bufPages_of_segs h, hb.pages], hb.room, hb.pos⟩

theorem WholePages.page (addr : ℕ) : WholePages ⟨addr, pageSize⟩ :=
  ⟨show 0 < pageSize by decide, Nat.dvd_refl _⟩

theorem WholePages.grow (h : WholePages iov) : WholePages ⟨iov.base, iov.len + pageSize⟩ :=
  ⟨Nat.add_pos_left h.1 _, Nat.dvd_add h.2 (Nat.dvd_refl _)⟩

/-- A page put behind the end of an iovec extends it. -/
theorem iovPages_grow (hw : pageSize ∣ iov.len) :
    iovPages ⟨iov.base, iov.len + pageSize⟩ = iovPages iov ++ [iov.base + iov.len] := by
  obtain ⟨n, hn⟩ := hw
  have hpos : 0 < pageSize := by decide
  have h1 : iov.len / pageSize = n := by rw [hn, Nat.mul_div_cancel_left _ hpos]
  have h2 : (iov.len + pageSize) / pageSize = n + 1 := by
    rw [Nat.add_div_right _ hpos, h1]
  simp only [iovPages, h1, h2, range_succ, map_append, map_cons, map_nil]
  rw [hn, Nat.mul_comm n]

theorem iovPages_single (addr : ℕ) : iovPages ⟨addr, pageSize⟩ = [addr] := by
  simp [iovPages, pageSize]

/-- Nothing of what is collected depends on the sizes of the buffers, except that they do not
shrink. -/
theorem Collected.resized {full : Bool} {l₁ l₂ : List PagePipeBuf} (h : Collected start pages pp)
    (hbufs : pp.bufs = l₁ ++ b :: l₂) (hres : Resized k pp b full b' pp') :
    Collected start pages { pp' with bufs := l₁ ++ b' :: l₂ } := by
  have hsize := hres.size_le
  obtain ⟨n, calls, caps, rfl, rfl⟩ := hres.frame
  have htiled := h.tiled
  have hok := h.bufs
  have hcont := h.contents
  rw [hbufs, tiled_append] at htiled
  rw [hbufs, forall_mem_append, forall_mem_cons] at hok
  rw [pipePages, hbufs, flatMap_append] at hcont
  obtain ⟨hl₁, hb, hl₂⟩ := hok
  refine ⟨tiled_append.mpr htiled, by simp, ?_, h.free, ?_, h.used⟩
  · exact forall_mem_append.mpr ⟨hl₁, forall_mem_cons.mpr
      ⟨⟨hb.whole, hb.pages, hb.room.trans hsize, hb.pos.trans_le hsize⟩, hl₂⟩⟩
  · rw [pipePages, flatMap_append]
    exact hcont

theorem index_split (h : l[i]? = some b) :
    l = l.take i ++ b :: l.drop (i + 1) ∧ ∀ b', l.set i b' = l.take i ++ b' :: l.drop (i + 1) := by
  obtain ⟨hi, rfl⟩ := List.getElem?_eq_some_iff.mp h
  rw [← drop_eq_getElem_cons hi, take_append_drop]
  exact ⟨rfl, fun _ => set_eq_take_append_cons_drop.trans (if_pos hi)⟩

theorem Collected.resized_set {full : Bool} (h : Collected start pages pp)
    (hb : pp.bufs[i]? = some b) (hres : Resized k pp b full b' pp') :
    Collected start pages { pp' with bufs := pp'.bufs.set i b' } := by
  have hc := h.resized (index_split hb).1 hres
  rw [← (index_split hb).2] at hc
  obtain ⟨n, calls, caps, rfl, rfl⟩ := hres.frame
  exact hc

section AddPage

variable (k : PipeKernel) {init : List PagePipeBuf}

theorem segs_succ (iovs : ℕ → Iovec) {n : ℕ} (hn : b.nrSegs = n + 1) :
    segs iovs b = segs iovs { b with nrSegs := n } ++ [iovs (b.iov + n)] := by
  simp [segs, hn, range_succ]

/-- The end of an iovec array is free to be written. -/
theorem segs_update (iovs : ℕ → Iovec) (b : PagePipeBuf) (hi : b.iov + b.nrSegs ≤ i)
    (iov : Iovec) : segs (update iovs i iov) b = segs iovs b := by
  apply segs_congr
  intro j _ hj
  exact update_of_ne (by omega) _ _

/-- The collected pages after the last buffer got the page `addr` by writing the iovec at
`i`, which is the first one it did not use or the last one it used. -/
theorem collected_last (nrSegs' freeIov' : ℕ) {addr : ℕ} (hbufs : pp.bufs = init ++ [b])
    (hc : Collected start pages pp) (hroom : b.pagesIn + b.pipeOff < b.pipeSize) (hi : b.iov ≤ i)
    (hfree : b.iov + nrSegs' = freeIov') (hused : freeIov' ≤ pp.freeIov + 1)
    (hwhole : ∀ s ∈ segs (update pp.iovs i iov) { b with nrSegs := nrSegs' }, WholePages s)
    (hseg : (segs (update pp.iovs i iov) { b with nrSegs := nrSegs' }).flatMap iovPages =
    (segs pp.iovs b).flatMap iovPages ++ [addr]) :
    Collected start (pages ++ [(addr, b.flags)])
      (setLast { pp with iovs := update pp.iovs i iov, freeIov := freeIov' }
        { b with nrSegs := nrSegs', pagesIn := b.pagesIn + 1 }) := by
  have htiled := hc.tiled
  rw [hbufs, tiled_append] at htiled
  obtain ⟨m, hinit, rfl, hlast⟩ := htiled
  have hbefore : ∀ c ∈ init, segs (update pp.iovs i iov) c = segs pp.iovs c :=
    segs_congr_tiled hinit (fun j hj => update_of_ne (by omega) _ _)
  obtain ⟨hok, hb⟩ := forall_mem_append.mp (hbufs ▸ hc.bufs)
  have hb := hb b (mem_singleton_self b)
  have hnew : bufPages (update pp.iovs i iov)
      { b with nrSegs := nrSegs', pagesIn := b.pagesIn + 1 } =
      bufPages pp.iovs b ++ [(addr, b.flags)] := by
    rw [bufPages, ← map_singleton (f := fun a => (a, b.flags)), bufPages, ← map_append, ← hseg]
    rfl
  unfold setLast
  rw [hbufs, dropLast_concat]
  refine ⟨tiled_append.mpr ⟨b.iov, hinit, rfl, hfree⟩, by simp, ?_, hc.free, ?_, ?_⟩
  · refine forall_mem_append.mpr ⟨?_, forall_mem_singleton.mpr ⟨hwhole, ?_,
      (Nat.add_right_comm _ _ _).trans_le hroom, hb.pos⟩⟩
    · exact fun c hmem => bufOk_of_segs (hbefore c hmem) (hok c hmem)
    · rw [hnew, length_append, hb.pages]
      rfl
  · have hcont := hc.contents
    rw [pipePages, hbufs, flatMap_append, flatMap_singleton] at hcont
    rw [pipePages, flatMap_append, flatMap_singleton, ← hcont, append_assoc]
    refine congrArg₂ _ ?_ hnew
    exact flatMap_congr (fun c hmem => bufPages_of_segs (hbefore c hmem))
  · have := hc.used
    rw [length_append]
    simp only [length_cons]
    omega

/-- What adding a page to the last buffer `b` leaves alone. -/
structure LastFrame (pp pp' : PagePipe) (init : List PagePipeBuf) (b : PagePipeBuf) : Prop where
  bufs : ∃ b', pp'.bufs = init ++ [b'] ∧ b'.pipe = b.pipe ∧ b'.pipeOff = b.pipeOff ∧
    b'.flags = b.flags ∧ (Grants k → b.pipeSize ≤ pp.caps b.pipe → b'.pipeSize ≤ pp'.caps b.pipe)
  caps : ∀ p, p ≠ b.pipe → pp'.caps p = pp.caps p
  rest : ∃ bufs iovs freeIov calls caps, pp' = { pp with
    bufs := bufs, iovs := iovs, freeIov := freeIov, calls := calls, caps := caps }

def Grows (pp : PagePipe) (b : PagePipeBuf) (addr : ℕ) : Prop :=
  0 < b.nrSegs ∧ iovGrows (pp.iovs (b.iov + b.nrSegs - 1)) addr = true

theorem putPage_grows {addr : ℕ} (h : Grows pp b addr) : putPage pp b addr = .ok (setLast { pp with
      iovs := update pp.iovs (b.iov + b.nrSegs - 1)
        ⟨(pp.iovs (b.iov + b.nrSegs - 1)).base, (pp.iovs (b.iov + b.nrSegs - 1)).len + pageSize⟩ }
      { b with pagesIn := b.pagesIn + 1 }) :=
  if_pos h

theorem putPage_takes {addr : ℕ} (h : ¬ Grows pp b addr) (hfree : pp.freeIov < pp.nrIovs) :
    putPage pp b addr = .ok (setLast { pp with
      iovs := update pp.iovs (b.iov + b.nrSegs) ⟨addr, pageSize⟩
      freeIov := pp.freeIov + 1 }
      { b with nrSegs := b.nrSegs + 1, pagesIn := b.pagesIn + 1 }) :=
  (if_neg h).trans (if_neg (by omega))

theorem putPage_bug {addr : ℕ} (h : ¬ Grows pp b addr) (hfree : pp.nrIovs ≤ pp.freeIov) :
    putPage pp b addr = .error .bug :=
  (if_neg h).trans (if_pos (by omega))

/-- A page put into the last buffer is the last of the collected pages. -/
theorem putPage_collected {addr : ℕ} (hbufs : pp.bufs = init ++ [b]) (hc : Collected start pages pp)
    (hroom : b.pagesIn + b.pipeOff < b.pipeSize) (hput : putPage pp b addr = .ok pp') :
    Collected start (pages ++ [(addr, b.flags)]) pp' ∧ LastFrame k pp pp' init b := by
  have htiled := hc.tiled
  rw [hbufs, tiled_append] at htiled
  obtain ⟨m, -, rfl, hlast⟩ := htiled
  have hlast : b.iov + b.nrSegs = pp.freeIov := hlast
  have hb := hc.bufs b (by simp [hbufs])
  have hdrop : pp.bufs.dropLast = init := by simp [hbufs]
  by_cases hgrow : Grows pp b addr
  · obtain ⟨n, hn⟩ := Nat.exists_eq_succ_of_ne_zero (Nat.ne_of_gt hgrow.1)
    have hidx : b.iov + b.nrSegs - 1 = b.iov + n := by omega
    have haddr : (pp.iovs (b.iov + n)).base + (pp.iovs (b.iov + n)).len = addr := by
      have := hgrow.2
      rw [hidx] at this
      simpa [iovGrows] using this
    have hsegs := segs_succ pp.iovs hn
    have hsegs' : ∀ iov, segs (update pp.iovs (b.iov + n) iov) b =
        segs pp.iovs { b with nrSegs := n } ++ [iov] := by
      intro iov
      rw [segs_succ _ hn, update_self,
        segs_update pp.iovs { b with nrSegs := n } (le_refl _)]
    have hw : WholePages (pp.iovs (b.iov + n)) := hb.whole _ (by rw [hsegs]; simp)
    rw [putPage_grows hgrow] at hput
    cases hput
    refine ⟨?_, ⟨⟨{ b with pagesIn := b.pagesIn + 1 }, by simp only [setLast, hdrop],
      rfl, rfl, rfl, fun _ h => h⟩, fun _ _ => rfl, _, _, _, _, _, rfl⟩⟩
    rw [hidx]
    refine collected_last b.nrSegs pp.freeIov hbufs hc hroom (by omega) hlast (by omega) ?_ ?_
    · rw [hsegs', forall_mem_append, forall_mem_singleton]
      exact ⟨fun s hs => hb.whole s (by rw [hsegs]; exact mem_append_left _ hs), hw.grow⟩
    · rw [hsegs', hsegs, flatMap_append, flatMap_append, flatMap_singleton,
        flatMap_singleton, iovPages_grow hw.2, haddr, append_assoc]
  · have hfree : pp.freeIov < pp.nrIovs := by
      by_contra hno
      rw [putPage_bug hgrow (Nat.le_of_not_lt hno)] at hput
      exact nomatch hput
    rw [putPage_takes hgrow hfree] at hput
    cases hput
    refine ⟨?_, ⟨⟨{ b with nrSegs := b.nrSegs + 1, pagesIn := b.pagesIn + 1 },
      by simp only [setLast, hdrop], rfl, rfl, rfl, fun _ h => h⟩, fun _ _ => rfl,
      _, _, _, _, _, rfl⟩⟩
    have hsegs' : ∀ iov, segs (update pp.iovs (b.iov + b.nrSegs) iov)
        { b with nrSegs := b.nrSegs + 1 } = segs pp.iovs b ++ [iov] := by
      intro iov
      rw [segs_succ _ rfl, update_self, segs_update pp.iovs b (le_refl _)]
    refine collected_last (b.nrSegs + 1) (pp.freeIov + 1) hbufs hc hroom (by omega) (by omega)
      (le_refl _) ?_ ?_
    · rw [hsegs', forall_mem_append, forall_mem_singleton]
      exact ⟨hb.whole, .page addr⟩
    · rw [hsegs', flatMap_append, flatMap_singleton, iovPages_single]

theorem putPage_ok (addr : ℕ) (hbufs : pp.bufs = init ++ [b]) (hc : Collected start pages pp)
    (hroom : b.pagesIn + b.pipeOff < b.pipeSize)
    (hiovs : pp.freeIov < pp.nrIovs ∨ putPage pp b addr ≠ .error .bug) :
    ∃ pp', putPage pp b addr = .ok pp' ∧ Collected start (pages ++ [(addr, b.flags)]) pp' ∧
      LastFrame k pp pp' init b := by
  obtain ⟨pp', hput⟩ : ∃ pp', putPage pp b addr = .ok pp' := by
    by_cases hgrow : Grows pp b addr
    · exact ⟨_, putPage_grows hgrow⟩
    · refine ⟨_, putPage_takes hgrow (Nat.lt_of_not_le fun hfree => ?_)⟩
      exact hiovs.elim (Nat.not_lt.mpr hfree) fun h => h (putPage_bug hgrow hfree)
  exact ⟨pp', hput, putPage_collected k hbufs hc hroom hput⟩

/-- What `try_add_page` does: the page is in the last buffer, or that buffer has other flags
or no room and nothing but believed sizes changed. -/
theorem tryAddPage_ok (addr flags : ℕ) (hbufs : pp.bufs = init ++ [b])
    (hc : Collected start pages pp)
    (hiovs : pp.freeIov < pp.nrIovs ∨ tryAddPage k pp addr flags ≠ .error .bug) :
    ∃ full pp', tryAddPage k pp addr flags = .ok (full, pp') ∧ LastFrame k pp pp' init b ∧
      Collected start (if full then pages else pages ++ [(addr, flags)]) pp' ∧
      (b.flags = flags → b.pagesIn + b.pipeOff < b.pipeSize → full = false) := by
  have hb := hc.bufs b (by simp [hbufs])
  have hlast : pp.bufs.getLast? = some b := by simp [hbufs]
  have hdrop : init = pp.bufs.dropLast := by simp [hbufs]
  unfold tryAddPage at hiovs ⊢
  simp only [hlast] at hiovs ⊢
  by_cases hflags : b.flags = flags
  · obtain ⟨full, b', pp1, hrun, hres⟩ := ppbResizePipe_ok k pp b
    obtain ⟨hcaps, hcap⟩ := hres.caps
    have hc' := hc.resized hbufs hres
    rw [if_neg (not_not.mpr hflags), hrun] at hiovs ⊢
    cases full with
    | true =>
      have hfull := hres.noRoom
      obtain ⟨n, calls, caps, rfl, rfl⟩ := hres.frame
      rw [hdrop] at hc' ⊢
      exact ⟨true, _, rfl, ⟨⟨{ b with pipeSize := n }, rfl, rfl, rfl, rfl, hcap⟩, hcaps,
        _, _, _, _, _, rfl⟩, hc', fun _ hfit => absurd hfit (Nat.not_lt.mpr hfull)⟩
    | false =>
      have hfits := hres.fits hb.room hb.pos
      obtain ⟨n, calls, caps, rfl, rfl⟩ := hres.frame
      have heq : putPage { pp with calls := calls, caps := caps } { b with pipeSize := n } addr =
          putPage { pp with
            calls := calls, caps := caps, bufs := init ++ [{ b with pipeSize := n }] }
            { b with pipeSize := n } addr := by
        simp [putPage, setLast, hbufs]
      simp only [heq] at hiovs ⊢
      obtain ⟨pp', hput, hcol, ⟨b', hbufs', hpipe, hoff, hfl, hsize⟩, hcaps', hrest⟩ :=
        putPage_ok k addr rfl hc' hfits (hiovs.imp_right fun h hbug => h (by rw [hbug]))
      obtain ⟨_, _, _, _, _, rfl⟩ := hrest
      simp only [hput]
      exact ⟨false, _, rfl, ⟨⟨b', hbufs', hpipe, hoff, hfl, fun hg hle => hsize hg (hcap hg hle)⟩,
        fun p hp => (hcaps' p hp).trans (hcaps p hp), _, _, _, _, _, rfl⟩, hflags ▸ hcol,
        fun _ _ => rfl⟩
  · rw [if_pos hflags]
    exact ⟨true, pp, rfl, ⟨⟨b, hbufs, rfl, rfl, rfl, fun _ h => h⟩, fun _ _ => rfl,
      _, _, _, _, _, rfl⟩, hc, fun h => absurd h hflags⟩

theorem Collected.append_empty (h : Collected start pages pp)
    (hbufs : pp'.bufs = pp.bufs ++ [nb]) (hiovs : pp'.iovs = pp.iovs)
    (hfree : pp'.freeIov = pp.freeIov) (hfreeBufs : ∀ b ∈ pp'.freeBufs, b ∈ pp.freeBufs)
    (hsegs : nb.nrSegs = 0) (hpages : nb.pagesIn = 0) (hiov : nb.iov = pp.freeIov)
    (hroom : nb.pipeOff < nb.pipeSize) : Collected start pages pp' := by
  have hempty : segs pp.iovs nb = [] := by simp [segs, hsegs]
  have hnone : bufPages pp.iovs nb = [] := by simp [bufPages, hempty]
  refine ⟨?_, by simp [hbufs], ?_, fun b hb => h.free b (hfreeBufs b hb), ?_, hfree ▸ h.used⟩
  · rw [hbufs, tiled_append, hfree]
    exact ⟨pp.freeIov, h.tiled, hiov, by simp [Tiled, hsegs]⟩
  · rw [hbufs, hiovs, forall_mem_append, forall_mem_singleton]
    exact ⟨h.bufs, by simp [hempty], by simp [hnone, hpages], by omega, by omega⟩
  · rw [pipePages, hbufs, hiovs, flatMap_append, flatMap_singleton, hnone,
      append_nil]
    exact h.contents

end AddPage

def keys (pp : PagePipe) : List (ℕ × ℕ) := pp.bufs.map (fun b => (b.pipe, b.flags))

theorem map_set_same {α : Type*} {f : PagePipeBuf → α} (hb : l[i]? = some b) (hf : f b' = f b) :
    (l.set i b').map f = l.map f := by
  rw [(index_split hb).2, map_append, map_cons, hf, ← map_cons, ← map_append, ← (index_split hb).1]

section Shared

variable {lazyPages : Bool}

section Typed

variable {nrPipes : ℕ} {prev : Bool → Option ℕ} {ks ks' : List (ℕ × ℕ)}

/-- The types of the pipes: the buffers of a pipe are of one type, and `prev` is the last buffer of
a type. -/
structure Typed (lazyPages : Bool) (nrPipes : ℕ) (prev : Bool → Option ℕ)
    (ks : List (ℕ × ℕ)) : Prop where
  lt : ∀ x ∈ ks, x.1 < nrPipes
  types : ∀ x ∈ ks, ∀ y ∈ ks, x.1 = y.1 → ppbType lazyPages x.2 = ppbType lazyPages y.2
  last : ∀ t i, prev t = some i → ∃ x, ks[i]? = some x ∧ ppbType lazyPages x.2 = t ∧
    ∀ y ∈ ks.drop (i + 1), ppbType lazyPages y.2 ≠ t
  known : ∀ x ∈ ks, prev (ppbType lazyPages x.2) ≠ none

/-- A further buffer that is the last of its type, in a new pipe or in one of its type. -/
theorem Typed.append {nrPipes' : ℕ} {x : ℕ × ℕ} {n : ℕ} (h : Typed lazyPages nrPipes prev ks)
    (hpipe : (x.1 = nrPipes ∧ nrPipes' = nrPipes + 1) ∨
      (nrPipes' = nrPipes ∧ ∃ y ∈ ks, y.1 = x.1 ∧ ppbType lazyPages y.2 = ppbType lazyPages x.2))
    (hks : ks' = ks ++ [x]) (hn : ks.length = n) :
    Typed lazyPages nrPipes' (update prev (ppbType lazyPages x.2) (some n)) ks' := by
  subst hks hn
  have hold : ∀ y ∈ ks, y.1 = x.1 → ppbType lazyPages y.2 = ppbType lazyPages x.2 := by
    intro y hy hyx
    rcases hpipe with ⟨hnew, -⟩ | ⟨-, z, hz, hzx, hzt⟩
    · have := h.lt y hy
      omega
    · exact (h.types y hy z hz (hyx.trans hzx.symm)).trans hzt
  refine ⟨?_, ?_, ?_, ?_⟩
  · refine forall_mem_append.mpr ⟨fun y hy => ?_, forall_mem_singleton.mpr ?_⟩
    · have := h.lt y hy
      omega
    · rcases hpipe with ⟨hnew, hn⟩ | ⟨hn, y, hy, hyx, -⟩
      · omega
      · have := h.lt y hy
        omega
  · simp only [forall_mem_append, forall_mem_singleton]
    exact ⟨fun y hy => ⟨h.types y hy, hold y hy⟩, fun z hz hxz => (hold z hz hxz.symm).symm,
      fun _ => trivial⟩
  · intro t i hi
    by_cases ht : t = ppbType lazyPages x.2
    · rw [ht, update_self, Option.some.injEq] at hi
      refine ⟨x, by rw [← hi, getElem?_concat_length], ht.symm, ?_⟩
      rw [← hi, drop_eq_nil_of_le (by simp)]
      exact nofun
    rw [update_of_ne ht] at hi
    obtain ⟨y, hy, hyt, hlater⟩ := h.last t i hi
    have hlt := (List.getElem?_eq_some_iff.mp hy).1
    refine ⟨y, by rw [getElem?_append_left hlt, hy], hyt, ?_⟩
    rw [drop_append_of_le_length (by omega)]
    refine forall_mem_append.mpr ⟨hlater, forall_mem_singleton.mpr ?_⟩
    exact fun heq => ht heq.symm
  · have hx : update prev (ppbType lazyPages x.2) (some ks.length) (ppbType lazyPages x.2) ≠
        none := by
      simp
    refine forall_mem_append.mpr ⟨fun y hy => ?_, forall_mem_singleton.mpr hx⟩
    by_cases ht : ppbType lazyPages y.2 = ppbType lazyPages x.2
    · rw [ht]
      exact hx
    · rw [update_of_ne ht]
      exact h.known y hy

theorem Typed.of_keys
    (h : Typed lazyPages nrPipes prev ks) (heq : ks' = ks) : Typed lazyPages nrPipes prev ks' :=
  heq ▸ h

end Typed

/-- Outside chunk mode buffers may share a pipe, but only if they are of one type. -/
structure Sharing (lazyPages : Bool) (pp : PagePipe) : Prop where
  plain : pp.chunkMode = false
  noFree : pp.freeBufs = []
  typed : Typed lazyPages pp.nrPipes pp.prev (keys pp)

theorem LastFrame.sharing {init : List PagePipeBuf} (hf : LastFrame k pp pp' init b)
    (hbufs : pp.bufs = init ++ [b]) (h : Sharing lazyPages pp) : Sharing lazyPages pp' := by
  obtain ⟨⟨b', hbufs', hpipe, -, hflags, -⟩, -, _, _, _, _, _, rfl⟩ := hf
  refine ⟨h.plain, h.noFree, h.typed.of_keys ?_⟩
  simp only at hbufs'
  simp [keys, hbufs, hbufs', hpipe, hflags]

theorem allocPipe_shared (k : PipeKernel) (hs : Sharing lazyPages pp)
    (hc : Collected start pages pp) (flags : ℕ) :
    let alloc := ppbAllocPipe k lazyPages pp flags
    let nb := ppbInit alloc.1 flags alloc.2.freeIov
    let pp' : PagePipe := { alloc.2 with bufs := alloc.2.bufs ++ [nb] }
    Collected start pages pp' ∧ Sharing lazyPages pp' ∧ nb.pagesIn + nb.pipeOff < nb.pipeSize := by
  refine ⟨?_, ⟨hs.plain, hs.noFree, ?_⟩, k.newPipe_pos _⟩
  · exact hc.append_empty rfl rfl rfl (fun _ hb => hb) rfl rfl rfl (k.newPipe_pos _)
  · exact hs.typed.append (x := (pp.nrPipes, flags)) (.inl ⟨rfl, rfl⟩) map_append (length_map _)

/-- Outside chunk mode the page pipe can always grow. -/
theorem grow_shared (k : PipeKernel) (hs : Sharing lazyPages pp) (hc : Collected start pages pp)
    (flags : ℕ) :
    ∃ pp' init nb, pagePipeGrow k lazyPages pp flags = .ok (false, pp') ∧
      pp'.bufs = init ++ [nb] ∧ nb.flags = flags ∧ nb.pagesIn + nb.pipeOff < nb.pipeSize ∧
      Collected start pages pp' ∧ Sharing lazyPages pp' ∧ pp'.nrIovs = pp.nrIovs ∧
      pp'.holes = pp.holes := by
  have hisEmpty : pp.bufs.isEmpty = false := by simpa using hc.nonempty
  simp only [pagePipeGrow, hs.noFree, hs.plain, Bool.false_eq_true, if_false,
    ppbAlloc, ppPrevPpb, hisEmpty]
  cases hprev : pp.prev (ppbType lazyPages flags) with
  | none =>
    obtain ⟨hc', hs', hroom⟩ := allocPipe_shared k hs hc flags
    exact ⟨_, _, _, rfl, rfl, rfl, hroom, hc', hs', rfl, rfl⟩
  | some i =>
    obtain ⟨x, hx, hxt, -⟩ := hs.typed.last _ i hprev
    obtain ⟨b, hb, rfl⟩ : ∃ b, pp.bufs[i]? = some b ∧ (b.pipe, b.flags) = x := by
      simpa [keys] using hx
    have hbok := hc.bufs b (mem_of_getElem? hb)
    obtain ⟨full, b', pp', hrun, hres⟩ := ppbResizePipe_ok k pp b
    have hc1 := hc.resized_set hb hres
    obtain ⟨n, calls, caps, rfl, rfl⟩ := hres.frame
    have hkeys : keys { pp with bufs := pp.bufs.set i { b with pipeSize := n } } = keys pp :=
      map_set_same hb rfl
    have hs1 : Sharing lazyPages { pp with
        calls := calls, caps := caps, bufs := pp.bufs.set i { b with pipeSize := n } } :=
      ⟨hs.plain, hs.noFree, hs.typed.of_keys hkeys⟩
    simp only [hb, hrun]
    cases full with
    | true =>
      obtain ⟨hc', hs', hroom'⟩ := allocPipe_shared k hs1 hc1 flags
      exact ⟨_, _, _, rfl, rfl, rfl, hroom', hc', hs', rfl, rfl⟩
    | false =>
      have hfit := hres.fits hbok.room hbok.pos
      refine ⟨_, _, _, rfl, rfl, rfl, by simpa [ppbInit] using hfit, ?_, ?_, rfl, rfl⟩
      · exact hc1.append_empty rfl rfl rfl (fun _ h => h) rfl rfl rfl hfit
      · exact ⟨hs.plain, hs.noFree, hs1.typed.append (x := (b.pipe, flags))
          (.inr ⟨rfl, (b.pipe, b.flags), hkeys.symm ▸ mem_of_getElem? hx, rfl, hxt⟩)
          map_append (length_map _)⟩

/-- Outside chunk mode adding a page succeeds while there are iovecs. -/
theorem addPage_shared (k : PipeKernel) (hs : Sharing lazyPages pp) (hc : Collected start pages pp)
    (addr flags : ℕ) (hiovs : start + pages.length < pp.nrIovs ∨
      pagePipeAddPage k lazyPages pp addr flags ≠ .error .bug) :
    ∃ pp', pagePipeAddPage k lazyPages pp addr flags = .ok (false, pp') ∧
      Collected start (pages ++ [(addr, flags)]) pp' ∧ Sharing lazyPages pp' ∧
      pp'.nrIovs = pp.nrIovs ∧ pp'.holes = pp.holes := by
  have hbufs := (dropLast_append_getLast hc.nonempty).symm
  obtain ⟨full, pp1, hrun1, hframe1, hc1, -⟩ := tryAddPage_ok k addr flags hbufs hc
    (hiovs.imp hc.used.trans_lt fun h hbug => h (by simp only [pagePipeAddPage, hbug]))
  have hs1 := hframe1.sharing hbufs hs
  obtain ⟨_, _, _, _, _, rfl⟩ := hframe1.rest
  simp only [pagePipeAddPage, hrun1] at hiovs ⊢
  cases full with
  | false => exact ⟨_, rfl, hc1, hs1, rfl, rfl⟩
  | true =>
    obtain ⟨pp2, init, nb, hrun2, hbufs2, hflags, hroom, hc2, hs2, hn2, hh2⟩ :=
      grow_shared k hs1 hc1 flags
    obtain ⟨full, pp3, hrun3, hframe3, hc3, hfit⟩ := tryAddPage_ok k addr flags hbufs2 hc2
      (hiovs.imp (fun h => hc2.used.trans_lt (hn2 ▸ h))
        fun h hbug => h (by simp only [hrun2, hbug]))
    have hs3 := hframe3.sharing hbufs2 hs2
    obtain ⟨_, _, _, _, _, rfl⟩ := hframe3.rest
    obtain rfl := hfit hflags hroom
    simp only [hrun2, hrun3]
    exact ⟨_, rfl, hc3, hs3, hn2, hh2⟩

end Shared

def firstBuf (k : PipeKernel) : PagePipeBuf := ⟨0, k.newPipe 0, 0, 0, 0, 0, 0⟩

def freshPipe (k : PipeKernel) (lazyPages : Bool) (nrSegs : ℕ) (iovs : ℕ → Iovec)
    (chunkMode : Bool) : PagePipe :=
  ⟨chunkMode, nrSegs, 1, [firstBuf k], [],
    update (fun _ => none) (ppbType lazyPages 0) (some 0), 0, iovs, [], 1,
    update (fun _ => 0) 0 (k.newPipe 0)⟩

section Create

variable (k : PipeKernel) (lazyPages : Bool) (nrSegs : ℕ) (iovs : ℕ → Iovec)

theorem createPagePipe_eq (chunkMode : Bool) : createPagePipe k lazyPages nrSegs iovs chunkMode =
      .ok (freshPipe k lazyPages nrSegs iovs chunkMode) := by
  cases chunkMode <;> rfl

theorem freshPipe_collected (chunkMode : Bool) :
    Collected 0 [] (freshPipe k lazyPages nrSegs iovs chunkMode) := by
  refine ⟨⟨rfl, rfl⟩, cons_ne_nil _ _, ?_, ?_, rfl, Nat.zero_le _⟩
  · intro b hb
    rw [mem_singleton.mp hb]
    exact ⟨by simp [segs, firstBuf], by simp [bufPages, segs, firstBuf], Nat.zero_le _,
      k.newPipe_pos 0⟩
  · intro b hb
    simp [freshPipe] at hb

theorem freshPipe_typed (chunkMode : Bool) :
    Typed lazyPages 1 (freshPipe k lazyPages nrSegs iovs chunkMode).prev [(0, 0)] := by
  have hnil : Typed lazyPages 0 (fun _ => none) [] :=
    ⟨nofun, nofun, nofun, nofun⟩
  exact hnil.append (x := (0, 0)) (.inl ⟨rfl, rfl⟩) rfl rfl

theorem freshPipe_sharing : Sharing lazyPages (freshPipe k lazyPages nrSegs iovs false) :=
  ⟨rfl, rfl, freshPipe_typed ..⟩

end Create

def holePages (holes : List (Iovec × ℕ)) : List (ℕ × ℕ) :=
  holes.flatMap (fun h => (iovPages h.1).map (fun a => (a, h.2)))

def Merged (holes : List (Iovec × ℕ)) : Prop :=
  holes.IsChain (fun x y => x.1.base + x.1.len = y.1.base → x.2 ≠ y.2)

structure HoleAdded (addr flags : ℕ) (holes holes' : List (Iovec × ℕ)) : Prop where
  whole : ∀ h ∈ holes', WholePages h.1
  pages : holePages holes' = holePages holes ++ [(addr, flags)]
  merged : Merged holes → Merged holes'

theorem holeAdded_new {addr flags : ℕ} {holes : List (Iovec × ℕ)} (hw : ∀ h ∈ holes, WholePages h.1)
    (hlast : ∀ x ∈ holes.getLast?, ¬(x.2 = flags ∧ iovGrows x.1 addr = true)) :
    HoleAdded addr flags holes (holes ++ [(⟨addr, pageSize⟩, flags)]) := by
  refine ⟨forall_mem_append.mpr ⟨hw, forall_mem_singleton.mpr (.page addr)⟩, ?_, ?_⟩
  · simp [holePages, iovPages_single]
  · intro hm
    refine hm.append (.singleton _) ?_
    intro x hx y hy heq hflags
    cases hy
    exact hlast x hx ⟨hflags, by simpa [iovGrows] using heq⟩

theorem holeAdded_grow {addr flags : ℕ} {init : List (Iovec × ℕ)}
    (hw : ∀ h ∈ init ++ [(iov, flags)], WholePages h.1) (haddr : iov.base + iov.len = addr) :
    HoleAdded addr flags (init ++ [(iov, flags)])
      (init ++ [(⟨iov.base, iov.len + pageSize⟩, flags)]) := by
  rw [forall_mem_append, forall_mem_singleton] at hw
  obtain ⟨hinit, hwl⟩ := hw
  refine ⟨forall_mem_append.mpr ⟨hinit, forall_mem_singleton.mpr hwl.grow⟩, ?_, ?_⟩
  · simp [holePages, iovPages_grow hwl.2, haddr]
  · intro hm
    rw [Merged, isChain_append] at hm ⊢
    refine ⟨hm.1, .singleton _, ?_⟩
    intro x hx y hy
    cases hy
    exact hm.2.2 x hx (iov, flags) rfl

/-- Adding a hole touches the holes only, and adds its page to them. -/
theorem pagePipeAddHole_ok (pp : PagePipe) (addr flags : ℕ) (hw : ∀ h ∈ pp.holes, WholePages h.1) :
    ∃ holes, pagePipeAddHole pp addr flags = { pp with holes := holes } ∧
      HoleAdded addr flags pp.holes holes := by
  unfold pagePipeAddHole
  cases hlast : pp.holes.getLast? with
  | none => exact ⟨_, rfl, holeAdded_new hw (by simp [hlast])⟩
  | some last =>
    obtain ⟨iov, flags'⟩ := last
    simp only
    by_cases hgrow : flags' = flags ∧ iovGrows iov addr = true
    · obtain ⟨init, hinit⟩ : ∃ init, pp.holes = init ++ [(iov, flags')] :=
        getLast?_eq_some_iff.mp hlast
      obtain ⟨rfl, haddr⟩ := hgrow
      rw [if_pos ⟨rfl, haddr⟩]
      refine ⟨_, rfl, ?_⟩
      rw [hinit, dropLast_concat]
      exact holeAdded_grow (hinit ▸ hw) (by simpa [iovGrows] using haddr)
    · rw [if_neg hgrow]
      refine ⟨_, rfl, holeAdded_new hw ?_⟩
      rw [hlast]
      rintro x hx
      cases hx
      exact hgrow

/-- A call of `page_pipe_add_page` or `page_pipe_add_hole`. -/
inductive AddCall where
  | page (addr flags : ℕ)
  | hole (addr flags : ℕ)
deriving DecidableEq, Repr

variable {calls : List AddCall}

namespace AddCall

def addr : AddCall → ℕ
  | page addr _ => addr
  | hole addr _ => addr

def flags : AddCall → ℕ
  | page _ flags => flags
  | hole _ flags => flags

def isPage : AddCall → Bool
  | page _ _ => true
  | hole _ _ => false

end AddCall

def pagesOf (calls : List AddCall) : List (ℕ × ℕ) :=
  (calls.filter (fun c => c.isPage)).map (fun c => (c.addr, c.flags))

def holesOf (calls : List AddCall) : List (ℕ × ℕ) :=
  (calls.filter (fun c => !c.isPage)).map (fun c => (c.addr, c.flags))

theorem mem_pagesOf : (a, f) ∈ pagesOf calls ↔ .page a f ∈ calls := by
  induction calls with
  | nil => simp [pagesOf]
  | cons c calls ih => cases c <;> simp_all [pagesOf, AddCall.isPage, AddCall.addr, AddCall.flags]

theorem mem_holesOf : (a, f) ∈ holesOf calls ↔ .hole a f ∈ calls := by
  induction calls with
  | nil => simp [holesOf]
  | cons c calls ih => cases c <;> simp_all [holesOf, AddCall.isPage, AddCall.addr, AddCall.flags]

def addAll (k : PipeKernel) (lazyPages : Bool) : List AddCall → PagePipe → Except Fault PagePipe
  | [], pp => .ok pp
  | .page addr flags :: calls, pp =>
      match pagePipeAddPage k lazyPages pp addr flags with
      | .error f => .error f
      | .ok (true, _) => .error .err
      | .ok (false, pp') => addAll k lazyPages calls pp'
  | .hole addr flags :: calls, pp => addAll k lazyPages calls (pagePipeAddHole pp addr flags)

/-- Outside chunk mode every sequence of calls for which the iovecs suffice is collected. -/
theorem addAll_ok (k : PipeKernel) {lazyPages : Bool} (calls : List AddCall)
    (hc : Collected 0 pages pp) (hs : Sharing lazyPages pp)
    (hw : ∀ h ∈ pp.holes, WholePages h.1)
    (hiovs : pages.length + (pagesOf calls).length ≤ pp.nrIovs ∨
      addAll k lazyPages calls pp ≠ .error .bug) :
    ∃ pp', addAll k lazyPages calls pp = .ok pp' ∧ Collected 0 (pages ++ pagesOf calls) pp' ∧
      Sharing lazyPages pp' ∧ (∀ h ∈ pp'.holes, WholePages h.1) ∧
      holePages pp'.holes = holePages pp.holes ++ holesOf calls ∧
      (Merged pp.holes → Merged pp'.holes) := by
  induction calls generalizing pages pp with
  | nil => exact ⟨pp, rfl, by simpa [pagesOf] using hc, hs, hw, by simp [holesOf], id⟩
  | cons c calls ih =>
    cases c with
    | page addr flags =>
      have hpages : pagesOf (.page addr flags :: calls) = (addr, flags) :: pagesOf calls := rfl
      have hholes : holesOf (.page addr flags :: calls) = holesOf calls := rfl
      rw [hpages, length_cons] at hiovs
      obtain ⟨pp1, hrun1, hc1, hs1, hn1, hh1⟩ := addPage_shared k hs hc addr flags
        (hiovs.imp (fun h => by omega) fun h hbug => h (by simp only [addAll, hbug]))
      simp only [addAll, hrun1] at hiovs
      obtain ⟨pp2, hrun2, hc2, hs2, hw2, hh2, hm2⟩ := ih hc1 hs1 (hh1 ▸ hw)
        (hiovs.imp_left fun h => by
          rw [length_append]
          simp only [length_cons, length_nil]
          omega)
      refine ⟨pp2, by simp only [addAll, hrun1, hrun2], ?_, hs2, hw2, ?_, hh1 ▸ hm2⟩
      · rwa [append_assoc] at hc2
      · rw [hh2, hh1, hholes]
    | hole addr flags =>
      have hpages : pagesOf (.hole addr flags :: calls) = pagesOf calls := rfl
      obtain ⟨holes, heq, hadded⟩ := pagePipeAddHole_ok pp addr flags hw
      have hc1 : Collected 0 pages { pp with holes := holes } := { hc with }
      have hs1 : Sharing lazyPages { pp with holes := holes } := { hs with }
      obtain ⟨pp2, hrun2, hc2, hs2, hw2, hh2, hm2⟩ := ih hc1 hs1 hadded.whole
        (hiovs.imp_right fun h => by rwa [addAll, heq] at h)
      refine ⟨pp2, by rw [addAll, heq, hrun2], hpages ▸ hc2, hs2, hw2, ?_,
        fun hm => hm2 (hadded.merged hm)⟩
      rw [hh2, hadded.pages, append_assoc]
      rfl

end Criu.PipeContents

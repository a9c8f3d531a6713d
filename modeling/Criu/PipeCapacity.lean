import Mathlib.Data.Nat.Log
import Criu.Lib.Run
import Criu.PipeContents

/-!
Pipe capacities of a page pipe (criu/page-pipe.c). Buffers of one type stand one behind another in
a pipe, each starting where the pages of those before it end, and each remembers a size of the
pipe. Before it asks the kernel for a pipe of more than PIPE_MAX_SIZE pages a buffer takes its pipe
to have PIPE_MAX_SIZE pages; it then asks for twice the old size. So a refusal leaves it with more
than the pipe has, and a success with more than PIPE_MAX_SIZE.
-/

namespace Criu.PipeCapacity

open Pagemap ReadCursor PageIo PipeBuffers PipeContents List

variable {k : PipeKernel} {lazyPages full : Bool} {pp pp' : PagePipe} {b b' : PagePipeBuf}
  {addr flags : ℕ} {P : PagePipe → Prop}

section Inversion

inductive Turned (k : PipeKernel) (flags : ℕ) (pp : PagePipe) : PagePipe → Prop
  | other {b : PagePipeBuf} : pp.bufs.getLast? = some b → b.flags ≠ flags → Turned k flags pp pp
  | full {b b' : PagePipeBuf} {pp' : PagePipe} : pp.bufs.getLast? = some b → b.flags = flags →
      Resized k pp b true b' pp' → Turned k flags pp (setLast pp' b')

inductive Took (k : PipeKernel) (addr flags : ℕ) (pp : PagePipe) : PagePipe → Prop
  | put {b b' : PagePipeBuf} {pp' pp'' : PagePipe} : pp.bufs.getLast? = some b →
      b.flags = flags → Resized k pp b false b' pp' → putPage pp' b' addr = .ok pp'' →
      Took k addr flags pp pp''

theorem tryAddPage_outcome (h : tryAddPage k pp addr flags = .ok (full, pp')) :
    cond full (Turned k flags pp pp') (Took k addr flags pp pp') := by
  unfold tryAddPage at h
  split at h
  · exact nomatch h
  rename_i b hlast
  split at h
  · rename_i hflags
    cases h
    exact .other hlast hflags
  rename_i hflags
  split at h
  · exact nomatch h
  · rename_i b' pp1 hres
    cases h
    exact .full hlast (not_not.mp hflags) (ppbResizePipe_resized hres)
  rename_i b' pp1 hres
  split at h
  · exact nomatch h
  · rename_i pp2 hput
    cases h
    exact .put hlast (not_not.mp hflags) (ppbResizePipe_resized hres) hput

def newBuf (pp : PagePipe) (pipe size off flags : ℕ) : PagePipeBuf :=
  ⟨pipe, size, off, 0, 0, flags, pp.freeIov⟩

def withBuf (lazyPages : Bool) (pp : PagePipe) (nb : PagePipeBuf) : PagePipe :=
  { pp with
    bufs := pp.bufs ++ [nb]
    prev := Function.update pp.prev (ppbType lazyPages nb.flags) (some pp.bufs.length) }

def withPipe (k : PipeKernel) (pp : PagePipe) : PagePipe :=
  { pp with
    nrPipes := pp.nrPipes + 1
    calls := pp.calls + 1
    caps := Function.update pp.caps pp.nrPipes (k.newPipe pp.calls) }

def withPipeBuf (k : PipeKernel) (lazyPages : Bool) (pp : PagePipe) (flags : ℕ) : PagePipe :=
  withBuf lazyPages (withPipe k pp) (newBuf pp pp.nrPipes (k.newPipe pp.calls) 0 flags)

/-- The outcomes of `page_pipe_grow`. -/
inductive Grown (k : PipeKernel) (lazyPages : Bool) (flags : ℕ) (pp : PagePipe) :
    Bool → PagePipe → Prop
  | reuse {ppb : PagePipeBuf} {rest : List PagePipeBuf} : pp.freeBufs = ppb :: rest →
      Grown k lazyPages flags pp false
        { pp with bufs := pp.bufs ++ [ppbInit ppb flags pp.freeIov], freeBufs := rest }
  | again : pp.freeBufs = [] → pp.chunkMode = true → pp.nrPipes = nrPipesPerChunk →
      Grown k lazyPages flags pp true pp
  | pipe : pp.freeBufs = [] → ppPrevPpb lazyPages pp flags = none →
      Grown k lazyPages flags pp false (withPipeBuf k lazyPages pp flags)
  | full {i : ℕ} {b b' : PagePipeBuf} {pp' : PagePipe} : pp.freeBufs = [] →
      ppPrevPpb lazyPages pp flags = some i → pp.bufs[i]? = some b → Resized k pp b true b' pp' →
      Grown k lazyPages flags pp false
        (withPipeBuf k lazyPages { pp' with bufs := pp'.bufs.set i b' } flags)
  | share {i : ℕ} {b b' : PagePipeBuf} {pp' : PagePipe} : pp.freeBufs = [] →
      ppPrevPpb lazyPages pp flags = some i → pp.bufs[i]? = some b → Resized k pp b false b' pp' →
      Grown k lazyPages flags pp false
        (withBuf lazyPages { pp' with bufs := pp'.bufs.set i b' }
          (newBuf pp' b'.pipe b'.pipeSize (b'.pagesIn + b'.pipeOff) flags))

theorem pagePipeGrow_grown (h : pagePipeGrow k lazyPages pp flags = .ok (full, pp')) :
    Grown k lazyPages flags pp full pp' := by
  unfold pagePipeGrow at h
  split at h
  · rename_i ppb rest hfree
    cases h
    exact .reuse hfree
  rename_i hfree
  split at h
  · rename_i hchunk
    cases h
    rw [Bool.and_eq_true, beq_iff_eq] at hchunk
    exact .again hfree hchunk.1 hchunk.2
  split at h
  · exact nomatch h
  rename_i ppb pp1 halloc
  cases h
  unfold ppbAlloc at halloc
  split at halloc
  · rename_i hprev
    cases halloc
    exact .pipe hfree hprev
  rename_i i hprev
  split at halloc
  · exact nomatch halloc
  rename_i b hb
  split at halloc
  · exact nomatch halloc
  rename_i full b' pp2 hres
  have hres := ppbResizePipe_resized hres
  cases full with
  | true =>
    cases halloc
    exact .full hfree hprev hb hres
  | false =>
    cases halloc
    exact .share hfree hprev hb hres

/-- The outcomes of `page_pipe_add_page`; the flag is the return value -EAGAIN. -/
inductive Added (k : PipeKernel) (lazyPages : Bool) (addr flags : ℕ) (pp : PagePipe) :
    Bool → PagePipe → Prop
  | last {pp' : PagePipe} : Took k addr flags pp pp' → Added k lazyPages addr flags pp false pp'
  | again {pp1 pp' : PagePipe} : Turned k flags pp pp1 → Grown k lazyPages flags pp1 true pp' →
      Added k lazyPages addr flags pp true pp'
  | next {pp1 pp2 pp' : PagePipe} : Turned k flags pp pp1 →
      Grown k lazyPages flags pp1 false pp2 → Took k addr flags pp2 pp' →
      Added k lazyPages addr flags pp false pp'

theorem pagePipeAddPage_added (h : pagePipeAddPage k lazyPages pp addr flags = .ok (full, pp')) :
    Added k lazyPages addr flags pp full pp' := by
  unfold pagePipeAddPage at h
  split at h
  · exact nomatch h
  · rename_i pp1 htry
    cases h
    exact .last (tryAddPage_outcome htry)
  rename_i pp1 htry
  split at h
  · exact nomatch h
  · rename_i pp2 hgrow
    cases h
    exact .again (tryAddPage_outcome htry) (pagePipeGrow_grown hgrow)
  rename_i pp2 hgrow
  split at h
  · exact nomatch h
  · exact nomatch h
  · rename_i pp3 htook
    cases h
    exact .next (tryAddPage_outcome htry) (pagePipeGrow_grown hgrow) (tryAddPage_outcome htook)

theorem putPage_frame {pp'' : PagePipe} (h : putPage pp b addr = .ok pp'') :
    ∃ iovs freeIov nrSegs, pp'' = setLast { pp with iovs := iovs, freeIov := freeIov }
      { b with nrSegs := nrSegs, pagesIn := b.pagesIn + 1 } := by
  by_cases hgrow : Grows pp b addr
  · obtain rfl := Except.ok.inj ((putPage_grows hgrow).symm.trans h)
    exact ⟨_, pp.freeIov, b.nrSegs, rfl⟩
  · by_cases hfree : pp.freeIov < pp.nrIovs
    · obtain rfl := Except.ok.inj ((putPage_takes hgrow hfree).symm.trans h)
      exact ⟨_, _, _, rfl⟩
    · exact nomatch (putPage_bug hgrow (Nat.le_of_not_lt hfree)).symm.trans h

end Inversion

section Room

structure Roomy (pp : PagePipe) : Prop where
  noFree : pp.freeBufs = []
  nonempty : pp.bufs ≠ []
  room : ∀ b ∈ pp.bufs, b.pagesIn + b.pipeOff ≤ b.pipeSize
  pos : ∀ b ∈ pp.bufs, 0 < b.pipeSize

variable {l : List PagePipeBuf} {i : ℕ}

theorem last_split (h : l.getLast? = some b) : l = l.dropLast ++ b :: [] :=
  (dropLast_append_getLast? b h).symm

theorem dropLast_concat_eq_set (hlast : l.getLast? = some b) (b' : PagePipeBuf) :
    l.dropLast ++ [b'] = l.set (l.length - 1) b' := by
  obtain ⟨init, rfl⟩ := getLast?_eq_some_iff.mp hlast
  rw [dropLast_concat, length_append, length_singleton, Nat.add_sub_cancel,
    set_append_right _ _ (le_refl _), Nat.sub_self]
  rfl

theorem Roomy.set (h : Roomy pp) (hbufs : pp'.bufs = pp.bufs.set i b')
    (hfree : pp'.freeBufs = pp.freeBufs) (hroom : b'.pagesIn + b'.pipeOff ≤ b'.pipeSize)
    (hpos : 0 < b'.pipeSize) : Roomy pp' := by
  refine ⟨hfree.trans h.noFree, by simp [hbufs, h.nonempty], fun c hc => ?_, fun c hc => ?_⟩
  · rcases mem_or_eq_of_mem_set (hbufs ▸ hc) with hc | rfl
    · exact h.room c hc
    · exact hroom
  · rcases mem_or_eq_of_mem_set (hbufs ▸ hc) with hc | rfl
    · exact h.pos c hc
    · exact hpos

theorem Roomy.resize (h : Roomy pp) (hb : pp.bufs[i]? = some b)
    (hres : Resized k pp b full b' pp') : Roomy { pp' with bufs := pp'.bufs.set i b' } := by
  have hroom := h.room b (mem_of_getElem? hb)
  have hpos := h.pos b (mem_of_getElem? hb)
  have hsize := hres.size_le
  obtain ⟨n, calls, caps, rfl, rfl⟩ := hres.frame
  exact h.set rfl rfl (le_trans hroom hsize) (lt_of_lt_of_le hpos hsize)

theorem Roomy.append {nb : PagePipeBuf} (h : Roomy pp) (hbufs : pp'.bufs = pp.bufs ++ [nb])
    (hfree : pp'.freeBufs = pp.freeBufs) (hroom : nb.pagesIn + nb.pipeOff ≤ nb.pipeSize)
    (hpos : 0 < nb.pipeSize) : Roomy pp' := by
  refine ⟨hfree.trans h.noFree, by simp [hbufs], ?_, ?_⟩
  · exact hbufs ▸ forall_mem_append.mpr ⟨h.room, forall_mem_singleton.mpr hroom⟩
  · exact hbufs ▸ forall_mem_append.mpr ⟨h.pos, forall_mem_singleton.mpr hpos⟩

theorem ppPrevPpb_some (h : ppPrevPpb lazyPages pp flags = some i) :
    pp.chunkMode = false ∧ pp.prev (ppbType lazyPages flags) = some i := by
  unfold ppPrevPpb at h
  split at h
  · exact nomatch h
  · rename_i hchunk
    split at h
    · exact nomatch h
    · exact ⟨Bool.eq_false_iff.mpr hchunk, h⟩

/-- A change of a page pipe that leaves its pages alone: a buffer is resized, or there is a further
one, in a pipe of its own or behind the last one of its type. -/
inductive Shift (k : PipeKernel) (lazyPages : Bool) (flags : ℕ) (pp : PagePipe) : PagePipe → Prop
  | resize {i : ℕ} {b b' : PagePipeBuf} {pp' : PagePipe} {full : Bool} : pp.bufs[i]? = some b →
      Resized k pp b full b' pp' → Shift k lazyPages flags pp { pp' with bufs := pp'.bufs.set i b' }
  | pipe : Shift k lazyPages flags pp (withPipeBuf k lazyPages pp flags)
  | share {i : ℕ} {b : PagePipeBuf} : pp.prev (ppbType lazyPages flags) = some i →
      pp.bufs[i]? = some b → b.pagesIn + b.pipeOff < b.pipeSize → Shift k lazyPages flags pp
        (withBuf lazyPages pp (newBuf pp b.pipe b.pipeSize (b.pagesIn + b.pipeOff) flags))

structure Put (addr flags : ℕ) (pp : PagePipe) (b : PagePipeBuf) (pp' : PagePipe) : Prop where
  last : pp.bufs.getLast? = some b
  same : b.flags = flags
  room : b.pagesIn + b.pipeOff < b.pipeSize
  put : putPage pp b addr = .ok pp'

theorem Roomy.shift (h : Roomy pp) (hs : Shift k lazyPages flags pp pp') : Roomy pp' := by
  cases hs with
  | resize hb hres => exact h.resize hb hres
  | pipe => exact h.append rfl rfl (Nat.zero_le (k.newPipe pp.calls)) (k.newPipe_pos _)
  | share _ _ hroom =>
    exact h.append rfl rfl (by simp only [newBuf]; omega) (Nat.zero_lt_of_lt hroom)

/-- What single changes keep, a run of them keeps. -/
theorem keep_of_shifts (h : P pp) (hs : Relation.ReflTransGen (Shift k lazyPages flags) pp pp')
    (hshift : ∀ {p p'}, P p → Shift k lazyPages flags p p' → P p') : P pp' := by
  induction hs with
  | refl => exact h
  | tail _ hs ih => exact hshift ih hs

theorem Roomy.put (h : Roomy pp) (hp : Put addr flags pp b pp') : Roomy pp' := by
  have hroom := hp.room
  obtain ⟨iovs, freeIov, nrSegs, rfl⟩ := putPage_frame hp.put
  exact h.set (dropLast_concat_eq_set hp.last _) rfl (by simp only; omega) (Nat.zero_lt_of_lt hroom)

theorem setLast_resized (hlast : pp.bufs.getLast? = some b) (hres : Resized k pp b full b' pp') :
    setLast pp' b' = { pp' with bufs := pp'.bufs.set (pp.bufs.length - 1) b' } := by
  obtain ⟨n, calls, caps, rfl, rfl⟩ := hres.frame
  rw [setLast, dropLast_concat_eq_set hlast]

theorem shift_last (hlast : pp.bufs.getLast? = some b) (hres : Resized k pp b full b' pp') :
    Shift k lazyPages flags pp (setLast pp' b') := by
  rw [setLast_resized hlast hres]
  exact .resize (getLast?_eq_getElem? ▸ hlast) hres

theorem Turned.shifts {pp1 : PagePipe} (h : Roomy pp) (ht : Turned k flags pp pp1)
    (hg : Grown k lazyPages flags pp1 full pp') :
    Relation.ReflTransGen (Shift k lazyPages flags) pp pp' := by
  have hs : Relation.ReflTransGen (Shift k lazyPages flags) pp pp1 := by
    cases ht with
    | other _ _ => exact .refl
    | full hlast _ hres => exact .single (shift_last hlast hres)
  have h := keep_of_shifts h hs Roomy.shift
  refine hs.trans ?_
  cases hg with
  | reuse hfree => exact nomatch h.noFree.symm.trans hfree
  | again _ _ _ => exact .refl
  | pipe _ _ => exact .single .pipe
  | full _ _ hb hres => exact .tail (.single (.resize hb hres)) .pipe
  | share _ hprev hb hres =>
    have hmem := mem_of_getElem? hb
    have hroom := hres.fits (h.room _ hmem) (h.pos _ hmem)
    refine .tail (.single (.resize hb hres)) ?_
    obtain ⟨n, calls, caps, rfl, rfl⟩ := hres.frame
    exact .share (ppPrevPpb_some hprev).2
      (getElem?_set_self (List.getElem?_eq_some_iff.mp hb).1) hroom

theorem Took.shifts (h : Roomy pp) (ht : Took k addr flags pp pp') :
    ∃ pp1 b, Shift k lazyPages flags pp pp1 ∧ Put addr flags pp1 b pp' := by
  obtain ⟨hlast, hflags, hres, hput⟩ := ht
  rename_i b b1 pp1
  have hmem := mem_of_getLast? hlast
  refine ⟨_, b1, shift_last hlast hres, getLast?_concat, hres.flags_eq.trans hflags,
    hres.fits (h.room b hmem) (h.pos b hmem), ?_⟩
  rw [← hput]
  simp [putPage, setLast]

/-- What the single changes keep, a call keeps. -/
theorem Added.rule (hr : Roomy pp) (ha : Added k lazyPages addr flags pp full pp')
    (hshift : ∀ {p p'}, P p → Shift k lazyPages flags p p' → P p')
    (hput : ∀ {p b p'}, P p → Put addr flags p b p' → P p') (h : P pp) : P pp' := by
  have htook : ∀ {p}, Roomy p → P p → Took k addr flags p pp' → P pp' := by
    intro p hr hp ht
    obtain ⟨p1, b, hs, hp1⟩ := ht.shifts hr
    exact hput (hshift hp hs) hp1
  cases ha with
  | last ht => exact htook hr h ht
  | again ht hg => exact keep_of_shifts h (ht.shifts hr hg) hshift
  | next ht hg htk =>
    have hs := ht.shifts hr hg
    exact htook (keep_of_shifts hr hs Roomy.shift) (keep_of_shifts h hs hshift) htk

theorem Roomy.added (h : Roomy pp) (ha : Added k lazyPages addr flags pp full pp') : Roomy pp' :=
  ha.rule h Roomy.shift Roomy.put h

/-- A last buffer of the flags takes the page if it is not found full. -/
theorem Added.took (ha : Added k lazyPages addr flags pp full pp')
    (hlast : pp.bufs.getLast? = some b) (hflags : b.flags = flags)
    (hroom : ∀ b' pp1, ¬ Resized k pp b true b' pp1) : Took k addr flags pp pp' := by
  have hnot : ∀ {pp1}, ¬ Turned k flags pp pp1 := by
    intro pp1 ht
    cases ht with
    | other hlast' hne => exact hne (Option.some.inj (hlast.symm.trans hlast') ▸ hflags)
    | full hlast' _ hres =>
      exact hroom _ _ (Option.some.inj (hlast.symm.trans hlast') ▸ hres)
  cases ha with
  | last ht => exact ht
  | again ht _ | next ht _ _ => exact (hnot ht).elim

/-- A page of other flags than the last buffer's goes to a new one. -/
theorem Added.grown (ha : Added k lazyPages addr flags pp full pp')
    (hlast : ∀ b, pp.bufs.getLast? = some b → b.flags ≠ flags) (hchunk : pp.chunkMode = false) :
    ∃ pp1, Grown k lazyPages flags pp false pp1 ∧ Took k addr flags pp1 pp' := by
  have hsame : ∀ {pp1}, Turned k flags pp pp1 → pp1 = pp := by
    intro pp1 ht
    cases ht with
    | other _ _ => rfl
    | full hl hf _ => exact absurd hf (hlast _ hl)
  cases ha with
  | last ht =>
    obtain ⟨hl, hf, -, -⟩ := ht
    exact absurd hf (hlast _ hl)
  | again ht hg =>
    obtain rfl := hsame ht
    cases hg with
    | again _ hyes _ => exact nomatch hchunk.symm.trans hyes
  | next ht hg htook =>
    obtain rfl := hsame ht
    exact ⟨_, hg, htook⟩

end Room

/-- `page_pipe_add_page` as a step of a run; a return value of -EAGAIN leaves the caller free to
go on. -/
def addPage (k : PipeKernel) (lazyPages : Bool) (pp : PagePipe) (c : ℕ × ℕ) :
    Except Fault PagePipe :=
  (pagePipeAddPage k lazyPages pp c.1 c.2).map Prod.snd

def afterCalls (k : PipeKernel) (lazyPages : Bool) (nrSegs : ℕ) (iovs : ℕ → Iovec)
    (chunkMode : Bool) (calls : List (ℕ × ℕ)) : Except Fault PagePipe :=
  createPagePipe k lazyPages nrSegs iovs chunkMode >>= calls.foldlM (addPage k lazyPages)

theorem addPage_added {c : ℕ × ℕ}
    (h : addPage k lazyPages pp c = .ok pp') :
    ∃ full, Added k lazyPages c.1 c.2 pp full pp' := by
  unfold addPage at h
  cases hadd : pagePipeAddPage k lazyPages pp c.1 c.2 with
  | error f =>
    rw [hadd] at h
    exact nomatch h
  | ok r =>
    rw [hadd] at h
    cases h
    exact ⟨r.1, pagePipeAddPage_added hadd⟩

theorem afterCalls_eq (k : PipeKernel) (lazyPages : Bool) (nrSegs : ℕ) (iovs : ℕ → Iovec)
    (chunkMode : Bool) (calls : List (ℕ × ℕ)) :
    afterCalls k lazyPages nrSegs iovs chunkMode calls =
      calls.foldlM (addPage k lazyPages) (freshPipe k lazyPages nrSegs iovs chunkMode) := by
  rw [afterCalls, createPagePipe_eq]
  rfl

theorem freshPipe_roomy (k : PipeKernel) (lazyPages : Bool) (nrSegs : ℕ) (iovs : ℕ → Iovec)
    (chunkMode : Bool) : Roomy (freshPipe k lazyPages nrSegs iovs chunkMode) := by
  refine ⟨rfl, cons_ne_nil _ _, ?_, ?_⟩
  · exact forall_mem_singleton.mpr (Nat.zero_le _)
  · exact forall_mem_singleton.mpr (k.newPipe_pos 0)

section Limit

def Within (pp : PagePipe) : Prop := ∀ b ∈ pp.bufs, b.pagesIn ≤ pipeMaxSize

/-- The buffer that the page would go to is not one with PIPE_MAX_SIZE pages and room in its
pipe. -/
def Closed (pp : PagePipe) (flags : ℕ) : Prop :=
  ∀ b, pp.bufs.getLast? = some b → b.flags = flags → b.pagesIn = pipeMaxSize →
    b.pipeSize ≤ b.pagesIn + b.pipeOff

theorem Within.shift (h : Within pp) (hs : Shift k lazyPages flags pp pp') : Within pp' := by
  cases hs with
  | @resize i b b' _ _ hb hres =>
    obtain ⟨n, calls, caps, rfl, rfl⟩ := hres.frame
    intro c hc
    rcases mem_or_eq_of_mem_set hc with hc | rfl
    · exact h c hc
    · exact h b (mem_of_getElem? hb)
  | pipe | share _ _ _ => exact forall_mem_append.mpr ⟨h, forall_mem_singleton.mpr (Nat.zero_le _)⟩

theorem Grown.last (hg : Grown k lazyPages flags pp false pp') :
    ∃ nb, pp'.bufs.getLast? = some nb ∧ nb.pagesIn = 0 := by
  cases hg with
  | _ => exact ⟨_, getLast?_concat, rfl⟩

theorem Took.last (h : Took k addr flags pp pp') : ∃ b b', pp.bufs.getLast? = some b ∧
    b.flags = flags ∧ pp'.bufs = pp.bufs.dropLast ++ [b'] ∧ b'.flags = flags ∧
    b'.pagesIn = b.pagesIn + 1 := by
  obtain ⟨hlast, hflags, hres, hput⟩ := h
  obtain ⟨n, calls, caps, rfl, rfl⟩ := hres.frame
  obtain ⟨iovs, freeIov, nrSegs, rfl⟩ := putPage_frame hput
  exact ⟨_, _, hlast, hflags, rfl, hflags, rfl⟩

theorem Within.took (h : Within pp) (ht : Took k addr flags pp pp')
    (hlast : pp.bufs.getLast? = some b) (hb : b.pagesIn < pipeMaxSize) : Within pp' := by
  obtain ⟨b0, b', hlast', -, hbufs, -, hone⟩ := ht.last
  obtain rfl := Option.some.inj (hlast.symm.trans hlast')
  rw [Within, hbufs]
  exact forall_mem_append.mpr ⟨fun c hc => h c (dropLast_subset _ hc),
    forall_mem_singleton.mpr (hone.trans_le hb)⟩

/-- A buffer at the limit of a page pipe without room does not take the page. -/
theorem Took.not_full (h : Took k addr flags pp pp')
    (hlast : pp.bufs.getLast? = some b) (hmax : pipeMaxSize ≤ b.pipeSize) :
    b.pagesIn + b.pipeOff < b.pipeSize := by
  obtain ⟨hlast', -, hres, -⟩ := h
  obtain rfl := Option.some.inj (hlast.symm.trans hlast')
  cases hres with
  | room hlt => exact hlt
  | granted _ _ hlt _ => exact absurd hlt (not_lt_of_ge hmax)

theorem Within.added (hr : Roomy pp) (h : Within pp)
    (ha : Added k lazyPages addr flags pp full pp') (hc : Closed pp flags) : Within pp' := by
  cases ha with
  | last ht =>
    obtain ⟨b, _, hlast, hflags, -⟩ := ht.last
    have hmem := mem_of_getLast? hlast
    refine h.took ht hlast (lt_of_le_of_ne (h b hmem) fun heq => ?_)
    have hfull := hc b hlast hflags heq
    have hroom := hr.room b hmem
    have hfits := ht.not_full hlast (by omega)
    omega
  | again ht hg => exact keep_of_shifts h (ht.shifts hr hg) Within.shift
  | next ht hg htook =>
    obtain ⟨nb, hlast, hzero⟩ := hg.last
    refine (keep_of_shifts h (ht.shifts hr hg) Within.shift).took htook hlast ?_
    rw [pipeMaxSize_eq]
    omega

theorem closed_of_within (ha : Added k lazyPages addr flags pp full pp') (h : Within pp') :
    Closed pp flags := by
  intro b hlast hflags hpages
  by_contra hroom
  have htook := ha.took hlast hflags fun _ _ hres => hroom hres.noRoom
  obtain ⟨b0, b1, hlast0, -, hbufs, -, hone⟩ := htook.last
  obtain rfl := Option.some.inj (hlast.symm.trans hlast0)
  have := h b1 (by simp [hbufs])
  omega

/-- No buffer gets more than PIPE_MAX_SIZE pages exactly if no call finds a last buffer of its flags
with PIPE_MAX_SIZE pages and room in its pipe. -/
theorem pages_within_limit_iff (k : PipeKernel) (lazyPages : Bool) (nrSegs : ℕ) (iovs : ℕ → Iovec)
    (chunkMode : Bool) (calls : List (ℕ × ℕ)) :
    (∀ pre post pp, calls = pre ++ post →
      afterCalls k lazyPages nrSegs iovs chunkMode pre = .ok pp → Within pp) ↔
    ∀ pre c post pp pp', calls = pre ++ c :: post →
      afterCalls k lazyPages nrSegs iovs chunkMode pre = .ok pp →
      addPage k lazyPages pp c = .ok pp' → Closed pp c.2 := by
  simp only [afterCalls_eq]
  refine Run.foldlM_safe_iff (fun pp => Roomy pp ∧ Within pp) (fun _ h => h.2) ?_ ?_
    ⟨freshPipe_roomy .., forall_mem_singleton.mpr (Nat.zero_le _)⟩ calls
  · intro pp c pp' h hadd hc
    obtain ⟨full, ha⟩ := addPage_added hadd
    exact ⟨h.1.added ha, h.2.added h.1 ha hc⟩
  · intro pp c pp' _ hadd hw
    obtain ⟨full, ha⟩ := addPage_added hadd
    exact closed_of_within ha hw

/-- The kernel gives no pipe more than PIPE_MAX_SIZE pages; a buffer asks for twice the size of a
smaller pipe. -/
structure Moderate (k : PipeKernel) : Prop where
  newPipe : ∀ c, k.newPipe c ≤ pipeMaxSize
  setPipeSize : ∀ c n r, n < 2 * pipeMaxSize → k.setPipeSize c n = some r → r ≤ pipeMaxSize

def Sized (pp : PagePipe) : Prop := ∀ b ∈ pp.bufs, b.pipeSize ≤ pipeMaxSize

theorem Sized.shift (hk : Moderate k) (h : Sized pp) (hs : Shift k lazyPages flags pp pp') :
    Sized pp' := by
  cases hs with
  | @resize i b b' _ _ hb hres =>
    have hold := h b (mem_of_getElem? hb)
    have hnew : b'.pipeSize ≤ pipeMaxSize := by
      cases hres with
      | room _ | limit _ _ => exact hold
      | refused _ _ _ =>
        unfold believed
        split
        · exact le_refl _
        · exact hold
      | granted ret _ hlt hset => exact hk.setPipeSize _ _ ret (by omega) hset
    obtain ⟨n, calls, caps, rfl, rfl⟩ := hres.frame
    intro c hc
    rcases mem_or_eq_of_mem_set hc with hc | rfl
    · exact h c hc
    · exact hnew
  | pipe => exact forall_mem_append.mpr ⟨h, forall_mem_singleton.mpr (hk.newPipe _)⟩
  | @share i b _ hb _ =>
    exact forall_mem_append.mpr ⟨h, forall_mem_singleton.mpr (h b (mem_of_getElem? hb))⟩

theorem Sized.put (h : Sized pp) (hp : Put addr flags pp b pp') : Sized pp' := by
  have hb := h b (mem_of_getLast? hp.last)
  obtain ⟨iovs, freeIov, nrSegs, rfl⟩ := putPage_frame hp.put
  exact forall_mem_append.mpr
    ⟨fun c hc => h c (dropLast_subset _ hc), forall_mem_singleton.mpr hb⟩

/-- Only a pipe of more than PIPE_MAX_SIZE pages gets a buffer past the limit. -/
theorem within_of_moderate (hk : Moderate k) {nrSegs : ℕ} {iovs : ℕ → Iovec} {chunkMode : Bool}
    {calls : List (ℕ × ℕ)} (h : afterCalls k lazyPages nrSegs iovs chunkMode calls = .ok pp) :
    Within pp := by
  rw [afterCalls_eq] at h
  have hrun := Run.foldlM_ok_invariant (fun pp => Roomy pp ∧ Sized pp) (fun pp c pp' _ h hadd => by
      obtain ⟨full, ha⟩ := addPage_added hadd
      exact ⟨h.1.added ha, ha.rule h.1 (Sized.shift hk) Sized.put h.2⟩)
    ⟨freshPipe_roomy .., forall_mem_singleton.mpr (hk.newPipe 0)⟩ h
  intro b hb
  have hroom := hrun.1.room b hb
  have hsize := hrun.2 b hb
  omega

/-- A pipe with more than PIPE_MAX_SIZE pages behind the start of its last buffer gets the buffer
past the limit, if enough pages of its flags follow. -/
theorem not_within_of_larger {pages : List (ℕ × ℕ)}
    (h : pages.foldlM (addPage k lazyPages) pp = .ok pp') (hlast : pp.bufs.getLast? = some b)
    (hflags : ∀ c ∈ pages, c.2 = b.flags) (hlarge : b.pipeOff + pipeMaxSize < b.pipeSize)
    (hpages : b.pagesIn + pages.length = pipeMaxSize + 1) : ¬ Within pp' := by
  induction pages generalizing pp b with
  | nil =>
    cases h
    intro hw
    have := hw b (mem_of_getLast? hlast)
    rw [length_nil] at hpages
    omega
  | cons c rest ih =>
    obtain ⟨pp1, hadd, h⟩ := Run.foldlM_cons_ok.mp h
    obtain ⟨hc, hflags⟩ := forall_mem_cons.mp hflags
    rw [length_cons] at hpages
    have hroom : b.pagesIn + b.pipeOff < b.pipeSize := by omega
    obtain ⟨full, ha⟩ := addPage_added hadd
    obtain ⟨hlast', -, hres, hput⟩ := ha.took hlast hc.symm fun _ _ hres =>
      absurd hroom (not_lt_of_ge hres.noRoom)
    obtain rfl := Option.some.inj (hlast.symm.trans hlast')
    cases hres with
    | granted _ hfull _ _ => omega
    | room _ =>
      obtain ⟨iovs, freeIov, nrSegs, rfl⟩ := putPage_frame hput
      exact ih h getLast?_concat hflags hlarge (by dsimp only; omega)

end Limit

theorem firstBuf_cap (k : PipeKernel) (lazyPages : Bool) (nrSegs : ℕ) (iovs : ℕ → Iovec)
    (chunkMode : Bool) : (firstBuf k).pipeSize =
      (freshPipe k lazyPages nrSegs iovs chunkMode).caps (firstBuf k).pipe :=
  (Function.update_self 0 (k.newPipe 0) (fun _ => 0)).symm

/-- F_SETPIPE_SZ as Linux does it for a privileged task: the size is rounded up to a power of
two. -/
def roundingKernel : PipeKernel where
  newPipe := fun _ => 16
  setPipeSize := fun _ n => some (2 ^ Nat.clog 2 n)
  newPipe_pos := sixteen_pages_pos
  setPipeSize_le := fun _ n r h => Option.some.inj h ▸ Nat.le_pow_clog (by decide) n

/-- 820 adjacent pages are all in the first buffer, whose pipe got 1024 pages in place of 512. -/
theorem buffer_exceeds_limit : ∃ pp b,
    afterCalls roundingKernel false 820 (fun _ => ⟨0, 0⟩) false
      ((List.range 820).map fun i => (i * pageSize, 0)) = .ok pp ∧
    b ∈ pp.bufs ∧ b.pagesIn = 820 ∧ pipeMaxSize < 820 ∧ ¬ Within pp := by
  obtain ⟨pp, hrun, hfill⟩ := Run.exists_ok_of_map (f := fun pp => pp.bufs.map (·.pagesIn))
    (show (afterCalls roundingKernel false 820 (fun _ => ⟨0, 0⟩) false
      ((List.range 820).map fun i => (i * pageSize, 0))).toOption.map _ = some [820] by
        decide +kernel)
  obtain ⟨b, hbufs, hpages⟩ := map_eq_singleton_iff.mp hfill
  have hmem : b ∈ pp.bufs := by rw [hbufs]; exact mem_singleton_self b
  refine ⟨pp, b, hrun, hmem, hpages, by decide, fun hw => ?_⟩
  have hle := hw b hmem
  rw [hpages] at hle
  exact absurd hle (by decide)

end Criu.PipeCapacity

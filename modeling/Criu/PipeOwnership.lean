import Criu.PipeSharing

/-!
Closing the pipes of a page pipe (criu/page-pipe.c). Several buffers share a pipe, and the one that
starts at its beginning owns it: destroy_page_pipe closes a pipe with each buffer of offset zero. A
buffer put behind one without pages starts at the beginning as well. Only the buffer that
create_page_pipe makes can be left without pages, by a first page with other flags.
-/

namespace Criu.PipeOwnership

open Pagemap ReadCursor PageIo PipeBuffers PipeContents PipeCapacity PipeSharing List

section Closing

variable {k : PipeKernel} {lazyPages : Bool} {pp pp' : PagePipe} {b b' : PagePipeBuf}
  {addr flags : ℕ} {full : Bool}

/-- The ends of pipes that `ppb_destroy` closes: a pipe belongs to the buffer at its start. -/
def ppbDestroy (ppb : PagePipeBuf) : List (ℕ × Bool) :=
  if ppb.pipeOff = 0 then [(ppb.pipe, false), (ppb.pipe, true)] else []

def destroyPagePipe (pp : PagePipe) : List (ℕ × Bool) :=
  (pp.freeBufs ++ pp.bufs).flatMap ppbDestroy

/-- Both ends of every pipe of the page pipe are closed once, and nothing else is. -/
def ClosedOnce (pp : PagePipe) : Prop :=
  ∀ p e, (destroyPagePipe pp).count (p, e) = if p < pp.nrPipes then 1 else 0

def starts (pp : PagePipe) : List (ℕ × ℕ) := pp.bufs.map fun b => (b.pipe, b.pipeOff)

theorem count_flatMap_ppbDestroy (l : List PagePipeBuf) (p : ℕ) (e : Bool) :
    (l.flatMap ppbDestroy).count (p, e) = (l.map fun b => (b.pipe, b.pipeOff)).count (p, 0) := by
  induction l with
  | nil => rfl
  | cons b l ih =>
    rw [flatMap_cons, count_append, ih, Nat.add_comm]
    by_cases hoff : b.pipeOff = 0
    · by_cases hp : b.pipe = p
      · cases e <;> simp [ppbDestroy, hoff, hp]
      · simp [ppbDestroy, hoff, hp]
    · simp [ppbDestroy, hoff]

theorem closedOnce_iff (h : Laid lazyPages pp) :
    ClosedOnce pp ↔ ∀ p, (starts pp).count (p, 0) = if p < pp.nrPipes then 1 else 0 := by
  have hcount : ∀ p e, (destroyPagePipe pp).count (p, e) = (starts pp).count (p, 0) := by
    intro p e
    rw [destroyPagePipe, h.roomy.noFree]
    exact count_flatMap_ppbDestroy ..
  constructor
  · intro hc p
    rw [← hcount p true, hc p true]
  · intro hc p e
    rw [hcount p e, hc p]

structure Kept (pp pp' : PagePipe) : Prop where
  mem : ∀ c ∈ pp'.bufs, ∃ b ∈ pp.bufs, ∃ n, c = { b with pipeSize := n }
  starts : starts pp' = starts pp
  nrPipes : pp'.nrPipes = pp.nrPipes
  chunkMode : pp'.chunkMode = pp.chunkMode

theorem Kept.refl (pp : PagePipe) : Kept pp pp :=
  ⟨fun c hc => ⟨c, hc, c.pipeSize, rfl⟩, rfl, rfl, rfl⟩

variable {P : PagePipeBuf → Prop} {calls : List (ℕ × ℕ)} {pp1 : PagePipe}

theorem kept_resize {i : ℕ} (hb : pp.bufs[i]? = some b) (hres : Resized k pp b full b' pp1) :
    Kept pp { pp1 with bufs := pp1.bufs.set i b' } := by
  obtain ⟨n, calls, caps, rfl, rfl⟩ := hres.frame
  refine ⟨fun c hc => ?_, map_set_same hb rfl, rfl, rfl⟩
  rcases mem_or_eq_of_mem_set hc with hc | rfl
  · exact ⟨c, hc, c.pipeSize, rfl⟩
  · exact ⟨b, mem_of_getElem? hb, n, rfl⟩

theorem turned_kept (ht : Turned k flags pp pp') : Kept pp pp' := by
  cases ht with
  | other _ _ => exact .refl pp
  | full hlast _ hres =>
    rw [setLast_resized hlast hres]
    exact kept_resize (getLast?_eq_getElem? ▸ hlast) hres

/-- The buffer that page_pipe_grow adds: in a new pipe, or behind the last buffer of its type. -/
theorem grown_split (h : Laid lazyPages pp) (hg : Grown k lazyPages flags pp false pp') :
    ∃ pp1, Kept pp pp1 ∧ (pp' = withPipeBuf k lazyPages pp1 flags ∨
      pp.chunkMode = false ∧ ∃ b ∈ pp.bufs, ppbType lazyPages b.flags = ppbType lazyPages flags ∧
        ∃ n, pp' = withBuf lazyPages pp1 (newBuf pp1 b.pipe n (b.pagesIn + b.pipeOff) flags)) := by
  cases hg with
  | reuse hfree => exact nomatch h.roomy.noFree.symm.trans hfree
  | pipe _ _ => exact ⟨pp, .refl pp, .inl rfl⟩
  | full _ _ hb hres => exact ⟨_, kept_resize hb hres, .inl rfl⟩
  | share _ hprev hb hres =>
    obtain ⟨hchunk, hi⟩ := ppPrevPpb_some hprev
    refine ⟨_, kept_resize hb hres, .inr ⟨hchunk, _, mem_of_getElem? hb, (h.prev_last hi hb).1, ?_⟩⟩
    obtain ⟨n, calls, caps, rfl, rfl⟩ := hres.frame
    exact ⟨n, rfl⟩

theorem took_mem (ht : Took k addr flags pp pp') (hb : b ∈ pp'.bufs) :
    b ∈ pp.bufs.dropLast ∨ b.flags = flags ∧ 0 < b.pagesIn := by
  obtain ⟨_, c, -, -, hbufs, hflags, hone⟩ := ht.last
  rcases mem_append.mp (hbufs ▸ hb) with hb | hb
  · exact .inl hb
  · exact .inr (mem_singleton.mp hb ▸ ⟨hflags, hone ▸ Nat.succ_pos _⟩)

/-- A property of buffers that does not depend on the size stays true of all of them, if it is true
of one with a page of the call. -/
theorem added_forall_mem (h : Laid lazyPages pp) (ha : Added k lazyPages addr flags pp full pp')
    (hsize : ∀ b n, P b → P { b with pipeSize := n })
    (hnew : ∀ b, b.flags = flags → 0 < b.pagesIn → P b) (hP : ∀ b ∈ pp.bufs, P b) :
    ∀ b ∈ pp'.bufs, P b := by
  have hsame : ∀ {l : List PagePipeBuf} {c : PagePipeBuf}, (∀ b ∈ l, P b) →
      (∃ b ∈ l, ∃ n, c = { b with pipeSize := n }) → P c := by
    rintro l c hl ⟨b, hb, n, rfl⟩
    exact hsize b n (hl b hb)
  intro b hb
  cases ha with
  | last ht =>
    rcases took_mem ht hb with hb | ⟨hflags, hpages⟩
    · exact hP b (dropLast_subset _ hb)
    · exact hnew b hflags hpages
  | again ht hg =>
    cases hg with
    | again _ _ _ => exact hsame hP ((turned_kept ht).mem b hb)
  | next ht hg htook =>
    rcases took_mem htook hb with hb | ⟨hflags, hpages⟩
    · have hP1 : ∀ c ∈ _, P c := fun c hc => hsame hP ((turned_kept ht).mem c hc)
      obtain ⟨pp2, hkept, rfl | ⟨-, c, -, -, n, rfl⟩⟩ := grown_split (h.turned ht) hg
      all_goals
        exact hsame hP1 (hkept.mem b ((dropLast_concat : (pp2.bufs ++ [_]).dropLast = _) ▸ hb))
    · exact hnew b hflags hpages

theorem took_starts (ht : Took k addr flags pp pp') :
    starts pp' = starts pp ∧ pp'.nrPipes = pp.nrPipes ∧ pp'.chunkMode = pp.chunkMode := by
  obtain ⟨hlast, -, hres, hput⟩ := ht
  obtain ⟨n, calls, caps, rfl, rfl⟩ := hres.frame
  obtain ⟨iovs, freeIov, nrSegs, rfl⟩ := putPage_frame hput
  exact ⟨map_last_same hlast rfl, rfl, rfl⟩

/-- The start of a buffer that page_pipe_grow adds: that of a new pipe, or the end of the last
buffer of its type. -/
def Opens (lazyPages : Bool) (flags : ℕ) (pp pp' : PagePipe) : Prop :=
  (starts pp' = starts pp ++ [(pp.nrPipes, 0)] ∧ pp'.nrPipes = pp.nrPipes + 1) ∨
    (pp.chunkMode = false ∧ pp'.nrPipes = pp.nrPipes ∧ ∃ b ∈ pp.bufs,
      ppbType lazyPages b.flags = ppbType lazyPages flags ∧
      starts pp' = starts pp ++ [(b.pipe, b.pagesIn + b.pipeOff)])

theorem grown_starts (h : Laid lazyPages pp) (hg : Grown k lazyPages flags pp false pp') :
    pp'.chunkMode = pp.chunkMode ∧ Opens lazyPages flags pp pp' := by
  obtain ⟨pp1, hkept, rfl | ⟨hchunk, b, hb, htype, n, rfl⟩⟩ := grown_split h hg
  · refine ⟨hkept.chunkMode, .inl ⟨?_, congrArg (· + 1) hkept.nrPipes⟩⟩
    rw [← hkept.starts, ← hkept.nrPipes]
    simp [starts, withPipeBuf, withBuf, newBuf, withPipe]
  · refine ⟨hkept.chunkMode, .inr ⟨hchunk, hkept.nrPipes, b, hb, htype, ?_⟩⟩
    rw [← hkept.starts]
    simp [starts, withBuf, newBuf]

theorem added_starts (h : Laid lazyPages pp) (ha : Added k lazyPages addr flags pp full pp') :
    pp'.chunkMode = pp.chunkMode ∧
      (starts pp' = starts pp ∧ pp'.nrPipes = pp.nrPipes ∨ Opens lazyPages flags pp pp') := by
  cases ha with
  | last ht =>
    obtain ⟨hs, hn, hc⟩ := took_starts ht
    exact ⟨hc, .inl ⟨hs, hn⟩⟩
  | again ht hg =>
    obtain ⟨-, hs, hn, hc⟩ := turned_kept ht
    cases hg with
    | again _ _ _ => exact ⟨hc, .inl ⟨hs, hn⟩⟩
  | next ht hg htook =>
    obtain ⟨hmem, hs1, hn1, hc1⟩ := turned_kept ht
    obtain ⟨hc2, hs2⟩ := grown_starts (h.turned ht) hg
    obtain ⟨hs3, hn3, hc3⟩ := took_starts htook
    rw [Opens, hs1, hn1, hc1, ← hs3, ← hn3] at hs2
    refine ⟨hc3.trans (hc2.trans hc1), .inr (hs2.imp id ?_)⟩
    rintro ⟨hchunk, hn, b1, hb1, htype, hs⟩
    obtain ⟨b, hb, n, rfl⟩ := hmem b1 hb1
    exact ⟨hchunk, hn, b, hb, htype, hs⟩

/-- Each pipe has one buffer at its start, and the buffers that can be followed by another have
pages. -/
structure Owned (lazyPages : Bool) (pp : PagePipe) : Prop where
  laid : Laid lazyPages pp
  once : ∀ p, (starts pp).count (p, 0) = if p < pp.nrPipes then 1 else 0

theorem Owned.added (h : Owned lazyPages pp) (ha : Added k lazyPages addr flags pp full pp')
    (hpages : pp.chunkMode = false → ∀ b ∈ pp.bufs,
      ppbType lazyPages b.flags = ppbType lazyPages flags → 0 < b.pagesIn) :
    Owned lazyPages pp' := by
  refine ⟨h.laid.added ha, fun p => ?_⟩
  obtain ⟨-, ⟨hs, hn⟩ | ⟨hs, hn⟩ | ⟨hchunk, hn, b, hb, htype, hs⟩⟩ := added_starts h.laid ha
  · rw [hs, hn, h.once p]
  · rw [hs, hn, count_append, h.once p]
    by_cases hp : p = pp.nrPipes
    · simp [hp]
    · have hne : (pp.nrPipes, 0) ≠ (p, 0) := fun heq => hp (congrArg Prod.fst heq).symm
      rw [count_cons_of_ne hne, count_nil]
      have hiff : p < pp.nrPipes + 1 ↔ p < pp.nrPipes := by omega
      simp only [hiff, Nat.add_zero]
  have hpos := hpages hchunk b hb htype
  have hne : (b.pipe, b.pagesIn + b.pipeOff) ≠ (p, 0) := by
    intro heq
    have := congrArg Prod.snd heq
    omega
  rw [hs, hn, count_append, count_cons_of_ne hne, count_nil, Nat.add_zero, h.once p]

theorem freshPipe_owned (k : PipeKernel) (lazyPages : Bool) (nrSegs : ℕ) (iovs : ℕ → Iovec)
    (chunkMode : Bool) : Owned lazyPages (freshPipe k lazyPages nrSegs iovs chunkMode) := by
  refine ⟨freshPipe_laid .., fun p => ?_⟩
  change [(0, 0)].count (p, 0) = if p < 1 then 1 else 0
  by_cases hp : p = 0
  · rw [hp]
    rfl
  · simp [hp, Ne.symm hp]

theorem added_last_flags (ha : Added k lazyPages addr flags pp full pp')
    (hchunk : pp.chunkMode = false) : ∃ b, pp'.bufs.getLast? = some b ∧ b.flags = flags := by
  have htook : ∀ {pp}, Took k addr flags pp pp' →
      ∃ b, pp'.bufs.getLast? = some b ∧ b.flags = flags := by
    intro pp ht
    obtain ⟨_, b, -, -, hbufs, hflags, -⟩ := ht.last
    exact ⟨b, by rw [hbufs, getLast?_concat], hflags⟩
  cases ha with
  | last ht => exact htook ht
  | again ht hg =>
    cases hg with
    | again _ hyes _ =>
      rw [(turned_kept ht).chunkMode, hchunk] at hyes
      exact nomatch hyes
  | next _ _ ht => exact htook ht

theorem added_prev (hl : Laid lazyPages pp) (ha : Added k lazyPages addr flags pp full pp')
    {t : Bool} (h : pp.prev t ≠ none) : pp'.prev t ≠ none := by
  refine ha.rule (P := fun p => p.prev t ≠ none) hl.roomy ?_ ?_ h
  · intro p p' hp hs
    have hupdate : ∀ n, Function.update p.prev (ppbType lazyPages flags) (some n) t ≠ none := by
      intro n
      by_cases ht : t = ppbType lazyPages flags
      · rw [ht, Function.update_self]
        exact Option.some_ne_none _
      · rw [Function.update_of_ne ht]
        exact hp
    cases hs with
    | resize _ hres =>
      obtain ⟨n, calls, caps, rfl, rfl⟩ := hres.frame
      exact hp
    | pipe | share _ _ _ => exact hupdate _
  · intro p b p' hp hput
    obtain ⟨iovs, freeIov, nrSegs, rfl⟩ := putPage_frame hput.put
    exact hp

structure Unused (lazyPages : Bool) (pp : PagePipe) : Prop where
  laid : Laid lazyPages pp
  chunk : pp.chunkMode = false
  known : pp.prev false ≠ none
  empty : ∀ b ∈ pp.bufs, ppbType lazyPages b.flags = false → b.pagesIn = 0 ∧ b.pipeOff = 0

def Twice (pp : PagePipe) : Prop := ∃ p, 2 ≤ (starts pp).count (p, 0)

theorem Twice.added (h : Twice pp) (hl : Laid lazyPages pp)
    (ha : Added k lazyPages addr flags pp full pp') : Twice pp' := by
  obtain ⟨p, hp⟩ := h
  obtain ⟨-, ⟨hs, -⟩ | ⟨hs, -⟩ | ⟨-, -, b, -, -, hs⟩⟩ := added_starts hl ha
  · exact ⟨p, hs ▸ hp⟩
  all_goals
    refine ⟨p, ?_⟩
    rw [hs, count_append]
    omega

theorem Twice.not_closedOnce (h : Twice pp) (hl : Laid lazyPages pp) : ¬ ClosedOnce pp := by
  intro hc
  obtain ⟨p, hp⟩ := h
  rw [(closedOnce_iff hl).mp hc p] at hp
  split at hp <;> omega

theorem Unused.added (h : Unused lazyPages pp) (ha : Added k lazyPages addr flags pp full pp')
    (htype : ppbType lazyPages flags = true) : Unused lazyPages pp' := by
  refine ⟨h.laid.added ha, (added_starts h.laid ha).1.trans h.chunk, added_prev h.laid ha h.known,
    ?_⟩
  refine added_forall_mem h.laid ha (fun _ _ hb => hb) (fun b hflags _ hb => ?_) h.empty
  rw [hflags, htype] at hb
  exact nomatch hb

/-- The first page of the first buffer's type goes to a second buffer at the start of its pipe. -/
theorem Unused.twice (h : Unused lazyPages pp) (ha : Added k lazyPages addr flags pp full pp')
    (htype : ppbType lazyPages flags = false)
    (hlast : ∀ b, pp.bufs.getLast? = some b → b.flags ≠ flags) : Twice pp' := by
  have hprev : ppPrevPpb lazyPages pp flags = pp.prev false := by
    rw [ppPrevPpb, h.chunk, htype, isEmpty_eq_false_iff.mpr h.laid.roomy.nonempty]
    rfl
  obtain ⟨pp1, hg, htook⟩ := ha.grown hlast h.chunk
  obtain ⟨-, ⟨-, hn⟩ | ⟨-, -, b, hb, hbt, hs⟩⟩ := grown_starts h.laid hg
  · cases hg with
    | reuse hfree => cases h.laid.roomy.noFree.symm.trans hfree
    | pipe _ hnone => exact absurd (hprev.symm.trans hnone) h.known
    | full _ hi hb hres =>
      -- the buffer is empty, so its pipe is not full
      have hmem := mem_of_getElem? hb
      obtain ⟨hzero, hoff⟩ := h.empty _ hmem
        ((h.laid.prev_last (ppPrevPpb_some hi).2 hb).1.trans htype)
      have hpos := h.laid.roomy.pos _ hmem
      cases hres with
      | limit hfull _ | refused hfull _ _ => omega
    | share _ _ _ hres =>
      obtain ⟨n, calls, caps, rfl, rfl⟩ := hres.frame
      exact absurd hn (Nat.ne_of_lt (Nat.lt_succ_self _))
  · obtain ⟨hzero, hoff⟩ := h.empty b hb (hbt.trans htype)
    have hmem : (b.pipe, 0) ∈ starts pp := mem_map.mpr ⟨b, hb, by rw [hoff]⟩
    refine ⟨b.pipe, ?_⟩
    rw [(took_starts htook).1, hs, count_append, hzero, hoff, count_singleton_self]
    have := one_le_count_iff.mpr hmem
    omega

/-- Once a page of the first buffer's type comes, after others or with other flags, two buffers own
one pipe. -/
theorem twice_of_calls (h : Unused lazyPages pp)
    (hrun : calls.foldlM (addPage k lazyPages) pp = .ok pp')
    (hlast : ∀ c ∈ calls.head?, ppbType lazyPages c.2 = false →
      ∀ b, pp.bufs.getLast? = some b → b.flags ≠ c.2)
    (hcall : ∃ c ∈ calls, ppbType lazyPages c.2 = false) : Twice pp' := by
  induction calls generalizing pp with
  | nil =>
    obtain ⟨c, hc, -⟩ := hcall
    exact absurd hc not_mem_nil
  | cons c calls ih =>
    obtain ⟨pp1, hadd, hrest⟩ := Run.foldlM_cons_ok.mp hrun
    obtain ⟨full, ha⟩ := addPage_added hadd
    cases htype : ppbType lazyPages c.2 with
    | false =>
      have htwice := h.twice ha htype (hlast c rfl htype)
      refine (Run.foldlM_ok_invariant (fun s => Laid lazyPages s ∧ Twice s)
        (fun s e t _ hs ht => ?_) ⟨h.laid.added ha, htwice⟩ hrest).2
      obtain ⟨full, ha⟩ := addPage_added ht
      exact ⟨hs.1.added ha, hs.2.added hs.1 ha⟩
    | true =>
      obtain ⟨b, hb, hflags⟩ := added_last_flags ha h.chunk
      refine ih (h.added ha htype) hrest (fun d _ hd b1 hb1 heq => ?_) ?_
      · rw [← heq, ← Option.some.inj (hb.symm.trans hb1), hflags, htype] at hd
        exact nomatch hd
      · exact (or_exists_of_exists_mem_cons hcall).resolve_left (by simp [htype])

/-- A run of calls each of which finds pages in the buffers of its type. -/
theorem owned_of_calls (h : Owned lazyPages pp)
    (hP : ∀ b ∈ pp.bufs, P b) (hrun : calls.foldlM (addPage k lazyPages) pp = .ok pp')
    (hsize : ∀ b n, P b → P { b with pipeSize := n }) (hnew : ∀ b, 0 < b.pagesIn → P b)
    (hpages : ∀ c ∈ calls, ∀ b, P b → ppbType lazyPages b.flags = ppbType lazyPages c.2 →
      0 < b.pagesIn) : Owned lazyPages pp' := by
  refine (Run.foldlM_ok_invariant (fun s => Owned lazyPages s ∧ ∀ b ∈ s.bufs, P b)
    (fun s c t hc hs ht => ?_) ⟨h, hP⟩ hrun).1
  obtain ⟨full, ha⟩ := addPage_added ht
  refine ⟨hs.1.added ha fun _ b hb => hpages c hc b (hs.2 b hb), ?_⟩
  exact added_forall_mem hs.1.laid ha hsize (fun b _ hb => hnew b hb) hs.2

theorem Owned.took (h : Owned lazyPages pp) (ht : Took k addr flags pp pp') :
    Owned lazyPages pp' := by
  obtain ⟨hs, hn, -⟩ := took_starts ht
  refine ⟨h.laid.took ht, fun p => ?_⟩
  rw [hs, hn, h.once p]

/-- After a run of calls destroy_page_pipe closes every pipe once exactly if no buffers share pipes,
or the first page has no flags, or no page is of the type of the first buffer. -/
theorem pipes_closed_once_iff (k : PipeKernel) (lazyPages : Bool) (nrSegs : ℕ) (iovs : ℕ → Iovec)
    (chunkMode : Bool) (calls : List (ℕ × ℕ)) (pp : PagePipe)
    (hrun : afterCalls k lazyPages nrSegs iovs chunkMode calls = .ok pp) :
    ClosedOnce pp ↔ chunkMode = true ∨ (∀ c ∈ calls.head?, c.2 = 0) ∨
      ∀ c ∈ calls, ppbType lazyPages c.2 = true := by
  have hlaid := afterCalls_laid hrun
  rw [afterCalls_eq] at hrun
  have hfresh := freshPipe_owned k lazyPages nrSegs iovs chunkMode
  constructor
  · intro hc
    by_contra hnot
    obtain ⟨hchunk, hfirst, hcall⟩ : chunkMode = false ∧ (∃ c ∈ calls.head?, c.2 ≠ 0) ∧
        ∃ c ∈ calls, ppbType lazyPages c.2 = false := by
      simpa using hnot
    subst hchunk
    have hprev := Function.update_self (ppbType lazyPages 0) (some 0) (fun _ => none)
    have hunused : Unused lazyPages (freshPipe k lazyPages nrSegs iovs false) :=
      ⟨freshPipe_laid .., rfl, fun hnone => Option.some_ne_none 0 (hprev.symm.trans hnone),
        forall_mem_singleton.mpr fun _ => ⟨rfl, rfl⟩⟩
    refine (twice_of_calls hunused hrun (fun c hc _ b hb heq => ?_) hcall).not_closedOnce hlaid ‹_›
    obtain ⟨d, hd, hne⟩ := hfirst
    rw [Option.mem_unique hd hc, ← heq, ← (Option.some.inj hb)] at hne
    exact hne rfl
  intro hcond
  rw [closedOnce_iff hlaid]
  suffices howned : Owned lazyPages pp from howned.once
  rcases hcond with rfl | hfirst | htype
  · refine (Run.foldlM_ok_invariant (fun s => Owned lazyPages s ∧ s.chunkMode = true)
      (fun s c t _ hs ht => ?_) ⟨hfresh, rfl⟩ hrun).1
    obtain ⟨full, ha⟩ := addPage_added ht
    have hmode := (added_starts hs.1.laid ha).1.trans hs.2
    refine ⟨hs.1.added ha fun hno => ?_, hmode⟩
    rw [hs.2] at hno
    exact nomatch hno
  · cases calls with
    | nil =>
      cases hrun
      exact hfresh
    | cons c calls =>
      obtain ⟨pp1, hadd, hrest⟩ := Run.foldlM_cons_ok.mp hrun
      obtain ⟨full, ha⟩ := addPage_added hadd
      rw [hfirst c rfl] at ha
      -- a first page without flags goes to the buffer that create_page_pipe made
      have htook := ha.took rfl rfl fun b' pp1 hres => by
        cases hres with
        | limit hfull _ | refused hfull _ _ =>
          exact absurd hfull (Nat.not_le_of_lt (k.newPipe_pos 0))
      refine owned_of_calls (hfresh.took htook) ?_ hrest
        (fun _ _ hb => hb) (fun _ hb => hb) (fun _ _ _ hb _ => hb)
      intro b hb
      rcases took_mem htook hb with hb | ⟨-, hpos⟩
      · exact absurd hb not_mem_nil
      · exact hpos
  · refine owned_of_calls (P := fun b => ppbType lazyPages b.flags = true → 0 < b.pagesIn) hfresh
      ?_ hrun (fun _ _ hb => hb) (fun _ hb _ => hb) (fun c hc b hb heq => ?_)
    · refine forall_mem_singleton.mpr fun h => ?_
      exact absurd ((rfl : ppbType lazyPages 0 = false).symm.trans h) Bool.false_ne_true
    · exact hb (heq.trans (htype c hc))

/-- A page with PPB_LAZY comes first, and pages are not served lazily: the buffer made for it starts
in the pipe of the first one, and the pipe is closed twice. -/
theorem lazy_page_first_closes_twice : ∃ pp,
    afterCalls roundingKernel false 1 (fun _ => ⟨0, 0⟩) false [(0, ppbLazy)] = .ok pp ∧
      (destroyPagePipe pp).count (0, true) = 2 ∧ ¬ ClosedOnce pp := by
  refine ⟨_, rfl, rfl, fun h => ?_⟩
  exact absurd (h 0 true) (by decide)

theorem plain_page_first_closed_once : ∃ pp,
    afterCalls roundingKernel false 2 (fun _ => ⟨0, 0⟩) false [(0, 0), (0, ppbLazy)] = .ok pp ∧
      ClosedOnce pp :=
  ⟨_, rfl, (pipes_closed_once_iff roundingKernel false 2 (fun _ => ⟨0, 0⟩) false
    [(0, 0), (0, ppbLazy)] _ rfl).mpr (.inr (.inl fun _ hc => Option.some.inj hc ▸ rfl))⟩

end Closing

end Criu.PipeOwnership

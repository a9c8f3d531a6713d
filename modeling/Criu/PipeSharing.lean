import Criu.Lib.Lanes
import Criu.PipeCapacity

/-!
Buffers that share pipes (criu/page-pipe.c). A new buffer goes on in the pipe of the last buffer of
its type, as long as that has room, and only the last buffer of a pipe is ever resized. The sizes
the buffers remember are right as long as the kernel grants what is asked beyond PIPE_MAX_SIZE.
-/

namespace Criu.PipeSharing

open Pagemap ReadCursor PageIo PipeBuffers PipeContents PipeCapacity Lanes List Function

variable {nrPipes i : ℕ} {prev : Bool → Option ℕ} {ks ks' : List (ℕ × ℕ)} {α : Type*}
  {f : PagePipeBuf → α} {nb : PagePipeBuf} {pp1 : PagePipe} {l : List PagePipeBuf} {t : Bool}

section Layout

variable {k : PipeKernel} {lazyPages : Bool} {pp pp' : PagePipe} {b b' : PagePipeBuf}
  {addr flags : ℕ} {full : Bool}

structure Laid (lazyPages : Bool) (pp : PagePipe) : Prop where
  roomy : Roomy pp
  typed : Typed lazyPages pp.nrPipes pp.prev (keys pp)
  placed : Placed PagePipeBuf.pipe PagePipeBuf.pagesIn PagePipeBuf.pipeOff pp.bufs

def spot (b : PagePipeBuf) : ℕ × ℕ × ℕ := (b.pipe, b.pagesIn, b.pipeOff)

theorem set_same (hb : l[i]? = some b) : l.set i b = l := by
  obtain ⟨hi, rfl⟩ := List.getElem?_eq_some_iff.mp hb
  exact set_getElem_self hi

theorem map_last_same (hlast : l.getLast? = some b)
    (hf : f b' = f b) : (l.dropLast ++ [b']).map f = l.map f := by
  rw [dropLast_concat_eq_set hlast]
  exact map_set_same (getLast?_eq_getElem? ▸ hlast) hf

theorem freshPipe_laid (k : PipeKernel) (lazyPages : Bool) (nrSegs : ℕ) (iovs : ℕ → Iovec)
    (chunkMode : Bool) : Laid lazyPages (freshPipe k lazyPages nrSegs iovs chunkMode) := by
  refine ⟨freshPipe_roomy .., freshPipe_typed .., ?_⟩
  exact (placed_concat (l := [])).mpr ⟨placed_nil, rfl⟩

variable (h : Laid lazyPages pp)
include h

theorem Laid.resize (hb : pp.bufs[i]? = some b) (hres : Resized k pp b full b' pp1) :
    Laid lazyPages { pp1 with bufs := pp1.bufs.set i b' } := by
  have hroomy := h.roomy.resize hb hres
  obtain ⟨n, calls, caps, rfl, rfl⟩ := hres.frame
  refine ⟨hroomy, h.typed.of_keys (map_set_same hb rfl), ?_⟩
  have hmap : ∀ m : List PagePipeBuf,
      Placed (fun x : ℕ × ℕ × ℕ => x.1) (fun x => x.2.1) (fun x => x.2.2) (m.map spot) ↔
        Placed PagePipeBuf.pipe PagePipeBuf.pagesIn PagePipeBuf.pipeOff m := fun m => placed_map
  have hspots : (pp.bufs.set i { b with pipeSize := n }).map spot = _ := map_set_same hb rfl
  exact (hmap _).mp (by rw [hspots]; exact (hmap _).mpr h.placed)

theorem Laid.put (hp : Put addr flags pp b pp') : Laid lazyPages pp' := by
  have hroomy := h.roomy.put hp
  obtain ⟨iovs, freeIov, nrSegs, rfl⟩ := putPage_frame hp.put
  refine ⟨hroomy, h.typed.of_keys (map_last_same hp.last rfl), ?_⟩
  have hplaced := h.placed
  rw [last_split hp.last, placed_concat] at hplaced
  exact placed_concat.mpr hplaced

theorem Laid.pipe_lt (hb : b ∈ pp.bufs) : b.pipe < pp.nrPipes :=
  h.typed.lt _ (mem_map_of_mem hb)

theorem Laid.withPipeBuf (k : PipeKernel) (flags : ℕ) :
    Laid lazyPages (withPipeBuf k lazyPages pp flags) := by
  refine ⟨h.roomy.append rfl rfl (Nat.zero_le (k.newPipe pp.calls)) (k.newPipe_pos _), ?_, ?_⟩
  · exact h.typed.append (x := (pp.nrPipes, flags)) (.inl ⟨rfl, rfl⟩) map_append (length_map _)
  · exact placed_concat.mpr ⟨h.placed,
      (used_eq_zero _ _ fun c hc => Nat.ne_of_lt (h.pipe_lt hc)).symm⟩

/-- The last buffer of its type is the last of its pipe. -/
theorem Laid.prev_last (hi : pp.prev t = some i) (hb : pp.bufs[i]? = some b) :
    ppbType lazyPages b.flags = t ∧ ∀ c ∈ pp.bufs.drop (i + 1), c.pipe ≠ b.pipe := by
  obtain ⟨x, hx, hxt, hlater⟩ := h.typed.last t i hi
  have hkey : (keys pp)[i]? = some (b.pipe, b.flags) := by
    rw [PipeContents.keys, getElem?_map, hb]
    rfl
  obtain rfl := Option.some.inj (hx.symm.trans hkey)
  refine ⟨hxt, fun c hc heq => ?_⟩
  have hc' : (c.pipe, c.flags) ∈ (keys pp).drop (i + 1) := by
    rw [PipeContents.keys, ← map_drop]
    exact mem_map_of_mem hc
  refine hlater _ hc' ?_
  rw [← hxt]
  exact h.typed.types _ (mem_of_mem_drop hc') _ (mem_of_getElem? hx) heq

/-- A buffer in the pipe of the last one of its type. -/
theorem Laid.share (hi : pp.prev (ppbType lazyPages flags) = some i)
    (hb : pp.bufs[i]? = some b) (hfits : b.pagesIn + b.pipeOff < b.pipeSize) (fi : ℕ) :
    Laid lazyPages (withBuf lazyPages pp
      ⟨b.pipe, b.pipeSize, b.pagesIn + b.pipeOff, 0, 0, flags, fi⟩) := by
  obtain ⟨htype, hlater⟩ := h.prev_last hi hb
  have hmem := mem_of_getElem? hb
  refine ⟨h.roomy.append rfl rfl ?_ (lt_of_le_of_lt (Nat.zero_le _) hfits), ?_, ?_⟩
  · change 0 + (b.pagesIn + b.pipeOff) ≤ b.pipeSize
    omega
  · exact h.typed.append (x := (b.pipe, flags))
      (.inr ⟨rfl, _, mem_map_of_mem hmem, rfl, htype⟩) map_append (length_map _)
  · refine placed_concat.mpr ⟨h.placed, ?_⟩
    have hend := h.placed.end_eq (index_split hb).1 hlater
    exact (hend.trans (Nat.add_comm _ _)).symm

theorem Laid.shift (hs : Shift k lazyPages flags pp pp') : Laid lazyPages pp' := by
  cases hs with
  | resize hb hres => exact h.resize hb hres
  | pipe => exact h.withPipeBuf k flags
  | share hi hb hroom => exact h.share hi hb hroom _

theorem Laid.took (ht : Took k addr flags pp pp') : Laid lazyPages pp' := by
  obtain ⟨pp1, b, hs, hput⟩ := ht.shifts h.roomy
  exact (h.shift hs).put hput

theorem Laid.added (ha : Added k lazyPages addr flags pp full pp') : Laid lazyPages pp' :=
  ha.rule h.roomy Laid.shift Laid.put h

theorem Laid.turned (ht : Turned k flags pp pp') : Laid lazyPages pp' := by
  cases ht with
  | other _ _ => exact h
  | full hlast _ hres => exact h.shift (shift_last hlast hres : Shift k lazyPages flags pp _)

end Layout

section Capacity

variable {k : PipeKernel} {lazyPages : Bool} {pp pp' : PagePipe} {b b' : PagePipeBuf}
  {addr flags : ℕ} {full : Bool}

/-- The pages of all buffers fit the pipes, and no buffer takes its pipe to be larger than it
is. -/
structure Sound (pp : PagePipe) : Prop where
  size : ∀ b ∈ pp.bufs, b.pipeSize ≤ pp.caps b.pipe
  place : ∀ b ∈ pp.bufs, b.pipeOff + b.pagesIn ≤ pp.caps b.pipe
  total : ∀ p, used PagePipeBuf.pipe PagePipeBuf.pagesIn p pp.bufs ≤ pp.caps p

structure Exact (lazyPages : Bool) (pp : PagePipe) : Prop where
  laid : Laid lazyPages pp
  size_le : ∀ b ∈ pp.bufs, b.pipeSize ≤ pp.caps b.pipe
  size_eq : ∀ t i b, pp.prev t = some i → pp.bufs[i]? = some b → b.pipeSize = pp.caps b.pipe

def Asked (lazyPages : Bool) (pp : PagePipe) (flags : ℕ) (b : PagePipeBuf) : Prop :=
  ∃ l, pp.bufs.getLast? = some l ∧ (l.flags = flags ∧ b = l ∨
    l.flags ≠ flags ∧ ∃ i, ppPrevPpb lazyPages pp flags = some i ∧ pp.bufs[i]? = some b)

/-- The pipe of the buffer is full, and the buffer will ask for more than PIPE_MAX_SIZE pages. -/
def Tight (b : PagePipeBuf) : Prop :=
  b.pipeSize ≤ b.pagesIn + b.pipeOff ∧ b.pipeSize < pipeMaxSize ∧ pipeMaxSize < 2 * b.pipeSize

def Granted (k : PipeKernel) (lazyPages : Bool) (pp : PagePipe) (flags : ℕ) : Prop :=
  ∀ b, Asked lazyPages pp flags b → Tight b → k.setPipeSize pp.calls (2 * b.pipeSize) ≠ none

/-- The last buffer is registered as the last of its type. -/
theorem Laid.last_prev (h : Laid lazyPages pp) (hlast : pp.bufs.getLast? = some b) :
    pp.prev (ppbType lazyPages b.flags) = some (pp.bufs.length - 1) := by
  have hget : (keys pp)[pp.bufs.length - 1]? = some (b.pipe, b.flags) := by
    rw [PipeContents.keys, getElem?_map, ← getLast?_eq_getElem?, hlast]
    rfl
  obtain ⟨i, hi⟩ := Option.ne_none_iff_exists'.mp
    (h.typed.known (b.pipe, b.flags) (mem_of_getElem? hget))
  obtain ⟨x, hx, hxt, hlater⟩ := h.typed.last _ i hi
  have hlt := (List.getElem?_eq_some_iff.mp hx).1
  rw [PipeContents.keys, length_map] at hlt
  by_cases hend : i = pp.bufs.length - 1
  · rw [hi, hend]
  · refine absurd rfl (hlater (b.pipe, b.flags) ?_)
    refine mem_of_getElem? (i := pp.bufs.length - 1 - (i + 1)) ?_
    rw [getElem?_drop, Nat.add_sub_cancel' (by omega)]
    exact hget

theorem Asked.last {l : PagePipeBuf} (hlast : pp.bufs.getLast? = some l)
    (hflags : l.flags = flags) :
    Asked lazyPages pp flags l :=
  ⟨l, hlast, .inl ⟨hflags, rfl⟩⟩

/-- A buffer that is full after a resize that granted all it could is not tight. -/
theorem not_tight_of_full (h : Resized k pp b true b' pp')
    (hgrant : Tight b → k.setPipeSize pp.calls (2 * b.pipeSize) ≠ none) : ¬ Tight b' := by
  cases h with
  | limit _ hmax => exact fun ht => absurd ht.2.1 (not_lt_of_ge hmax)
  | refused hfull hmax hnone =>
    have hsmall : ¬ pipeMaxSize < 2 * b.pipeSize := fun hlt => hgrant ⟨hfull, hmax, hlt⟩ hnone
    rw [show { b with pipeSize := believed b } = b by rw [believed, if_neg hsmall]]
    exact fun ht => hsmall ht.2.2

section

variable (h : Exact lazyPages pp)
include h

theorem Exact.sound : Sound pp := by
  have hplace : ∀ b ∈ pp.bufs, b.pipeOff + b.pagesIn ≤ pp.caps b.pipe := by
    intro b hb
    have hroom := h.laid.roomy.room b hb
    have hsize := h.size_le b hb
    omega
  refine ⟨h.size_le, hplace, fun p => ?_⟩
  by_cases hp : ∃ b ∈ pp.bufs, b.pipe = p
  · obtain ⟨pre, b, post, hbufs, rfl, hpost⟩ := exists_last hp
    rw [h.laid.placed.end_eq hbufs hpost]
    exact hplace b (by simp [hbufs])
  · rw [used_eq_zero _ _ fun b hb heq => hp ⟨b, hb, heq⟩]
    exact Nat.zero_le _

/-- Resizing the last buffer of a type keeps the sizes right, unless it is refused beyond
PIPE_MAX_SIZE. -/
theorem Exact.resize (hi : pp.prev t = some i)
    (hb : pp.bufs[i]? = some b) (hres : Resized k pp b full b' pp1)
    (hgrant : full = true → Tight b → k.setPipeSize pp.calls (2 * b.pipeSize) ≠ none) :
    Exact lazyPages { pp1 with bufs := pp1.bufs.set i b' } := by
  have hlaid := h.laid.resize hb hres
  have hself := set_same hb
  have hsame : { pp with bufs := pp.bufs.set i b } = pp := by
    rw [hself]
  obtain ⟨htype, hlater⟩ := h.laid.prev_last hi hb
  cases hres with
  | room _ | limit _ _ => exact hsame.symm ▸ h
  | refused hfull hmax hnone =>
    have hsmall : ¬ pipeMaxSize < 2 * b.pipeSize := fun hlt =>
      hgrant rfl ⟨hfull, hmax, hlt⟩ hnone
    have hold : { b with pipeSize := believed b } = b := by
      rw [believed, if_neg hsmall]
    rw [hold, hself] at hlaid ⊢
    exact ⟨hlaid, h.size_le, h.size_eq⟩
  | granted ret _ _ hsome =>
    have hret := k.setPipeSize_le _ _ _ hsome
    have hsize := h.size_eq t i b hi hb
    refine ⟨hlaid, fun c hc => ?_, fun t' i' c hi' hc => ?_⟩
    · change c.pipeSize ≤ update pp.caps b.pipe ret c.pipe
      rcases mem_or_eq_of_mem_set hc with hc | rfl
      · have hle := h.size_le c hc
        by_cases hcb : c.pipe = b.pipe
        · rw [hcb, update_self]
          rw [hcb] at hle
          omega
        · rw [update_of_ne hcb]
          exact hle
      · rw [update_self]
    change c.pipeSize = update pp.caps b.pipe ret c.pipe
    by_cases hii : i' = i
    · rw [hii, getElem?_set_self (List.getElem?_eq_some_iff.mp hb).1] at hc
      cases hc
      rw [update_self]
    rw [getElem?_set_ne (Ne.symm hii)] at hc
    have hcb : c.pipe ≠ b.pipe := by
      intro heq
      have htype' := (h.laid.prev_last hi' hc).1
      have hsametype := h.laid.typed.types _ (mem_map_of_mem (mem_of_getElem? hc)) _
        (mem_map_of_mem (mem_of_getElem? hb)) heq
      rw [htype', htype] at hsametype
      rw [hsametype, hi] at hi'
      exact hii (Option.some.inj hi').symm
    rw [update_of_ne hcb]
    exact h.size_eq t' i' c hi' hc

theorem Exact.append
    (hlaid : Laid lazyPages (withBuf lazyPages pp nb)) (hsize : nb.pipeSize = pp.caps nb.pipe) :
    Exact lazyPages (withBuf lazyPages pp nb) := by
  refine ⟨hlaid, ?_, fun t i c hi hc => ?_⟩
  · exact forall_mem_append.mpr ⟨h.size_le, forall_mem_singleton.mpr (le_of_eq hsize)⟩
  change (pp.bufs ++ [nb])[i]? = some c at hc
  change update pp.prev _ _ t = some i at hi
  by_cases ht : t = ppbType lazyPages nb.flags
  · rw [ht, update_self, Option.some.injEq] at hi
    rw [← hi, getElem?_concat_length] at hc
    exact Option.some.inj hc ▸ hsize
  rw [update_of_ne ht] at hi
  obtain ⟨x, hx, -, -⟩ := h.laid.typed.last t i hi
  have hlt := (List.getElem?_eq_some_iff.mp hx).1
  rw [PipeContents.keys, length_map] at hlt
  rw [getElem?_append_left hlt] at hc
  exact h.size_eq t i c hi hc

theorem Exact.withPipeBuf (k : PipeKernel) (flags : ℕ) :
    Exact lazyPages (withPipeBuf k lazyPages pp flags) := by
  have hcaps : ∀ b ∈ pp.bufs, update pp.caps pp.nrPipes (k.newPipe pp.calls) b.pipe =
      pp.caps b.pipe := fun b hb => update_of_ne (Nat.ne_of_lt (h.laid.pipe_lt hb)) _ _
  have hpipe : Exact lazyPages (withPipe k pp) := by
    refine ⟨⟨{ h.laid.roomy with },
      { h.laid.typed with lt := fun x hx => Nat.lt_succ_of_lt (h.laid.typed.lt x hx) },
      h.laid.placed⟩, fun b hb => ?_, fun t i b hi hb => ?_⟩
    · exact le_of_le_of_eq (h.size_le b hb) (hcaps b hb).symm
    · exact (h.size_eq t i b hi hb).trans (hcaps b (mem_of_getElem? hb)).symm
  refine hpipe.append (h.laid.withPipeBuf k flags) ?_
  change k.newPipe pp.calls = update pp.caps pp.nrPipes (k.newPipe pp.calls) pp.nrPipes
  rw [update_self]

theorem Exact.took (ht : Took k addr flags pp pp') : Exact lazyPages pp' := by
  have hlaid := h.laid.took ht
  obtain ⟨hlast, -, hres, hput⟩ := ht
  have hget := getLast?_eq_getElem? ▸ hlast
  have hexact := h.resize (h.laid.last_prev hlast) hget hres nofun
  obtain ⟨n, calls, caps, rfl, rfl⟩ := hres.frame
  obtain ⟨iovs, freeIov, nrSegs, rfl⟩ := putPage_frame hput
  obtain ⟨-, hle, heq⟩ := hexact
  simp only [← dropLast_concat_eq_set hlast, getElem?_append] at hle heq
  rw [forall_mem_append, forall_mem_singleton] at hle
  refine ⟨hlaid, forall_mem_append.mpr ⟨hle.1, forall_mem_singleton.mpr hle.2⟩,
    fun t i c hi hc => ?_⟩
  simp only [setLast, getElem?_append] at hc
  split at hc
  · exact heq t i c hi (by rwa [if_pos ‹_›])
  · obtain ⟨hzero, rfl⟩ : i - pp.bufs.dropLast.length = 0 ∧ _ = c := by
      simpa [getElem?_singleton] using hc
    have hsize := heq t i _ hi (by rw [if_neg ‹_›, hzero]; rfl)
    exact hsize

/-- Growing keeps the sizes right if what the last buffer of the type asks for is granted. -/
theorem Exact.grown (hg : Grown k lazyPages flags pp full pp')
    (hgrant : ∀ i b, ppPrevPpb lazyPages pp flags = some i → pp.bufs[i]? = some b → Tight b →
      k.setPipeSize pp.calls (2 * b.pipeSize) ≠ none) : Exact lazyPages pp' := by
  cases hg with
  | reuse hfree => exact nomatch h.laid.roomy.noFree.symm.trans hfree
  | again _ _ _ => exact h
  | pipe _ _ => exact h.withPipeBuf k flags
  | @full i b b' pp1 _ hprev hb hres =>
    exact (h.resize (ppPrevPpb_some hprev).2 hb hres
      (fun _ => hgrant i b hprev hb)).withPipeBuf k flags
  | @share i b b' pp1 _ hprev hb hres =>
    have hexact := h.resize (ppPrevPpb_some hprev).2 hb hres nofun
    have hmem := mem_of_getElem? hb
    have hfits := hres.fits (h.laid.roomy.room b hmem) (h.laid.roomy.pos b hmem)
    have hget := getElem?_set_self (a := b') (List.getElem?_eq_some_iff.mp hb).1
    have hprev := (ppPrevPpb_some hprev).2
    obtain ⟨n, calls, caps, -, rfl⟩ := hres.frame
    exact hexact.append (hexact.laid.share hprev hget hfits _) (hexact.size_eq _ i b' hprev hget)

/-- An attempt that did not take the page, when what it asked for was granted: the sizes are right,
and the last buffer of the type does not ask in vain. -/
theorem Exact.turned (ht : Turned k flags pp pp')
    (hg : Granted k lazyPages pp flags) : Exact lazyPages pp' ∧
      ∀ i b, ppPrevPpb lazyPages pp' flags = some i → pp'.bufs[i]? = some b → Tight b →
        k.setPipeSize pp'.calls (2 * b.pipeSize) ≠ none := by
  cases ht with
  | other hlast hflags => exact ⟨h, fun i b hi hb => hg b ⟨_, hlast, .inr ⟨hflags, i, hi, hb⟩⟩⟩
  | @full b b' pp1 hlast hflags hres =>
    have hget := getLast?_eq_getElem? ▸ hlast
    have hprev := h.laid.last_prev hlast
    have hgrant := hg b (.last hlast hflags)
    have hexact := h.resize hprev hget hres (fun _ => hgrant)
    have htight := not_tight_of_full hres hgrant
    rw [setLast_resized hlast hres]
    refine ⟨hexact, fun i c hi hc ht => ?_⟩
    obtain ⟨n, calls, caps, rfl, rfl⟩ := hres.frame
    have hi' : pp.prev (ppbType lazyPages flags) = some i := (ppPrevPpb_some hi).2
    rw [← hflags, hprev] at hi'
    cases hi'
    rw [getElem?_set_self (List.getElem?_eq_some_iff.mp hget).1] at hc
    exact absurd (Option.some.inj hc ▸ ht) htight

theorem Exact.added (ha : Added k lazyPages addr flags pp full pp')
    (hg : Granted k lazyPages pp flags) : Exact lazyPages pp' := by
  cases ha with
  | last ht => exact h.took ht
  | again ht hgrow =>
    obtain ⟨hexact, hgrant⟩ := h.turned ht hg
    exact hexact.grown hgrow hgrant
  | next ht hgrow htook =>
    obtain ⟨hexact, hgrant⟩ := h.turned ht hg
    exact (hexact.grown hgrow hgrant).took htook

end

def Spoiled (pp : PagePipe) : Prop := ∃ c ∈ pp.bufs, pp.caps c.pipe < c.pipeSize

theorem Spoiled.not_sound (h : Spoiled pp) : ¬ Sound pp := by
  obtain ⟨c, hc, hlt⟩ := h
  exact fun hs => absurd (hs.size c hc) (not_le_of_gt hlt)

/-- A page that goes to a new buffer with room leaves the other buffers and the pipes alone. -/
theorem Spoiled.took_next (ht : Took k addr flags pp pp')
    (hbufs : pp.bufs = l ++ [nb]) (hroom : nb.pagesIn + nb.pipeOff < nb.pipeSize)
    (h : ∃ c ∈ l, pp.caps c.pipe < c.pipeSize) : Spoiled pp' := by
  obtain ⟨c, hc, hlt⟩ := h
  obtain ⟨hlast, -, hres, hput⟩ := ht
  rw [hbufs, getLast?_concat] at hlast
  cases hlast
  cases hres with
  | granted _ hfull _ _ => omega
  | room _ =>
    obtain ⟨iovs, freeIov, nrSegs, rfl⟩ := putPage_frame hput
    refine ⟨c, ?_, hlt⟩
    change c ∈ pp.bufs.dropLast ++ [_]
    rw [hbufs, dropLast_concat]
    exact mem_append_left _ hc

/-- A new pipe does not help a spoiled one. -/
theorem spoiled_withPipe (hlaid : Laid lazyPages pp) (h : Spoiled pp) :
    ∃ c ∈ pp.bufs, (withPipeBuf k lazyPages pp flags).caps c.pipe < c.pipeSize := by
  obtain ⟨c, hc, hlt⟩ := h
  refine ⟨c, hc, ?_⟩
  change update pp.caps pp.nrPipes (k.newPipe pp.calls) c.pipe < c.pipeSize
  rw [update_of_ne (Nat.ne_of_lt (hlaid.pipe_lt hc))]
  exact hlt

/-- A tight buffer that is refused more pages takes its pipe to have PIPE_MAX_SIZE pages. -/
theorem refused_of_tight (htight : Tight b) (hnone : k.setPipeSize pp.calls (2 * b.pipeSize) = none)
    (hres : Resized k pp b full b' pp1) :
    full = true ∧ b' = { b with pipeSize := pipeMaxSize } ∧
      pp1 = { pp with calls := pp.calls + 1 } := by
  obtain ⟨hfull, hmax, hlt⟩ := htight
  cases hres with
  | room _ | limit _ _ => omega
  | refused _ _ _ => exact ⟨rfl, by rw [believed, if_pos hlt], rfl⟩
  | granted _ _ _ hsome =>
    rw [hnone] at hsome
    exact nomatch hsome

theorem resized_of_room (hroom : b.pagesIn + b.pipeOff < b.pipeSize)
    (hres : Resized k pp b full b' pp1) : full = false ∧ b' = b ∧ pp1 = pp := by
  cases hres with
  | room _ => exact ⟨rfl, rfl, rfl⟩
  | _ => omega

/-- The page goes to a new buffer, and the last one before it has room but a wrong size. -/
theorem Spoiled.next {pp2 : PagePipe} {l : PagePipeBuf} (hlaid : Laid lazyPages pp1)
    (h : Spoiled pp1) (hlast : pp1.bufs.getLast? = some l) (hflags : l.flags = flags)
    (hroom : l.pagesIn + l.pipeOff < l.pipeSize) (hgrow : Grown k lazyPages flags pp1 false pp2)
    (htook : Took k addr flags pp2 pp') : Spoiled pp' := by
  have hasked : ∀ i c, ppPrevPpb lazyPages pp1 flags = some i → pp1.bufs[i]? = some c → c = l := by
    intro i c hi hc
    have hprev := hlaid.last_prev hlast
    rw [hflags, (ppPrevPpb_some hi).2] at hprev
    rw [Option.some.inj hprev, ← getLast?_eq_getElem?, hlast] at hc
    exact (Option.some.inj hc).symm
  cases hgrow with
  | reuse hfree => exact nomatch hlaid.roomy.noFree.symm.trans hfree
  | pipe _ _ => exact .took_next htook rfl (k.newPipe_pos _) (spoiled_withPipe hlaid h)
  | full _ hi hc hres =>
    obtain rfl := hasked _ _ hi hc
    exact nomatch (resized_of_room hroom hres).1
  | @share i c c' pp1' _ hi hc hres =>
    obtain rfl := hasked _ _ hi hc
    obtain ⟨-, rfl, rfl⟩ := resized_of_room hroom hres
    refine .took_next htook (congrArg
      (· ++ [newBuf pp1' c'.pipe c'.pipeSize (c'.pagesIn + c'.pipeOff) flags]) (set_same hc)) ?_ h
    change 0 + (c'.pagesIn + c'.pipeOff) < c'.pipeSize
    omega

/-- A call that is refused pages beyond PIPE_MAX_SIZE leaves a buffer with a wrong size. -/
theorem granted_of_sound (h : Exact lazyPages pp) (ha : Added k lazyPages addr flags pp full pp')
    (hs : Sound pp') : Granted k lazyPages pp flags := by
  intro b hask htight hnone
  obtain ⟨l, hlast, ⟨hflags, rfl⟩ | ⟨hflags, i, hprev, hb⟩⟩ := hask
  · -- the last buffer has the flags and is refused; the rest of the call finds room in it
    have hget := getLast?_eq_getElem? ▸ hlast
    have hlow : pp.caps b.pipe < pipeMaxSize :=
      h.size_eq _ _ b (h.laid.last_prev hlast) hget ▸ htight.2.1
    have hturned : ∀ pp1, Turned k flags pp pp1 →
        pp1 = setLast { pp with calls := pp.calls + 1 } { b with pipeSize := pipeMaxSize } := by
      intro pp1 ht
      cases ht with
      | other hlast' hne =>
        exact absurd (Option.some.inj (hlast.symm.trans hlast') ▸ hflags) hne
      | full hlast' _ hres =>
        obtain rfl := Option.some.inj (hlast.symm.trans hlast')
        obtain ⟨-, rfl, rfl⟩ := refused_of_tight htight hnone hres
        rfl
    have hspoiled : Spoiled (setLast { pp with calls := pp.calls + 1 }
        { b with pipeSize := pipeMaxSize }) :=
      ⟨{ b with pipeSize := pipeMaxSize }, mem_append_right _ (by simp), hlow⟩
    cases ha with
    | last ht =>
      obtain ⟨hlast', -, hres, -⟩ := ht
      obtain rfl := Option.some.inj (hlast.symm.trans hlast')
      exact nomatch (refused_of_tight htight hnone hres).1
    | again ht hgrow =>
      cases hgrow with
      | again _ _ _ => exact (hturned _ ht ▸ hspoiled).not_sound hs
    | @next pp1 pp2 _ ht hgrow htook =>
      have hlaid := h.laid.turned ht
      obtain rfl := hturned _ ht
      refine (hspoiled.next hlaid getLast?_concat hflags ?_ hgrow htook).not_sound hs
      have hroom := h.laid.roomy.room b (mem_of_getLast? hlast)
      exact lt_of_le_of_lt hroom htight.2.1
  -- the last buffer of the type is refused, and the page goes to a new pipe
  have hlow : pp.caps b.pipe < pipeMaxSize :=
    h.size_eq _ i b (ppPrevPpb_some hprev).2 hb ▸ htight.2.1
  have hother : ∀ c, pp.bufs.getLast? = some c → c.flags ≠ flags := fun c hc =>
    Option.some.inj (hlast.symm.trans hc) ▸ hflags
  obtain ⟨pp1, hgrow, htook⟩ := ha.grown hother (ppPrevPpb_some hprev).1
  cases hgrow with
  | reuse hfree => exact nomatch h.laid.roomy.noFree.symm.trans hfree
  | pipe _ hnone' => exact nomatch hprev.symm.trans hnone'
  | @full j c c' pp1' _ hj hc hres =>
    obtain rfl := Option.some.inj (hprev.symm.trans hj)
    obtain rfl := Option.some.inj (hb.symm.trans hc)
    have hlaid := h.laid.resize hb hres
    obtain ⟨-, rfl, rfl⟩ := refused_of_tight htight hnone hres
    have hspoiled : Spoiled { pp with
        calls := pp.calls + 1
        bufs := pp.bufs.set i { b with pipeSize := pipeMaxSize } } :=
      ⟨{ b with pipeSize := pipeMaxSize }, mem_set (List.getElem?_eq_some_iff.mp hb).1 _, hlow⟩
    exact (Spoiled.took_next htook rfl (k.newPipe_pos _)
      (spoiled_withPipe hlaid hspoiled)).not_sound hs
  | share _ hj hc hres =>
    obtain rfl := Option.some.inj (hprev.symm.trans hj)
    obtain rfl := Option.some.inj (hb.symm.trans hc)
    exact nomatch (refused_of_tight htight hnone hres).1

theorem freshPipe_exact (k : PipeKernel) (lazyPages : Bool) (nrSegs : ℕ) (iovs : ℕ → Iovec)
    (chunkMode : Bool) : Exact lazyPages (freshPipe k lazyPages nrSegs iovs chunkMode) := by
  have hcap := firstBuf_cap k lazyPages nrSegs iovs chunkMode
  refine ⟨freshPipe_laid .., forall_mem_singleton.mpr (le_of_eq hcap), ?_⟩
  intro t i b _ hb
  rw [mem_singleton.mp (mem_of_getElem? hb)]
  exact hcap

/-- In a run of calls the recorded sizes and the pages fit the pipes throughout exactly if the
kernel grants every request beyond PIPE_MAX_SIZE. -/
theorem capacity_sound_iff (k : PipeKernel) (lazyPages : Bool) (nrSegs : ℕ) (iovs : ℕ → Iovec)
    (chunkMode : Bool) (calls : List (ℕ × ℕ)) :
    (∀ pre post pp, calls = pre ++ post →
      afterCalls k lazyPages nrSegs iovs chunkMode pre = .ok pp → Sound pp) ↔
    ∀ pre c post pp pp', calls = pre ++ c :: post →
      afterCalls k lazyPages nrSegs iovs chunkMode pre = .ok pp →
      addPage k lazyPages pp c = .ok pp' → Granted k lazyPages pp c.2 := by
  simp only [afterCalls_eq]
  refine Run.foldlM_safe_iff (Exact lazyPages) (fun _ h => h.sound) ?_ ?_ (freshPipe_exact ..) calls
  · intro pp c pp' h hadd hc
    obtain ⟨full, ha⟩ := addPage_added hadd
    exact h.added ha hc
  · intro pp c pp' h hadd hs
    obtain ⟨full, ha⟩ := addPage_added hadd
    exact granted_of_sound h ha hs

theorem afterCalls_laid {nrSegs : ℕ} {iovs : ℕ → Iovec} {chunkMode : Bool} {calls : List (ℕ × ℕ)}
    (h : afterCalls k lazyPages nrSegs iovs chunkMode calls = .ok pp) : Laid lazyPages pp := by
  rw [afterCalls_eq] at h
  refine Run.foldlM_ok_invariant (Laid lazyPages) (fun s e t _ hs ht => ?_) (freshPipe_laid ..) h
  obtain ⟨full, ha⟩ := addPage_added ht
  exact hs.added ha

def cappedKernel : PipeKernel where
  newPipe := fun _ => 16
  setPipeSize := fun _ n => if n ≤ 512 then some (2 ^ Nat.clog 2 n) else none
  newPipe_pos := sixteen_pages_pos
  setPipeSize_le := fun _ n r h => by
    split at h
    · exact Option.some.inj h ▸ Nat.le_pow_clog (by decide) n
    · exact nomatch h

/-- The 513th page finds a pipe of 512 pages that cannot grow. The buffer takes it to have 819, and
the next one is put behind it in the same pipe. -/
theorem refused_size_recorded : ∃ pp,
    afterCalls cappedKernel false 513 (fun _ => ⟨0, 0⟩) false
      ((List.range 513).map fun i => (i * pageSize, 0)) = .ok pp ∧ ¬ Sound pp := by
  obtain ⟨pp, hrun, hbad⟩ := Run.exists_ok_of_map
    (f := fun pp => pp.bufs.any fun b => pp.caps b.pipe < b.pipeSize)
    (show (afterCalls cappedKernel false 513 (fun _ => ⟨0, 0⟩) false
      ((List.range 513).map fun i => (i * pageSize, 0))).toOption.map _ = some true by
        decide +kernel)
  obtain ⟨b, hb, hlt⟩ := any_eq_true.mp hbad
  exact ⟨pp, hrun, Spoiled.not_sound ⟨b, hb, of_decide_eq_true hlt⟩⟩

end Capacity

end Criu.PipeSharing

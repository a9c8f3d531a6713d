import Criu.ChunkMode
import Criu.DumpPages

/-!
Filling the pipes (criu/mem.c and criu/pie/parasite.c). For each buffer in turn the dumper
tells the parasite in the task how many iovecs to splice and from which place of the common
array on, which is not where the buffer says its iovecs are but the sum of the counts so
far. The parasite splices them in groups without blocking, and fails if the pipe does not
take all pages.
-/

namespace Criu.ParasiteDrain

open Pagemap ReadCursor PageIo PipeBuffers PipeContents ChunkMode ImageWriter DumpPlan DumpPages
open List

def uioMaxiov : ℕ := 1024

section Drain

variable (mem : ℕ → UInt8)

/-- `vmsplice` with SPLICE_F_NONBLOCK into a pipe of `cap` pages: a full pipe is an error, and
what does not fit is left out. -/
def vmsplice (cap : ℕ) (pipe : List UInt8) (iovs : List Iovec) : Option (ℕ × List UInt8) :=
  let bytes := iovs.flatMap (iovBytes mem)
  let room := cap * pageSize - pipe.length
  if bytes.length = 0 then some (0, pipe)
  else if room = 0 then none
  else some (min bytes.length room, pipe ++ bytes.take room)

/-- `struct parasite_dump_pages_args` as `dump_pages` reads it. -/
structure DumpPagesArgs where
  off : ℕ
  nrSegs : ℕ
  nrPages : ℕ

/-- The loop of `dump_pages`: the iovecs go in groups of `nrSegs`. -/
def spliceLoop (cap : ℕ) (iovs : ℕ → Iovec) (args : DumpPagesArgs) :
    ℕ → ℕ → ℕ → ℕ → List UInt8 → Except Fault (ℕ × List UInt8)
  | 0, _, _, _, _ => .error .hang
  | fuel + 1, off, nrSegs, spliced, pipe =>
      match vmsplice mem cap pipe
          ((List.range nrSegs).map (fun i => iovs (args.off + off + i))) with
      | none => .error .err
      | some (ret, pipe') =>
          if off + nrSegs = args.nrSegs then .ok (spliced + ret, pipe')
          else spliceLoop cap iovs args fuel (off + nrSegs)
            (if args.nrSegs < off + nrSegs + nrSegs then args.nrSegs - (off + nrSegs) else nrSegs)
            (spliced + ret) pipe'

def dumpPages (cap : ℕ) (iovs : ℕ → Iovec) (args : DumpPagesArgs) (pipe : List UInt8) :
    Except Fault (List UInt8) :=
  match spliceLoop mem cap iovs args (args.nrSegs + 1) 0 (min args.nrSegs uioMaxiov) 0 pipe with
  | .error f => .error f
  | .ok (spliced, pipe') => if spliced ≠ args.nrPages * pageSize then .error .err else .ok pipe'

/-- The task's pipes, `args->off`, and for every buffer drained the value of `args->off` and
the place of its iovecs. -/
structure DrainState where
  pipes : ℕ → List UInt8
  off : ℕ
  log : List (ℕ × ℕ)

def drainBufs (pp : PagePipe) : List PagePipeBuf → DrainState → Except Fault DrainState
  | [], st => .ok st
  | ppb :: rest, st =>
      match dumpPages mem (pp.caps ppb.pipe) pp.iovs ⟨st.off, ppb.nrSegs, ppb.pagesIn⟩
          (st.pipes ppb.pipe) with
      | .error f => .error f
      | .ok pipe => drainBufs pp rest
          ⟨Function.update st.pipes ppb.pipe pipe, st.off + ppb.nrSegs,
            st.log ++ [(st.off, ppb.iov)]⟩

def drainPages (pp : PagePipe) (st : DrainState) : Except Fault DrainState :=
  drainBufs mem pp pp.bufs st

end Drain

section Correct

variable {mem : ℕ → UInt8} {args : DumpPagesArgs} {pipe : List UInt8} {iovs : ℕ → Iovec}
  {pp : PagePipe} {cap : ℕ}

theorem vmsplice_ok {iovs : List Iovec}
    (hroom : pipe.length + (iovs.flatMap (iovBytes mem)).length ≤ cap * pageSize) :
    vmsplice mem cap pipe iovs =
      some ((iovs.flatMap (iovBytes mem)).length, pipe ++ iovs.flatMap (iovBytes mem)) := by
  unfold vmsplice
  generalize iovs.flatMap (iovBytes mem) = bytes at hroom
  by_cases hzero : bytes.length = 0
  · have hnil : bytes = [] := length_eq_zero_iff.mp hzero
    simp [hnil]
  · have hfull : cap * pageSize - pipe.length ≠ 0 := by omega
    simp only [if_neg hzero, if_neg hfull]
    rw [Nat.min_eq_left (by omega), take_of_length_le (by omega)]

/-- The iovecs from `off` on that the parasite still has to splice. -/
def remaining (iovs : ℕ → Iovec) (args : DumpPagesArgs) (off : ℕ) : List Iovec :=
  (List.range (args.nrSegs - off)).map (fun i => iovs (args.off + off + i))

theorem remaining_split (iovs : ℕ → Iovec) (args : DumpPagesArgs) {off n : ℕ}
    (h : off + n ≤ args.nrSegs) :
    remaining iovs args off = (List.range n).map (fun i => iovs (args.off + off + i)) ++
      remaining iovs args (off + n) := by
  have hsum : args.nrSegs - off = n + (args.nrSegs - (off + n)) := by omega
  rw [remaining, hsum, range_add, map_append, map_map]
  congr 1
  refine map_congr_left ?_
  intro i _
  simp only [Function.comp_apply]
  congr 1
  omega

theorem spliceLoop_ok (fuel off nrSegs spliced : ℕ) (pipe : List UInt8)
    (hle : off + nrSegs ≤ args.nrSegs) (hpos : 0 < nrSegs ∨ off = args.nrSegs)
    (hfuel : args.nrSegs - off < fuel)
    (hroom : pipe.length + ((remaining iovs args off).flatMap (iovBytes mem)).length ≤ cap *
      pageSize) :
    spliceLoop mem cap iovs args fuel off nrSegs spliced pipe =
      .ok (spliced + ((remaining iovs args off).flatMap (iovBytes mem)).length,
        pipe ++ (remaining iovs args off).flatMap (iovBytes mem)) := by
  induction fuel generalizing off nrSegs spliced pipe with
  | zero => omega
  | succ fuel ih =>
    rw [remaining_split iovs args hle, flatMap_append, length_append] at hroom ⊢
    rw [spliceLoop, vmsplice_ok (by omega)]
    simp only
    by_cases hdone : off + nrSegs = args.nrSegs
    · have hempty : remaining iovs args (off + nrSegs) = [] := by simp [remaining, hdone]
      simp [if_pos hdone, hempty]
    rw [if_neg hdone, ih]
    · simp only [append_assoc, Nat.add_assoc]
    · split <;> omega
    · split <;> omega
    · omega
    · rw [length_append]
      omega

/-- The bytes of whole iovecs are the pages they list. -/
theorem flatMap_iovBytes_length {l : List Iovec} (hw : ∀ s ∈ l, WholePages s) :
    (l.flatMap (iovBytes mem)).length = (l.flatMap iovPages).length * pageSize := by
  induction l with
  | nil => simp
  | cons s l ih =>
    rw [forall_mem_cons] at hw
    obtain ⟨⟨-, n, hn⟩, hl⟩ := hw
    have hpages : s.len = s.len / pageSize * pageSize := by
      rw [hn]
      simp only [pageSize]
      omega
    have hcount : (iovPages s).length = s.len / pageSize := by simp [iovPages]
    rw [flatMap_cons, flatMap_cons, length_append, length_append, ih hl,
      iovBytes_length, Nat.add_mul, hcount, ← hpages]

/-- A buffer whose iovecs are where `args->off` points is drained into its pipe. -/
theorem dumpPages_buf (mem : ℕ → UInt8) {b : PagePipeBuf} (hb : BufOk pp.iovs b)
    (hcap : b.pagesIn ≤ pp.caps b.pipe) :
    dumpPages mem (pp.caps b.pipe) pp.iovs ⟨b.iov, b.nrSegs, b.pagesIn⟩ [] =
      .ok ((segs pp.iovs b).flatMap (iovBytes mem)) := by
  have hsegs : remaining pp.iovs ⟨b.iov, b.nrSegs, b.pagesIn⟩ 0 = segs pp.iovs b := by
    simp [remaining, segs]
  have hlen : ((segs pp.iovs b).flatMap (iovBytes mem)).length = b.pagesIn * pageSize := by
    rw [flatMap_iovBytes_length hb.whole, ← hb.pages]
    simp [bufPages]
  rw [← hsegs] at hlen ⊢
  have hmax : 0 < uioMaxiov := by decide
  have hroom := Nat.mul_le_mul_right pageSize hcap
  rw [dumpPages, spliceLoop_ok _ 0 _ 0 [] (by omega) (by omega) (by omega)
    (by simp only [length_nil]; omega)]
  simp [hlen]

/-- Draining buffers with different, empty pipes that are large enough. -/
theorem drainBufs_ok (mem : ℕ → UInt8) {bufs : List PagePipeBuf} (st : DrainState) {e : ℕ}
    (ht : Tiled st.off bufs e) (hok : ∀ b ∈ bufs, BufOk pp.iovs b)
    (hcap : ∀ b ∈ bufs, b.pagesIn ≤ pp.caps b.pipe ∧ st.pipes b.pipe = [])
    (hnodup : (bufs.map PagePipeBuf.pipe).Nodup) :
    ∃ pipes, drainBufs mem pp bufs st =
        .ok ⟨pipes, e, st.log ++ bufs.map (fun b => (b.iov, b.iov))⟩ ∧
      ∀ p, pipes p = st.pipes p ++ (bufs.filter (fun b => b.pipe == p)).flatMap
        (fun b => (segs pp.iovs b).flatMap (iovBytes mem)) := by
  induction bufs generalizing st with
  | nil =>
    have ht : st.off = e := ht
    exact ⟨st.pipes, by simp [drainBufs, ← ht], by simp⟩
  | cons b bufs ih =>
    obtain ⟨hoff, ht⟩ := ht
    rw [forall_mem_cons] at hok hcap
    rw [map_cons, nodup_cons] at hnodup
    have hother : ∀ c ∈ bufs, c.pipe ≠ b.pipe := by
      intro c hc heq
      exact hnodup.1 (heq ▸ mem_map_of_mem hc)
    obtain ⟨pipes, hrun, hpipes⟩ := ih
      ⟨Function.update st.pipes b.pipe ((segs pp.iovs b).flatMap (iovBytes mem)),
        st.off + b.nrSegs, st.log ++ [(st.off, b.iov)]⟩ ht hok.2 (by
        intro c hc
        refine ⟨(hcap.2 c hc).1, ?_⟩
        simp only
        rw [Function.update_of_ne (hother c hc)]
        exact (hcap.2 c hc).2) hnodup.2
    have hbuf := dumpPages_buf mem hok.1 hcap.1.1
    rw [hoff] at hbuf
    refine ⟨pipes, ?_, ?_⟩
    · simp only [drainBufs, hcap.1.2, hbuf, hrun]
      simp [hoff]
    intro p
    rw [hpipes p]
    by_cases hp : b.pipe = p
    · subst hp
      simp [hcap.1.2]
    · simp [hp, Function.update_of_ne (Ne.symm hp)]

end Correct

end Criu.ParasiteDrain

import Criu.ImageWriter
import Criu.PipeSharing

/-!
Serving pages out of a page pipe (criu/page-pipe.c and criu/page-xfer.c). The dumped pages stay in
the pipes, and a request for some of them is answered by copying the pipe from its start up to the
pages and throwing away what comes before them. So the place of a buffer in a pipe it shares has to
be right, and it must not matter that each request moves the buffer it finds to the head of the
list. A request for pages in a buffer that is not lazy is taken for answered, with no data.
-/

namespace Criu.PipeRead

open Pagemap ReadCursor PageIo PipeBuffers PipeContents PipeCapacity PipeSharing ImageWriter Lanes

variable {iov : Iovec} {len n : ℕ} {ppb : PagePipeBuf} {l : List Iovec} {others : List PagePipeBuf}
open List

/-- How much `tee` and `splice` move at most. -/
structure TeeKernel where
  tee : ℕ → ℕ → ℕ
  splice : ℕ → ℕ → ℕ

/-- The page pipe with what its pipes hold, the pipe of `struct pipe_read_dest`, the number of
system calls, and the pages sent: address, number of pages and data. -/
structure LazyServer where
  pp : PagePipe
  pipes : ℕ → List UInt8
  dest : List UInt8
  calls : ℕ
  sent : List (ℕ × ℕ × List UInt8)

/-- The inner loop of `get_ppb`, with the length of the iovecs passed. -/
def findIov (addr : ℕ) : List Iovec → ℕ → Option (Iovec × ℕ)
  | [], _ => none
  | iov :: rest, len =>
      if addr < iov.base ∨ iov.base + iov.len ≤ addr then findIov addr rest (len + iov.len)
      else some (iov, len + (addr - iov.base))

/-- `get_ppb`: the buffer, its iovec and the length before the address, and the other buffers. -/
def getPpb (iovs : ℕ → Iovec) (addr : ℕ) : List PagePipeBuf →
    Option (PagePipeBuf × Iovec × ℕ × List PagePipeBuf)
  | [] => none
  | ppb :: rest =>
      match findIov addr (segs iovs ppb) 0 with
      | some (iov, len) => some (ppb, iov, len, rest)
      | none =>
          match getPpb iovs addr rest with
          | none => none
          | some (found, iov, len, others) => some (found, iov, len, ppb :: others)

section Model

variable (k : TeeKernel)

/-- `page_pipe_read`: whether it returns 0, the number of pages it leaves, and the state. -/
def pagePipeRead (st : LazyServer) (addr nr flags : ℕ) : Bool × ℕ × LazyServer :=
  match getPpb st.pp.iovs addr st.pp.bufs with
  | none => (true, 0, st)
  | some (ppb, iov, before, others) =>
      let st := { st with pp := { st.pp with bufs := ppb :: others } }
      if ppb.flags &&& flags = 0 then (true, nr, st)
      else
        let len := min (iov.base + iov.len - addr) (nr * pageSize)
        let skip := before + ppb.pipeOff * pageSize
        let pipe := st.pipes ppb.pipe
        let teed := min (k.tee st.calls (len + skip)) (min (len + skip) pipe.length)
        let st := { st with dest := st.dest ++ pipe.take teed, calls := st.calls + 1 }
        if teed ≠ len + skip then (false, len / pageSize, st)
        else
          let moved := min (k.splice st.calls skip) (min skip st.dest.length)
          let st := { st with dest := st.dest.drop moved, calls := st.calls + 1 }
          if moved ≠ skip then (false, len / pageSize, st) else (true, len / pageSize, st)

/-- `page_server_get_pages` for an address and a number of pages; a failure ends the connection. -/
def pageServerGetPages (st : LazyServer) (req : ℕ × ℕ) : Option LazyServer :=
  match pagePipeRead k st req.1 req.2 ppbLazy with
  | (false, _, _) => none
  | (true, nr, st) =>
      if nr = 0 then none
      else
        let len := nr * pageSize
        let moved := min (k.splice st.calls len) (min len st.dest.length)
        if moved ≠ len then none
        else some { st with
          dest := st.dest.drop len
          calls := st.calls + 1
          sent := st.sent ++ [(req.1, nr, st.dest.take len)] }

end Model

def drained (mem : ℕ → UInt8) (pp : PagePipe) : LazyServer := ⟨pp, fillPipes mem pp, [], 0, []⟩

/-- What `page_pipe_read` promises: if it returns 0 and pages, they are in the pipe. -/
def RightPages (mem : ℕ → UInt8) (addr nr : ℕ) (r : Bool × ℕ × LazyServer) : Prop :=
  r.1 = true → r.2.1 ≠ 0 →
    r.2.1 ≤ nr ∧ r.2.2.dest = iovBytes mem ⟨addr, r.2.1 * pageSize⟩

section Contents

variable {k : PipeKernel} {lazyPages : Bool} {pp pp' : PagePipe} {b b' : PagePipeBuf}
  {addr flags start : ℕ} {full : Bool} {pages : List (ℕ × ℕ)}

theorem collected_shift (h : Collected start pages pp) (hs : Shift k lazyPages flags pp pp') :
    Collected start pages pp' := by
  cases hs with
  | resize hb hres => exact h.resized_set hb hres
  | pipe => exact h.append_empty rfl rfl rfl (fun _ hb => hb) rfl rfl rfl (k.newPipe_pos _)
  | share _ _ hroom => exact h.append_empty rfl rfl rfl (fun _ hb => hb) rfl rfl rfl hroom

/-- After a run of calls the page pipe holds pages of the calls. -/
theorem afterCalls_collected {nrSegs : ℕ} {iovs : ℕ → Iovec} {chunkMode : Bool}
    {calls : List (ℕ × ℕ)} (hrun : afterCalls k lazyPages nrSegs iovs chunkMode calls = .ok pp) :
    ∃ pages, Collected 0 pages pp ∧ pages ⊆ calls := by
  rw [afterCalls_eq] at hrun
  refine (Run.foldlM_ok_invariant
    (fun s => Laid lazyPages s ∧ ∃ pages, Collected 0 pages s ∧ pages ⊆ calls)
    (fun s c t hc hs ht => ?_)
    ⟨freshPipe_laid .., [], freshPipe_collected .., nil_subset _⟩ hrun).2
  obtain ⟨hl, pages, hcol, hsub⟩ := hs
  obtain ⟨full, ha⟩ := addPage_added ht
  refine ⟨hl.added ha, ha.rule (P := fun p => ∃ pages, Collected 0 pages p ∧ pages ⊆ calls)
    hl.roomy ?_ ?_ ⟨pages, hcol, hsub⟩⟩
  · rintro p p' ⟨pages, hcol, hsub⟩ hs
    exact ⟨pages, collected_shift hcol hs, hsub⟩
  · rintro p b p' ⟨pages, hcol, hsub⟩ hput
    refine ⟨pages ++ [c], ?_, append_subset.mpr ⟨hsub, cons_subset.mpr ⟨hc, nil_subset _⟩⟩⟩
    have hcol := (putPage_collected k (last_split hput.last) hcol hput.room hput.put).1
    rw [hput.same] at hcol
    exact hcol

end Contents

section Lookup

variable {iovs : ℕ → Iovec} {addr : ℕ} {mem : ℕ → UInt8}

theorem findIov_some (h : findIov addr l n = some (iov, len)) : ∃ pre post, l = pre ++ iov :: post ∧
    iov.base ≤ addr ∧ addr < iov.base + iov.len ∧
    len = n + (pre.map Iovec.len).sum + (addr - iov.base) := by
  induction l generalizing n with
  | nil => exact nomatch h
  | cons x l ih =>
    unfold findIov at h
    split at h
    · obtain ⟨pre, post, rfl, hlo, hhi, hlen⟩ := ih h
      refine ⟨x :: pre, post, rfl, hlo, hhi, ?_⟩
      rw [map_cons, sum_cons]
      omega
    · obtain ⟨rfl, rfl⟩ := Prod.mk.inj (Option.some.inj h)
      exact ⟨[], l, rfl, by omega, by omega, rfl⟩

theorem getPpb_some : ∀ {l : List PagePipeBuf}, getPpb iovs addr l = some (ppb, iov, len, others) →
      (ppb :: others).Perm l ∧ findIov addr (segs iovs ppb) 0 = some (iov, len) := by
  intro l
  induction l generalizing others with
  | nil => exact nofun
  | cons b l ih =>
    intro h
    unfold getPpb at h
    split at h
    · rename_i iov' len' hfind
      cases h
      exact ⟨List.Perm.refl _, hfind⟩
    split at h
    · exact nomatch h
    · rename_i found iov' len' others' hget
      cases h
      obtain ⟨hperm, hfind⟩ := ih hget
      exact ⟨(List.Perm.swap ..).trans (hperm.cons b), hfind⟩

theorem iovBytes_append (mem : ℕ → UInt8) (base m n : ℕ) :
    iovBytes mem ⟨base, m + n⟩ = iovBytes mem ⟨base, m⟩ ++ iovBytes mem ⟨base + m, n⟩ := by
  simp only [iovBytes, range_add, map_append, map_map]
  congr 1
  refine map_congr_left fun i _ => ?_
  simp only [Function.comp, Nat.add_assoc]

theorem length_flatMap_iovBytes (mem : ℕ → UInt8) (l : List Iovec) :
    (l.flatMap (iovBytes mem)).length = (l.map Iovec.len).sum := by
  simp [iovBytes]

/-- The bytes from an address on, in the data of iovecs. -/
theorem drop_flatMap_iovBytes {pre post : List Iovec} (hlo : iov.base ≤ addr)
    (hhi : addr < iov.base + iov.len) :
    ((pre ++ iov :: post).flatMap (iovBytes mem)).drop
        ((pre.map Iovec.len).sum + (addr - iov.base)) =
      iovBytes mem ⟨addr, iov.base + iov.len - addr⟩ ++ post.flatMap (iovBytes mem) := by
  have hsplit : iovBytes mem iov = iovBytes mem ⟨iov.base, addr - iov.base⟩ ++
      iovBytes mem ⟨addr, iov.base + iov.len - addr⟩ := by
    have happ := iovBytes_append mem iov.base (addr - iov.base) (iov.base + iov.len - addr)
    rw [show addr - iov.base + (iov.base + iov.len - addr) = iov.len by omega,
      show iov.base + (addr - iov.base) = addr by omega] at happ
    exact happ
  have hlen : (pre.flatMap (iovBytes mem) ++ iovBytes mem ⟨iov.base, addr - iov.base⟩).length =
      (pre.map Iovec.len).sum + (addr - iov.base) := by
    rw [length_append, length_flatMap_iovBytes, iovBytes, length_map, length_range]
  rw [flatMap_append, flatMap_cons, hsplit, ← append_assoc,
    ← append_assoc, ← hlen, append_assoc (_ ++ _), drop_left]

end Lookup

section Serve

variable {kernel : PipeKernel} {lazyPages : Bool} {pp : PagePipe} {k : TeeKernel}
  {mem : ℕ → UInt8} {pages : List (ℕ × ℕ)} {st st' : LazyServer} {addr nr : ℕ}

theorem iovs_bytes (h : ∀ iov ∈ l, WholePages iov) :
    (l.map Iovec.len).sum = (l.flatMap iovPages).length * pageSize := by
  induction l with
  | nil => simp
  | cons iov l ih =>
    have hrest := ih fun x hx => h x (mem_cons_of_mem _ hx)
    have hiov := Nat.div_mul_cancel (h iov mem_cons_self).2
    rw [map_cons, sum_cons, hrest, flatMap_cons, length_append, Nat.add_mul,
      iovPages, length_map, length_range, hiov]

structure Serving (mem : ℕ → UInt8) (pp : PagePipe) (dest : List UInt8) (st : LazyServer) :
    Prop where
  bufs : st.pp.bufs.Perm pp.bufs
  iovs : st.pp.iovs = pp.iovs
  pipes : st.pipes = fillPipes mem pp
  dest : st.dest = dest

variable (mem) in
theorem fillPipes_drop (hl : Laid lazyPages pp) (hc : Collected 0 pages pp) (hmem : ppb ∈ pp.bufs)
    (hfind : findIov addr (segs pp.iovs ppb) 0 = some (iov, len)) :
    ∃ rest, (fillPipes mem pp ppb.pipe).drop (len + ppb.pipeOff * pageSize) =
      iovBytes mem ⟨addr, iov.base + iov.len - addr⟩ ++ rest := by
  obtain ⟨pre, post, hbufs⟩ := append_of_mem hmem
  obtain ⟨before, after, hsegs, hlo, hhi, hlen⟩ := findIov_some hfind
  have hdrop : (fillPipes mem pp ppb.pipe).drop (ppb.pipeOff * pageSize) = _ :=
    hl.placed.drop_content (fun b => (segs pp.iovs b).flatMap (iovBytes mem)) hbufs fun b hb => by
      rw [length_flatMap_iovBytes, iovs_bytes (hc.bufs b hb).whole, ← (hc.bufs b hb).pages,
        bufPages, length_map]
  rw [Nat.add_comm len, ← drop_drop, hdrop, hlen, Nat.zero_add]
  have hle : (before.map Iovec.len).sum + (addr - iov.base) ≤
      ((segs pp.iovs ppb).flatMap (iovBytes mem)).length := by
    rw [length_flatMap_iovBytes, hsegs, map_append, sum_append, map_cons, sum_cons]
    omega
  rw [drop_append_of_le_length hle, hsegs, drop_flatMap_iovBytes hlo hhi]
  exact ⟨_, append_assoc ..⟩

theorem aligned_iov {b : PagePipeBuf} (hc : Collected 0 pages pp)
    (hpages : ∀ x ∈ pages, pageSize ∣ x.1) (hb : b ∈ pp.bufs) (hiov : iov ∈ segs pp.iovs b) :
    pageSize ∣ iov.base ∧ pageSize ∣ iov.len := by
  have hw := (hc.bufs b hb).whole iov hiov
  refine ⟨?_, hw.2⟩
  have hfirst : iov.base ∈ iovPages iov := by
    have hpos : 0 < iov.len / pageSize := Nat.div_pos (Nat.le_of_dvd hw.1 hw.2) (by decide)
    exact mem_map.mpr ⟨0, mem_range.mpr hpos, by simp⟩
  have hmem : (iov.base, b.flags) ∈ pages := by
    rw [← hc.contents]
    refine mem_flatMap.mpr ⟨b, hb, mem_map.mpr ⟨iov.base, ?_, rfl⟩⟩
    exact mem_flatMap.mpr ⟨iov, hiov, hfirst⟩
  exact hpages _ hmem

theorem take_iovBytes {m : ℕ} (h : m ≤ n) (rest : List UInt8) :
    (iovBytes mem ⟨addr, n⟩ ++ rest).take m = iovBytes mem ⟨addr, m⟩ := by
  obtain ⟨j, rfl⟩ := Nat.exists_eq_add_of_le h
  have hlen : (iovBytes mem ⟨addr, m⟩).length = m := by simp [iovBytes]
  rw [iovBytes_append, append_assoc]
  nth_rewrite 1 [← hlen]
  exact take_left

def Mismatched (st : LazyServer) (addr : ℕ) : Prop :=
  ∃ ppb iov before others, getPpb st.pp.iovs addr st.pp.bufs = some (ppb, iov, before, others) ∧
    ppb.flags &&& ppbLazy = 0

variable (k nr) in
theorem pagePipeRead_mismatched (hs : Serving mem pp [] st) (h : Mismatched st addr) :
    ∃ st', pagePipeRead k st addr nr ppbLazy = (true, nr, st') ∧ Serving mem pp [] st' := by
  obtain ⟨ppb, iov, before, others, hget, hflags⟩ := h
  refine ⟨{ st with pp := { st.pp with bufs := ppb :: others } }, ?_, ?_⟩
  · simp only [pagePipeRead, hget, if_pos hflags]
  · exact ⟨(getPpb_some hget).1.trans hs.bufs, hs.iovs, hs.pipes, hs.dest⟩

def Answers (mem : ℕ → UInt8) (pp : PagePipe) (addr nr : ℕ) (r : Bool × ℕ × LazyServer) : Prop :=
  r.1 = false ∨ r.2.1 ≤ nr ∧ Serving mem pp (iovBytes mem ⟨addr, r.2.1 * pageSize⟩) r.2.2

variable (hl : Laid lazyPages pp) (hc : Collected 0 pages pp) (hpages : ∀ x ∈ pages, pageSize ∣ x.1)
include hl hc hpages

theorem pagePipeRead_lazy {before : ℕ} (hs : Serving mem pp [] st) (haddr : pageSize ∣ addr)
    (hget : getPpb st.pp.iovs addr st.pp.bufs = some (ppb, iov, before, others))
    (hlazy : ppb.flags &&& ppbLazy ≠ 0) :
    Answers mem pp addr nr (pagePipeRead k st addr nr ppbLazy) := by
  obtain ⟨hperm, hfind⟩ := getPpb_some hget
  rw [hs.iovs] at hfind
  have hmem : ppb ∈ pp.bufs := hs.bufs.subset (hperm.subset mem_cons_self)
  obtain ⟨pre, post, hsegs, hlo, hhi, -⟩ := findIov_some hfind
  have hiov : iov ∈ segs pp.iovs ppb := by simp [hsegs]
  obtain ⟨hbase, hlen⟩ := aligned_iov hc hpages hmem hiov
  obtain ⟨rest, hdrop⟩ := fillPipes_drop mem hl hc hmem hfind
  generalize hm : min (iov.base + iov.len - addr) (nr * pageSize) = m
  have hdvd : pageSize ∣ m := by
    rw [← hm, Nat.min_def]
    split
    · exact Nat.dvd_sub (Nat.dvd_add hbase hlen) haddr
    · exact Nat.dvd_mul_left ..
  have hle : m / pageSize ≤ nr := by
    refine Nat.div_le_of_le_mul ?_
    rw [Nat.mul_comm, ← hm]
    exact Nat.min_le_right ..
  unfold pagePipeRead
  simp only [hget, if_neg hlazy, hm]
  split
  · exact .inl rfl
  rename_i hteed
  split
  · exact .inl rfl
  rename_i hmoved
  refine .inr ⟨hle, hperm.trans hs.bufs, hs.iovs, hs.pipes, ?_⟩
  rw [not_not] at hteed hmoved
  rw [hmoved, hteed, hs.dest, hs.pipes, nil_append, drop_take, hdrop,
    Nat.add_sub_cancel, Nat.div_mul_cancel hdvd]
  exact take_iovBytes (hm ▸ Nat.min_le_left ..) rest

variable (k nr) in
theorem pagePipeRead_cases (hs : Serving mem pp [] st) (haddr : pageSize ∣ addr) :
    Mismatched st addr ∨
      ¬ Mismatched st addr ∧ Answers mem pp addr nr (pagePipeRead k st addr nr ppbLazy) := by
  cases hget : getPpb st.pp.iovs addr st.pp.bufs with
  | none =>
    refine .inr ⟨?_, .inr ?_⟩
    · rintro ⟨ppb, iov, before, others, hsome, -⟩
      exact nomatch hget.symm.trans hsome
    · simp only [pagePipeRead, hget]
      exact ⟨Nat.zero_le _, hs⟩
  | some r =>
    obtain ⟨ppb, iov, before, others⟩ := r
    by_cases hflags : ppb.flags &&& ppbLazy = 0
    · exact .inl ⟨ppb, iov, before, others, hget, hflags⟩
    · refine .inr ⟨?_, pagePipeRead_lazy hl hc hpages hs haddr hget hflags⟩
      rintro ⟨ppb', iov', before', others', hsome, hzero⟩
      obtain ⟨rfl, -⟩ := Prod.mk.inj (Option.some.inj (hget.symm.trans hsome))
      exact hflags hzero

/-- A request that is answered leaves the pipes full and the destination empty. -/
theorem pageServerGetPages_serving {req : ℕ × ℕ} (hs : Serving mem pp [] st)
    (haddr : pageSize ∣ req.1) (h : pageServerGetPages k st req = some st') :
    Serving mem pp [] st' := by
  unfold pageServerGetPages at h
  rcases pagePipeRead_cases k req.2 hl hc hpages hs haddr with hno | ⟨-, hfail | hok⟩
  · -- nothing is in the destination, so the splice to the socket is short
    obtain ⟨st1, hread, hs1⟩ := pagePipeRead_mismatched k req.2 hs hno
    rw [hread] at h
    dsimp only at h
    split at h
    · exact nomatch h
    · rename_i hnz
      rw [if_pos] at h
      · exact nomatch h
      · rw [hs1.dest, length_nil, Nat.min_zero, Nat.min_zero]
        exact (Nat.mul_ne_zero hnz (by decide)).symm
  · split at h
    · exact nomatch h
    · rename_i hread
      rw [hread] at hfail
      exact nomatch hfail
  split at h
  · exact nomatch h
  rename_i n st1 hread
  rw [hread] at hok
  obtain ⟨-, hs1⟩ := hok
  split at h
  · exact nomatch h
  dsimp only at h
  split at h
  · exact nomatch h
  · cases h
    refine { hs1 with dest := ?_ }
    rw [hs1.dest]
    simp [iovBytes]

theorem served_serving {reqs : List (ℕ × ℕ)} (hreqs : ∀ r ∈ reqs, pageSize ∣ r.1)
    (hserved : reqs.foldlM (pageServerGetPages k) (drained mem pp) = some st) :
    Serving mem pp [] st := by
  have hstart : Serving mem pp [] (drained mem pp) := ⟨List.Perm.refl _, rfl, rfl, rfl⟩
  have hstep : ∀ s r t, r ∈ reqs → Serving mem pp [] s → pageServerGetPages k s r = some t →
      Serving mem pp [] t ∧ True :=
    fun s r t hr hs ht => ⟨pageServerGetPages_serving hl hc hpages hs (hreqs r hr) ht, trivial⟩
  exact (Run.foldlM_invariant hstep hstart hserved).1

end Serve

/-- After any requests that were answered, a further one leaves the right pages in the pipe exactly
if it asks for none or does not find its page in a buffer that is not lazy. -/
theorem lazy_pages_served_iff (kernel : PipeKernel) (lazyPages : Bool) (nrSegs : ℕ)
    (iovs : ℕ → Iovec) (chunkMode : Bool) (calls : List (ℕ × ℕ)) (pp : PagePipe)
    (hrun : afterCalls kernel lazyPages nrSegs iovs chunkMode calls = .ok pp)
    (hcalls : ∀ c ∈ calls, pageSize ∣ c.1) (mem : ℕ → UInt8) (k : TeeKernel)
    (reqs : List (ℕ × ℕ)) (hreqs : ∀ r ∈ reqs, pageSize ∣ r.1) (st : LazyServer)
    (hserved : reqs.foldlM (pageServerGetPages k) (drained mem pp) = some st) (addr nr : ℕ)
    (haddr : pageSize ∣ addr) :
    RightPages mem addr nr (pagePipeRead k st addr nr ppbLazy) ↔ nr = 0 ∨ ¬ Mismatched st addr := by
  have hl := afterCalls_laid hrun
  obtain ⟨pages, hc, hsub⟩ := afterCalls_collected hrun
  have hpages : ∀ x ∈ pages, pageSize ∣ x.1 := fun x hx => hcalls x (hsub hx)
  have hs := served_serving hl hc hpages hreqs hserved
  rcases pagePipeRead_cases k nr hl hc hpages hs haddr with hno | ⟨hyes, hread⟩
  · obtain ⟨st', hread, hs'⟩ := pagePipeRead_mismatched k nr hs hno
    rw [hread]
    constructor
    · intro hright
      by_contra hnot
      have hnz : nr ≠ 0 := fun h => hnot (.inl h)
      have hdest := (hright rfl hnz).2
      have hlen := congrArg List.length (hs'.dest.symm.trans hdest)
      rw [iovBytes, length_map, length_range] at hlen
      exact Nat.mul_ne_zero hnz (by decide) hlen.symm
    · rintro (rfl | hyes)
      · exact fun _ h => absurd rfl h
      · exact absurd hno hyes
  · refine ⟨fun _ => .inr hyes, fun _ hret _ => ?_⟩
    rcases hread with hfail | ⟨hle, hs'⟩
    · rw [hfail] at hret
      cases hret
    · exact ⟨hle, hs'.dest⟩

def wholeTee : TeeKernel := ⟨fun _ n => n, fun _ n => n⟩

/-- The request for a page of a buffer that is not lazy returns 0 and one page, and no data. -/
theorem plain_page_not_served : ∃ pp,
    afterCalls roundingKernel true 1 (fun _ => ⟨0, 0⟩) false [(0x1000, 0)] = .ok pp ∧
      (pagePipeRead wholeTee (drained (fun _ => 7) pp) 0x1000 1 ppbLazy).1 = true ∧
      (pagePipeRead wholeTee (drained (fun _ => 7) pp) 0x1000 1 ppbLazy).2.1 = 1 ∧
      (pagePipeRead wholeTee (drained (fun _ => 7) pp) 0x1000 1 ppbLazy).2.2.dest = [] ∧
      ¬ RightPages (fun _ => 7) 0x1000 1
        (pagePipeRead wholeTee (drained (fun _ => 7) pp) 0x1000 1 ppbLazy) := by
  refine ⟨_, rfl, rfl, rfl, rfl, fun h => ?_⟩
  have hlen := congrArg List.length (h rfl Nat.one_ne_zero).2
  rw [iovBytes, length_map, length_range] at hlen
  exact nomatch hlen

/-- The two lazy pages share a pipe, and the first of them was asked for before. -/
theorem lazy_page_served : ∃ pp st,
    afterCalls roundingKernel true 3 (fun _ => ⟨0, 0⟩) false
        [(0x1000, ppbLazy), (0x2000, 0), (0x3000, ppbLazy)] = .ok pp ∧
      [(0x1000, 1)].foldlM (pageServerGetPages wholeTee)
        (drained (fun a => UInt8.ofNat (a / pageSize)) pp) = some st ∧
      (pagePipeRead wholeTee st 0x3000 1 ppbLazy).1 = true ∧
      (pagePipeRead wholeTee st 0x3000 1 ppbLazy).2.1 = 1 ∧
      RightPages (fun a => UInt8.ofNat (a / pageSize)) 0x3000 1
        (pagePipeRead wholeTee st 0x3000 1 ppbLazy) := by
  obtain ⟨pp, hpp⟩ : ∃ pp, afterCalls roundingKernel true 3 (fun _ => ⟨0, 0⟩) false
      [(0x1000, ppbLazy), (0x2000, 0), (0x3000, ppbLazy)] = .ok pp := ⟨_, rfl⟩
  obtain ⟨st, hst, heq⟩ := Option.map_eq_some_iff.mp
    (show ([(0x1000, 1)].foldlM (pageServerGetPages wholeTee)
      (drained (fun a => UInt8.ofNat (a / pageSize)) pp)).map (fun st =>
        ((getPpb st.pp.iovs 0x3000 st.pp.bufs).map fun r => r.1.flags,
          (pagePipeRead wholeTee st 0x3000 1 ppbLazy).1,
          (pagePipeRead wholeTee st 0x3000 1 ppbLazy).2.1)) = some (some ppbLazy, true, 1) by
      cases hpp
      decide +kernel)
  obtain ⟨hflags, hret⟩ := Prod.mk.inj heq
  obtain ⟨hret, hnr⟩ := Prod.mk.inj hret
  refine ⟨pp, st, hpp, hst, hret, hnr, (lazy_pages_served_iff roundingKernel true 3
    (fun _ => ⟨0, 0⟩) false _ pp hpp (by decide) _ wholeTee _ (by decide) st hst 0x3000 1
    (by decide)).mpr (.inr ?_)⟩
  rintro ⟨ppb, iov, before, others, hget, hzero⟩
  rw [hget, Option.map_some, Option.some.injEq] at hflags
  rw [hflags] at hzero
  exact absurd hzero (by decide)

end Criu.PipeRead

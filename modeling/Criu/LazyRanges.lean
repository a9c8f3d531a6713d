import Criu.LazyBuffers

/-!
What `collect_iovs` says about the lazy part of a pagemap, when every entry lies inside the
memory areas. The ranges cut the lazy entries at the ends of the areas and lose nothing, so
each is inside one area and one entry, and together they have as many pages as the entries.
The number of pages and the longest range are kept in `int` variables: both are right if and
only if no range has 2 GiB and no more than `INT_MAX` pages are lazy.
-/

namespace Criu.LazyRanges

open Segment Pagemap ReadCursor SnapshotChain IovLists IovTracking LazyDaemon LazyRuns List

variable {vmas : List Vma} {stop start a b : ℕ}
open LazyAddressSpace LazyBuffers

/-- `VmaEntry`s of an image, with a pagemap inside their union. -/
structure Mapped (task : LazyTask) : Prop where
  vmas : task.vmas.Pairwise (fun v w => v.stop ≤ w.start)
  inside : ∀ e ∈ task.pmes, ∀ a, e.vaddr ≤ a → a < e.stop →
    ∃ v ∈ task.vmas, v.start ≤ a ∧ a < v.stop

/-- `nr_pages` when `collect_iovs` returns it. -/
def collectedPages (task : LazyTask) : ℤ :=
  cInt ((task.pmes.filter pagemapLazy).map PagemapEntry.nrPages).sum

def bytes (iovs : List LazyIov) : ℕ := (iovs.map (fun u => u.stop - u.start)).sum

section Sizes

/-- The areas cut a range into pieces that add up, if one ends behind it, and that one is not
passed. -/
theorem collectVmas_whole {w : Vma} (hlt : start < stop) (hw : w ∈ vmas) (hend : stop ≤ w.stop) :
    bytes (collectVmas stop vmas start).1 = stop - start ∧
      w ∈ (collectVmas stop vmas start).2 := by
  induction vmas generalizing start with
  | nil => cases hw
  | cons vma vmas ih =>
    have hrest : vma.stop < stop → w ∈ vmas := by
      intro hpast
      rcases mem_cons.mp hw with rfl | hw
      · omega
      · exact hw
    unfold collectVmas
    split
    · exact ih hlt (hrest (by omega))
    split
    · refine ⟨?_, hw⟩
      simp only [bytes, map_cons, map_nil, sum_cons, sum_nil]
      omega
    · obtain ⟨hsum, hin⟩ := @ih vma.stop (by omega) (hrest (by omega))
      refine ⟨?_, hin⟩
      simp only [bytes, map_cons, sum_cons] at hsum ⊢
      omega

theorem collectEntries_bytes {pmes : List PagemapEntry} (hsorted : SortedMap pmes)
    (hpos : ∀ e ∈ pmes, 0 < e.nrPages) (hend : ∀ e ∈ pmes, ∃ w ∈ vmas, e.stop ≤ w.stop) :
    bytes (collectEntries pmes vmas) =
    ((pmes.filter pagemapLazy).map PagemapEntry.nrPages).sum * pageSize := by
  induction pmes generalizing vmas with
  | nil => exact (Nat.zero_mul _).symm
  | cons pe pmes ih =>
    obtain ⟨hfirst, hsorted⟩ := pairwise_cons.mp hsorted
    obtain ⟨hn, hpos⟩ := forall_mem_cons.mp hpos
    obtain ⟨hpe, hend⟩ := forall_mem_cons.mp hend
    unfold collectEntries
    by_cases hlazy : pagemapLazy pe = true
    · have hlt : pe.vaddr < pe.stop := Nat.lt_add_of_pos_right (Nat.mul_pos hn (by decide))
      have hkept : ∀ e ∈ pmes, ∃ w ∈ (collectVmas pe.stop vmas pe.vaddr).2, e.stop ≤ w.stop := by
        intro e he
        obtain ⟨w, hw, hle⟩ := hend e he
        have hbehind : pe.stop ≤ e.vaddr := hfirst e he
        have hlong : e.vaddr ≤ e.stop := Nat.le_add_right ..
        exact ⟨w, (collectVmas_whole hlt hw (by omega)).2, hle⟩
      obtain ⟨w, hw, hle⟩ := hpe
      obtain ⟨hcut, -⟩ := collectVmas_whole hlt hw hle
      have hrest := ih hsorted hpos hkept
      have hlen : pe.stop - pe.vaddr = pe.nrPages * pageSize := Nat.add_sub_cancel_left ..
      simp only [if_pos hlazy, entryStop, filter_cons_of_pos hlazy, bytes, map_append,
        sum_append, map_cons, sum_cons, Nat.add_mul] at hcut hrest ⊢
      omega
    · rw [if_neg hlazy, filter_cons_of_neg hlazy]
      exact ih hsorted hpos hend

end Sizes

/-- The property: the ranges are the lazy addresses, cut at the areas, and the two numbers are
those of the ranges. -/
def Exact (task : LazyTask) : Prop :=
  ∃ iovs bufSize, collectIovs task = .ok (iovs, bufSize) ∧ Ordered iovs ∧
    (∀ a, (∃ u ∈ iovs, u.start ≤ a ∧ a < u.stop) ↔
      ∃ e ∈ task.pmes, pagemapLazy e = true ∧ e.vaddr ≤ a ∧ a < e.stop) ∧
    (∀ u ∈ iovs, u.start < u.stop ∧ (∃ v ∈ task.vmas, v.start ≤ u.start ∧ u.stop ≤ v.stop) ∧
      ∃ e ∈ task.pmes, pagemapLazy e = true ∧ e.vaddr ≤ u.start ∧ u.stop ≤ e.stop) ∧
    collectedPages task * pageSize = bytes iovs ∧
    (∀ u ∈ iovs, u.stop - u.start ≤ bufSize) ∧
    (bufSize = 0 ∨ ∃ u ∈ iovs, bufSize = u.stop - u.start)

/-- No lazy entry has 2 GiB in one area, and an `int` can say how many pages are lazy. -/
def Countable (task : LazyTask) : Prop :=
  (∀ e ∈ task.pmes, pagemapLazy e = true → ∀ v ∈ task.vmas,
    min e.stop v.stop - max e.vaddr v.start < 2 ^ 31) ∧
  ((task.pmes.filter pagemapLazy).map PagemapEntry.nrPages).sum < 2 ^ 31

section Task

variable {task : LazyTask}

theorem Mapped.ends (h : Mapped task) : ∀ e ∈ task.pmes, ∃ w ∈ task.vmas, e.stop ≤ w.stop := by
  intro e he
  have hpages : 0 < e.nrPages * pageSize := Nat.mul_pos (task.nonempty e he) (by decide)
  have hstop : e.stop = e.vaddr + e.nrPages * pageSize := rfl
  obtain ⟨w, hw, -, hlt⟩ := h.inside e he (e.stop - 1) (by omega) (by omega)
  exact ⟨w, hw, by omega⟩

/-- An area that ends inside a stretch would cut it. -/
theorem Mapped.area (h : Mapped task) (hs : Stretch task.pmes task.vmas a b) :
    ∃ v ∈ task.vmas, v.start ≤ a ∧ b ≤ v.stop := by
  obtain ⟨hab, ⟨e, he, -, hlo, hhi⟩, -, hcut⟩ := hs
  obtain ⟨v, hv, hstart, hstop⟩ := h.inside e he a hlo (by omega)
  rcases hcut v hv with hle | hle
  · omega
  · exact ⟨v, hv, hstart, hle⟩

/-- What an entry and an area share is not cut by another area. -/
theorem Mapped.stretch (h : Mapped task) {e : PagemapEntry} (he : e ∈ task.pmes)
    (hlazy : pagemapLazy e = true) {v : Vma} (hv : v ∈ task.vmas) (hab : a < b)
    (hin : e.vaddr ≤ a ∧ b ≤ e.stop) (hva : v.start ≤ a ∧ b ≤ v.stop) :
    Stretch task.pmes task.vmas a b := by
  refine ⟨hab, ⟨e, he, hlazy, hin⟩, ⟨v, hv, hva.2⟩, ?_⟩
  intro w hw
  obtain ⟨i, hi, rfl⟩ := getElem_of_mem hv
  obtain ⟨j, hj, rfl⟩ := getElem_of_mem hw
  have hp := pairwise_iff_getElem.mp h.vmas
  have hs := pairwise_iff_getElem.mp task.vmaSorted
  rcases Nat.lt_trichotomy i j with hij | rfl | hij
  · have := hs i j hi hj hij
    omega
  · omega
  · have := hp j i hj hi hij
    omega

theorem Mapped.bytes_eq (h : Mapped task) : bytes (collectEntries task.pmes task.vmas) =
    ((task.pmes.filter pagemapLazy).map PagemapEntry.nrPages).sum * pageSize :=
  collectEntries_bytes task.sorted task.nonempty h.ends

theorem Mapped.covered (h : Mapped task) (a : ℕ) :
    (∃ u ∈ collectEntries task.pmes task.vmas, u.start ≤ a ∧ a < u.stop) ↔
      ∃ e ∈ task.pmes, pagemapLazy e = true ∧ e.vaddr ≤ a ∧ a < e.stop := by
  obtain ⟨hsound, hcomplete⟩ := collectIovs_stretches task
  constructor
  · intro hu
    obtain ⟨u, hu, hlo, hhi⟩ := hu
    obtain ⟨-, ⟨e, he, hlazy, hin⟩, -⟩ := hsound u hu
    exact ⟨e, he, hlazy, by omega, by omega⟩
  intro he
  obtain ⟨e, he, hlazy, hlo, hhi⟩ := he
  obtain ⟨v, hv, hva⟩ := h.inside e he a hlo hhi
  obtain ⟨u, hu, hin⟩ := hcomplete a (a + 1)
    (h.stretch he hlazy hv (Nat.lt_succ_self a) ⟨hlo, hhi⟩ hva)
  exact ⟨u, hu, hin.1, hin.2⟩

theorem Countable.exact (hm : Mapped task) (h : Countable task) : Exact task := by
  obtain ⟨hshort, hpages⟩ := h
  obtain ⟨hsound, -⟩ := collectIovs_stretches task
  obtain ⟨hi, hcollected, hentry⟩ := collectEntries_ok task
  have hlens : ∀ n ∈ (collectEntries task.pmes task.vmas).map (fun v => v.stop - v.start),
      n < 2 ^ 31 := by
    intro n hn
    obtain ⟨u, hu, rfl⟩ := mem_map.mp hn
    obtain ⟨v, hv, hva⟩ := hm.area (hsound u hu)
    obtain ⟨e, he, hlazy, hin⟩ := hentry u hu
    have := hshort e he hlazy v hv
    omega
  obtain ⟨k, hk, hall, hmax⟩ := maxIovLen_of_lt _ hlens
  have hret := cInt_of_lt hpages
  refine ⟨_, k, ?_, hcollected.ordered, hm.covered, ?_, ?_, ?_, ?_⟩
  · unfold collectIovs
    simp only [hk]
    exact if_neg (by omega)
  · exact fun u hu => ⟨(hsound u hu).1, hm.area (hsound u hu), hentry u hu⟩
  · rw [collectedPages, hret, hm.bytes_eq, Int.natCast_mul]
  · exact fun u hu => hall _ (mem_map_of_mem hu)
  · rcases hmax with hz | hmem
    · exact .inl hz
    · obtain ⟨u, hu, heq⟩ := mem_map.mp hmem
      exact .inr ⟨u, hu, heq.symm⟩

/-- `collect_iovs` collects exactly the lazy part of the pagemap and counts it right if and
only if the two `int` variables can hold the numbers. -/
theorem collect_iovs_exact_iff (hm : Mapped task) : Exact task ↔ Countable task := by
  refine ⟨?_, Countable.exact hm⟩
  intro h
  obtain ⟨iovs, bufSize, hcol, -, -, -, hret, hfits, -⟩ := h
  obtain ⟨rfl, hbuf, hpos⟩ := collectIovs_entries hcol
  have hlt := maxIovLen_lt ((collectEntries task.pmes task.vmas).map (fun v => v.stop - v.start))
  constructor
  · intro e he hlazy v hv
    by_contra hlong
    have hs : Stretch task.pmes task.vmas (max e.vaddr v.start) (min e.stop v.stop) :=
      hm.stretch he hlazy hv (by omega) (by omega) (by omega)
    obtain ⟨u, hu, hin⟩ := (collectIovs_stretches task).2 _ _ hs
    have := hfits u hu
    omega
  have hhalf := cInt_lt ((task.pmes.filter pagemapLazy).map PagemapEntry.nrPages).sum
  rw [hm.bytes_eq, Int.natCast_mul] at hret
  have hpage : (pageSize : ℤ) ≠ 0 := by decide
  have heq := Int.eq_of_mul_eq_mul_right hpage hret
  rw [collectedPages] at heq
  omega

end Task

theorem three_pages_exact : Mapped threePages ∧ Exact threePages := by
  have hm : Mapped threePages := by
    refine ⟨pairwise_singleton .., ?_⟩
    intro e he a hlo hhi
    obtain rfl := mem_singleton.mp he
    exact ⟨_, mem_singleton_self _, hlo, hhi⟩
  exact ⟨hm, (collect_iovs_exact_iff hm).mpr (by unfold Countable; decide)⟩

def twoGigs : LazyTask where
  pmes := [⟨0x10000, 0x80000, peLazy⟩]
  vmas := [⟨0x10000, 0x80010000⟩]
  sorted := by decide
  aligned := by decide
  nonempty := by decide
  vmaSorted := by simp
  vmaAligned := by decide

/-- `max_iov_len` becomes negative, and no buffer is as large as that number says. -/
theorem two_gigs_not_collected : Mapped twoGigs ∧ collectIovs twoGigs = .error .err ∧
    ¬ Exact twoGigs := by
  have herr : collectIovs twoGigs = .error .err := by decide
  refine ⟨⟨pairwise_singleton .., ?_⟩, herr, ?_⟩
  · intro e he a hlo hhi
    obtain rfl := mem_singleton.mp he
    exact ⟨_, mem_singleton_self _, hlo, hhi⟩
  · intro h
    obtain ⟨iovs, bufSize, hcol, -⟩ := h
    cases hcol

end Criu.LazyRanges

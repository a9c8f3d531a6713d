import Criu.LazyAddressSpace
import Criu.LazyRefs

/-!
Requests, pagemap entries and buffers. `collect_iovs` cuts the lazy entries at the ends of the
memory areas, and the buffer of an lpi is made as large as the longest piece. No later step
makes a range longer or moves it in the image, so every read is inside one entry and fits the
buffer, if the longest piece is: its length is kept in an `int`, and a piece of 2 GiB or more
gets a buffer that is too small.
-/

namespace Criu.LazyBuffers

open Run Segment Pagemap ReadCursor SnapshotChain IovLists IovTracking LazyDaemon LazyState LazyRuns

variable {d : Daemon} {vmas : List Vma} {n nr : ℕ} {e : Event}
open List
open LazyRefs LazyAddressSpace

variable {req : LazyIov} {l : Lpi} {i : ℕ} {clear : Prop}

section Collect

/-- No memory area ends inside `[a, b)`, and one ends behind it. -/
def Unbroken (vmas : List Vma) (a b : ℕ) : Prop :=
  (∃ w ∈ vmas, b ≤ w.stop) ∧ ∀ w ∈ vmas, w.stop ≤ a ∨ b ≤ w.stop

theorem unbroken_append {ws rest : List Vma} {a b : ℕ} (hws : ∀ w ∈ ws, w.stop ≤ a) (hab : a < b) :
    Unbroken (ws ++ rest) a b ↔ Unbroken rest a b := by
  constructor
  · intro h
    obtain ⟨⟨w, hw, hle⟩, hall⟩ := h
    obtain ⟨-, hall⟩ := forall_mem_append.mp hall
    rcases mem_append.mp hw with hw | hw
    · have := hws w hw
      omega
    · exact ⟨⟨w, hw, hle⟩, hall⟩
  · intro h
    obtain ⟨⟨w, hw, hle⟩, hall⟩ := h
    exact ⟨⟨w, mem_append_right _ hw, hle⟩,
      forall_mem_append.mpr ⟨fun w hw => .inl (hws w hw), hall⟩⟩

/-- What `collectVmas` does with the areas. -/
structure Cut (vmas : List Vma) (start stop : ℕ) (r : List LazyIov × List Vma) : Prop where
  unbroken : ∀ u ∈ r.1, start ≤ u.start ∧ u.start < u.stop ∧ u.stop ≤ stop ∧
    Unbroken vmas u.start u.stop
  passed : ∃ ws, vmas = ws ++ r.2 ∧ ∀ w ∈ ws, w.stop ≤ stop
  covers : ∀ a b, start ≤ a → a < b → b ≤ stop → Unbroken vmas a b →
    ∃ u ∈ r.1, u.start ≤ a ∧ b ≤ u.stop

theorem collectVmas_cut {start stop : ℕ}
    (hsorted : vmas.Pairwise (fun a b => a.stop ≤ b.stop)) (hlt : start < stop) :
    Cut vmas start stop (collectVmas stop vmas start) := by
  induction vmas generalizing start with
  | nil =>
    constructor
    · exact nofun
    · exact ⟨[], rfl, nofun⟩
    · intro a b _ _ _ h
      obtain ⟨⟨w, hw, -⟩, -⟩ := h
      exact absurd hw not_mem_nil
  | cons vma vmas ih =>
    obtain ⟨hfirst, hsorted⟩ := pairwise_cons.mp hsorted
    have hskip : ∀ {a b : ℕ}, vma.stop ≤ a → a < b →
        (Unbroken (vma :: vmas) a b ↔ Unbroken vmas a b) := fun hle hab =>
      unbroken_append (forall_mem_singleton.mpr hle) hab
    have hfront : ∀ {a b : ℕ}, b ≤ vma.stop → Unbroken (vma :: vmas) a b := by
      intro a b hle
      refine ⟨⟨vma, mem_cons_self .., hle⟩, forall_mem_cons.mpr ⟨.inr hle, ?_⟩⟩
      exact fun w hw => .inr (le_trans hle (hfirst w hw))
    unfold collectVmas
    split
    · next hpast =>
      obtain ⟨hun, ⟨ws, hws, hstops⟩, hcov⟩ := ih hsorted hlt
      constructor
      · intro u hu
        obtain ⟨hlo, hfill, hhi, h⟩ := hun u hu
        exact ⟨hlo, hfill, hhi, (hskip (by omega) hfill).mpr h⟩
      · exact ⟨vma :: ws, congrArg (vma :: ·) hws, forall_mem_cons.mpr ⟨by omega, hstops⟩⟩
      · intro a b ha hab hb h
        exact hcov a b ha hab hb ((hskip (by omega) hab).mp h)
    simp only
    split
    · next hlast =>
      have hlen : start + (min stop vma.stop - start) = stop := by omega
      rw [hlen]
      constructor
      · exact forall_mem_singleton.mpr ⟨le_refl _, hlt, le_refl _, hfront hlast⟩
      · exact ⟨[], rfl, nofun⟩
      · exact fun a b ha _ hb _ => ⟨_, mem_singleton_self _, ha, hb⟩
    next hmore =>
    have hlen : start + (min stop vma.stop - start) = vma.stop := by omega
    obtain ⟨hun, ⟨ws, hws, hstops⟩, hcov⟩ := @ih vma.stop hsorted (by omega)
    rw [hlen]
    constructor
    · have hpiece : start < vma.stop ∧ vma.stop ≤ stop := by omega
      refine forall_mem_cons.mpr ⟨⟨le_refl _, hpiece.1, hpiece.2, hfront (le_refl _)⟩, ?_⟩
      intro u hu
      obtain ⟨hlo, hfill, hhi, h⟩ := hun u hu
      exact ⟨by omega, hfill, hhi, (hskip hlo hfill).mpr h⟩
    · exact ⟨vma :: ws, congrArg (vma :: ·) hws, forall_mem_cons.mpr ⟨by omega, hstops⟩⟩
    · intro a b ha hab hb h
      rcases h.2 vma mem_cons_self with hle | hle
      · obtain ⟨u, hu, hin⟩ := hcov a b hle hab hb ((hskip hle hab).mp h)
        exact ⟨u, mem_cons_of_mem _ hu, hin⟩
      · exact ⟨_, mem_cons_self .., ha, hle⟩

def Stretch (pmes : List PagemapEntry) (vmas : List Vma) (a b : ℕ) : Prop :=
  a < b ∧ (∃ e ∈ pmes, pagemapLazy e = true ∧ e.vaddr ≤ a ∧ b ≤ e.stop) ∧ Unbroken vmas a b

/-- The ranges of `collect_iovs` are the longest stretches. -/
theorem collectEntries_stretches {ws rest : List Vma} {pmes : List PagemapEntry}
    (hvmas : vmas.Pairwise (fun a b => a.stop ≤ b.stop)) (heq : vmas = ws ++ rest)
    (hsorted : SortedMap pmes) (hpos : ∀ e ∈ pmes, 0 < e.nrPages)
    (hws : ∀ e ∈ pmes, ∀ w ∈ ws, w.stop ≤ e.vaddr) :
    (∀ u ∈ collectEntries pmes rest, Stretch pmes vmas u.start u.stop) ∧
      ∀ a b, Stretch pmes vmas a b → ∃ u ∈ collectEntries pmes rest, u.start ≤ a ∧ b ≤ u.stop := by
  induction pmes generalizing ws rest with
  | nil =>
    refine ⟨nofun, ?_⟩
    intro a b h
    obtain ⟨-, ⟨e, he, -⟩, -⟩ := h
    exact absurd he not_mem_nil
  | cons pe pmes ih =>
    obtain ⟨hfirst, hsorted⟩ := pairwise_cons.mp hsorted
    obtain ⟨hn, hpos⟩ := forall_mem_cons.mp hpos
    obtain ⟨hpe, hws⟩ := forall_mem_cons.mp hws
    have hmono : ∀ {a b : ℕ}, Stretch pmes vmas a b → Stretch (pe :: pmes) vmas a b := by
      intro a b h
      obtain ⟨hab, ⟨e, he, hin⟩, hun⟩ := h
      exact ⟨hab, ⟨e, mem_cons_of_mem _ he, hin⟩, hun⟩
    unfold collectEntries
    split
    · next hlazy =>
      have hlt : pe.vaddr < pe.stop := Nat.lt_add_of_pos_right (Nat.mul_pos hn (by decide))
      obtain ⟨hun, ⟨ws', hws', hstops⟩, hcov⟩ :=
        collectVmas_cut (pairwise_append.mp (heq ▸ hvmas)).2.1 hlt
      obtain ⟨hall, hcov'⟩ := @ih (ws ++ ws') (collectVmas pe.stop rest pe.vaddr).2
        (by rw [heq, append_assoc, ← hws']) hsorted hpos fun e he => forall_mem_append.mpr
          ⟨hws e he, fun w hw => le_trans (hstops w hw) (hfirst e he)⟩
      constructor
      · refine forall_mem_append.mpr ⟨fun u hu => ?_, fun u hu => hmono (hall u hu)⟩
        obtain ⟨hlo, hfill, hhi, h⟩ := hun u hu
        refine ⟨hfill, ⟨pe, mem_cons_self .., hlazy, hlo, hhi⟩, ?_⟩
        rw [heq]
        exact (unbroken_append (fun w hw => le_trans (hpe w hw) hlo) hfill).mpr h
      intro a b h
      obtain ⟨hab, ⟨e, he, hlz, hlo, hhi⟩, hunb⟩ := h
      rcases mem_cons.mp he with rfl | he
      · have hrest := (unbroken_append (fun w hw => le_trans (hpe w hw) hlo) hab).mp (heq ▸ hunb)
        obtain ⟨u, hu, hin⟩ := hcov a b hlo hab hhi hrest
        exact ⟨u, mem_append_left _ hu, hin⟩
      · obtain ⟨u, hu, hin⟩ := hcov' a b ⟨hab, ⟨e, he, hlz, hlo, hhi⟩, hunb⟩
        exact ⟨u, mem_append_right _ hu, hin⟩
    · next hlazy =>
      obtain ⟨hall, hcov⟩ := ih heq hsorted hpos hws
      refine ⟨fun u hu => hmono (hall u hu), ?_⟩
      intro a b h
      obtain ⟨hab, ⟨e, he, hlz, hin⟩, hunb⟩ := h
      rcases mem_cons.mp he with rfl | he
      · exact absurd hlz hlazy
      · exact hcov a b ⟨hab, ⟨e, he, hlz, hin⟩, hunb⟩

theorem collectIovs_stretches (task : LazyTask) :
    (∀ u ∈ collectEntries task.pmes task.vmas, Stretch task.pmes task.vmas u.start u.stop) ∧
      ∀ a b, Stretch task.pmes task.vmas a b →
        ∃ u ∈ collectEntries task.pmes task.vmas, u.start ≤ a ∧ b ≤ u.stop :=
  @collectEntries_stretches _ [] _ _ task.vmaSorted rfl task.sorted task.nonempty nofun

end Collect

section MaxLen

theorem cInt_of_lt (h : n < 2 ^ 31) : cInt n = n := by
  unfold cInt
  rw [Int.bmod_def]
  split_ifs <;> omega

theorem cInt_lt (n : ℕ) : cInt n < (2 ^ 31 : ℕ) := by
  unfold cInt
  rw [Int.bmod_def]
  split_ifs <;> omega

theorem intAsULong_of_lt (h : n < 2 ^ 31) : intAsULong n = n := by
  unfold intAsULong
  omega

theorem maxIovLen_of_lt (lens : List ℕ) (h : ∀ n ∈ lens, n < 2 ^ 31) :
    ∃ k : ℕ, maxIovLen lens = k ∧ (∀ n ∈ lens, n ≤ k) ∧ (k = 0 ∨ k ∈ lens) := by
  have hfold : ∀ k : ℕ, k < 2 ^ 31 → ∃ k' : ℕ,
      lens.foldl (fun m len => if intAsULong m < len then cInt len else m) (k) = k' ∧
        k ≤ k' ∧ (∀ n ∈ lens, n ≤ k') ∧ (k' = k ∨ k' ∈ lens) := by
    induction lens with
    | nil => exact fun k _ => ⟨k, rfl, le_refl _, nofun, .inl rfl⟩
    | cons len lens ih =>
      intro k hk
      obtain ⟨hlen, hlens⟩ := forall_mem_cons.mp h
      rw [foldl_cons, intAsULong_of_lt hk]
      split
      · rw [cInt_of_lt hlen]
        obtain ⟨k', heq, hle, hall, hmem⟩ := ih hlens len hlen
        exact ⟨k', heq, by omega, forall_mem_cons.mpr ⟨hle, hall⟩, .inr (mem_cons.mpr hmem)⟩
      · obtain ⟨k', heq, hle, hall, hmem⟩ := ih hlens k hk
        exact ⟨k', heq, hle, forall_mem_cons.mpr ⟨by omega, hall⟩,
          hmem.imp_right (mem_cons_of_mem _)⟩
  obtain ⟨k, heq, -, hall, hmem⟩ := hfold 0 (by decide)
  exact ⟨k, heq, hall, hmem⟩

theorem maxIovLen_lt (lens : List ℕ) : maxIovLen lens < (2 ^ 31 : ℕ) := by
  have hfold : ∀ m : ℤ, m < (2 ^ 31) →
      lens.foldl (fun m len => if intAsULong m < len then cInt len else m) m < (2 ^ 31) := by
    induction lens with
    | nil => exact fun m hm => hm
    | cons len lens ih =>
      intro m hm
      apply ih
      show (if intAsULong m < len then cInt len else m) < (2 ^ 31)
      split
      · exact cInt_lt len
      · exact hm
  exact hfold 0 (by decide)

end MaxLen

def InEntry (pmes : List PagemapEntry) (v : LazyIov) : Prop :=
  ∃ e ∈ pmes, pagemapLazy e = true ∧ e.vaddr ≤ v.img ∧ v.img + (v.stop - v.start) ≤ e.stop

structure Fits (d : Daemon) : Prop where
  inside : ∀ i, ∀ v ∈ (d.lpi i).iovs ++ (d.lpi i).reqs, InEntry (d.lpi i).pmes v
  small : ∀ i, ∀ v ∈ (d.lpi i).iovs ++ (d.lpi i).reqs, v.stop - v.start ≤ (d.lpi i).bufSize
  reads : ∀ a ∈ d.reads, a.nr * pageSize ≤ (d.lpi a.buf).bufSize

structure Maps (d : Daemon) : Prop where
  sorted : ∀ i, SortedMap (d.lpi i).pmes
  family : ∀ i p, (d.lpi i).parent = some p → (d.lpi p).pmes = (d.lpi i).pmes
  known : ∀ a ∈ d.reads, a.buf < d.count

structure Shrinks (d d' : Daemon) : Prop where
  frame : ∀ j, (d'.lpi j).parent = (d.lpi j).parent ∧ (d'.lpi j).pmes = (d.lpi j).pmes ∧
    (d'.lpi j).bufSize = (d.lpi j).bufSize
  pieces : ∀ j, ∀ u ∈ (d'.lpi j).iovs ++ (d'.lpi j).reqs,
    ∃ v ∈ (d.lpi j).iovs ++ (d.lpi j).reqs, ImgPiece u v

theorem Shrinks.refl (d : Daemon) : Shrinks d d :=
  ⟨fun _ => ⟨rfl, rfl, rfl⟩, fun _ u hu => ⟨u, hu, .refl u⟩⟩

theorem Shrinks.set (hframe : l.parent = (d.lpi i).parent ∧ l.pmes = (d.lpi i).pmes ∧
    l.bufSize = (d.lpi i).bufSize)
    (hpieces : ∀ u ∈ l.iovs ++ l.reqs, ∃ v ∈ (d.lpi i).iovs ++ (d.lpi i).reqs, ImgPiece u v) :
    Shrinks d (setLpi d i l) := by
  constructor
  · exact fun j => setLpi_cases hframe (fun _ _ => ⟨rfl, rfl, rfl⟩) j
  · exact fun j => setLpi_cases hpieces (fun _ _ u hu => ⟨u, hu, .refl u⟩) j

theorem InEntry.piece {pmes : List PagemapEntry} {u v : LazyIov} (h : InEntry pmes v)
    (hp : ImgPiece u v) : InEntry pmes u := by
  obtain ⟨e, he, hlazy, hlo, hhi⟩ := h
  exact ⟨e, he, hlazy, le_trans hlo hp.lo, le_trans hp.hi hhi⟩

theorem fits_shrink {d' : Daemon} (h : Fits d ∧ Maps d) (hs : Shrinks d d')
    (hcount : d'.count = d.count) (hreads : ∀ a ∈ d'.reads, a ∈ d.reads ∨
      a.nr * pageSize ≤ (d.lpi a.buf).bufSize ∧ a.buf < d.count) : Fits d' ∧ Maps d' := by
  obtain ⟨hf, hm⟩ := h
  constructor
  · constructor
    · intro i u hu
      obtain ⟨v, hv, hp⟩ := hs.pieces i u hu
      rw [(hs.frame i).2.1]
      exact (hf.inside i v hv).piece hp
    · intro i u hu
      obtain ⟨v, hv, hlo, hhi⟩ := hs.pieces i u hu
      rw [(hs.frame i).2.2]
      have := hf.small i v hv
      omega
    · intro a ha
      rw [(hs.frame a.buf).2.2]
      exact (hreads a ha).elim (hf.reads a) And.left
  constructor
  · intro i
    rw [(hs.frame i).2.1]
    exact hm.sorted i
  · intro i p hp
    rw [(hs.frame i).1] at hp
    rw [(hs.frame p).2.1, (hs.frame i).2.1]
    exact hm.family i p hp
  · intro a ha
    rw [hcount]
    exact (hreads a ha).elim (hm.known a) And.right

section Steps

variable {d' : Daemon}

theorem shrinks_of_reshaped (hl : Reshaped (d.lpi i) l) : Shrinks d (setLpi d i l) := by
  apply Shrinks.set
  · rw [hl.frame]
    exact ⟨rfl, rfl, rfl⟩
  refine forall_mem_append.mpr ⟨fun u hu => ?_, fun u hu => ?_⟩
  · obtain ⟨v, hv, hp⟩ := hl.iovs u hu
    exact ⟨v, mem_append_left _ hv, hp⟩
  · obtain ⟨v, hv, hp⟩ := hl.reqs u hu
    exact ⟨v, mem_append_right _ hv, hp⟩

theorem shrinks_of_taken (hok : DaemonOk clear d) (hl : Taken (d.lpi i) l req) :
    Shrinks d (setLpi d i l) := by
  apply Shrinks.set
  · rw [hl.frame]
    exact ⟨rfl, rfl, rfl⟩
  · exact imgPiece_of_cut (hl.pieces (hok.lpi i))

theorem shrinks_of_finished (hl : Finished (d.lpi i) l req) : Shrinks d (setLpi d i l) := by
  apply Shrinks.set
  · rw [hl.frame]
    exact ⟨rfl, rfl, rfl⟩
  · exact imgPiece_of_cut hl.pieces

theorem shrinks_of_exit (h : handleExit d i = .ok d') : Shrinks d d' := by
  obtain ⟨-, rfl⟩ := handleExit_ok h
  have hset : Shrinks d (setLpi d i { d.lpi i with iovs := [], reqs := [], exited := true }) :=
    .set ⟨rfl, rfl, rfl⟩ nofun
  exact ⟨hset.frame, hset.pieces⟩

theorem shrinks_of_release (i : ℕ) : Shrinks d (releaseLpi d i) := by
  obtain ⟨lpi, freed, heq, hput⟩ := releaseLpi_frame d i
  rw [heq]
  constructor
  · intro j
    show (lpi j).parent = _ ∧ (lpi j).pmes = _ ∧ (lpi j).bufSize = _
    rw [(hput j).frame]
    exact ⟨rfl, rfl, rfl⟩
  intro j u hu
  exact ⟨u, (hput j).subset.1 hu, .refl u⟩

theorem shrinks_of_requested (hok : DaemonOk clear d) (h : Requested d i d') : Shrinks d d' := by
  obtain ⟨l, req, nr, htaken, -, -, rfl⟩ := h
  have hset := shrinks_of_taken hok htaken
  exact ⟨hset.frame, hset.pieces⟩

/-- A child has the pagemap and the buffer size of the lpi it was forked from. -/
theorem fork_fits (h : Fits d) (hm : Maps d) (hi : i < d.count)
    (hparents : ∀ c p, (d.lpi c).parent = some p → p < d.count) :
    Fits (handleFork d i) ∧ Maps (handleFork d i) := by
  have hchild := forkedLpi_forked d i
  have hroot : (d.lpi ((d.lpi i).parent.getD i)).pmes = (d.lpi i).pmes := by
    cases hp : (d.lpi i).parent with
    | none => rfl
    | some p => exact hm.family i p hp
  have hrootlt : (d.lpi i).parent.getD i < d.count := by
    cases hp : (d.lpi i).parent with
    | none => exact hi
    | some p => exact hparents i p hp
  have hold : ∀ {j}, j ≠ d.count → (handleFork d i).lpi j = _ := handleFork_lpi_of_ne d i
  have hnew := handleFork_lpi_count d i
  have hpmes : (forkedLpi d i).pmes = (d.lpi i).pmes := hroot
  constructor
  · constructor
    · intro j
      by_cases hj : j = d.count
      · rw [hj, hnew, hpmes]
        exact fun v hv => h.inside i v (hchild.subset hv)
      · rw [hold hj]
        exact h.inside j
    · intro j
      by_cases hj : j = d.count
      · rw [hj, hnew]
        exact fun v hv => h.small i v (hchild.subset hv)
      · rw [hold hj]
        exact h.small j
    · intro a ha
      rw [hold (Nat.ne_of_lt (hm.known a ha))]
      exact h.reads a ha
  constructor
  · intro j
    by_cases hj : j = d.count
    · rw [hj, hnew, hpmes]
      exact hm.sorted i
    · rw [hold hj]
      exact hm.sorted j
  · intro j p hp
    by_cases hj : j = d.count
    · rw [hj, hnew] at hp ⊢
      cases hp
      rw [hold (Nat.ne_of_lt hrootlt)]
      rfl
    · rw [hold hj] at hp ⊢
      rw [hold (Nat.ne_of_lt (hparents j p hp))]
      exact hm.family j p hp
  · exact fun a ha => Nat.lt_succ_of_lt (hm.known a ha)

theorem fits_of_shrinks (h : Fits d ∧ Maps d) (hs : Shrinks d d') (hcount : d'.count = d.count)
    (hreads : ∀ a ∈ d'.reads, a ∈ d.reads) : Fits d' ∧ Maps d' :=
  fits_shrink h hs hcount (fun a ha => .inl (hreads a ha))

theorem request_fits (h : Fits d ∧ Maps d) (hok : DaemonOk clear d) (hr : Requested d i d') :
    Fits d' ∧ Maps d' := by
  have hs := shrinks_of_requested hok hr
  obtain ⟨l, req, nr, htaken, -, hlen, rfl⟩ := hr
  apply fits_shrink h hs rfl
  refine forall_mem_append.mpr ⟨fun a ha => .inl ha, forall_mem_singleton.mpr (.inr ?_)⟩
  obtain ⟨v, hv, hlo, hlt, hhi, -⟩ := htaken.piece
  have hsmall := h.1.small i v (mem_append_left _ hv)
  exact ⟨by simp only; omega, hok.known i (hok.linked_of_iovs (ne_nil_of_mem hv))⟩

/-- A read of pages inside one entry passes the bound check. -/
theorem uffdHandlePages_inside {img : ℕ} (hs : SortedMap (d.lpi i).pmes)
    (h : ∃ e ∈ (d.lpi i).pmes, e.vaddr ≤ img ∧ img + nr * pageSize ≤ e.stop) (hnr : 0 < nr) :
    uffdHandlePages d i img nr = .ok { d with reads := d.reads ++ [⟨i, i, img, nr⟩] } := by
  obtain ⟨e, he, hlo, hhi⟩ := h
  have hpos := Nat.mul_pos hnr (show 0 < pageSize by decide)
  have hcov : e.Covers img := ⟨hlo, by omega⟩
  have hready : Ready (openPageRead (d.lpi i).pmes ⟨fun _ => 0, 0⟩) img :=
    .fresh (openPageRead_fresh _ _)
  have hsame := seek_sameFile (openPageRead (d.lpi i).pmes ⟨fun _ => 0, 0⟩) img
  obtain ⟨hfound, pre, e', post, hat, hcov', -⟩ := seekPagemap_found hs hready ⟨e, he, hcov⟩
  have he' : e' ∈ (d.lpi i).pmes := by
    have hpmes : (d.lpi i).pmes = pre ++ e' :: post := hsame.pmes.symm.trans hat.pmes
    rw [hpmes]
    exact mem_append_right _ mem_cons_self
  obtain rfl := covers_unique hs he he' hcov hcov'
  simp only [uffdHandlePages, hfound, hat.pe, boundCheck_false hlo hhi]
  rfl

/-- The request that was taken from `iovs` is made. -/
theorem taken_ok (hf : Fits d) (hm : Maps d) (htaken : Taken (d.lpi i) l req)
    (hnr : 0 < nr) (hlen : req.stop = req.start + nr * pageSize) :
    ∃ d', uffdHandlePages (setLpi d i l) i req.img nr = .ok d' := by
  obtain ⟨v, hv, hp⟩ := htaken.piece
  obtain ⟨e, he, -, hlo, hhi⟩ := (hf.inside i v (mem_append_left _ hv)).piece (.of_piece hp)
  have hpmes : ((setLpi d i l).lpi i).pmes = (d.lpi i).pmes := by rw [setLpi_self, htaken.frame]
  refine ⟨_, uffdHandlePages_inside (hpmes.symm ▸ hm.sorted i) ⟨e, hpmes.symm ▸ he, hlo, ?_⟩ hnr⟩
  omega

theorem handleExit_no_bug (d : Daemon) (i : ℕ) : handleExit d i ≠ .error .bug := by
  unfold handleExit
  split <;> simp

theorem uffdIoComplete_no_bug (d : Daemon) (a : AsyncRead) (nr : ℕ) (ret : UffdRet) :
    uffdIoComplete d a nr ret ≠ .error .bug := by
  unfold uffdIoComplete
  split
  · simp
  cases (d.lpi a.priv).reqs.find? (fun r => r.img = a.img) with
  | none => simp
  | some req =>
    simp only
    split
    · simp
    · cases ret with
      | gone => exact handleExit_no_bug d a.priv
      | done | short _ | failed => simp

theorem xferPages_no_bug (hf : Fits d) (hm : Maps d) (hok : DaemonOk clear d) (i : ℕ) :
    xferPages d i ≠ .error .bug := by
  rcases xferPages_run (hok.lpi i) with heq | ⟨l, req, nr, htaken, hnr, hlen, heq⟩
  · rw [heq]
    simp
  · obtain ⟨d', hd'⟩ := taken_ok hf hm htaken hnr hlen
    rw [heq, hd']
    simp

theorem release_fits (i : ℕ) (h : Fits d ∧ Maps d) :
    Fits (releaseLpi d i) ∧ Maps (releaseLpi d i) := by
  obtain ⟨lpi, freed, heq, -⟩ := releaseLpi_frame d i
  exact fits_of_shrinks h (shrinks_of_release i) (by rw [heq])
    (by rw [heq]; exact fun a ha => ha)

theorem reshape_fits (h : Fits d ∧ Maps d) (hl : Reshaped (d.lpi i) l) :
    Fits (setLpi d i l) ∧ Maps (setLpi d i l) :=
  fits_of_shrinks h (shrinks_of_reshaped hl) rfl (fun _ ha => ha)

theorem exit_fits (h : Fits d ∧ Maps d) (hexit : handleExit d i = .ok d') : Fits d' ∧ Maps d' := by
  have hs := shrinks_of_exit hexit
  obtain ⟨-, rfl⟩ := handleExit_ok hexit
  exact fits_of_shrinks h hs rfl (fun a ha => ha)

theorem step_no_bug (hf : Fits d) (hm : Maps d) (hok : DaemonOk clear d)
    (hdel : Deliverable d e) : step e d ≠ .error .bug := by
  cases e with
  | fault i address ret =>
    show handlePageFault d i address ret ≠ .error .bug
    rcases handlePageFault_run (hok.lpi i) address ret with heq | heq | ⟨l, req, htaken, hlen, heq⟩
    · rw [heq]
      simp
    · rw [heq]
      unfold uffdZero
      cases ret with
      | gone => exact handleExit_no_bug d i
      | done | short _ | failed => simp
    · obtain ⟨d', hd'⟩ := taken_ok hf hm htaken Nat.one_pos hlen
      rw [heq, hd']
      simp
  | remove i start stop ret =>
    cases ret with
    | done | failed => simp [step, handleRemove, Except.map]
    | nomem =>
      cases hexit : handleExit d i with
      | ok d' => simp [step, handleRemove, hexit, Except.map]
      | error f =>
        have hne : f ≠ .bug := fun hf => handleExit_no_bug d i (hf ▸ hexit)
        simp [step, handleRemove, hexit, Except.map, hne]
  | unmap i start stop => simp [step, handleRemove, Except.map]
  | remap | fork | completeForks => simp [step]
  | response nr ret =>
    obtain ⟨a, rest, hreads, -⟩ := hdel
    show pageServerAsyncRead d nr ret ≠ .error .bug
    simp only [pageServerAsyncRead, hreads]
    cases hdone : uffdIoComplete d a nr ret with
    | ok d' => simp
    | error f =>
      exact fun hf => uffdIoComplete_no_bug d a nr ret (hf ▸ hdone)
  | round =>
    refine @roundLoop_rule (fun d => DaemonOk clear d ∧ Fits d ∧ Maps d) (· ≠ .error .bug) ?_
      (fun d i hd _ => xferPages_no_bug hd.2.1 hd.2.2 hd.1 i) (fun d _ => by simp) d.lpis d
      (nodup_append.mp hok.nodup).1 (fun _ hi => hi) ⟨hok, hf, hm⟩
    exact fun d i hd _ hi hr => ⟨hd.1.release hi hr, release_fits i hd.2⟩

theorem answer_fits (h : Fits d ∧ Maps d) {a : AsyncRead} {rest : List AsyncRead}
    (hreads : d.reads = a :: rest) {ret : UffdRet} (ha : Answered d a rest ret d') :
    Fits d' ∧ Maps d' := by
  have hsub : ∀ b ∈ rest, b ∈ d.reads := fun b hb => hreads ▸ mem_cons_of_mem _ hb
  cases ha with
  | nothing _ => exact fits_of_shrinks h ⟨(Shrinks.refl d).frame, (Shrinks.refl d).pieces⟩ rfl hsub
  | exit hexit =>
    have hs := shrinks_of_exit hexit
    obtain ⟨-, rfl⟩ := handleExit_ok hexit
    exact fits_of_shrinks h ⟨hs.frame, hs.pieces⟩ rfl hsub
  | finish _ hfin =>
    have hs := shrinks_of_finished hfin
    exact fits_of_shrinks h ⟨hs.frame, hs.pieces⟩ rfl hsub

theorem next_fits (h : Fits d ∧ Maps d) (hok : DaemonOk clear d) (hrefs : Refs d none)
    (hdel : Deliverable d e) (hstep : step e d = .ok d') : Fits d' ∧ Maps d' := by
  cases step_moved hok hdel hstep with
  | idle => exact h
  | faultExit hexit | removeExit hexit => exact exit_fits h hexit
  | request _ hreq => exact request_fits h hok hreq
  | remove | unmap =>
    exact reshape_fits h (dropped_reshaped (hok.lpi _) _ _)
  | remap => exact reshape_fits h (remapped_reshaped (hok.lpi _) _ _ _)
  | fork hi => exact fork_fits h.1 h.2 hi.1 (fun c p hp => (hrefs.parent c p hp).1)
  | completeForks =>
    exact fits_of_shrinks h ⟨(Shrinks.refl d).frame, (Shrinks.refl d).pieces⟩ rfl (fun a ha => ha)
  | answer hreads ha => exact answer_fits h hreads ha
  | round hstep =>
    exact (@round_rule _ _ (fun d => Fits d ∧ Maps d) _ (fun d i _ h _ _ _ => release_fits i h)
      (fun d i d' hd h hreq => request_fits h hd hreq) hok h hstep).2

end Steps

/-- No unbroken stretch of lazy memory is longer than an `int` can say. -/
def ShortStretches (tasks : List LazyTask) : Prop :=
  ∀ task ∈ tasks, ∀ a b, Stretch task.pmes task.vmas a b → b - a < 2 ^ 31

variable {tasks : List LazyTask}

theorem start_maps (h : startDaemon tasks = .ok d) : Maps d := by
  obtain ⟨-, -, -, -, hreads, -⟩ := startDaemon_ok h
  constructor
  · exact fun i => start_lpi h .nil (fun task _ _ _ => task.sorted) i
  · intro i p
    refine start_lpi h ?_ ?_ i
    · exact fun hp => absurd hp (Option.some_ne_none p).symm
    · exact fun _ _ _ _ hp => absurd hp (Option.some_ne_none p).symm
  · rw [hreads]
    exact nofun

theorem start_fits (hshort : ShortStretches tasks) (h : startDaemon tasks = .ok d) : Fits d := by
  obtain ⟨-, -, -, -, hreads, -⟩ := startDaemon_ok h
  constructor
  · refine fun i => start_lpi h nofun (fun task _ _ _ => ?_) i
    obtain ⟨hi, hcollected, hentry⟩ := collectEntries_ok task
    rw [append_nil]
    intro v hv
    obtain ⟨e, he, hlazy, hlo, hhi⟩ := hentry v hv
    have himg := hcollected.img v hv
    have hfill := (hcollected.bounds v hv).2.1
    exact ⟨e, he, hlazy, by omega, by omega⟩
  · refine fun i => start_lpi h nofun (fun task htask _ hcol => ?_) i
    obtain ⟨-, hbuf, -⟩ := collectIovs_entries hcol
    have hlens : ∀ n ∈ (collectEntries task.pmes task.vmas).map (fun v => v.stop - v.start),
        n < 2 ^ 31 := by
      intro n hn
      obtain ⟨v, hv, rfl⟩ := mem_map.mp hn
      exact hshort task htask _ _ ((collectIovs_stretches task).1 v hv)
    obtain ⟨k, hk, hall, -⟩ := maxIovLen_of_lt _ hlens
    rw [append_nil]
    intro v hv
    rw [hk] at hbuf
    rw [hbuf]
    exact hall _ (mem_map_of_mem hv)
  · rw [hreads]
    exact nofun

theorem Reachable.fits (hshort : ShortStretches tasks)
    {ok : Daemon → Event → Prop} (h : Reachable tasks ok d) : Fits d ∧ Maps d := by
  apply Reach.invariant (fun d hd => ⟨start_fits hshort hd, start_maps hd⟩) _ h
  intro d e d' hr hf _ hstep
  exact next_fits hf (Reachable.daemonOk hr) (Reachable.refs hr) hstep.1 hstep.2

/-- The daemon that has started keeps every range inside one lazy entry and inside the buffer,
never reads beyond the buffer and never hits the BUG, in all states it reaches, exactly if no
unbroken stretch of lazy memory has 2 GiB or more. -/
theorem requests_fit_iff_short {tasks : List LazyTask} {d₀ : Daemon}
    (hstart : startDaemon tasks = .ok d₀) :
    (∀ d, Reachable tasks (fun _ _ => True) d →
      Fits d ∧ ∀ e, Deliverable d e → step e d ≠ .error .bug) ↔ ShortStretches tasks := by
  constructor
  · intro h task htask a b hstretch
    obtain ⟨i, _, ht, iovs, bufSize, hcol, hl⟩ := startDaemon_covers hstart htask
    cases mem_singleton.mp ht
    obtain ⟨rfl, hbuf, hpos⟩ := collectIovs_entries hcol
    obtain ⟨u, hu, hlo, hhi⟩ := (collectIovs_stretches task).2 a b hstretch
    have hsmall := (h d₀ (.start hstart)).1.small i u (by
      rw [hl, append_nil]
      exact hu)
    have hlt := maxIovLen_lt ((collectEntries task.pmes task.vmas).map (fun v => v.stop - v.start))
    rw [hl] at hsmall
    simp only at hsmall
    omega
  · intro hshort d hd
    obtain ⟨hf, hm⟩ := Reachable.fits hshort hd
    exact ⟨hf, fun e hdel => step_no_bug hf hm (Reachable.daemonOk hd) hdel⟩

/-- An lpi with three pages to fetch: they fit, and faults and transfers are served. -/
theorem three_pages_fit : ∃ d₀, startDaemon [threePages] = .ok d₀ ∧
    ∀ d, Reachable [threePages] (fun _ _ => True) d →
      Fits d ∧ ∀ e, Deliverable d e → step e d ≠ .error .bug := by
  have hstart : startDaemon [threePages] = .ok _ := rfl
  refine ⟨_, hstart, (requests_fit_iff_short hstart).mpr ?_⟩
  intro task htask a b h
  obtain rfl := mem_singleton.mp htask
  obtain ⟨-, ⟨e, he, -, hlo, hhi⟩, -⟩ := h
  obtain rfl := mem_singleton.mp he
  simp only [PagemapEntry.stop, pagemapLen, pageSize] at hhi
  omega

def hugeTask : LazyTask where
  pmes := [⟨0x10000, 0x100001, peLazy⟩]
  vmas := [⟨0x10000, 0x100011000⟩]
  sorted := by decide
  aligned := by decide
  nonempty := by decide
  vmaSorted := by simp
  vmaAligned := by decide

/-- Its buffer has one page, and the first transfer reads sixteen. -/
theorem huge_task_overruns_buffer : ∃ d, Reachable [hugeTask] (fun _ _ => True) d ∧
    (d.lpi 0).bufSize = 4096 ∧ ∃ a ∈ d.reads, a.buf = 0 ∧ a.nr * pageSize = 65536 := by
  have hrun : runDaemon (fun _ _ => true) [hugeTask] [.round] = some _ := rfl
  exact ⟨_, Reach.mono (fun _ _ _ => trivial) (runDaemon_reachable hrun), by decide, by decide⟩

end Criu.LazyBuffers

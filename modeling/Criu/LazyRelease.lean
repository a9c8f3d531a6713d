import Criu.LazyAddressSpace
import Criu.LazyRefs

/-!
Releasing lpis while answers are outstanding. An lpi is released when its lists are empty, which
says nothing of the reads that are queued for its page_read and its buffer. They are answered
before the release if tasks are only found gone when nothing else is in flight for them, and if
unmapping leaves them something to wait for: a range that is still to be requested, or a part of
the newest request.
-/

namespace Criu.LazyRelease

open Run Segment Pagemap ReadCursor IovLists IovTracking LazyDaemon LazyState LazyRuns LazyRefs List

variable {d : Daemon} {i : ℕ} {rest : List AsyncRead}
open LazyAddressSpace

variable {a : AsyncRead} {d' : Daemon} {v : LazyIov} {l : Lpi}

def lastRead (i : ℕ) (reads : List AsyncRead) : Option AsyncRead :=
  (reads.filter (fun a => a.priv = i)).getLast?

section LastRead

variable {reads : List AsyncRead}

theorem lastRead_mem (h : lastRead i reads = some a) : a ∈ reads ∧ a.priv = i := by
  have hmem := mem_of_getLast? h
  rw [mem_filter] at hmem
  exact ⟨hmem.1, of_decide_eq_true hmem.2⟩

theorem lastRead_append_other (hi : a.priv ≠ i) : lastRead i (reads ++ [a]) = lastRead i reads := by
  simp [lastRead, hi]

theorem lastRead_cons {z : AsyncRead} (h : lastRead i reads = some z) :
    lastRead i (a :: reads) = some z := by
  unfold lastRead at h ⊢
  rw [filter_cons]
  split
  · rw [getLast?_cons, h]
    rfl
  · exact h

end LastRead

def Reads (a : AsyncRead) (m : ℕ) : Prop := a.img ≤ m ∧ m < a.img + a.nr * pageSize

/-- The dump-time range of `v` and that of the read have no address in common. -/
def Apart (v : LazyIov) (a : AsyncRead) : Prop :=
  v.img + (v.stop - v.start) ≤ a.img ∨ a.img + a.nr * pageSize ≤ v.img

def Within (v : LazyIov) (a : AsyncRead) : Prop :=
  a.img ≤ v.img ∧ v.img + (v.stop - v.start) ≤ a.img + a.nr * pageSize

variable {tasks : List LazyTask} {u : LazyIov}

theorem Apart.piece (h : Apart v a) (hp : ImgPiece u v) : Apart u a := by
  obtain ⟨hlo, hhi⟩ := hp
  unfold Apart at *
  omega

theorem Within.piece (h : Within v a) (hp : ImgPiece u v) : Within u a := by
  obtain ⟨hlo, hhi⟩ := hp
  unfold Within at *
  omega

/-- What is in flight for each lpi. Reads of one lpi are for different pages, none of which is
still to be requested, and a request belongs to one read; the newest read, if all ranges were
requested, still has a request. -/
structure Flight (d : Daemon) : Prop where
  buf : ∀ a ∈ d.reads, a.buf = a.priv ∧ 0 < a.nr
  apart : d.reads.Pairwise (fun a b => a.priv = b.priv →
    a.img + a.nr * pageSize ≤ b.img ∨ b.img + b.nr * pageSize ≤ a.img)
  iovs : ∀ a ∈ d.reads, ∀ v ∈ (d.lpi a.priv).iovs, Apart v a
  reqs : ∀ a ∈ d.reads, ∀ r ∈ (d.lpi a.priv).reqs, Within r a ∨ Apart r a
  alive : ∀ i z, lastRead i d.reads = some z →
    (d.lpi i).iovs ≠ [] ∨ ∃ p ∈ tracked (d.lpi i).reqs, Reads z p.2

/-- Something is left to wait for outside of `[s, e)`: a range to be requested, or a part of a
request that belongs to the read. -/
def LeavesSome (l : Lpi) (z : AsyncRead) (s e : ℕ) : Prop :=
  (∃ v ∈ l.iovs, ¬ (s ≤ v.start ∧ v.stop ≤ e)) ∨
    ∃ r ∈ l.reqs, Within r z ∧ ¬ (s ≤ r.start ∧ r.stop ≤ e)

/-- A range that is not inside has a point outside. -/
theorem point_outside (hv : v.start < v.stop) {s e : ℕ} (h : ¬ (s ≤ v.start ∧ v.stop ≤ e)) :
    ∃ p ∈ iovPoints v, ¬ (s ≤ p.1 ∧ p.1 < e) := by
  by_cases hs : s ≤ v.start
  · refine ⟨(v.stop - 1, v.img + (v.stop - 1 - v.start)), mem_iovPoints.mpr ?_, ?_⟩
    · exact ⟨by omega, by omega, rfl⟩
    · omega
  · refine ⟨(v.start, v.img), mem_iovPoints.mpr ⟨le_refl _, hv, by simp⟩, ?_⟩
    omega

theorem ne_nil_of_tracked {p : ℕ × ℕ} {l : List LazyIov} (h : p ∈ tracked l) : l ≠ [] := by
  rintro rfl
  exact absurd h not_mem_nil

theorem exists_tracked {l : List LazyIov} (hf : Filled l) (hne : l ≠ []) : ∃ p, p ∈ tracked l := by
  obtain ⟨v, hv⟩ := exists_mem_of_ne_nil l hne
  refine ⟨(v.start, v.img), mem_tracked.mpr ⟨v, hv, mem_iovPoints.mpr ?_⟩⟩
  exact ⟨le_refl _, hf v hv, by simp⟩

namespace Flight

section

variable (h : Flight d)
include h

theorem none_of_empty (hi : (d.lpi i).iovs = []) (hr : (d.lpi i).reqs = []) :
    ∀ a ∈ d.reads, a.priv ≠ i := by
  intro a ha hpriv
  obtain ⟨z, hz⟩ : ∃ z, lastRead i d.reads = some z :=
    ⟨_, getLast?_eq_some_getLast (ne_nil_of_mem (mem_filter.mpr ⟨ha, decide_eq_true hpriv⟩))⟩
  rcases h.alive i z hz with hne | ⟨p, hp, -⟩
  · exact hne hi
  · rw [hr] at hp
    exact absurd hp not_mem_nil

theorem set (hiovs : ∀ a ∈ d.reads, a.priv = i → ∀ u ∈ l.iovs, Apart u a)
    (hreqs : ∀ a ∈ d.reads, a.priv = i → ∀ u ∈ l.reqs, Within u a ∨ Apart u a)
    (halive : ∀ z, lastRead i d.reads = some z → l.iovs ≠ [] ∨ ∃ p ∈ tracked l.reqs, Reads z p.2) :
    Flight (setLpi d i l) := by
  constructor
  · exact h.buf
  · exact h.apart
  · intro a ha
    by_cases hi : a.priv = i
    · rw [hi, setLpi_self]
      exact hiovs a ha hi
    · rw [setLpi_of_ne d l hi]
      exact h.iovs a ha
  · intro a ha
    by_cases hi : a.priv = i
    · rw [hi, setLpi_self]
      exact hreqs a ha hi
    · rw [setLpi_of_ne d l hi]
      exact h.reqs a ha
  · exact fun j => setLpi_cases halive (fun j _ => h.alive j) j

/-- Cutting, dropping and moving keep pages apart. -/
theorem reshape (hl : Reshaped (d.lpi i) l)
    (halive : ∀ z, lastRead i d.reads = some z → l.iovs ≠ [] ∨ ∃ p ∈ tracked l.reqs, Reads z p.2) :
    Flight (setLpi d i l) := by
  apply h.set _ _ halive
  · intro a ha hi u hu
    obtain ⟨v, hv, hpiece⟩ := hl.iovs u hu
    exact (h.iovs a ha v (hi ▸ hv)).piece hpiece
  · intro a ha hi u hu
    obtain ⟨v, hv, hpiece⟩ := hl.reqs u hu
    rcases h.reqs a ha v (hi ▸ hv) with hin | hout
    · exact .inl (hin.piece hpiece)
    · exact .inr (hout.piece hpiece)

/-- Only the reads change, and some are gone that no list knows of. -/
theorem answered (hreads : d.reads = a :: rest) : Flight { d with reads := rest } := by
  have hmem : ∀ b ∈ rest, b ∈ d.reads := fun b hb => hreads ▸ mem_cons_of_mem _ hb
  constructor
  · exact fun b hb => h.buf b (hmem b hb)
  · exact (pairwise_cons.mp (hreads ▸ h.apart)).2
  · exact fun b hb => h.iovs b (hmem b hb)
  · exact fun b hb => h.reqs b (hmem b hb)
  · exact fun i z hz => h.alive i z (hreads ▸ lastRead_cons hz)

theorem request (hok : DaemonOk True d) (hr : Requested d i d') : Flight d' := by
  obtain ⟨l, req, nr, htaken, hnr, hlen, hd'⟩ := hr
  have hl := htaken.ok (hok.lpi i)
  have hself : d'.lpi i = l := by
    rw [hd']
    exact setLpi_self ..
  have hother : ∀ j, j ≠ i → d'.lpi j = d.lpi j := by
    intro j hj
    rw [hd']
    exact setLpi_of_ne d l hj
  have hreads : d'.reads = d.reads ++ [⟨i, i, req.img, nr⟩] := by rw [hd']
  have hcases : ∀ a ∈ d'.reads, a ∈ d.reads ∨ a = ⟨i, i, req.img, nr⟩ := by
    intro a ha
    rw [hreads] at ha
    exact (mem_append.mp ha).imp id mem_singleton.mp
  obtain ⟨iov, hiov, hpiece⟩ := htaken.piece
  have hmem : req ∈ l.reqs := htaken.reqs ▸ mem_cons_self ..
  -- the new read has exactly the pages of the request
  have hnew : ∀ v ∈ l.iovs ++ l.reqs, v ≠ req → Apart v ⟨i, i, req.img, nr⟩ := by
    intro v hv hne
    have hboth := @Pairwise.forall _ _ _ ⟨fun _ _ => Or.symm⟩
      (img_apart_of_injective (hl.inj trivial) hl.filled) _ hv _ (mem_append_right _ hmem) hne
    unfold Apart
    simp only
    omega
  have hold : ∀ a ∈ d.reads, a.priv = i → Apart req a := by
    intro a ha hpriv
    exact (h.iovs a ha iov (hpriv ▸ hiov)).piece (.of_piece hpiece)
  have hnotiov : ∀ u ∈ l.iovs, u ≠ req := by
    intro u hu heq
    obtain ⟨-, -, hcross⟩ := pairwise_append.mp (apart_of_injective (hl.inj trivial) hl.filled)
    have := hcross req (heq ▸ hu) req hmem
    have := hpiece.lt
    omega
  constructor
  · rw [hreads]
    exact forall_mem_append.mpr ⟨h.buf, forall_mem_singleton.mpr ⟨rfl, hnr⟩⟩
  · rw [hreads]
    apply pairwise_append.mpr
    refine ⟨h.apart, pairwise_singleton .., ?_⟩
    intro a ha b hb hpriv
    obtain rfl := mem_singleton.mp hb
    have := hold a ha hpriv
    unfold Apart at this
    simp only
    omega
  · intro a ha u hu
    rcases hcases a ha with ha | rfl
    · by_cases hi : a.priv = i
      · rw [hi, hself] at hu
        obtain ⟨v, hv, hp⟩ := htaken.cut u hu
        exact (h.iovs a ha v (hi ▸ hv)).piece (.of_piece hp)
      · rw [hother _ hi] at hu
        exact h.iovs a ha u hu
    · rw [hself] at hu
      exact hnew u (mem_append_left _ hu) (hnotiov u hu)
  · intro a ha u hu
    rcases hcases a ha with ha | rfl
    · by_cases hi : a.priv = i
      · rw [hi, hself, htaken.reqs] at hu
        rcases mem_cons.mp hu with rfl | hu
        · exact .inr (hold a ha hi)
        · exact h.reqs a ha u (hi ▸ hu)
      · rw [hother _ hi] at hu
        exact h.reqs a ha u hu
    · rw [hself] at hu
      by_cases heq : u = req
      · rw [heq]
        exact .inl ⟨le_refl _, by simp only; omega⟩
      · exact .inr (hnew u (mem_append_right _ hu) heq)
  · intro j z hz
    rw [hreads] at hz
    by_cases hj : j = i
    · have hlast : lastRead i (d.reads ++ [⟨i, i, req.img, nr⟩]) =
          some ⟨i, i, req.img, nr⟩ := by simp [lastRead]
      rw [hj, hlast] at hz
      cases hz
      rw [hj, hself]
      refine .inr ⟨(req.start, req.img), mem_tracked.mpr ⟨req, hmem, ?_⟩, ?_⟩
      · exact mem_iovPoints.mpr ⟨le_refl _, hpiece.lt, by simp⟩
      · exact ⟨le_refl _, Nat.lt_add_of_pos_right (Nat.mul_pos hnr (by decide))⟩
    · rw [lastRead_append_other (Ne.symm hj)] at hz
      rw [hother j hj]
      exact h.alive j z hz

/-- A task that is gone, when no read of it is left. -/
theorem exit (hexit : handleExit d i = .ok d') (hnone : ∀ a ∈ d.reads, a.priv ≠ i) : Flight d' := by
  obtain ⟨-, rfl⟩ := handleExit_ok hexit
  have hset := h.set (l := { d.lpi i with iovs := [], reqs := [], exited := true })
    (fun a ha hi => absurd hi (hnone a ha)) (fun a ha hi => absurd hi (hnone a ha))
    (fun z hz => absurd (lastRead_mem hz).2 (hnone z (lastRead_mem hz).1))
  exact { hset with }

theorem finish (hok : DaemonOk True d) (hreads : d.reads = a :: rest)
    {req : LazyIov} (himg : req.img = a.img) (hfin : Finished (d.lpi a.priv) l req) :
    Flight { setLpi d a.priv l with reads := rest } := by
  have ha : a ∈ d.reads := hreads ▸ mem_cons_self ..
  have hl := hok.lpi a.priv
  have hmem := hfin.mem
  have hfirst := (pairwise_cons.mp (hreads ▸ h.apart)).1
  -- the request has pages of this read only
  have hwithin : Within req a := by
    have hfilled := (hok.lpi a.priv).reqs_filled req hmem
    have hpos := Nat.mul_pos (h.buf a ha).2 (show 0 < pageSize by decide)
    rcases h.reqs a ha req hmem with hin | hout
    · exact hin
    · unfold Apart at hout
      omega
  have hreq : ∀ b ∈ rest, b.priv = a.priv → Apart req b := by
    intro b hb hpriv
    have := hfirst b hb hpriv.symm
    unfold Within at hwithin
    unfold Apart
    omega
  have hrest := h.answered hreads
  apply hrest.set
  · intro b hb hpriv u hu
    obtain ⟨v, hv, hpiece⟩ := hfin.iovs hl u hu
    apply Apart.piece _ (ImgPiece.of_piece hpiece)
    rcases mem_cons.mp hv with rfl | hv
    · exact hreq b hb hpriv
    · exact hrest.iovs b hb v (hpriv ▸ hv)
  · intro b hb hpriv u hu
    exact hrest.reqs b hb u (hpriv ▸ (hfin.reqs hl).mem_iff.mpr (mem_cons_of_mem _ hu))
  intro z hz
  obtain ⟨hzin, hzpriv⟩ := lastRead_mem hz
  rcases hrest.alive a.priv z hz with hne | ⟨p, hp, hread⟩
  · left
    obtain ⟨p, hp⟩ := exists_tracked (hok.lpi a.priv).iovs_filled hne
    exact ne_nil_of_tracked (hfin.kept hl p hp)
  right
  have hsplit := (tracked_perm (hfin.reqs hl)).mem_iff.mp hp
  rcases mem_append.mp hsplit with hpr | hp
  · have hap := hreq z hzin hzpriv
    have := mem_iovPoints.mp hpr
    obtain ⟨h₁, h₂⟩ := hread
    unfold Apart at hap
    omega
  · exact ⟨p, hp, hread⟩

theorem drop (hok : DaemonOk True d) {start len : ℕ}
    (hleave : ∀ z, lastRead i d.reads = some z →
      LeavesSome (d.lpi i) z start (start + intLen len)) :
    Flight (dropLpi d i start len) := by
  have hl := hok.lpi i
  apply h.reshape (dropped_reshaped hl _ _)
  intro z hz
  rcases hleave z hz with ⟨v, hv, hout⟩ | ⟨r, hr, hin, hout⟩
  · left
    obtain ⟨p, hp, hpout⟩ := point_outside (hl.iovs_filled v hv) hout
    exact ne_nil_of_tracked
      (dropIovs_keeps hl.iovs_filled (mem_tracked.mpr ⟨v, hv, hp⟩) hpout)
  right
  obtain ⟨p, hp, hpout⟩ := point_outside (hl.reqs_filled r hr) hout
  refine ⟨p, dropIovs_keeps hl.reqs_filled (mem_tracked.mpr ⟨r, hr, hp⟩) hpout, ?_⟩
  have := mem_iovPoints.mp hp
  unfold Within at hin
  unfold Reads
  omega

theorem remap (hok : DaemonOk True d) {src dst len : ℕ}
    (hfree : Untracked (d.lpi i) dst (dst + len)) : Flight (handleRemap d i src dst len) := by
  have hl := hok.lpi i
  obtain ⟨hpi, hpr⟩ := untracked_points hfree
  obtain ⟨iovs', ms, hi, hmi, -⟩ := remapIovs_ok hl.iovs_filled src hpi
  obtain ⟨reqs', ms', hr, hmr, -⟩ := remapIovs_ok hl.reqs_filled src hpr
  apply h.reshape (remapped_reshaped hl src dst len)
  rw [Lpi.remap, hi, hr]
  intro z hz
  rcases h.alive i z hz with hne | ⟨p, hp, hread⟩
  · left
    obtain ⟨p, hp⟩ := exists_tracked hl.iovs_filled hne
    obtain ⟨q, hq, -⟩ := hmi.value_kept hp
    exact ne_nil_of_tracked hq
  · right
    obtain ⟨q, hq, hval⟩ := hmr.value_kept hp
    exact ⟨q, hq, hval ▸ hread⟩

theorem release (hok : DaemonOk True d) (hrefs : Refs d none) (hlink : i ∈ d.lpis)
    (hi : (d.lpi i).iovs = []) (hr : (d.lpi i).reqs = []) : Flight (releaseLpi d i) := by
  have hlists := releaseLpi_lists hok hrefs hlink hi hr
  obtain ⟨lpi, freed, heq, -⟩ := releaseLpi_frame d i
  have hreads : (releaseLpi d i).reads = d.reads := by rw [heq]
  constructor
  · rw [hreads]
    exact h.buf
  · rw [hreads]
    exact h.apart
  · intro a ha
    rw [(hlists a.priv).1]
    exact h.iovs a (hreads ▸ ha)
  · intro a ha
    rw [(hlists a.priv).2]
    exact h.reqs a (hreads ▸ ha)
  · intro j z hz
    rw [(hlists j).1, (hlists j).2]
    exact h.alive j z (hreads ▸ hz)

theorem fork (hok : DaemonOk True d) (i : ℕ) : Flight (handleFork d i) := by
  have hfresh := hok.idle d.count (fun hin => absurd (hok.known _ hin) (lt_irrefl _))
  have hnone := h.none_of_empty hfresh.1 hfresh.2
  constructor
  · exact h.buf
  · exact h.apart
  · intro a ha
    rw [handleFork_lpi_of_ne d i (hnone a ha)]
    exact h.iovs a ha
  · intro a ha
    rw [handleFork_lpi_of_ne d i (hnone a ha)]
    exact h.reqs a ha
  · intro j z hz
    have hmem := lastRead_mem hz
    rw [handleFork_lpi_of_ne d i (hmem.2 ▸ hnone z hmem.1)]
    exact h.alive j z hz

end

theorem start (hd : startDaemon tasks = .ok d) : Flight d := by
  obtain ⟨-, -, -, -, hreads, -⟩ := startDaemon_ok hd
  constructor <;> simp [hreads, lastRead]

end Flight

/-- An event that leaves every lpi with outstanding reads something to wait for. A REMAP goes to
where nothing is tracked. -/
def KeepsAwaited (d : Daemon) : Event → Prop
  | .fault i _ .gone | .remove i _ _ .nomem => ∀ a ∈ d.reads, a.priv ≠ i
  | .remove i start stop .done | .unmap i start stop =>
      ∀ z ∈ lastRead i d.reads, LeavesSome (d.lpi i) z start (start + intLen (stop - start))
  | .response _ .gone => ∀ a ∈ d.reads.head?, ∀ b ∈ d.reads.tail, b.priv ≠ a.priv
  | .remap i _ dst len => Untracked (d.lpi i) dst (dst + len)
  | _ => True

theorem Flight.next (h : Flight d) (hok : DaemonOk True d) (hrefs : Refs d none) {e : Event}
    (hkeep : KeepsAwaited d e) (hdel : Deliverable d e) (hstep : step e d = .ok d') :
    Flight d' := by
  cases step_moved hok hdel hstep with
  | idle => exact h
  | faultExit hexit | removeExit hexit => exact h.exit hexit hkeep
  | request _ hreq => exact h.request hok hreq
  | remove | unmap => exact h.drop hok hkeep
  | remap => exact h.remap hok hkeep
  | fork _ => exact h.fork hok _
  | completeForks => exact { h with }
  | @answer _ _ _ a rest hreads ha =>
    cases ha with
    | nothing _ => exact h.answered hreads
    | exit hexit =>
      have hrest : ∀ b ∈ rest, b.priv ≠ a.priv := by
        simp only [KeepsAwaited, hreads] at hkeep
        exact hkeep a rfl
      have hexit' : ∀ d₁, handleExit d a.priv = .ok d₁ →
          handleExit { d with reads := rest } a.priv = .ok { d₁ with reads := rest } := by
        intro d₁ hd₁
        obtain ⟨hin, rfl⟩ := handleExit_ok hd₁
        exact if_pos hin
      exact (h.answered hreads).exit (hexit' _ hexit) hrest
    | finish himg hfin => exact h.finish hok hreads himg hfin
  | round hstep =>
    have hrule := @round_rule _ _ (fun d => Refs d none ∧ Flight d) _
      (fun d i hd h hlink hi hr => ⟨h.1.release hd hlink, h.2.release hd h.1 hlink hi hr⟩)
      (fun d i d' hok h hreq => ⟨h.1.request hreq, h.2.request hok hreq⟩) hok ⟨hrefs, h⟩ hstep
    exact hrule.2.2

theorem Reachable.awaitedOk (h : Reachable tasks KeepsAwaited d) : DaemonOk True d := by
  refine Reachable.clearOk h fun d e he => ?_
  cases e with
  | remap => exact he
  | _ => trivial

theorem Reachable.flight (h : Reachable tasks KeepsAwaited d) : Flight d := by
  apply Reach.invariant (fun d hd => Flight.start hd) _ h
  intro d e d' hr hf hkeep hstep
  exact hf.next (Reachable.awaitedOk hr) (Reachable.refs hr) hkeep hstep.1 hstep.2

/-- In every run that keeps what is awaited, no lpi is freed while a read of it, or into its
buffer, is outstanding. -/
theorem freed_without_reads {tasks : List LazyTask} {d : Daemon}
    (h : Reachable tasks KeepsAwaited d) {i : ℕ} (hi : d.freed i = true) :
    ∀ a ∈ d.reads, a.priv ≠ i ∧ a.buf ≠ i := by
  have hflight := Reachable.flight h
  have hout := (Reachable.refs h).freed_unlinked hi
  obtain ⟨hiovs, hreqs⟩ := (Reachable.daemonOk h).idle i hout
  intro a ha
  have hpriv := hflight.none_of_empty hiovs hreqs a ha
  exact ⟨hpriv, (hflight.buf a ha).1 ▸ hpriv⟩

instance (v : LazyIov) (a : AsyncRead) : Decidable (Within v a) :=
  inferInstanceAs (Decidable (a.img ≤ v.img ∧
    v.img + (v.stop - v.start) ≤ a.img + a.nr * pageSize))

instance (l : Lpi) (z : AsyncRead) (s e : ℕ) : Decidable (LeavesSome l z s e) :=
  inferInstanceAs (Decidable ((∃ v ∈ l.iovs, ¬ (s ≤ v.start ∧ v.stop ≤ e)) ∨
    ∃ r ∈ l.reqs, Within r z ∧ ¬ (s ≤ r.start ∧ r.stop ≤ e)))

instance (d : Daemon) (e : Event) : Decidable (KeepsAwaited d e) :=
  match e with
  | .fault i _ .gone | .remove i _ _ .nomem =>
      inferInstanceAs (Decidable (∀ a ∈ d.reads, a.priv ≠ i))
  | .remove i start stop .done | .unmap i start stop =>
      inferInstanceAs (Decidable (∀ z ∈ lastRead i d.reads,
        LeavesSome (d.lpi i) z start (start + intLen (stop - start))))
  | .response _ .gone =>
      inferInstanceAs (Decidable (∀ a ∈ d.reads.head?, ∀ b ∈ d.reads.tail, b.priv ≠ a.priv))
  | .remap i _ dst len => inferInstanceAs (Decidable (Untracked (d.lpi i) dst (dst + len)))
  | .fault _ _ .done | .fault _ _ (.short _) | .fault _ _ .failed | .remove _ _ _ .failed
  | .response _ .done | .response _ (.short _) | .response _ .failed | .fork _ | .completeForks
  | .round => inferInstanceAs (Decidable True)

/-- All pages are requested, one is unmapped, the answer comes, and the lpi is freed. -/
theorem freed_after_answer : ∃ d, Reachable [threePages] KeepsAwaited d ∧ d.freed 0 = true ∧
    ∀ a ∈ d.reads, a.priv ≠ 0 ∧ a.buf ≠ 0 := by
  have hrun : runDaemon (fun d e => decide (KeepsAwaited d e)) [threePages]
      [.round, .unmap 0 0x12000 0x13000, .response 3 .done, .round] = some _ := rfl
  have hreach : Reachable [threePages] KeepsAwaited _ :=
    Reach.mono (fun _ _ h => of_decide_eq_true h) (runDaemon_reachable hrun)
  exact ⟨_, hreach, rfl, freed_without_reads hreach rfl⟩

/-- All pages are requested, then a REMOVE finds the task gone: the next round frees the lpi
while the read is outstanding. -/
theorem freed_with_read_in_flight : ∃ d, Reachable [threePages] (fun _ _ => True) d ∧
    d.freed 0 = true ∧ ∃ a ∈ d.reads, a.priv = 0 ∧ a.buf = 0 := by
  have hrun : runDaemon (fun _ _ => true) [threePages]
      [.round, .remove 0 0x10000 0x11000 .nomem, .round] = some _ := rfl
  exact ⟨_, Reach.mono (fun _ _ _ => trivial) (runDaemon_reachable hrun), rfl, by decide⟩

/-- In every run, an lpi is freed exactly when it is in no list and each of its children is freed.
Then it has nothing left to fetch. -/
theorem freed_iff_unreferenced {tasks : List LazyTask} {ok : Daemon → Event → Prop} {d : Daemon}
    (h : Reachable tasks ok d) {i : ℕ} (hi : i < d.count) :
    (d.freed i = true ↔ i ∉ d.lpis ++ d.pending ∧
      ∀ c < d.count, (d.lpi c).parent = some i → d.freed c = true) ∧
    (d.freed i = true → (d.lpi i).iovs = [] ∧ (d.lpi i).reqs = []) := by
  have hrefs := Reachable.refs h
  refine ⟨⟨fun hf => ⟨hrefs.freed_unlinked hf, fun c hc hp => ?_⟩, ?_⟩, fun hf =>
    (Reachable.daemonOk h).idle i (hrefs.freed_unlinked hf)⟩
  · by_contra hlive
    have := hrefs.parent_live hc hp (Bool.eq_false_of_not_eq_true hlive)
    simp [hf] at this
  · rintro ⟨hout, hall⟩
    have hnone : children d i = ∅ := by
      refine Finset.eq_empty_of_forall_notMem fun c hc => ?_
      obtain ⟨hlt, hp, hlive⟩ := mem_children.mp hc
      simp [hall c hlt hp] at hlive
    have hcount := hrefs.count i hi
    rw [if_neg (by simp), if_neg (by exact hout), hnone] at hcount
    exact (hrefs.freed i hi).mpr hcount

/-- A forked task and its child unmap everything; the child is freed, and with it its parent. -/
theorem child_freed_with_parent : ∃ d, Reachable [threePages] (fun _ _ => True) d ∧
    d.freed 0 = true ∧ 0 ∉ d.lpis ++ d.pending ∧ d.freed 1 = true := by
  have hrun : runDaemon (fun _ _ => true) [threePages] [.fork 0, .completeForks,
      .unmap 0 0x10000 0x13000, .unmap 1 0x10000 0x13000, .round] = some _ := rfl
  have hreach := Reach.mono (fun _ _ _ => trivial) (runDaemon_reachable hrun)
  have hrefs := (freed_iff_unreferenced hreach (show 0 < _ by decide)).1.mp rfl
  exact ⟨_, hreach, rfl, hrefs.1, hrefs.2 1 (by decide) rfl⟩

/-- In every run whose REMAPs go to where nothing is tracked, no address of a task and no page of
its images is in two of its ranges, whether they wait or are in flight, and the ranges are whole
pages. -/
theorem pages_tracked_once {tasks : List LazyTask} {d : Daemon} (h : Reachable tasks ClearRemap d)
    (i : ℕ) :
    ((d.lpi i).iovs ++ (d.lpi i).reqs).Pairwise (fun u v =>
      (u.stop ≤ v.start ∨ v.stop ≤ u.start) ∧
        (u.img + (u.stop - u.start) ≤ v.img ∨ v.img + (v.stop - v.start) ≤ u.img)) ∧
    ∀ v ∈ (d.lpi i).iovs ++ (d.lpi i).reqs,
      v.start < v.stop ∧ pageSize ∣ v.start ∧ pageSize ∣ v.stop ∧ pageSize ∣ v.img := by
  have hok := (Reachable.clearOk h fun _ _ he => he).lpi i
  have hinj := hok.inj trivial
  refine ⟨?_, fun v hv => ?_⟩
  · exact (apart_of_injective hinj hok.filled).and (img_apart_of_injective hinj hok.filled)
  · exact ⟨hok.filled v hv, (hok.aligned v hv).start, (hok.aligned v hv).stop,
      (hok.aligned v hv).img⟩

/-- A fault in the middle, the area moved, and the background transfer begun. -/
theorem moved_pages_tracked_once : ∃ d, Reachable [threePages] ClearRemap d ∧
    (d.lpi 0).reqs.length = 2 ∧ (d.lpi 0).reqs.Pairwise (fun u v =>
      u.stop ≤ v.start ∨ v.stop ≤ u.start) := by
  have hrun : runDaemon (fun d e => decide (ClearRemap d e)) [threePages] [.fault 0 0x11000 .done,
      .remap 0 0x10000 0x20000 0x3000, .fault 0 0x20000 .done] = some _ := rfl
  have hreach : Reachable [threePages] ClearRemap _ :=
    Reach.mono (fun _ _ h => of_decide_eq_true h) (runDaemon_reachable hrun)
  exact ⟨_, hreach, rfl, (pairwise_append.mp (pages_tracked_once hreach 0).1).2.1.imp And.left⟩

end Criu.LazyRelease

import Mathlib.Data.List.Pairwise
import Criu.IovTracking
import Criu.LazyDaemon

/-!
The state of one lpi over every run of the lazy-pages daemon. All ranges are whole pages. In
runs whose REMAPs go to where nothing is tracked, no address and no dump-time address is
tracked twice, over both lists, and `iovs` is in address order; `clear` says of a state that
it is of such a run. The other results are about what the steps do to such states.
-/

namespace Criu.LazyState

open Run Segment Pagemap ReadCursor IovLists IovTracking LazyDaemon List

variable {l : Lpi} {req u v : LazyIov} {len dst i src : ℕ} {d d' : Daemon}

structure LpiOk (clear : Prop) (l : Lpi) : Prop where
  filled : Filled (l.iovs ++ l.reqs)
  aligned : ∀ v ∈ l.iovs ++ l.reqs, Aligned v
  xfer : pageSize ∣ l.xferLen ∧ 0 < l.xferLen
  inj : clear → Injective (tracked (l.iovs ++ l.reqs))
  ordered : clear → Ordered l.iovs

variable {clear : Prop}

namespace LpiOk

theorem iovs_filled (h : LpiOk clear l) : Filled l.iovs := (forall_mem_append.mp h.filled).1

theorem reqs_filled (h : LpiOk clear l) : Filled l.reqs := (forall_mem_append.mp h.filled).2

theorem reqs_inj (h : LpiOk clear l) (hc : clear) : Injective (tracked l.reqs) :=
  (h.inj hc).sublist (by rw [tracked_append]; exact sublist_append_right _ _)

theorem known (h : LpiOk clear l) (hc : clear) : LpiOk True l :=
  ⟨h.filled, h.aligned, h.xfer, fun _ => h.inj hc, fun _ => h.ordered hc⟩

theorem empty (hi : l.iovs = []) (hr : l.reqs = []) (hx : pageSize ∣ l.xferLen ∧ 0 < l.xferLen) :
    LpiOk clear l := by
  cases l
  cases hi
  cases hr
  exact ⟨nofun, nofun, hx, fun _ => ⟨nodup_nil, nodup_nil⟩, fun _ => .nil⟩

theorem subset {l' : Lpi} (h : LpiOk clear l) (hsub : l'.iovs ++ l'.reqs ⊆ l.iovs ++ l.reqs)
    (hxfer : pageSize ∣ l'.xferLen ∧ 0 < l'.xferLen)
    (hperm : clear → (l'.iovs ++ l'.reqs).Perm (l.iovs ++ l.reqs))
    (hsorted : clear → l'.iovs.Pairwise (fun u v => u.start < v.start)) : LpiOk clear l' := by
  have hfilled : Filled (l'.iovs ++ l'.reqs) := fun u hu => h.filled u (hsub hu)
  have hinj := fun hc => (h.inj hc).perm (tracked_perm (hperm hc))
  refine ⟨hfilled, fun u hu => h.aligned u (hsub hu), hxfer, hinj, fun hc => ?_⟩
  apply ordered_of_starts (hsorted hc) _ (forall_mem_append.mp hfilled).1
  have hkeys := (hinj hc).keys
  rw [tracked_append, map_append] at hkeys
  exact (nodup_append.mp hkeys).1

end LpiOk

theorem defaultXferLen_ok : pageSize ∣ defaultXferLen ∧ 0 < defaultXferLen := by decide

variable {n start stop img nr : ℕ}

theorem updateXferLen_ok (h : pageSize ∣ n) (pf : Bool) :
    pageSize ∣ updateXferLen n pf ∧ 0 < updateXferLen n pf := by
  simp only [pageSize] at *
  unfold updateXferLen defaultXferLen maxXferLen
  split <;> omega

/-- A range was cut out of `iovs` and put in front of `reqs`. -/
structure Taken (l l' : Lpi) (req : LazyIov) : Prop where
  piece : ∃ iov ∈ l.iovs, Piece req iov
  reqs : l'.reqs = req :: l.reqs
  cut : CutFrom l'.iovs l.iovs
  ok {clear : Prop} : LpiOk clear l → LpiOk clear l'
  frame : l' = { l with iovs := l'.iovs, reqs := l'.reqs, xferLen := l'.xferLen }

theorem moveToReqs_taken (h : LpiOk clear l) {pre post : List LazyIov} {iov : LazyIov}
    (hl : l.iovs = pre ++ iov :: post) (hlo : iov.start ≤ start) (hin : start < iov.stop)
    (hlt : start < stop) (hstart : pageSize ∣ start) (hstop : pageSize ∣ stop) (pf : Bool) :
    ∃ l' req, moveToReqs l pre iov post start stop pf = (l', req) ∧ Taken l l' req ∧
      req.start = start ∧ req.stop = min stop iov.stop := by
  obtain ⟨before, mid, after, hx⟩ := extractRange_ok hlo hin hlt
  have hcut := hx.cuts
  have hmem : iov ∈ l.iovs := hl ▸ mem_append_right _ mem_cons_self
  have hiov : Aligned iov := h.aligned iov (mem_append_left _ hmem)
  have hal : ∀ u ∈ before ++ mid :: after, Aligned u := fun u hu =>
    hiov.piece (hcut.piece u hu) (hx.edges hstart hstop ⟨hiov.start, hiov.stop⟩ u hu)
  have hpiece : ∀ u ∈ before ++ mid :: after, ∃ v ∈ l.iovs, Piece u v := fun u hu =>
    ⟨iov, hmem, hcut.piece u hu⟩
  let l' : Lpi := { l with
    iovs := pre ++ (before ++ (after ++ post))
    reqs := mid :: l.reqs
    xferLen := updateXferLen l.xferLen pf }
  have hlist : (l'.iovs ++ l'.reqs).Perm
      ((pre ++ ((before ++ mid :: after) ++ post)) ++ l.reqs) := by
    rw [perm_iff_count]
    simp only [l', count_append, count_cons]
    omega
  have hperm : (tracked (l'.iovs ++ l'.reqs)).Perm (tracked (l.iovs ++ l.reqs)) := by
    refine (tracked_perm hlist).trans (List.Perm.of_eq ?_)
    simp only [hl, tracked_append, tracked_cons, ← hcut.points]
  have hiovs : ∀ u ∈ l'.iovs, u ∈ l.iovs ∨ u ∈ before ++ mid :: after := by
    intro u hu
    rw [hl]
    simp only [l', mem_append] at hu ⊢
    tauto
  have hcut' : CutFrom l'.iovs l.iovs := by
    intro u hu
    rcases hiovs u hu with hu | hu
    · exact ⟨u, hu, .refl (h.iovs_filled u hu)⟩
    · exact hpiece u hu
  have hmidin : mid ∈ before ++ mid :: after := mem_append_right _ mem_cons_self
  have hmidp := hpiece mid hmidin
  refine ⟨l', mid, ?_, ⟨hmidp, rfl, hcut', fun h => ?_, rfl⟩, hx.start, hx.stop⟩
  · simp only [moveToReqs, hx.run, l']
  constructor
  · exact forall_mem_append.mpr
      ⟨hcut'.filled, forall_mem_cons.mpr ⟨hmidp.choose_spec.2.lt, h.reqs_filled⟩⟩
  · obtain ⟨hali, halr⟩ := forall_mem_append.mp h.aligned
    exact forall_mem_append.mpr ⟨fun u hu => (hiovs u hu).elim (hali u) (hal u),
      forall_mem_cons.mpr ⟨hal mid hmidin, halr⟩⟩
  · exact updateXferLen_ok h.xfer.1 pf
  · exact fun hc => (h.inj hc).perm hperm
  · intro hc
    refine (ordered_replace (hl ▸ h.ordered hc) hcut.piece hcut.ordered).sublist ?_
    refine (List.Sublist.refl _).append ?_
    rw [append_assoc]
    refine (List.Sublist.refl _).append ?_
    exact sublist_cons_self ..

theorem Taken.pieces {l' : Lpi} (h : Taken l l' req) (hok : LpiOk clear l) :
    CutFrom (l'.iovs ++ l'.reqs) (l.iovs ++ l.reqs) := by
  have hcut : ∀ {u}, (∃ v ∈ l.iovs, Piece u v) → ∃ v ∈ l.iovs ++ l.reqs, Piece u v := fun hu =>
    hu.imp fun _ hv => ⟨mem_append_left _ hv.1, hv.2⟩
  refine forall_mem_append.mpr ⟨fun u hu => hcut (h.cut u hu), fun u hu => ?_⟩
  have hfill := (h.ok hok).reqs_filled u hu
  rw [h.reqs] at hu
  rcases mem_cons.mp hu with rfl | hu
  · exact hcut h.piece
  · exact ⟨u, mem_append_right _ hu, .refl hfill⟩

/-- A request went out for a range of whole pages that was taken from `iovs`. -/
def Requested (d : Daemon) (i : ℕ) (d' : Daemon) : Prop :=
  ∃ l' req nr, Taken (d.lpi i) l' req ∧ 0 < nr ∧ req.stop = req.start + nr * pageSize ∧
    d' = { setLpi d i l' with reads := d.reads ++ [⟨i, i, req.img, nr⟩] }

theorem uffdHandlePages_reads (h : uffdHandlePages d i img nr = .ok d') :
    d' = { d with reads := d.reads ++ [⟨i, i, img, nr⟩] } := by
  unfold uffdHandlePages at h
  simp only at h
  split at h
  · simp at h
  · split at h
    · simp at h
    · split at h
      · simp at h
      · exact (Except.ok.inj h).symm

/-- A background transfer takes a range from the front of `iovs` and requests its pages. -/
theorem xferPages_run (hok : LpiOk clear (d.lpi i)) :
    xferPages d i = .ok d ∨ ∃ l' req nr, Taken (d.lpi i) l' req ∧ 0 < nr ∧
      req.stop = req.start + nr * pageSize ∧
      xferPages d i = uffdHandlePages (setLpi d i l') i req.img nr := by
  unfold xferPages
  cases hiovs : (d.lpi i).iovs with
  | nil => exact .inl rfl
  | cons iov post =>
    have hmem : iov ∈ (d.lpi i).iovs := hiovs ▸ mem_cons_self ..
    have hal := hok.aligned iov (mem_append_left _ hmem)
    have hf := hok.iovs_filled iov hmem
    obtain ⟨hdvd, hpos⟩ := hok.xfer
    have hlen : pageSize ∣ iov.stop - iov.start := Nat.dvd_sub hal.stop hal.start
    have hmin : pageSize ∣ min (iov.stop - iov.start) (d.lpi i).xferLen := by
      rw [Nat.min_def]
      split
      · exact hlen
      · exact hdvd
    have hnil : (d.lpi i).iovs = [] ++ iov :: post := hiovs
    obtain ⟨l', req, hmove, htaken, hstart, hstop⟩ := moveToReqs_taken hok hnil (le_refl _) hf
      (Nat.lt_add_of_pos_right (lt_min (Nat.sub_pos_of_lt hf) hpos)) hal.start
      (Nat.dvd_add hal.start hmin) false
    simp only [hmove]
    have hwhole : req.stop - req.start = min (iov.stop - iov.start) (d.lpi i).xferLen := by omega
    have hlt : 0 < req.stop - req.start := by omega
    have hreq : pageSize ∣ req.stop - req.start := hwhole ▸ hmin
    refine .inr ⟨l', req, _, htaken, ?_, ?_, rfl⟩
    · exact Nat.div_pos (Nat.le_of_dvd hlt hreq) (by decide)
    · rw [Nat.div_mul_cancel hreq]
      omega

theorem xferPages_requested (hok : LpiOk clear (d.lpi i)) (h : xferPages d i = .ok d') :
    d' = d ∨ Requested d i d' := by
  rcases xferPages_run hok with heq | ⟨l', req, nr, htaken, hnr, hlen, heq⟩
  · rw [heq] at h
    exact .inl (Except.ok.inj h).symm
  · rw [heq] at h
    exact .inr ⟨l', req, nr, htaken, hnr, hlen, uffdHandlePages_reads h⟩

/-- A page fault is in flight already, is zeroed, or makes a request for its page. -/
theorem handlePageFault_run (hok : LpiOk clear (d.lpi i)) (address : ℕ) (ret : UffdRet) :
    handlePageFault d i address ret = .ok d ∨ handlePageFault d i address ret = uffdZero d i ret ∨
      ∃ l' req, Taken (d.lpi i) l' req ∧ req.stop = req.start + 1 * pageSize ∧
        handlePageFault d i address ret = uffdHandlePages (setLpi d i l') i req.img 1 := by
  unfold handlePageFault
  simp only
  split
  · exact .inl rfl
  generalize haddr : address / pageSize * pageSize = addr
  have hdvd : pageSize ∣ addr := haddr ▸ Nat.dvd_mul_left _ _
  cases hdrop : (d.lpi i).iovs.dropWhile (fun v => !hasAddr addr v) with
  | nil => exact .inr (.inl rfl)
  | cons iov post =>
    have hl : (d.lpi i).iovs =
        (d.lpi i).iovs.takeWhile (fun v => !hasAddr addr v) ++ iov :: post := by
      rw [← hdrop, takeWhile_append_dropWhile]
    have hmem : iov ∈ (d.lpi i).iovs := hl ▸ mem_append_right _ mem_cons_self
    have hhas : hasAddr addr iov = true := by
      have := head_dropWhile_not (fun v => !hasAddr addr v)
        (by rw [hdrop]; simp)
      simpa [hdrop] using this
    obtain ⟨hlo, hhi⟩ := of_decide_eq_true hhas
    have hal := hok.aligned iov (mem_append_left _ hmem)
    obtain ⟨l', req, hmove, htaken, hstart, hstop⟩ := moveToReqs_taken hok hl hlo hhi
      (Nat.lt_add_of_pos_right (by decide)) hdvd
      (Nat.dvd_add hdvd (Nat.dvd_refl _)) true
    simp only [hmove]
    refine .inr (.inr ⟨l', req, htaken, ?_, rfl⟩)
    have := hal.stop
    simp only [pageSize] at *
    omega

/-- A page fault changes nothing, finds that the task is gone, or makes a request. -/
theorem handlePageFault_cases {address : ℕ} {ret : UffdRet} (hok : LpiOk clear (d.lpi i))
    (h : handlePageFault d i address ret = .ok d') :
    d' = d ∨ (ret = .gone ∧ handleExit d i = .ok d') ∨ Requested d i d' := by
  rcases handlePageFault_run hok address ret with heq | heq | ⟨l', req, htaken, hlen, heq⟩
  · rw [heq] at h
    exact .inl (Except.ok.inj h).symm
  · rw [heq] at h
    unfold uffdZero at h
    cases ret with
    | done | short _ => exact .inl (Except.ok.inj h).symm
    | gone => exact .inr (.inl ⟨rfl, h⟩)
    | failed => simp at h
  · rw [heq] at h
    exact .inr (.inr ⟨l', req, 1, htaken, Nat.one_pos, hlen, uffdHandlePages_reads h⟩)

section Reshape

/-- The dump-time addresses of `u` are among those of `v`. -/
structure ImgPiece (u v : LazyIov) : Prop where
  lo : v.img ≤ u.img
  hi : u.img + (u.stop - u.start) ≤ v.img + (v.stop - v.start)

theorem ImgPiece.refl (v : LazyIov) : ImgPiece v v := ⟨le_refl _, le_refl _⟩

theorem ImgPiece.of_piece (h : Piece u v) : ImgPiece u v := by
  obtain ⟨hlo, hlt, hhi, himg⟩ := h
  constructor <;> omega

theorem imgPiece_of_cut {l l' : List LazyIov} (h : CutFrom l' l) :
    ∀ u ∈ l', ∃ v ∈ l, ImgPiece u v :=
  fun u hu => (h u hu).imp fun _ hv => ⟨hv.1, .of_piece hv.2⟩

theorem ImgPiece.move (h : ImgPiece u v) (hsrc : src ≤ u.start) :
    ImgPiece (moveIov (fun a => a - src + dst) u) v := by
  obtain ⟨hlo, hhi⟩ := h
  unfold moveIov
  constructor
  · exact hlo
  · simp only
    omega

structure Reshaped (l l' : Lpi) : Prop where
  iovs : ∀ u ∈ l'.iovs, ∃ v ∈ l.iovs, ImgPiece u v
  reqs : ∀ u ∈ l'.reqs, ∃ v ∈ l.reqs, ImgPiece u v
  frame : l' = { l with iovs := l'.iovs, reqs := l'.reqs }

theorem intLen_eq (n : ℕ) : intLen n = if n % 2 ^ 32 < 2 ^ 31 then n % 2 ^ 32 else 0 := by
  unfold intLen
  rw [Int.bmod_def]
  split_ifs <;> omega

theorem intLen_le (n : ℕ) : intLen n ≤ n := by
  rw [intLen_eq]
  split_ifs
  · exact Nat.mod_le n _
  · exact Nat.zero_le n

theorem intLen_dvd (h : pageSize ∣ n) : pageSize ∣ intLen n := by
  rw [intLen_eq]
  split_ifs
  · exact (Nat.dvd_mod_iff (by decide)).mpr h
  · exact Nat.dvd_zero _

def Lpi.drop (l : Lpi) (addr len : ℕ) : Lpi :=
  { l with iovs := dropIovs l.iovs addr len, reqs := dropIovs l.reqs addr len }

theorem dropped_reshaped (h : LpiOk clear l) (addr len : ℕ) : Reshaped l (Lpi.drop l addr len) :=
  ⟨imgPiece_of_cut (dropIovs_cut h.iovs_filled addr len),
    imgPiece_of_cut (dropIovs_cut h.reqs_filled addr len), rfl⟩

theorem dropped_ok (h : LpiOk clear l) {addr : ℕ} (haddr : pageSize ∣ addr)
    (hlen : pageSize ∣ len) : LpiOk clear (Lpi.drop l addr len) := by
  constructor
  · exact forall_mem_append.mpr ⟨(dropIovs_cut h.iovs_filled addr len).filled,
      (dropIovs_cut h.reqs_filled addr len).filled⟩
  · obtain ⟨hal, hal'⟩ := forall_mem_append.mp h.aligned
    exact forall_mem_append.mpr ⟨dropIovs_aligned hal h.iovs_filled haddr hlen,
      dropIovs_aligned hal' h.reqs_filled haddr hlen⟩
  · exact h.xfer
  · intro hc
    apply (h.inj hc).subperm
    simp only [tracked_append]
    exact (dropIovs_subperm h.iovs_filled addr len).append
      (dropIovs_subperm h.reqs_filled addr len)
  · exact fun hc => dropIovs_ordered (h.ordered hc) h.iovs_filled addr len

theorem untracked_points (h : Untracked l start stop) :
    (∀ p ∈ tracked l.iovs, ¬ (start ≤ p.1 ∧ p.1 < stop)) ∧
      ∀ p ∈ tracked l.reqs, ¬ (start ≤ p.1 ∧ p.1 < stop) := by
  refine forall_mem_append.mp fun p hp => ?_
  rw [← tracked_append] at hp
  obtain ⟨v, hv, hpv⟩ := mem_tracked.mp hp
  have := h v hv
  have := mem_iovPoints.mp hpv
  omega

theorem remapped_imgPiece {l left l' ms : List LazyIov} (hf : Filled l)
    (h : Remapped src dst len l left l' ms) : ∀ u ∈ l', ∃ v ∈ l, ImgPiece u v := by
  intro u hu
  rcases h.subset hu with hu | ⟨w, hw, rfl⟩
  · exact imgPiece_of_cut (dropIovs_cut hf src len) u hu
  · obtain ⟨v, hv, hp⟩ := h.cut w hw
    exact ⟨v, hv, (ImgPiece.of_piece hp).move (h.inside w hw).1⟩

def Lpi.remap (l : Lpi) (src dst len : ℕ) : Lpi :=
  { l with
    iovs := (remapIovs l.iovs src dst len).2
    reqs := (remapIovs l.reqs src dst len).2 }

theorem remapped_reshaped (h : LpiOk clear l) (src dst len : ℕ) :
    Reshaped l (Lpi.remap l src dst len) := by
  obtain ⟨ms, -, hi⟩ := remapIovs_remapped h.iovs_filled src dst len
  obtain ⟨ms', -, hr⟩ := remapIovs_remapped h.reqs_filled src dst len
  exact ⟨remapped_imgPiece h.iovs_filled hi, remapped_imgPiece h.reqs_filled hr, rfl⟩

theorem remapped_ok (h : LpiOk clear l) (hsrc : pageSize ∣ src) (hdst : pageSize ∣ dst)
    (hlen : pageSize ∣ len) (hfree : clear → Untracked l dst (dst + len)) :
    LpiOk clear (Lpi.remap l src dst len) := by
  obtain ⟨ms, -, hi⟩ := remapIovs_remapped h.iovs_filled src dst len
  obtain ⟨ms', -, hr⟩ := remapIovs_remapped h.reqs_filled src dst len
  obtain ⟨hal, hal'⟩ := forall_mem_append.mp h.aligned
  constructor
  · exact forall_mem_append.mpr ⟨hi.filled h.iovs_filled, hr.filled h.reqs_filled⟩
  · exact forall_mem_append.mpr ⟨hi.aligned hal h.iovs_filled hsrc hdst hlen,
      hr.aligned hal' h.reqs_filled hsrc hdst hlen⟩
  · exact h.xfer
  · intro hc
    obtain ⟨hpi, hpr⟩ := untracked_points (hfree hc)
    obtain ⟨iovs', ms, hri, hi, -⟩ := remapIovs_ok h.iovs_filled src hpi
    obtain ⟨reqs', ms', hrr, hr, -⟩ := remapIovs_ok h.reqs_filled src hpr
    have hsplit : (tracked (dropIovs l.iovs src len ++ dropIovs l.reqs src len) ++
        tracked (ms ++ ms')).Perm (tracked (l.iovs ++ l.reqs)) := by
      simp only [tracked_append]
      refine List.Perm.trans ?_ (hi.whole.append hr.whole)
      rw [perm_iff_count]
      simp only [count_append]
      omega
    have hmoved : ∀ p ∈ tracked (ms ++ ms'), src ≤ p.1 ∧ p.1 < src + len := by
      rw [tracked_append]
      exact forall_mem_append.mpr ⟨hi.moved_points, hr.moved_points⟩
    have hstay : ∀ p ∈ tracked (dropIovs l.iovs src len ++ dropIovs l.reqs src len),
        ¬ (dst ≤ p.1 ∧ p.1 < dst + len) := by
      rw [tracked_append]
      exact forall_mem_append.mpr
        ⟨fun p hp => hpi p ((dropIovs_subperm h.iovs_filled src len).subset hp),
          fun p hp => hpr p ((dropIovs_subperm h.reqs_filled src len).subset hp)⟩
    refine (((h.inj hc).perm hsplit).move hmoved hstay).perm ?_
    simp only [Lpi.remap, hri, hrr, tracked_append, map_append]
    refine (hi.tracked_perm'.append hr.tracked_perm').trans ?_
    rw [perm_iff_count]
    simp only [count_append]
    omega
  · intro hc
    obtain ⟨iovs', ms, hri, -, hord⟩ :=
      remapIovs_ok h.iovs_filled src (untracked_points (hfree hc)).1
    simp only [Lpi.remap, hri]
    exact hord (h.ordered hc)

end Reshape

section Finish

/-- What an answer for `req` leaves are parts of what was tracked. If no address was tracked twice,
the request is out of `reqs`, and what was not copied of it is in `iovs` again. -/
structure Finished (l l' : Lpi) (req : LazyIov) : Prop where
  mem : req ∈ l.reqs
  pieces : CutFrom (l'.iovs ++ l'.reqs) (l.iovs ++ l.reqs)
  ok {clear : Prop} : LpiOk clear l → LpiOk clear l'
  frame : l' = { l with iovs := l'.iovs, reqs := l'.reqs }
  reqs : LpiOk True l → l.reqs.Perm (req :: l'.reqs)
  iovs : LpiOk True l → CutFrom l'.iovs (req :: l.iovs)
  kept : LpiOk True l → ∀ p ∈ tracked l.iovs, p ∈ tracked l'.iovs

theorem eraseP_of_find {α : Type*} {l : List α} {q : α → Bool} {a : α} (h : l.find? q = some a) :
    l.Perm (a :: l.eraseP q) := by
  obtain ⟨ha, pre, post, rfl, hpre⟩ := find?_eq_some_iff_append.mp h
  have hskip : ∀ b ∈ pre, ¬ q b = true := by
    intro b hb
    simpa using hpre b hb
  rw [eraseP_append_right _ hskip, eraseP_cons_of_pos ha]
  exact perm_middle

theorem finishRequest_finished (hok : LpiOk clear (d.lpi i))
    (hfind : (d.lpi i).reqs.find? (fun r => r.img = img) = some req)
    (hnr : nr * pageSize ≤ req.stop - req.start) :
    ∃ l', finishRequest d i req img nr = setLpi d i l' ∧ Finished (d.lpi i) l' req := by
  generalize hl : d.lpi i = l at hok hfind
  have hreqs := eraseP_of_find hfind
  have hmem : req ∈ l.reqs := hreqs.mem_iff.mpr mem_cons_self
  have hal := hok.aligned req (mem_append_right _ hmem)
  have hlen := intLen_dvd (Nat.dvd_mul_left pageSize nr)
  have hdrop := fun {l₁ : Lpi} (h₁ : LpiOk clear l₁) =>
    (dropIovs_cut h₁.iovs_filled req.start (intLen (nr * pageSize))).append
      (dropIovs_cut h₁.reqs_filled req.start (intLen (nr * pageSize)))
  have hcross : LpiOk True l → ∀ v ∈ l.iovs, v.stop ≤ req.start ∨ req.stop ≤ v.start := by
    intro h v hv
    exact (pairwise_append.mp (apart_of_injective (h.inj trivial) h.filled)).2.2 v hv req hmem
  -- when nothing is tracked twice, the start of the request is new to `iovs`
  have hnew : LpiOk True l → ∃ iovs', iovListInsert req l.iovs = some iovs' ∧
      iovs'.Pairwise (fun u v => u.start < v.start) := by
    intro h
    have hne : ∀ v ∈ l.iovs, v.start ≠ req.start := by
      intro v hv heq
      have := hcross h v hv
      have := h.iovs_filled v hv
      have := h.reqs_filled req hmem
      omega
    obtain ⟨iovs', hins, hsorted⟩ := iovListInsert_some hne
    exact ⟨iovs', hins, hsorted ((h.ordered trivial).starts h.iovs_filled)⟩
  cases hins : iovListInsert req l.iovs with
  | none =>
    have hno : ¬ LpiOk True l := fun h => by
      obtain ⟨iovs', hsome, -⟩ := hnew h
      exact nomatch hins.symm.trans hsome
    refine ⟨Lpi.drop l req.start (intLen (nr * pageSize)), ?_, hmem, hdrop hok,
      fun h => dropped_ok h hal.start hlen, rfl, fun h => absurd h hno, fun h => absurd h hno,
      fun h => absurd h hno⟩
    simp only [finishRequest, hl, hins, dropLpi]
    rfl
  | some iovs' =>
    have hperm := iovListInsert_perm hins
    let l₁ : Lpi := { l with iovs := iovs', reqs := l.reqs.eraseP (fun r => r.img = img) }
    have hperm₁ : (l₁.iovs ++ l₁.reqs).Perm (l.iovs ++ l.reqs) :=
      (hperm.append_right _).trans (perm_middle.symm.trans (hreqs.symm.append_left _))
    have hok₁ : ∀ {c : Prop}, LpiOk c l → LpiOk c l₁ := fun h =>
      h.subset hperm₁.subset h.xfer (fun _ => hperm₁) fun hc => by
        obtain ⟨iovs₂, hsome, hsorted⟩ := hnew (h.known hc)
        cases hins.symm.trans hsome
        exact hsorted
    have hle := intLen_le (nr * pageSize)
    -- the other requests are not at these addresses
    have hothers : LpiOk True l →
        dropIovs l₁.reqs req.start (intLen (nr * pageSize)) = l₁.reqs := by
      intro h
      apply dropIovs_apart (hok₁ h).reqs_filled
      intro v hv hmeet
      have hsymm := hreqs.pairwise_iff (R := fun u v : LazyIov =>
        u.stop ≤ v.start ∨ v.stop ≤ u.start) (fun h => h.symm)
      have := (pairwise_cons.mp (hsymm.mp
        (apart_of_injective (h.reqs_inj trivial) h.reqs_filled))).1 v hv
      have := h.reqs_filled req hmem
      obtain ⟨-, h₁, h₂⟩ := hmeet
      omega
    refine ⟨Lpi.drop l₁ req.start (intLen (nr * pageSize)), ?_, hmem, fun u hu => ?_,
      fun h => dropped_ok (hok₁ h) hal.start hlen, rfl, fun h => ?_, fun h u hu => ?_,
      fun h p hp => ?_⟩
    · simp only [finishRequest, hl, hins, dropLpi, setLpi, Function.update_self,
        Function.update_idem]
      rfl
    · exact (hdrop (hok₁ hok) u hu).imp fun _ hv => ⟨hperm₁.mem_iff.mp hv.1, hv.2⟩
    · change l.reqs.Perm (req :: dropIovs l₁.reqs _ _)
      rw [hothers h]
      exact hreqs
    · exact (dropIovs_cut (hok₁ h).iovs_filled _ _ u hu).imp fun _ hv =>
        ⟨hperm.mem_iff.mp hv.1, hv.2⟩
    · have hp₁ : p ∈ tracked iovs' :=
        (tracked_perm hperm).mem_iff.mpr (by exact mem_append_right _ hp)
      apply dropIovs_keeps (hok₁ h).iovs_filled hp₁
      obtain ⟨v, hv, hpv⟩ := mem_tracked.mp hp
      have := hcross h v hv
      have := mem_iovPoints.mp hpv
      omega

end Finish

structure Forked (l : Lpi) (l' : Lpi) : Prop where
  subset : l'.iovs ++ l'.reqs ⊆ l.iovs ++ l.reqs
  live : l'.exited = false
  bufSize : l'.bufSize = l.bufSize
  ok {clear : Prop} : LpiOk clear l → LpiOk clear l'
  reqs : LpiOk True l → l'.reqs = []

theorem forkedLpi_forked (d : Daemon) (i : ℕ) : Forked (d.lpi i) (forkedLpi d i) := by
  have hperm : ((forkedLpi d i).iovs ++ (forkedLpi d i).reqs).Perm
      ((d.lpi i).iovs ++ (d.lpi i).reqs) :=
    perm_append_comm.trans ((mergeIovLists_perm ..).trans perm_append_comm)
  have hmerge : LpiOk True (d.lpi i) → _ := fun h =>
    have hap := apart_of_injective (h.inj trivial) h.filled
    @mergeIovLists_ok (d.lpi i).iovs (d.lpi i).reqs
      (nodup_of_apart h.reqs_filled (pairwise_append.mp hap).2.1) fun u hu v hv heq => by
        have := (pairwise_append.mp hap).2.2 v hv u hu
        have := h.iovs_filled v hv
        have := h.reqs_filled u hu
        omega
  refine ⟨hperm.subset, rfl, rfl, fun h => ?_, fun h => (hmerge h).1⟩
  exact h.subset hperm.subset defaultXferLen_ok (fun _ => hperm) fun hc =>
    (hmerge (h.known hc)).2 ((h.ordered hc).starts h.iovs_filled)

end Criu.LazyState

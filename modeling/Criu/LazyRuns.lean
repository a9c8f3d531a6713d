import Mathlib.Algebra.Order.BigOperators.Group.List
import Mathlib.Algebra.Order.Group.Nat
import Criu.LazyState

/-!
All lpis of the daemon over whole runs. An lpi is linked in `lpis` or `pending_lpis` as long
as it tracks anything, and lpis that exited track nothing. If REMAPs go to where nothing is
tracked, the children of forks have no requests until their events are polled. Each kind of step
is looked at once here; the results on requests, buffers and references build on these.
-/

namespace Criu.LazyRuns

open Run Segment Pagemap ReadCursor IovLists IovTracking LazyDaemon LazyState List

variable {d d' : Daemon} {j nr lo hi i : ℕ} {inv : Daemon → Prop} {task : LazyTask} {e : Event}
  {l l' : Lpi} {ret : UffdRet} {clear : Prop}

structure DaemonOk (clear : Prop) (d : Daemon) : Prop where
  lpi : ∀ i, LpiOk clear (d.lpi i)
  nodup : (d.lpis ++ d.pending).Nodup
  known : ∀ i ∈ d.lpis ++ d.pending, i < d.count
  idle : ∀ i, i ∉ d.lpis ++ d.pending → (d.lpi i).iovs = [] ∧ (d.lpi i).reqs = []
  young : clear → ∀ i ∈ d.pending, (d.lpi i).reqs = []
  gone : ∀ i, (d.lpi i).exited = true → (d.lpi i).iovs = [] ∧ (d.lpi i).reqs = []

@[simp] theorem setLpi_self (d : Daemon) (i : ℕ) (l : Lpi) : (setLpi d i l).lpi i = l :=
  Function.update_self ..

theorem setLpi_of_ne (d : Daemon) (l : Lpi) (h : j ≠ i) : (setLpi d i l).lpi j = d.lpi j :=
  Function.update_of_ne h ..

/-- What holds of the new lpi and of the others holds of all. -/
@[elab_as_elim]
theorem setLpi_cases {motive : ℕ → Lpi → Prop} (hself : motive i l)
    (hne : ∀ j, j ≠ i → motive j (d.lpi j)) (j : ℕ) : motive j ((setLpi d i l).lpi j) :=
  (Function.forall_update_iff d.lpi (p := motive)).mpr ⟨hself, hne⟩ j

variable {tasks : List LazyTask} {req : LazyIov} {stop : ℕ}

namespace DaemonOk

variable (h : DaemonOk clear d)
include h

theorem withReads (reads : List AsyncRead) : DaemonOk clear { d with reads := reads } :=
  { h with }

theorem set (hok : LpiOk clear l) (hlink : i ∉ d.lpis ++ d.pending → l.iovs = [] ∧ l.reqs = [])
    (hyoung : clear → i ∈ d.pending → l.reqs = [])
    (hgone : l.exited = true → l.iovs = [] ∧ l.reqs = []) : DaemonOk clear (setLpi d i l) := by
  constructor
  · exact fun j => setLpi_cases hok (fun j _ => h.lpi j) j
  · exact h.nodup
  · exact h.known
  · exact fun j => setLpi_cases hlink (fun j _ => h.idle j) j
  · exact fun hc j => setLpi_cases (hyoung hc) (fun j _ => h.young hc j) j
  · exact fun j => setLpi_cases hgone (fun j _ => h.gone j) j

theorem linked_of_iovs (hne : (d.lpi i).iovs ≠ []) : i ∈ d.lpis ++ d.pending := by
  by_contra hout
  exact hne (h.idle i hout).1

theorem linked_of_reqs (hne : (d.lpi i).reqs ≠ []) : i ∈ d.lpis ++ d.pending := by
  by_contra hout
  exact hne (h.idle i hout).2

theorem not_pending (hi : i ∈ d.lpis) : i ∉ d.pending := fun hp =>
  (nodup_append.mp h.nodup).2.2 i hi i hp rfl

theorem reshape (hok : LpiOk clear l) (hl : Reshaped (d.lpi i) l) :
    DaemonOk clear (setLpi d i l) := by
  have hnone : ∀ {a b : List LazyIov}, (∀ u ∈ b, ∃ v ∈ a, ImgPiece u v) → a = [] → b = [] := by
    rintro a b hpieces rfl
    apply eq_nil_iff_forall_not_mem.mpr
    intro u hu
    obtain ⟨v, hv, -⟩ := hpieces u hu
    exact absurd hv not_mem_nil
  have hiovs := hnone hl.iovs
  have hreqs := hnone hl.reqs
  apply h.set hok
  · intro hout
    exact ⟨hiovs (h.idle i hout).1, hreqs (h.idle i hout).2⟩
  · intro hc hin
    exact hreqs (h.young hc i hin)
  · intro hex
    rw [hl.frame] at hex
    exact ⟨hiovs (h.gone i hex).1, hreqs (h.gone i hex).2⟩

theorem request (hi : i ∉ d.pending) (hr : Requested d i d') : DaemonOk clear d' := by
  obtain ⟨l', req, nr, htaken, -, -, rfl⟩ := hr
  obtain ⟨iov, hiov, -⟩ := htaken.piece
  have hne : (d.lpi i).iovs ≠ [] := ne_nil_of_mem hiov
  apply DaemonOk.withReads
  apply h.set (htaken.ok (h.lpi i))
  · intro hout
    exact absurd (h.linked_of_iovs hne) hout
  · intro _ hin
    exact absurd hin hi
  · intro hex
    rw [htaken.frame] at hex
    exact absurd (h.gone i hex).1 hne

theorem finish (hl : Finished (d.lpi i) l req) : DaemonOk clear (setLpi d i l) := by
  have hne : (d.lpi i).reqs ≠ [] := ne_nil_of_mem hl.mem
  apply h.set (hl.ok (h.lpi i))
  · intro hout
    exact absurd (h.linked_of_reqs hne) hout
  · intro hc hin
    exact absurd (h.young hc i hin) hne
  · intro hex
    rw [hl.frame] at hex
    exact absurd (h.gone i hex).2 hne

end DaemonOk

theorem handleExit_ok (h : handleExit d i = .ok d') : i ∈ d.lpis ∧
      d' = { setLpi d i { d.lpi i with iovs := [], reqs := [], exited := true } with
        lpis := d.lpis.erase i ++ [i] } := by
  unfold handleExit at h
  split at h
  case isTrue hin => exact ⟨hin, (Except.ok.inj h).symm⟩
  case isFalse => simp at h

theorem perm_move_tail {l : List ℕ} (h : i ∈ l) : (l.erase i ++ [i]).Perm l :=
  (perm_append_singleton i _).trans (perm_cons_erase h).symm

theorem DaemonOk.exit (h : DaemonOk clear d) (hexit : handleExit d i = .ok d') :
    DaemonOk clear d' := by
  obtain ⟨hin, rfl⟩ := handleExit_ok hexit
  have hset := h.set (i := i) (l := { d.lpi i with iovs := [], reqs := [], exited := true })
    (.empty rfl rfl (h.lpi i).xfer) (fun _ => ⟨rfl, rfl⟩) (fun _ _ => rfl) (fun _ => ⟨rfl, rfl⟩)
  have hperm : ((d.lpis.erase i ++ [i]) ++ d.pending).Perm (d.lpis ++ d.pending) :=
    (perm_move_tail hin).append_right _
  exact ⟨hset.lpi, hperm.nodup_iff.mpr hset.nodup, fun j hj => hset.known j (hperm.mem_iff.mp hj),
    fun j hj => hset.idle j (fun hj' => hj (hperm.mem_iff.mpr hj')), hset.young, hset.gone⟩

section Release

structure PutTo (l : Lpi) (freed : Bool) (l' : Lpi) (freed' : Bool) : Prop where
  frame : l' = { l with refCnt := l'.refCnt, iovs := l'.iovs, reqs := l'.reqs }
  freed : freed = true → freed' = true
  lists : (l'.iovs = l.iovs ∧ l'.reqs = l.reqs) ∨ freed' = true ∧ l'.iovs = [] ∧ l'.reqs = []

variable {l'' : Lpi} {b b' b'' : Bool}

theorem PutTo.refl (l : Lpi) (b : Bool) : PutTo l b l b := ⟨rfl, id, .inl ⟨rfl, rfl⟩⟩

theorem PutTo.trans (h : PutTo l b l' b') (h' : PutTo l' b' l'' b'') : PutTo l b l'' b'' := by
  refine ⟨?_, h'.freed ∘ h.freed, ?_⟩
  · rw [h'.frame, h.frame]
  · rcases h'.lists with ⟨hi, hr⟩ | hnil
    · rw [hi, hr]
      exact h.lists.imp_right (And.imp_left h'.freed)
    · exact .inr hnil

theorem PutTo.ok (h : PutTo l b l' b') (hok : LpiOk clear l) : LpiOk clear l' := by
  obtain ⟨hframe, -, ⟨hi, hr⟩ | ⟨-, hi, hr⟩⟩ := h
  all_goals rw [hi, hr] at hframe; rw [hframe]
  · exact { hok with }
  · exact .empty rfl rfl hok.xfer

theorem PutTo.nil (h : PutTo l b l' b') :
    (l.iovs = [] → l'.iovs = []) ∧ (l.reqs = [] → l'.reqs = []) := by
  rcases h.lists with ⟨hi, hr⟩ | ⟨-, hi, hr⟩
  · rw [hi, hr]
    exact ⟨id, id⟩
  · exact ⟨fun _ => hi, fun _ => hr⟩

theorem PutTo.subset (h : PutTo l b l' b') :
    l'.iovs ++ l'.reqs ⊆ l.iovs ++ l.reqs ∧ l'.reqs ⊆ l.reqs := by
  rcases h.lists with ⟨hi, hr⟩ | ⟨-, hi, hr⟩
  · rw [hi, hr]
    exact ⟨Subset.refl _, Subset.refl _⟩
  · rw [hi, hr]
    exact ⟨nil_subset _, nil_subset _⟩

theorem putTo_set {freed : ℕ → Bool} (h : PutTo (d.lpi i) (d.freed i) l (freed i))
    (hne : ∀ j, j ≠ i → freed j = d.freed j) (j : ℕ) :
    PutTo (d.lpi j) (d.freed j) ((setLpi d i l).lpi j) (freed j) :=
  setLpi_cases h
    (fun j hj => hne j hj ▸ .refl ..) j

def freeLpi (d : Daemon) (i : ℕ) : Daemon :=
  { setLpi d i { d.lpi i with refCnt := (d.lpi i).refCnt - 1, iovs := [], reqs := [] } with
    freed := Function.update d.freed i true }

theorem lpiPut_frame (fuel : ℕ) : ∀ (d : Daemon) (i : ℕ), ∃ lpi freed,
    lpiPut fuel d i = { d with lpi := lpi, freed := freed } ∧
      ∀ j, PutTo (d.lpi j) (d.freed j) (lpi j) (freed j) := by
  induction fuel with
  | zero => exact fun d i => ⟨d.lpi, d.freed, rfl, fun j => .refl ..⟩
  | succ fuel ih =>
    intro d i
    unfold lpiPut
    simp only
    split
    · have hput : ∀ j, PutTo (d.lpi j) (d.freed j) ((freeLpi d i).lpi j) ((freeLpi d i).freed j) :=
        putTo_set ⟨rfl, fun _ => Function.update_self .., .inr ⟨Function.update_self .., rfl, rfl⟩⟩
          fun j hj => Function.update_of_ne hj ..
      split
      · exact ⟨_, _, rfl, hput⟩
      · next p _ =>
        obtain ⟨lpi, freed, hrun, hlpi⟩ := ih (freeLpi d i) p
        exact ⟨lpi, freed, hrun, fun j => (hput j).trans (hlpi j)⟩
    · exact ⟨_, _, rfl, putTo_set ⟨rfl, id, .inl ⟨rfl, rfl⟩⟩ fun _ _ => rfl⟩

theorem releaseLpi_frame (d : Daemon) (i : ℕ) : ∃ lpi freed,
    releaseLpi d i = { d with lpis := d.lpis.erase i, lpi := lpi, freed := freed } ∧
      ∀ j, PutTo (d.lpi j) (d.freed j) (lpi j) (freed j) :=
  lpiPut_frame _ { d with lpis := d.lpis.erase i } i

theorem mem_released (hj : j ≠ i) (h : j ∈ d.lpis ++ d.pending) :
    j ∈ d.lpis.erase i ++ d.pending := by
  rwa [mem_append, mem_erase_of_ne hj, ← mem_append]

theorem DaemonOk.release (h : DaemonOk clear d) (hi : (d.lpi i).iovs = [])
    (hr : (d.lpi i).reqs = []) : DaemonOk clear (releaseLpi d i) := by
  obtain ⟨lpi, freed, heq, hput⟩ := releaseLpi_frame d i
  rw [heq]
  have hsub : (d.lpis.erase i ++ d.pending).Sublist (d.lpis ++ d.pending) :=
    (erase_sublist ..).append_right _
  constructor
  · exact fun j => (hput j).ok (h.lpi j)
  · exact h.nodup.sublist hsub
  · exact fun j hj => h.known j (hsub.subset hj)
  · intro j hout
    by_cases hj : j = i
    · rw [hj]
      exact ⟨(hput i).nil.1 hi, (hput i).nil.2 hr⟩
    have hold : j ∉ d.lpis ++ d.pending := fun hin => hout (mem_released hj hin)
    exact ⟨(hput j).nil.1 (h.idle j hold).1, (hput j).nil.2 (h.idle j hold).2⟩
  · exact fun hc j hin => (hput j).nil.2 (h.young hc j hin)
  · intro j hex
    have hold : (d.lpi j).exited = true := by
      rw [← hex]
      exact (congrArg Lpi.exited (hput j).frame).symm
    exact ⟨(hput j).nil.1 (h.gone j hold).1, (hput j).nil.2 (h.gone j hold).2⟩

/-- A round releases lpis and ends with a transfer, or with nothing to transfer. -/
theorem roundLoop_rule {post : Except LazyFault Daemon → Prop}
    (hrel : ∀ d i, inv d → i ∈ d.lpis → (d.lpi i).iovs = [] → (d.lpi i).reqs = [] →
      inv (releaseLpi d i)) (hxfer : ∀ d i, inv d → i ∈ d.lpis → post (xferPages d i))
    (hend : ∀ d, inv d → post (.ok d)) (rest : List ℕ) (d : Daemon) (hnodup : rest.Nodup)
    (hin : ∀ i ∈ rest, i ∈ d.lpis) (hinv : inv d) : post (roundLoop rest d) := by
  induction rest generalizing d with
  | nil => exact hend d hinv
  | cons i rest ih =>
    obtain ⟨hfresh, hnodup⟩ := nodup_cons.mp hnodup
    obtain ⟨hi, hin⟩ := forall_mem_cons.mp hin
    unfold roundLoop
    split
    · exact hxfer d i hinv hi
    next hbusy =>
    split
    · next hreqs =>
      have hiovs : (d.lpi i).iovs = [] := by
        by_contra hne
        exact hbusy ⟨hne, hreqs⟩
      refine ih _ hnodup ?_ (hrel d i hinv hi hiovs hreqs)
      intro j hj
      obtain ⟨lpi, freed, heq, -⟩ := releaseLpi_frame d i
      rw [heq]
      have hne : j ≠ i := fun he => hfresh (he ▸ hj)
      exact (mem_erase_of_ne hne).mpr (hin j hj)
    · exact ih d hnodup hin hinv

/-- A round keeps what releases and requests keep. -/
theorem round_rule (hrel : ∀ d i, DaemonOk clear d → inv d → i ∈ d.lpis →
      (d.lpi i).iovs = [] → (d.lpi i).reqs = [] → inv (releaseLpi d i))
    (hreq : ∀ d i d', DaemonOk clear d → inv d → Requested d i d' → inv d') (hok : DaemonOk clear d)
    (hinv : inv d) (h : step .round d = .ok d') : DaemonOk clear d' ∧ inv d' := by
  refine @roundLoop_rule (fun d => DaemonOk clear d ∧ inv d)
    (fun r => ∀ d', r = .ok d' → DaemonOk clear d' ∧ inv d') ?_ ?_ ?_ d.lpis d
    (nodup_append.mp hok.nodup).1 (fun _ hi => hi) ⟨hok, hinv⟩ d' h
  · intro d i hd hi hiovs hreqs
    exact ⟨hd.1.release hiovs hreqs, hrel d i hd.1 hd.2 hi hiovs hreqs⟩
  · intro d i hd hi d' hx
    rcases xferPages_requested (hd.1.lpi i) hx with rfl | hr
    · exact hd
    · exact ⟨hd.1.request (hd.1.not_pending hi) hr, hreq d i d' hd.1 hd.2 hr⟩
  · exact fun d hd d' heq => Except.ok.inj heq ▸ hd

end Release

section Fork

/-- A reference to the root, and the child behind the known lpis. -/
theorem handleFork_eq (i : ℕ) : ∃ root, handleFork d i =
      { setLpi (setLpi d root { d.lpi root with refCnt := (d.lpi root).refCnt + 1 }) d.count
          (forkedLpi d i) with
        count := d.count + 1
        pending := d.pending ++ [d.count] } :=
  ⟨_, rfl⟩

theorem DaemonOk.withRef (h : DaemonOk clear d) (i n : ℕ) :
    DaemonOk clear (setLpi d i { d.lpi i with refCnt := n }) := by
  obtain ⟨hf, hal, hx, hinj, hord⟩ := h.lpi i
  exact h.set ⟨hf, hal, hx, hinj, hord⟩ (h.idle i) (fun hc => h.young hc i) (h.gone i)

theorem DaemonOk.add (h : DaemonOk clear d) (hok : LpiOk clear l) (hreqs : clear → l.reqs = [])
    (hlive : l.exited = false) :
    DaemonOk clear { setLpi d d.count l with
      count := d.count + 1
      pending := d.pending ++ [d.count] } := by
  have hlinks : d.lpis ++ (d.pending ++ [d.count]) = (d.lpis ++ d.pending) ++ [d.count] :=
    (append_assoc ..).symm
  have hfresh : d.count ∉ d.lpis ++ d.pending := fun hin => absurd (h.known _ hin) (lt_irrefl _)
  constructor
  · exact fun j => setLpi_cases hok (fun j _ => h.lpi j) j
  · show (d.lpis ++ (d.pending ++ [d.count])).Nodup
    rw [hlinks]
    exact nodup_append.mpr ⟨h.nodup, nodup_singleton _, fun a ha b hb heq =>
      hfresh (mem_singleton.mp hb ▸ heq ▸ ha)⟩
  · show ∀ j ∈ d.lpis ++ (d.pending ++ [d.count]), j < d.count + 1
    rw [hlinks]
    exact forall_mem_append.mpr
      ⟨fun j hj => Nat.lt_succ_of_lt (h.known j hj), forall_mem_singleton.mpr (Nat.lt_succ_self _)⟩
  · show ∀ j, j ∉ d.lpis ++ (d.pending ++ [d.count]) →
      ((setLpi d d.count l).lpi j).iovs = [] ∧ ((setLpi d d.count l).lpi j).reqs = []
    rw [hlinks]
    intro j hj
    have hne : j ≠ d.count := by
      intro heq
      exact hj (mem_append_right _ (mem_singleton.mpr heq))
    rw [setLpi_of_ne d l hne]
    exact h.idle j (fun hin => hj (mem_append_left _ hin))
  · refine fun hc j => setLpi_cases (fun _ => hreqs hc) (fun j hne hj => h.young hc j ?_) j
    rcases mem_append.mp hj with hj | hj
    · exact hj
    · exact absurd (mem_singleton.mp hj) hne
  · refine fun j => setLpi_cases (fun hex => ?_) (fun j _ => h.gone j) j
    rw [hlive] at hex
    exact absurd hex Bool.false_ne_true

theorem DaemonOk.fork (h : DaemonOk clear d) (i : ℕ) : DaemonOk clear (handleFork d i) := by
  obtain ⟨root, heq⟩ := handleFork_eq i
  rw [heq]
  have hchild := forkedLpi_forked d i
  exact (h.withRef root ((d.lpi root).refCnt + 1)).add (hchild.ok (h.lpi i))
    (fun hc => hchild.reqs ((h.lpi i).known hc)) hchild.live

theorem DaemonOk.forksDone (h : DaemonOk clear d) : DaemonOk clear (completeForks d) := by
  have hsame : (d.lpis ++ d.pending) ++ [] = d.lpis ++ d.pending := append_nil _
  exact { h with
    nodup := hsame.symm ▸ h.nodup
    known := hsame.symm ▸ h.known
    idle := hsame.symm ▸ h.idle
    young := fun _ => nofun }

end Fork

section Answer

/-- What an answer for the read `a` does: the request may be gone or not be found, the task may
be gone, and otherwise the request is finished. -/
inductive Answered (d : Daemon) (a : AsyncRead) (rest : List AsyncRead) : UffdRet → Daemon → Prop
  | nothing {ret : UffdRet} (h : LpiOk True (d.lpi a.priv) →
        ∀ r ∈ (d.lpi a.priv).reqs, r.img = a.img → r.start = 0) :
      Answered d a rest ret { d with reads := rest }
  | exit {d₁ : Daemon} (h : handleExit d a.priv = .ok d₁) :
      Answered d a rest .gone { d₁ with reads := rest }
  | finish {ret : UffdRet} {l : Lpi} {req : LazyIov} (himg : req.img = a.img)
      (h : Finished (d.lpi a.priv) l req) :
      Answered d a rest ret { setLpi d a.priv l with reads := rest }

theorem find_img (hok : LpiOk True l) {img : ℕ}
    (hfind : l.reqs.find? (fun r => r.img = img) = some req) :
    req ∈ l.reqs ∧ req.img = img ∧ ∀ r ∈ l.reqs, r.img = img → r = req := by
  have hmem := mem_of_find?_eq_some hfind
  have himg : req.img = img := of_decide_eq_true (find?_some hfind :)
  refine ⟨hmem, himg, ?_⟩
  intro r hr heq
  exact inj_on_of_nodup_map (imgs_nodup (hok.reqs_inj trivial) hok.reqs_filled) hr hmem
    (heq.trans himg.symm)

theorem uffdIoComplete_answered {d₁ : Daemon} {a : AsyncRead} (hok : DaemonOk clear d)
    (h : uffdIoComplete d a nr ret = .ok d₁) (rest : List AsyncRead) :
    Answered d a rest ret { d₁ with reads := rest } := by
  unfold uffdIoComplete at h
  split at h
  · next hex =>
    cases h
    refine .nothing (fun _ r hr => ?_)
    rw [(hok.gone _ hex).2] at hr
    exact absurd hr not_mem_nil
  cases hfind : (d.lpi a.priv).reqs.find? (fun r => r.img = a.img) with
  | none =>
    simp only [hfind] at h
    cases h
    refine .nothing (fun _ r hr himg => ?_)
    have := find?_eq_none.mp hfind r hr
    simp [himg] at this
  | some req =>
    simp only [hfind] at h
    have himg : req.img = a.img := of_decide_eq_true (find?_some hfind :)
    split at h
    · next hzero =>
      cases h
      exact .nothing (fun hl r hr hr' => (find_img hl hfind).2.2 r hr hr' ▸ hzero)
    have hfinish : ∀ n ≤ (req.stop - req.start) / pageSize,
        .ok (finishRequest d a.priv req a.img n) = Except.ok (ε := LazyFault) d₁ →
        Answered d a rest ret { d₁ with reads := rest } := by
      intro n hn h
      obtain ⟨l, hl, hfin⟩ := finishRequest_finished (hok.lpi a.priv) hfind
        (le_trans (Nat.mul_le_mul_right _ hn) (Nat.div_mul_le_self ..))
      cases h
      rw [hl]
      exact .finish himg hfin
    cases ret with
    | failed => simp at h
    | gone => exact .exit h
    | done => exact hfinish _ (min_le_right ..) h
    | short n => exact hfinish _ (le_trans (min_le_right ..) (min_le_right ..)) h

theorem pageServerAsyncRead_answered (hok : DaemonOk clear d)
    (h : pageServerAsyncRead d nr ret = .ok d') :
    ∃ a rest, d.reads = a :: rest ∧ Answered d a rest ret d' := by
  unfold pageServerAsyncRead at h
  split at h
  · cases h
  next a rest hreads =>
  split at h
  · cases h
  next d₁ hdone =>
  cases h
  exact ⟨a, rest, hreads, uffdIoComplete_answered hok hdone rest⟩

theorem DaemonOk.answer (h : DaemonOk clear d) {a : AsyncRead} {rest : List AsyncRead}
    (ha : Answered d a rest ret d') : DaemonOk clear d' := by
  cases ha with
  | nothing _ => exact h.withReads rest
  | exit hexit => exact (h.exit hexit).withReads rest
  | finish _ hfin => exact (h.finish hfin).withReads rest

end Answer

section Start

/-- Ranges in order inside `[lo, hi)`, at their dump-time addresses. -/
structure Collected (lo hi : ℕ) (l : List LazyIov) : Prop where
  bounds : ∀ u ∈ l, lo ≤ u.start ∧ u.start < u.stop ∧ u.stop ≤ hi
  img : ∀ u ∈ l, u.img = u.start
  ordered : Ordered l
  aligned : ∀ u ∈ l, Aligned u

theorem Collected.nil (lo hi : ℕ) : Collected lo hi [] :=
  ⟨nofun, nofun, .nil, nofun⟩

theorem Collected.append {mid : ℕ} {l l' : List LazyIov} (h : Collected lo mid l)
    (h' : Collected mid hi l') (hlo : lo ≤ mid) (hhi : mid ≤ hi) : Collected lo hi (l ++ l') := by
  constructor
  · refine forall_mem_append.mpr ⟨fun u hu => ?_, fun u hu => ?_⟩
    · have := h.bounds u hu
      omega
    · have := h'.bounds u hu
      omega
  · exact forall_mem_append.mpr ⟨h.img, h'.img⟩
  · apply pairwise_append.mpr
    refine ⟨h.ordered, h'.ordered, ?_⟩
    intro u hu v hv
    exact le_trans (h.bounds u hu).2.2 (h'.bounds v hv).1
  · exact forall_mem_append.mpr ⟨h.aligned, h'.aligned⟩

theorem Collected.single {a b : ℕ} (h : a < b) (ha : pageSize ∣ a) (hb : pageSize ∣ b) :
    Collected a b [⟨a, b, a⟩] := by
  constructor
  · exact forall_mem_singleton.mpr ⟨le_refl a, h, le_refl b⟩
  · exact forall_mem_singleton.mpr rfl
  · exact pairwise_singleton ..
  · exact forall_mem_singleton.mpr ⟨ha, hb, ha⟩

theorem collectVmas_collected (hstop : pageSize ∣ stop) (vmas : List Vma)
    (hvmas : ∀ v ∈ vmas, pageSize ∣ v.stop) (start : ℕ) (hlt : start < stop)
    (hdvd : pageSize ∣ start) : Collected start stop (collectVmas stop vmas start).1 ∧
      (collectVmas stop vmas start).2.Sublist vmas := by
  induction vmas generalizing start with
  | nil => exact ⟨.nil _ _, .slnil⟩
  | cons vma vmas ih =>
    obtain ⟨hvma, hvmas⟩ := forall_mem_cons.mp hvmas
    unfold collectVmas
    split
    · obtain ⟨hcol, hsub⟩ := ih hvmas start hlt hdvd
      exact ⟨hcol, hsub.cons _⟩
    simp only
    split
    · have hlen : start + (min stop vma.stop - start) = stop := by omega
      rw [hlen]
      exact ⟨.single hlt hdvd hstop, .refl _⟩
    have hlen : start + (min stop vma.stop - start) = vma.stop := by omega
    obtain ⟨hcol, hsub⟩ := ih hvmas vma.stop (by omega) hvma
    rw [hlen]
    have hhead : Collected start vma.stop [⟨start, vma.stop, start⟩] :=
      .single (by omega) hdvd hvma
    exact ⟨hhead.append hcol (by omega) (by omega), hsub.cons _⟩

theorem entryStop (pe : PagemapEntry) : pe.vaddr + pe.nrPages * pageSize = pe.stop := rfl

theorem collectEntries_collected (pmes : List PagemapEntry) (vmas : List Vma) (lo hi : ℕ)
    (hsorted : SortedMap pmes) (hal : ∀ e ∈ pmes, pageSize ∣ e.vaddr)
    (hpos : ∀ e ∈ pmes, 0 < e.nrPages) (hvmas : ∀ v ∈ vmas, pageSize ∣ v.stop) (hle : lo ≤ hi)
    (hin : ∀ e ∈ pmes, lo ≤ e.vaddr ∧ e.stop ≤ hi) :
    Collected lo hi (collectEntries pmes vmas) ∧
    ∀ u ∈ collectEntries pmes vmas, ∃ e ∈ pmes, pagemapLazy e = true ∧
      e.vaddr ≤ u.start ∧ u.stop ≤ e.stop := by
  induction pmes generalizing vmas lo hi with
  | nil => exact ⟨.nil _ _, nofun⟩
  | cons pe rest ih =>
    obtain ⟨hfirst, hsorted⟩ := pairwise_cons.mp hsorted
    obtain ⟨hpe, hal⟩ := forall_mem_cons.mp hal
    obtain ⟨hn, hpos⟩ := forall_mem_cons.mp hpos
    obtain ⟨⟨hlo, hhi⟩, hin⟩ := forall_mem_cons.mp hin
    have hstop : pageSize ∣ pe.stop := Nat.dvd_add hpe (Nat.dvd_mul_left _ _)
    have hlt : pe.vaddr < pe.stop := Nat.lt_add_of_pos_right (Nat.mul_pos hn (by decide))
    unfold collectEntries
    split
    · next hlazy =>
      obtain ⟨hcol, hsub⟩ := collectVmas_collected hstop vmas hvmas pe.vaddr hlt hpe
      obtain ⟨hcol', hmem⟩ := ih (collectVmas pe.stop vmas pe.vaddr).2 pe.stop hi hsorted hal hpos
        (fun v hv => hvmas v (hsub.subset hv)) hhi (fun e he => ⟨hfirst e he, (hin e he).2⟩)
      constructor
      · have hwide := (Collected.nil lo pe.vaddr).append hcol hlo (le_of_lt hlt)
        exact hwide.append hcol' (by omega) hhi
      refine forall_mem_append.mpr
        ⟨fun u hu => ?_, fun u hu => exists_mem_cons_of_exists (hmem u hu)⟩
      have := hcol.bounds u hu
      exact ⟨pe, mem_cons_self .., hlazy, this.1, this.2.2⟩
    · obtain ⟨hcol, hmem⟩ := ih vmas lo hi hsorted hal hpos hvmas hle hin
      exact ⟨hcol, fun u hu => exists_mem_cons_of_exists (hmem u hu)⟩

theorem Collected.injective {l : List LazyIov} (h : Collected lo hi l) : Injective (tracked l) := by
  have hsame : (tracked l).map Prod.snd = (tracked l).map Prod.fst := by
    apply map_congr_left
    intro p hp
    obtain ⟨v, hv, hpv⟩ := mem_tracked.mp hp
    have := mem_iovPoints.mp hpv
    have := h.img v hv
    omega
  exact ⟨h.ordered.keys_nodup, hsame ▸ h.ordered.keys_nodup⟩

theorem collectEntries_ok (task : LazyTask) :
    ∃ hi, Collected 0 hi (collectEntries task.pmes task.vmas) ∧
      ∀ u ∈ collectEntries task.pmes task.vmas, ∃ e ∈ task.pmes, pagemapLazy e = true ∧
        e.vaddr ≤ u.start ∧ u.stop ≤ e.stop := by
  refine ⟨(task.pmes.map PagemapEntry.stop).sum, ?_⟩
  apply collectEntries_collected _ _ _ _ task.sorted task.aligned task.nonempty task.vmaAligned
    (Nat.zero_le _)
  intro e he
  exact ⟨Nat.zero_le _, single_le_sum (by simp) _ (mem_map_of_mem he)⟩

/-- How an lpi comes out of `ud_open`. -/
def Opened (tasks : List LazyTask) (l : Lpi) : Prop :=
  ∃ task ∈ tasks, ∃ iovs bufSize, collectIovs task = .ok (iovs, bufSize) ∧
    l = ⟨false, iovs, [], none, 1, defaultXferLen, bufSize, task.pmes⟩

theorem startLpis_ok {ls : List Lpi} (h : startLpis tasks = .ok ls) :
    (∀ l ∈ ls, Opened tasks l) ∧ ∀ task ∈ tasks, ∃ l ∈ ls, Opened [task] l := by
  induction tasks generalizing ls with
  | nil =>
    cases h
    exact ⟨nofun, nofun⟩
  | cons task tasks ih =>
    unfold startLpis at h
    split at h
    · next iovs bufSize ls' hcol hrest =>
      cases h
      obtain ⟨hopened, hcovers⟩ := ih hrest
      constructor
      · refine forall_mem_cons.mpr ⟨⟨task, mem_cons_self .., _, _, hcol, rfl⟩, fun l hl => ?_⟩
        obtain ⟨task', htask, rest⟩ := hopened l hl
        exact ⟨task', mem_cons_of_mem _ htask, rest⟩
      · refine forall_mem_cons.mpr ⟨⟨_, mem_cons_self .., task, mem_cons_self .., _, _, hcol, rfl⟩,
          fun task' htask => ?_⟩
        obtain ⟨l, hl, hopen⟩ := hcovers task' htask
        exact ⟨l, mem_cons_of_mem _ hl, hopen⟩
    · simp at h

theorem collectIovs_entries {iovs : List LazyIov} {bufSize : ℕ}
    (h : collectIovs task = .ok (iovs, bufSize)) :
    iovs = collectEntries task.pmes task.vmas ∧
      bufSize = (maxIovLen (iovs.map (fun v => v.stop - v.start))).toNat ∧
      0 ≤ maxIovLen (iovs.map (fun v => v.stop - v.start)) := by
  unfold collectIovs at h
  simp only at h
  split at h
  · simp at h
  · next hsize =>
    obtain ⟨rfl, rfl⟩ := Prod.mk.inj (Except.ok.inj h)
    exact ⟨rfl, rfl, by omega⟩

theorem Opened.ok (h : Opened tasks l) : LpiOk clear l := by
  obtain ⟨task, -, iovs, bufSize, hcol, rfl⟩ := h
  obtain ⟨rfl, -, -⟩ := collectIovs_entries hcol
  obtain ⟨hi, hcollected, -⟩ := collectEntries_ok task
  constructor
  · rw [append_nil]
    exact fun u hu => (hcollected.bounds u hu).2.1
  · rw [append_nil]
    exact hcollected.aligned
  · exact defaultXferLen_ok
  · rw [append_nil]
    exact fun _ => hcollected.injective
  · exact fun _ => hcollected.ordered

/-- At the start every lpi is one of the opened ones, in a list by itself, or not in use. -/
theorem startDaemon_ok (h : startDaemon tasks = .ok d) :
    (∀ i < d.count, Opened tasks (d.lpi i)) ∧ (∀ i, d.count ≤ i → d.lpi i = idleLpi) ∧
      d.lpis = List.range d.count ∧ d.pending = [] ∧ d.reads = [] ∧ d.freed = fun _ => false := by
  unfold startDaemon at h
  split at h
  · simp at h
  next ls hls =>
  cases h
  refine ⟨?_, ?_, rfl, rfl, rfl, rfl⟩
  · intro i hi
    simp only [getElem?_eq_getElem hi]
    exact (startLpis_ok hls).1 _ (getElem_mem hi)
  · intro i hi
    simp only [getElem?_eq_none hi, Option.getD_none]

theorem startDaemon_covers (h : startDaemon tasks = .ok d)
    (htask : task ∈ tasks) : ∃ i, Opened [task] (d.lpi i) := by
  unfold startDaemon at h
  split at h
  · simp at h
  next ls hls =>
  cases h
  obtain ⟨l, hl, hopen⟩ := (startLpis_ok hls).2 task htask
  obtain ⟨i, hi, rfl⟩ := getElem_of_mem hl
  refine ⟨i, ?_⟩
  simp only [getElem?_eq_getElem hi]
  exact hopen

/-- What holds of the lpi of a task and of one not in use holds of all at the start. -/
@[elab_as_elim]
theorem start_lpi {motive : Lpi → Prop} (h : startDaemon tasks = .ok d) (hidle : motive idleLpi)
    (hopen : ∀ task ∈ tasks, ∀ bufSize,
      collectIovs task = .ok (collectEntries task.pmes task.vmas, bufSize) →
      motive ⟨false, collectEntries task.pmes task.vmas, [], none, 1, defaultXferLen, bufSize,
        task.pmes⟩) (i : ℕ) : motive (d.lpi i) := by
  obtain ⟨hopened, hrest, -⟩ := startDaemon_ok h
  by_cases hi : i < d.count
  · obtain ⟨task, htask, iovs, bufSize, hcol, hl⟩ := hopened i hi
    obtain ⟨rfl, -, -⟩ := collectIovs_entries hcol
    exact hl ▸ hopen task htask bufSize hcol
  · exact (hrest i (by omega)) ▸ hidle

theorem DaemonOk.start (h : startDaemon tasks = .ok d) : DaemonOk clear d := by
  obtain ⟨-, hidle, hlpis, hpending, -, -⟩ := startDaemon_ok h
  have hlinks : d.lpis ++ d.pending = List.range d.count := by
    rw [hlpis, hpending, append_nil]
  constructor
  · exact fun i => start_lpi h (.empty rfl rfl defaultXferLen_ok)
      (fun task htask _ hcol => Opened.ok ⟨task, htask, _, _, hcol, rfl⟩) i
  · rw [hlinks]
    exact nodup_range
  · rw [hlinks]
    exact fun i hi => mem_range.mp hi
  · rw [hlinks]
    intro i hi
    rw [mem_range, not_lt] at hi
    rw [hidle i hi]
    exact ⟨rfl, rfl⟩
  · rw [hpending]
    exact fun _ => nofun
  · exact fun i => start_lpi h (fun hex => absurd hex Bool.false_ne_true)
      (fun _ _ _ _ hex => absurd hex Bool.false_ne_true) i

end Start

section Runs

inductive Moved (d : Daemon) : Event → Daemon → Prop
  | idle {i address : ℕ} {ret : UffdRet} : Moved d (.fault i address ret) d
  | faultExit {d' : Daemon} {i address : ℕ} (h : handleExit d i = .ok d') :
      Moved d (.fault i address .gone) d'
  | request {d' : Daemon} {i address : ℕ} {ret : UffdRet} (hi : i ∉ d.pending)
      (h : Requested d i d') : Moved d (.fault i address ret) d'
  | removeExit {d' : Daemon} {i start stop : ℕ} (h : handleExit d i = .ok d') :
      Moved d (.remove i start stop .nomem) d'
  | remove {i start stop : ℕ} (hstart : pageSize ∣ start) (hlen : pageSize ∣ stop - start) :
      Moved d (.remove i start stop .done) (dropLpi d i start (stop - start))
  | unmap {i start stop : ℕ} (hstart : pageSize ∣ start) (hlen : pageSize ∣ stop - start) :
      Moved d (.unmap i start stop) (dropLpi d i start (stop - start))
  | remap {i src dst len : ℕ} (hsrc : pageSize ∣ src) (hdst : pageSize ∣ dst)
      (hlen : pageSize ∣ len) :
      Moved d (.remap i src dst len) (handleRemap d i src dst len)
  | fork {i : ℕ} (hi : Polled d i) : Moved d (.fork i) (handleFork d i)
  | completeForks : Moved d .completeForks (completeForks d)
  | answer {d' : Daemon} {nr : ℕ} {ret : UffdRet} {a : AsyncRead} {rest : List AsyncRead}
      (hreads : d.reads = a :: rest) (h : Answered d a rest ret d') : Moved d (.response nr ret) d'
  | round {d' : Daemon} (h : step .round d = .ok d') : Moved d .round d'

theorem step_moved (hok : DaemonOk clear d) (hdel : Deliverable d e) (h : step e d = .ok d') :
    Moved d e d' := by
  cases e with
  | fault i address ret =>
    rcases handlePageFault_cases (hok.lpi i) h with rfl | ⟨rfl, hexit⟩ | hreq
    · exact .idle
    · exact .faultExit hexit
    · exact .request hdel.2.1 hreq
  | remove i start stop ret =>
    cases ret with
    | done =>
      cases h
      exact .remove hdel.2.1 (Nat.dvd_sub hdel.2.2.1 hdel.2.1)
    | failed => cases h
    | nomem =>
      simp only [step, handleRemove] at h
      cases hexit : handleExit d i with
      | error f => simp [hexit, Except.map] at h
      | ok d₁ =>
        simp only [hexit] at h
        exact .removeExit (h ▸ hexit)
  | unmap i start stop =>
    cases h
    exact .unmap hdel.2.1 (Nat.dvd_sub hdel.2.2.1 hdel.2.1)
  | remap i src dst len =>
    cases h
    exact .remap hdel.2.1 hdel.2.2.1 hdel.2.2.2
  | fork i =>
    cases h
    exact .fork hdel
  | completeForks =>
    cases h
    exact .completeForks
  | response nr ret =>
    obtain ⟨a, rest, hreads, ha⟩ := pageServerAsyncRead_answered hok h
    exact .answer hreads ha
  | round => exact .round h

theorem DaemonOk.next (hok : DaemonOk clear d) (hdel : Deliverable d e)
    (hfree : clear → ClearRemap d e) (h : step e d = .ok d') : DaemonOk clear d' := by
  cases step_moved hok hdel h with
  | idle => exact hok
  | faultExit hexit | removeExit hexit => exact hok.exit hexit
  | request hi hreq => exact hok.request hi hreq
  | remove hstart hlen | unmap hstart hlen =>
    exact hok.reshape (dropped_ok (hok.lpi _) hstart (intLen_dvd hlen))
      (dropped_reshaped (hok.lpi _) _ _)
  | remap hsrc hdst hlen =>
    exact hok.reshape (remapped_ok (hok.lpi _) hsrc hdst hlen hfree)
      (remapped_reshaped (hok.lpi _) _ _ _)
  | fork _ => exact hok.fork _
  | completeForks => exact hok.forksDone
  | answer _ ha => exact hok.answer ha
  | round h => exact (round_rule (fun _ _ _ _ _ _ _ => trivial) (fun _ _ _ _ _ _ => trivial) hok
      trivial h).1

theorem Reachable.daemonOk_of {ok : Daemon → Event → Prop} (h : Reachable tasks ok d)
    (hfree : clear → ∀ d e, ok d e → ClearRemap d e) : DaemonOk clear d := by
  apply Reach.invariant (fun d hd => DaemonOk.start hd) _ h
  intro d e d' _ hok he hstep
  exact hok.next hstep.1 (fun hc => hfree hc d e he) hstep.2

theorem Reachable.daemonOk {ok : Daemon → Event → Prop} (h : Reachable tasks ok d) :
    DaemonOk False d :=
  Reachable.daemonOk_of h False.elim

theorem Reachable.clearOk {ok : Daemon → Event → Prop} (h : Reachable tasks ok d)
    (hfree : ∀ d e, ok d e → ClearRemap d e) : DaemonOk True d :=
  Reachable.daemonOk_of h fun _ => hfree

end Runs

end Criu.LazyRuns

import Criu.LazyAddressSpace

/-!
Requests in flight and the answers they wait for. An answer finds its request by the dump-time
address of the first page only. As long as no event cuts the front off a request or splits it,
and nothing is tracked at address zero, every request has an outstanding read that takes it out
of `reqs`; a request whose front was cut off stays there for ever.
-/

namespace Criu.LazyCompletion

open Run Segment Pagemap ReadCursor IovLists IovTracking LazyDaemon LazyState LazyRuns List

variable {len : ℕ} {d : Daemon} {reads : List AsyncRead}
open LazyAddressSpace

variable {d' : Daemon} {l : List LazyIov} {i src dst : ℕ} {tasks : List LazyTask} {a : AsyncRead}
  {ret : UffdRet}

section Lists

/-- If no range is cut in front or in the middle, what is left begins where a range began. -/
theorem dropIovs_fronts (hf : Filled l) {addr : ℕ}
    (hcut : ∀ v ∈ l, Meets addr (addr + len) v → v.stop ≤ addr + len) :
    ∀ u ∈ dropIovs l addr len, ∃ v ∈ l, u.img = v.img ∧ u.start = v.start := by
  intro u hu
  obtain ⟨ms, -, -, hstay, -⟩ := remapLoop_moved id hf addr len
  obtain ⟨v, hv, hpiece, hstart⟩ := hstay u hu
  obtain ⟨hlo, hlt, hhi, himg⟩ := hpiece
  have hsame : u.start = v.start := by
    by_contra hne
    have := hcut v hv ⟨by omega, by omega, by omega⟩
    omega
  exact ⟨v, hv, by omega, hsame⟩

/-- If every range that is met lies inside, only whole ranges are moved. -/
theorem remapIovs_whole (hf : Filled l) (hinj : Injective (tracked l))
    (hin : ∀ v ∈ l, Meets src (src + len) v → src ≤ v.start ∧ v.stop ≤ src + len) :
    ∀ u ∈ (remapIovs l src dst len).2, ∃ v ∈ l, u.img = v.img ∧
      (u.start = v.start ∨ dst ≤ u.start) := by
  obtain ⟨ms, -, hmap⟩ := remapIovs_remapped hf src dst len
  intro u hu
  rcases hmap.subset hu with hu | ⟨m, hm, rfl⟩
  · obtain ⟨v, hv, himg, hstart⟩ := dropIovs_fronts hf (fun v hv h => (hin v hv h).2) u hu
    exact ⟨v, hv, himg, .inl hstart⟩
  · obtain ⟨v, hv, hlo, hlt, hhi, himg⟩ := hmap.cut m hm
    have hinside := hmap.inside m hm
    have hmet := hin v hv ⟨by omega, by omega, by omega⟩
    -- no range begins or ends inside another, and neither does the source range
    obtain ⟨hstart, -⟩ := hmap.edges (fun a => ¬ (v.start < a ∧ a < v.stop)) (by omega) (by omega)
      (fun w hw => by
        have hwf := hf w hw
        by_cases hne : w = v
        · subst hne
          omega
        · have := @Pairwise.forall _ _ _ ⟨fun _ _ => Or.symm⟩ (apart_of_injective hinj hf) _ hw _ hv
            hne
          omega) m (mem_append_right _ hm)
    exact ⟨v, hv, by simp only [moveIov]; omega, .inr (Nat.le_add_left ..)⟩

end Lists

/-- An event that leaves the front of every request in place: what is dropped of a request is
its end, and a REMAP moves whole requests, not to address zero and not to where something is
tracked. -/
def KeepsFronts (d : Daemon) : Event → Prop
  | .remove i start stop .done | .unmap i start stop =>
      ∀ r ∈ (d.lpi i).reqs, Meets start (start + intLen (stop - start)) r →
        r.stop ≤ start + intLen (stop - start)
  | .remap i src dst len => Untracked (d.lpi i) dst (dst + len) ∧ dst ≠ 0 ∧
      ∀ r ∈ (d.lpi i).reqs, Meets src (src + len) r → src ≤ r.start ∧ r.stop ≤ src + len
  | _ => True

theorem KeepsFronts.clearRemap {e : Event} (h : KeepsFronts d e) : ClearRemap d e := by
  cases e with
  | remap => exact h.1
  | _ => trivial

structure Matched (d : Daemon) : Prop where
  nonzero : ∀ i, ∀ v ∈ (d.lpi i).iovs ++ (d.lpi i).reqs, v.start ≠ 0
  read : ∀ i, ∀ r ∈ (d.lpi i).reqs, ∃ a ∈ d.reads, a.priv = i ∧ a.img = r.img

namespace Matched

variable (h : Matched d)
include h

theorem set {l : Lpi} (hzero : ∀ v ∈ l.iovs ++ l.reqs, v.start ≠ 0)
    (hreads : ∀ r ∈ l.reqs, ∃ a ∈ reads, a.priv = i ∧ a.img = r.img)
    (hothers : ∀ a ∈ d.reads, a.priv ≠ i → a ∈ reads) :
    Matched { setLpi d i l with reads := reads } := by
  constructor
  · exact fun j => setLpi_cases hzero (fun j _ => h.nonzero j) j
  · refine fun j => setLpi_cases hreads (fun j hj r hr => ?_) j
    obtain ⟨a, ha, hpriv, himg⟩ := h.read j r hr
    exact ⟨a, hothers a ha (hpriv ▸ hj), hpriv, himg⟩

/-- Pieces of what is tracked do not begin at zero. -/
theorem pieces (hl : ∀ u ∈ l, ∃ v ∈ (d.lpi i).iovs ++ (d.lpi i).reqs, v.start ≤ u.start) :
    ∀ u ∈ l, u.start ≠ 0 := by
  intro u hu
  obtain ⟨v, hv, hle⟩ := hl u hu
  have := h.nonzero i v hv
  omega

theorem request (hok : DaemonOk True d) (hr : Requested d i d') : Matched d' := by
  obtain ⟨l', req, nr, htaken, -, -, rfl⟩ := hr
  apply h.set
  · apply h.pieces
    exact fun u hu => (htaken.pieces (hok.lpi i) u hu).imp fun _ hv => ⟨hv.1, hv.2.lo⟩
  · rw [htaken.reqs]
    refine forall_mem_cons.mpr
      ⟨⟨_, mem_append_right _ (mem_singleton_self _), rfl, rfl⟩, fun r hr => ?_⟩
    obtain ⟨a, ha, hmatch⟩ := h.read i r hr
    exact ⟨a, mem_append_left _ ha, hmatch⟩
  · exact fun a ha _ => mem_append_left _ ha

theorem exit (hexit : handleExit d i = .ok d')
    (hothers : ∀ a ∈ d.reads, a.priv ≠ i → a ∈ reads) : Matched { d' with reads := reads } := by
  obtain ⟨-, rfl⟩ := handleExit_ok hexit
  have hset := h.set (l := { d.lpi i with iovs := [], reqs := [], exited := true })
    nofun nofun hothers
  exact ⟨hset.nonzero, hset.read⟩

theorem drop (hok : DaemonOk True d) {start : ℕ}
    (hcut : ∀ r ∈ (d.lpi i).reqs, Meets start (start + intLen len) r →
      r.stop ≤ start + intLen len) :
    Matched (dropLpi d i start len) := by
  have hi := dropIovs_cut (hok.lpi i).iovs_filled start (intLen len)
  have hr := dropIovs_cut (hok.lpi i).reqs_filled start (intLen len)
  refine h.set ?_ ?_ (fun a ha _ => ha)
  · apply h.pieces
    exact forall_mem_append.mpr
      ⟨fun u hu => (hi u hu).imp fun _ hv => ⟨mem_append_left _ hv.1, hv.2.lo⟩,
        fun u hu => (hr u hu).imp fun _ hv => ⟨mem_append_right _ hv.1, hv.2.lo⟩⟩
  · intro r hr
    obtain ⟨v, hv, himg, -⟩ := dropIovs_fronts (hok.lpi i).reqs_filled hcut r hr
    rw [himg]
    exact h.read i v hv

theorem remap (hok : DaemonOk True d) (hdst : dst ≠ 0)
    (hin : ∀ r ∈ (d.lpi i).reqs, Meets src (src + len) r → src ≤ r.start ∧ r.stop ≤ src + len) :
    Matched (handleRemap d i src dst len) := by
  have hl := hok.lpi i
  have hwhole := @remapIovs_whole len _ src dst hl.reqs_filled (hl.reqs_inj trivial) hin
  obtain ⟨ms, -, hmap⟩ := remapIovs_remapped hl.iovs_filled src dst len
  refine h.set ?_ ?_ (fun a ha _ => ha)
  · intro u hu
    rcases mem_append.mp hu with hu | hu
    · rcases hmap.subset hu with hu | ⟨w, -, rfl⟩
      · obtain ⟨v, hv, hp⟩ := dropIovs_cut hl.iovs_filled src len u hu
        have := h.nonzero i v (mem_append_left _ hv)
        have := hp.lo
        omega
      · simp only [moveIov]
        omega
    · obtain ⟨v, hv, -, hstart⟩ := hwhole u hu
      have := h.nonzero i v (mem_append_right _ hv)
      omega
  · intro r hr
    obtain ⟨v, hv, himg, -⟩ := hwhole r hr
    rw [himg]
    exact h.read i v hv

theorem answer (hok : DaemonOk True d) {rest : List AsyncRead}
    (hreads : d.reads = a :: rest) (ha : Answered d a rest ret d') :
    Matched d' := by
  have hrest : ∀ b ∈ d.reads, b ≠ a → b ∈ rest := by
    intro b hb hne
    rw [hreads] at hb
    exact (mem_cons.mp hb).resolve_left hne
  have hothers : ∀ b ∈ d.reads, b.priv ≠ a.priv → b ∈ rest := fun b hb hne =>
    hrest b hb (fun heq => hne (heq ▸ rfl))
  cases ha with
  | nothing hnone =>
    constructor
    · exact h.nonzero
    intro i r hr
    obtain ⟨b, hb, hpriv, himg⟩ := h.read i r hr
    refine ⟨b, hrest b hb ?_, hpriv, himg⟩
    intro heq
    rw [heq] at hpriv himg
    rw [← hpriv] at hr
    exact h.nonzero _ r (mem_append_right _ hr) (hnone (hok.lpi _) r hr himg.symm)
  | exit hexit => exact h.exit hexit hothers
  | @finish _ l req himg hfin =>
    have hreqs := hfin.reqs (hok.lpi a.priv)
    have hnodup := imgs_nodup ((hok.lpi a.priv).reqs_inj trivial) (hok.lpi a.priv).reqs_filled
    rw [(hreqs.map _).nodup_iff, map_cons, nodup_cons] at hnodup
    apply h.set
    · apply h.pieces
      exact fun u hu => (hfin.pieces u hu).imp fun _ hv => ⟨hv.1, hv.2.lo⟩
    · intro r hr
      have hold := hreqs.mem_iff.mpr (mem_cons_of_mem req hr)
      obtain ⟨b, hb, hpriv, hbimg⟩ := h.read a.priv r hold
      refine ⟨b, hrest b hb ?_, hpriv, hbimg⟩
      intro heq
      apply hnodup.1
      rw [himg, ← heq, hbimg]
      exact mem_map_of_mem hr
    · exact hothers

theorem release (i : ℕ) : Matched (releaseLpi d i) := by
  obtain ⟨lpi, freed, heq, hput⟩ := releaseLpi_frame d i
  rw [heq]
  constructor
  · exact fun j v hv => h.nonzero j v ((hput j).subset.1 hv)
  · exact fun j r hr => h.read j r ((hput j).subset.2 hr)

theorem fork (hok : DaemonOk True d) (i : ℕ) : Matched (handleFork d i) := by
  have hchild := forkedLpi_forked d i
  obtain ⟨root, heq⟩ := handleFork_eq i
  rw [heq]
  have hroot := h.set (l := { d.lpi root with refCnt := (d.lpi root).refCnt + 1 })
    (h.nonzero root) (h.read root) (fun a ha _ => ha)
  have hstay : ∀ a ∈ d.reads, a.priv ≠ d.count → a ∈ d.reads := fun a ha _ => ha
  have hall := hroot.set (l := forkedLpi d i) ?_ ?_ hstay
  · exact ⟨hall.nonzero, hall.read⟩
  · exact fun v hv => h.nonzero i v (hchild.subset hv)
  · rw [hchild.reqs (hok.lpi i)]
    exact nofun

theorem next (hok : DaemonOk True d) {e : Event} (hkeep : KeepsFronts d e)
    (hdel : Deliverable d e) (hstep : step e d = .ok d') : Matched d' := by
  cases step_moved hok hdel hstep with
  | idle => exact h
  | faultExit hexit | removeExit hexit =>
    obtain ⟨-, rfl⟩ := handleExit_ok hexit
    exact h.exit hexit (fun a ha _ => ha)
  | request _ hreq => exact h.request hok hreq
  | remove | unmap => exact h.drop hok hkeep
  | remap => exact h.remap hok hkeep.2.1 hkeep.2.2
  | fork _ => exact h.fork hok _
  | completeForks => exact ⟨h.nonzero, h.read⟩
  | answer hreads ha => exact h.answer hok hreads ha
  | round hstep =>
    exact (@round_rule _ _ Matched _ (fun d i _ h _ _ _ => h.release i)
      (fun d i d' hok h hreq => h.request hok hreq) hok h hstep).2

end Matched

def NoZeroPage (tasks : List LazyTask) : Prop :=
  ∀ task ∈ tasks, ∀ e ∈ task.pmes, pagemapLazy e = true → e.vaddr ≠ 0

theorem Matched.start (hzero : NoZeroPage tasks) (h : startDaemon tasks = .ok d) : Matched d := by
  constructor
  · refine fun i => start_lpi h nofun (fun task htask _ _ => ?_) i
    obtain ⟨-, -, hentry⟩ := collectEntries_ok task
    rw [append_nil]
    intro v hv
    obtain ⟨e, he, hlazy, hle, -⟩ := hentry v hv
    have := hzero task htask e he hlazy
    omega
  · exact fun i => start_lpi h nofun nofun i

theorem Reachable.frontsOk (h : Reachable tasks KeepsFronts d) : DaemonOk True d :=
  Reachable.clearOk h fun _ _ => KeepsFronts.clearRemap

theorem Reachable.matched (hzero : NoZeroPage tasks) (h : Reachable tasks KeepsFronts d) :
    Matched d := by
  apply Reach.invariant (fun d hd => Matched.start hzero hd) _ h
  intro d e d' hr hm hkeep hstep
  exact hm.next (Reachable.frontsOk hr) hkeep hstep.1 hstep.2

/-- The answer of the matching read takes the request out of `reqs`, for any number of pages and
unless the copy fails for good. -/
theorem completion_removes (hok : DaemonOk True d) (hm : Matched d) {r : LazyIov}
    (hr : r ∈ (d.lpi i).reqs) (hpriv : a.priv = i) (himg : a.img = r.img) (nr : ℕ)
    (hret : ret ≠ .failed) :
    ∃ d', uffdIoComplete d a nr ret = .ok d' ∧ ∀ v ∈ (d'.lpi i).reqs, ¬ Meets r.start r.stop v := by
  subst hpriv
  have hl := hok.lpi a.priv
  have hne : (d.lpi a.priv).reqs ≠ [] := ne_nil_of_mem hr
  have hlive : ¬ (d.lpi a.priv).exited = true := fun hex => hne (hok.gone _ hex).2
  have hstart : r.start ≠ 0 := hm.nonzero _ r (mem_append_right _ hr)
  have hfind : (d.lpi a.priv).reqs.find? (fun v => v.img = a.img) = some r := by
    cases hf : (d.lpi a.priv).reqs.find? (fun v => v.img = a.img) with
    | none =>
      have := find?_eq_none.mp hf r hr
      simp [himg] at this
    | some req => rw [(find_img hl hf).2.2 r hr himg.symm]
  have hfinished : ∀ n ≤ (r.stop - r.start) / pageSize, ∀ v ∈
      ((finishRequest d a.priv r a.img n).lpi a.priv).reqs, ¬ Meets r.start r.stop v := by
    intro n hn v hv hmeet
    have hpages : n * pageSize ≤ r.stop - r.start :=
      le_trans (Nat.mul_le_mul_right _ hn) (Nat.div_mul_le_self ..)
    obtain ⟨l', heq, hfin⟩ := finishRequest_finished hl hfind hpages
    rw [heq, setLpi_self] at hv
    have hsymm := (hfin.reqs hl).pairwise_iff (R := fun u v : LazyIov =>
      u.stop ≤ v.start ∨ v.stop ≤ u.start) (fun h => h.symm)
    have hapart := hsymm.mp (apart_of_injective (hl.reqs_inj trivial) hl.reqs_filled)
    have := (pairwise_cons.mp hapart).1 v hv
    obtain ⟨-, h₁, h₂⟩ := hmeet
    omega
  simp only [uffdIoComplete, if_neg hlive, hfind, if_neg hstart]
  cases ret with
  | failed => exact absurd rfl hret
  | done => exact ⟨_, rfl, hfinished _ (min_le_right ..)⟩
  | short n => exact ⟨_, rfl, hfinished _ (le_trans (min_le_right ..) (min_le_right ..))⟩
  | gone =>
    have hlink : a.priv ∈ d.lpis := (mem_append.mp (hok.linked_of_reqs hne)).resolve_right
      fun hin => hne (hok.young trivial _ hin)
    simp only [handleExit, if_pos hlink]
    refine ⟨_, rfl, fun v hv => ?_⟩
    rw [setLpi_self] at hv
    exact absurd hv not_mem_nil

/-- In every run that keeps the fronts of requests, each request is matched by an outstanding
read whose answer takes the whole range out of `reqs`; when all answers have come, no lpi has
requests left. -/
theorem requests_are_answered {tasks : List LazyTask} {d : Daemon} (hzero : NoZeroPage tasks)
    (h : Reachable tasks KeepsFronts d) :
    (∀ i, ∀ r ∈ (d.lpi i).reqs, ∃ a ∈ d.reads, a.priv = i ∧ a.img = r.img ∧
      ∀ nr ret, ret ≠ .failed → ∃ d', uffdIoComplete d a nr ret = .ok d' ∧
        ∀ v ∈ (d'.lpi i).reqs, ¬ Meets r.start r.stop v) ∧
      (d.reads = [] → ∀ i, (d.lpi i).reqs = []) := by
  have hok := Reachable.frontsOk h
  have hm := Reachable.matched hzero h
  constructor
  · intro i r hr
    obtain ⟨a, ha, hpriv, himg⟩ := hm.read i r hr
    exact ⟨a, ha, hpriv, himg, fun nr ret hret => completion_removes hok hm hr hpriv himg nr hret⟩
  intro hreads i
  apply eq_nil_iff_forall_not_mem.mpr
  intro r hr
  obtain ⟨a, ha, -⟩ := hm.read i r hr
  rw [hreads] at ha
  exact absurd ha not_mem_nil

instance (d : Daemon) (e : Event) : Decidable (KeepsFronts d e) :=
  match e with
  | .remove i start stop .done | .unmap i start stop =>
      inferInstanceAs (Decidable (∀ r ∈ (d.lpi i).reqs,
        Meets start (start + intLen (stop - start)) r → r.stop ≤ start + intLen (stop - start)))
  | .remap i src dst len =>
      inferInstanceAs (Decidable (Untracked (d.lpi i) dst (dst + len) ∧ dst ≠ 0 ∧
        ∀ r ∈ (d.lpi i).reqs, Meets src (src + len) r → src ≤ r.start ∧ r.stop ≤ src + len))
  | .remove _ _ _ .nomem | .remove _ _ _ .failed | .fault .. | .fork _ | .completeForks
  | .response .. | .round => inferInstanceAs (Decidable True)

/-- Three pages are in flight, the last one is unmapped; the request still has its read. -/
theorem request_answered_after_unmap : ∃ d, Reachable [threePages] KeepsFronts d ∧
    (d.lpi 0).reqs ≠ [] ∧
    ((∀ i, ∀ r ∈ (d.lpi i).reqs, ∃ a ∈ d.reads, a.priv = i ∧ a.img = r.img ∧
      ∀ nr ret, ret ≠ .failed → ∃ d', uffdIoComplete d a nr ret = .ok d' ∧
        ∀ v ∈ (d'.lpi i).reqs, ¬ Meets r.start r.stop v) ∧
      (d.reads = [] → ∀ i, (d.lpi i).reqs = [])) := by
  have hrun : runDaemon (fun d e => decide (KeepsFronts d e)) [threePages]
      [.round, .unmap 0 0x12000 0x13000] = some _ := rfl
  have hreach : Reachable [threePages] KeepsFronts _ :=
    Reach.mono (fun _ _ h => of_decide_eq_true h) (runDaemon_reachable hrun)
  refine ⟨_, hreach, by decide, requests_are_answered ?_ hreach⟩
  unfold NoZeroPage
  decide

/-- Three pages are in flight and the first one is unmapped: all answers have come, and the
rest of the request is still in `reqs`. -/
theorem cut_request_stays_queued : ∃ d, Reachable [threePages] (fun _ _ => True) d ∧
    d.reads = [] ∧ (d.lpi 0).exited = false ∧ (d.lpi 0).reqs ≠ [] := by
  have hrun : runDaemon (fun _ _ => true) [threePages]
      [.round, .unmap 0 0x10000 0x11000, .response 3 .done] = some _ := rfl
  exact ⟨_, Reach.mono (fun _ _ _ => trivial) (runDaemon_reachable hrun), by decide, by decide,
    by decide⟩

end Criu.LazyCompletion

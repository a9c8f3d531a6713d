import Criu.FdDelivery

/-!
No wake-up is lost. A message for an entry is still ahead in the pass of its task, or a wake-up is
pending: the event bit of the task is set, or a sender stands between the message and
`set_fds_event`. A task that sleeps has nothing ahead, so it sleeps over a message only as long as
the sender takes to set the bit. The exception is a master whose visit in this pass was over before
it came to the message, as that of one that an eventpoll file waits for.
-/

namespace Criu.FdWakeups

open FdDistribution FdDelivery Function

variable {τ ε δ : Type} {L : Layout τ ε δ} {s s' : State τ ε} {t : τ}

def target : Pc τ ε → Option τ
  | .signal t _ _ _ => some t
  | _ => none

/-- A sender stands between its message to the task and `set_fds_event`. -/
def Signalled (s : State τ ε) (t : τ) : Prop :=
  ∃ x, target (s.pc x) = some t

def Pending (s : State τ ε) (t : τ) : Prop :=
  s.event t = true ∨ Signalled s t

def Wake (s : State τ ε) : Prop :=
  ∀ t l, rest (s.pc t) = some l → ∀ m ∈ s.queue t, (m ∈ l ∨ m ∈ s.skipped t) ∨ Pending s t

variable {pc : Pc τ ε} {l : List ε}

variable [DecidableEq τ]

/-- A pending wake-up stays pending until its task clears the bit. -/
theorem Pending.move {x : τ} (hpc : s'.pc = update s.pc t pc)
    (hev : s.event x = true → s'.event x = true)
    (hsig : target (s.pc t) = some x → s'.event x = true) (h : Pending s x) :
    Pending s' x := by
  rcases h with hset | ⟨y, hy⟩
  · exact .inl (hev hset)
  · by_cases hyt : y = t
    · exact .inl (hsig (hyt ▸ hy))
    · exact .inr ⟨y, by rw [hpc, update_of_ne hyt, hy]⟩

/-- One task moves. A new message comes with a wake-up that is pending. -/
theorem Wake.move (h : Wake s) (hpc : s'.pc = update s.pc t pc)
    (hskip : ∀ x, x ≠ t → s'.skipped x = s.skipped x)
    (hev : ∀ x, x ≠ t → s.event x = true → s'.event x = true)
    (hsig : ∀ x, target (s.pc t) = some x → s'.event x = true)
    (hq : ∀ x, ∀ m ∈ s'.queue x, m ∈ s.queue x ∨ Pending s' x)
    (hown : ∀ l, rest pc = some l → ∀ m ∈ s.queue t,
      (m ∈ l ∨ m ∈ s'.skipped t) ∨ Pending s' t) : Wake s' := by
  intro x l hl m hm
  rcases hq x m hm with hold | hp
  swap
  · exact .inr hp
  by_cases hx : x = t
  · subst hx
    rw [hpc, update_self] at hl
    exact hown l hl m hold
  · rw [hpc, update_of_ne hx] at hl
    rw [hskip x hx]
    exact (h x l hl m hold).imp id (Pending.move hpc (hev x hx) (hsig x))

/-- One task moves on in its pass, past entries that no queued message is for. -/
theorem Wake.pass (h : Wake s) (hpc : s'.pc = update s.pc t pc) (hq : s'.queue = s.queue)
    (hev : s'.event = s.event) (hskip : s'.skipped = s.skipped) (hns : target (s.pc t) = none)
    (hl : rest (s.pc t) = some l)
    (hrest : ∀ l', rest pc = some l' → ∀ m ∈ s.queue t, m ∈ l → m ∈ l' ∨ m ∈ s.skipped t) :
    Wake s' := by
  refine h.move hpc (fun x _ => hskip ▸ rfl) (fun x _ he => hev ▸ he)
    (fun x hs => nomatch hns.symm.trans hs) (fun x m hm => .inl (hq ▸ hm)) fun l' hl' m hm => ?_
  rw [hskip]
  refine (h t l hl m hm).imp (fun hin => hin.elim (hrest l' hl' m hm) .inr) ?_
  exact Pending.move hpc (fun he => hev ▸ he) fun hs => nomatch hns.symm.trans hs

theorem Wake.setQueue (h : Wake s) {q : List ε} (hpc : s'.pc = s.pc) (hev : s'.event = s.event)
    (hskip : s'.skipped = s.skipped) (hq : s'.queue = update s.queue t q)
    (hsub : q ⊆ s.queue t) : Wake s' := by
  intro x l hl m hm
  have hold : m ∈ s.queue x := by
    rw [hq, update_apply] at hm
    split at hm
    · rename_i hx
      exact hx ▸ hsub hm
    · exact hm
  rw [hskip]
  refine (h x l (hpc ▸ hl) m hold).imp id fun hp => ?_
  rw [Pending, Signalled, hpc, hev]
  exact hp

theorem Wake.send (h : Wake s) {u : ε} {c : Cursor ε} {v : Visit ε} {w w' : Work ε}
    (hpc : s.pc t = .serve c v w) :
    Wake ((s.send L u).goto t (.signal (L.task u) c v w')) := by
  have hsig : Pending ((s.send L u).goto t (.signal (L.task u) c v w')) (L.task u) :=
    .inr ⟨t, by rw [State.goto_pc, update_self]; rfl⟩
  have hns : target (s.pc t) = none := hpc ▸ rfl
  refine h.move rfl (fun _ _ => rfl) (fun x _ he => he) (fun x hs => nomatch hns.symm.trans hs)
    (fun x m hm => ?_) fun l hl m hm => ?_
  · change m ∈ (s.send L u).queue x at hm
    rw [State.send, State.setQueue_queue, update_apply] at hm
    split at hm
    · rename_i hx
      exact .inr (hx ▸ hsig)
    · exact .inl hm
  · cases hl
    refine (h t c.todo (hpc ▸ rfl) m hm).imp id ?_
    exact Pending.move rfl id fun hs => nomatch hns.symm.trans hs

/-- The sender sets the bit, and the wake-up stays pending. -/
theorem Wake.signal (h : Wake s) {x : τ} {c : Cursor ε} {v : Visit ε} {w : Work ε}
    (hpc : s.pc t = .signal x c v w) :
    Wake ((s.setEvent x true).goto t (.serve c v w)) := by
  have hev : ∀ y, s.event y = true → (s.setEvent x true).event y = true := by
    intro y hy
    rw [State.setEvent_event, update_apply, hy, ite_self]
  have hsig : ∀ y, target (s.pc t) = some y → (s.setEvent x true).event y = true := by
    intro y hy
    rw [hpc] at hy
    cases hy
    exact update_self ..
  refine h.move rfl (fun _ _ => rfl) (fun y _ => hev y) hsig (fun y m hm => .inl hm)
    fun l hl m hm => ?_
  cases hl
  exact (h t c.todo (hpc ▸ rfl) m hm).imp id (Pending.move (s := s) rfl (hev t) (hsig t))

theorem Wake.skip (h : Wake s) {fle : ε} : Wake (s.setSkipped t (fle :: s.skipped t)) := by
  intro x l hl m hm
  refine (h x l hl m hm).imp (Or.imp id fun hin => ?_) id
  rw [State.setSkipped_skipped, update_apply]
  split
  · rename_i hx
    exact List.mem_cons_of_mem _ (hx ▸ hin)
  · exact hin

theorem Wake.passEnd {c : Cursor ε} (h : Wake s) (hns : target (s.pc t) = none)
    (hl : rest (s.pc t) = some []) : Wake (passEnd s t c) := by
  unfold FdDistribution.passEnd
  split
  · refine h.pass rfl rfl rfl rfl hns hl fun l' hl' m _ hin => ?_
    cases hl'
    exact .inl hin
  · split
    · exact h.pass rfl rfl rfl rfl hns hl nofun
    · exact h.pass rfl rfl rfl rfl hns hl nofun

variable [DecidableEq ε] {c : Cursor ε} {v : Visit ε} {w : Work ε} {o : Opens ε} {fle : ε}

section

variable (h : Wake s)
include h

theorem Wake.finishVisit (hns : target (s.pc t) = none) (hl : rest (s.pc t) = some l)
    (htodo : ∀ m ∈ s.queue t, m ∈ l → m ∈ c.todo ∨ m ∈ s.skipped t) :
    Wake (finishVisit s t c v) := by
  unfold FdDistribution.finishVisit
  split
  · refine h.pass rfl rfl rfl rfl hns hl fun l' hl' => ?_
    cases hl'
    exact htodo
  · refine h.pass rfl rfl rfl rfl hns hl fun l' hl' => ?_
    cases hl'
    exact htodo
  · exact h.pass rfl rfl rfl rfl hns hl nofun

/-- A follower that has its file is passed; no message for it is queued. -/
theorem Wake.openReceived (hi : Inv L s) (hns : target (s.pc t) = none)
    (hl : rest (s.pc t) = some (fle :: c.todo)) (hr : s.received fle = true) :
    Wake (openReceived s t c fle o) := by
  refine h.finishVisit hns hl fun m hm hin => .inl ((List.mem_cons.mp hin).resolve_left ?_)
  rintro rfl
  rw [(hi.queued hm).2.1] at hr
  exact nomatch hr

theorem Wake.openMaster (hns : target (s.pc t) = none) (hl : rest (s.pc t) = some (fle :: c.todo))
    (hfle : fle ∈ s.queue t → fle ∈ s.skipped t) (hr : openMaster L s t c fle o = some s') :
    Wake s' := by
  simp only [FdDistribution.openMaster] at hr
  split at hr
  · cases hr
    refine h.pass rfl rfl rfl rfl hns hl fun l' hl' m hm hin => ?_
    cases hl'
    rcases List.mem_cons.mp hin with rfl | hin
    · exact .inr (hfle hm)
    · exact .inl hin
  · cases hr

theorem Wake.visitEntry (hi : Inv L s)
    (hns : target (s.pc t) = none) (hl : rest (s.pc t) = some (fle :: c.todo))
    (hin : fle ∈ s.listed t) (hr : visitEntry L s t c fle o = some s') : Wake s' := by
  simp only [FdDistribution.visitEntry] at hr
  by_cases hlead : L.Leads fle
  · rw [if_pos hlead] at hr
    split at hr
    · split at hr
      · cases hr
        refine h.pass rfl rfl rfl rfl hns hl fun l' hl' m _ hin => ?_
        cases hl'
        exact .inl hin
      · cases hr
    · refine h.skip.openMaster hns hl (fun _ => ?_) hr
      rw [State.setSkipped_skipped, update_self]
      exact List.mem_cons_self
  rw [if_neg hlead] at hr
  simp only [hi.check_follower hlead hin] at hr
  split at hr
  · rename_i hrec
    cases hr
    exact h.openReceived hi hns hl hrec
  · cases hr
    refine h.pass rfl rfl rfl rfl hns hl fun l' hl' m _ hin => ?_
    cases hl'
    exact .inl hin

theorem Wake.receiveOne (hi : Inv L s) (hpc : s.pc t = .receive c fle)
    (hr : receiveOne L s t c fle o = some s') : Wake s' := by
  have hns : target (s.pc t) = none := hpc ▸ rfl
  have hl : rest (s.pc t) = some (fle :: c.todo) := hpc ▸ rfl
  simp only [FdDistribution.receiveOne] at hr
  split at hr
  · rename_i hnil
    cases hr
    refine h.pass rfl rfl rfl rfl hns hl fun l' _ m hm => ?_
    rw [hnil] at hm
    exact absurd hm List.not_mem_nil
  rename_i m q hqueue
  have h' : Wake ((s.setQueue t q).plantFd m) :=
    h.setQueue rfl rfl rfl rfl (hqueue ▸ List.subset_cons_self ..)
  have hi' := hi.plantFd hqueue
  split at hr
  · cases hr
    have hpop : Wake (s.setQueue t q) :=
      h.setQueue rfl rfl rfl rfl (hqueue ▸ List.subset_cons_self ..)
    refine hpop.pass rfl rfl rfl rfl hns hl fun l' hl' => ?_
    cases hl'
  split at hr
  · cases hr
    exact h'
  rename_i hfle
  have hrec : ((s.setQueue t q).plantFd m).received fle = true := by
    rw [State.plantFd, State.receiveFd_received, not_ne_iff.mp hfle, update_self]
  split at hr
  · refine h'.openMaster hns hl (fun hin => ?_) hr
    rw [(hi'.queued hin).2.1] at hrec
    cases hrec
  · cases hr
    exact h'.openReceived hi' hns hl hrec

theorem Wake.nextServed (hns : target (s.pc t) = none)
    (hl : rest (s.pc t) = some c.todo) (ms : List ε) : Wake (nextServed L s t c v ms) := by
  cases ms with
  | nil => exact h.finishVisit hns hl fun _ _ hin => .inl hin
  | cons m ms =>
    refine h.pass rfl rfl rfl rfl hns hl fun l' hl' m _ hin => ?_
    cases hl'
    exact .inl hin

theorem Wake.serveOne (hpc : s.pc t = .serve c v w) : Wake (serveOne L s t c v w) := by
  have hns : target (s.pc t) = none := hpc ▸ rfl
  have hl : rest (s.pc t) = some c.todo := hpc ▸ rfl
  unfold FdDistribution.serveOne
  split
  · exact h.send hpc
  · exact h.nextServed hns hl _
  rename_i u us _ _
  have hserve : ∀ s1 : State τ ε, s1.pc = s.pc → s1.queue = s.queue → s1.event = s.event →
      s1.skipped = s.skipped → Wake (s1.goto t (.serve c v ⟨[], w.source, us, w.more⟩)) := by
    intro s1 hpc1 hq1 hev1 hskip1
    refine h.pass (by rw [State.goto_pc, hpc1]) hq1 hev1 hskip1 hns hl fun l' hl' m _ hin => ?_
    cases hl'
    exact .inl hin
  by_cases htask : L.task u = t
  · rw [if_pos htask]
    by_cases hfd : L.fd u = L.fd w.source
    · rw [if_pos hfd]
      exact hserve s rfl rfl rfl rfl
    · rw [if_neg hfd]
      exact hserve (s.receiveFd u) rfl rfl rfl rfl
  · rw [if_neg htask]
    exact h.send hpc

/-- A pass starts with the event bit cleared; whatever is queued is ahead in it. -/
theorem Wake.clear (hi : Inv L s) (hns : target (s.pc t) = none) :
    Wake (((s.setEvent t false).setSkipped t []).goto t
      (.visit ⟨s.listed t, false, false⟩)) := by
  refine h.move rfl (fun x hx => update_of_ne hx ..) (fun x hx he => ?_)
    (fun x hs => nomatch hns.symm.trans hs) (fun x m hm => .inl hm) fun l hl m hm => ?_
  · exact (update_of_ne hx ..).trans he
  · cases hl
    obtain ⟨hw, hfresh, _⟩ := hi.queued hm
    exact .inl (.inl (hi.task_queued t m hm ▸ (hi.pending m hw hfresh).1))

theorem Wake.runTask (hi : Inv L s) (hr : runTask L s t o = some s') : Wake s' := by
  have hplace := hi.place t
  unfold FdDistribution.runTask at hr
  split at hr
  · rename_i hpc
    cases hr
    exact h.clear hi (hpc ▸ rfl)
  · rename_i hpc
    cases hr
    exact h.passEnd (hpc ▸ rfl) (hpc ▸ rfl)
  · rename_i fle todo progress again hpc
    rw [hpc] at hplace
    exact h.visitEntry hi (hpc ▸ rfl) (hpc ▸ rfl)
      (hplace.listed fle List.mem_cons_self) hr
  · rename_i hpc
    exact h.receiveOne hi hpc hr
  · rename_i hpc
    cases hr
    exact h.serveOne hpc
  · rename_i x c v w hpc
    cases hr
    exact h.signal hpc
  · rename_i hpc
    split at hr
    · cases hr
      exact h.pass (l := []) rfl rfl rfl rfl (hpc ▸ rfl) (hpc ▸ rfl) nofun
    · exact nomatch hr
  · rename_i hpc
    cases hr
    refine h.move rfl (fun _ _ => rfl) (fun x hx he => ?_) (fun x hs => ?_)
      (fun x m hm => .inl hm) nofun
    · exact (update_of_ne hx ..).trans he
    · rw [hpc] at hs
      exact nomatch hs
  · exact nomatch hr
  · exact nomatch hr

end

theorem Wake.step {a : Action τ ε} (h : Wake s) (hi : Inv L s) (hr : step L s a = some s') :
    Wake s' := by
  cases a with
  | run t o => exact h.runTask hi hr
  | notify x =>
    cases hr
    intro t l hl m hm
    refine (h t l hl m hm).imp id fun hp => hp.imp (fun hset => ?_) id
    rw [State.setEvent_event, update_apply, hset, ite_self]

def Reached (L : Layout τ ε δ) : State τ ε → Prop :=
  Run.Reach (fun s => s = initState L) (fun s a s' => FdDistribution.step L s a = some s')
    fun _ _ => True

theorem Reached.inv (h : Reached L s) : Inv L s := by
  have hinit : ∀ s, s = initState L → Inv L s := by
    rintro s rfl
    exact inv_initState L
  exact Run.Reach.invariant hinit (fun s a s' _ hi _ hr => hi.step hr) h

theorem Reached.wake (h : Reached L s) : Wake s := by
  refine Run.Reach.invariant (fun s hs => ?_) (fun s a s' hs hw _ hr => ?_) h
  · subst hs
    exact nofun
  · exact hw.step (Reached.inv hs) hr

/-- A follower gets its file once, and has it when its task is through; the checks against a
second file hold. A task that sleeps over a message is about to be woken, unless the message is
for a master that the last pass of the task skipped. -/
theorem each_planted_once (L : Layout τ ε δ) {s : State τ ε} (h : Reached L s) :
    s.bug = false ∧
      (∀ e, ¬ L.Leads e →
        s.planted e ≤ 1 ∧ (s.pc (L.task e) = .finished → s.planted e = 1)) ∧
      ∀ t, s.pc t = .wait → s.event t = false → ∀ m ∈ s.queue t,
        ¬ (L.Leads m ∧ m ∈ s.skipped t) → ∃ x c v w, s.pc x = .signal t c v w := by
  have hi := h.inv
  have hw := h.wake
  refine ⟨hi.bug, fun e hl => ⟨?_, fun hpc => ?_⟩, fun t hpc hev m hm hskip => ?_⟩
  · rw [hi.planted]
    exact Bool.toNat_le _
  · have hplace := hi.place (L.task e)
    rw [hpc] at hplace
    rw [hi.planted]
    cases hr : s.received e with
    | true => rfl
    | false =>
      have hin := (hi.pending e (awaits_of_not_leads hl) hr).1
      rw [hplace] at hin
      exact absurd hin List.not_mem_nil
  rcases hw t [] (hpc ▸ rfl) m hm with (hnil | hin) | hset | ⟨x, hx⟩
  · exact absurd hnil List.not_mem_nil
  · exact absurd ⟨hi.skipped t m hin, hin⟩ hskip
  · rw [hev] at hset
    exact nomatch hset
  refine ⟨x, ?_⟩
  cases hs : s.pc x with
  | signal t' c v w =>
    rw [hs] at hx
    cases hx
    exact ⟨c, v, w, rfl⟩
  | _ =>
    rw [hs] at hx
    exact nomatch hx

/-- Two tasks share one file; entry and task have the same name, and `false` is the master. -/
def pairLayout : Layout Bool Bool Unit where
  task := id
  fd _ := 3
  desc _ := ()
  users _ := [false, true]
  master _ := false
  passive _ := false
  fds t := [t]
  mem_users e d := by cases e <;> simp
  users_nodup _ := by decide
  desc_master _ := rfl
  mem_fds e t := by simp
  fds_nodup _ := List.nodup_singleton _
  fd_inj e e' h _ := h

def opensAtOnce : Opens Bool := ⟨.done, false, [], [false]⟩

def runAll (L : Layout Bool Bool δ) (acts : List (Bool × Opens Bool)) : Option (State Bool Bool) :=
  acts.foldlM (fun s a => runTask L s a.1 a.2) (initState L)

theorem reached_runAll {L : Layout Bool Bool δ} {s : State Bool Bool}
    {acts : List (Bool × Opens Bool)} (hs : runAll L acts = some s) : Reached L s :=
  Run.Reach.foldlM (.start rfl) (fun a _ _ _ h => ⟨.run a.1 a.2, trivial, h⟩) hs

def pairRun (ts : List Bool) : Option (State Bool Bool) :=
  runAll pairLayout (ts.map fun t => (t, opensAtOnce))

/-- The second task looks before the file is there, sleeps, is woken and gets it. -/
theorem pair_planted_once : ∃ s, Reached pairLayout s ∧ s.planted true = 1 := by
  have hr : ∃ s, pairRun [true, true, true, true, false, false, false, false, false, false, false,
        true, true, true, true, true, true, true, true] = some s ∧
      s.pc true = .finished := ⟨_, rfl, rfl⟩
  obtain ⟨s, hs, hpc⟩ := hr
  have hreach := reached_runAll hs
  exact ⟨s, hreach, ((each_planted_once pairLayout hreach).2.1 true (by decide)).2 hpc⟩

/-- The sender has sent the message and not yet set the bit; the other task is asleep. -/
theorem pair_asleep_over_message : ∃ s, Reached pairLayout s ∧ s.pc true = .wait ∧
    s.event true = false ∧ true ∈ s.queue true := by
  have hr : ∃ s, pairRun [true, true, true, true, false, false, false, false, false] = some s ∧
      s.pc true = .wait ∧ s.event true = false ∧ true ∈ s.queue true :=
    ⟨_, rfl, rfl, rfl, by decide⟩
  obtain ⟨s, hs, hw⟩ := hr
  exact ⟨s, reached_runAll hs, hw⟩

/-- Two tasks with one file each, which the open method of the first one creates. -/
def endsLayout : Layout Bool Bool Bool where
  task := id
  fd _ := 3
  desc := id
  users d := [d]
  master := id
  passive := id
  fds t := [t]
  mem_users e d := by simp
  users_nodup _ := List.nodup_singleton _
  desc_master _ := rfl
  mem_fds e t := by simp
  fds_nodup _ := List.nodup_singleton _
  fd_inj e e' h _ := h

/-- The file is there and the bit was set before the pass, but the open method of the master ends
with 1 before it looks at the messages. -/
theorem skipped_master_asleep : ∃ s, Reached endsLayout s ∧ s.pc true = .wait ∧
    s.event true = false ∧ true ∈ s.queue true ∧ ∀ x, target (s.pc x) = none := by
  have hr : ∃ s, runAll endsLayout
      (List.replicate 4 (false, ⟨.done, false, [true], [false]⟩) ++
        List.replicate 4 (true, ⟨.again, false, [], []⟩)) = some s ∧
      s.pc true = .wait ∧ s.event true = false ∧ true ∈ s.queue true ∧
      ∀ x, target (s.pc x) = none :=
    ⟨_, rfl, rfl, rfl, by decide, by decide⟩
  obtain ⟨s, hs, hw⟩ := hr
  exact ⟨s, reached_runAll hs, hw⟩

end Criu.FdWakeups

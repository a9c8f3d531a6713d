import Criu.FdDistribution

/-!
Every file that a task shares with others arrives once. For each entry a file is still owed by
the task that opens it, or under way in the queue of its own task, or received, and never two of
these. Where a task stands says what it has still to send and which entries of its list it will
look at; every step keeps both, so the `BUG_ON`s are out of reach.
-/

namespace Criu.FdDelivery

open FdDistribution List Function

variable {again : Bool} {τ ε δ : Type} {L : Layout τ ε δ} {s s' : State τ ε} {t : τ} {e m u : ε}
  {pc : Pc τ ε} {v : Visit ε} {w : Work ε}

section Pc

def posts : Pc τ ε → List ε
  | .serve _ _ w => w.posts
  | .signal _ _ _ w => w.posts
  | _ => []

def users [DecidableEq ε] (m : ε) : Pc τ ε → List ε
  | .serve _ _ w => if w.source = m then w.users else []
  | .signal _ _ _ w => if w.source = m then w.users else []
  | _ => []

def rest : Pc τ ε → Option (List ε)
  | .visit c => some c.todo
  | .receive c fle => some (fle :: c.todo)
  | .serve c _ _ => some c.todo
  | .signal _ c _ _ => some c.todo
  | .wait => some []
  | _ => none

def Quiet [DecidableEq ε] (pc : Pc τ ε) : Prop :=
  posts pc = [] ∧ ∀ m, users m pc = []

end Pc

theorem awaits_of_not_leads (h : ¬ L.Leads e) : L.Awaits e :=
  fun hl => absurd hl h

section Places

variable (L s)

structure Ahead (t : τ) (todo : List ε) (again : Bool) : Prop where
  nodup : todo.Nodup
  listed : ∀ e ∈ todo, e ∈ s.listed t
  rest : ∀ e ∈ s.listed t, e ∈ todo ∨ again = true

structure Serving (t : τ) (v : Visit ε) (w : Work ε) : Prop where
  visited : L.task v.fle = t ∧ L.Leads v.fle
  posted : ∀ p ∈ w.posts, s.poster p = some t
  source : w.users ≠ [] →
    L.task w.source = t ∧ L.Leads w.source ∧ s.stage w.source ≠ .initialized
  users : ∀ u ∈ w.users, L.desc u = L.desc w.source
  more_nodup : w.more.Nodup
  more : ∀ m ∈ w.more, L.task m = t ∧ L.Leads m ∧ s.stage m = .initialized ∧
    (L.passive m = true → s.received m = true)
  done : v.ret = .done → s.stage v.fle ≠ .initialized ∨ v.fle ∈ w.more

def Place (t : τ) : Pc τ ε → Prop
  | .visit c => Ahead s t c.todo c.again
  | .receive c fle => Ahead s t (fle :: c.todo) c.again ∧ L.Awaits fle
  | .serve c v w => Ahead s t (v.fle :: c.todo) c.again ∧ Serving L s t v w
  | .signal _ c v w => Ahead s t (v.fle :: c.todo) c.again ∧ Serving L s t v w
  | .finished => s.listed t = []
  | _ => True

end Places

section Keeps

structure Keeps (L : Layout τ ε δ) (t : τ) (s s' : State τ ε) : Prop where
  listed : s'.listed t = s.listed t
  stage : ∀ e, L.task e = t → s'.stage e = s.stage e
  received : ∀ e, s.received e = true → s'.received e = true
  poster : ∀ e t', s.poster e = some t' → s'.poster e = some t'

theorem Ahead.keep {todo : List ε} (h : Ahead s t todo again)
    (hl : s'.listed t = s.listed t) : Ahead s' t todo again :=
  ⟨h.nodup, hl ▸ h.listed, hl ▸ h.rest⟩

theorem Ahead.skip {fle : ε} {todo : List ε} (h : Ahead s t (fle :: todo) again) :
    Ahead s t todo true :=
  ⟨(nodup_cons.mp h.nodup).2, fun e he => h.listed e (mem_cons_of_mem _ he),
    fun _ _ => .inr rfl⟩

theorem Serving.keep (hk : Keeps L t s s') (h : Serving L s t v w) : Serving L s' t v w := by
  refine ⟨h.visited, fun p hp => hk.poster p t (h.posted p hp), fun hu => ?_, h.users,
    h.more_nodup, fun m hm => ?_, fun hd => ?_⟩
  · obtain ⟨htask, hlead, hopen⟩ := h.source hu
    exact ⟨htask, hlead, by rwa [hk.stage _ htask]⟩
  · obtain ⟨htask, hlead, hinit, hpass⟩ := h.more m hm
    exact ⟨htask, hlead, by rwa [hk.stage _ htask], fun hp => hk.received m (hpass hp)⟩
  · rw [hk.stage _ h.visited.1]
    exact h.done hd

theorem Place.keep (hk : Keeps L t s s') (h : Place L s t pc) : Place L s' t pc := by
  cases pc with
  | visit c => exact Ahead.keep h hk.listed
  | receive c fle => exact ⟨h.1.keep hk.listed, h.2⟩
  | serve c v w | signal x c v w => exact ⟨h.1.keep hk.listed, h.2.keep hk⟩
  | finished => exact hk.listed.trans h
  | clear | wait | woken | failed => trivial

end Keeps

variable [DecidableEq ε]

section Invariant

variable (L s)

/-- The files that are still to be sent to an entry, or to be put there by `dup2`. -/
def owed (e : ε) : ℕ :=
  if L.Leads e then
    match s.poster e with
    | none => 0
    | some t => (posts (s.pc t)).count e
  else if s.stage (L.master (L.desc e)) = .initialized then 1
  else (users (L.master (L.desc e)) (s.pc (L.task (L.master (L.desc e))))).count e

/-- The files an entry gets in all: one, but a master only if a peer sends it. -/
def supply (e : ε) : ℕ :=
  if L.Leads e then (s.poster e).isSome.toNat else 1

structure Inv : Prop where
  bug : s.bug = false
  task_queued : ∀ t, ∀ e ∈ s.queue t, L.task e = t
  tally : ∀ e, owed L s e + (s.queue (L.task e)).count e + (s.received e).toNat = supply L s e
  planted : ∀ e, s.planted e = (s.received e).toNat
  pending : ∀ e, L.Awaits e → s.received e = false →
    e ∈ s.listed (L.task e) ∧ s.stage e = .initialized
  listed_nodup : ∀ t, (s.listed t).Nodup
  task_listed : ∀ t, ∀ e ∈ s.listed t, L.task e = t ∧ s.stage e ≠ .restored
  follower : ∀ e, ¬ L.Leads e → s.stage e ≠ .opened
  poster : ∀ e, s.poster e ≠ none → L.Leads e ∧ L.passive e = true
  skipped : ∀ t, ∀ e ∈ s.skipped t, L.Leads e
  place : ∀ t, Place L s t (s.pc t)

end Invariant

theorem supply_le_one (e : ε) : supply L s e ≤ 1 := by
  unfold supply
  split
  · exact Bool.toNat_le _
  · exact Nat.le_refl 1

theorem inv_initState (L : Layout τ ε δ) : Inv L (initState L) where
  bug := rfl
  task_queued _ e he := absurd he not_mem_nil
  tally e := by
    by_cases hl : L.Leads e <;> simp [owed, supply, initState, hl]
  planted _ := rfl
  pending e _ _ := ⟨(L.mem_fds e _).mpr rfl, rfl⟩
  listed_nodup := L.fds_nodup
  task_listed t e he := ⟨(L.mem_fds e t).mp he, nofun⟩
  follower _ _ h := nomatch h
  poster _ h := absurd rfl h
  skipped _ e he := absurd he not_mem_nil
  place _ := trivial

/-- A queued message is for an entry that has not got its file yet. -/
theorem Inv.queued (h : Inv L s) (he : e ∈ s.queue t) :
    L.Awaits e ∧ s.received e = false ∧ (s.queue t).count e = 1 := by
  have ht : L.task e = t := h.task_queued t e he
  have htally := h.tally e
  have hle := supply_le_one (L := L) (s := s) e
  have hpos : 0 < (s.queue t).count e := count_pos_iff.mpr he
  rw [ht] at htally
  refine ⟨fun hl => ?_, ?_, by omega⟩
  · refine (h.poster e fun hnone => ?_).2
    rw [supply, if_pos hl, hnone] at htally
    simp only [Option.isSome_none, Bool.toNat_false] at htally
    omega
  cases hr : s.received e with
  | false => rfl
  | true =>
    rw [hr] at htally
    simp only [Bool.toNat_true] at htally
    omega


/-- A follower on the list has not been restored, and is not opened by itself. -/
theorem Inv.follower_initialized (h : Inv L s) (hl : ¬ L.Leads e) (he : e ∈ s.listed t) :
    s.stage e = .initialized := by
  have hopen := h.follower e hl
  have hrest := (h.task_listed t e he).2
  cases hs : s.stage e with
  | initialized => rfl
  | opened => exact absurd hs hopen
  | restored => exact absurd hs hrest

theorem Inv.check_follower (h : Inv L s) (hl : ¬ L.Leads e) (he : e ∈ s.listed t) :
    { s with bug := s.bug || decide (s.stage e ≠ .initialized) } = s := by
  simp only [h.follower_initialized hl he, ne_eq, not_true_eq_false, decide_false, Bool.or_false]

/-- What is owed depends on the stages of masters and on what is left to send. -/
theorem owed_congr (hposter : s'.poster e = s.poster e)
    (hstage : ¬ L.Leads e → (s'.stage (L.master (L.desc e)) = .initialized ↔
      s.stage (L.master (L.desc e)) = .initialized))
    (hposts : ∀ t, (posts (s'.pc t)).count e = (posts (s.pc t)).count e)
    (husers : ¬ L.Leads e → ∀ t, (users (L.master (L.desc e)) (s'.pc t)).count e =
      (users (L.master (L.desc e)) (s.pc t)).count e) :
    owed L s' e = owed L s e := by
  unfold owed
  by_cases hl : L.Leads e
  · simp only [if_pos hl, hposter, hposts]
  · simp only [if_neg hl, husers hl, hstage hl]

section Received

variable {u : ε}

theorem received_receiveFd (h : s.received e = true) : (s.receiveFd u).received e = true := by
  rw [State.receiveFd_received, update_apply, h, ite_self]

theorem received_of_receiveFd (h : (s.receiveFd u).received e = false) : s.received e = false := by
  cases hr : s.received e with
  | false => rfl
  | true => exact absurd (received_receiveFd hr) (h ▸ Bool.false_ne_true)

theorem toNat_receiveFd (hfresh : s.received u = false) (e : ε) :
    ((s.receiveFd u).received e).toNat = (s.received e).toNat + if e = u then 1 else 0 := by
  rw [State.receiveFd_received, update_apply]
  split
  · rename_i he
    rw [he, hfresh]
    rfl
  · rfl

theorem planted_receiveFd (hfresh : s.received u = false)
    (h : ∀ e, s.planted e = (s.received e).toNat) (e : ε) :
    (s.receiveFd u).planted e = ((s.receiveFd u).received e).toNat := by
  rw [toNat_receiveFd hfresh, State.receiveFd_planted, update_apply, ← h e]
  split
  · rename_i he
    rw [he]
  · rfl

end Received

variable [DecidableEq τ]

/-- The places of all tasks after one of them moved. -/
theorem Inv.places (h : Inv L s) (hk : ∀ t', t' ≠ t → Keeps L t' s s')
    (hpc : s'.pc = update s.pc t pc) (hp : Place L s' t pc) (t' : τ) :
    Place L s' t' (s'.pc t') := by
  by_cases ht : t' = t
  · subst ht
    rwa [hpc, update_self]
  · rw [hpc, update_of_ne ht]
    exact (h.place t').keep (hk t' ht)

/-- A count over the places of all tasks when one of them moves. -/
theorem count_update (f : Pc τ ε → List ε) (hf : (f pc).count e = (f (s.pc t)).count e) (t' : τ) :
    (f (update s.pc t pc t')).count e = (f (s.pc t')).count e := by
  by_cases ht : t' = t
  · subst ht
    rw [update_self, hf]
  · rw [update_of_ne ht]

section Steps

variable {c : Cursor ε} {v : Visit ε} {w : Work ε} {o : Opens ε} {fle : ε} {pc : Pc τ ε}

theorem owed_goto (hposts : posts pc = posts (s.pc t))
    (husers : ∀ m, users m pc = users m (s.pc t)) (e : ε) :
    owed L s e = owed L (s.goto t pc) e := by
  symm
  exact owed_congr rfl (fun _ => Iff.rfl) (count_update posts (by rw [hposts]))
    fun _ => count_update _ (by rw [husers])

theorem Ahead.complete (hn : (s.listed t).Nodup) (h : Ahead s t (fle :: c.todo) c.again) :
    Ahead (s.complete t fle) t c.todo c.again := by
  obtain ⟨hnot, hnodup⟩ := nodup_cons.mp h.nodup
  have hl : (s.complete t fle).listed t = (s.listed t).erase fle := update_self ..
  refine ⟨hnodup, fun e he => ?_, fun e he => ?_⟩
  · rw [hl, hn.mem_erase_iff]
    exact ⟨fun h => hnot (h ▸ he), h.listed e (mem_cons_of_mem _ he)⟩
  · rw [hl, hn.mem_erase_iff] at he
    rcases h.rest e he.2 with hmem | hagain
    · exact .inl ((mem_cons.mp hmem).resolve_left he.1)
    · exact .inr hagain

theorem keeps_complete {t' : τ} (ht : t' ≠ t) (hfle : L.task fle = t) :
    Keeps L t' s ((s.complete t fle).goto t pc) where
  listed := update_of_ne ht ..
  stage e he := update_of_ne (fun h => ht (by rw [← he, h, hfle])) ..
  received _ := id
  poster _ _ := id

/-- A message to the master of another end goes out. -/
theorem owed_post (hpc : posts (s.pc t) = u :: posts pc)
    (husers : ∀ m, users m pc = users m (s.pc t)) (hu : s.poster u = some t) (hl : L.Leads u)
    (e : ε) : owed L s e = owed L (s.goto t pc) e + if e = u then 1 else 0 := by
  by_cases he : e = u
  · subst he
    simp only [owed, if_pos hl, hu, State.goto, update_self, hpc, count_cons_self, if_true]
  · rw [if_neg he]
    symm
    refine owed_congr rfl (fun _ => Iff.rfl) (count_update posts ?_)
      fun _ => count_update _ (by rw [husers])
    rw [hpc, count_cons_of_ne (Ne.symm he)]

/-- The next user of a file is served; the master itself was not owed anything. -/
theorem owed_user {us : List ε} (hposts : posts pc = posts (s.pc t))
    (hold : ∀ m', users m' (s.pc t) = if m = m' then u :: us else [])
    (hnew : ∀ m', users m' pc = if m = m' then us else [])
    (hm : L.task m = t ∧ L.Leads m ∧ s.stage m ≠ .initialized) (hu : L.desc u = L.desc m) (e : ε) :
    owed L s e = owed L (s.goto t pc) e + if e = u ∧ ¬ L.Leads u then 1 else 0 := by
  by_cases he : e = u ∧ ¬ L.Leads u
  · obtain ⟨rfl, hl⟩ := he
    have hmaster : L.master (L.desc e) = m := by
      rw [hu]
      exact hm.2.1
    simp only [owed, if_neg hl, hmaster, if_neg hm.2.2, hm.1, State.goto, update_self,
      hold, hnew, if_true, count_cons_self]
    rw [if_pos ⟨trivial, hl⟩]
  rw [if_neg he]
  symm
  refine owed_congr rfl (fun _ => Iff.rfl) (count_update posts (by rw [hposts]))
    fun hl => count_update _ ?_
  rw [hold, hnew]
  split
  · rw [count_cons_of_ne]
    rintro rfl
    exact he ⟨rfl, hl⟩
  · rfl

theorem count_send (u e : ε) : ((s.send L u).queue (L.task e)).count e =
      (s.queue (L.task e)).count e + if e = u then 1 else 0 := by
  rw [State.send, State.setQueue_queue]
  by_cases ht : L.task e = L.task u
  · rw [ht, update_self, count_append, count_singleton]
    simp only [beq_iff_eq, @eq_comm _ u e]
  · rw [update_of_ne ht, if_neg fun he => ht (congrArg L.task he), Nat.add_zero]

/-- The tally when a master is opened and its users are to be served. -/
theorem owed_markOpen (hq : Quiet (s.pc t)) (hm : L.task m = t ∧ L.Leads m)
    (hinit : s.stage m = .initialized) (hposts : w.posts = []) (hsource : w.source = m)
    (husers : w.users = L.users (L.desc m)) (e : ε) :
    owed L ((s.markOpen m).goto t (.serve c v w)) e = owed L s e := by
  by_cases hl : ¬ L.Leads e ∧ L.master (L.desc e) = m
  · obtain ⟨hl, hmaster⟩ := hl
    have hdesc : L.desc e = L.desc m := by
      rw [← hmaster, L.desc_master]
    have hone : (L.users (L.desc m)).count e = 1 :=
      count_eq_one_of_mem (L.users_nodup _) ((L.mem_users e _).mpr hdesc)
    simp only [owed, if_neg hl, hmaster, hm.1, hinit, if_true, State.goto, State.markOpen_stage,
      update_self, users, hsource, husers, hone, reduceCtorEq, if_false]
  have hne : ¬ L.Leads e → L.master (L.desc e) ≠ m := fun hle he => hl ⟨hle, he⟩
  refine owed_congr rfl (fun hle => ?_) (count_update (s := s) posts ?_)
    fun hle => count_update (s := s) _ ?_
  · change (s.markOpen m).stage _ = _ ↔ _
    rw [State.markOpen_stage, update_of_ne (hne hle)]
  · rw [hq.1, posts, hposts]
  · rw [hq.2, users, hsource, if_neg (hne hle).symm]

variable (h : Inv L s)
include h

theorem Inv.setEvent (t : τ) (b : Bool) : Inv L (s.setEvent t b) :=
  have hk : ∀ t', Keeps L t' s (s.setEvent t b) :=
    fun _ => ⟨rfl, fun _ _ => rfl, fun _ => id, fun _ _ => id⟩
  { h with place := fun t' => (h.place t').keep (hk t') }

theorem Inv.setSkipped {l : List ε} (hl : ∀ e ∈ l, L.Leads e) : Inv L (s.setSkipped t l) := by
  have hk : ∀ t', Keeps L t' s (s.setSkipped t l) :=
    fun _ => ⟨rfl, fun _ _ => rfl, fun _ => id, fun _ _ => id⟩
  refine { h with
    skipped := fun t' => ?_
    place := fun t' => (h.place t').keep (hk t') }
  rw [State.setSkipped_skipped, update_apply]
  split
  · exact hl
  · exact h.skipped t'

/-- A task moves, with nothing changed in what is owed. -/
theorem Inv.goto (howed : ∀ e, owed L s e = owed L (s.goto t pc) e)
    (hp : Place L s t pc) : Inv L (s.goto t pc) := by
  have hk : ∀ t', Keeps L t' s (s.goto t pc) :=
    fun _ => ⟨rfl, fun _ _ => rfl, fun _ => id, fun _ _ => id⟩
  refine { h with
    tally := fun e => ?_
    place := h.places (fun t' _ => hk t') rfl (hp.keep (hk t)) }
  rw [← howed]
  exact h.tally e

theorem Inv.goto_quiet (hq : Quiet (s.pc t)) (hp : Place L s t pc)
    (hq' : Quiet pc := by exact ⟨rfl, fun _ => rfl⟩) : Inv L (s.goto t pc) :=
  h.goto (owed_goto (hq'.1.trans hq.1.symm) fun m => (hq'.2 m).trans (hq.2 m).symm) hp

theorem Inv.complete (hq : Quiet (s.pc t)) (ha : Ahead s t (fle :: c.todo) c.again)
    (hopen : L.Leads fle → s.stage fle ≠ .initialized)
    (hrec : L.Awaits fle → s.received fle = true) :
    Inv L ((s.complete t fle).goto t (.visit ⟨c.todo, true, c.again⟩)) := by
  have hin : fle ∈ s.listed t := ha.listed fle mem_cons_self
  have hfle : L.task fle = t := (h.task_listed t fle hin).1
  have hother : ∀ e, L.Awaits e → s.received e = false → e ≠ fle := by
    rintro e hw hr rfl
    rw [hrec hw] at hr
    exact nomatch hr
  have hstage : ∀ t', ∀ e ∈ s.listed t', e ≠ fle →
      L.task e = t' ∧ update s.stage fle .restored e ≠ .restored := by
    intro t' e he hne
    rw [update_of_ne hne]
    exact h.task_listed t' e he
  refine { h with
    tally := fun e => ?_
    pending := fun e hw hr => ?_
    listed_nodup := (forall_update_iff s.listed fun _ l => l.Nodup).mpr
      ⟨(h.listed_nodup t).erase fle, fun t' _ => h.listed_nodup t'⟩
    task_listed := (forall_update_iff s.listed fun t' l => ∀ e ∈ l,
      L.task e = t' ∧ update s.stage fle .restored e ≠ .restored).mpr
      ⟨fun e he => ?_, fun t' ht e he => hstage t' e he fun h' => ht ?_⟩
    follower := (forall_update_iff s.stage fun e st => ¬ L.Leads e → st ≠ .opened).mpr
      ⟨fun _ => nofun, fun e _ => h.follower e⟩
    place := h.places (fun t' ht => keeps_complete ht hfle) rfl
      ((ha.complete (h.listed_nodup t)).keep rfl) }
  · have howed : owed L ((s.complete t fle).goto t (.visit ⟨c.todo, true, c.again⟩)) e =
        owed L s e := by
      refine owed_congr rfl (fun _ => ?_) (count_update (s := s) posts (by rw [hq.1]; rfl))
        fun _ => count_update (s := s) _ (by rw [hq.2]; rfl)
      change update s.stage fle .restored _ = _ ↔ _
      by_cases hm : L.master (L.desc e) = fle
      · rw [hm, update_self]
        exact iff_of_false nofun (hopen (hm ▸ leads_master L _))
      · rw [update_of_ne hm]
    rw [howed]
    exact h.tally e
  · have hne := hother e hw hr
    obtain ⟨hlist, hstage⟩ := h.pending e hw hr
    refine ⟨?_, (update_of_ne hne ..).trans hstage⟩
    change e ∈ update s.listed t _ _
    by_cases ht : L.task e = t
    · rw [ht, update_self]
      exact (mem_erase_of_ne hne).mpr (ht ▸ hlist)
    · rwa [update_of_ne ht]
  · obtain ⟨hne, hold⟩ := (h.listed_nodup t).mem_erase_iff.mp he
    exact hstage t e hold hne
  · rw [← (h.task_listed t' e he).1, h', hfle]

theorem Inv.finishVisit (hq : Quiet (s.pc t)) (ha : Ahead s t (v.fle :: c.todo) c.again)
    (hdone : v.ret = .done → (L.Leads v.fle → s.stage v.fle ≠ .initialized) ∧
      (L.Awaits v.fle → s.received v.fle = true)) :
    Inv L (finishVisit s t c v) := by
  unfold FdDistribution.finishVisit
  split
  · rename_i hret
    exact h.complete hq ha (hdone hret).1 (hdone hret).2
  · exact h.goto_quiet hq ha.skip
  · exact h.goto_quiet hq trivial

theorem Inv.openReceived (hq : Quiet (s.pc t))
    (ha : Ahead s t (fle :: c.todo) c.again) (hl : ¬ L.Leads fle) (hr : s.received fle = true) :
    Inv L (openReceived s t c fle o) :=
  h.finishVisit hq ha fun _ => ⟨fun h => absurd h hl, fun _ => hr⟩

/-- The tally when a task that had nothing left to send is to send files to other masters. -/
theorem tally_post (hq : Quiet (s.pc t)) (hu : w.users = []) (hn : w.posts.Nodup)
    (hp : ∀ p ∈ w.posts, L.Leads p ∧ s.poster p = none) (e : ε) :
    owed L ((s.post t w.posts).goto t (.serve c v w)) e + (s.queue (L.task e)).count e +
      (s.received e).toNat = supply L ((s.post t w.posts).goto t (.serve c v w)) e := by
  have htally := h.tally e
  have husers : ∀ m, users m (.serve c v w : Pc τ ε) = users m (s.pc t) := by
    intro m
    rw [hq.2 m, users, hu, ite_self]
  by_cases he : e ∈ w.posts
  · obtain ⟨hl, hnone⟩ := hp e he
    have hone : w.posts.count e = 1 := count_eq_one_of_mem hn he
    simp only [supply, if_pos hl, hnone] at htally
    simp only [owed, supply, if_pos hl, State.goto, State.post_poster, if_pos he,
      update_self, posts]
    simp only [Option.isSome_none, Bool.toNat_false, Option.isSome_some, Bool.toNat_true] at *
    omega
  have hposter : (s.post t w.posts).poster e = s.poster e := if_neg he
  have howed : owed L ((s.post t w.posts).goto t (.serve c v w)) e = owed L s e := by
    refine owed_congr hposter (fun _ => Iff.rfl) (count_update (s := s) posts ?_)
      fun _ => count_update (s := s) _ (by rw [husers])
    rw [hq.1]
    exact count_eq_zero.mpr he
  have hsupply : supply L ((s.post t w.posts).goto t (.serve c v w)) e = supply L s e := by
    unfold supply
    rw [State.goto, hposter]
  rw [howed, hsupply]
  exact htally

/-- The open method of a master takes it upon itself to send files to other masters. -/
theorem Inv.openMaster (hq : Quiet (s.pc t)) (ha : Ahead s t (fle :: c.todo) c.again)
    (hl : L.Leads fle) (hr : openMaster L s t c fle o = some s') : Inv L s' := by
  simp only [FdDistribution.openMaster] at hr
  split at hr
  swap
  · exact nomatch hr
  rename_i hlegal
  obtain ⟨hnodup, hserved, hdone, hposts, hpass⟩ := hlegal
  cases hr
  have hfle : L.task fle = t :=
    (h.task_listed t fle (ha.listed fle mem_cons_self)).1
  have hk : ∀ t' pc, Keeps L t' s ((s.post t o.posts).goto t pc) := by
    refine fun t' pc => ⟨rfl, fun _ _ => rfl, fun _ => id, fun e x hx => ?_⟩
    refine (if_neg fun he => ?_).trans hx
    · rw [(hpass e he).2.2] at hx
      exact nomatch hx
  refine { h with
    tally := tally_post h hq rfl hposts fun p hp => ⟨(hpass p hp).1, (hpass p hp).2.2⟩
    poster := fun e he => ?_
    place := h.places (fun t' _ => hk t' _) rfl ⟨ha.keep rfl, ?_⟩ }
  · change (s.post t o.posts).poster e ≠ none at he
    rw [State.post_poster] at he
    split at he
    · rename_i hp
      exact ⟨(hpass e hp).1, (hpass e hp).2.1⟩
    · exact h.poster e he
  · exact ⟨⟨hfle, hl⟩, fun p hp => if_pos hp, fun hu => absurd rfl hu,
      nofun, hnodup, hserved, hdone⟩

/-- A message goes out to an entry that was owed it. -/
theorem Inv.send (howed : ∀ e, owed L s e = owed L (s.goto t pc) e + if e = u then 1 else 0)
    (hp : Place L s t pc) : Inv L ((s.send L u).goto t pc) := by
  have hk : ∀ t', Keeps L t' s ((s.send L u).goto t pc) :=
    fun _ => ⟨rfl, fun _ _ => rfl, fun _ => id, fun _ _ => id⟩
  refine { h with
    task_queued := (forall_update_iff s.queue fun t' q => ∀ e ∈ q, L.task e = t').mpr
      ⟨fun e he => ?_, fun t' _ => h.task_queued t'⟩
    tally := fun e => ?_
    place := h.places (fun t' _ => hk t') rfl (hp.keep (hk t)) }
  · rcases mem_append.mp he with hold | hnew
    · exact h.task_queued _ e hold
    · rw [mem_singleton.mp hnew]
  · have htally := h.tally e
    have hcount := count_send (L := L) (s := s) u e
    rw [howed e] at htally
    change owed L (s.goto t pc) e + ((s.send L u).queue (L.task e)).count e +
      (s.received e).toNat = supply L s e
    omega

theorem Inv.receiveFd (howed : ∀ e, owed L s e = owed L (s.goto t pc) e + if e = u then 1 else 0)
    (hp : Place L s t pc) : Inv L ((s.receiveFd u).goto t pc) := by
  have hk : ∀ t', Keeps L t' s ((s.receiveFd u).goto t pc) :=
    fun _ => ⟨rfl, fun _ _ => rfl, fun _ => received_receiveFd, fun _ _ => id⟩
  have hfresh : s.received u = false := by
    have htally := h.tally u
    have hle := supply_le_one (L := L) (s := s) u
    rw [howed u, if_pos rfl] at htally
    exact Bool.toNat_eq_zero.mp (by omega)
  refine { h with
    tally := fun e => ?_
    planted := planted_receiveFd hfresh h.planted
    pending := fun e hw hr => h.pending e hw (received_of_receiveFd hr)
    place := h.places (fun t' _ => hk t') rfl (hp.keep (hk t)) }
  have htally := h.tally e
  have hcount := toNat_receiveFd hfresh e
  rw [howed e] at htally
  change owed L (s.goto t pc) e + (s.queue (L.task e)).count e +
    ((s.receiveFd u).received e).toNat = supply L s e
  omega

/-- A message is taken from the queue, for whichever entry it is. -/
theorem Inv.plantFd {q : List ε} (hq : s.queue t = m :: q) :
    Inv L ((s.setQueue t q).plantFd m) := by
  have hmem : m ∈ s.queue t := hq ▸ mem_cons_self ..
  obtain ⟨_, hfresh, hone⟩ := h.queued hmem
  have hm : L.task m = t := h.task_queued t m hmem
  have hk : ∀ t', Keeps L t' s ((s.setQueue t q).plantFd m) :=
    fun _ => ⟨rfl, fun _ _ => rfl, fun _ => received_receiveFd, fun _ _ => id⟩
  refine { h with
    bug := ?_
    task_queued := (forall_update_iff s.queue fun t' q => ∀ e ∈ q, L.task e = t').mpr
      ⟨fun e he => h.task_queued t e (hq ▸ mem_cons_of_mem _ he), fun t' _ => h.task_queued t'⟩
    tally := fun e => ?_
    planted := planted_receiveFd hfresh h.planted
    pending := fun e hw hr => h.pending e hw (received_of_receiveFd hr)
    place := fun t' => (h.place t').keep (hk t') }
  · change (s.bug || s.received m) = false
    rw [h.bug, hfresh]
    rfl
  have htally := h.tally e
  have hcount := toNat_receiveFd hfresh e
  have hqueue : (s.queue (L.task e)).count e =
      ((s.setQueue t q).queue (L.task e)).count e + if e = m then 1 else 0 := by
    rw [State.setQueue_queue]
    by_cases ht : L.task e = t
    · rw [ht, update_self, hq, count_cons]
      simp only [beq_iff_eq, @eq_comm _ m e]
    · have hne : e ≠ m := fun he => ht ((congrArg L.task he).trans hm)
      rw [update_of_ne ht, if_neg hne, Nat.add_zero]
  change owed L s e + ((s.setQueue t q).queue (L.task e)).count e +
    ((s.receiveFd m).received e).toNat = supply L s e
  omega

theorem Inv.nextServed (hq : Quiet (s.pc t))
    (ha : Ahead s t (v.fle :: c.todo) c.again) (hs : Serving L s t v w) :
    Inv L (nextServed L s t c v w.more) := by
  cases hw : w.more with
  | nil =>
    refine h.finishVisit hq ha fun hd => ?_
    have hopen := (hs.done hd).resolve_right (hw ▸ not_mem_nil)
    refine ⟨fun _ => hopen, fun hw => ?_⟩
    -- a passive master is not open before its file has arrived
    by_contra hr
    exact hopen (h.pending _ hw (Bool.not_eq_true _ ▸ hr)).2
  | cons m more =>
    have hin : m ∈ w.more := hw ▸ mem_cons_self ..
    obtain ⟨hnot, hnodup⟩ := nodup_cons.mp (hw ▸ hs.more_nodup)
    obtain ⟨htask, hlead, hinit, hpass⟩ := hs.more m hin
    have hother : ∀ e, e ≠ m → (s.markOpen m).stage e = s.stage e :=
      fun e he => update_of_ne he ..
    have hself : (s.markOpen m).stage m = .opened := update_self ..
    refine { h with
      bug := ?_
      tally := fun e => ?_
      pending := fun e hwait hr => ?_
      task_listed := fun t' e he => ?_
      follower := fun e hl => ?_
      place := h.places (fun t' ht => ?_) rfl ⟨ha.keep rfl, ?_⟩ }
    · change (s.bug || decide (s.stage m ≠ .initialized)) = false
      rw [h.bug, hinit]
      rfl
    · have howed := owed_markOpen (c := c) (v := v) (w := ⟨[], m, L.users (L.desc m), more⟩)
        hq ⟨htask, hlead⟩ hinit rfl rfl rfl e
      rw [FdDistribution.nextServed, howed]
      exact h.tally e
    · obtain ⟨hlist, hstage⟩ := h.pending e hwait hr
      refine ⟨hlist, (hother e ?_).trans hstage⟩
      rintro rfl
      exact absurd (hpass (hwait hlead)) (by rw [show s.received e = false from hr]; simp)
    · obtain ⟨ht, hstage⟩ := h.task_listed t' e he
      refine ⟨ht, ?_⟩
      change (s.markOpen m).stage e ≠ _
      by_cases hem : e = m
      · rw [hem, hself]
        exact nofun
      · rwa [hother e hem]
    · change (s.markOpen m).stage e ≠ _
      rw [hother e fun hem => hl (hem ▸ hlead)]
      exact h.follower e hl
    · exact ⟨rfl, fun e he => hother e fun hem => ht (by rw [← he, hem, htask]), fun _ => id,
        fun _ _ => id⟩
    refine ⟨hs.visited, nofun, fun _ => ⟨htask, hlead, ?_⟩,
      fun u hu => (L.mem_users u _).mp hu, hnodup, fun m' hm' => ?_, fun hd => ?_⟩
    · change (s.markOpen m).stage m ≠ _
      rw [hself]
      exact nofun
    · have hne : m' ≠ m := fun h => hnot (h ▸ hm')
      obtain ⟨h1, h2, h3, h4⟩ := hs.more m' (hw ▸ mem_cons_of_mem _ hm')
      exact ⟨h1, h2, (hother m' hne).trans h3, h4⟩
    change (s.markOpen m).stage v.fle ≠ _ ∨ _
    by_cases hfle : v.fle = m
    · rw [hfle, hself]
      exact .inl nofun
    · rw [hother _ hfle]
      exact (hs.done hd).imp id fun hin =>
        (mem_cons.mp (hw ▸ hin)).resolve_left hfle

theorem Inv.serveOne (hpc : s.pc t = .serve c v w) : Inv L (serveOne L s t c v w) := by
  have hplace := h.place t
  rw [hpc] at hplace
  obtain ⟨ha, hs⟩ := hplace
  unfold FdDistribution.serveOne
  split
  · rename_i p ps hp
    have hposted := hs.posted p (hp ▸ mem_cons_self ..)
    refine h.send (owed_post ?_ ?_ hposted (h.poster p fun hn => ?_).1)
      ⟨ha, { hs with posted := fun q hq => hs.posted q (hp ▸ mem_cons_of_mem _ hq) }⟩
    · rw [hpc]
      exact hp
    · intro m
      rw [hpc]
      rfl
    · rw [hn] at hposted
      cases hposted
  · rename_i hp hu
    refine h.nextServed ?_ ha hs
    rw [hpc]
    exact ⟨hp, fun m => by rw [users, hu, ite_self]⟩
  rename_i u us hp hu
  have hsource := hs.source (hu ▸ cons_ne_nil _ _)
  have hdesc := hs.users u (hu ▸ mem_cons_self ..)
  have hleads : L.Leads u ↔ u = w.source := by
    rw [Layout.Leads, hdesc, hsource.2.1]
    exact eq_comm
  have howed : ∀ pc : Pc τ ε, posts pc = [] →
      (∀ m', users m' pc = if w.source = m' then us else []) → ∀ e,
      owed L s e = owed L (s.goto t pc) e + if e = u ∧ ¬ L.Leads u then 1 else 0 := by
    intro pc hp' hus
    refine owed_user ?_ (fun m' => ?_) hus hsource hdesc
    · rw [hpc, hp']
      exact hp.symm
    · rw [hpc, users, hu]
  have hp' : Serving L s t v ⟨[], w.source, us, w.more⟩ :=
    ⟨hs.visited, forall_mem_nil _, fun _ => hs.source (hu ▸ cons_ne_nil _ _),
      fun x hx => hs.users x (hu ▸ mem_cons_of_mem _ hx), hs.more_nodup, hs.more, hs.done⟩
  by_cases htask : L.task u = t
  · rw [if_pos htask]
    by_cases hfd : L.fd u = L.fd w.source
    · have hself : u = w.source := L.fd_inj _ _ (htask.trans hsource.1.symm) hfd
      rw [if_pos hfd]
      refine h.goto (fun e => ?_) ⟨ha, hp'⟩
      have he := howed (.serve c v ⟨[], w.source, us, w.more⟩) rfl (fun _ => rfl) e
      rwa [if_neg fun hl => hl.2 (hleads.mpr hself)] at he
    · rw [if_neg hfd]
      refine h.receiveFd (fun e => ?_) ⟨ha, hp'⟩
      have he := howed (.serve c v ⟨[], w.source, us, w.more⟩) rfl (fun _ => rfl) e
      have hl : ¬ L.Leads u := fun hl => hfd (congrArg L.fd (hleads.mp hl))
      simpa only [hl, not_false_eq_true, and_true] using he
  · rw [if_neg htask]
    refine h.send (fun e => ?_) ⟨ha, hp'⟩
    have he := howed (.signal (L.task u) c v ⟨[], w.source, us, w.more⟩) rfl (fun _ => rfl) e
    have hl : ¬ L.Leads u := fun hl => htask ((congrArg L.task (hleads.mp hl)).trans hsource.1)
    simpa only [hl, not_false_eq_true, and_true] using he

theorem Inv.visitEntry (hq : Quiet (s.pc t)) (ha : Ahead s t (fle :: c.todo) c.again)
    (hr : visitEntry L s t c fle o = some s') : Inv L s' := by
  simp only [FdDistribution.visitEntry] at hr
  by_cases hl : L.Leads fle
  · rw [if_pos hl] at hr
    split at hr
    · split at hr
      · rename_i hpass
        cases hr
        exact h.goto_quiet hq ⟨ha, fun _ => hpass⟩
      · exact nomatch hr
    · have h' := h.setSkipped (t := t) (forall_mem_cons.mpr ⟨hl, h.skipped t⟩)
      exact h'.openMaster hq (ha.keep rfl) hl hr
  rw [if_neg hl] at hr
  simp only [h.check_follower hl (ha.listed fle mem_cons_self)] at hr
  split at hr
  · rename_i hrec
    cases hr
    exact h.openReceived hq ha hl hrec
  · cases hr
    exact h.goto_quiet hq ⟨ha, awaits_of_not_leads hl⟩

theorem Inv.receiveOne (hpc : s.pc t = .receive c fle)
    (hr : receiveOne L s t c fle o = some s') : Inv L s' := by
  have hq : Quiet (s.pc t) := hpc ▸ ⟨rfl, fun _ => rfl⟩
  have hplace := h.place t
  rw [hpc] at hplace
  obtain ⟨ha, hwait⟩ := hplace
  simp only [FdDistribution.receiveOne] at hr
  split at hr
  · cases hr
    exact h.goto_quiet hq ha.skip
  rename_i m q hqueue
  have hmem : m ∈ s.queue t := hqueue ▸ mem_cons_self ..
  obtain ⟨hm, hfresh, _⟩ := h.queued hmem
  have hlisted : m ∈ (s.setQueue t q).listed t :=
    h.task_queued t m hmem ▸ (h.pending m hm hfresh).1
  have h' := h.plantFd hqueue
  have ha' : Ahead ((s.setQueue t q).plantFd m) t (fle :: c.todo) c.again := ha.keep rfl
  rw [if_neg (not_not.mpr hlisted)] at hr
  split at hr
  · cases hr
    exact h'
  rename_i hfle
  have hrec : ((s.setQueue t q).plantFd m).received fle = true := by
    rw [State.plantFd, State.receiveFd_received, not_ne_iff.mp hfle, update_self]
  split at hr
  · rename_i hl
    exact h'.openMaster hq ha' hl hr
  · rename_i hl
    cases hr
    exact h'.openReceived hq ha' hl hrec

theorem Inv.passEnd (hq : Quiet (s.pc t)) (ha : Ahead s t [] c.again) : Inv L (passEnd s t c) := by
  unfold FdDistribution.passEnd
  split
  · exact h.goto_quiet hq trivial
  split
  · exact h.goto_quiet hq trivial
  rename_i hagain
  have hlisted : s.listed t = [] := by
    refine eq_nil_iff_forall_not_mem.mpr fun e he => ?_
    rcases ha.rest e he with hnil | htrue
    · exact absurd hnil not_mem_nil
    · exact hagain (.inr htrue)
  have hbug : { s with bug := s.bug || decide (s.listed t ≠ []) } = s := by
    simp only [hlisted, ne_eq, not_true_eq_false, decide_false, Bool.or_false]
  rw [hbug]
  exact h.goto_quiet hq hlisted

theorem Inv.runTask (hr : runTask L s t o = some s') : Inv L s' := by
  have hplace := h.place t
  unfold FdDistribution.runTask at hr
  split at hr
  · rename_i hpc
    cases hr
    have h' := (h.setEvent t false).setSkipped (t := t) (forall_mem_nil _)
    refine h'.goto_quiet (hpc ▸ ⟨rfl, fun _ => rfl⟩) ?_
    exact ⟨h.listed_nodup t, fun _ he => he, fun _ he => .inl he⟩
  · rename_i hpc
    cases hr
    rw [hpc] at hplace
    exact h.passEnd (hpc ▸ ⟨rfl, fun _ => rfl⟩) hplace
  · rename_i fle todo progress again hpc
    rw [hpc] at hplace
    exact h.visitEntry (c := ⟨todo, progress, again⟩) (hpc ▸ ⟨rfl, fun _ => rfl⟩) hplace hr
  · rename_i hpc
    exact h.receiveOne hpc hr
  · rename_i hpc
    cases hr
    exact h.serveOne hpc
  · rename_i target c v w hpc
    cases hr
    have hplace' := (h.setEvent target true).place t
    rw [show (s.setEvent target true).pc t = _ from hpc] at hplace'
    refine (h.setEvent target true).goto (owed_goto ?_ fun m => ?_) hplace'
    · exact hpc ▸ rfl
    · exact hpc ▸ rfl
  · rename_i hpc
    split at hr
    · cases hr
      exact h.goto_quiet (hpc ▸ ⟨rfl, fun _ => rfl⟩) trivial
    · exact nomatch hr
  · rename_i hpc
    cases hr
    exact (h.setEvent t false).goto_quiet (hpc ▸ ⟨rfl, fun _ => rfl⟩) trivial
  · exact nomatch hr
  · exact nomatch hr

theorem Inv.step {a : Action τ ε} (hr : step L s a = some s') : Inv L s' := by
  cases a with
  | run t o => exact h.runTask hr
  | notify t =>
    cases hr
    exact h.setEvent t true

end Steps

end Criu.FdDelivery

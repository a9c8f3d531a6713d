import Mathlib.Data.List.TakeWhile
import Criu.UnixSockets

/-!
When a unix socket counts as restored, its packets have been sent. A queuer marks that it has sent
the queue of its peer, and the peer waits for the mark; the ends of a pair wait for the master. The
invariant says what the marks stand for. It is kept by runs in which a master is not visited
before the files of its packets are open, and in which every queue has a queuer.
-/

namespace Criu.UnixQueues

open UnixSockets Function

variable {w : World} {sys : Sys} {s s' : State} {u : Sk} {i : ℕ}

def queueFor (id : ℕ) (packets : List Packet) : List Packet :=
  packets.filter (fun p => p.idFor = id)

/-- The packets for the socket have been sent, each as often as the image has it, in its order. -/
def Sent (w : World) (s : State) (i : ℕ) : Prop :=
  (queueFor (w.img.entry i).id w.img.packets).Sublist s.sent

structure Core (w : World) (s : State) : Prop where
  stock : ∀ t id, queueFor id (s.packets t) = queueFor id w.img.packets ∨
    (queueFor id w.img.packets).Sublist s.sent
  flag : ∀ i q, w.prep.queuer i = some q → s.peerQueueRestored q = true → Sent w s i

structure Kept (w : World) (s s' : State) : Prop where
  core : Core w s → Core w s'
  sent : s.sent.Sublist s'.sent
  restored : ∀ u, s'.stage u = .restored → s.stage u = .restored
  plugin : ∀ u, s.byPlugin u = true → s'.byPlugin u = true

theorem Kept.refl (w : World) (s : State) : Kept w s s :=
  ⟨fun h => h, .refl _, fun _ h => h, fun _ h => h⟩

theorem Kept.trans {s'' : State} (h : Kept w s s') (h' : Kept w s' s'') : Kept w s s'' :=
  ⟨fun hc => h'.core (h.core hc), h.sent.trans h'.sent,
    fun u hu => h.restored u (h'.restored u hu), fun u hu => h'.plugin u (h.plugin u hu)⟩

theorem Sent.mono (h : Sent w s i) (hk : Kept w s s') : Sent w s' i :=
  h.trans hk.sent

theorem chkRestoredScms_kept (w : World) (s : State) (u : Sk) : Kept w s (chkRestoredScms s u).1 :=
  ⟨fun h => ⟨h.stock, h.flag⟩, .refl _, fun _ h => h, fun _ h => h⟩

theorem chkRestoredScms_done (h : ∀ f ∈ s.scmFles u, s.scmOpen f = true) :
    (chkRestoredScms s u).2 = false := by
  simp only [chkRestoredScms, decide_not, Bool.not_eq_false', decide_eq_true_eq]
  exact List.dropWhile_eq_nil_iff.mpr h

variable {ret : Ret} {newFd : Bool} {peer : ℕ} {q : Sk}

theorem queuer_inj (w : World) {j : ℕ} (hi : w.prep.queuer i = some q)
    (hj : w.prep.queuer j = some q) : i = j := by
  have hc := consistent_prepare w.prepared
  cases q with
  | real k =>
    exact Option.some.inj ((hc.queuer i k hi).symm.trans (hc.queuer j k hj))
  | fake k => exact (hc.fake i k hi).symm.trans (hc.fake j k hj)

theorem restoreSkQueue_kept (w : World) (s : State) (task peerId : ℕ) :
    Kept w s (restoreSkQueue s task peerId) := by
  have hsent : s.sent.Sublist (restoreSkQueue s task peerId).sent := List.sublist_append_left ..
  refine ⟨fun h => ⟨fun t id => ?_, fun i q hq hf => (h.flag i q hq hf).trans hsent⟩, hsent,
    fun _ h => h, fun _ h => h⟩
  rcases h.stock t id with hin | hin
  · by_cases ht : t = task
    · subst ht
      by_cases hid : id = peerId
      · subst hid
        exact .inr (hin ▸ List.sublist_append_right ..)
      · refine .inl (Eq.trans ?_ hin)
        simp only [restoreSkQueue, update_self, queueFor, List.filter_filter]
        refine List.filter_congr fun p _ => ?_
        by_cases hp : p.idFor = id <;> simp [hp, hid]
    · refine .inl ?_
      simp only [restoreSkQueue, update_of_ne ht]
      exact hin
  · exact .inr (hin.trans hsent)

theorem restoreSkQueue_sent (h : Core w s) (task i : ℕ) :
    Sent w (restoreSkQueue s task (w.img.entry i).id) i := by
  unfold Sent
  rcases h.stock task (w.img.entry i).id with hin | hin
  · exact hin ▸ List.sublist_append_right ..
  · exact hin.trans (List.sublist_append_left ..)

/-- A mark may be set once the queue has been sent. -/
theorem mark_kept (hq : w.prep.queuer i = some q) (hs : Sent w s i) :
    Kept w s { s with peerQueueRestored := update s.peerQueueRestored q true } := by
  refine ⟨fun h => ⟨h.stock, fun j q' hq' hf => ?_⟩, .refl _, fun _ h => h, fun _ h => h⟩
  by_cases hqq : q' = q
  · subst hqq
    rw [queuer_inj w hq' hq]
    exact hs
  · simp only [update_of_ne hqq] at hf
    exact h.flag j q' hq' hf

theorem restoreUnixQueue_spec {task : ℕ} (h : Core w s)
    (hr : restoreUnixQueue w sys s task peer = some s') : Kept w s s' ∧ Sent w s' peer := by
  have hkept := restoreSkQueue_kept w s task (w.img.entry peer).id
  have hsent := restoreSkQueue_sent h task peer
  unfold restoreUnixQueue at hr
  split at hr
  · cases hr
  cases hq : w.prep.queuer peer with
  | none =>
    simp only [hq, Option.some.injEq] at hr
    exact hr ▸ ⟨hkept, hsent⟩
  | some q =>
    simp only [hq, Option.some.injEq] at hr
    have hmark := mark_kept hq hsent
    exact hr ▸ ⟨hkept.trans hmark, hsent.mono hmark⟩

/-! ### Sockets on their own -/

def Marked (w : World) (s : State) (u : Sk) (ret : Ret) : Prop :=
  ret = .done → ∀ q, w.queuerOf u = some q → s.peerQueueRestored q = true

theorem restoreSkCommon_spec (hr : restoreSkCommon w sys s u = some (s', ret)) :
    s' = s ∧ Marked w s u ret := by
  unfold restoreSkCommon at hr
  split at hr
  · cases hr
    exact ⟨rfl, nofun⟩
  rename_i hmarks
  split at hr
  · cases hr
    refine ⟨rfl, fun _ q hq => ?_⟩
    simpa [hq] using hmarks
  · cases hr

theorem restoreQueue_spec (h : Core w s) (hr : restoreQueue w sys s u peer = some (s', ret)) :
    Kept w s s' ∧ Marked w s' u ret := by
  unfold restoreQueue at hr
  split at hr
  · obtain ⟨t, ht, hc⟩ := Option.bind_eq_some_iff.mp hr
    obtain ⟨rfl, hm⟩ := restoreSkCommon_spec hc
    exact ⟨(restoreUnixQueue_spec h ht).1, hm⟩
  · obtain ⟨rfl, hm⟩ := restoreSkCommon_spec hr
    exact ⟨Kept.refl w _, hm⟩

/-- The socket comes from a plugin, if its entry says so and the plugin succeeds. -/
def PluginRestores (w : World) (sys : Sys) (u : Sk) : Prop :=
  (w.entryOf u).service = false ∧ (w.entryOf u).callback = true ∧ sys.plugin = true

theorem postOpenStandalone_spec (h : Core w s)
    (hr : postOpenStandalone w sys s u = some (s', ret)) :
    Kept w s s' ∧ Marked w s' u ret ∧ ¬ PluginRestores w sys u := by
  have hkept := chkRestoredScms_kept w s u
  have hcore := hkept.core h
  unfold postOpenStandalone at hr
  simp only at hr
  generalize (chkRestoredScms s u).1 = t at hr hkept hcore
  split at hr
  · cases hr
  rename_i hcallback
  have hplugin : ¬ PluginRestores w sys u := fun h => hcallback h.2.1
  have hcommon : restoreSkCommon w sys t u = some (s', ret) →
      Kept w s s' ∧ Marked w s' u ret ∧ ¬ PluginRestores w sys u := fun hc => by
    obtain ⟨rfl, hm⟩ := restoreSkCommon_spec hc
    exact ⟨hkept, hm, hplugin⟩
  split at hr
  · cases hr
    exact ⟨hkept, nofun, hplugin⟩
  split at hr
  · exact hcommon hr
  split at hr
  · exact hcommon hr
  split at hr
  · obtain ⟨hk, hm⟩ := restoreQueue_spec hcore hr
    exact ⟨hkept.trans hk, hm, hplugin⟩
  split at hr
  · cases hr
    exact ⟨hkept, nofun, hplugin⟩
  split at hr
  · cases hr
  · have hconn : Kept w t { t with isConnected := update t.isConnected u true } :=
      ⟨fun h => ⟨h.stock, h.flag⟩, .refl _, fun _ h => h, fun _ h => h⟩
    obtain ⟨hk, hm⟩ := restoreQueue_spec (hconn.core hcore) hr
    exact ⟨hkept.trans (hconn.trans hk), hm, hplugin⟩

theorem setupAndServeOut_kept (w : World) (hr : setupAndServeOut sys s u = some s') :
    Kept w s s' := by
  unfold setupAndServeOut at hr
  split at hr
  · cases hr
    refine ⟨fun h => ⟨h.stock, h.flag⟩, .refl _, fun v hv => ?_, fun _ h => h⟩
    by_cases huv : v = u
    · subst huv
      simp at hv
    · simpa only [update_of_ne huv] using hv
  · cases hr

theorem bindUnixSk_kept (hr : bindUnixSk w sys s u = some s') : Kept w s s' := by
  unfold bindUnixSk at hr
  simp only at hr
  split at hr
  · cases hr
    exact Kept.refl w _
  split at hr
  · cases hr
  split at hr
  · cases hr
    exact ⟨fun h => ⟨h.stock, h.flag⟩, .refl _, fun _ h => h, fun _ h => h⟩
  · cases hr
    exact Kept.refl w _

theorem bindStandalone_kept (hr : bindStandalone w sys s u = some s') : Kept w s s' := by
  unfold bindStandalone at hr
  split at hr
  · exact bindUnixSk_kept hr
  · cases hr
    exact ⟨fun h => ⟨h.stock, h.flag⟩, .refl _, fun _ h => h, fun _ h => h⟩

theorem listenUnixSk_kept (hr : listenUnixSk w sys s u = some s') : Kept w s s' := by
  unfold listenUnixSk at hr
  split at hr
  · cases hr
    exact Kept.refl w _
  split at hr
  · cases hr
    exact ⟨fun h => ⟨h.stock, h.flag⟩, .refl _, fun _ h => h, fun _ h => h⟩
  · cases hr

theorem openSocket_spec {plugin : Bool} (hr : openSocket w sys s u = some (s', plugin)) :
    Kept w s s' ∧ (plugin = true → s'.byPlugin u = true) ∧
      (plugin = false → w.queuerOf u = none → ¬ PluginRestores w sys u) := by
  have hsame : ¬ PluginRestores w sys u → some (s, false) = some (s', plugin) →
      Kept w s s' ∧ (plugin = true → s'.byPlugin u = true) ∧
        (plugin = false → w.queuerOf u = none → ¬ PluginRestores w sys u) := fun hn h => by
    cases h
    exact ⟨Kept.refl w _, by simp, fun _ _ => hn⟩
  unfold openSocket at hr
  simp only at hr
  generalize hq : Option.filter Sk.isFake (w.queuerOf u) = fakeQueuer at hr
  have hpair : ∀ r : Option (State × Bool), (fakeQueuer = none → r = none) →
      (∀ q, fakeQueuer = some q → r = (setupAndServeOut sys s q).map fun s => (s, false)) →
      (if sys.makeSocket = false then none else r) = some (s', plugin) →
      Kept w s s' ∧ (plugin = true → s'.byPlugin u = true) ∧
        (plugin = false → w.queuerOf u = none → ¬ PluginRestores w sys u) := by
    intro r hnone hsome h
    split at h
    · cases h
    cases fakeQueuer with
    | none => cases (hnone rfl).symm.trans h
    | some q =>
      obtain ⟨t, ht, he⟩ := Option.map_eq_some_iff.mp ((hsome q rfl).symm.trans h)
      cases he
      refine ⟨setupAndServeOut_kept w ht, by simp, fun _ hnone => ?_⟩
      rw [hnone] at hq
      cases hq
  split at hr
  · rename_i hservice
    split at hr
    · refine hsame (fun h => ?_) hr
      rw [h.1] at hservice
      cases hservice
    · cases hr
  split at hr
  · split at hr
    · cases hr
    · exact hpair _ (fun h => by rw [h]) (fun q h => by rw [h]) hr
  split at hr
  · exact hpair _ (fun h => by rw [h]) (fun q h => by rw [h]) hr
  split at hr
  · cases hr
    refine ⟨⟨fun h => ⟨h.stock, h.flag⟩, .refl _, fun _ h => h, fun v hv => ?_⟩,
      fun _ => update_self .., by simp⟩
    by_cases huv : v = u
    · subst huv
      exact update_self ..
    · simpa only [update_of_ne huv] using hv
  · rename_i hplugin
    split at hr
    · cases hr
    split at hr
    · exact hsame (fun h => hplugin h.2) hr
    · cases hr

/-- A socket on its own for which 0 is returned came from a plugin, or its queuer set the mark. -/
theorem openUnixskStandalone_spec (h : Core w s)
    (hr : openUnixskStandalone w sys s u = some (s', ret, newFd)) :
    Kept w s s' ∧ (ret = .done → s'.byPlugin u = true ∨
      (∀ q, w.queuerOf u = some q → s'.peerQueueRestored q = true) ∧
        (w.queuerOf u = none → ¬ PluginRestores w sys u)) := by
  unfold openUnixskStandalone at hr
  split at hr
  · cases hr
    exact ⟨Kept.refl w _, nofun⟩
  split at hr
  · obtain ⟨r, hpost, he⟩ := Option.map_eq_some_iff.mp hr
    cases he
    obtain ⟨hk, hm, hn⟩ := postOpenStandalone_spec h hpost
    exact ⟨hk, fun hd => .inr ⟨hm hd, fun _ => hn⟩⟩
  split at hr
  · cases hr
    exact ⟨Kept.refl w _, nofun⟩
  split at hr
  · cases hr
  obtain ⟨⟨t, plugin⟩, ht, hr⟩ := Option.bind_eq_some_iff.mp hr
  obtain ⟨hk, hp, hn⟩ := openSocket_spec ht
  simp only at hr
  split at hr
  · rename_i hplugin
    split at hr
    · cases hr
      exact ⟨hk, fun _ => .inl (hp hplugin)⟩
    · cases hr
  rename_i hplugin
  obtain ⟨t₁, h₁, hr⟩ := Option.bind_eq_some_iff.mp hr
  obtain ⟨t₂, h₂, hr⟩ := Option.bind_eq_some_iff.mp hr
  have hk' := hk.trans ((bindStandalone_kept h₁).trans (listenUnixSk_kept h₂))
  split at hr
  · cases hr
    exact ⟨hk', nofun⟩
  rename_i hnone
  split at hr
  · cases hr
    refine ⟨hk', fun _ => .inr ⟨fun q hq => ?_, hn (Bool.not_eq_true _ ▸ hplugin)⟩⟩
    exact absurd (.inr (by simp [hq])) hnone
  · cases hr

/-! ### Pairs -/

/-- If the files of both ends are open, a master that returns 0 has sent both queues. -/
theorem postOpenInterconnectedMaster_spec (h : Core w s)
    (hopen : ∀ f ∈ s.scmFles (.real i), s.scmOpen f = true)
    (hopen' : ∀ f ∈ s.scmFles (.real peer), s.scmOpen f = true) (hne : peer ≠ i)
    (hr : postOpenInterconnectedMaster w sys s i peer = some (s', ret)) :
    Kept w s s' ∧ Sent w s' i ∧ Sent w s' peer := by
  have hkept := chkRestoredScms_kept w s (.real i)
  have hdone := chkRestoredScms_done hopen
  have hdone' : (chkRestoredScms (chkRestoredScms s (.real i)).1 (.real peer)).2 = false := by
    refine chkRestoredScms_done fun f hf => hopen' f ?_
    simpa [chkRestoredScms, hne] using hf
  unfold postOpenInterconnectedMaster at hr
  simp only [hdone, hdone'] at hr
  generalize ht : (chkRestoredScms s (.real i)).1 = t at hr hkept
  have hkept' := hkept.trans (chkRestoredScms_kept w t (.real peer))
  obtain ⟨s₁, h₁, hr⟩ := Option.bind_eq_some_iff.mp hr
  obtain ⟨s₂, h₂, hr⟩ := Option.bind_eq_some_iff.mp hr
  obtain ⟨hk₁, hsent₁⟩ := restoreUnixQueue_spec (hkept'.core h) h₁
  obtain ⟨hk₂, hsent₂⟩ := restoreUnixQueue_spec (hk₁.core (hkept'.core h)) h₂
  split at hr
  · cases hr
    exact ⟨hkept'.trans (hk₁.trans hk₂), hsent₂, hsent₁.mono hk₂⟩
  · cases hr

theorem openUnixskPairMaster_spec (h : Core w s)
    (hopen : s.stage (.real i) = .opened → (∀ f ∈ s.scmFles (.real i), s.scmOpen f = true) ∧
      ∀ f ∈ s.scmFles (.real peer), s.scmOpen f = true) (hne : peer ≠ i)
    (hr : openUnixskPairMaster w sys s i peer = some (s', ret, newFd)) :
    Kept w s s' ∧ (ret = .done → Sent w s' i ∧ Sent w s' peer) := by
  unfold openUnixskPairMaster at hr
  split at hr
  · rename_i hstage
    obtain ⟨r, hpost, he⟩ := Option.map_eq_some_iff.mp hr
    cases he
    obtain ⟨ho, ho'⟩ := hopen hstage
    obtain ⟨hk, hs, hs'⟩ := postOpenInterconnectedMaster_spec h ho ho' hne hpost
    exact ⟨hk, fun _ => ⟨hs, hs'⟩⟩
  split at hr
  · cases hr
  obtain ⟨s₁, h₁, hr⟩ := Option.bind_eq_some_iff.mp hr
  obtain ⟨s₂, h₂, hr⟩ := Option.bind_eq_some_iff.mp hr
  obtain ⟨s₃, h₃, hr⟩ := Option.bind_eq_some_iff.mp hr
  cases hr
  exact ⟨(setupAndServeOut_kept w h₁).trans ((bindUnixSk_kept h₂).trans (bindUnixSk_kept h₃)),
    nofun⟩

/-! ### Runs -/

/-- The condition on a visit. The two files lists of a pair are open when the master looks at them
again, the master of a pair is not handed over by the user, and a queue has somebody to send it. -/
def Sound (w : World) (s : State) : Step → Prop
  | .scmOpens _ => True
  | .visit (.fake _) _ => True
  | .visit (.real i) sys =>
      (w.prep.master i = true → s.stage (.real i) = .opened → ∀ peer, w.prep.peer i = some peer →
        (∀ f ∈ s.scmFles (.real i), s.scmOpen f = true) ∧
        ∀ f ∈ s.scmFles (.real peer), s.scmOpen f = true) ∧
      (w.prep.slave i = true → ∀ peer, w.prep.peer i = some peer →
        w.img.inherited peer = false) ∧
      (w.prep.master i = false → w.prep.slave i = false → w.prep.queuer i = none →
        PluginRestores w sys (.real i) ∨ ∀ p ∈ w.img.packets, p.idFor ≠ (w.img.entry i).id)

/-- The socket is external, handed over by the user, or from a plugin. -/
def Exempt (w : World) (s : State) (i : ℕ) : Prop :=
  (w.img.entry i).external = true ∨ w.img.inherited i = true ∨ s.byPlugin (.real i) = true

structure Inv (w : World) (s : State) : Prop where
  core : Core w s
  restored : ∀ i, s.stage (.real i) = .restored → Exempt w s i ∨ Sent w s i
  master : ∀ i peer, w.prep.master i = true → w.prep.peer i = some peer →
    w.img.inherited i = false → s.stage (.real i) = .restored → Sent w s peer

/-- The invariant without what the visit may have added for its own socket. -/
theorem Inv.kept (h : Inv w s) (hk : Kept w s s') : Inv w s' := by
  refine ⟨hk.core h.core, fun i hi => ?_, fun i peer hm hp hh hi => ?_⟩
  · refine (h.restored i (hk.restored _ hi)).imp (fun he => ?_) fun hs => hs.mono hk
    exact he.imp_right fun he => he.imp_right fun he => hk.plugin _ he
  · exact (h.master i peer hm hp hh (hk.restored _ hi)).mono hk

def Ready (w : World) (s : State) : Sk → Prop
  | .fake _ => True
  | .real i => (Exempt w s i ∨ Sent w s i) ∧
      (w.prep.master i = true → w.img.inherited i = false → ∀ peer, w.prep.peer i = some peer →
        Sent w s peer)

theorem openUnixSk_spec (h : Inv w s) (hs : Sound w s (.visit u sys))
    (hr : openUnixSk w sys s u = some (s', ret, newFd)) :
    Kept w s s' ∧ (ret = .done → Ready w s' u) := by
  cases u with
  | fake i => exact ⟨(openUnixskStandalone_spec h.core hr).1, fun _ => trivial⟩
  | real i =>
    obtain ⟨hmaster, hslave, halone⟩ := hs
    have hc := consistent_prepare w.prepared
    simp only [openUnixSk] at hr
    split at hr
    · rename_i hinherit
      split at hr
      · cases hr
        refine ⟨Kept.refl w _, fun _ => ⟨.inl (.inr (.inl hinherit)), fun _ hno => ?_⟩⟩
        rw [hinherit] at hno
        cases hno
      · cases hr
    split at hr
    · rename_i hm
      obtain ⟨peer, hp, hr⟩ := Option.bind_eq_some_iff.mp hr
      obtain ⟨hk, hd⟩ := openUnixskPairMaster_spec h.core
        (fun hstage => hmaster hm hstage peer hp) (hc.master i hm peer hp) hr
      refine ⟨hk, fun hdone => ⟨.inr (hd hdone).1, fun _ _ peer' hp' => ?_⟩⟩
      rw [← Option.some.inj (hp.symm.trans hp')]
      exact (hd hdone).2
    rename_i hm
    split at hr
    · -- the master is restored, so it has sent the queue of this end
      rename_i hsl
      obtain ⟨peer, hp, he⟩ := Option.map_eq_some_iff.mp hr
      cases he
      refine ⟨Kept.refl w _, fun hdone => ⟨.inr ?_, fun hm' => absurd hm' hm⟩⟩
      obtain ⟨m, hpm, hmm, hback⟩ := hc.slave i hsl
      have heq : peer = m := Option.some.inj (hp.symm.trans hpm)
      subst heq
      refine h.master peer i hmm hback (hslave hsl peer hp) ?_
      by_contra hstage
      rw [if_pos hstage] at hdone
      cases hdone
    rename_i hsl
    obtain ⟨hk, hd⟩ := openUnixskStandalone_spec h.core hr
    refine ⟨hk, fun hdone => ⟨?_, fun hm' => absurd hm' hm⟩⟩
    rcases hd hdone with hplugin | ⟨hmarks, hno⟩
    · exact .inl (.inr (.inr hplugin))
    right
    cases hq : w.prep.queuer i with
    | some q => exact (hk.core h.core).flag i q hq (hmarks q hq)
    | none =>
      rcases halone (by simpa using hm) (by simpa using hsl) hq with hpl | hnone
      · exact absurd hpl (hno hq)
      · have hnil : queueFor (w.img.entry i).id w.img.packets = [] :=
          List.filter_eq_nil_iff.mpr fun p hp => by simpa using hnone p hp
        rw [Sent, hnil]
        exact List.nil_sublist _

theorem Ready.mono (h : Ready w s u) (hk : Kept w s s') : Ready w s' u := by
  cases u with
  | fake i => trivial
  | real i =>
    refine ⟨h.1.imp (fun he => ?_) fun hs => hs.mono hk, fun hm hh peer hp => ?_⟩
    · exact he.imp_right fun he => he.imp_right fun he => hk.plugin _ he
    · exact (h.2 hm hh peer hp).mono hk

/-- A socket may be marked as restored once it is ready. -/
theorem Inv.restore (h : Inv w s) (hr : Ready w s u) :
    Inv w { s with stage := update s.stage u .restored } := by
  refine ⟨⟨h.core.stock, h.core.flag⟩, fun i hi => ?_, fun i peer hm hp hh hi => ?_⟩
  · by_cases hu : Sk.real i = u
    · subst hu
      exact hr.1
    · exact h.restored i (by simpa only [update_of_ne hu] using hi)
  · by_cases hu : Sk.real i = u
    · subst hu
      exact hr.2 hm hh peer hp
    · exact h.master i peer hm hp hh (by simpa only [update_of_ne hu] using hi)

theorem Inv.openFd (h : Inv w s) (hs : Sound w s (.visit u sys)) (hr : openFd w sys s u = some s') :
    Inv w s' := by
  obtain ⟨⟨t, ret, newFd⟩, ht, hr⟩ := Option.bind_eq_some_iff.mp hr
  obtain ⟨t', ht', rfl⟩ := Option.map_eq_some_iff.mp hr
  obtain ⟨hk, hready⟩ := openUnixSk_spec h hs ht
  have hk' : Kept w t t' := by
    split at ht'
    · exact setupAndServeOut_kept w ht'
    · cases ht'
      exact Kept.refl w _
  have hinv := h.kept (hk.trans hk')
  split
  · rename_i hdone
    exact hinv.restore ((hready hdone).mono hk')
  · exact hinv

theorem Inv.step (h : Inv w s) {a : Step} (hs : Sound w s a) (hr : step w s a = some s') :
    Inv w s' := by
  cases a with
  | scmOpens f =>
    cases hr
    exact h.kept ⟨fun h => ⟨h.stock, h.flag⟩, .refl _, fun _ h => h, fun _ h => h⟩
  | visit u sys =>
    simp only [UnixSockets.step] at hr
    split at hr
    · cases hr
    · exact h.openFd hs hr

def Reached (w : World) (ok : State → Step → Prop) : State → Prop :=
  Run.Reach (fun s => s = initState w.img) (fun s a t => step w s a = some t) ok

theorem Reached.inv (h : Reached w (Sound w) s) : Inv w s := by
  refine Run.Reach.invariant (fun s hs => ?_) (fun s a t _ hi hok ht => hi.step hok ht) h
  rw [hs]
  exact ⟨⟨fun _ _ => .inl rfl, nofun⟩, nofun, nofun⟩

def allGood : Sys := ⟨true, true, true, true, true, true, true, true, true, true, true, true⟩

def plainEntry (id ino peer : ℕ) (type : SkType) (state : TcpState) : UnixSkEntry :=
  ⟨id, ino, peer, type, state, false, false, false, false, false, false, false, false, false⟩

def loneImage : Image where
  count := 1
  entry _ := plainEntry 5 100 0 .dgram .close
  ino_inj i j hi hj _ := by omega
  packets := [⟨5, [1, 2, 3]⟩]
  hasFles _ := true
  inherited _ := false
  extUnixSk := false
  task _ := 1
  scms _ := []

def loneWorld : World where
  img := loneImage
  prep := (prepare loneImage).get rfl
  prepared := (Option.some_get _).symm

/-- A stream pair; the packet for the second end carries a file that is not open yet. -/
def pairImage : Image where
  count := 2
  entry i := if i = 0 then plainEntry 5 100 101 .stream .established
    else plainEntry 6 101 100 .stream .established
  ino_inj i j hi hj h := by
    have hi : i = 0 ∨ i = 1 := by omega
    have hj : j = 0 ∨ j = 1 := by omega
    rcases hi with rfl | rfl <;> rcases hj with rfl | rfl <;> simp_all [plainEntry]
  packets := [⟨6, [1]⟩]
  hasFles _ := true
  inherited _ := false
  extUnixSk := false
  task _ := 1
  scms u := if u = .real 0 then [7] else []

def pairWorld : World where
  img := pairImage
  prep := (prepare pairImage).get rfl
  prepared := (Option.some_get _).symm

/-- A socket that counts as restored has its queue: all packets of the image that are addressed to
it have been sent, as often as it has them and in its order. -/
theorem restored_with_queue (w : World) {s : State} (h : Reached w (Sound w) s) (i : ℕ)
    (hi : s.stage (.real i) = .restored) : Exempt w s i ∨ Sent w s i :=
  h.inv.restored i hi

/-- The fake queuer sends the packet before the socket counts as restored. -/
theorem lone_socket_restored : ∃ s, Reached loneWorld (Sound loneWorld) s ∧
    s.stage (.real 0) = .restored ∧ (Exempt loneWorld s 0 ∨ Sent loneWorld s 0) ∧
    s.sent = [⟨5, [1, 2, 3]⟩] := by
  have hsound : ∀ s, Sound loneWorld s (.visit (.real 0) allGood) := fun s =>
    ⟨fun h => absurd h (by decide), fun h => absurd h (by decide),
      fun _ _ h => absurd h (by decide)⟩
  have hr : Reached loneWorld (Sound loneWorld) _ :=
    .next (.next (e := .visit (.fake 0) allGood)
      (.next (.start rfl) (hsound _) rfl) trivial rfl)
      (hsound _) rfl
  exact ⟨_, hr, rfl, restored_with_queue loneWorld hr 0 rfl, rfl⟩

/-- The master of the pair counts as restored on its second visit, and its packet was not sent. -/
theorem pair_restored_without_queue : ∃ s, Reached pairWorld (fun _ _ => True) s ∧
    s.stage (.real 1) = .restored ∧ ¬ Exempt pairWorld s 1 ∧ ¬ Sent pairWorld s 1 := by
  have hr : Reached pairWorld (fun _ _ => True) _ :=
    .next (e := .visit (.real 1) allGood) (.next (e := .visit (.real 1) allGood) (.start rfl)
      trivial rfl) trivial rfl
  refine ⟨_, hr, rfl, ?_, fun h => ?_⟩
  · rintro (h | h | h) <;> exact absurd h (by decide)
  · exact absurd (h.subset (show ⟨6, [1]⟩ ∈ _ by decide)) (by decide)

end Criu.UnixQueues

import Mathlib.Data.List.ReduceOption
import Criu.EpollRestore

/-!
Which targets are on which eventpoll file when all files are open. The log of adds agrees at every
state with what is due there: the targets in the tree whose descriptors are open, and the own
targets of the files that are restored. For that, a file has to be in the store before a task that
received a descriptor from another one adds it, and no target may be opened along with the other
end of a pair. When moreover every foreign target has its own place in the tree, what is due in the
end are the entries of the image.
-/

namespace Criu.EpollAdds

open List Function

open FdDistribution (Layout Stage Ret leads_master)

variable {ε δ α : Type} {f : ε} {l : List α}
open EpollTargets EpollRestore

section Due

variable (I : Image ε δ) (p : Prep δ)

def targetOf (f : ε) : Option (Target δ) :=
  epollLookupTarget p.tree (I.layout.task f) (I.layout.fd f)

def targetAdd (t : Target δ) : CtlAdd δ :=
  ⟨t.pid, t.info, t.tfde.tfd, t.tfde.events, t.tfde.data⟩

def ownAdd (d : δ) (e : TfdEntry) : CtlAdd δ :=
  ⟨I.home d, d, e.tfd, e.events, e.data⟩

variable {I p} in
theorem targetOf_eq_some_iff {t : Target δ} (ho : Ordered p.tree) :
    targetOf I p f = some t ↔
      t ∈ p.tree.toList ∧ t.pid = I.layout.task f ∧ t.tfd = I.layout.fd f := by
  rw [targetOf, ho.lookup_eq_some_iff, Target.key, targetKey_inj]

def filled (s : State ε δ) : List δ :=
  I.epolls.filter fun d => s.stage (I.layout.master d) = .restored

variable {I} in
theorem filled_congr {s s' : State ε δ}
    (h : ∀ d ∈ I.epolls, s'.stage (I.layout.master d) = .restored ↔
      s.stage (I.layout.master d) = .restored) : filled I s' = filled I s :=
  filter_congr fun d hd => decide_eq_decide.mpr (h d hd)

variable [DecidableEq ε]

/-- The descriptor of the entry is in place, and `eventpoll_notify_open` was due. -/
def notified (s : State ε δ) (f : ε) : Bool :=
  if I.layout.Leads f then s.stage f ≠ .initialized else s.stage f = .restored

def targetDone (s : State ε δ) (t : Target δ) : Bool :=
  (I.layout.fds t.pid).any fun f => I.layout.fd f = t.tfd ∧ notified I s f = true

def due (s : State ε δ) : List (CtlAdd δ) :=
  (p.tree.toList.filter (targetDone I s)).map targetAdd ++
    (filled I s).flatMap fun d => (p.own d).reduceOption.map (ownAdd I d)

variable {I p} {s s' : State ε δ} {t : Target δ}

theorem targetDone_iff : targetDone I s t = true ↔
    ∃ f, I.layout.task f = t.pid ∧ I.layout.fd f = t.tfd ∧ notified I s f = true := by
  rw [targetDone, any_eq_true]
  constructor
  · rintro ⟨f, hf, hd⟩
    exact ⟨f, (I.layout.mem_fds f _).mp hf, of_decide_eq_true hd⟩
  · rintro ⟨f, hf, hd⟩
    exact ⟨f, (I.layout.mem_fds f _).mpr hf, decide_eq_true hd⟩

/-- A target is done when its only entry is. -/
theorem targetDone_of_targetOf (ho : Ordered p.tree) (ht : targetOf I p f = some t) :
    targetDone I s t = notified I s f := by
  obtain ⟨_, hpid, htfd⟩ := (targetOf_eq_some_iff ho).mp ht
  rw [Bool.eq_iff_iff, targetDone_iff]
  constructor
  · rintro ⟨g, hg1, hg2, hg3⟩
    have hgf : g = f := I.layout.fd_inj g f (hg1.trans hpid) (hg2.trans htfd)
    exact hgf ▸ hg3
  · intro hf
    exact ⟨f, hpid.symm, htfd.symm, hf⟩

/-- Which targets are done depends on the entries that have one. -/
theorem targetDone_congr (ho : Ordered p.tree) (hm : t ∈ p.tree.toList)
    (h : ∀ g, targetOf I p g = some t → notified I s' g = notified I s g) :
    targetDone I s' t = targetDone I s t := by
  rw [Bool.eq_iff_iff, targetDone_iff, targetDone_iff]
  refine exists_congr fun g => and_congr_right fun h1 => and_congr_right fun h2 => ?_
  rw [h g ((targetOf_eq_some_iff ho).mpr ⟨hm, h1.symm, h2.symm⟩)]

/-- Entries that are no targets may be opened without a notice. -/
theorem targets_congr (ho : Ordered p.tree)
    (h : ∀ g, targetOf I p g ≠ none → notified I s' g = notified I s g) :
    p.tree.toList.filter (targetDone I s') = p.tree.toList.filter (targetDone I s) :=
  filter_congr fun _ hm =>
    targetDone_congr ho hm fun g hg => h g fun hn => nomatch hn.symm.trans hg

/-- Those that a grown predicate keeps, besides those that were kept before. -/
theorem filter_perm_append {q q' r : α → Bool}
    (h : ∀ x ∈ l, q' x = (q x || r x)) (hd : ∀ x ∈ l, q x = true → r x = false) :
    (l.filter q').Perm (l.filter q ++ l.filter r) := by
  have hsplit := (filter_append_perm q (l.filter q')).symm
  rw [filter_filter, filter_filter] at hsplit
  refine hsplit.trans (List.Perm.of_eq (congrArg₂ _ ?_ ?_))
  · refine filter_congr fun x hx => ?_
    rw [h x hx]
    cases q x <;> rfl
  · refine filter_congr fun x hx => ?_
    rw [h x hx]
    cases hq : q x with
    | false => rfl
    | true => rw [hd x hx hq]; rfl

theorem filter_eq_singleton {β : Type} [DecidableEq β] (k : α → β) {a : α}
    (hn : (l.map k).Nodup) (ha : a ∈ l) : l.filter (fun x => k x = k a) = [a] := by
  classical
  have hinj : ∀ x ∈ l, (k x = k a ↔ x = a) := fun x hx =>
    ⟨inj_on_of_nodup_map hn hx ha, congrArg k⟩
  rw [filter_congr fun x hx => decide_eq_decide.mpr (hinj x hx), filter_eq,
    count_eq_one_of_mem hn.of_map ha, replicate_one]

/-- One more entry is opened, and its target is done. -/
theorem targets_notify (ho : Ordered p.tree)
    (h : ∀ g, g ≠ f → targetOf I p g ≠ none → notified I s' g = notified I s g)
    (hf : notified I s f = false) (hf' : notified I s' f = true) :
    (p.tree.toList.filter (targetDone I s')).Perm
      (p.tree.toList.filter (targetDone I s) ++ (targetOf I p f).toList) := by
  cases ht : targetOf I p f with
  | none =>
    rw [Option.toList_none, append_nil]
    refine List.Perm.of_eq (targets_congr ho fun g hg => h g ?_ hg)
    rintro rfl
    exact hg ht
  | some t =>
    obtain ⟨hmem, hpid, htfd⟩ := (targetOf_eq_some_iff ho).mp ht
    have hone := filter_eq_singleton Target.key ho.keys_nodup hmem
    rw [Option.toList_some, ← hone]
    refine filter_perm_append (fun x hx => ?_) fun x hx hdone => ?_
    · by_cases hk : x.key = t.key
      · obtain rfl := inj_on_of_nodup_map ho.keys_nodup hx hmem hk
        rw [targetDone_of_targetOf ho ht, hf', decide_eq_true hk, Bool.or_true]
      · rw [decide_eq_false hk, Bool.or_false]
        refine targetDone_congr ho hx fun g hg => h g ?_ fun hn => nomatch hn.symm.trans hg
        rintro rfl
        rw [ht] at hg
        exact hk (congrArg Target.key (Option.some.inj hg.symm))
    · refine decide_eq_false fun hk => ?_
      obtain rfl := inj_on_of_nodup_map ho.keys_nodup hx hmem hk
      rw [targetDone_of_targetOf ho ht, hf] at hdone
      exact nomatch hdone

theorem filled_restored [DecidableEq δ] {d : δ} (hd : d ∈ I.epolls)
    (hs : s.stage (I.layout.master d) ≠ .restored)
    (hs' : s'.stage = update s.stage (I.layout.master d) .restored) :
    (filled I s').Perm (filled I s ++ [d]) := by
  have hone : I.epolls.filter (fun x => id x = id d) = [d] :=
    filter_eq_singleton id (by rw [map_id]; exact I.epolls_nodup) hd
  rw [← hone]
  refine filter_perm_append (fun x _ => ?_) fun x _ hx => ?_
  · rw [hs']
    by_cases hxd : x = d
    · rw [hxd, update_self]
      simp only [decide_true, Bool.or_true]
    · have hne : I.layout.master x ≠ I.layout.master d := by
        intro hm
        rw [← I.layout.desc_master x, hm, I.layout.desc_master] at hxd
        exact hxd rfl
      rw [update_of_ne hne, decide_eq_false (show ¬ id x = id d from hxd), Bool.or_false]
  · refine decide_eq_false fun hxd => hs ?_
    rw [← show x = d from hxd]
    exact of_decide_eq_true hx

theorem due_notify (ho : Ordered p.tree)
    (h : ∀ g, g ≠ f → targetOf I p g ≠ none → notified I s' g = notified I s g)
    (hf : notified I s f = false) (hf' : notified I s' f = true)
    (hfill : filled I s' = filled I s) :
    (due I p s ++ (targetOf I p f).toList.map targetAdd).Perm (due I p s') := by
  unfold due
  rw [hfill, append_assoc]
  refine (perm_append_comm.append_left _).trans ?_
  rw [← append_assoc, ← map_append]
  exact ((targets_notify ho h hf hf').symm.map _).append_right _

end Due

section Notify

variable {I : Image ε δ} {p : Prep δ} {s s' : State ε δ} {sys : Sys ε}

def Stored (s : State ε δ) : Prop :=
  ∀ d, s.fdstoreReady d = true → ∃ id, s.fdstoreId d = some id ∧ s.store[id]? = some (some d)

theorem Stored.append {x : List (Option δ)} (h : Stored s) (hid : s'.fdstoreId = s.fdstoreId)
    (hready : s'.fdstoreReady = s.fdstoreReady) (hstore : s'.store = s.store ++ x) : Stored s' := by
  intro d hd
  obtain ⟨id, h1, h2⟩ := h d (hready ▸ hd)
  refine ⟨id, hid ▸ h1, ?_⟩
  rw [hstore, getElem?_append_left (List.getElem?_eq_some_iff.mp h2).1]
  exact h2

theorem Stored.putStore [DecidableEq δ] {d : δ} (h : Stored s) : Stored (s.putStore d) := by
  intro x hx
  by_cases hxd : x = d
  · subst hxd
    exact ⟨s.store.length, update_self .., getElem?_concat_length⟩
  · have hready : s.fdstoreReady x = true := (update_of_ne hxd ..).symm.trans hx
    obtain ⟨id, h1, h2⟩ := h x hready
    refine ⟨id, (update_of_ne hxd ..).trans h1, ?_⟩
    exact (getElem?_append_left (List.getElem?_eq_some_iff.mp h2).1).trans h2

/-- `eventpoll_notify_pre_open` lets a master pass. -/
theorem ready_of_preOpenOk (h : preOpenOk I p s f = true) (t : Target δ)
    (ht : targetOf I p f = some t) : s.fdstoreReady t.info = true := by
  rw [preOpenOk, ← targetOf, ht] at h
  exact h

theorem restoreTfds_spec {task : ℕ} {d : δ} {es : List TfdEntry}
    (hr : restoreTfds sys task d s es = some s') :
    s' = { s with log := s.log ++ es.map fun e => ⟨task, d, e.tfd, e.events, e.data⟩ } := by
  induction es generalizing s with
  | nil =>
    cases hr
    simp only [map_nil, append_nil]
  | cons e es ih =>
    obtain ⟨s1, hs1, hr'⟩ := Option.bind_eq_some_iff.mp hr
    simp only [eventpollRetoreTfd] at hs1
    split at hs1
    · cases hs1
      rw [ih hr']
      simp only [map_cons, append_assoc, singleton_append]
    · exact nomatch hs1

/-- A notice finds the right file in the store and adds the target to it. -/
theorem notifyOpen_spec (ho : Ordered p.tree) (hst : Stored s)
    (hready : ∀ t, targetOf I p f = some t → s.fdstoreReady t.info = true)
    (hr : eventpollNotifyOpen I p s sys f = some s') :
    s' = { s with log := s.log ++ (targetOf I p f).toList.map targetAdd } := by
  rw [eventpollNotifyOpen, ← targetOf] at hr
  cases ht : targetOf I p f with
  | none =>
    rw [ht] at hr
    cases hr
    simp only [Option.toList_none, map_nil, append_nil]
  | some t =>
    obtain ⟨id, hid, hget⟩ := hst t.info (hready t ht)
    obtain ⟨_, hpid, _⟩ := (targetOf_eq_some_iff ho).mp ht
    rw [ht] at hr
    simp only [hid, fdstoreGet, hget, eventpollRetoreTfd] at hr
    split at hr
    · cases hr
      simp only [Option.toList_some, map_cons, map_nil, targetAdd, hpid]
    · cases hr

end Notify

section Steps

variable [DecidableEq ε] {I : Image ε δ} {p : Prep δ} {s s' : State ε δ} {st : Stage} {sys : Sys ε}

variable (I p) in
structure Inv (s : State ε δ) : Prop where
  stored : Stored s
  follower : ∀ f, ¬ I.layout.Leads f → s.stage f ≠ .opened
  log : s.log.Perm (due I p s)

theorem notified_congr {g : ε} (h : s'.stage g = s.stage g) : notified I s' g = notified I s g := by
  rw [notified, notified, h]

theorem notified_leads (hl : I.layout.Leads f) :
    notified I s f = decide (s.stage f ≠ .initialized) :=
  if_pos hl

theorem notified_follower (hl : ¬ I.layout.Leads f) :
    notified I s f = decide (s.stage f = .restored) :=
  if_neg hl

theorem setStage_self : (s.setStage f st).stage f = st := update_self ..

theorem setStage_of_ne {g : ε} (hg : g ≠ f) : (s.setStage f st).stage g = s.stage g :=
  update_of_ne hg ..

theorem inv_initState : Inv I p initState := by
  refine ⟨nofun, nofun, List.Perm.of_eq ?_⟩
  have htargets : p.tree.toList.filter (targetDone I initState) = [] := by
    refine filter_eq_nil_iff.mpr fun t _ hdone => ?_
    obtain ⟨f, _, _, hf⟩ := targetDone_iff.mp hdone
    rw [notified] at hf
    split at hf <;> exact absurd hf Bool.false_ne_true
  have hfilled : filled I (initState) = [] :=
    filter_eq_nil_iff.mpr fun d _ hd => absurd hd Bool.false_ne_true
  rw [due, htargets, hfilled]
  rfl

section Keep

variable (h : Inv I p s) (ho : Ordered p.tree)
include h ho

theorem Inv.notify (hst : Stored s') (hfollow : ∀ f, ¬ I.layout.Leads f → s'.stage f ≠ .opened)
    (hother : ∀ g, g ≠ f → targetOf I p g ≠ none → notified I s' g = notified I s g)
    (hf : notified I s f = false) (hf' : notified I s' f = true) (hfill : filled I s' = filled I s)
    (hlog : s'.log = s.log ++ (targetOf I p f).toList.map targetAdd) : Inv I p s' := by
  refine ⟨hst, hfollow, ?_⟩
  rw [hlog]
  exact (h.log.append_right _).trans (due_notify ho hother hf hf' hfill)

/-- Entries change their stages and nothing is due for it. -/
theorem Inv.quiet (hst : Stored s') (hfollow : ∀ f, ¬ I.layout.Leads f → s'.stage f ≠ .opened)
    (hother : ∀ g, targetOf I p g ≠ none → notified I s' g = notified I s g)
    (hfill : filled I s' = filled I s) (hlog : s'.log = s.log) : Inv I p s' := by
  refine ⟨hst, hfollow, ?_⟩
  rw [hlog, due, hfill, targets_congr ho hother]
  exact h.log

/-- A follower is restored when it is received and announced. -/
theorem Inv.follower_restored (hl : ¬ I.layout.Leads f) (hf : s.stage f ≠ .restored)
    (hready : ∀ t, targetOf I p f = some t → s.fdstoreReady t.info = true)
    (hr : (eventpollNotifyOpen I p s sys f).map (fun s => s.setStage f .restored) = some s') :
    Inv I p s' := by
  obtain ⟨s1, hs1, rfl⟩ := Option.map_eq_some_iff.mp hr
  have hspec := notifyOpen_spec ho h.stored hready hs1
  subst hspec
  refine h.notify ho h.stored (fun g hg => ?_)
    (fun g hg _ => notified_congr (setStage_of_ne hg)) ?_ ?_ (filled_congr fun d _ => ?_) rfl
  · by_cases hgf : g = f
    · rw [hgf, setStage_self]
      exact nofun
    · rw [setStage_of_ne hgf]
      exact h.follower g hg
  · rw [notified_follower hl]
    exact decide_eq_false hf
  · rw [notified_follower hl, setStage_self]
    rfl
  · have hne : I.layout.master d ≠ f := fun h => hl (h ▸ leads_master I.layout d)
    rw [setStage_of_ne hne]

omit ho in
theorem Inv.follower_setStage (hl : I.layout.Leads f)
    (hs : s'.stage = s.stage) (g : ε) (hg : ¬ I.layout.Leads g) :
    (s'.setStage f st).stage g ≠ .opened := by
  have hgf : g ≠ f := fun he => hg (he ▸ hl)
  rw [setStage_of_ne hgf, hs]
  exact h.follower g hg

theorem Inv.opened {s1 : State ε δ} (hl : I.layout.Leads f)
    (hinit : s.stage f = .initialized) (hst : Stored s1)
    (hstage : ∀ g, s1.stage g = s.stage g ∨ s.stage g = .initialized ∧ s1.stage g = .opened ∧
      I.layout.Leads g ∧ targetOf I p g = none)
    (hready : ∀ t, targetOf I p f = some t → s1.fdstoreReady t.info = true) (hlog : s1.log = s.log)
    (hr : eventpollNotifyOpen I p (s1.setStage f .opened) sys f = some s') :
    Inv I p s' ∧ s'.stage f = .opened := by
  have hspec := notifyOpen_spec ho (s := s1.setStage f .opened) hst hready hr
  subst hspec
  refine ⟨h.notify ho hst (fun g hg => ?_) (fun g hg hn => ?_) ?_ ?_
    (filled_congr fun d _ => ?_) (congrArg (· ++ _) hlog), setStage_self⟩
  · have hgf : g ≠ f := fun he => hg (he ▸ hl)
    rw [setStage_of_ne hgf]
    rcases hstage g with hsame | ⟨_, _, hlead, _⟩
    · rw [hsame]
      exact h.follower g hg
    · exact absurd hlead hg
  · rcases hstage g with hsame | ⟨_, _, _, hnone⟩
    · exact notified_congr ((setStage_of_ne hg).trans hsame)
    · exact absurd hnone hn
  · rw [notified_leads hl, hinit]
    rfl
  · rw [notified_leads hl]
    rw [setStage_self]
    rfl
  by_cases hd : I.layout.master d = f
  · rw [hd, setStage_self, hinit]
    exact iff_of_false nofun nofun
  · rw [setStage_of_ne hd]
    rcases hstage (I.layout.master d) with hsame | ⟨h1, h2, _⟩
    · rw [hsame]
    · rw [h1, h2]
      exact iff_of_false nofun nofun

/-- The master of another kind of file is restored. -/
theorem Inv.restored_other (hl : I.layout.Leads f)
    (hf : s.stage f ≠ .initialized) (hd : I.layout.desc f ∉ I.epolls) :
    Inv I p (s.setStage f .restored) := by
  refine h.quiet ho h.stored (h.follower_setStage hl rfl) (fun g _ => ?_)
    (filled_congr fun d hin => ?_) rfl
  · by_cases hg : g = f
    · rw [hg, notified_leads hl, notified_leads hl, setStage_self, decide_eq_true hf]
      rfl
    · exact notified_congr (setStage_of_ne hg)
  · have hne : I.layout.master d ≠ f := fun h => hd (by rwa [← h, I.layout.desc_master])
    rw [setStage_of_ne hne]

/-- Other ends of pairs that are not targets are open. -/
theorem Inv.openAlong {ends : List ε} {n : ℕ}
    (hends : ∀ q ∈ ends, s.stage q = .initialized ∧ I.layout.Leads q ∧ targetOf I p q = none) :
    Inv I p (s.openAlong ends n) := by
  have hstage : ∀ g, (s.openAlong ends n).stage g = if g ∈ ends then .opened else s.stage g :=
    fun _ => rfl
  refine h.quiet ho (h.stored.append rfl rfl rfl) (fun g hg => ?_) (fun g hn => ?_)
    (filled_congr fun d _ => ?_) rfl
  · rw [hstage, if_neg fun hin => hg (hends g hin).2.1]
    exact h.follower g hg
  · exact notified_congr (by rw [hstage, if_neg fun hin => hn (hends g hin).2.2])
  rw [hstage]
  split
  · rename_i hin
    rw [(hends _ hin).1]
    exact iff_of_false nofun nofun
  · rfl

variable [DecidableEq δ]

theorem Inv.otherOpen (hl : I.layout.Leads f)
    (hd : I.layout.desc f ∉ I.epolls) (hpre : preOpenOk I p s f = true)
    (hends : ∀ q ∈ sys.secondEnds, targetOf I p q = none) (hr : otherOpen I p s sys f = some s') :
    Inv I p s' := by
  unfold EpollRestore.otherOpen at hr
  split at hr
  swap
  · exact nomatch hr
  rename_i hlegal
  obtain ⟨_, hnew, hdone, hsecond⟩ := hlegal
  obtain ⟨s1, hs1, hret⟩ := Option.map_eq_some_iff.mp hr
  have hnot : f ∉ sys.secondEnds := fun hin => (hsecond f hin).1 rfl
  have hself : (s.openAlong sys.secondEnds sys.stored).stage f = s.stage f := if_neg hnot
  have h1 : Inv I p s1 ∧ (sys.ret = .done → s1.stage f ≠ .initialized) := by
    cases hfd : sys.newFd with
    | true =>
      rw [hfd] at hs1
      have hopen := h.opened ho hl (hnew hfd)
        (show Stored (s.openAlong sys.secondEnds sys.stored) from h.stored.append rfl rfl rfl)
        (fun g => ?_) (ready_of_preOpenOk hpre) rfl hs1
      · refine ⟨hopen.1, fun _ => ?_⟩
        rw [hopen.2]
        exact nofun
      · by_cases hg : g ∈ sys.secondEnds
        · exact .inr ⟨(hsecond g hg).2.2.2.1, if_pos hg, (hsecond g hg).2.2.1, hends g hg⟩
        · exact .inl (if_neg hg)
    | false =>
      rw [hfd] at hs1
      cases hs1
      refine ⟨h.openAlong ho fun q hq => ?_, fun hret => ?_⟩
      · exact ⟨(hsecond q hq).2.2.2.1, (hsecond q hq).2.2.1, hends q hq⟩
      · rw [hself]
        refine (hdone hret).resolve_right fun htrue => ?_
        rw [hfd] at htrue
        exact nomatch htrue
  rw [← hret]
  split
  · rename_i hdone'
    exact h1.1.restored_other ho hl (h1.2 hdone') hd
  · exact h1.1

/-- The own targets of an eventpoll file are added by the task of its master. -/
theorem Inv.eventpollPostOpen (hl : I.layout.Leads f)
    (hd : I.layout.desc f ∈ I.epolls) (hf : s.stage f = .opened)
    (hr : eventpollPostOpen I p s sys f = some s') : Inv I p s' := by
  simp only [EpollRestore.eventpollPostOpen] at hr
  split at hr
  · cases hr
    exact h
  obtain ⟨s1, hs1, rfl⟩ := Option.map_eq_some_iff.mp hr
  rw [restoreTfds_spec hs1]
  have hmaster : I.layout.master (I.layout.desc f) = f := hl
  have hhome : I.home (I.layout.desc f) = I.layout.task f := by rw [Image.home, hmaster]
  -- the state apart from its log; what is due does not depend on that
  have htargets : p.tree.toList.filter (targetDone I (s.setStage f .restored)) =
      p.tree.toList.filter (targetDone I s) := by
    refine targets_congr ho fun g _ => ?_
    by_cases hg : g = f
    · rw [hg, notified_leads hl, notified_leads hl, setStage_self, hf]
      rfl
    · exact notified_congr (setStage_of_ne hg)
  have hfill : (filled I (s.setStage f .restored)).Perm (filled I s ++ [I.layout.desc f]) := by
    refine filled_restored hd ?_ ?_
    · rw [hmaster, hf]
      exact nofun
    · rw [hmaster]
      rfl
  refine ⟨h.stored, fun g hg => h.follower_setStage hl rfl g hg, ?_⟩
  have hdue : (due I p s ++ (p.own (I.layout.desc f)).reduceOption.map
      (ownAdd I (I.layout.desc f))).Perm (due I p (s.setStage f .restored)) := by
    unfold due
    rw [htargets, append_assoc]
    refine List.Perm.append_left _ ?_
    have hmap := (hfill.flatMap_right fun d => (p.own d).reduceOption.map (ownAdd I d)).symm
    rwa [flatMap_append, flatMap_singleton] at hmap
  refine ((h.log.append_right _).trans ?_).trans hdue
  rw [← hhome]
  rfl

theorem Inv.eventpollOpen (hl : I.layout.Leads f)
    (hd : I.layout.desc f ∈ I.epolls) (hf : s.stage f ≠ .restored)
    (hpre : preOpenOk I p s f = true) (hr : eventpollOpen I p s sys f = some s') :
    Inv I p s' := by
  simp only [EpollRestore.eventpollOpen] at hr
  by_cases hinit : s.stage f = .initialized
  · rw [if_neg (not_not.mpr hinit)] at hr
    have hready := ready_of_preOpenOk hpre
    split at hr
    · refine (h.opened ho hl hinit h.stored.putStore (fun _ => .inl rfl) (fun t ht => ?_) rfl hr).1
      change update s.fdstoreReady _ true _ = true
      rw [update_apply, hready t ht, ite_self]
    · exact (h.opened ho hl hinit h.stored (fun _ => .inl rfl) hready rfl hr).1
  · rw [if_pos hinit] at hr
    refine h.eventpollPostOpen ho hl hd ?_ hr
    cases hs : s.stage f with
    | initialized => exact absurd hs hinit
    | opened => rfl
    | restored => exact absurd hs hf

/-- A descriptor that comes from another task finds the eventpoll file it is a target of in the
store, and no target is opened along with the other end of a pair. -/
def Sound (I : Image ε δ) (p : Prep δ) (s : State ε δ) (a : ε × Sys ε) : Prop :=
  (¬ I.layout.Leads a.1 → a.2.received = true →
      ∀ t, targetOf I p a.1 = some t → s.fdstoreReady t.info = true) ∧
    ∀ q ∈ a.2.secondEnds, targetOf I p q = none

theorem Inv.openFd (hok : Sound I p s (f, sys))
    (hr : openFd I p s f sys = some s') : Inv I p s' := by
  unfold EpollRestore.openFd at hr
  split at hr
  · exact nomatch hr
  rename_i hf
  by_cases hl : I.layout.Leads f
  · rw [if_neg (not_not.mpr hl)] at hr
    split at hr
    · cases hr
      exact h
    rename_i hpre
    rw [Bool.not_eq_false] at hpre
    split at hr
    · rename_i hd
      exact h.eventpollOpen ho hl hd hf hpre hr
    · rename_i hd
      exact h.otherOpen ho hl hd hpre hok.2 hr
  · rw [if_pos hl] at hr
    split at hr
    · rename_i hrec
      exact h.follower_restored ho hl hf (hok.1 hl hrec) hr
    · cases hr
      exact h

end Keep

variable [DecidableEq δ]

def Reached (I : Image ε δ) (p : Prep δ) (ok : State ε δ → ε × Sys ε → Prop) :
    State ε δ → Prop :=
  Run.Reach (fun s => s = initState) (fun s a s' => openFd I p s a.1 a.2 = some s') ok

theorem Reached.inv (ho : Ordered p.tree) (h : Reached I p (Sound I p) s) : Inv I p s := by
  have hinit : ∀ s, s = initState → Inv I p s := by
    rintro s rfl
    exact inv_initState
  exact Run.Reach.invariant hinit (fun s a s' _ hi hok hr => hi.openFd ho hok hr) h

end Steps

section Exact

variable {I : Image ε δ} {p : Prep δ} {s : State ε δ}

/-- The add of an entry of the image: in the task that its pid names, or in that of the eventpoll
file. -/
def entryAdd (I : Image ε δ) (d : δ) (e : TfdEntry) : CtlAdd δ :=
  ⟨(I.foreign d e).getD (I.home d), d, e.tfd, e.events, e.data⟩

def imageAdds (I : Image ε δ) : List (CtlAdd δ) :=
  I.epolls.flatMap fun d => (I.tfd d).map (entryAdd I d)

/-- The entries of a file are its foreign targets and those left in the array. -/
theorem entries_split (d : δ) (es : List TfdEntry) :
    ((I.targetsOf d es).map targetAdd ++ (I.slots d es).reduceOption.map (ownAdd I d)).Perm
      (es.map (entryAdd I d)) := by
  induction es with
  | nil => exact List.Perm.nil
  | cons e es ih =>
    rw [map_cons]
    cases hf : I.foreign d e with
    | none =>
      have hadd : entryAdd I d e = ownAdd I d e := by
        rw [entryAdd, hf]
        rfl
      rw [targetsOf_cons_none es hf, slots_cons_none es hf, hadd]
      exact perm_middle.trans (ih.cons _)
    | some pid =>
      have hadd : entryAdd I d e = targetAdd ⟨pid, e.tfd, d, e⟩ := by
        rw [entryAdd, hf]
        rfl
      rw [targetsOf_cons_some es hf, slots_cons_some es hf, hadd]
      exact ih.cons _

variable [DecidableEq ε]

/-- When every entry is restored, all of the image is due. -/
theorem due_of_all_restored (hp : Prepared I p) (hall : ∀ f, s.stage f = .restored) :
    (due I p s).Perm (imageAdds I) := by
  have htargets : p.tree.toList.filter (targetDone I s) = p.tree.toList := by
    refine filter_eq_self.mpr fun t ht => targetDone_iff.mpr ?_
    obtain ⟨d, hd, ht⟩ := mem_flatMap.mp (hp.tree.mem_iff.mp ht)
    obtain ⟨e, he, ht⟩ := mem_filterMap.mp ht
    obtain ⟨pid, hin, rfl⟩ := Option.map_eq_some_iff.mp ht
    obtain ⟨f, hpid, htfd⟩ := I.target_open d hd e he pid (Option.filter_eq_some_iff.mp hin).1
    refine ⟨f, hpid, htfd, ?_⟩
    rw [notified, hall f]
    split <;> rfl
  have hfilled : filled I s = I.epolls :=
    filter_eq_self.mpr fun d _ => decide_eq_true (hall _)
  have hown : (I.epolls.flatMap fun d => (p.own d).reduceOption.map (ownAdd I d)) =
      I.epolls.flatMap fun d => (I.slots d (I.tfd d)).reduceOption.map (ownAdd I d) :=
    flatMap_congr fun d hd => by rw [hp.own d hd]
  have htree : (p.tree.toList.map targetAdd).Perm
      (I.epolls.flatMap fun d => (I.targetsOf d (I.tfd d)).map targetAdd) := by
    refine (hp.tree.map targetAdd).trans (List.Perm.of_eq ?_)
    rw [Image.targets, map_flatMap]
  rw [due, htargets, hfilled, hown]
  refine (htree.append_right _).trans ((flatMap_append_perm _ _ _).trans ?_)
  exact List.Perm.flatMap_left _ fun d _ => entries_split d (I.tfd d)

variable [DecidableEq δ]

/-- When all files are open, every entry of the image has been added once: in the task that its pid
names or in that of its eventpoll file, to this file, and with its own events and data. -/
theorem targets_added_once (I : Image ε δ) {p : Prep δ} (hp : prepEpollTargets I = some p)
    (hdistinct : (I.targets.map Target.key).Nodup) {s : State ε δ}
    (h : Reached I p (Sound I p) s) (hall : ∀ f, s.stage f = .restored) :
    s.log.Perm (imageAdds I) := by
  obtain ⟨p', hp', hprep⟩ := prepEpollTargets_spec hdistinct
  rw [hp] at hp'
  cases hp'
  exact (h.inv hprep.ordered).log.trans (due_of_all_restored hprep hall)

end Exact

section Small

def smallDesc (e : Fin 6) : Fin 5 :=
  if h : e < 5 then e.castLT h else 2

def smallTask (e : Fin 6) : ℕ :=
  if e < 3 then 1 else if e < 5 then 2 else 3

def smallLayout : Layout ℕ (Fin 6) (Fin 5) where
  task := smallTask
  fd e := if e = 0 then 5 else if e = 1 then 6 else if e = 4 then 4 else 3
  desc := smallDesc
  users d := (List.finRange 6).filter fun e => smallDesc e = d
  master d := d.castSucc
  passive _ := false
  fds t := (List.finRange 6).filter fun e => smallTask e = t
  mem_users e d := by simp
  users_nodup d := (nodup_finRange 6).filter _
  desc_master := by decide
  mem_fds e t := by simp
  fds_nodup t := (nodup_finRange 6).filter _
  fd_inj := by decide

def smallImage (first second : List TfdEntry)
    (h : ∀ e ∈ first ++ second, ∀ pid ∈ e.pid,
      ∃ f, smallLayout.task f = pid ∧ smallLayout.fd f = e.tfd) : Image (Fin 6) (Fin 5) where
  layout := smallLayout
  epolls := [0, 1]
  epolls_nodup := by decide
  tfd d := if d = 0 then first else second
  target_open d _ e he pid hpid := by
    refine h e ?_ pid hpid
    split at he
    · exact mem_append_left _ he
    · exact mem_append_right _ he

def goodVisit (e : Fin 6) : Fin 6 × Sys (Fin 6) :=
  (e, ⟨true, true, .done, true, [], 0⟩)

def goodVisits : List (Fin 6 × Sys (Fin 6)) :=
  [0, 1, 2, 3, 4, 5, 0, 1].map goodVisit

def bothImage : Image (Fin 6) (Fin 5) :=
  smallImage [⟨3, some 2, 1, 10⟩, ⟨3, none, 1, 20⟩] [] (by decide)

def sharedImage : Image (Fin 6) (Fin 5) :=
  smallImage [⟨3, some 2, 1, 10⟩] [⟨3, some 2, 1, 20⟩] (by decide)

theorem reached_goodVisits (I : Image (Fin 6) (Fin 5)) (p : Prep (Fin 5))
    (h : ∀ f, ¬ I.layout.Leads f → targetOf I p f = none) {s : State (Fin 6) (Fin 5)}
    (hs : goodVisits.foldlM (fun s a => openFd I p s a.1 a.2) initState = some s) :
    Reached I p (Sound I p) s := by
  refine Run.Reach.foldlM (.start rfl)
    (fun a ha s s' hstep => ⟨a, ⟨fun hl _ t ht => ?_, ?_⟩, hstep⟩) hs
  all_goals obtain ⟨e, _, rfl⟩ := mem_map.mp ha
  · exact nomatch (h e hl).symm.trans ht
  · exact nofun

end Small

/-- A target of each kind is added. -/
theorem both_targets_added : ∃ p s, prepEpollTargets bothImage = some p ∧
    Reached bothImage p (Sound bothImage p) s ∧ (∀ f, s.stage f = .restored) ∧
    s.log.Perm (imageAdds bothImage) := by
  obtain ⟨p, s, hp, hs, hall, hl⟩ : ∃ p s, prepEpollTargets bothImage = some p ∧
      goodVisits.foldlM (fun s a => openFd bothImage p s a.1 a.2) initState = some s ∧
      (∀ f, s.stage f = .restored) ∧
      ∀ f, ¬ bothImage.layout.Leads f → targetOf bothImage p f = none :=
    ⟨_, _, rfl, rfl, by decide, by decide⟩
  have hreach := reached_goodVisits bothImage p hl hs
  exact ⟨p, s, hp, hreach, hall, targets_added_once bothImage hp (by decide) hreach hall⟩

/-- The entry of the second file is added in the wrong task: it stayed in the array. -/
theorem shared_target_misplaced : ∃ p s, prepEpollTargets sharedImage = some p ∧
    Reached sharedImage p (Sound sharedImage p) s ∧ (∀ f, s.stage f = .restored) ∧
    ¬ s.log.Perm (imageAdds sharedImage) := by
  obtain ⟨p, s, hp, hs, hall, hl, hlog⟩ : ∃ p s, prepEpollTargets sharedImage = some p ∧
      goodVisits.foldlM (fun s a => openFd sharedImage p s a.1 a.2) initState = some s ∧
      (∀ f, s.stage f = .restored) ∧
      (∀ f, ¬ sharedImage.layout.Leads f → targetOf sharedImage p f = none) ∧
      ¬ s.log.Perm (imageAdds sharedImage) :=
    ⟨_, _, rfl, rfl, by decide, by decide, by decide⟩
  exact ⟨p, s, hp, reached_goodVisits sharedImage p hl hs, hall, hlog⟩

/-- A descriptor of the task 3 that is received before its eventpoll file is in the store goes to
the first file there. -/
example : ∃ p s, prepEpollTargets (smallImage [⟨3, some 3, 1, 10⟩] [⟨3, some 2, 1, 20⟩]
      (by decide)) = some p ∧
    ([1, 2, 5, 0, 3, 4, 0, 1].map goodVisit).foldlM
      (fun s a => openFd (smallImage [⟨3, some 3, 1, 10⟩] [⟨3, some 2, 1, 20⟩] (by decide))
        p s a.1 a.2) initState = some s ∧
    s.log = [⟨3, 1, 3, 1, 10⟩, ⟨2, 1, 3, 1, 20⟩] :=
  ⟨_, _, rfl, rfl, by decide⟩

/-- A target that is opened along with the other end of its pair is never added. -/
example : ∃ p s, prepEpollTargets bothImage = some p ∧
    ([goodVisit 0, goodVisit 1, goodVisit 2, (4, ⟨true, true, .done, true, [3], 0⟩),
      (3, ⟨true, true, .done, false, [], 0⟩), goodVisit 5, goodVisit 0, goodVisit 1]).foldlM
      (fun s a => openFd bothImage p s a.1 a.2) initState = some s ∧
    (∀ f, s.stage f = .restored) ∧ s.log = [⟨1, 0, 3, 1, 20⟩] :=
  ⟨_, _, rfl, rfl, by decide, by decide⟩

end Criu.EpollAdds

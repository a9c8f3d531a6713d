import Mathlib.Algebra.Order.BigOperators.Group.List
import Mathlib.Data.List.TakeWhile
import Mathlib.Tactic.Linarith
import Criu.SkQueue

/-!
What comes back of a dumped queue. A dump that returns 0 has written, now or among the deferred
packets, the messages before the first empty one, with the files that the control buffer had room
for. They keep their order, since a socket passes credentials with all its messages or with none.
The restored queue is the dumped one when no message was empty, the senders of deferred packets
are in the tree, and the files fit both buffers.
-/

namespace Criu.SkQueueRoundTrip

open SkQueue List

variable {m : Msg} {env : Env} {fl : Flags} {sk : Sock} {ms : List Msg} {p : Progress}
  {socks : List (Flags × Sock)} {es : List Entry} {size : ℕ} {α : Type}

section Packet

def noteOk : Note → Bool
  | .timestamp => true
  | .pktinfo group => group < 32
  | .other => false

def accepted (env : Env) (passCred : Bool) (m : Msg) : Bool :=
  m.notes.all noteOk && (shownRights passCred m).all env.canDump

def packetCreds (env : Env) (fl : Flags) (passCred : Bool) (m : Msg) : Option Ucred × ℕ :=
  if passCred then dumpSkCreds env fl m.cred else (none, 0)

def packetScm (passCred : Bool) (m : Msg) : List (List ℕ) :=
  if shownRights passCred m = [] then [] else [shownRights passCred m]

def entryOf (env : Env) (fl : Flags) (sk : Sock) (m : Msg) : Entry :=
  ⟨sk.id, packetAddr fl m, (packetCreds env fl sk.passCred m).1, packetScm sk.passCred m, m.data⟩

theorem dumpPacketCmsg_notes (ns : List Note) (cs : List Cmsg) (p : Parsed) :
    dumpPacketCmsg env fl (ns.map .note ++ cs) p =
      if ns.all noteOk then dumpPacketCmsg env fl cs p else none := by
  induction ns with
  | nil => rfl
  | cons n ns ih =>
    rw [map_cons, cons_append, all_cons]
    cases n with
    | timestamp =>
      rw [dumpPacketCmsg, ih]
      rfl
    | pktinfo group =>
      rw [dumpPacketCmsg, ih, noteOk]
      by_cases hg : group < 32
      · simp only [hg, if_true, decide_true, Bool.true_and]
      · simp only [hg, if_false, decide_false, Bool.false_and, Bool.false_eq_true]
    | other => rfl

/-- The control messages of a packet come to its credentials and its files, or are refused. -/
theorem dumpPacketCmsg_eq (passCred : Bool) (m : Msg) :
    dumpPacketCmsg env fl (controlMsgs passCred m) ⟨none, [], 0⟩ =
      if accepted env passCred m then
        some ⟨(packetCreds env fl passCred m).1, packetScm passCred m,
          (packetCreds env fl passCred m).2⟩
      else none := by
  have hrights : ∀ u r, dumpPacketCmsg env fl
      (if shownRights passCred m = [] then [] else [.rights (shownRights passCred m)])
      ⟨u, [], r⟩ = if (shownRights passCred m).all env.canDump then
        some ⟨u, packetScm passCred m, r⟩ else none := by
    intro u r
    by_cases hs : shownRights passCred m = []
    · rw [packetScm, hs]
      rfl
    · rw [if_neg hs, packetScm, if_neg hs]
      rfl
  rw [controlMsgs, append_assoc, dumpPacketCmsg_notes, accepted]
  by_cases hn : m.notes.all noteOk = true
  · rw [hn]
    cases passCred with
    | true =>
      simp only [if_true, singleton_append, dumpPacketCmsg, Nat.zero_or]
      exact hrights _ _
    | false => exact hrights _ _
  · rw [Bool.eq_false_iff.mpr hn]
    rfl

end Packet

section Loop

variable {pre rest : List Msg}

def total (ms : List Msg) : ℕ :=
  (ms.map fun m => m.data.length).sum

theorem total_cons (m : Msg) (ms : List Msg) : total (m :: ms) = m.data.length + total ms := by
  rw [total, map_cons, sum_cons, total]

def readable (ms : List Msg) : List Msg :=
  ms.takeWhile fun m => m.data ≠ []

def putAll (env : Env) (fl : Flags) (sk : Sock) (ms : List Msg) (d : Dump) : Dump :=
  ms.foldl (fun d m => d.put (entryOf env fl sk m) (packetCreds env fl sk.passCred m).2) d

theorem readable_cons (h : m.data ≠ []) : readable (m :: ms) = m :: readable ms :=
  takeWhile_cons_of_pos (by simpa using h)

theorem readable_eq_self : readable ms = ms ↔ ∀ m ∈ ms, m.data ≠ [] := by
  rw [readable, takeWhile_eq_self_iff]
  exact forall₂_congr fun m _ => by rw [decide_eq_true_eq]

/-- Behind messages that were read, at the offset they take, the next one is found whole. -/
theorem peekAt_append (hpre : ∀ m ∈ pre, m.data ≠ []) :
    peekAt (pre ++ rest) (total pre) = rest.head?.map fun m => (m, 0) := by
  induction pre with
  | nil =>
    cases rest with
    | nil => rfl
    | cons m rest =>
      rw [nil_append, total, map_nil, sum_nil, peekAt, if_neg]
      · rfl
      · rintro ⟨hlen, hne | hpos⟩
        · exact hne (length_eq_zero_iff.mp (by omega))
        · omega
  | cons m pre ih =>
    have hm := hpre m mem_cons_self
    rw [total_cons, cons_append, peekAt, if_pos ⟨by omega, .inl hm⟩, Nat.add_sub_cancel_left]
    exact ih fun x hx => hpre x (mem_cons_of_mem _ hx)

def afterRead (env : Env) (fl : Flags) (sk : Sock) (p : Progress) (off : ℕ) (m : Msg) : Progress :=
  { p with
    live := { p.live with peekOff := off }
    dump := p.dump.put (entryOf env fl sk m) (packetCreds env fl sk.passCred m).2 }

def afterErr (p : Progress) : Progress :=
  { p with live := { p.live with enobufs := false }, val := true }

/-- What one packet does at every position of the queue. -/
theorem dumpSkQueuePacket_cases {p' : Progress} {c : Code} (hsize : 0 < size)
    (hq : p.live.queue = pre ++ rest) (hoff : p.live.peekOff = total pre)
    (hpre : ∀ m ∈ pre, m.data ≠ [])
    (h : dumpSkQueuePacket env fl sk.id sk.passCred size p = (c, p')) :
    c = .failed ∨ (c = .finished ∧ readable rest = [] ∧ p' = p) ∨
      (c = .next ∧ (p' = afterErr p ∨ ∃ m ms, rest = m :: ms ∧ m.data ≠ [] ∧
        p' = afterRead env fl sk p (total (pre ++ [m])) m)) := by
  have hpeek : peekAt p.live.queue p.live.peekOff.toNat = rest.head?.map fun m => (m, 0) := by
    rw [hq, hoff, Int.toNat_natCast, peekAt_append hpre]
  rw [dumpSkQueuePacket, recvmsgPeek, hpeek] at h
  cases herr : p.live.enobufs with
  | true =>
    rw [if_pos herr] at h
    by_cases ht : fl.trackEnobufs = true
    · cases (if_pos ht).symm.trans h
      exact .inr (.inr ⟨rfl, .inl rfl⟩)
    · cases (if_neg ht).symm.trans h
      exact .inl rfl
  | false =>
    rw [if_neg (herr ▸ Bool.false_ne_true)] at h
    cases rest with
    | nil =>
      cases h
      exact .inr (.inl ⟨rfl, rfl, rfl⟩)
    | cons m ms =>
      simp only [head?_cons, Option.map_some, drop_zero, Nat.sub_zero, dumpPacketCmsg_eq] at h
      by_cases hm : m.data = []
      · simp only [hm, take_nil, length_nil, Nat.cast_zero, add_zero] at h
        cases h
        exact .inr (.inl ⟨rfl, takeWhile_cons_of_neg (by simp [hm]), rfl⟩)
      have hbytes : m.data.take size ≠ [] := by simp [hm, Nat.ne_of_gt hsize]
      rw [if_neg hbytes] at h
      by_cases hlen : size < m.data.length
      · rw [if_pos (decide_eq_true hlen)] at h
        cases h
        exact .inl rfl
      rw [if_neg (by simpa using hlen)] at h
      by_cases hacc : accepted env sk.passCred m = true
      · have htotal : (total pre : ℤ) + m.data.length = total (pre ++ [m]) := by simp [total]
        simp only [if_pos hacc, take_of_length_le (Nat.le_of_not_lt hlen), hoff, htotal] at h
        cases h
        exact .inr (.inr ⟨rfl, .inr ⟨m, ms, rfl, hm, rfl⟩⟩)
      · simp only [if_neg hacc] at h
        cases h
        exact .inl rfl

/-- A loop that ends well has read the messages before the first empty one. -/
theorem dumpLoop_true {p' : Progress} {fuel : ℕ} (hsize : 0 < size)
    (hq : p.live.queue = pre ++ rest) (hoff : p.live.peekOff = total pre)
    (hpre : ∀ m ∈ pre, m.data ≠ [])
    (hr : dumpLoop env fl sk.id sk.passCred size fuel p = some (true, p')) :
    p'.dump = putAll env fl sk (readable rest) p.dump ∧ p'.live.queue = p.live.queue ∧
      p'.live.peekOff = total (pre ++ readable rest) := by
  induction fuel generalizing p pre rest with
  | zero => exact nomatch hr
  | succ fuel ih =>
    rw [dumpLoop] at hr
    obtain ⟨⟨c, p1⟩, hp⟩ : ∃ r, dumpSkQueuePacket env fl sk.id sk.passCred size p = r := ⟨_, rfl⟩
    rw [hp] at hr
    rcases dumpSkQueuePacket_cases hsize hq hoff hpre hp with
      rfl | ⟨rfl, hnil, rfl⟩ | ⟨rfl, rfl | ⟨m, ms, rfl, hm, rfl⟩⟩
    · exact nomatch hr
    · cases hr
      rw [hnil, append_nil]
      exact ⟨rfl, rfl, hoff⟩
    · exact ih (p := afterErr p) hq hoff hpre hr
    have hq' : p.live.queue = pre ++ [m] ++ ms := by
      rw [hq, append_assoc, singleton_append]
    obtain ⟨h1, h2, h3⟩ := ih (p := afterRead env fl sk p (total (pre ++ [m])) m) hq' rfl
      (forall_mem_append.mpr ⟨hpre, forall_mem_singleton.mpr hm⟩) hr
    rw [readable_cons hm]
    refine ⟨h1, h2, ?_⟩
    rw [h3, append_assoc, singleton_append]

end Loop

section Image

variable {fuel : ℕ} {d d' : Dump}

/-- A dump that returns 0 has put the packets before the first empty message. -/
theorem dumpSkQueue_true (hr : dumpSkQueue env fl sk fuel d = some (true, p)) :
    p.dump = putAll env fl sk (readable sk.reports) d ∧ p.live.queue = sk.reports ∧
      p.live.peekOff = if env.peekOffOk then sk.peekOff else total (readable sk.reports) := by
  obtain ⟨r, hloop, hp⟩ := Option.map_eq_some_iff.mp hr
  obtain ⟨ok, p1⟩ := r
  obtain ⟨rfl, rfl⟩ := Prod.mk.inj hp
  have hsize : 0 < sk.sndbuf - 32 := by
    have := sk.sndbuf_min
    omega
  obtain ⟨h1, h2, h3⟩ := dumpLoop_true hsize (nil_append _).symm rfl
    nofun hloop
  by_cases hok : env.peekOffOk = true
  · rw [if_pos hok, if_pos hok]
    exact ⟨h1, h2, rfl⟩
  · rw [if_neg hok, if_neg hok]
    exact ⟨h1, h2, h3⟩

/-- What every packet put keeps, the dump of a socket keeps. -/
theorem dumpSkQueue_induct {P : Dump → Prop}
    (hput : ∀ m d, P d → P (d.put (entryOf env fl sk m) (packetCreds env fl sk.passCred m).2))
    (h : P d) (hr : dumpSkQueue env fl sk fuel d = some (true, p)) : P p.dump := by
  rw [(dumpSkQueue_true hr).1]
  exact foldlRecOn _ _ h fun d hd m _ => hput m d hd

def packetsFor (d : Dump) (id : ℕ) : List Entry × List Entry :=
  (d.image.filter fun e => e.idFor = id, d.deferred.filter fun e => e.idFor = id)

theorem dumpAll_induct {P : Dump → Prop}
    (hput : ∀ x ∈ socks, ∀ m d, P d →
      P (d.put (entryOf env x.1 x.2 m) (packetCreds env x.1 x.2.passCred m).2))
    (h : P d) (hr : dumpAll env fuel socks d = some d') : P d' := by
  induction socks generalizing d with
  | nil =>
    cases hr
    exact h
  | cons x socks ih =>
    obtain ⟨⟨ok, p⟩, hp, hr⟩ := Option.bind_eq_some_iff.mp hr
    cases ok with
    | false => exact nomatch hr
    | true =>
      obtain ⟨hx, hsocks⟩ := forall_mem_cons.mp hput
      exact ih hsocks (dumpSkQueue_induct hx h hp) hr

/-- The dump of other sockets leaves the packets of one alone. -/
theorem dumpAll_others {id : ℕ}
    (hids : ∀ x ∈ socks, x.2.id ≠ id) (hr : dumpAll env fuel socks d = some d') :
    packetsFor d' id = packetsFor d id := by
  refine dumpAll_induct (P := fun d' => packetsFor d' id = packetsFor d id)
    (fun x hx m d' hd => ?_) rfl hr
  have hne : (entryOf env x.1 x.2 m).idFor ≠ id := hids x hx
  rw [← hd, Dump.put]
  split_ifs <;> simp [packetsFor, hne]

def SmallScm (d : Dump) : Prop :=
  ∀ e ∈ d.image ++ d.deferred, e.scm.length ≤ 1

theorem SmallScm.put {r : ℕ} (h : SmallScm d) : SmallScm (d.put (entryOf env fl sk m) r) := by
  have hm : (entryOf env fl sk m).scm.length ≤ 1 := by
    change (packetScm sk.passCred m).length ≤ 1
    unfold packetScm
    split
    · exact Nat.zero_le 1
    · exact Nat.le_refl 1
  unfold Dump.put
  grind [SmallScm]

end Image

section Post

variable {id : ℕ}

def fixup (env : Env) (e : Entry) : Option Entry :=
  e.ucred.bind (fixupUcred env e)

theorem fixup_spec {e e' : Entry} (h : fixup env e = some e') :
    ∃ u, e' = { e with ucred := u } := by
  obtain ⟨u, _, hu⟩ := Option.bind_eq_some_iff.mp h
  obtain ⟨it, _, rfl⟩ := Option.map_eq_some_iff.mp hu
  exact ⟨_, rfl⟩

theorem skQueuePostActions_true {img img' : List Entry}
    (hr : skQueuePostActions env es img = (true, img')) :
    img' = img ++ es.filterMap (fixup env) := by
  induction es generalizing img with
  | nil =>
    cases hr
    rw [filterMap_nil, append_nil]
  | cons e es ih =>
    rw [skQueuePostActions] at hr
    cases hu : e.ucred with
    | none =>
      rw [hu] at hr
      exact nomatch hr
    | some u =>
      rw [hu] at hr
      have hfix : fixup env e = fixupUcred env e u := by
        rw [fixup, hu]
        rfl
      rw [ih hr, filterMap_cons, hfix, append_assoc]
      cases fixupUcred env e u <;> rfl

theorem filter_filterMap_fixup (es : List Entry) :
    (es.filterMap (fixup env)).filter (fun e => e.idFor = id) =
      (es.filter fun e => e.idFor = id).filterMap (fixup env) := by
  rw [filter_filterMap, filterMap_filter]
  refine filterMap_congr fun e _ => ?_
  cases hf : fixup env e with
  | none => simp
  | some e' =>
    obtain ⟨u, rfl⟩ := fixup_spec hf
    simp [Option.filter]

/-- The restore of a queue sends the packets for it and leaves the others. -/
theorem restoreSkQueue_eq (es : List Entry) :
    restoreSkQueue id es = ((es.filter fun e => e.idFor = id).mapM sendOnePkt).map fun sent =>
      (sent, es.filter fun e => e.idFor ≠ id) := by
  induction es with
  | nil => rfl
  | cons e es ih =>
    rw [restoreSkQueue]
    by_cases hid : e.idFor = id
    · rw [if_neg (not_not.mpr hid), ih, filter_cons_of_neg (by simpa using hid),
        filter_cons_of_pos (by simpa using hid), mapM_cons]
      cases sendOnePkt e with
      | none => rfl
      | some m => cases (es.filter fun e => e.idFor = id).mapM sendOnePkt <;> rfl
    · rw [if_pos hid, ih, filter_cons_of_pos (by simpa using hid),
        filter_cons_of_neg (by simpa using hid)]
      cases (es.filter fun e => e.idFor = id).mapM sendOnePkt <;> rfl

end Post

section Written

def inTree (env : Env) (fl : Flags) (sk : Sock) (m : Msg) : Bool :=
  !(sk.passCred && fl.realPid) || (env.items.find? fun it => it.real = m.cred.pid).isSome

def writtenPid (env : Env) (fl : Flags) (m : Msg) : ℕ :=
  if fl.realPid then
    ((env.items.find? fun it => it.real = m.cred.pid).map Item.virt).getD 0
  else m.cred.pid

def writtenEntry (env : Env) (fl : Flags) (sk : Sock) (m : Msg) : Entry :=
  { entryOf env fl sk m with
    ucred := if sk.passCred then
        some ⟨writtenPid env fl m, env.usernsUid m.cred.uid, env.usernsGid m.cred.gid⟩
      else none }

def SenderAlive (env : Env) (m : Msg) : Prop :=
  m.cred.pid = 0 ∨ env.alive m.cred.pid = true

theorem packetCreds_ret (h : SenderAlive env m) :
    (packetCreds env fl sk.passCred m).2 = if sk.passCred && fl.realPid then 1 else 0 := by
  unfold packetCreds dumpSkCreds
  cases sk.passCred with
  | false => rfl
  | true =>
    cases hr : fl.realPid with
    | true => simp
    | false =>
      simp only [if_true, Bool.false_eq_true, if_false, Bool.and_false]
      rw [if_pos (show m.cred.pid = 0 ∨ _ from h)]

/-- A socket that does not defer writes its packets as they are. -/
theorem entryOf_eq_written (h : SenderAlive env m) (hd : (sk.passCred && fl.realPid) = false) :
    entryOf env fl sk m = writtenEntry env fl sk m := by
  have hcred : (packetCreds env fl sk.passCred m).1 = (writtenEntry env fl sk m).ucred := by
    unfold packetCreds dumpSkCreds writtenEntry writtenPid
    cases hp : sk.passCred with
    | false => rfl
    | true =>
      have hr : fl.realPid = false := by simpa [hp] using hd
      simp only [hr, if_true, Bool.false_eq_true, if_false]
      rw [if_pos (show m.cred.pid = 0 ∨ _ from h)]
  rw [entryOf, hcred]
  rfl

/-- A socket that defers its packets writes those whose sender is found. -/
theorem fixup_entryOf (hd : (sk.passCred && fl.realPid) = true) : fixup env (entryOf env fl sk m) =
      if inTree env fl sk m then some (writtenEntry env fl sk m) else none := by
  obtain ⟨hp, hr⟩ := Bool.and_eq_true_iff.mp hd
  have hcred : (entryOf env fl sk m).ucred =
      some ⟨m.cred.pid, env.usernsUid m.cred.uid, env.usernsGid m.cred.gid⟩ := by
    change (packetCreds env fl sk.passCred m).1 = _
    rw [packetCreds, if_pos hp, dumpSkCreds, if_pos hr]
  rw [fixup, hcred, Option.bind_some, fixupUcred, inTree, hd]
  cases hf : env.items.find? fun it => it.real = m.cred.pid with
  | none => rfl
  | some it =>
    have hpid : writtenPid env fl m = it.virt := by
      rw [writtenPid, if_pos hr, hf]
      rfl
    rw [writtenEntry, if_pos hp, hpid]
    rfl

/-- A socket defers all its packets or none. -/
theorem putAll_eq (h : ∀ m ∈ ms, SenderAlive env m) (d : Dump) :
    putAll env fl sk ms d = cond (sk.passCred && fl.realPid)
      { d with deferred := d.deferred ++ ms.map (entryOf env fl sk) }
      { d with image := d.image ++ ms.map (entryOf env fl sk) } := by
  induction ms generalizing d with
  | nil => cases sk.passCred && fl.realPid <;> simp [putAll]
  | cons m ms ih =>
    obtain ⟨hm, hms⟩ := forall_mem_cons.mp h
    change putAll env fl sk ms (d.put _ (packetCreds env fl sk.passCred m).2) = _
    rw [ih hms, packetCreds_ret hm, Dump.put]
    cases sk.passCred && fl.realPid <;> simp

end Written

section Sent

def sentOf (env : Env) (fl : Flags) (sk : Sock) (m : Msg) : Sent :=
  ⟨m.data, packetAddr fl m, shownRights sk.passCred m, sentCred (writtenEntry env fl sk m)⟩

/-- A number of files fits the control buffer of the restore, with the credentials if they are
sent. -/
def Fits (env : Env) (fl : Flags) (sk : Sock) (m : Msg) (n : ℕ) : Prop :=
  n ≠ 0 → cmsgSpace (n * 4) < cmsgMaxSize ∧
    (sk.passCred = true → writtenPid env fl m ≠ 0 →
      cmsgSpace (n * 4) + cmsgSpace 12 < cmsgMaxSize)

instance (n : ℕ) : Decidable (Fits env fl sk m n) :=
  inferInstanceAs (Decidable (_ → _))

theorem sentCred_isSome : (sentCred (writtenEntry env fl sk m)).isSome = true ↔
    sk.passCred = true ∧ writtenPid env fl m ≠ 0 := by
  unfold sentCred writtenEntry
  cases sk.passCred with
  | false => simp
  | true => simp

/-- The two tests of the restore are what makes a number of files fit. -/
theorem fits_iff : Fits env fl sk m (shownRights sk.passCred m).length ↔
    ¬ cmsgMaxSize ≤ rightsLen (packetScm sk.passCred m) ∧
      ¬ ((sentCred (writtenEntry env fl sk m)).isSome = true ∧
        cmsgMaxSize ≤ rightsLen (packetScm sk.passCred m) + cmsgSpace 12) := by
  rw [sentCred_isSome, Fits, packetScm]
  by_cases hs : shownRights sk.passCred m = []
  · simp [hs, rightsLen, cmsgMaxSize, cmsgSpace]
  · simp [hs, rightsLen]

theorem headD_packetScm : (packetScm sk.passCred m).headD [] = shownRights sk.passCred m := by
  unfold packetScm
  split
  · rename_i hs
    rw [hs]
    rfl
  · rfl

theorem sendOnePkt_written : sendOnePkt (writtenEntry env fl sk m) =
    if Fits env fl sk m (shownRights sk.passCred m).length then some (sentOf env fl sk m)
    else none := by
  have hscm : (writtenEntry env fl sk m).scm = packetScm sk.passCred m := rfl
  have hsent : (⟨(writtenEntry env fl sk m).data, (writtenEntry env fl sk m).addr,
      (packetScm sk.passCred m).headD [], sentCred (writtenEntry env fl sk m)⟩) =
      sentOf env fl sk m := by
    rw [headD_packetScm]
    rfl
  rw [sendOnePkt, hscm, hsent]
  by_cases hfit : Fits env fl sk m (shownRights sk.passCred m).length
  · obtain ⟨hspace, hcred⟩ := fits_iff.mp hfit
    rw [if_neg hspace, if_neg hcred, if_pos hfit]
  · split_ifs with hspace hcred
    · rfl
    · rfl
    · exact absurd (fits_iff.mpr ⟨hspace, hcred⟩) hfit

theorem mapM_if {β γ : Type} {f : β → Option γ} {g : α → β} {h : α → γ} {P : α → Prop}
    [DecidablePred P] (hf : ∀ a, f (g a) = if P a then some (h a) else none) (l : List α) :
    (l.map g).mapM f = if ∀ a ∈ l, P a then some (l.map h) else none := by
  induction l with
  | nil => rfl
  | cons a l ih =>
    rw [map_cons, mapM_cons, hf, ih]
    by_cases ha : P a
    · by_cases hl : ∀ b ∈ l, P b
      · have hall : ∀ b ∈ a :: l, P b := forall_mem_cons.mpr ⟨ha, hl⟩
        rw [if_pos ha, if_pos hl, if_pos hall]
        rfl
      · rw [if_pos ha, if_neg hl, if_neg fun hall => hl (forall_mem_cons.mp hall).2]
        rfl
    · rw [if_neg ha, if_neg fun hall => ha (forall_mem_cons.mp hall).1]
      rfl

end Sent

section RoundTrip

structure Content where
  data : List UInt8
  addr : Option (List UInt8)
  rights : List ℕ
deriving DecidableEq, Repr

def sentContent (s : Sent) : Content :=
  ⟨s.data, s.addr, s.rights⟩

def msgContent (fl : Flags) (m : Msg) : Content :=
  ⟨m.data, packetAddr fl m, m.rights⟩

/-- A stream is the same in pieces if no message with files is cut. -/
abbrev SameStream : List Part → List Part → Prop := Chunked (· = [])

/-- The messages come back: datagrams one by one, a stream in pieces. -/
def SameQueue (fl : Flags) (sk : Sock) (sent : List Sent) : Prop :=
  (sk.stream = false → sent.map sentContent = sk.queue.map (msgContent fl)) ∧
    (sk.stream = true →
      SameStream (sk.queue.map Msg.part) (sent.map fun s => (s.data, s.rights)))

structure Sound (env : Env) (fl : Flags) (sk : Sock) : Prop where
  nonempty : ∀ m ∈ sk.reports, m.data ≠ []
  in_tree : ∀ m ∈ sk.reports, sk.passCred = true → fl.realPid = true →
    ∃ it ∈ env.items, it.real = m.cred.pid
  uncut : sk.stream = true → SameStream (sk.queue.map Msg.part) (sk.reports.map Msg.part)
  whole : ∀ m ∈ sk.reports, m.rights.length ≤ room sk.passCred m
  fits : ∀ m ∈ sk.reports, Fits env fl sk m m.rights.length
  peek : env.peekOffOk = true ∨ sk.peekOff = total sk.reports

theorem inTree_iff : inTree env fl sk m = true ↔
    (sk.passCred = true → fl.realPid = true → ∃ it ∈ env.items, it.real = m.cred.pid) := by
  unfold inTree
  cases sk.passCred <;> cases fl.realPid <;> simp

theorem shownRights_eq_iff :
    shownRights sk.passCred m = m.rights ↔ m.rights.length ≤ room sk.passCred m :=
  take_eq_self_iff m.rights

def kept (env : Env) (fl : Flags) (sk : Sock) : List Msg :=
  (readable sk.reports).filter (inTree env fl sk)

structure Dumped (env : Env) (fl : Flags) (sk : Sock) (p : Progress) (img : List Entry) where
  fuel : ℕ
  before : List (Flags × Sock)
  after : List (Flags × Sock)
  others : ∀ x ∈ before ++ after, x.2.id ≠ sk.id
  d0 : Dump
  d1 : Dump
  start : dumpAll env fuel before ⟨[], []⟩ = some d0
  dump : dumpSkQueue env fl sk fuel d0 = some (true, p)
  stop : dumpAll env fuel after p.dump = some d1
  post : skQueuePostActions env d1.deferred d1.image = (true, img)

variable {img : List Entry}

/-- The packets for a socket in the finished image. -/
theorem Dumped.packets (h : Dumped env fl sk p img) (ha : ∀ m ∈ sk.reports, SenderAlive env m) :
    (img.filter fun e => e.idFor = sk.id) = (kept env fl sk).map (writtenEntry env fl sk) := by
  have h0 : packetsFor h.d0 sk.id = ([], []) :=
    dumpAll_others (fun x hx => h.others x (mem_append_left _ hx)) h.start
  have h1 := dumpAll_others (fun x hx => h.others x (mem_append_right _ hx)) h.stop
  obtain ⟨h00, h01⟩ := Prod.mk.inj h0
  obtain ⟨h10, h11⟩ := Prod.mk.inj h1
  have ha' : ∀ m ∈ readable sk.reports, SenderAlive env m :=
    fun m hm => ha m (takeWhile_subset _ hm)
  have hput := (dumpSkQueue_true h.dump).1
  rw [putAll_eq ha'] at hput
  have hself : ((readable sk.reports).map (entryOf env fl sk)).filter (fun e => e.idFor = sk.id) =
      (readable sk.reports).map (entryOf env fl sk) :=
    filter_eq_self.mpr (forall_mem_map.mpr fun _ _ => decide_eq_true rfl)
  rw [skQueuePostActions_true h.post, filter_append, filter_filterMap_fixup, h10, h11, hput, kept]
  cases hd : sk.passCred && fl.realPid with
  | false =>
    have hin : (readable sk.reports).filter (inTree env fl sk) = readable sk.reports :=
      filter_eq_self.mpr fun m _ => by simp [inTree, hd]
    rw [cond_false, filter_append, h00, h01, hself, hin, filterMap_nil, append_nil]
    exact map_congr_left fun m hm => entryOf_eq_written (ha' m hm) hd
  | true =>
    have hfix : (fixup env ∘ entryOf env fl sk) = fun m =>
        if inTree env fl sk m then some (writtenEntry env fl sk m) else none :=
      funext fun m => fixup_entryOf hd
    rw [cond_true, filter_append, h00, h01, hself, nil_append, nil_append, filterMap_map, hfix,
      ← filterMap_eq_map, filterMap_filter]
    rfl

theorem Dumped.collect (h : Dumped env fl sk p img) : collectPackets img = some img := by
  have hnil : SmallScm ⟨[], []⟩ := nofun
  have h0 := dumpAll_induct (fun _ _ _ _ => SmallScm.put) hnil h.start
  have hsk := dumpSkQueue_induct (fun _ _ => SmallScm.put) h0 h.dump
  have h1 := dumpAll_induct (fun _ _ _ _ => SmallScm.put) hsk h.stop
  obtain ⟨himage, hdeferred⟩ := forall_mem_append.mp h1
  rw [collectPackets, if_pos]
  rw [all_eq_true, skQueuePostActions_true h.post, forall_mem_append]
  refine ⟨fun e he => decide_eq_true (himage e he), fun e' he' => decide_eq_true ?_⟩
  obtain ⟨e, he, hf⟩ := mem_filterMap.mp he'
  obtain ⟨u, rfl⟩ := fixup_spec hf
  exact hdeferred e he

theorem Dumped.restore (h : Dumped env fl sk p img) (ha : ∀ m ∈ sk.reports, SenderAlive env m) :
    restoreSkQueue sk.id img =
      if ∀ m ∈ kept env fl sk, Fits env fl sk m (shownRights sk.passCred m).length then
        some ((kept env fl sk).map (sentOf env fl sk), img.filter fun e => e.idFor ≠ sk.id)
      else none := by
  rw [restoreSkQueue_eq, h.packets ha, mapM_if fun m => sendOnePkt_written]
  split <;> rfl

theorem Sound.kept_eq (h : Sound env fl sk) : kept env fl sk = sk.reports := by
  rw [kept, readable_eq_self.mpr h.nonempty]
  exact filter_eq_self.mpr fun m hm => inTree_iff.mpr (h.in_tree m hm)

variable (env fl sk) in
theorem kept_sublist : (kept env fl sk).Sublist (readable sk.reports) :=
  filter_sublist

theorem readable_sublist (ms : List Msg) : (readable ms).Sublist ms :=
  takeWhile_sublist _

theorem total_eq_length (ms : List Msg) : total ms = (ms.flatMap Msg.data).length := by
  rw [length_flatMap]
  rfl

/-- Messages that are not empty cannot be left out without losing bytes. -/
theorem eq_of_sublist_of_total {ms' : List Msg} (h : ms'.Sublist ms)
    (hne : ∀ m ∈ ms, m.data ≠ []) (ht : total ms' = total ms) : ms' = ms := by
  induction h with
  | slnil => rfl
  | cons m hs _ =>
    have hpos := length_pos_iff.mpr (hne m mem_cons_self)
    have hle : total _ ≤ total _ := (hs.map _).sum_le_sum fun _ _ => Nat.zero_le _
    rw [total_cons] at ht
    omega
  | cons_cons m _ ih =>
    rw [total_cons, total_cons] at ht
    rw [ih (fun x hx => hne x (mem_cons_of_mem _ hx)) (by omega)]

section Pieces

variable {cut cut' : List ℕ → Prop} {queue pieces pieces' : List Part}

theorem chunked_data (h : Chunked cut queue pieces) :
    pieces.flatMap Prod.fst = queue.flatMap Prod.fst := by
  induction h with
  | nil => rfl
  | whole _ ih => rw [flatMap_cons, flatMap_cons, ih]
  | join _ _ ih => rw [flatMap_cons, append_assoc, flatMap_cons, ← ih, flatMap_cons]
  | split _ _ _ ih => rw [flatMap_cons, ih, flatMap_cons, flatMap_cons, append_assoc]

/-- How long the pieces are says which files come with them. -/
theorem chunked_unique (h : Chunked cut queue pieces) (h' : Chunked cut' queue pieces')
    (hdata : pieces.map Prod.fst = pieces'.map Prod.fst) : pieces = pieces' := by
  induction h generalizing pieces' with
  | nil =>
    cases h'
    rfl
  | whole h ih =>
    cases h' with
    | whole h' => rw [ih h' (cons.inj hdata).2]
    | join hb _ => exact absurd (append_right_eq_self.mp (cons.inj hdata).1.symm) hb
    | split hb _ _ => exact absurd (append_right_eq_self.mp (cons.inj hdata).1) hb
  | join hb h ih =>
    generalize hq : (_, []) :: _ = queue at h'
    cases h' with
    | nil => cases hq
    | whole h' =>
      cases hq
      exact absurd (append_right_eq_self.mp (cons.inj hdata).1) hb
    | join _ h' =>
      cases hq
      obtain ⟨hfirst, hrest⟩ := cons.inj hdata
      have heq := ih h' (congrArg₂ cons (append_cancel_left hfirst) hrest)
      cases heq
      rfl
    | split hb' _ h' =>
      cases hq
      have hfirst := (cons.inj hdata).1
      rw [append_assoc, append_right_eq_self] at hfirst
      exact absurd (append_eq_nil_iff.mp hfirst).1 hb'
  | split hb hcut h ih =>
    generalize hq : (_, _) :: _ = queue at h'
    cases h' with
    | nil => cases hq
    | whole h' =>
      cases hq
      exact absurd (append_right_eq_self.mp (cons.inj hdata).1.symm) hb
    | join _ h' =>
      cases hq
      have hfirst := (cons.inj hdata).1.symm
      rw [append_assoc, append_right_eq_self] at hfirst
      exact absurd (append_eq_nil_iff.mp hfirst).1 hb
    | split _ _ h' =>
      obtain ⟨hfirst, hrest⟩ := cons.inj hdata
      obtain ⟨hm, rfl⟩ := cons.inj hq
      obtain ⟨hbytes, rfl⟩ := Prod.mk.inj hm
      obtain rfl := hfirst
      obtain rfl := append_cancel_left hbytes
      rw [ih h' hrest]

end Pieces

def sentPart (sk : Sock) (m : Msg) : Part := (m.data, shownRights sk.passCred m)

theorem map_sentOf_part (ms : List Msg) :
    (ms.map (sentOf env fl sk)).map (fun s => (s.data, s.rights)) = ms.map (sentPart sk) := by
  rw [map_map]
  rfl

/-- When the queue comes back, nothing of it was left out. -/
theorem SameQueue.kept_eq (h : SameQueue fl sk ((kept env fl sk).map (sentOf env fl sk))) :
    kept env fl sk = sk.reports := by
  have hsub := (kept_sublist env fl sk).trans (readable_sublist sk.reports)
  cases hst : sk.stream with
  | false =>
    have hlen := congrArg List.length (h.1 hst)
    rw [length_map, length_map, length_map] at hlen
    refine hsub.eq_of_length ?_
    rw [hlen, sk.datagrams hst]
  | true =>
    have hsent := chunked_data (h.2 hst)
    rw [← chunked_data (sk.chunked hst), map_sentOf_part, flatMap_map, flatMap_map] at hsent
    refine eq_of_sublist_of_total hsub (sk.nonempty hst) ?_
    rw [total_eq_length, total_eq_length]
    exact congrArg List.length hsent

/-- When the queue comes back, all files were reported. -/
theorem SameQueue.whole (h : SameQueue fl sk (sk.reports.map (sentOf env fl sk))) :
    ∀ m ∈ sk.reports, shownRights sk.passCred m = m.rights := by
  intro m hm
  cases hst : sk.stream with
  | false =>
    have hmap := h.1 hst
    rw [map_map, ← sk.datagrams hst] at hmap
    exact congrArg Content.rights (map_inj_left.mp hmap m hm)
  | true =>
    have hsent := h.2 hst
    rw [map_sentOf_part] at hsent
    have hparts := chunked_unique hsent (sk.chunked hst) (by simp [sentPart, Msg.part])
    exact congrArg Prod.snd (map_inj_left.mp hparts m hm)

theorem sameQueue_of_whole (h : ∀ m ∈ sk.reports, shownRights sk.passCred m = m.rights) :
    SameQueue fl sk (sk.reports.map (sentOf env fl sk)) ↔
      (sk.stream = true → SameStream (sk.queue.map Msg.part) (sk.reports.map Msg.part)) := by
  have hparts : sk.reports.map (sentPart sk) = sk.reports.map Msg.part :=
    map_congr_left fun m hm => congrArg (Prod.mk m.data) (h m hm)
  have hmsgs : sk.stream = false →
      (sk.reports.map (sentOf env fl sk)).map sentContent = sk.queue.map (msgContent fl) := by
    intro hst
    rw [map_map, ← sk.datagrams hst]
    exact map_congr_left fun m hm => congrArg (Content.mk m.data (packetAddr fl m)) (h m hm)
  rw [SameQueue, map_sentOf_part, hparts]
  exact and_iff_right hmsgs

/-- A dump that returns 0 is undone by the restore, and leaves the socket as it was, just for sound
sockets. -/
theorem queue_restored_iff {env : Env} {fl : Flags} {sk : Sock} {p : Progress} {img : List Entry}
    (h : Dumped env fl sk p img) (ha : ∀ m ∈ sk.reports, SenderAlive env m) :
    ((∃ pkts sent rest, collectPackets img = some pkts ∧
        restoreSkQueue sk.id pkts = some (sent, rest) ∧ SameQueue fl sk sent) ∧
      p.live.queue = sk.reports ∧ p.live.peekOff = sk.peekOff) ↔ Sound env fl sk := by
  obtain ⟨_, hqueue, hpeek⟩ := dumpSkQueue_true h.dump
  constructor
  · rintro ⟨⟨pkts, sent, rest, hpkts, hsent, hsame⟩, _, hoff⟩
    rw [h.collect] at hpkts
    cases hpkts
    rw [h.restore ha] at hsent
    split at hsent
    swap
    · exact nomatch hsent
    rename_i hfits
    obtain ⟨rfl, _⟩ := Prod.mk.inj (Option.some.inj hsent)
    have hkept := hsame.kept_eq
    have hread : readable sk.reports = sk.reports := by
      refine (readable_sublist sk.reports).antisymm ?_
      have hsub := kept_sublist env fl sk
      rw [hkept] at hsub
      exact hsub
    rw [hkept] at hsame hfits
    have hwhole := hsame.whole
    refine ⟨readable_eq_self.mp hread, fun m hm => ?_, (sameQueue_of_whole hwhole).mp hsame,
      fun m hm => shownRights_eq_iff.mp (hwhole m hm), fun m hm => ?_, ?_⟩
    · rw [← hkept] at hm
      exact inTree_iff.mp (mem_filter.mp hm).2
    · rw [← hwhole m hm]
      exact hfits m hm
    · by_cases hok : env.peekOffOk = true
      · exact .inl hok
      · rw [if_neg hok, hread] at hpeek
        exact .inr (hoff.symm.trans hpeek)
  · intro hs
    have hwhole : ∀ m ∈ sk.reports, shownRights sk.passCred m = m.rights :=
      fun m hm => shownRights_eq_iff.mpr (hs.whole m hm)
    have hfits : ∀ m ∈ kept env fl sk, Fits env fl sk m (shownRights sk.passCred m).length := by
      rw [hs.kept_eq]
      intro m hm
      rw [hwhole m hm]
      exact hs.fits m hm
    have hsent := h.restore ha
    rw [if_pos hfits, hs.kept_eq] at hsent
    refine ⟨⟨img, _, _, h.collect, hsent, (sameQueue_of_whole hwhole).mpr hs.uncut⟩, hqueue, ?_⟩
    · rw [hpeek, readable_eq_self.mpr hs.nonempty]
      split
      · rfl
      · rename_i hok
        exact (hs.peek.resolve_left hok).symm

def quietEnv : Env := ⟨fun _ => true, [], id, id, fun _ => true, true⟩

def addrFlags : Flags := ⟨false, true, false⟩

def datagram (data : List UInt8) : Msg := ⟨data, [], ⟨0, 0, 0⟩, [], []⟩

def datagramSock (queue : List Msg) : Sock where
  id := 1
  stream := false
  queue := queue
  reports := queue
  passCred := false
  sndbuf := 4096
  peekOff := -1
  enobufs := false
  sndbuf_min := by decide
  datagrams := fun _ => rfl
  chunked := nofun
  nonempty := nofun

/-- The packets of a dump of `datagramSock` in the image. -/
def datagramEntry (data : List UInt8) : Entry := ⟨1, none, none, [], data⟩

def dumpedAlone (queue : List Msg) (img : List Entry)
    (h : dumpSkQueue quietEnv addrFlags (datagramSock queue) 4 ⟨[], []⟩ =
      some (true, ⟨⟨queue, -1, false⟩, ⟨img, []⟩, false⟩)) :
    Dumped quietEnv addrFlags (datagramSock queue) ⟨⟨queue, -1, false⟩, ⟨img, []⟩, false⟩ img where
  fuel := 4
  before := []
  after := []
  others := nofun
  d0 := ⟨[], []⟩
  d1 := ⟨img, []⟩
  start := rfl
  dump := h
  stop := rfl
  post := rfl

/-- Datagrams without files are sound when none is empty. -/
theorem datagramSock_sound (ds : List (List UInt8)) (h : ∀ d ∈ ds, d ≠ []) :
    Sound quietEnv addrFlags (datagramSock (ds.map datagram)) where
  nonempty := forall_mem_map.mpr h
  in_tree := nofun
  uncut := nofun
  whole := forall_mem_map.mpr fun _ _ => Nat.zero_le _
  fits := forall_mem_map.mpr fun _ _ hn => absurd rfl hn
  peek := .inl rfl

/-- Two datagrams that are not empty come back. -/
theorem two_datagrams_restored :
    ∃ pkts sent rest, collectPackets [datagramEntry [1, 2], datagramEntry [3]] = some pkts ∧
      restoreSkQueue 1 pkts = some (sent, rest) ∧
      SameQueue addrFlags (datagramSock [datagram [1, 2], datagram [3]]) sent :=
  ((queue_restored_iff
    (dumpedAlone [datagram [1, 2], datagram [3]] [datagramEntry [1, 2], datagramEntry [3]] rfl)
    (forall_mem_cons.mpr ⟨.inl rfl, forall_mem_singleton.mpr (.inl rfl)⟩)).mpr
    (datagramSock_sound [[1, 2], [3]] (by decide))).1

/-- An empty datagram is taken for the end of the queue: the dump returns 0, and nothing is sent
for the messages from it on. -/
theorem empty_datagram_lost :
    ∃ p img, Nonempty (Dumped quietEnv addrFlags (datagramSock [datagram [], datagram [3]]) p img) ∧
      (∀ m ∈ [datagram [], datagram [3]], SenderAlive quietEnv m ∧ m.data.length ≤ 4096 - 32) ∧
      collectPackets img = some [] ∧ restoreSkQueue 1 img = some ([], []) ∧
      ¬ SameQueue addrFlags (datagramSock [datagram [], datagram [3]]) [] := by
  refine ⟨_, [], ⟨dumpedAlone [datagram [], datagram [3]] [] rfl⟩, ?_, rfl, rfl, ?_⟩
  · exact forall_mem_cons.mpr
      ⟨⟨.inl rfl, by decide⟩, forall_mem_singleton.mpr ⟨.inl rfl, by decide⟩⟩
  · exact fun h => nomatch h.1 rfl

end RoundTrip

end Criu.SkQueueRoundTrip

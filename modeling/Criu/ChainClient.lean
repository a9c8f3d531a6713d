import Criu.SnapshotChain

/-!
The calls a restore makes on the top level of a snapshot chain: advance, skip, seek, read
and a final sync. The calls are run in any order that keeps the usage the restorer
follows: an entry with pages in the image is left by advance only when it is used up, skips
stay inside the entry, reads start at the cursor. Every such run succeeds and every read gets
the overlay of the chain, whether it was done at once or queued.
-/

namespace Criu.ChainClient

open Pagemap ReadCursor PageIo AsyncQueue Delivery SnapshotChain

variable {snaps : List Snapshot} {pr : PageRead} {parents : List PageRead} {kernel : ℕ → ℕ → ℕ}
  {st : List PageRead × Io}

/-- The methods of `struct page_read` that a restore calls. -/
inductive ClientOp where
  | advance
  | skip (len : ℕ)
  | seek (vaddr : ℕ)
  | read (vaddr nr buf flags : ℕ)
  | sync

variable {op : ClientOp}

namespace ClientOp

def vaddr : ClientOp → ℕ
  | read vaddr _ _ _ => vaddr
  | _ => 0

def buf : ClientOp → ℕ
  | read _ _ buf _ => buf
  | _ => 0

def len : ClientOp → ℕ
  | read _ nr _ _ => nr * pageSize
  | _ => 0

def async : ClientOp → Bool
  | read _ _ _ flags => isAsync flags
  | _ => false

/-- The call may write the byte at `a`. -/
def Writes (op : ClientOp) (a : ℕ) : Prop := op.buf ≤ a ∧ a < op.buf + op.len

end ClientOp

section Run

variable (kernel : ℕ → ℕ → ℕ) (autoDedup : Bool)

def clientStep : ClientOp → List PageRead × Io → Except Fault (List PageRead × Io)
  | .advance, (pr :: parents, io) => .ok ((advance pr).2 :: parents, io)
  | .skip len, (pr :: parents, io) =>
      match pr.pe with
      | none => .error .bug
      | some pe => .ok (skipPagemapPages pr pe len :: parents, io)
  | .seek vaddr, (pr :: parents, io) => .ok ((seekPagemap pr vaddr).2 :: parents, io)
  | .read vaddr nr buf flags, (prs, io) =>
      readPagemapPage kernel autoDedup flags prs.length prs io vaddr nr buf
  | .sync, (prs, io) => processAsyncReads kernel autoDedup prs io
  | _, ([], _) => .error .bug

def runOps : List ClientOp → List PageRead × Io → Except Fault (List PageRead × Io)
  | [], st => .ok st
  | op :: ops, st =>
      match clientStep kernel autoDedup op st with
      | .error f => .error f
      | .ok st' => runOps ops st'

end Run

def Allowed (pr : PageRead) : ClientOp → Prop
  | .advance => ∀ e, pr.pe = some e → pagemapPresent e = true → pr.cvaddr = e.stop
  | .skip len => ∃ e, pr.pe = some e ∧ pr.cvaddr + len ≤ e.stop ∧ pageSize ∣ len
  | .seek vaddr => pageSize ∣ vaddr
  | .read vaddr nr _ _ =>
      ∃ e, pr.pe = some e ∧ pr.cvaddr = vaddr ∧ 0 < nr ∧ vaddr + nr * pageSize ≤ e.stop
  | .sync => True

def Disciplined (kernel : ℕ → ℕ → ℕ) (autoDedup : Bool) :
    List ClientOp → List PageRead × Io → Prop
  | [], _ => True
  | op :: ops, st =>
      (∀ pr, st.1.head? = some pr → Allowed pr op) ∧
        ∀ st', clientStep kernel autoDedup op st = .ok st' → Disciplined kernel autoDedup ops st'

structure ClientOk (snaps : List Snapshot) (pr : PageRead) (parents : List PageRead) : Prop where
  linked : List.Forall₂ Linked snaps (pr :: parents)
  standing : Fresh pr ∨ ∃ pre e post, At pr pre e post
  aligned : pageSize ∣ pr.cvaddr
  ready : ∀ q ∈ parents, Ready q pr.cvaddr

def Effect (snaps : List Snapshot) (op : ClientOp) (prs prs' : List PageRead)
    (mem mem' : ℕ → UInt8) : Prop :=
  ∃ val, Delivered op.async (images snaps) prs prs' mem mem' op.buf op.len val ∧
    ∀ i, i < op.len → overlay snaps (op.vaddr + i) = some (val i)

section Cursor

variable {pr' : PageRead}

/-- Moving the cursor of the top level is not seen in the memory. -/
theorem effect_of_cursor (hlen : op.len = 0)
    (hlinked : List.Forall₂ Linked snaps (pr' :: parents)) (hasync : pr'.async = pr.async)
    (mem : ℕ → UInt8) : Effect snaps op (pr :: parents) (pr' :: parents) mem mem := by
  have hmap : (pr' :: parents).map PageRead.async = (pr :: parents).map PageRead.async := by
    simp [hasync]
  refine ⟨fun _ => 0, ⟨linked_levels hlinked, ?_, ?_, ?_⟩, ?_⟩
  · omega
  · intro a b _ hb
    exact promised_congr hmap hb
  · intro a ha
    exact Or.inl ((chainTargets_congr hmap a).mp ha)
  · omega

variable {e : PagemapEntry} {pre : List PagemapEntry}

theorem stop_aligned (h : pageSize ∣ e.vaddr) : pageSize ∣ e.stop :=
  Nat.dvd_add h (Nat.dvd_mul_left _ _)

theorem stop_le_last {a : PagemapEntry} (hs : SortedMap (pre ++ [e])) (ha : a ∈ pre ++ [e]) :
    a.stop ≤ e.stop := by
  rcases List.mem_append.mp ha with ha | ha
  · exact le_trans (stop_le_of_pre hs a ha) e.vaddr_le_stop
  · rw [List.mem_singleton.mp ha]

variable (h : ClientOk snaps pr parents)
include h

/-- A forward move of the top cursor inside the pagemap keeps the chain state. -/
theorem clientOk_of_move (hsame : SameFile pr pr')
    (hoff : pr.piOff ≤ pr'.piOff) (hcv : pr.cvaddr ≤ pr'.cvaddr)
    (hstand : Fresh pr' ∨ ∃ pre e post, At pr' pre e post) (halign : pageSize ∣ pr'.cvaddr) :
    ClientOk snaps pr' parents := by
  obtain ⟨hlinked, -, -, hready⟩ := h
  cases hlinked with
  | @cons s _ rest _ hhead htail =>
  have hpmes : pr'.pmes = s.pmes := hsame.pmes.trans hhead.pmes
  have hle : pr'.piOff ≤ s.pages.size := by
    rw [s.size_eq, ← hpmes]
    rcases hstand with hf | ⟨pre, e, post, hat⟩
    · rw [hf.piOff]
      exact Nat.zero_le _
    · exact hat.piOff_le
  exact ⟨.cons ⟨hpmes, hhead.level.forward hsame hoff hle⟩ htail, hstand, halign,
    fun q hq => ready_mono (hready q hq) hcv⟩

theorem ClientOk.sorted : SortedMap pr.pmes := by
  cases h.linked with
  | cons hhead _ => exact hhead.pmes ▸ Snapshot.sorted _

theorem ClientOk.entry_aligned (he : e ∈ pr.pmes) : pageSize ∣ e.vaddr := by
  cases h.linked with
  | cons hhead _ => exact Snapshot.aligned _ e (hhead.pmes ▸ he)

/-- The cursor that has an entry stands in it. -/
theorem ClientOk.at_entry (he : pr.pe = some e) : ∃ pre post, At pr pre e post := by
  rcases h.standing with hf | ⟨pre, e', post, hat⟩
  · rw [hf.pe] at he
    simp at he
  · rw [hat.pe, Option.some.injEq] at he
    subst he
    exact ⟨pre, post, hat⟩

theorem advance_clientOk (hal : Allowed pr .advance) : ClientOk snaps (advance pr).2 parents := by
  have hsame := advance_sameFile pr
  have hmove := clientOk_of_move h hsame (by rw [advance_piOff])
  rcases h.standing with hf | ⟨pre, e, post, hat⟩
  · cases hp : pr.pmes with
    | nil =>
      have hadv := advance_of_rest_nil (hf.rest.trans hp)
      apply hmove
      · simp [hf.cvaddr]
      · refine Or.inl ⟨?_, ?_, ?_, ?_⟩
        · simp [hadv, hf.pe]
        · simp [hadv, hp]
        · simp [hadv, hf.cvaddr]
        · simp [hadv, hf.piOff]
      · rw [hadv]
        exact h.aligned
    | cons e post =>
      obtain ⟨-, hat, hcv⟩ := advance_fresh hf hp
      apply hmove
      · simp [hf.cvaddr]
      · exact Or.inr ⟨[], e, post, hat⟩
      · rw [hcv]
        exact h.entry_aligned (by simp [hp])
  · have hend := hal e hat.pe
    cases post with
    | nil =>
      obtain ⟨-, hat', hcv⟩ := advance_last hat
      apply hmove
      · rw [hcv]
      · exact Or.inr ⟨pre, e, [], hat'⟩
      · rw [hcv]
        exact h.aligned
    | cons e' post =>
      obtain ⟨-, hat', hcv⟩ := advance_at hat hend
      have hle : e.stop ≤ e'.vaddr :=
        stop_le_of_pre (hat'.pmes ▸ hsame.pmes ▸ h.sorted) e (by simp)
      have := hat.hi
      apply hmove
      · omega
      · exact Or.inr ⟨pre ++ [e], e', post, hat'⟩
      · rw [hcv]
        exact h.entry_aligned (by simp [hat.pmes])

theorem skip_clientOk {len : ℕ}
    (he : pr.pe = some e) (hlen : pr.cvaddr + len ≤ e.stop) (halign : pageSize ∣ len) :
    ClientOk snaps (skipPagemapPages pr e len) parents := by
  obtain ⟨pre, post, hat⟩ := h.at_entry he
  apply clientOk_of_move h (skip_sameFile pr e len) (skip_piOff_le pr e len)
  · simp [skipPagemapPages]
  · exact Or.inr ⟨pre, e, post, skip_at hat hlen⟩
  · exact Nat.dvd_add h.aligned halign

theorem ClientOk.cvaddr_le (hp : pr.pmes = pre ++ [e]) : pr.cvaddr ≤ e.stop := by
  rcases h.standing with hf | ⟨pre', e', post', hat⟩
  · rw [hf.cvaddr]
    exact Nat.zero_le _
  · exact le_trans hat.hi (stop_le_last (hp ▸ h.sorted) (hp ▸ mem_pmes hat))

theorem seek_clientOk {v : ℕ} (hv : pageSize ∣ v) :
    ClientOk snaps (seekPagemap pr v).2 parents ∧ (seekPagemap pr v).2.async = pr.async := by
  have hready : (Ready pr v ∧ pr.cvaddr ≤ v) ∨ (seekPagemap pr v).2 = pr := by
    rcases h.standing with hf | ⟨pre, e, post, hat⟩
    · exact Or.inl ⟨.fresh hf, by rw [hf.cvaddr]; exact Nat.zero_le v⟩
    · by_cases hlt : v < pr.cvaddr
      · exact Or.inr (by simp [seekPagemap, seekLoop, seekBody, hat.pe, hlt])
      · exact Or.inl ⟨at_ready h.sorted hat (by omega), by omega⟩
  rcases hready with ⟨hready, hcv⟩ | hback
  · have hsought := seekPagemap_sought hready
    have hsame := seek_sameFile pr v
    have hmove := clientOk_of_move h hsame (seekPagemap_piOff_le pr v)
    refine ⟨?_, hsame.async⟩
    generalize (seekPagemap pr v).1 = ok at hsought
    cases hsought with
    | found pre post e hat _ hcv' =>
      exact hmove (by omega) (Or.inr ⟨pre, e, post, hat⟩) (by rw [hcv']; exact hv)
    | gap pre post e hat _ hlt hcv' =>
      exact hmove (by omega) (Or.inr ⟨pre, e, post, hat⟩)
        (by rw [hcv']; exact h.entry_aligned (hsame.pmes ▸ mem_pmes hat))
    | past pre e hat _ hcv' =>
      have hle := h.cvaddr_le (hsame.pmes ▸ hat.pmes)
      exact hmove (by omega) (Or.inr ⟨pre, e, [], hat⟩)
        (by rw [hcv']; exact stop_aligned (h.entry_aligned (hsame.pmes ▸ mem_pmes hat)))
    | empty hf hp =>
      refine hmove ?_ (Or.inl hf) (by simp [hf.cvaddr])
      rcases h.standing with hf' | ⟨pre, e, post, hat⟩
      · simp [hf'.cvaddr]
      · have hmem := mem_pmes hat
        rw [← hsame.pmes, hp] at hmem
        simp at hmem
  · rw [hback]
    exact ⟨h, rfl⟩

end Cursor

section Step

theorem read_step (hk : Progress kernel) (autoDedup : Bool) (hcov : Covered snaps)
    (h : ClientOk snaps pr parents) {vaddr nr : ℕ} {buf flags : ℕ}
    (hal : Allowed pr (.read vaddr nr buf flags)) (io : Io) :
    ∃ pr' parents' io', clientStep kernel autoDedup (.read vaddr nr buf flags) (pr :: parents, io) =
        .ok (pr' :: parents', io') ∧ ClientOk snaps pr' parents' ∧
      Effect snaps (.read vaddr nr buf flags) (pr :: parents) (pr' :: parents') io.mem io'.mem := by
  obtain ⟨e, he, hcv, hnr, hfit⟩ := hal
  obtain ⟨pre, post, hat⟩ := h.at_entry he
  have hlen : snaps.length ≤ (pr :: parents).length := le_of_eq h.linked.length_eq
  obtain ⟨pr', parents', io', hrun, hat', hcv', hserved⟩ :=
    readPagemapPage_serves hk autoDedup flags _ snaps hlen hcov pr parents io vaddr nr buf
      pre post e h.linked hat hcv (hcv ▸ h.aligned) hnr hfit (hcv ▸ h.ready)
  refine ⟨pr', parents', io', hrun, ⟨hserved.linked, Or.inr ⟨pre, e, post, hat'⟩, ?_, ?_⟩,
    hserved.delivered⟩
  · rw [hcv']
    exact Nat.dvd_add (hcv ▸ h.aligned) (Nat.dvd_mul_left _ _)
  · intro q hq
    rw [hcv']
    exact hserved.ready q (List.mem_cons_of_mem _ hq)

theorem sync_step (hk : Progress kernel) (autoDedup : Bool) (h : ClientOk snaps pr parents)
    (io : Io) :
    ∃ pr' parents' io', clientStep kernel autoDedup .sync (pr :: parents, io) =
        .ok (pr' :: parents', io') ∧ ClientOk snaps pr' parents' ∧
      Effect snaps .sync (pr :: parents) (pr' :: parents') io.mem io'.mem ∧
      io'.mem = pendingMem (images snaps) (pr :: parents) io.mem := by
  obtain ⟨prs', io', hrun, hmem, hflushed, hlevels⟩ :=
    processAsyncReads_ok hk autoDedup (linked_levels h.linked) io
  have hclean := async_nil_of_flushed hflushed
  have hlinked := linked_of_levels h.linked hlevels (hflushed.imp (fun _ _ hf => hf.cursor.pmes))
  have hcurs := hflushed.imp (fun _ _ hf => hf.cursor)
  cases hcurs with
  | @cons _ pr' _ parents' hcur hcurs =>
  refine ⟨pr', parents', io', hrun, ⟨hlinked, ?_, ?_, ?_⟩, ⟨fun _ => 0, ⟨hlevels, ?_, ?_, ?_⟩, ?_⟩,
    hmem⟩
  · obtain ⟨_, _, _, rfl⟩ := hcur.exists_eq
    rcases h.standing with hf | ⟨pre, e, post, hat⟩
    · exact Or.inl { hf with }
    · exact Or.inr ⟨pre, e, post, { hat with }⟩
  · rw [hcur.cvaddr]
    exact h.aligned
  · rw [hcur.cvaddr]
    exact ready_of_sameCursor hcurs h.ready
  · intro i hi
    simp [ClientOp.len] at hi
  · intro a b _ hb
    apply promised_of_flushed hlevels hclean
    rw [hmem]
    exact pendingMem_of_promised hb
  · rintro a ⟨q, hq, j, hj, -⟩
    rw [hclean q hq] at hj
    simp at hj
  · intro i hi
    simp [ClientOp.len] at hi

/-- Every allowed call succeeds, keeps the chain state and has its effect. -/
theorem clientStep_ok (hk : Progress kernel) (autoDedup : Bool) (hcov : Covered snaps)
    (h : ClientOk snaps pr parents) (hal : Allowed pr op) (io : Io) :
    ∃ pr' parents' io', clientStep kernel autoDedup op (pr :: parents, io) =
        .ok (pr' :: parents', io') ∧ ClientOk snaps pr' parents' ∧
      Effect snaps op (pr :: parents) (pr' :: parents') io.mem io'.mem := by
  cases op with
  | advance =>
    have hok := advance_clientOk h hal
    exact ⟨_, _, _, rfl, hok, effect_of_cursor rfl hok.linked (advance_sameFile pr).async _⟩
  | skip len =>
    obtain ⟨e, he, hlen, halign⟩ := hal
    have hok := skip_clientOk h he hlen halign
    exact ⟨skipPagemapPages pr e len, parents, io, by simp [clientStep, he], hok,
      effect_of_cursor rfl hok.linked (skip_sameFile pr e len).async _⟩
  | seek vaddr =>
    obtain ⟨hok, hasync⟩ := seek_clientOk h hal
    exact ⟨_, _, _, rfl, hok, effect_of_cursor rfl hok.linked hasync _⟩
  | read vaddr nr buf flags => exact read_step hk autoDedup hcov h hal io
  | sync =>
    obtain ⟨pr', parents', io', hrun, hok, heff, -⟩ := sync_step hk autoDedup h io
    exact ⟨pr', parents', io', hrun, hok, heff⟩

end Step

section Runs

variable {autoDedup : Bool} {ops ops' : List ClientOp}

theorem runOps_append {st' : List PageRead × Io} (h : runOps kernel autoDedup ops st = .ok st') :
    runOps kernel autoDedup (ops ++ ops') st = runOps kernel autoDedup ops' st' := by
  induction ops generalizing st with
  | nil =>
    cases h
    rfl
  | cons op ops ih =>
    simp only [runOps, List.cons_append] at h ⊢
    split at h
    · cases h
    · exact ih h

theorem disciplined_append (h : Disciplined kernel autoDedup (ops ++ ops') st) :
    Disciplined kernel autoDedup ops st ∧
      ∀ st', runOps kernel autoDedup ops st = .ok st' → Disciplined kernel autoDedup ops' st' := by
  induction ops generalizing st with
  | nil => exact ⟨trivial, fun st' hst => Except.ok.inj hst ▸ h⟩
  | cons op ops ih =>
    obtain ⟨hal, hnext⟩ := h
    refine ⟨⟨hal, fun st1 h1 => (ih (hnext st1 h1)).1⟩, ?_⟩
    intro st' hst
    simp only [runOps] at hst
    split at hst
    · cases hst
    · rename_i hstep
      exact (ih (hnext _ hstep)).2 st' hst

/-- A disciplined run succeeds and keeps what was promised outside its destinations. -/
theorem runOps_ok (hk : Progress kernel) (hcov : Covered snaps) (ops : List ClientOp)
    (pr : PageRead) (parents : List PageRead) (io : Io) (h : ClientOk snaps pr parents)
    (hd : Disciplined kernel autoDedup ops (pr :: parents, io)) :
    ∃ pr' parents' io', runOps kernel autoDedup ops (pr :: parents, io) =
        .ok (pr' :: parents', io') ∧ ClientOk snaps pr' parents' ∧
      ∀ a b, (∀ op ∈ ops, ¬ op.Writes a) → Promised (images snaps) (pr :: parents) io.mem a b →
        Promised (images snaps) (pr' :: parents') io'.mem a b := by
  induction ops generalizing pr parents io with
  | nil => exact ⟨pr, parents, io, rfl, h, fun _ _ _ hp => hp⟩
  | cons op ops ih =>
    obtain ⟨hal, hnext⟩ := hd
    obtain ⟨pr1, parents1, io1, hrun1, hok1, val, hdel, -⟩ :=
      clientStep_ok hk autoDedup hcov h (hal pr rfl) io
    obtain ⟨pr2, parents2, io2, hrun2, hok2, hkeep⟩ := ih pr1 parents1 io1 hok1 (hnext _ hrun1)
    refine ⟨pr2, parents2, io2, by simp only [runOps, hrun1, hrun2], hok2, ?_⟩
    intro a b hno hp
    rw [List.forall_mem_cons] at hno
    exact hkeep a b hno.2 (hdel.outside a b hno.1 hp)

theorem openChain_cons (s : Snapshot) (rest : List Snapshot) :
    openChain (s :: rest) = openPageRead s.pmes s.pages :: openChain rest := rfl

theorem openChain_linked (snaps : List Snapshot) : List.Forall₂ Linked snaps (openChain snaps) := by
  induction snaps with
  | nil => exact .nil
  | cons s rest ih => exact .cons ⟨rfl, openPageRead_levelOk _ _⟩ ih

theorem openChain_clientOk (s : Snapshot) (rest : List Snapshot) :
    ClientOk (s :: rest) (openPageRead s.pmes s.pages) (openChain rest) := by
  refine ⟨openChain_linked (s :: rest), Or.inl (openPageRead_fresh _ _), by simp [openPageRead], ?_⟩
  intro q hq
  obtain ⟨t, -, rfl⟩ := List.mem_map.mp hq
  exact .fresh (openPageRead_fresh _ _)

/-- Restoring from a chain of snapshots reads their overlay. -/
theorem restore_reads_overlay (hk : Progress kernel) (s : Snapshot) (rest : List Snapshot)
    (hcov : Covered (s :: rest)) (ops : List ClientOp) (io : Io)
    (hd : Disciplined kernel autoDedup ops (openChain (s :: rest), io)) :
    (∃ st, runOps kernel autoDedup ops (openChain (s :: rest), io) = .ok st) ∧
    ∀ pre vaddr nr buf flags post, ops = pre ++ .read vaddr nr buf flags :: post →
      ∃ st₀ st₁ st₂,
        runOps kernel autoDedup pre (openChain (s :: rest), io) = .ok st₀ ∧
        runOps kernel autoDedup (pre ++ [.read vaddr nr buf flags]) (openChain (s :: rest), io) =
          .ok st₁ ∧
        runOps kernel autoDedup (ops ++ [.sync]) (openChain (s :: rest), io) = .ok st₂ ∧
        ∀ i, i < nr * pageSize → ¬ ChainTargets st₀.1 (buf + i) →
          (isAsync flags = false →
            overlay (s :: rest) (vaddr + i) = some (st₁.2.mem (buf + i))) ∧
          ((∀ op ∈ post, ¬ op.Writes (buf + i)) →
            overlay (s :: rest) (vaddr + i) = some (st₂.2.mem (buf + i))) := by
  have hstart := openChain_clientOk s rest
  rw [openChain_cons]
  refine ⟨?_, ?_⟩
  · obtain ⟨pr, parents, io', hrun, -⟩ := runOps_ok hk hcov ops _ _ _ hstart hd
    exact ⟨_, hrun⟩
  intro pre vaddr nr buf flags post hops
  subst hops
  obtain ⟨hdpre, hdrest⟩ := disciplined_append hd
  obtain ⟨pr0, parents0, io0, hrun0, hok0, -⟩ := runOps_ok hk hcov pre _ _ _ hstart hdpre
  obtain ⟨hal, hdpost⟩ := hdrest _ hrun0
  obtain ⟨pr1, parents1, io1, hrun1, hok1, val, hdel, hval⟩ :=
    clientStep_ok hk autoDedup hcov hok0 (hal pr0 rfl) io0
  simp only [ClientOp.vaddr, ClientOp.buf, ClientOp.async] at hdel hval
  obtain ⟨pr2, parents2, io2, hrun2, hok2, hkeep⟩ :=
    runOps_ok hk hcov post _ _ _ hok1 (hdpost _ hrun1)
  obtain ⟨pr3, parents3, io3, hrun3, -, -, hmem3⟩ := sync_step hk autoDedup hok2 io2
  refine ⟨_, (pr1 :: parents1, io1), (pr3 :: parents3, io3), hrun0, ?_, ?_, ?_⟩
  · rw [runOps_append hrun0]
    simp only [runOps, hrun1]
  · rw [List.append_assoc, runOps_append hrun0, List.cons_append]
    simp only [runOps, hrun1]
    rw [runOps_append hrun2]
    simp only [runOps, hrun3]
  intro i hi hfree
  have hp := hdel.inside i hi hfree
  rw [hval i hi]
  refine ⟨?_, ?_⟩
  · intro hsync
    rw [hp.stored]
    intro ht
    rcases hdel.targets _ ht with ht | ⟨hasync, -⟩
    · exact hfree ht
    · simp [hsync] at hasync
  · intro hlater
    rw [hmem3]
    exact congrArg some (pendingMem_of_promised (hkeep _ _ hlater hp)).symm

end Runs

/-- Two runs of present pages; every byte of the image is the number of its page. -/
def twoRuns : Snapshot where
  pmes := [⟨0x1000, 2, pePresent⟩, ⟨0x5000, 1, pePresent⟩]
  pages := ⟨fun o => UInt8.ofNat (o / pageSize), 3 * pageSize⟩
  sorted := by decide
  plain := by decide
  aligned := by decide
  bounded := by decide
  size_eq := by decide

/-- A later snapshot of `twoRuns` in which only the page at 0x2000 changed. -/
def secondDump : Snapshot where
  pmes := [⟨0x1000, 1, peParent⟩, ⟨0x2000, 1, pePresent⟩]
  pages := ⟨fun _ => 7, pageSize⟩
  sorted := by decide
  plain := by decide
  aligned := by decide
  bounded := by decide
  size_eq := by decide

theorem secondDump_covered : Covered [secondDump, twoRuns] := by
  simp only [Covered]
  refine ⟨?_, by simp [twoRuns, pagemapInParent, pePresent, peParent]⟩
  intro e he hpar v hv
  refine ⟨twoRuns, rfl, ⟨0x1000, 2, pePresent⟩, by simp [twoRuns], ?_⟩
  simp only [secondDump, List.mem_cons, List.not_mem_nil, or_false] at he
  simp only [PagemapEntry.Covers, PagemapEntry.stop, pagemapLen] at hv ⊢
  rcases he with rfl | rfl
  · dsimp only at hv
    omega
  · simp [pagemapInParent, pePresent, peParent] at hpar

theorem restore_reads_parent_page :
    ∃ st, runOps (fun _ n => n) true [.advance, .read 0x1000 1 0 prAsync, .sync]
        (openChain [secondDump, twoRuns], ⟨fun _ => 0, 0⟩) = .ok st ∧
      ∀ i, i < pageSize → overlay [secondDump, twoRuns] (0x1000 + i) = some (st.2.mem i) := by
  have hd : Disciplined (fun _ n => n) true [.advance, .read 0x1000 1 0 prAsync]
      (openChain [secondDump, twoRuns], ⟨fun _ => 0, 0⟩) := by
    refine ⟨?_, ?_⟩
    · rintro pr h e he
      cases h
      simp [openPageRead] at he
    rintro st' h
    cases h
    refine ⟨?_, fun _ _ => trivial⟩
    rintro pr h
    cases h
    exact ⟨⟨0x1000, 1, peParent⟩, rfl, rfl, by decide, by decide⟩
  obtain ⟨-, hreads⟩ := restore_reads_overlay (fun _ _ h => h) secondDump [twoRuns]
    secondDump_covered _ ⟨fun _ => 0, 0⟩ hd
  obtain ⟨st₀, st₁, st₂, hrun₀, -, hrun₂, hbytes⟩ := hreads [.advance] _ _ _ _ [] rfl
  refine ⟨st₂, hrun₂, ?_⟩
  intro i hi
  have hfree : ¬ ChainTargets st₀.1 (0 + i) := by
    cases hrun₀
    simp [ChainTargets, Targets, openPageRead, advance, secondDump]
  have := (hbytes i (by simpa using hi) hfree).2 (by simp)
  rwa [Nat.zero_add] at this

/-- `advance` does not count the rest of a present entry it leaves, so the pages after it
are read from the wrong place of the image. -/
theorem advance_midway_misreads :
    Covered [twoRuns] ∧ overlay [twoRuns] 0x5000 = some 2 ∧
    ∃ st, runOps (fun _ n => n) false
        [.advance, .read 0x1000 1 0 0, .advance, .read 0x5000 1 0x1000 0]
        (openChain [twoRuns], ⟨fun _ => 0, 0⟩) = .ok st ∧ st.2.mem 0x1000 = 1 := by
  refine ⟨?_, rfl, _, rfl, rfl⟩
  simp [Covered, twoRuns, pagemapInParent, pePresent, peParent]

end Criu.ChainClient

import Criu.Lib.Run
import Criu.Dedup

/-!
Entries without data (criu/pagemap.c, criu/mem.c). A dump can leave pages to be sent later; their
entries are only PE_LAZY, and the pages image has no bytes for them. The local reader and
`dedup_one_iovec` take every entry that is not PE_PARENT for one with bytes at the current offset.
The state is one level of the chain, moved by the calls its users make; what each call reads or
punches is compared with the entries that the bytes belong to.
-/

namespace Criu.DatalessEntries

open Blit Pagemap ReadCursor PageIo Delivery SnapshotChain Dedup List

variable {pr pr' : PageRead} {e : PagemapEntry} {pmes : List PagemapEntry} {buf nr flags : ℕ}

def dumpedFlags : List ℕ := [pePresent, peParent, peLazy, peLazy ||| pePresent]

/-- The pages are neither in this image nor in a parent's. -/
def Dataless (e : PagemapEntry) : Prop := pagemapPresent e = false ∧ pagemapInParent e = false

/-- The byte of the pages image at `o` belongs to the entry. -/
def Owns (pmes : List PagemapEntry) (e : PagemapEntry) (o : ℕ) : Prop :=
  ∃ pre post, pmes = pre ++ e :: post ∧ presentTotal pre ≤ o ∧ o < presentTotal pre + e.presentLen

/-- Bytes of the pages image that are read or punched on behalf of the entry. -/
structure Access where
  entry : PagemapEntry
  off : ℕ
  len : ℕ

def Access.Free (pmes : List PagemapEntry) (a : Access) : Prop :=
  ∀ o, a.off ≤ o → o < a.off + a.len → ∀ e, ¬ Owns pmes e o

/-- What is done with a level: `seek_pagemap`, `advance`, `skip_pages`, the call of
`pagemap_enqueue_iovec` in `restore_priv_vma_content`, `read_pages` at the current address, `sync`,
`dedup_one_iovec` and `reset`. -/
inductive Op
  | seek (vaddr : ℕ)
  | advance
  | skip (len : ℕ)
  | enqueue (len : ℕ)
  | read (nr buf flags : ℕ)
  | sync
  | dedup (off len : ℕ)
  | reset

def Op.isDedup : Op → Bool
  | .dedup _ _ => true
  | _ => false

/-- The ranges that the loop of `dedup_one_iovec` passes to `punch_hole`. -/
def dedupPunches (inner : List PageRead → ℕ → ℕ → Except Fault (List PageRead)) :
    ℕ → PageRead → List PageRead → ℕ → ℕ → List Access
  | 0, _, _, _, _ => []
  | fuel + 1, pr, parents, off, iovEnd =>
      let sought := seekPagemap pr off
      if sought.1 = false ∧ ¬ (off < sought.2.cvaddr ∧ sought.2.cvaddr < iovEnd) then []
      else
        let off' := if sought.1 then off else sought.2.cvaddr
        match sought.2.pe with
        | none => []
        | some pe =>
            let len := min pe.stop iovEnd - off'
            let pr' := if pagemapInParent pe then sought.2
              else punchHole sought.2 sought.2.piOff len false
            (if pagemapInParent pe then [] else [⟨pe, sought.2.piOff, len⟩]) ++
              match inner parents off' len with
              | .error _ => []
              | .ok parents' =>
                  if pe.stop < iovEnd then dedupPunches inner fuel pr' parents' pe.stop iovEnd
                  else []

inductive Touches (pr : PageRead) : Op → Access → Prop
  | enqueue {e : PagemapEntry} {len : ℕ} (hpe : pr.pe = some e)
      (hin : pr.cvaddr + len ≤ e.stop) : Touches pr (.enqueue len) ⟨e, pr.piOff, len⟩
  | read {e : PagemapEntry} {nr buf flags : ℕ} (hpe : pr.pe = some e)
      (hlocal : pagemapInParent e = false) (hin : pr.cvaddr + nr * pageSize ≤ e.stop) :
      Touches pr (.read nr buf flags) ⟨e, pr.piOff, nr * pageSize⟩
  | dedup {off len depth : ℕ} {parents : List PageRead} {a : Access}
      (ha : a ∈ dedupPunches (dedupOneIovec depth) (pr.pmes.length + 1) pr parents off
        (off + len)) :
      Touches pr (.dedup off len) a

section Steps

variable (kernel : ℕ → ℕ → ℕ) (autoDedup : Bool)

/-- The level after a call that returned; entries are left when they are used up, and what is asked
for is in the current entry. -/
def Step (pr : PageRead) (op : Op) (pr' : PageRead) : Prop :=
  match op with
  | .seek vaddr => pr' = (seekPagemap pr vaddr).2
  | .advance => (∀ e ∈ pr.pe, pr.cvaddr = e.stop) ∧ pr' = (ReadCursor.advance pr).2
  | .skip len | .enqueue len =>
      ∃ e, pr.pe = some e ∧ pr.cvaddr + len ≤ e.stop ∧ pr' = skipPagemapPages pr e len
  | .read nr buf flags =>
      (∀ e ∈ pr.pe, pr.cvaddr + nr * pageSize ≤ e.stop) ∧
        ∃ depth parents io parents' io', readPagemapPage kernel autoDedup flags depth
          (pr :: parents) io pr.cvaddr nr buf = .ok (pr' :: parents', io')
  | .sync =>
      ∃ parents io parents' io',
        processAsyncReads kernel autoDedup (pr :: parents) io = .ok (pr' :: parents', io')
  | .dedup off len =>
      ∃ depth parents parents', dedupLoop (dedupOneIovec depth) (pr.pmes.length + 1) pr parents off
        (off + len) = .ok (pr', parents')
  | .reset => pr' = resetPagemap pr

def Reached (pmes : List PagemapEntry) (pi : PagesImage) : PageRead → Prop :=
  Run.Reach (· = openPageRead pmes pi) (Step kernel autoDedup) (fun _ _ => True)

end Steps

variable {a : Access} {io io' : Io} {parents parents' : List PageRead} {fuel off len iovEnd : ℕ}

section Cursor

inductive Counts (pr : PageRead) : Prop
  | fresh (hpe : pr.pe = none) (hrest : pr.pmes.drop pr.nextPme = pr.pmes)
  | inside (pre post : List PagemapEntry) (e : PagemapEntry) (hpmes : pr.pmes = pre ++ e :: post)
      (hpe : pr.pe = some e) (hrest : pr.pmes.drop pr.nextPme = post) (hlo : e.vaddr ≤ pr.cvaddr)
      (hhi : pr.cvaddr ≤ e.stop)
      (hoff : presentTotal pre + (if pagemapPresent e then pr.cvaddr - e.vaddr else 0) ≤ pr.piOff)

theorem Counts.at_entry (hc : Counts pr) (hpe : pr.pe = some e) :
    ∃ pre post, pr.pmes = pre ++ e :: post ∧ pr.pmes.drop pr.nextPme = post ∧
      e.vaddr ≤ pr.cvaddr ∧ pr.cvaddr ≤ e.stop ∧
      presentTotal pre + (if pagemapPresent e then pr.cvaddr - e.vaddr else 0) ≤ pr.piOff := by
  cases hc with
  | fresh hnone => cases hnone.symm.trans hpe
  | inside pre post e' hpmes hpe' hrest hlo hhi hoff =>
    obtain rfl : e' = e := Option.some.inj (hpe'.symm.trans hpe)
    exact ⟨pre, post, hpmes, hrest, hlo, hhi, hoff⟩

theorem Counts.bounds (hc : Counts pr) (hpe : pr.pe = some e) :
    e.vaddr ≤ pr.cvaddr ∧ pr.cvaddr ≤ e.stop := by
  obtain ⟨_, _, -, -, hlo, hhi, -⟩ := hc.at_entry hpe
  exact ⟨hlo, hhi⟩

theorem counts_sameCursor (h : SameCursor pr pr') (hc : Counts pr) : Counts pr' := by
  obtain ⟨_, _, _, rfl⟩ := h.exists_eq
  cases hc with
  | fresh hpe hrest => exact .fresh hpe hrest
  | inside pre post e hpmes hpe hrest hlo hhi hoff =>
    exact .inside pre post e hpmes hpe hrest hlo hhi hoff

theorem counts_skip (hc : Counts pr) (hpe : pr.pe = some e) (hin : pr.cvaddr + len ≤ e.stop) :
    Counts (skipPagemapPages pr e len) := by
  obtain ⟨pre, post, hpmes, hrest, hlo, hhi, hoff⟩ := hc.at_entry hpe
  refine .inside pre post e hpmes hpe hrest ?_ hin ?_
  · exact Nat.le_trans hlo (Nat.le_add_right _ _)
  · simp only [skipPagemapPages]
    split at hoff <;> rename_i hp <;> simp only [hp, if_true, Bool.false_eq_true, if_false] <;>
      omega

theorem counts_advance (hc : Counts pr) (hend : ∀ e ∈ pr.pe, pr.cvaddr = e.stop) :
    Counts (advance pr).2 := by
  cases hc with
  | fresh hpe hrest =>
    cases hp : pr.pmes with
    | nil =>
      rw [advance_of_rest_nil (hrest.trans hp)]
      exact .fresh hpe (by simp [hp])
    | cons e post =>
      have hcons := hrest.trans hp
      rw [advance_of_rest_cons hcons]
      refine .inside [] post e hp rfl (drop_succ_of_cons hcons) (le_refl _) e.vaddr_le_stop ?_
      simp [presentTotal]
  | inside pre post e hpmes hpe hrest hlo hhi hoff =>
    cases post with
    | nil =>
      rw [advance_of_rest_nil hrest]
      refine .inside pre [] e hpmes hpe ?_ hlo hhi hoff
      rw [← drop_drop, hrest]
      rfl
    | cons e' post =>
      rw [advance_of_rest_cons hrest]
      refine .inside (pre ++ [e]) post e' ?_ rfl (drop_succ_of_cons hrest) (le_refl _)
        e'.vaddr_le_stop ?_
      · simp [hpmes]
      have hcv := hend e hpe
      rw [hcv] at hoff
      simp only [presentTotal_append, presentTotal_cons, PagemapEntry.presentLen]
      simp only [PagemapEntry.stop] at hoff
      simpa [presentTotal] using hoff

/-- A seek that finds the address leaves the cursor there. -/
theorem counts_seek (hc : Counts pr) (v : ℕ) : Counts (seekPagemap pr v).2 ∧
      ((seekPagemap pr v).1 = true → (seekPagemap pr v).2.cvaddr = v) := by
  unfold seekPagemap
  generalize pr.pmes.length + 1 = fuel
  induction fuel generalizing pr with
  | zero => exact ⟨hc, by simp [seekLoop]⟩
  | succ fuel ih =>
    have hnext : ∀ {q : PageRead}, Counts q → (∀ e ∈ q.pe, q.cvaddr = e.stop) →
        seekBody pr v = .next q → Counts (seekLoop v (fuel + 1) pr).2 ∧
          ((seekLoop v (fuel + 1) pr).1 = true → (seekLoop v (fuel + 1) pr).2.cvaddr = v) := by
      intro q hq hend hbody
      simp only [seekLoop, hbody]
      split
      · exact ih (counts_advance hq hend)
      · exact ⟨counts_advance hq hend, by simp⟩
    cases hpe : pr.pe with
    | none => exact hnext hc (by simp [hpe]) (by simp [seekBody, hpe])
    | some e =>
      by_cases hlt : v < pr.cvaddr
      · have hbody : seekBody pr v = .stop := by simp [seekBody, hpe, hlt]
        simp only [seekLoop, hbody]
        exact ⟨hc, by simp⟩
      have hbounds := hc.bounds hpe
      by_cases hin : v < e.stop
      · have hbody : seekBody pr v = .found (skipPagemapPages pr e (v - pr.cvaddr)) := by
          have hge : e.vaddr ≤ v := by omega
          simp [seekBody, hpe, hlt, hge, hin]
        simp only [seekLoop, hbody]
        refine ⟨counts_skip hc hpe (by omega), fun _ => ?_⟩
        simp only [skipPagemapPages]
        omega
      have hge : e.stop ≤ v := by omega
      have hstop : pr.cvaddr + (e.stop - pr.cvaddr) = e.stop := by omega
      refine hnext (counts_skip hc hpe (Nat.le_of_eq hstop)) ?_ (by simp [seekBody, hpe, hlt, hge])
      intro e' he'
      have hpe' : pr.pe = some e' := he'
      obtain rfl : e = e' := Option.some.inj (hpe.symm.trans hpe')
      simp only [skipPagemapPages]
      omega

end Cursor

section Reads

variable {kernel : ℕ → ℕ → ℕ} {autoDedup : Bool}

theorem asyncJobs_sameCursor {jobs : List PageReadIov}
    (h : asyncJobs kernel autoDedup jobs pr io = .ok (pr', io')) : SameCursor pr pr' := by
  induction jobs generalizing pr io with
  | nil =>
    cases h
    exact .refl _
  | cons j rest ih =>
    simp only [asyncJobsWithin] at h
    split at h
    · cases h
    rename_i r hloop
    refine SameCursor.trans ?_ (ih h)
    cases autoDedup with
    | false => exact ⟨rfl, rfl, rfl, rfl, rfl⟩
    | true =>
      have hpunch := punchHole_sameCursor pr j.start r.1 false
      exact { hpunch with }

theorem processAsyncReads_sameCursor
    (h : processAsyncReads kernel autoDedup (pr :: parents) io = .ok (pr' :: parents', io')) :
    SameCursor pr pr' := by
  simp only [processAsyncReadsWithin] at h
  split at h
  · cases h
  rename_i r hjobs
  split at h
  · cases h
  · cases h
    exact asyncJobs_sameCursor hjobs

/-- What a direct read leaves comes from the range at the offset of the level. -/
theorem readLoop_mem {img : PagesImage} {curr : ℕ} (hcurr : curr ≤ len)
    (h : readLoop kernel img buf len off fuel curr io = .ok io') :
    io'.mem = blit io.mem (buf + curr) img.data (off + curr) (len - curr) := by
  induction fuel generalizing curr io with
  | zero => cases h
  | succ fuel ih =>
    simp only [readLoop] at h
    have hle := readRet_le kernel img io (len - curr) (off + curr)
    set ret := readRet kernel img io (len - curr) (off + curr)
    split at h
    · cases h
    split at h
    · cases h
      have hret : len - curr = ret := by omega
      rw [hret]
      rfl
    · rw [ih (by omega) h]
      have hsplit : len - curr = ret + (len - (curr + ret)) := by omega
      rw [hsplit, ← blit_append]
      simp only [pread, Nat.add_assoc]

/-- A local read: either its range is queued, or the range is copied at once. -/
theorem maybeReadPageLocal_access
    (h : maybeReadPageLocal kernel autoDedup pr parents io nr buf flags = .ok (pr', parents', io'))
    :
    SameCursor { pr with piOff := pr.piOff + nr * pageSize } pr' ∧
      (pr'.async = pagemapEnqueueIovec pr.piOff buf (nr * pageSize) pr.async ∨
        ∃ (img : PagesImage) (io₁ : Io),
          io'.mem = blit io₁.mem buf img.data pr.piOff (nr * pageSize)) := by
  unfold maybeReadPageLocal at h
  split at h
  · cases h
    exact ⟨⟨rfl, rfl, rfl, rfl, rfl⟩, .inl rfl⟩
  split at h
  · cases h
  rename_i hlocal
  cases h
  unfold readLocalPage at hlocal
  split at hlocal
  · cases hlocal
  · cases hlocal
  rename_i pr₁ parents₁ io₁ hsync
  have hcur := processAsyncReads_sameCursor hsync
  split at hlocal
  · cases hlocal
  rename_i io₂ hloop
  cases hlocal
  constructor
  · have hlevel : SameCursor pr₁
        (if autoDedup then punchHole pr₁ pr₁.piOff (nr * pageSize) false else pr₁) := by
      split
      · exact punchHole_sameCursor _ _ _ _
      · exact .refl _
    have hboth := hcur.trans hlevel
    refine { hboth with piOff := ?_ }
    rw [hboth.piOff]
  · refine .inr ⟨pr₁.pi, io₁, ?_⟩
    have hmem := readLoop_mem (Nat.zero_le _) hloop
    rw [hcur.piOff] at hmem
    exact hmem

theorem counts_read {depth : ℕ} (hc : Counts pr)
    (hflags : ∀ e ∈ pr.pe, pagemapPresent e = true → pagemapInParent e = false)
    (hin : ∀ e ∈ pr.pe, pr.cvaddr + nr * pageSize ≤ e.stop) (h : readPagemapPage kernel autoDedup
    flags depth (pr :: parents) io pr.cvaddr nr buf = .ok (pr' :: parents', io')) :
    Counts pr' ∧ pr'.pmes = pr.pmes := by
  cases depth with
  | zero => cases h
  | succ depth =>
    cases hc with
    | fresh hpe =>
      simp only [readPagemapPage, hpe] at h
      cases h
    | inside pre post e hpmes hpe hrest hlo hhi hoff =>
      have hbound := hin e hpe
      simp only [readPagemapPage, hpe] at h
      split at h
      · cases h
      by_cases hpar : pagemapInParent e = true
      · have hpres : pagemapPresent e = false := by
          by_contra hp
          have := hflags e hpe (by simpa using hp)
          simp [hpar] at this
        rw [if_pos hpar] at h
        split at h
        · cases h
        · cases h
          refine ⟨.inside pre post e hpmes rfl hrest ?_ hbound ?_, rfl⟩
          · exact Nat.le_trans hlo (Nat.le_add_right _ _)
          · simpa [hpres] using hoff
      rw [if_neg hpar] at h
      split at h
      · cases h
      rename_i r hread
      cases h
      obtain ⟨hcur, -⟩ := maybeReadPageLocal_access hread
      refine ⟨.inside pre post e (hcur.pmes.trans hpmes) (hcur.pe.trans hpe) ?_ ?_ ?_ ?_,
        hcur.pmes⟩
      · rw [hcur.pmes, hcur.nextPme]
        exact hrest
      · rw [hcur.cvaddr]
        dsimp only
        omega
      · rw [hcur.cvaddr]
        exact hbound
      · rw [hcur.cvaddr, hcur.piOff]
        split at hoff <;> rename_i hp <;>
          simp only [hp, if_true, Bool.false_eq_true, if_false] <;> omega

end Reads

section Punches

variable {inner : List PageRead → ℕ → ℕ → Except Fault (List PageRead)}

/-- The level after one round of `dedup_one_iovec`. -/
theorem dedup_round (hc : Counts pr) (off len : ℕ) (pe : PagemapEntry) :
    Counts (if pagemapInParent pe then (seekPagemap pr off).2
      else punchHole (seekPagemap pr off).2 (seekPagemap pr off).2.piOff len false) ∧
    (if pagemapInParent pe then (seekPagemap pr off).2
      else punchHole (seekPagemap pr off).2 (seekPagemap pr off).2.piOff len false).pmes =
        pr.pmes := by
  have hseek := (counts_seek hc off).1
  have hfile := (seek_sameFile pr off).pmes
  split
  · exact ⟨hseek, hfile⟩
  · have hcur := punchHole_sameCursor (seekPagemap pr off).2 (seekPagemap pr off).2.piOff len false
    exact ⟨counts_sameCursor hcur hseek, hcur.pmes.trans hfile⟩

theorem counts_dedup (hc : Counts pr)
    (h : dedupLoop inner fuel pr parents off iovEnd = .ok (pr', parents')) :
    Counts pr' ∧ pr'.pmes = pr.pmes := by
  induction fuel generalizing pr parents off with
  | zero => cases h
  | succ fuel ih =>
    simp only [dedupLoop] at h
    split at h
    · cases h
      exact ⟨(counts_seek hc off).1, (seek_sameFile pr off).pmes⟩
    split at h
    · cases h
    rename_i pe hpe
    obtain ⟨hround, hpmes⟩ := dedup_round hc off (min pe.stop iovEnd -
      if (seekPagemap pr off).1 then off else (seekPagemap pr off).2.cvaddr) pe
    split at h
    · cases h
    · split at h
      · obtain ⟨hc', hpmes'⟩ := ih hround h
        exact ⟨hc', hpmes'.trans hpmes⟩
      · cases h
        exact ⟨hround, hpmes⟩

end Punches

/-- No stored page comes after an entry without data. -/
def Trailing (pmes : List PagemapEntry) : Prop :=
  ∀ pre e post, pmes = pre ++ e :: post → Dataless e → 0 < e.nrPages → presentTotal post = 0

section Free

/-- Where no stored page follows, the offset is past all of them. -/
theorem free_of_counts (hc : Counts pr) (ht : Trailing pr.pmes) (hpe : pr.pe = some e)
    (hd : Dataless e) (hlen : len ≤ pagemapLen e) :
    Access.Free pr.pmes ⟨e, pr.piOff, len⟩ := by
  rintro o hlo hhi e' ⟨pre', post', hsplit, hge, hlt⟩
  dsimp only at hlo hhi
  obtain ⟨pre, post, hpmes, -, -, -, hoff⟩ := hc.at_entry hpe
  have hpos : 0 < e.nrPages := by
    apply Nat.pos_of_ne_zero
    intro hzero
    simp only [pagemapLen, hzero] at hlen
    omega
  have hpost := ht pre e post hpmes hd hpos
  have htotal : presentTotal pr.pmes = presentTotal pre := by
    rw [hpmes, presentTotal_append, presentTotal_cons, PagemapEntry.presentLen,
      if_neg (by simp [hd.1]), hpost]
    rfl
  rw [hsplit, presentTotal_append, presentTotal_cons] at htotal
  omega

theorem dedupPunches_free {inner : List PageRead → ℕ → ℕ → Except Fault (List PageRead)}
    (hc : Counts pr) (hp : pr.pmes = pmes) (ht : Trailing pmes)
    (ha : a ∈ dedupPunches inner fuel pr parents off iovEnd) (hd : Dataless a.entry) :
    a.Free pmes := by
  induction fuel generalizing pr parents off with
  | zero => cases ha
  | succ fuel ih =>
    simp only [dedupPunches] at ha
    obtain ⟨hseek, hfound⟩ := counts_seek hc off
    have hfile := (seek_sameFile pr off).pmes.trans hp
    split at ha
    · cases ha
    split at ha
    · cases ha
    rename_i pe hpe
    rcases mem_append.mp ha with ha | ha
    · split at ha
      · cases ha
      obtain rfl := mem_singleton.mp ha
      rw [← hfile] at ht ⊢
      refine free_of_counts hseek ht hpe hd ?_
      have hlo := (hseek.bounds hpe).1
      have hoff : pe.vaddr ≤
          if (seekPagemap pr off).1 then off else (seekPagemap pr off).2.cvaddr := by
        split
        · rw [← hfound ‹_›]
          exact hlo
        · exact hlo
      simp only [PagemapEntry.stop]
      omega
    · split at ha
      · cases ha
      · split at ha
        · obtain ⟨hround, hpmes⟩ := dedup_round hc off (min pe.stop iovEnd -
            if (seekPagemap pr off).1 then off else (seekPagemap pr off).2.cvaddr) pe
          exact ih hround (hpmes.trans hp) ha
        · cases ha

/-- Whatever a call touches on behalf of an entry without data is free. -/
theorem touches_free {op : Op} (hc : Counts pr) (hp : pr.pmes = pmes) (ht : Trailing pmes)
    (h : Touches pr op a) (hd : Dataless a.entry) : a.Free pmes := by
  cases h with
  | enqueue hpe hin | read hpe _ hin =>
    subst hp
    have hlo := (hc.bounds hpe).1
    refine free_of_counts hc ht hpe hd ?_
    simp only [PagemapEntry.stop] at hin
    omega
  | dedup ha => exact dedupPunches_free hc hp ht ha hd

theorem dumped_present (h : e.flags ∈ dumpedFlags) (hp : pagemapPresent e = true) :
    pagemapInParent e = false := by
  simp only [dumpedFlags, mem_cons, not_mem_nil, or_false] at h
  rcases h with h | h | h | h <;> simp only [pagemapPresent, pagemapInParent, h] at hp ⊢ <;>
    revert hp <;> decide

theorem reached_counts {kernel : ℕ → ℕ → ℕ} {autoDedup : Bool} {pi : PagesImage}
    (hflags : ∀ e ∈ pmes, e.flags ∈ dumpedFlags) (h : Reached kernel autoDedup pmes pi pr) :
    Counts pr ∧ pr.pmes = pmes := by
  have hinit : ∀ s, s = openPageRead pmes pi → Counts s ∧ s.pmes = pmes := by
    rintro s rfl
    exact ⟨.fresh rfl rfl, rfl⟩
  refine Run.Reach.invariant hinit ?_ h
  · rintro s op t - ⟨hc, hp⟩ - hstep
    cases op with
    | seek v =>
      cases hstep
      exact ⟨(counts_seek hc v).1, (seek_sameFile s v).pmes.trans hp⟩
    | advance =>
      obtain ⟨hend, rfl⟩ := hstep
      exact ⟨counts_advance hc hend, (advance_sameFile s).pmes.trans hp⟩
    | skip len | enqueue len =>
      obtain ⟨e, hpe, hin, rfl⟩ := hstep
      exact ⟨counts_skip hc hpe hin, hp⟩
    | read nr buf flags =>
      obtain ⟨hin, depth, parents, io, parents', io', hread⟩ := hstep
      have hplain : ∀ e ∈ s.pe, pagemapPresent e = true → pagemapInParent e = false := by
        intro e he
        obtain ⟨pre, post, hpmes, -⟩ := hc.at_entry he
        exact dumped_present (hflags e (by rw [← hp, hpmes]; simp))
      obtain ⟨hc', hp'⟩ := counts_read hc hplain hin hread
      exact ⟨hc', hp'.trans hp⟩
    | sync =>
      obtain ⟨parents, io, parents', io', hsync⟩ := hstep
      have hsame := processAsyncReads_sameCursor hsync
      exact ⟨counts_sameCursor hsame hc, hsame.pmes.trans hp⟩
    | dedup off len =>
      obtain ⟨depth, parents, parents', hdedup⟩ := hstep
      obtain ⟨hc', hp'⟩ := counts_dedup hc hdedup
      exact ⟨hc', hp'.trans hp⟩
    | reset =>
      cases hstep
      exact ⟨.fresh rfl rfl, hp⟩

end Free

section Exposed

variable {pre post : List PagemapEntry}

/-- Where stored pages follow, the byte at the offset belongs to the first of them. -/
theorem owned_of_total (pre post : List PagemapEntry) (h : 0 < presentTotal post) :
    ∃ e, Owns (pre ++ post) e (presentTotal pre) := by
  induction post generalizing pre with
  | nil => exact absurd h (by decide)
  | cons a rest ih =>
    by_cases ha : 0 < a.presentLen
    · exact ⟨a, pre, rest, rfl, le_refl _, by omega⟩
    rw [presentTotal_cons] at h
    obtain ⟨e, howns⟩ := ih (pre ++ [a]) (by omega)
    have htotal : presentTotal (pre ++ [a]) = presentTotal pre := by
      rw [presentTotal_append, presentTotal_cons]
      simp only [presentTotal, map_nil, sum_nil]
      omega
    rw [htotal, append_assoc] at howns
    exact ⟨e, howns⟩

/-- A level just opened finds the first page of the entry, at the offset of what was stored
before. -/
theorem seek_dataless (pi : PagesImage) (hs : SortedMap (pre ++ e :: post)) (hd : Dataless e)
    (hpos : 0 < e.nrPages) :
    (seekPagemap (openPageRead (pre ++ e :: post) pi) e.vaddr).1 = true ∧
      (seekPagemap (openPageRead (pre ++ e :: post) pi) e.vaddr).2.pe = some e ∧
      (seekPagemap (openPageRead (pre ++ e :: post) pi) e.vaddr).2.cvaddr = e.vaddr ∧
      (seekPagemap (openPageRead (pre ++ e :: post) pi) e.vaddr).2.piOff = presentTotal pre := by
  have hlt : e.vaddr < e.stop := by
    simp only [PagemapEntry.stop, pagemapLen, pageSize]
    omega
  have hcov : e.Covers e.vaddr := ⟨le_refl _, hlt⟩
  have hmem : e ∈ pre ++ e :: post := by simp
  have hready : Ready (openPageRead (pre ++ e :: post) pi) e.vaddr :=
    .fresh (openPageRead_fresh _ _)
  obtain ⟨hok, pre₁, e₁, post₁, hat, hc, hcv⟩ := seekPagemap_found hs hready ⟨e, hmem, hcov⟩
  have hfile := (seek_sameFile (openPageRead (pre ++ e :: post) pi) e.vaddr).pmes
  have hsplit : pre ++ e :: post = pre₁ ++ e₁ :: post₁ := hfile.symm.trans hat.pmes
  obtain rfl : e = e₁ := covers_unique hs hmem (by rw [hsplit]; simp) hcov hc
  -- the entry has a page, so a sorted pagemap has it only once
  have hpre : e ∉ pre := fun h => by
    have := stop_le_of_pre hs e h
    omega
  have hpost : e ∉ post := fun h => by
    have := (pairwise_cons.mp (pairwise_append.mp hs).2.1).1 e h
    omega
  obtain ⟨rfl, -, rfl⟩ := (append_cons_inj_of_notMem hpre hpost).mp hsplit
  refine ⟨hok, hat.pe, hcv, ?_⟩
  rw [hat.piOff, hd.1]
  simp

theorem not_free (hlen : 0 < a.len) (hoff : a.off = presentTotal pre)
    (htotal : 0 < presentTotal post) : ¬ a.Free (pre ++ e :: post) := by
  intro hfree
  obtain ⟨e', howns⟩ := owned_of_total pre (e :: post) (by rw [presentTotal_cons]; omega)
  exact hfree (presentTotal pre) (by omega) (by omega) e' howns

theorem dedup_touches (pi : PagesImage) (hs : SortedMap (pre ++ e :: post)) (hd : Dataless e)
    (hpos : 0 < e.nrPages) :
    Touches (openPageRead (pre ++ e :: post) pi) (.dedup e.vaddr pageSize)
      ⟨e, presentTotal pre, pageSize⟩ := by
  obtain ⟨hok, hpe, -, hoff⟩ := seek_dataless pi hs hd hpos
  have hlen : min e.stop (e.vaddr + pageSize) - e.vaddr = pageSize := by
    simp only [PagemapEntry.stop, pagemapLen, pageSize]
    omega
  have hmem : (⟨e, presentTotal pre, pageSize⟩) ∈ dedupPunches (dedupOneIovec 0)
      ((pre ++ e :: post).length + 1) (openPageRead (pre ++ e :: post) pi) [] e.vaddr
      (e.vaddr + pageSize) := by
    simp only [dedupPunches, hok, hpe, hd.2, hoff, if_true, hlen]
    exact mem_append_left _ (mem_singleton_self _)
  exact .dedup hmem

end Exposed

section Property

variable (kernel : ℕ → ℕ → ℕ) (autoDedup : Bool)

/-- Reads, and the punches of `dedup_one_iovec`, on behalf of entries without data keep off the
bytes of other entries exactly if no stored page comes after such an entry. -/
theorem dataless_entries_apart_iff {pmes : List PagemapEntry} (pi : PagesImage)
    (hs : SortedMap pmes) (hflags : ∀ e ∈ pmes, e.flags ∈ dumpedFlags) :
    ((∀ pr op a, Reached kernel autoDedup pmes pi pr → op.isDedup = false → Touches pr op a →
      Dataless a.entry → a.Free pmes) ↔ Trailing pmes) ∧
    ((∀ pr op a, Reached kernel autoDedup pmes pi pr → op.isDedup = true → Touches pr op a →
      Dataless a.entry → a.Free pmes) ↔ Trailing pmes) := by
  have hopen : Reached kernel autoDedup pmes pi (openPageRead pmes pi) := .start rfl
  have hkept : Trailing pmes → ∀ pr op a, Reached kernel autoDedup pmes pi pr →
      Touches pr op a → Dataless a.entry → a.Free pmes := by
    intro ht pr op a hr htouch hd
    obtain ⟨hc, hp⟩ := reached_counts hflags hr
    exact touches_free hc hp ht htouch hd
  refine ⟨⟨fun h => ?_, fun ht pr op a hr _ => hkept ht pr op a hr⟩,
    ⟨fun h => ?_, fun ht pr op a hr _ => hkept ht pr op a hr⟩⟩
  · intro pre e post hsplit hd hpos
    subst hsplit
    by_contra htotal
    obtain ⟨-, hpe, hcv, hoff⟩ := seek_dataless pi hs hd hpos
    have hin : e.vaddr + 1 * pageSize ≤ e.stop := by
      simp only [PagemapEntry.stop, pagemapLen, pageSize]
      omega
    have hseek : Reached kernel autoDedup (pre ++ e :: post) pi
        (seekPagemap (openPageRead (pre ++ e :: post) pi) e.vaddr).2 :=
      .next (e := .seek e.vaddr) hopen trivial rfl
    refine not_free ?_ hoff (Nat.pos_of_ne_zero htotal) (h _ (.read 1 0 0) _
      hseek rfl (.read hpe hd.2 (by rw [hcv]; exact hin)) hd)
    exact Nat.mul_pos Nat.one_pos (by decide)
  · intro pre e post hsplit hd hpos
    subst hsplit
    by_contra htotal
    have hpage : 0 < pageSize := by decide
    exact not_free hpage rfl (Nat.pos_of_ne_zero htotal)
      (h _ _ _ hopen rfl (dedup_touches pi hs hd hpos) hd)

def lazyLast : List PagemapEntry := [⟨0, 1, pePresent⟩, ⟨pageSize, 1, peLazy⟩]

theorem lazyLast_apart :
    SortedMap lazyLast ∧ (∀ e ∈ lazyLast, e.flags ∈ dumpedFlags) ∧
      ∀ pr op a, Reached (fun _ n => n) false lazyLast ⟨fun _ => 1, pageSize⟩ pr →
        op.isDedup = true → Touches pr op a → Dataless a.entry → a.Free lazyLast := by
  have hs : SortedMap lazyLast := by decide
  have hflags : ∀ e ∈ lazyLast, e.flags ∈ dumpedFlags := by decide
  refine ⟨hs, hflags, (dataless_entries_apart_iff _ _ _ hs hflags).2.mpr ?_⟩
  intro pre e post hsplit hd _
  match pre, hsplit with
  | [], hsplit =>
    cases hsplit
    exact absurd hd.1 (by decide)
  | [_], hsplit =>
    cases hsplit
    rfl
  | _ :: _ :: pre, hsplit => simp [lazyLast] at hsplit

def lazyFirst : List PagemapEntry := [⟨0, 1, peLazy⟩, ⟨pageSize, 1, pePresent⟩]

/-- The read of the first page is queued at the bytes of the second one, and so are they to be
punched by `dedup_one_iovec` for the first page. -/
theorem lazyFirst_takes_next :
    SortedMap lazyFirst ∧ (∀ e ∈ lazyFirst, e.flags ∈ dumpedFlags) ∧
      Dataless ⟨0, 1, peLazy⟩ ∧ Owns lazyFirst ⟨pageSize, 1, pePresent⟩ 0 ∧
      (match readPagemapPage (fun _ n => n) false prAsync 1
          [(seekPagemap (openPageRead lazyFirst ⟨fun _ => 1, pageSize⟩) 0).2] ⟨fun _ => 0, 0⟩ 0 1 0
        with
        | .ok (pr :: _, _) => some pr.async
        | _ => none) = some [⟨0, pageSize, [⟨0, pageSize⟩]⟩] ∧
      (match dedupOneIovec 1 [openPageRead lazyFirst ⟨fun _ => 1, pageSize⟩] 0 pageSize with
        | .ok [pr] => some pr.bunch
        | _ => none) = some ⟨0, pageSize⟩ := by
  refine ⟨by decide, by decide, ⟨by decide, by decide⟩, ?_, by decide +kernel, by decide +kernel⟩
  exact ⟨[⟨0, 1, peLazy⟩], [], rfl, by decide, by decide⟩

end Property

end Criu.DatalessEntries

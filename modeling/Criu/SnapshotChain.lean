import Criu.Delivery

/-!
Restoring from a chain of snapshots (criu/pagemap.c). A request for pages of a
PE_PARENT entry is split over the entries of the parent and served recursively.
Every page is delivered from the nearest snapshot of the chain that holds it,
whatever the cut of the entries at each level.
-/

namespace Criu.SnapshotChain

open Pagemap ReadCursor PageIo AsyncQueue Delivery

variable {kernel : ℕ → ℕ → ℕ}

/-- `pagemap_bound_check` hits its BUG. -/
def pagemapBoundCheck (pe : PagemapEntry) (vaddr nr : ℕ) : Bool :=
  decide (vaddr < pe.vaddr) || decide ((vaddr - pe.vaddr) / pageSize + nr > pe.nrPages)

/-- The loop of `read_parent_page`; `read` is the parent's `read_pages`. -/
def readParentPage (read : List PageRead → Io → ℕ → ℕ → ℕ → Except Fault (List PageRead × Io)) :
    ℕ → List PageRead → Io → ℕ → ℕ → ℕ → Except Fault (List PageRead × Io)
  | 0, _, _, _, _, _ => .error .hang
  | _ + 1, [], _, _, _, _ => .error .err
  | fuel + 1, ppr :: rest, io, vaddr, nr, buf =>
      if (seekPagemap ppr vaddr).1 = false then .error .err
      else match (seekPagemap ppr vaddr).2.pe with
        | none => .error .bug
        | some pe =>
            let pNr := min (pe.nrPages - (vaddr - pe.vaddr) / pageSize) nr
            match read ((seekPagemap ppr vaddr).2 :: rest) io vaddr pNr buf with
            | .error f => .error f
            | .ok (parents, io') =>
                if nr - pNr = 0 then .ok (parents, io')
                else readParentPage read fuel parents io' (vaddr + pNr * pageSize) (nr - pNr)
                  (buf + pNr * pageSize)

section Read

variable (kernel : ℕ → ℕ → ℕ) (autoDedup : Bool) (flags : ℕ)

/-- `read_pagemap_page` on a chain of at most `depth` levels. -/
def readPagemapPage : ℕ → List PageRead → Io → ℕ → ℕ → ℕ →
    Except Fault (List PageRead × Io)
  | depth + 1, pr :: parents, io, vaddr, nr, buf =>
      match pr.pe with
      | none => .error .bug
      | some pe =>
          if pagemapBoundCheck pe vaddr nr then .error .bug
          else if pagemapInParent pe then
            match readParentPage (readPagemapPage depth) (nr + 1) parents io vaddr nr buf with
            | .error f => .error f
            | .ok (parents', io') =>
                .ok ({ pr with cvaddr := pr.cvaddr + nr * pageSize } :: parents', io')
          else
            match maybeReadPageLocal kernel autoDedup pr parents io nr buf flags with
            | .error f => .error f
            | .ok (pr', parents', io') =>
                .ok ({ pr' with cvaddr := pr'.cvaddr + nr * pageSize } :: parents', io')
  | _, _, _, _, _, _ => .error .bug

end Read

/-- A pagemap with its pages image, as a dump leaves them. Entries are sorted and
disjoint, each is PRESENT or PARENT, and the image holds the present pages. The page
counts are arguments of C type int, so they stay below 2^31. -/
structure Snapshot where
  pmes : List PagemapEntry
  pages : PagesImage
  sorted : SortedMap pmes
  plain : ∀ e ∈ pmes, e.Plain
  aligned : ∀ e ∈ pmes, pageSize ∣ e.vaddr
  bounded : ∀ e ∈ pmes, e.nrPages < 2 ^ 31
  size_eq : pages.size = presentTotal pmes

/-- Every PE_PARENT page is covered by some entry of the next snapshot. -/
def Covered : List Snapshot → Prop
  | [] => True
  | s :: rest =>
      (∀ e ∈ s.pmes, pagemapInParent e = true → ∀ v, e.Covers v →
        ∃ p, rest.head? = some p ∧ ∃ e' ∈ p.pmes, e'.Covers v) ∧ Covered rest

/-- The byte stored for an address in the nearest snapshot that has it PRESENT. -/
def overlay : List Snapshot → ℕ → Option UInt8
  | [], _ => none
  | s :: rest, v =>
      match entryAt s.pmes v with
      | none => none
      | some e =>
          if pagemapPresent e then (fileOffset s.pmes v).map s.pages.data
          else overlay rest v

structure Linked (s : Snapshot) (pr : PageRead) : Prop where
  pmes : pr.pmes = s.pmes
  level : LevelOk s.pages pr

def images (snaps : List Snapshot) : List PagesImage := snaps.map Snapshot.pages

/-- `open_page_read` on every level of the chain. -/
def openChain (snaps : List Snapshot) : List PageRead :=
  snaps.map (fun s => openPageRead s.pmes s.pages)

variable {prs prs' : List PageRead} {e : PagemapEntry} {snaps rest : List Snapshot} {s : Snapshot}
  {pr : PageRead} {vaddr nr v : ℕ}

theorem linked_levels (h : List.Forall₂ Linked snaps prs) :
    List.Forall₂ LevelOk (images snaps) prs := by
  rw [images, List.forall₂_map_left_iff]
  exact h.imp (fun _ _ hl => hl.level)

/-- Levels that keep their pagemaps and images stay linked. -/
theorem linked_of_levels
    (h : List.Forall₂ Linked snaps prs) (hlevels : List.Forall₂ LevelOk (images snaps) prs')
    (hpmes : List.Forall₂ (fun pr pr' => pr'.pmes = pr.pmes) prs prs') :
    List.Forall₂ Linked snaps prs' := by
  induction h generalizing prs' with
  | nil =>
    cases hpmes
    exact .nil
  | cons hhead _ ih =>
    cases hpmes with
    | cons hp hps =>
    cases hlevels with
    | cons hl hls => exact .cons ⟨hp.trans hhead.pmes, hl⟩ (ih hls hps)

theorem boundCheck_false (hlo : e.vaddr ≤ vaddr) (hhi : vaddr + nr * pageSize ≤ e.stop) :
    pagemapBoundCheck e vaddr nr = false := by
  rw [pagemapBoundCheck, Bool.or_eq_false_iff, decide_eq_false_iff_not, decide_eq_false_iff_not]
  simp only [PagemapEntry.stop, pagemapLen, pageSize] at hhi ⊢
  omega

/-- The outcome of serving `nr` pages at `vaddr` into `buf`. -/
structure Served (async : Bool) (snaps : List Snapshot) (prs prs' : List PageRead)
    (mem mem' : ℕ → UInt8)
    (vaddr nr buf : ℕ) : Prop where
  linked : List.Forall₂ Linked snaps prs'
  ready : ∀ q ∈ prs', Ready q (vaddr + nr * pageSize)
  delivered : ∃ val, Delivered async (images snaps) prs prs' mem mem' buf (nr * pageSize) val ∧
    ∀ i, i < nr * pageSize → overlay snaps (vaddr + i) = some (val i)

def ReadServes (async : Bool) (snaps : List Snapshot)
    (read : List PageRead → Io → ℕ → ℕ → ℕ → Except Fault (List PageRead × Io)) : Prop :=
  ∀ (pr : PageRead) (parents : List PageRead) (io : Io) (vaddr nr buf : ℕ)
    (pre post : List PagemapEntry) (e : PagemapEntry),
    List.Forall₂ Linked snaps (pr :: parents) → At pr pre e post → pr.cvaddr = vaddr →
    pageSize ∣ vaddr → 0 < nr → vaddr + nr * pageSize ≤ e.stop →
    (∀ q ∈ parents, Ready q vaddr) →
    ∃ pr' parents' io', read (pr :: parents) io vaddr nr buf = .ok (pr' :: parents', io') ∧
      At pr' pre e post ∧ pr'.cvaddr = vaddr + nr * pageSize ∧
      Served async snaps (pr :: parents) (pr' :: parents') io.mem io'.mem vaddr nr buf

theorem seek_linked (h : Linked s pr) (hr : Ready pr v) (hcov : ∃ e ∈ s.pmes, e.Covers v) :
    (seekPagemap pr v).1 = true ∧ Linked s (seekPagemap pr v).2 ∧
      (seekPagemap pr v).2.async = pr.async ∧ ∃ pre e post,
        At (seekPagemap pr v).2 pre e post ∧ e.Covers v ∧ (seekPagemap pr v).2.cvaddr = v := by
  have hs : SortedMap pr.pmes := h.pmes ▸ s.sorted
  obtain ⟨hok, pre, e, post, hat, hc, hcv⟩ := seekPagemap_found hs hr (h.pmes ▸ hcov)
  have hsame := seek_sameFile pr v
  have hpmes : (seekPagemap pr v).2.pmes = s.pmes := hsame.pmes.trans h.pmes
  refine ⟨hok, ⟨hpmes, ?_⟩, hsame.async, pre, e, post, hat, hc, hcv⟩
  apply h.level.forward hsame (seekPagemap_piOff_le pr v)
  rw [s.size_eq, ← hpmes]
  exact hat.piOff_le

/-- The parent loop serves the whole request, entry after entry of the parent. -/
theorem readParentPage_served
    {read : List PageRead → Io → ℕ → ℕ → ℕ → Except Fault (List PageRead × Io)}
    {async : Bool} (hread : ReadServes async (s :: rest) read) (fuel : ℕ) (prs : List PageRead)
    (io : Io) (vaddr nr buf : ℕ) (hlinked : List.Forall₂ Linked (s :: rest) prs)
    (hready : ∀ q ∈ prs, Ready q vaddr) (hv : pageSize ∣ vaddr) (hnr : 0 < nr) (hfuel : nr ≤ fuel)
    (hcov : ∀ v, vaddr ≤ v → v < vaddr + nr * pageSize → ∃ e ∈ s.pmes, e.Covers v) :
    ∃ prs' io', readParentPage read fuel prs io vaddr nr buf = .ok (prs', io') ∧
      Served async (s :: rest) prs prs' io.mem io'.mem vaddr nr buf := by
  induction fuel generalizing prs io vaddr nr buf with
  | zero => omega
  | succ fuel ih =>
    cases hlinked with
    | @cons _ ppr _ prs hhead htail =>
    have hpage : 0 < nr * pageSize := Nat.mul_pos hnr (by decide)
    obtain ⟨hok, hlink, hasync, pre, e, post, hat, hc, hcv⟩ :=
      seek_linked hhead (hready ppr List.mem_cons_self) (hcov vaddr (le_refl _) (by omega))
    set ppr' := (seekPagemap ppr vaddr).2 with hppr'
    have he : e ∈ s.pmes := by
      rw [← hlink.pmes, hat.pmes]
      simp
    set pNr := min (e.nrPages - (vaddr - e.vaddr) / pageSize) nr with hpNr
    -- the piece of the request that one parent entry serves is not empty and fits it
    obtain ⟨hpos, hfit⟩ : 0 < pNr ∧ vaddr + pNr * pageSize ≤ e.stop := by
      have hal := s.aligned e he
      obtain ⟨hlo, hhi⟩ := hc
      simp only [PagemapEntry.stop, pagemapLen, pageSize] at *
      omega
    obtain ⟨pr1, parents1, io1, hrun, hat1, hcv1, hserved⟩ := hread ppr' prs io vaddr pNr buf
      pre post e (.cons hlink htail) hat hcv hv hpos hfit
      (fun q hq => hready q (List.mem_cons_of_mem _ hq))
    obtain ⟨val, hdel, hval⟩ := hserved.delivered
    have hmap : (ppr :: prs).map PageRead.async = (ppr' :: prs).map PageRead.async := by
      simp [hasync]
    have hdel' := hdel.congr hmap (Eq.refl ((pr1 :: parents1).map PageRead.async)) hdel.levels
    simp only [readParentPage, hok, ← hppr', hat.pe, ← hpNr, hrun]
    by_cases hdone : nr - pNr = 0
    · have heq : pNr = nr := by omega
      simp only [hdone]
      rw [heq] at hserved hdel' hval
      exact ⟨_, _, rfl, hserved.linked, hserved.ready, val, hdel', hval⟩
    simp only [hdone]
    have hsum : vaddr + pNr * pageSize + (nr - pNr) * pageSize = vaddr + nr * pageSize := by
      simp only [pageSize]
      omega
    obtain ⟨prs2, io2, hrun2, hserved2⟩ := ih (pr1 :: parents1) io1 (vaddr + pNr * pageSize)
      (nr - pNr) (buf + pNr * pageSize) hserved.linked hserved.ready
      (Nat.dvd_add hv (Nat.dvd_mul_left _ _)) (by omega) (by omega)
      (fun v hlo hhi => hcov v (by omega) (by omega))
    obtain ⟨val2, hdel2, hval2⟩ := hserved2.delivered
    refine ⟨prs2, io2, hrun2, hserved2.linked, ?_,
      fun i => if i < pNr * pageSize then val i else val2 (i - pNr * pageSize), ?_, ?_⟩
    · rw [← hsum]
      exact hserved2.ready
    · have happ := hdel'.append hdel2
      have hlen : pNr * pageSize + (nr - pNr) * pageSize = nr * pageSize := by omega
      rwa [hlen] at happ
    intro i hi
    by_cases him : i < pNr * pageSize
    · simp only [him]
      exact hval i him
    · simp only [him]
      have := hval2 (i - pNr * pageSize) (by omega)
      rwa [show vaddr + pNr * pageSize + (i - pNr * pageSize) = vaddr + i by omega] at this

theorem ready_of_sameCursor (h : List.Forall₂ SameCursor prs prs') (hr : ∀ q ∈ prs, Ready q v) :
    ∀ q ∈ prs', Ready q v := by
  induction h with
  | nil => simp
  | cons hcur _ ih =>
    obtain ⟨hhead, htail⟩ := List.forall_mem_cons.mp hr
    exact List.forall_mem_cons.mpr ⟨hcur.ready hhead, ih htail⟩

def levelByte (pmes : List PagemapEntry) (pages : PagesImage) (rest : List Snapshot) (v : ℕ) :
    Option UInt8 :=
  match entryAt pmes v with
  | none => none
  | some e => if pagemapPresent e then (fileOffset pmes v).map pages.data else overlay rest v

theorem overlay_cons (s : Snapshot) (rest : List Snapshot) (v : ℕ) :
    overlay (s :: rest) v = levelByte s.pmes s.pages rest v := rfl

/-- One level of `read_pagemap_page`, over parents that serve what they are asked for: only the
entry that is read has to be PRESENT or PARENT. -/
theorem readPagemapPage_level (hk : Progress kernel) (autoDedup : Bool)
    (flags depth : ℕ) {pages : PagesImage} {parents : List PageRead} {pre post : List PagemapEntry}
    (hrest : ReadServes (isAsync flags) rest (readPagemapPage kernel autoDedup flags depth))
    (hlevel : LevelOk pages pr) (hsize : pages.size = presentTotal pr.pmes)
    (hsort : SortedMap pr.pmes) (htail : List.Forall₂ Linked rest parents) (hat : At pr pre e post)
    (hplain : e.Plain) (hcover : pagemapInParent e = true → ∀ v, e.Covers v →
      ∃ p, rest.head? = some p ∧ ∃ e' ∈ p.pmes, e'.Covers v) (io : Io) (buf : ℕ)
    (hcv : pr.cvaddr = vaddr) (hv : pageSize ∣ vaddr) (hnr : 0 < nr)
    (hfit : vaddr + nr * pageSize ≤ e.stop) (hready : ∀ q ∈ parents, Ready q vaddr) :
    ∃ pr' parents' io', readPagemapPage kernel autoDedup flags (depth + 1) (pr :: parents) io vaddr
        nr buf = .ok (pr' :: parents', io') ∧
      At pr' pre e post ∧ pr'.cvaddr = vaddr + nr * pageSize ∧ LevelOk pages pr' ∧
      List.Forall₂ Linked rest parents' ∧ (∀ q ∈ parents', Ready q (vaddr + nr * pageSize)) ∧
      ∃ val, Delivered (isAsync flags) (pages :: images rest) (pr :: parents) (pr' :: parents')
          io.mem io'.mem buf (nr * pageSize) val ∧
        ∀ i, i < nr * pageSize → levelByte pr.pmes pages rest (vaddr + i) = some (val i) := by
  have hlo : e.vaddr ≤ vaddr := hcv ▸ hat.lo
  have hcovers : ∀ i, i < nr * pageSize → e.Covers (vaddr + i) := by
    intro i hi
    exact ⟨by omega, by omega⟩
  have hentry : ∀ i, i < nr * pageSize → entryAt pr.pmes (vaddr + i) = some e := by
    intro i hi
    rw [hat.pmes]
    exact entryAt_split (hat.pmes ▸ hsort) (hcovers i hi)
  simp only [readPagemapPage, hat.pe, boundCheck_false hlo hfit]
  by_cases hpar : pagemapInParent e = true
  · have hpres : pagemapPresent e = false := by
      rw [hplain, hpar]
      rfl
    cases htail with
    | nil =>
      obtain ⟨p, hp, -⟩ := hcover hpar vaddr
        (by simpa using hcovers 0 (Nat.mul_pos hnr (by decide)))
      simp at hp
    | @cons p ppr rest' prs' hp hps =>
    obtain ⟨parents', io', hrun, hserved⟩ := readParentPage_served hrest (nr + 1) (ppr :: prs') io
      vaddr nr buf (.cons hp hps) hready hv hnr (by omega) (by
        intro v hvlo hvhi
        obtain ⟨q, hq, hcq⟩ := hcover hpar v ⟨by omega, by omega⟩
        simp only [List.head?_cons, Option.some.injEq] at hq
        subst hq
        exact hcq)
    obtain ⟨val, hdel, hval⟩ := hserved.delivered
    simp only [hpar, hrun]
    set pr' : PageRead := { pr with cvaddr := pr.cvaddr + nr * pageSize } with hpr'
    have hlevel' : LevelOk pages pr' := { hlevel with }
    have hat' : At pr' pre e post := by
      refine ⟨hat.pmes, hat.pe, hat.rest, ?_, ?_, ?_⟩
      · simp only [hpr']
        omega
      · simp only [hpr']
        omega
      · have := hat.piOff
        simp only [hpres] at this ⊢
        exact this
    have hcv' : pr'.cvaddr = vaddr + nr * pageSize := by simp only [hpr', hcv]
    refine ⟨pr', parents', io', by simp [hpr', hat.pe], hat', hcv', hlevel', hserved.linked,
      hserved.ready, val, hdel.lift (linked_levels (.cons hp hps)) hlevel' rfl, ?_⟩
    intro i hi
    simp only [levelByte, hentry i hi, hpres]
    exact hval i hi
  have hpres : pagemapPresent e = true := by
    rw [hplain]
    simpa using hpar
  have hoff := hat.piOff
  simp only [hpres, if_true] at hoff
  have hroom : pr.piOff + nr * pageSize ≤ pages.size := by
    rw [hsize, hat.pmes, presentTotal_append, presentTotal_cons, PagemapEntry.presentLen]
    simp only [hpres, if_true]
    simp only [PagemapEntry.stop] at hfit
    omega
  obtain ⟨pr1, parents1, io1, hrun, hcur, hcurs, hdel⟩ := maybeReadPageLocal_delivered hk
    autoDedup hlevel (linked_levels htail) io buf flags hnr hroom
  simp only [hpar, hrun]
  set pr' : PageRead := { pr1 with cvaddr := pr1.cvaddr + nr * pageSize } with hpr'
  have hlevels := hdel.levels
  cases hlevels with
  | cons hl1 hls1 =>
  have hlevel' : LevelOk pages pr' := { hl1 with }
  have hcv' : pr'.cvaddr = vaddr + nr * pageSize := by
    simp only [hpr', hcur.cvaddr, hcv]
  have hat' : At pr' pre e post := by
    refine ⟨hcur.pmes.trans hat.pmes, hcur.pe.trans hat.pe, ?_, ?_, ?_, ?_⟩
    · simp only [hpr', hcur.pmes, hcur.nextPme]
      exact hat.rest
    · omega
    · omega
    · rw [hcv']
      simp only [hpr', hcur.piOff, hpres, if_true]
      omega
  refine ⟨pr', parents1, io1, rfl, hat', hcv', hlevel',
    linked_of_levels htail hls1 (hcurs.imp (fun _ _ h => h.pmes)), ?_, _,
    hdel.congr rfl rfl (.cons hlevel' hls1), ?_⟩
  · intro q hq
    exact ready_mono (ready_of_sameCursor hcurs hready q hq) (by omega)
  intro i hi
  have hfile : fileOffset pr.pmes (vaddr + i) = some (pr.piOff + i) := by
    rw [hat.pmes, fileOffset_split (hat.pmes ▸ hsort) (hcovers i hi) hpres]
    congr 1
    omega
  simp only [levelByte, hentry i hi, hpres, if_true, hfile, Option.map_some]

/-- `read_pagemap_page` serves every request that fits the current entry, on chains of
any depth: the induction is on the depth, the parent loop does the rest. -/
theorem readPagemapPage_serves (hk : Progress kernel) (autoDedup : Bool) (flags depth : ℕ) :
    ∀ snaps : List Snapshot, snaps.length ≤ depth → Covered snaps →
      ReadServes (isAsync flags) snaps (readPagemapPage kernel autoDedup flags depth) := by
  induction depth with
  | zero =>
    intro snaps hlen hcov pr parents io vaddr nr buf pre post e hlinked
    cases hlinked
    simp at hlen
  | succ depth ih =>
    intro snaps hlen hcov pr parents io vaddr nr buf pre post e hlinked hat hcv hv hnr hfit hready
    cases hlinked with
    | @cons s _ rest _ hhead htail =>
    have hsort : SortedMap pr.pmes := hhead.pmes ▸ s.sorted
    have he : e ∈ s.pmes := hhead.pmes ▸ mem_pmes hat
    obtain ⟨pr', parents', io', hrun, hat', hcv', hlevel', hlinked', hready', val, hdel, hval⟩ :=
      readPagemapPage_level hk autoDedup flags depth (ih rest (by simpa using hlen) hcov.2)
        hhead.level (hhead.pmes ▸ s.size_eq) hsort htail hat (s.plain e he) (hcov.1 e he) io buf
        hcv hv hnr hfit hready
    have hpmes : pr'.pmes = s.pmes := by rw [hat'.pmes, ← hat.pmes, hhead.pmes]
    refine ⟨pr', parents', io', hrun, hat', hcv', .cons ⟨hpmes, hlevel'⟩ hlinked', ?_, val, hdel,
      ?_⟩
    · exact List.forall_mem_cons.mpr ⟨at_ready (hpmes ▸ s.sorted) hat' (le_of_eq hcv'), hready'⟩
    · intro i hi
      rw [overlay_cons, ← hhead.pmes]
      exact hval i hi

end Criu.SnapshotChain

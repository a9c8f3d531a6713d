import Mathlib.Data.Set.Lattice
import Mathlib.Order.Interval.Set.LinearOrder
import Criu.SnapshotChain

/-!
Deduplication of a snapshot chain (criu/pagemap.c, criu/cr-dedup.c). The pages that the
top snapshot stores itself are punched out of the images of its ancestors. Punches are
collected in a bunch and done late; `effective` is the image as if they were done at once,
and all reasoning is about it. A level is visited at an address only if every level above
it has an entry there.
-/

namespace Criu.Dedup

open Blit Pagemap ReadCursor PageIo Delivery SnapshotChain List

variable {e : PagemapEntry} {hi off v : ℕ} {pr : PageRead} {R R' : Set ℕ} {s : Snapshot}
  {prs : List PageRead} {snaps : List Snapshot}

/-- The loop of `dedup_one_iovec` on one level; `inner` is the call for the parent. -/
def dedupLoop (inner : List PageRead → ℕ → ℕ → Except Fault (List PageRead)) :
    ℕ → PageRead → List PageRead → ℕ → ℕ → Except Fault (PageRead × List PageRead)
  | 0, _, _, _, _ => .error .hang
  | fuel + 1, pr, parents, off, iovEnd =>
      let sought := seekPagemap pr off
      if sought.1 = false ∧ ¬ (off < sought.2.cvaddr ∧ sought.2.cvaddr < iovEnd) then
        .ok (sought.2, parents)
      else
        let off' := if sought.1 then off else sought.2.cvaddr
        match sought.2.pe with
        | none => .error .err
        | some pe =>
            let len := min pe.stop iovEnd - off'
            let pr' := if pagemapInParent pe then sought.2
              else punchHole sought.2 sought.2.piOff len false
            match inner parents off' len with
            | .error f => .error f
            | .ok parents' =>
                if pe.stop < iovEnd then dedupLoop inner fuel pr' parents' pe.stop iovEnd
                else .ok (pr', parents')

/-- `dedup_one_iovec` on a chain of at most `depth` levels. A level without parent is the
end of the chain. -/
def dedupOneIovec : ℕ → List PageRead → ℕ → ℕ → Except Fault (List PageRead)
  | _, [], _, _ => .ok []
  | 0, _ :: _, _, _ => .error .hang
  | depth + 1, pr :: parents, off, len =>
      match dedupLoop (dedupOneIovec depth) (pr.pmes.length + 1) pr parents off (off + len) with
      | .error f => .error f
      | .ok (pr', parents') => .ok (pr' :: parents')

/-- The loop of `cr_dedup_one_pagemap` over the entries of the top snapshot. -/
def dedupEntries : ℕ → PageRead → List PageRead → Except Fault (PageRead × List PageRead)
  | 0, _, _ => .error .hang
  | fuel + 1, pr, parents =>
      if (advance pr).1 = false then .ok ((advance pr).2, parents)
      else match (advance pr).2.pe with
        | none => .error .bug
        | some pe =>
            if pagemapInParent pe then dedupEntries fuel (advance pr).2 parents
            else match dedupOneIovec parents.length parents pe.vaddr (pagemapLen pe) with
              | .error f => .error f
              | .ok parents' => dedupEntries fuel (advance pr).2 parents'

def closePageRead (pr : PageRead) : PageRead :=
  if 0 < pr.bunch.len then { punchHole pr 0 0 true with bunch := ⟨0, 0⟩ } else pr

/-- `cr_dedup_one_pagemap`: the images that are left once all levels are closed. -/
def crDedupOnePagemap : List PageRead → Except Fault (List PagesImage)
  | [] => .error .err
  | pr :: parents =>
      match dedupEntries (pr.pmes.length + 1) pr parents with
      | .error f => .error f
      | .ok (pr', parents') => .ok ((pr' :: parents').map (fun q => (closePageRead q).pi))

/-- The image once the pending bunch is punched. -/
def effective (pr : PageRead) : ℕ → UInt8 := wipe 0 pr.pi.data pr.bunch.base pr.bunch.len

theorem wipe_zero (f : ℕ → UInt8) (off : ℕ) : wipe 0 f off 0 = f := by
  funext o
  exact wipe_outside _ _ (by omega)

/-- Collecting punches in a bunch is the same as punching at once. -/
theorem punchHole_effective (pr : PageRead) (off len : ℕ) :
    effective (punchHole pr off len false) = wipe 0 (effective pr) off len := by
  by_cases hext : canExtendBunch pr.bunch off len = true
  · have hend : pr.bunch.base + pr.bunch.len = off := by
      simp only [canExtendBunch, Bool.and_eq_true, beq_iff_eq] at hext
      exact hext.1
    have hres : punchHole pr off len false =
        { pr with bunch := ⟨pr.bunch.base, pr.bunch.len + len⟩ } := by simp [punchHole, hext]
    funext o
    simp only [effective, hres, wipe]
    split_ifs <;> first | rfl | omega
  have hres : effective (punchHole pr off len false) = wipe 0
      (if 0 < pr.bunch.len then fallocatePunch pr.pi pr.bunch.base pr.bunch.len
        else pr.pi).data off len := by simp [punchHole, hext, effective]
  rw [hres]
  by_cases hpos : 0 < pr.bunch.len
  · simp [hpos, fallocatePunch, effective]
  · have hzero : pr.bunch.len = 0 := by omega
    simp [effective, hzero, wipe_zero]

theorem closePageRead_data (pr : PageRead) : (closePageRead pr).pi.data = effective pr := by
  by_cases hpos : 0 < pr.bunch.len
  · simp [closePageRead, hpos, punchHole, fallocatePunch, effective]
  · have hzero : pr.bunch.len = 0 := by omega
    simp [closePageRead, effective, hzero, wipe_zero]

def coverage (pmes : List PagemapEntry) : Set ℕ := {v | ∃ e ∈ pmes, e.Covers v}

open Classical in
/-- The image of a snapshot without the bytes of the addresses in `R`. -/
noncomputable def wiped (s : Snapshot) (R : Set ℕ) : ℕ → UInt8 :=
  fun o => if ∃ v ∈ R, fileOffset s.pmes v = some o then 0 else s.pages.data o

/-- The levels hold the snapshots without the addresses in `R`. An address only goes on
to the next level if this one has an entry for it. -/
def Deduped : Set ℕ → List Snapshot → List PageRead → Prop
  | _, [], [] => True
  | R, s :: rest, pr :: prs =>
      (pr.pmes = s.pmes ∧ pr.pi.size = s.pages.size ∧ effective pr = wiped s R) ∧
        Deduped (R ∩ coverage s.pmes) rest prs
  | _, _, _ => False

theorem wiped_union {I : Set ℕ} {o : ℕ} (h : ∀ v ∈ I, fileOffset s.pmes v ≠ some o) :
    wiped s (R ∪ I) o = wiped s R o := by
  classical
  refine if_congr ⟨?_, fun ⟨v, hv, ho⟩ => ⟨v, .inl hv, ho⟩⟩ rfl rfl
  rintro ⟨v, hv | hv, ho⟩
  · exact ⟨v, hv, ho⟩
  · exact absurd ho (h v hv)

theorem Deduped.length_eq : ∀ {R snaps prs}, Deduped R snaps prs → snaps.length = prs.length
  | _, [], [], _ => rfl
  | _, _ :: _, _ :: _, hd => congrArg (· + 1) hd.2.length_eq

theorem effective_sameFile {pr' : PageRead} (h : SameFile pr pr') :
    effective pr' = effective pr := by
  simp [effective, h.pi, h.bunch]

section Piece

variable {pre post : List PagemapEntry}

/-- The rest of an entry up to `hi`, seen from the cursor. -/
theorem piece_covers (h : At pr pre e post) (hhi : hi ≤ e.stop) (hv : v ∈ Set.Ico pr.cvaddr hi) :
    e.Covers v := by
  have := h.lo
  exact ⟨by have := hv.1; omega, by have := hv.2; omega⟩

theorem wiped_parent_piece (hp : pr.pmes = s.pmes) (h : At pr pre e post) (hhi : hi ≤ e.stop)
    (hpar : pagemapInParent e = true) :
    wiped s (R ∪ Set.Ico pr.cvaddr hi) = wiped s R := by
  funext o
  refine wiped_union fun v hv ho => ?_
  obtain ⟨e', he', hc', hpres⟩ := fileOffset_some ho
  obtain rfl := covers_unique s.sorted (hp ▸ mem_pmes h) he' (piece_covers h hhi hv) hc'
  rw [s.plain e he', hpar] at hpres
  simp at hpres

/-- Punching the present rest of an entry removes exactly its addresses. -/
theorem wiped_present_piece (hp : pr.pmes = s.pmes) (h : At pr pre e post) (hhi : hi ≤ e.stop)
    (hpres : pagemapPresent e = true) :
    wiped s (R ∪ Set.Ico pr.cvaddr hi) = wipe 0 (wiped s R) pr.piOff (hi - pr.cvaddr) := by
  have hlo := h.lo
  have hoff : pr.piOff = presentTotal pre + (pr.cvaddr - e.vaddr) := by
    have := h.piOff
    rwa [if_pos hpres] at this
  have hfile : ∀ v ∈ Set.Ico pr.cvaddr hi,
      fileOffset s.pmes v = some (pr.piOff + (v - pr.cvaddr)) := by
    intro v hv
    have hsplit : s.pmes = pre ++ e :: post := hp ▸ h.pmes
    rw [hsplit, fileOffset_split (hsplit ▸ s.sorted) (piece_covers h hhi hv) hpres]
    have := hv.1
    congr 1
    omega
  funext o
  by_cases ho : pr.piOff ≤ o ∧ o < pr.piOff + (hi - pr.cvaddr)
  · rw [wipe_inside _ _ ho.1 ho.2, wiped, if_pos]
    refine ⟨pr.cvaddr + (o - pr.piOff), Or.inr ⟨by omega, by omega⟩, ?_⟩
    rw [hfile _ ⟨by omega, by omega⟩]
    congr 1
    omega
  rw [wipe_outside _ _ ho]
  refine wiped_union fun v hv hvo => ?_
  rw [hfile v hv, Option.some.injEq] at hvo
  have := hv.1
  have := hv.2
  omega

end Piece

/-- A call of `dedup_one_iovec` on the levels removes the whole range. -/
def DedupServes (snaps : List Snapshot)
    (inner : List PageRead → ℕ → ℕ → Except Fault (List PageRead)) : Prop :=
  ∀ (prs : List PageRead) (off len : ℕ) (R : Set ℕ), Deduped R snaps prs →
    (∀ q ∈ prs, Ready q off) →
    ∃ prs', inner prs off len = .ok prs' ∧ Deduped (R ∪ Set.Ico off (off + len)) snaps prs' ∧
      ∀ q ∈ prs', Ready q (off + len)

def ahead (pmes : List PagemapEntry) (off : ℕ) : ℕ := pmes.countP (fun e => decide (off < e.stop))

theorem ahead_lt {pmes : List PagemapEntry} (he : e ∈ pmes)
    (hlt : off < e.stop) : ahead pmes e.stop < ahead pmes off := by
  induction pmes with
  | nil => simp at he
  | cons a rest ih =>
    have hmono : ahead rest e.stop ≤ ahead rest off := by
      apply countP_mono_left
      intro b _ hb
      simp only [decide_eq_true_eq] at hb ⊢
      omega
    simp only [ahead, countP_cons, decide_eq_true_eq] at ih hmono ⊢
    rcases mem_cons.mp he with rfl | he
    · rw [if_neg (lt_irrefl _), if_pos hlt]
      omega
    · have := ih he
      split_ifs <;> omega

section Loop

variable {rest : List Snapshot} {inner : List PageRead → ℕ → ℕ → Except Fault (List PageRead)}

/-- One round on an entry: the level and its parents lose the piece at the cursor. -/
theorem dedup_piece (hinner : DedupServes rest inner) {parents : List PageRead}
    {pre post : List PagemapEntry}
    (hd : Deduped R (s :: rest) (pr :: parents)) (hat : At pr pre e post) (hlo : pr.cvaddr ≤ hi)
    (hhi : hi ≤ e.stop) (hready : ∀ q ∈ parents, Ready q pr.cvaddr) :
    ∃ parents', inner parents pr.cvaddr (hi - pr.cvaddr) = .ok parents' ∧
      Deduped (R ∪ Set.Ico pr.cvaddr hi) (s :: rest)
        ((if pagemapInParent e then pr else punchHole pr pr.piOff (hi - pr.cvaddr) false) ::
          parents') ∧
      ∀ q ∈ parents', Ready q hi := by
  obtain ⟨⟨hpmes, hsize, himage⟩, hrest⟩ := hd
  obtain ⟨parents', hrun, hd', hready'⟩ := hinner parents pr.cvaddr (hi - pr.cvaddr) _ hrest hready
  rw [Nat.add_sub_cancel' hlo] at hd' hready'
  have hinter : R ∩ coverage s.pmes ∪ Set.Ico pr.cvaddr hi =
      (R ∪ Set.Ico pr.cvaddr hi) ∩ coverage s.pmes := by
    rw [Set.union_inter_distrib_right]
    congr 1
    rw [eq_comm, Set.inter_eq_left]
    intro v hv
    exact ⟨e, hpmes ▸ mem_pmes hat, piece_covers hat hhi hv⟩
  rw [hinter] at hd'
  refine ⟨parents', hrun, ⟨⟨?_, ?_, ?_⟩, hd'⟩, hready'⟩
  · split
    · exact hpmes
    · exact (punchHole_sameCursor _ _ _ _).pmes.trans hpmes
  · split
    · exact hsize
    · rw [punchHole_size, hsize]
  by_cases hpar : pagemapInParent e = true
  · rw [if_pos hpar, himage, wiped_parent_piece hpmes hat hhi hpar]
  · have hpres : pagemapPresent e = true := by
      rw [s.plain e (hpmes ▸ mem_pmes hat)]
      simpa using hpar
    rw [if_neg hpar, punchHole_effective, himage, wiped_present_piece hpmes hat hhi hpres]

/-- A failed seek: no address up to the next entry is covered. -/
theorem sought_uncovered (h : Sought off false pr) (hs : SortedMap pr.pmes) (hv : off ≤ v)
    (hlt : off < pr.cvaddr → v < pr.cvaddr) : v ∉ coverage pr.pmes := by
  have hsought : Sought v false pr := by
    cases h with
    | gap pre post e hat hpre hoff hcv =>
      refine .gap pre post e hat (fun a ha => le_trans (hpre a ha) hv) ?_ hcv
      omega
    | past pre e hat hoff hcv => exact .past pre e hat (le_trans hoff hv) hcv
    | empty hf hp => exact .empty hf hp
  rintro ⟨e, he, hc⟩
  exact hsought.not_covered hs e he hc

/-- What a seek of the loop finds: nothing up to the end of the range, or the cursor at
the next covered address. -/
theorem seek_split {iovEnd : ℕ} {ok : Bool} (h : Sought off ok pr) (hs : SortedMap pr.pmes)
    (hle : off ≤ iovEnd) :
    ((ok = false ∧ ¬ (off < pr.cvaddr ∧ pr.cvaddr < iovEnd)) ∧
      ∀ v ∈ Set.Ico off iovEnd, v ∉ coverage pr.pmes) ∨
    (¬ (ok = false ∧ ¬ (off < pr.cvaddr ∧ pr.cvaddr < iovEnd)) ∧
      (if ok then off else pr.cvaddr) = pr.cvaddr ∧
      (∀ v ∈ Set.Ico off pr.cvaddr, v ∉ coverage pr.pmes) ∧ off ≤ pr.cvaddr ∧
      pr.cvaddr ≤ iovEnd ∧ ∃ pre e post, At pr pre e post ∧ off < e.stop) := by
  cases ok with
  | true =>
    cases h with
    | found pre post e hat hc hcv =>
      exact Or.inr ⟨by simp, by simp [hcv], by simp [hcv], by omega, by omega, pre, e, post, hat,
        hc.2⟩
  | false =>
    by_cases hjump : off < pr.cvaddr ∧ pr.cvaddr < iovEnd
    · refine Or.inr ⟨by simp [hjump], by simp, ?_, by omega, by omega, ?_⟩
      · intro v hv
        exact sought_uncovered h hs hv.1 (fun _ => hv.2)
      cases h with
      | gap pre post e hat _ hlt hcv =>
        exact ⟨pre, e, post, hat, lt_of_lt_of_le hlt e.vaddr_le_stop⟩
      | past pre e hat hle' hcv => omega
      | empty hf hp =>
        have := hf.cvaddr
        omega
    · refine Or.inl ⟨⟨rfl, hjump⟩, ?_⟩
      intro v hv
      have := hv.2
      exact sought_uncovered h hs hv.1 (fun _ => by omega)

theorem Deduped.widen {lo : ℕ} (hd : Deduped R (s :: rest) (pr :: prs))
    (hno : ∀ v ∈ Set.Ico lo hi, v ∉ coverage s.pmes) :
    Deduped (R ∪ Set.Ico lo hi) (s :: rest) (pr :: prs) := by
  obtain ⟨⟨hpmes, hsize, himage⟩, hrest⟩ := hd
  have hinter : R ∩ coverage s.pmes = (R ∪ Set.Ico lo hi) ∩ coverage s.pmes := by
    rw [Set.union_inter_distrib_right, eq_comm, Set.union_eq_left]
    exact fun v hv => absurd hv.2 (hno v hv.1)
  refine ⟨⟨hpmes, hsize, himage.trans ?_⟩, hinter ▸ hrest⟩
  funext o
  refine (wiped_union fun v hv ho => ?_).symm
  obtain ⟨e, he, hc, -⟩ := fileOffset_some ho
  exact hno v hv ⟨e, he, hc⟩

/-- The loop removes the whole range from the level and its parents. -/
theorem dedupLoop_ok (hinner : DedupServes rest inner) (iovEnd fuel : ℕ) (pr : PageRead)
    (parents : List PageRead) (off : ℕ) (R : Set ℕ) (hd : Deduped R (s :: rest) (pr :: parents))
    (hready : ∀ q ∈ pr :: parents, Ready q off) (hle : off ≤ iovEnd)
    (hfuel : ahead s.pmes off < fuel) :
    ∃ pr' parents', dedupLoop inner fuel pr parents off iovEnd = .ok (pr', parents') ∧
      Deduped (R ∪ Set.Ico off iovEnd) (s :: rest) (pr' :: parents') ∧
      ∀ q ∈ pr' :: parents', Ready q iovEnd := by
  induction fuel generalizing pr parents off R with
  | zero => omega
  | succ fuel ih =>
    rw [forall_mem_cons] at hready
    have hs : SortedMap pr.pmes := hd.1.1 ▸ s.sorted
    have hsought := seekPagemap_sought hready.1
    have hsame := seek_sameFile pr off
    simp only [dedupLoop]
    set pr1 := (seekPagemap pr off).2
    have hpmes1 : pr1.pmes = s.pmes := hsame.pmes.trans hd.1.1
    have hs1 : SortedMap pr1.pmes := hsame.pmes ▸ hs
    have hd1 : Deduped R (s :: rest) (pr1 :: parents) :=
      ⟨⟨hpmes1, by rw [hsame.pi, hd.1.2.1], (effective_sameFile hsame).trans hd.1.2.2⟩, hd.2⟩
    rcases seek_split hsought hs1 hle with ⟨hstop, hno⟩ | ⟨hgo, hoff, hno, hlo, hhi, hentry⟩
    · rw [if_pos hstop]
      refine ⟨pr1, parents, rfl, hd1.widen (hpmes1 ▸ hno), ?_⟩
      rw [forall_mem_cons]
      exact ⟨hsought.ready hs1 hle, fun q hq => ready_mono (hready.2 q hq) hle⟩
    obtain ⟨pre, e, post, hat, hlt⟩ := hentry
    have hmin : pr1.cvaddr ≤ min e.stop iovEnd := le_min hat.hi hhi
    obtain ⟨parents', hrun, hd', hready'⟩ := dedup_piece hinner (hd1.widen (hpmes1 ▸ hno)) hat
      hmin (min_le_left _ _) (fun q hq => ready_mono (hready.2 q hq) hlo)
    rw [Set.union_assoc, Set.Ico_union_Ico_eq_Ico hlo hmin] at hd'
    rw [if_neg hgo]
    simp only [hoff, hat.pe, hrun]
    set pr2 := if pagemapInParent e then pr1
      else punchHole pr1 pr1.piOff (min e.stop iovEnd - pr1.cvaddr) false with hpr2
    have hcur : SameCursor pr1 pr2 := by
      rw [hpr2]
      split
      · exact .refl pr1
      · exact punchHole_sameCursor _ _ _ _
    have hready2 : Ready pr2 (min e.stop iovEnd) := hcur.ready (at_ready hs1 hat hmin)
    by_cases hmore : e.stop < iovEnd
    · rw [min_eq_left hmore.le] at hd' hready2 hready'
      obtain ⟨pr3, parents3, hrun3, hd3, hready3⟩ := ih pr2 parents' e.stop _ hd'
        (forall_mem_cons.mpr ⟨hready2, hready'⟩) hmore.le
        (lt_of_lt_of_le (ahead_lt (hpmes1 ▸ mem_pmes hat) hlt) (Nat.le_of_lt_succ hfuel))
      rw [Set.union_assoc, Set.Ico_union_Ico_eq_Ico hlt.le hmore.le] at hd3
      refine ⟨pr3, parents3, ?_, hd3, hready3⟩
      rw [if_pos hmore]
      exact hrun3
    · rw [min_eq_right (not_lt.mp hmore)] at hd' hready2 hready'
      refine ⟨pr2, parents', ?_, hd', forall_mem_cons.mpr ⟨hready2, hready'⟩⟩
      rw [if_neg hmore]

end Loop

theorem dedupOneIovec_serves (snaps : List Snapshot) :
    ∀ depth, snaps.length ≤ depth → DedupServes snaps (dedupOneIovec depth) := by
  induction snaps with
  | nil =>
    intro depth _ prs off len R hd _
    obtain rfl := length_eq_zero_iff.mp hd.length_eq.symm
    exact ⟨[], by cases depth <;> rfl, trivial, nofun⟩
  | cons s rest ih =>
    intro depth hlen prs off len R hd hready
    obtain ⟨depth, rfl⟩ := Nat.exists_eq_succ_of_ne_zero (Nat.ne_zero_of_lt hlen)
    obtain ⟨pr, parents, rfl⟩ := exists_cons_of_length_eq_add_one hd.length_eq.symm
    have hfuel : ahead s.pmes off < pr.pmes.length + 1 := by
      rw [hd.1.1]
      exact Nat.lt_succ_of_le countP_le_length
    obtain ⟨pr', parents', hrun, hd', hready'⟩ := dedupLoop_ok
      (ih depth (Nat.le_of_succ_le_succ hlen)) (off + len) _ pr parents off R hd hready (by omega)
      hfuel
    exact ⟨pr' :: parents', by simp only [dedupOneIovec, hrun], hd', hready'⟩

/-- The addresses whose pages a snapshot stores itself. -/
def own (pmes : List PagemapEntry) : Set ℕ :=
  {v | ∃ e ∈ pmes, pagemapInParent e = false ∧ e.Covers v}

theorem own_cons (e : PagemapEntry) (rest : List PagemapEntry) : own (e :: rest) =
      (if pagemapInParent e then ∅ else Set.Ico e.vaddr (e.vaddr + pagemapLen e)) ∪ own rest := by
  ext v
  cases hpar : pagemapInParent e with
  | true => simp [own, hpar]
  | false => simp [own, hpar, PagemapEntry.Covers, PagemapEntry.stop]

/-- The loop over the top snapshot hands all its own ranges to the ancestors. -/
theorem dedupEntries_ok (post : List PagemapEntry) (fuel : ℕ) (pr : PageRead)
    (parents : List PageRead) (R : Set ℕ) (v : ℕ) (hrest : pr.pmes.drop pr.nextPme = post)
    (hs : SortedMap post) (hv : ∀ e ∈ post, v ≤ e.vaddr) (hd : Deduped R snaps parents)
    (hready : ∀ q ∈ parents, Ready q v) (hfuel : post.length < fuel) :
    ∃ pr' parents', dedupEntries fuel pr parents = .ok (pr', parents') ∧ SameFile pr pr' ∧
      Deduped (R ∪ own post) snaps parents' := by
  induction post generalizing fuel pr parents R v with
  | nil =>
    obtain ⟨fuel, rfl⟩ := Nat.exists_eq_succ_of_ne_zero (Nat.ne_of_gt hfuel)
    have hadv := advance_of_rest_nil hrest
    refine ⟨_, parents, ?_, advance_sameFile pr, ?_⟩
    · simp [dedupEntries, hadv]
    · simpa [own] using hd
  | cons e post ih =>
    obtain ⟨fuel, rfl⟩ := Nat.exists_eq_succ_of_ne_zero (Nat.ne_of_gt (Nat.zero_lt_of_lt hfuel))
    have hadv := advance_of_rest_cons hrest
    have hsame := advance_sameFile pr
    have hrest' : (advance pr).2.pmes.drop (advance pr).2.nextPme = post := by
      rw [hadv]
      exact drop_succ_of_cons hrest
    have hnext : ∀ e' ∈ post, e.stop ≤ e'.vaddr := (pairwise_cons.mp hs).1
    have hs' : SortedMap post := (pairwise_cons.mp hs).2
    have hev : v ≤ e.vaddr := hv e mem_cons_self
    have hfuel' : post.length < fuel := by simpa using hfuel
    have htrue : (advance pr).1 = true := by rw [hadv]
    have hpe : (advance pr).2.pe = some e := by rw [hadv]
    cases hpar : pagemapInParent e with
    | true =>
      obtain ⟨pr', parents', hrun, hsame', hd'⟩ :=
        ih fuel (advance pr).2 parents R e.stop hrest' hs'
        hnext hd (fun q hq => ready_mono (hready q hq) (le_trans hev e.vaddr_le_stop)) hfuel'
      refine ⟨pr', parents', ?_, hsame.trans hsame', ?_⟩
      · simp only [dedupEntries, htrue, hpe, hpar, if_true, Bool.true_eq_false, if_false, hrun]
      · rwa [own_cons, hpar, if_pos rfl, Set.empty_union]
    | false =>
      obtain ⟨parents1, hrun1, hd1, hready1⟩ := dedupOneIovec_serves snaps parents.length
        (le_of_eq hd.length_eq) parents e.vaddr (pagemapLen e) R hd
        (fun q hq => ready_mono (hready q hq) hev)
      obtain ⟨pr', parents', hrun, hsame', hd'⟩ := ih fuel (advance pr).2 parents1 _ e.stop hrest'
        hs' hnext hd1 hready1 hfuel'
      refine ⟨pr', parents', ?_, hsame.trans hsame', ?_⟩
      · simp only [dedupEntries, htrue, hpe, hpar, hrun1, hrun, Bool.true_eq_false,
          Bool.false_eq_true, if_false]
      · rwa [own_cons, hpar, ← Set.union_assoc]

/-- The snapshot without the bytes of the addresses in `R`. -/
noncomputable def without (s : Snapshot) (R : Set ℕ) : Snapshot :=
  { s with pages := ⟨wiped s R, s.pages.size⟩, size_eq := s.size_eq }

/-- The ancestors once the addresses in `R` are removed from them. -/
noncomputable def dedupedChain : Set ℕ → List Snapshot → List Snapshot
  | _, [] => []
  | R, s :: rest => without s R :: dedupedChain (R ∩ coverage s.pmes) rest

theorem closePageRead_pi (pr : PageRead) : (closePageRead pr).pi = ⟨effective pr, pr.pi.size⟩ := by
  have hsize : (closePageRead pr).pi.size = pr.pi.size := by
    unfold closePageRead
    split
    · exact punchHole_size ..
    · rfl
  rw [← closePageRead_data, ← hsize]

theorem images_of_deduped : ∀ {R snaps prs}, Deduped R snaps prs →
    prs.map (fun q => (closePageRead q).pi) = images (dedupedChain R snaps)
  | _, [], [], _ => rfl
  | _, s :: rest, pr :: prs, hd => by
    obtain ⟨⟨-, hsize, himage⟩, hrest⟩ := hd
    have htail := images_of_deduped hrest
    simp only [images, dedupedChain, map_cons] at htail ⊢
    rw [htail, closePageRead_pi, hsize, himage]
    rfl

theorem openChain_deduped (snaps : List Snapshot) : Deduped ∅ snaps (openChain snaps) := by
  induction snaps with
  | nil => trivial
  | cons s rest ih =>
    refine ⟨⟨rfl, rfl, ?_⟩, ?_⟩
    · funext o
      simp [effective, openPageRead, wipe_zero, wiped]
    · rw [Set.empty_inter]
      exact ih

theorem dedupedChain_at (s : Snapshot) (tail : List Snapshot) (mids : List Snapshot) :
    ∀ R : Set ℕ, (dedupedChain R (mids ++ s :: tail))[mids.length]? =
      some (without s (R ∩ {v | ∀ m ∈ mids, v ∈ coverage m.pmes})) := by
  induction mids with
  | nil =>
    simp [dedupedChain]
  | cons m mids ih =>
    intro R
    have hset : R ∩ coverage m.pmes ∩ {v | ∀ m' ∈ mids, v ∈ coverage m'.pmes} =
        R ∩ {v | ∀ m' ∈ m :: mids, v ∈ coverage m'.pmes} := by
      ext v
      simp [and_assoc]
    simp only [cons_append, dedupedChain, length_cons, getElem?_cons_succ, ih, hset]

theorem dedupedChain_length (snaps : List Snapshot) (R : Set ℕ) :
    (dedupedChain R snaps).length = snaps.length := by
  induction snaps generalizing R with
  | nil => rfl
  | cons s rest ih => simp [dedupedChain, ih]

/-- Addresses outside `R` are read as before. -/
theorem overlay_dedupedChain (snaps : List Snapshot) (hv : v ∉ R) :
    overlay (dedupedChain R snaps) v = overlay snaps v := by
  induction snaps generalizing R with
  | nil => rfl
  | cons s rest ih =>
    have htail := ih (R := R ∩ coverage s.pmes) (fun h => hv h.1)
    simp only [dedupedChain, overlay, without, htail]
    cases hentry : entryAt s.pmes v with
    | none => rfl
    | some e =>
      cases hoff : fileOffset s.pmes v with
      | none => rfl
      | some o =>
        have hkeep : wiped s R o = s.pages.data o := by
          apply if_neg
          rintro ⟨v', hv', ho⟩
          exact hv (fileOffset_inj hoff ho ▸ hv')
        simp only [Option.map_some, hkeep]

/-- Removing from the ancestors what the top snapshot stores itself changes no read. -/
theorem overlay_dedup (top : Snapshot) (rest : List Snapshot) (v : ℕ) :
    overlay (top :: dedupedChain (own top.pmes) rest) v = overlay (top :: rest) v := by
  simp only [overlay]
  cases hentry : entryAt top.pmes v with
  | none => rfl
  | some e =>
    cases hpres : pagemapPresent e with
    | true => simp only [hpres, if_true]
    | false =>
      have he : e ∈ top.pmes := mem_of_find?_eq_some hentry
      have hc : e.Covers v := by simpa using find?_some hentry
      have hv : v ∉ own top.pmes := by
        rintro ⟨e', he', hpar, hc'⟩
        obtain rfl := covers_unique top.sorted he he' hc hc'
        rw [top.plain e he, hpar] at hpres
        simp at hpres
      simp only [hpres]
      exact overlay_dedupedChain rest hv

/-- Deduplication succeeds. In the image of an ancestor it zeroes exactly the bytes of the
addresses that the top snapshot stores itself and every level between has an entry for, and
every address reads as before. -/
theorem dedup_keeps_restore (top : Snapshot) (rest : List Snapshot) :
    ∃ rest', crDedupOnePagemap (openChain (top :: rest)) = .ok (images (top :: rest')) ∧
      rest'.length = rest.length ∧
      (∀ mids s tail, rest = mids ++ s :: tail →
        ∃ s', rest'[mids.length]? = some s' ∧ s'.pmes = s.pmes ∧ ∀ o,
          ((∃ v ∈ own top.pmes, (∀ m ∈ mids, v ∈ coverage m.pmes) ∧
            fileOffset s.pmes v = some o) → s'.pages.data o = 0) ∧
          (¬ (∃ v ∈ own top.pmes, (∀ m ∈ mids, v ∈ coverage m.pmes) ∧
            fileOffset s.pmes v = some o) → s'.pages.data o = s.pages.data o)) ∧
      ∀ v, overlay (top :: rest') v = overlay (top :: rest) v := by
  refine ⟨dedupedChain (own top.pmes) rest, ?_, dedupedChain_length _ _, ?_, overlay_dedup top rest⟩
  · obtain ⟨pr', parents', hrun, hsame, hd⟩ := dedupEntries_ok top.pmes (top.pmes.length + 1)
      (openPageRead top.pmes top.pages) (openChain rest) ∅ 0 rfl top.sorted
      (fun _ _ => Nat.zero_le _) (openChain_deduped rest)
      (by
        intro q hq
        obtain ⟨t, -, rfl⟩ := mem_map.mp hq
        exact .fresh (openPageRead_fresh _ _))
      (Nat.lt_succ_self _)
    rw [Set.empty_union] at hd
    have htop : (closePageRead pr').pi = top.pages := by
      simp [closePageRead, hsame.bunch, hsame.pi, openPageRead]
    have hrun' : dedupEntries ((openPageRead top.pmes top.pages).pmes.length + 1)
        (openPageRead top.pmes top.pages) (openChain rest) = .ok (pr', parents') := hrun
    have hchain : openChain (top :: rest) = openPageRead top.pmes top.pages :: openChain rest := rfl
    rw [hchain]
    simp only [crDedupOnePagemap, hrun', map_cons, htop, images_of_deduped hd]
    rfl
  · rintro mids s tail rfl
    refine ⟨_, dedupedChain_at s tail mids _, rfl, ?_⟩
    intro o
    have hiff : (∃ v ∈ own top.pmes ∩ {v | ∀ m ∈ mids, v ∈ coverage m.pmes},
        fileOffset s.pmes v = some o) ↔ ∃ v ∈ own top.pmes, (∀ m ∈ mids, v ∈ coverage m.pmes) ∧
          fileOffset s.pmes v = some o := by
      simp [and_assoc]
    exact ⟨fun h => if_pos (hiff.mpr h), fun h => if_neg (fun h' => h (hiff.mp h'))⟩

/-- A snapshot of the single page with number `k`, filled with `b`. -/
def lonePage (k : ℕ) (b : UInt8) : Snapshot where
  pmes := [⟨k * pageSize, 1, pePresent⟩]
  pages := ⟨fun _ => b, pageSize⟩
  sorted := pairwise_singleton _ _
  plain := by simp [PagemapEntry.Plain, pagemapPresent, pagemapInParent, pePresent, peParent]
  aligned := by
    intro e he
    rw [mem_singleton.mp he]
    exact Nat.dvd_mul_left ..
  bounded := by simp
  size_eq := by
    simp [presentTotal, PagemapEntry.presentLen, pagemapPresent, pagemapLen, pePresent]

/-- The page of the last level is overridden by the top, but the level between has no entry
for it, so the page stays in the image. -/
theorem gap_stops_dedup :
    (∃ e ∈ (lonePage 1 7).pmes, pagemapInParent e = false ∧ e.Covers 0x1000) ∧
    fileOffset (lonePage 1 5).pmes 0x1000 = some 0 ∧
    ∃ imgs, crDedupOnePagemap (openChain [lonePage 1 7, lonePage 2 6, lonePage 1 5]) = .ok imgs ∧
      (imgs[2]?.map fun img => img.data 0) = some 5 := by
  refine ⟨⟨_, mem_cons_self .., rfl, by decide⟩, rfl, _, rfl, rfl⟩

end Criu.Dedup

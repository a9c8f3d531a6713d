import Criu.Pagemap

/-!
The reading cursor of one `page_read` (criu/pagemap.c): the current entry, the
address reached in it and the offset reached in the pages image. It is moved by
`advance`, `skip_pagemap_pages` and `seek_pagemap`. On a sorted pagemap the
offset counts exactly the present bytes before the address; `At` states this and
`seekPagemap_sought` says where a seek leaves the cursor.
-/

namespace Criu.ReadCursor

open Pagemap List

variable {v : ℕ}

structure Iovec where
  base : ℕ
  len : ℕ
deriving DecidableEq, Repr

/-- One job for preadv: a range of the pages image and its destinations. -/
structure PageReadIov where
  start : ℕ
  stop : ℕ
  iovs : List Iovec
deriving DecidableEq, Repr

structure PagesImage where
  data : ℕ → UInt8
  size : ℕ

/-- `nextPme` is `curr_pme + 1`: the number of entries advanced to. -/
structure PageRead where
  pmes : List PagemapEntry
  nextPme : ℕ
  pe : Option PagemapEntry
  cvaddr : ℕ
  piOff : ℕ
  pi : PagesImage
  bunch : Iovec
  async : List PageReadIov

variable {pr : PageRead}

/-- The state `open_page_read_at` leaves. -/
def openPageRead (pmes : List PagemapEntry) (pi : PagesImage) : PageRead :=
  ⟨pmes, 0, none, 0, 0, pi, ⟨0, 0⟩, []⟩

def resetPagemap (pr : PageRead) : PageRead :=
  { pr with cvaddr := 0, piOff := 0, nextPme := 0, pe := none }

def advance (pr : PageRead) : Bool × PageRead :=
  match pr.pmes[pr.nextPme]? with
  | none => (false, { pr with nextPme := pr.nextPme + 1 })
  | some pe => (true, { pr with nextPme := pr.nextPme + 1, pe := some pe, cvaddr := pe.vaddr })

/-- The entry is `*pr->pe`, which the callers know to be set. -/
def skipPagemapPages (pr : PageRead) (pe : PagemapEntry) (len : ℕ) : PageRead :=
  { pr with
    piOff := if pagemapPresent pe then pr.piOff + len else pr.piOff
    cvaddr := pr.cvaddr + len }

inductive SeekStep where
  | stop
  | found (pr : PageRead)
  | next (pr : PageRead)

/-- The body of the `do ... while (advance(pr))` loop of `seek_pagemap`. -/
def seekBody (pr : PageRead) (vaddr : ℕ) : SeekStep :=
  match pr.pe with
  | none => .next pr
  | some pe =>
      if vaddr < pr.cvaddr then .stop
      else if pe.vaddr ≤ vaddr ∧ vaddr < pe.stop then
        .found (skipPagemapPages pr pe (vaddr - pr.cvaddr))
      else if pe.stop ≤ vaddr then .next (skipPagemapPages pr pe (pe.stop - pr.cvaddr))
      else .next pr

def seekLoop (vaddr : ℕ) : ℕ → PageRead → Bool × PageRead
  | 0, pr => (false, pr)
  | fuel + 1, pr =>
      match seekBody pr vaddr with
      | .stop => (false, pr)
      | .found pr' => (true, pr')
      | .next pr' =>
          if (advance pr').1 then seekLoop vaddr fuel (advance pr').2
          else (false, (advance pr').2)

/-- Each round but the first visits a new entry, so the fuel is never used up. -/
def seekPagemap (pr : PageRead) (vaddr : ℕ) : Bool × PageRead :=
  seekLoop vaddr (pr.pmes.length + 1) pr

structure SameFile (pr pr' : PageRead) : Prop where
  pmes : pr'.pmes = pr.pmes
  pi : pr'.pi = pr.pi
  bunch : pr'.bunch = pr.bunch
  async : pr'.async = pr.async

namespace SameFile

theorem refl (pr : PageRead) : SameFile pr pr := ⟨rfl, rfl, rfl, rfl⟩

theorem trans {a b c : PageRead} (h : SameFile a b) (h' : SameFile b c) : SameFile a c :=
  ⟨h'.pmes.trans h.pmes, h'.pi.trans h.pi, h'.bunch.trans h.bunch, h'.async.trans h.async⟩

end SameFile

variable {pre : List PagemapEntry} {e : PagemapEntry}

theorem advance_sameFile (pr : PageRead) : SameFile pr (advance pr).2 := by
  unfold advance
  split <;> exact ⟨rfl, rfl, rfl, rfl⟩

theorem skip_sameFile (pr : PageRead) (pe : PagemapEntry) (len : ℕ) :
    SameFile pr (skipPagemapPages pr pe len) := ⟨rfl, rfl, rfl, rfl⟩

theorem advance_piOff (pr : PageRead) : (advance pr).2.piOff = pr.piOff := by
  unfold advance
  split <;> rfl

theorem skip_piOff_le (pr : PageRead) (pe : PagemapEntry) (len : ℕ) :
    pr.piOff ≤ (skipPagemapPages pr pe len).piOff := by
  simp only [skipPagemapPages]
  split <;> omega

/-- What skipping and advancing keep, a seek keeps. -/
theorem seek_invariant {P : PageRead → Prop}
    (hskip : ∀ pr pe len, P pr → P (skipPagemapPages pr pe len))
    (hadvance : ∀ pr, P pr → P (advance pr).2) {pr : PageRead} (v : ℕ) (h : P pr) :
    P (seekPagemap pr v).2 := by
  unfold seekPagemap
  generalize pr.pmes.length + 1 = fuel
  induction fuel generalizing pr with
  | zero => exact h
  | succ fuel ih =>
    have hbody : ∀ {q}, seekBody pr v = .found q ∨ seekBody pr v = .next q → P q := by
      intro q hq
      unfold seekBody at hq
      split at hq
      · simp only [reduceCtorEq, SeekStep.next.injEq, false_or] at hq
        exact hq ▸ h
      · split_ifs at hq <;>
          simp only [SeekStep.next.injEq, SeekStep.found.injEq, false_or, or_false] at hq
        · exact hq ▸ hskip _ _ _ h
        · exact hq ▸ hskip _ _ _ h
        · exact hq ▸ h
    rw [seekLoop]
    split
    · exact h
    · exact hbody (Or.inl ‹_›)
    · have hnext := hadvance _ (hbody (Or.inr ‹_›))
      split
      · exact ih hnext
      · exact hnext

theorem seekPagemap_piOff_le (pr : PageRead) (v : ℕ) : pr.piOff ≤ (seekPagemap pr v).2.piOff :=
  seek_invariant (P := fun q => pr.piOff ≤ q.piOff) (fun _ _ _ h => le_trans h (skip_piOff_le ..))
    (fun q h => (advance_piOff q).symm ▸ h) v (le_refl _)

theorem seek_sameFile (pr : PageRead) (v : ℕ) : SameFile pr (seekPagemap pr v).2 :=
  seek_invariant (fun _ _ _ h => h.trans (skip_sameFile ..))
    (fun _ h => h.trans (advance_sameFile _)) v (.refl pr)

/-- The cursor before the first `advance`. -/
structure Fresh (pr : PageRead) : Prop where
  pe : pr.pe = none
  rest : pr.pmes.drop pr.nextPme = pr.pmes
  cvaddr : pr.cvaddr = 0
  piOff : pr.piOff = 0

/-- The cursor stands in the entry `e`, after the entries `pre` and before `post`,
and the image offset counts the present bytes passed so far. -/
structure At (pr : PageRead) (pre : List PagemapEntry) (e : PagemapEntry)
    (post : List PagemapEntry) : Prop where
  pmes : pr.pmes = pre ++ e :: post
  pe : pr.pe = some e
  rest : pr.pmes.drop pr.nextPme = post
  lo : e.vaddr ≤ pr.cvaddr
  hi : pr.cvaddr ≤ e.stop
  piOff : pr.piOff = presentTotal pre +
    if pagemapPresent e then pr.cvaddr - e.vaddr else 0

variable {post : List PagemapEntry}

theorem At.piOff_le (h : At pr pre e post) : pr.piOff ≤ presentTotal pr.pmes := by
  have hhi := h.hi
  rw [h.piOff, h.pmes, presentTotal_append, presentTotal_cons, PagemapEntry.presentLen]
  simp only [PagemapEntry.stop] at hhi
  split <;> omega

theorem openPageRead_fresh (pmes : List PagemapEntry) (pi : PagesImage) :
    Fresh (openPageRead pmes pi) := ⟨rfl, rfl, rfl, rfl⟩

theorem advance_of_rest_nil (h : pr.pmes.drop pr.nextPme = []) :
    advance pr = (false, { pr with nextPme := pr.nextPme + 1 }) := by
  have hnone : pr.pmes[pr.nextPme]? = none := by
    rw [List.getElem?_eq_none_iff]
    exact drop_eq_nil_iff.mp h
  simp [advance, hnone]

theorem advance_of_rest_cons (h : pr.pmes.drop pr.nextPme = e :: post) : advance pr = (true,
      { pr with nextPme := pr.nextPme + 1, pe := some e, cvaddr := e.vaddr }) := by
  have hsome : pr.pmes[pr.nextPme]? = some e := by
    rw [← head?_drop, h]
    rfl
  simp [advance, hsome]

theorem drop_succ_of_cons {pmes : List PagemapEntry} {n : ℕ} (h : pmes.drop n = e :: post) :
    pmes.drop (n + 1) = post := by
  rw [← drop_drop, h]
  rfl

/-- Advancing a fresh cursor enters the first entry. -/
theorem advance_fresh (h : Fresh pr) (hp : pr.pmes = e :: post) :
    (advance pr).1 = true ∧ At (advance pr).2 [] e post ∧ (advance pr).2.cvaddr = e.vaddr := by
  have hrest : pr.pmes.drop pr.nextPme = e :: post := h.rest.trans hp
  rw [advance_of_rest_cons hrest]
  refine ⟨rfl, ⟨hp, rfl, drop_succ_of_cons hrest, le_refl _, e.vaddr_le_stop, ?_⟩, rfl⟩
  simp [h.piOff, presentTotal]

/-- Advancing past an entry keeps the offset right if its pages in the image are consumed. -/
theorem advance_at {e' : PagemapEntry} (h : At pr pre e (e' :: post))
    (hend : pagemapPresent e = true → pr.cvaddr = e.stop) :
    (advance pr).1 = true ∧ At (advance pr).2 (pre ++ [e]) e' post ∧
      (advance pr).2.cvaddr = e'.vaddr := by
  rw [advance_of_rest_cons h.rest]
  refine ⟨rfl, ⟨?_, rfl, drop_succ_of_cons h.rest, le_refl _, e'.vaddr_le_stop, ?_⟩, rfl⟩
  · simp [h.pmes]
  · have hoff : pr.piOff = presentTotal pre + e.presentLen := by
      rw [h.piOff, PagemapEntry.presentLen]
      split
      · rw [hend ‹_›, PagemapEntry.stop, Nat.add_sub_cancel_left]
      · rfl
    simp [hoff, presentTotal]

theorem advance_last (h : At pr pre e []) : (advance pr).1 = false ∧ At (advance pr).2 pre e [] ∧
      (advance pr).2.cvaddr = pr.cvaddr := by
  rw [advance_of_rest_nil h.rest]
  refine ⟨rfl, { h with rest := ?_ }, rfl⟩
  rw [← drop_drop, h.rest]
  rfl

/-- Skipping inside the entry keeps the cursor invariant. -/
theorem skip_at (h : At pr pre e post) {len : ℕ} (hlen : pr.cvaddr + len ≤ e.stop) :
    At (skipPagemapPages pr e len) pre e post := by
  refine ⟨h.pmes, h.pe, h.rest, ?_, hlen, ?_⟩
  · have := h.lo
    simp only [skipPagemapPages]
    omega
  have hlo := h.lo
  have hoff := h.piOff
  simp only [skipPagemapPages]
  by_cases hp : pagemapPresent e = true
  · simp only [hp, if_true] at hoff ⊢
    omega
  · simp only [hp] at hoff ⊢
    simpa using hoff

/-- The cursor has not passed any page at or after `v`. -/
inductive Ready (pr : PageRead) (v : ℕ) : Prop
  | fresh (h : Fresh pr)
  | inside (pre post : List PagemapEntry) (e : PagemapEntry) (h : At pr pre e post)
      (hpre : ∀ a ∈ pre, a.stop ≤ v) (hcv : pr.cvaddr ≤ v ∨ pr.cvaddr = e.vaddr)

/-- Where a seek for `v` leaves the cursor. -/
inductive Sought (v : ℕ) : Bool → PageRead → Prop
  | found {pr : PageRead} (pre post : List PagemapEntry) (e : PagemapEntry)
      (h : At pr pre e post) (hc : e.Covers v) (hcv : pr.cvaddr = v) : Sought v true pr
  | gap {pr : PageRead} (pre post : List PagemapEntry) (e : PagemapEntry)
      (h : At pr pre e post) (hpre : ∀ a ∈ pre, a.stop ≤ v) (hv : v < e.vaddr)
      (hcv : pr.cvaddr = e.vaddr) : Sought v false pr
  | past {pr : PageRead} (pre : List PagemapEntry) (e : PagemapEntry)
      (h : At pr pre e []) (hv : e.stop ≤ v) (hcv : pr.cvaddr = e.stop) : Sought v false pr
  | empty {pr : PageRead} (h : Fresh pr) (hp : pr.pmes = []) : Sought v false pr

theorem stop_le_of_pre (hs : SortedMap (pre ++ e :: post)) : ∀ a ∈ pre, a.stop ≤ e.vaddr := by
  intro a ha
  exact (pairwise_append.mp hs).2.2 a ha e mem_cons_self

/-- The loop stops at an entry that ends after the page. -/
private theorem seekLoop_stop (h : At pr pre e post) (hpre : ∀ a ∈ pre, a.stop ≤ v)
    (hcv : pr.cvaddr ≤ v ∨ pr.cvaddr = e.vaddr) (hin : v < e.stop) (fuel : ℕ) :
    Sought v (seekLoop v (fuel + 1) pr).1 (seekLoop v (fuel + 1) pr).2 := by
  by_cases hlt : v < pr.cvaddr
  · have he : pr.cvaddr = e.vaddr := by omega
    have hres : seekLoop v (fuel + 1) pr = (false, pr) := by
      simp [seekLoop, seekBody, h.pe, hlt]
    rw [hres]
    exact .gap pre post e h hpre (by omega) he
  have hlo := h.lo
  have hres : seekLoop v (fuel + 1) pr = (true, skipPagemapPages pr e (v - pr.cvaddr)) := by
    have hge : e.vaddr ≤ v := by omega
    simp [seekLoop, seekBody, h.pe, hlt, hin, hge]
  rw [hres]
  refine .found pre post e (skip_at h (by omega)) ⟨by omega, hin⟩ ?_
  simp only [skipPagemapPages]
  omega

/-- At an entry that ends before the page the loop goes to its end and advances. -/
private theorem seekLoop_past (h : At pr pre e post) (hv : e.stop ≤ v) (fuel : ℕ) :
    ∃ pr', At pr' pre e post ∧ pr'.cvaddr = e.stop ∧
      seekLoop v (fuel + 1) pr =
        if (advance pr').1 then seekLoop v fuel (advance pr').2 else (false, (advance pr').2) := by
  have hhi := h.hi
  have hlt : ¬ v < pr.cvaddr := by omega
  have hnot : ¬ (e.vaddr ≤ v ∧ v < e.stop) := by omega
  refine ⟨skipPagemapPages pr e (e.stop - pr.cvaddr), skip_at h (by omega), ?_, ?_⟩
  · simp only [skipPagemapPages]
    omega
  · simp [seekLoop, seekBody, h.pe, hlt, hv, hnot]

private theorem seekLoop_at (h : At pr pre e post)
    (hpre : ∀ a ∈ pre, a.stop ≤ v) (hcv : pr.cvaddr ≤ v ∨ pr.cvaddr = e.vaddr) {fuel : ℕ}
    (hfuel : post.length < fuel) :
    Sought v (seekLoop v fuel pr).1 (seekLoop v fuel pr).2 := by
  induction fuel generalizing pr pre e post with
  | zero => omega
  | succ fuel ih =>
    by_cases hin : v < e.stop
    · exact seekLoop_stop h hpre hcv hin fuel
    obtain ⟨pr', hskip, hend, hres⟩ := seekLoop_past h (not_lt.mp hin) fuel
    rw [hres]
    cases post with
    | nil =>
      obtain ⟨hadv, hat, hcv'⟩ := advance_last hskip
      rw [hadv]
      exact .past pre e hat (not_lt.mp hin) (hcv'.trans hend)
    | cons e' post =>
      obtain ⟨hadv, hat, hcv'⟩ := advance_at hskip fun _ => hend
      have hpre' : ∀ a ∈ pre ++ [e], a.stop ≤ v :=
        forall_mem_append.mpr ⟨hpre, forall_mem_singleton.mpr (not_lt.mp hin)⟩
      rw [if_pos hadv]
      exact ih hat hpre' (Or.inr hcv') (by simpa using hfuel)

/-- On a sorted pagemap a seek that does not go back lands on the page, or reports
that no entry covers it and stops at the next entry. -/
theorem seekPagemap_sought (h : Ready pr v) :
    Sought v (seekPagemap pr v).1 (seekPagemap pr v).2 := by
  unfold seekPagemap
  cases h with
  | inside pre post e h hpre hcv =>
    apply seekLoop_at h hpre hcv
    simp [h.pmes]
    omega
  | fresh h =>
    cases hp : pr.pmes with
    | nil =>
      have hrest : pr.pmes.drop pr.nextPme = [] := h.rest.trans hp
      have hres : seekLoop v (([] : List PagemapEntry).length + 1) pr =
          (false, { pr with nextPme := pr.nextPme + 1 }) := by
        simp [seekLoop, seekBody, h.pe, advance_of_rest_nil hrest]
      rw [hres]
      exact .empty ⟨h.pe, by simp [hp], h.cvaddr, h.piOff⟩ hp
    | cons e post =>
      obtain ⟨hadv, hat, hcv⟩ := advance_fresh h hp
      have hres : seekLoop v ((e :: post).length + 1) pr =
          seekLoop v (e :: post).length (advance pr).2 := by
        simp [seekLoop, seekBody, h.pe, hadv]
      rw [hres]
      exact seekLoop_at hat (by simp) (Or.inr hcv) (Nat.lt_succ_self post.length)

theorem mem_pmes (h : At pr pre e post) : e ∈ pr.pmes := by
  rw [h.pmes]
  simp

theorem at_ready (hs : SortedMap pr.pmes) (h : At pr pre e post) (hcv : pr.cvaddr ≤ v) :
    Ready pr v := by
  refine .inside pre post e h ?_ (Or.inl hcv)
  intro a ha
  have := stop_le_of_pre (h.pmes ▸ hs) a ha
  have := h.lo
  omega

theorem ready_mono {v' : ℕ} (h : Ready pr v) (hle : v ≤ v') : Ready pr v' := by
  cases h with
  | fresh h => exact .fresh h
  | inside pre post e h hpre hcv =>
    refine .inside pre post e h (fun a ha => le_trans (hpre a ha) hle) ?_
    rcases hcv with hcv | hcv
    · exact Or.inl (le_trans hcv hle)
    · exact Or.inr hcv

namespace Sought

variable {v' : ℕ} {ok : Bool}

/-- After a seek the cursor is ready for every later address. -/
theorem ready (h : Sought v ok pr) (hs : SortedMap pr.pmes) (hv : v ≤ v') : Ready pr v' := by
  cases h with
  | found pre post e h hc hcv => exact at_ready hs h (by omega)
  | gap pre post e h hpre hv' hcv =>
    refine .inside pre post e h ?_ (Or.inr hcv)
    intro a ha
    exact le_trans (hpre a ha) hv
  | past pre e h hv' hcv => exact at_ready hs h (by omega)
  | empty h hp => exact .fresh h

/-- A failed seek means that no entry covers the address. -/
theorem not_covered (h : Sought v false pr) (hs : SortedMap pr.pmes) :
    ∀ a ∈ pr.pmes, ¬ a.Covers v := by
  cases h with
  | gap pre post e h hpre hv hcv =>
    rw [h.pmes] at hs ⊢
    have hlen := e.vaddr_le_stop
    rw [forall_mem_append, forall_mem_cons]
    refine ⟨fun a ha hc => ?_, fun hc => ?_, fun a ha hc => ?_⟩
    · have := hpre a ha
      have := hc.2
      omega
    · have := hc.1
      omega
    · have := (pairwise_cons.mp (pairwise_append.mp hs).2.1).1 a ha
      have := hc.1
      omega
  | past pre e h hv hcv =>
    rw [h.pmes] at hs ⊢
    refine forall_mem_append.mpr ⟨fun a ha hc => ?_, forall_mem_singleton.mpr fun hc => ?_⟩
    · have := stop_le_of_pre hs a ha
      have := e.vaddr_le_stop
      have := hc.2
      omega
    · have := hc.2
      omega
  | empty h hp => simp [hp]

end Sought

theorem seekPagemap_found (hs : SortedMap pr.pmes) (h : Ready pr v)
    (hcov : ∃ e ∈ pr.pmes, e.Covers v) :
    (seekPagemap pr v).1 = true ∧ ∃ pre e post,
      At (seekPagemap pr v).2 pre e post ∧ e.Covers v ∧ (seekPagemap pr v).2.cvaddr = v := by
  have hsought := seekPagemap_sought h
  have hsame := seek_sameFile pr v
  cases hok : (seekPagemap pr v).1 with
  | true =>
    rw [hok] at hsought
    cases hsought with
    | found pre post e h hc hcv => exact ⟨rfl, pre, e, post, h, hc, hcv⟩
  | false =>
    rw [hok] at hsought
    obtain ⟨e, he, hc⟩ := hcov
    exact False.elim (hsought.not_covered (hsame.pmes ▸ hs) e (hsame.pmes ▸ he) hc)

end Criu.ReadCursor

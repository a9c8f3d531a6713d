import Mathlib.Data.List.Pairwise
import Criu.Lib.AddressSpace
import Criu.Premap

/-!
The restorer moves the premapped VMAs to their final addresses (criu/pie/restorer.c). VMAs that go
down are moved in ascending order up to the first one that goes up, then those that go up are moved
in descending order down to the first one that goes down. In the address space of the model every
byte is marked with the address it was premapped at.
-/

namespace Criu.ShiftVmas

open AddressSpace Pagemap Premap List

variable {vmas es done : List VmaEntry} {e u w : VmaEntry} {a b : ℕ}

inductive Cell
  | fresh
  | byte (addr : ℕ)
deriving DecidableEq

variable {s : Space Cell} {k : Placement Cell}

/-- A difference of two addresses in an `unsigned long`. -/
def sub64 (a b : ℕ) : ℕ := (a + 2 ^ 64 - b) % 2 ^ 64

instance (s : Space Cell) (a n : ℕ) : Decidable (Free s a n) :=
  decidable_of_iff (∀ i < n, s (a + i) = none) <| by
    constructor
    · intro h x hlo hhi
      have := h (x - a) (by omega)
      rwa [Nat.add_sub_cancel' hlo] at this
    · intro h i hi
      exact h (a + i) (by omega) (by omega)

/-- The page that is kept in use while a VMA that overlaps its goal is out of the way; 0 is for no
such page. -/
def guardPage (e : VmaEntry) : ℕ :=
  if sub64 e.shmid e.start < vmaEntryLen e then e.start
  else if sub64 e.start e.shmid < vmaEntryLen e then e.start + vmaEntryLen e - pageSize
  else 0

/-- `vma_remap`. The guard page is asked for by a hint, and a page elsewhere is refused. -/
def vmaRemap (k : Placement Cell) (s : Space Cell) (e : VmaEntry) : Option (Space Cell) :=
  let len := vmaEntryLen e
  let guard := guardPage e
  if e.shmid = e.start then some s
  else if guard ≠ 0 then
    if Free s guard pageSize then
      let s₁ := mapNew .fresh s guard pageSize
      let addr := k.place s₁ len
      (mremap (mapNew .fresh s₁ addr len) e.shmid len addr).bind fun s₂ =>
        mremap s₂ addr len e.start
    else none
  else mremap s e.shmid len e.start

/-- One of the two loops over the VMAs: which premapped VMAs are passed over, and which one ends
the loop. -/
def shiftLoop (k : Placement Cell) (skip halt : VmaEntry → Bool) :
    List VmaEntry → Space Cell → Option (Space Cell)
  | [], s => some s
  | e :: es, s =>
      if !e.premmaped || skip e then shiftLoop k skip halt es s
      else if halt e then some s
      else (vmaRemap k s e).bind (shiftLoop k skip halt es)

def shiftLeft (k : Placement Cell) (taskSize : ℕ) (vmas : List VmaEntry) :
    Space Cell → Option (Space Cell) :=
  shiftLoop k (fun e => taskSize ≤ e.stop) (fun e => e.shmid < e.start) vmas

def shiftRight (k : Placement Cell) (taskSize : ℕ) (vmas : List VmaEntry) :
    Space Cell → Option (Space Cell) :=
  shiftLoop k (fun e => taskSize < e.start) (fun e => e.start < e.shmid) vmas.reverse

def shiftVmas (k : Placement Cell) (taskSize : ℕ) (vmas : List VmaEntry) (s : Space Cell) :
    Option (Space Cell) :=
  (shiftLeft k taskSize vmas s).bind (shiftRight k taskSize vmas)

def premappedSpace (vmas : List VmaEntry) : Space Cell := fun x =>
  if ∃ e ∈ vmas, e.premmaped = true ∧ e.shmid ≤ x ∧ x < e.shmid + vmaEntryLen e then
    some (.byte x)
  else none

section Remap

/-- A VMA at address 0 whose guard page has the address that is taken for no guard page. -/
def ZeroGuard (e : VmaEntry) : Prop := e.start = 0 ∧ 0 < e.shmid ∧ e.shmid < vmaEntryLen e

structure Movable (e : VmaEntry) : Prop where
  start_lt : e.start < e.stop
  stop_lt : e.stop < 2 ^ 64
  shmid_le : e.shmid + vmaEntryLen e ≤ 2 ^ 64
  start_aligned : pageSize ∣ e.start
  stop_aligned : pageSize ∣ e.stop
  shmid_aligned : pageSize ∣ e.shmid

theorem sub64_lt {n : ℕ} (ha : a < 2 ^ 64) (hb : b + n ≤ 2 ^ 64) :
    sub64 a b < n ↔ b ≤ a ∧ a < b + n := by
  unfold sub64
  omega

theorem Movable.len_pos (h : Movable e) : 0 < vmaEntryLen e := by
  have := h.start_lt
  unfold vmaEntryLen
  omega

/-- Two aligned addresses that differ are a page apart. -/
theorem aligned_gap (ha : pageSize ∣ a) (hb : pageSize ∣ b) (h : a < b) : a + pageSize ≤ b := by
  have := Nat.le_of_dvd (by omega) (Nat.dvd_sub hb ha)
  omega

theorem guardPage_cases (h : Movable e) (hne : e.shmid ≠ e.start) :
    Apart e.shmid (vmaEntryLen e) e.start (vmaEntryLen e) ∧ guardPage e = 0 ∨
      Guards (guardPage e) pageSize e.shmid (vmaEntryLen e) e.start := by
  obtain ⟨hlt, hstop, hend, hstart, hstopa, hshmid⟩ := h
  have hlen : e.start + vmaEntryLen e = e.stop := by
    unfold vmaEntryLen
    omega
  have hback : sub64 e.shmid e.start < vmaEntryLen e ↔
      e.start ≤ e.shmid ∧ e.shmid < e.start + vmaEntryLen e :=
    sub64_lt (by omega) (by omega)
  have hforth : sub64 e.start e.shmid < vmaEntryLen e ↔
      e.shmid ≤ e.start ∧ e.start < e.shmid + vmaEntryLen e :=
    sub64_lt (by omega) hend
  unfold guardPage Apart
  by_cases hover : e.start ≤ e.shmid ∧ e.shmid < e.start + vmaEntryLen e
  · rw [if_pos (hback.mpr hover)]
    have := aligned_gap hstart hshmid (by omega)
    exact .inr (.inl ⟨this, hover.2, rfl⟩)
  rw [if_neg (fun hc => hover (hback.mp hc))]
  by_cases hunder : e.shmid ≤ e.start ∧ e.start < e.shmid + vmaEntryLen e
  · rw [if_pos (hforth.mpr hunder)]
    have := aligned_gap hshmid hstart (by omega)
    exact .inr (.inr ⟨this, hunder.2, by omega⟩)
  · rw [if_neg (fun hc => hunder (hforth.mp hc))]
    exact .inl ⟨by omega, rfl⟩

abbrev LaidOut (vmas : List VmaEntry) (loc : VmaEntry → ℕ) (s : Space Cell) : Prop :=
  Laid vmas vmaEntryLen (fun e off => .byte (e.shmid + off)) loc s

/-- A VMA is moved if its goal meets no other VMA, unless its guard page is the page at 0. -/
theorem vmaRemap_laid (k : Placement Cell) {loc : VmaEntry → ℕ}
    (h : LaidOut vmas loc s) (he : e ∈ vmas) (hm : Movable e) (hloc : loc e = e.shmid)
    (hdst : ∀ w ∈ vmas, w ≠ e → Apart e.start (vmaEntryLen e) (loc w) (vmaEntryLen w)) :
    ZeroGuard e ∧ vmaRemap k s e = none ∨ ¬ ZeroGuard e ∧ ∃ s', vmaRemap k s e = some s' ∧
        LaidOut vmas (Function.update loc e e.start) s' := by
  have hmove := h.move he hdst
  rw [hloc] at hmove
  unfold vmaRemap
  by_cases heq : e.shmid = e.start
  · rw [if_pos heq]
    refine .inr ⟨fun hz => ?_, s, rfl, ?_⟩
    · obtain ⟨h0, hpos, -⟩ := hz
      omega
    · rwa [← heq, ← hloc, Function.update_eq_self]
  dsimp only
  rw [if_neg heq]
  rcases guardPage_cases hm heq with ⟨hapart, hno⟩ | hguard
  · rw [if_neg (fun hne => hne hno)]
    refine .inr ⟨fun hz => ?_, _, if_pos hapart, hmove⟩
    obtain ⟨h0, hpos, hlt⟩ := hz
    unfold Apart at hapart
    omega
  have hpage : 0 < pageSize := by decide
  generalize guardPage e = g at hguard
  by_cases hg : g = 0
  · rw [if_neg (fun hne => hne hg)]
    unfold Guards at hguard
    refine .inl ⟨⟨by omega, by omega, by omega⟩, if_neg ?_⟩
    unfold Apart
    omega
  rw [if_pos hg]
  have hfree : Free s g pageSize := by
    refine h.free (i := e) ?_ (fun w hw hwe => ?_)
    · unfold Apart Guards at *
      omega
    · have := hdst w hw hwe
      unfold Apart Guards at *
      omega
  rw [if_pos hfree]
  have hused : ∀ x, e.shmid ≤ x → x < e.shmid + vmaEntryLen e → s x ≠ none := by
    rw [← hloc]
    exact fun x hlo hhi => h.used he hlo hhi
  obtain ⟨bound, hbound⟩ := h.bounded
  obtain ⟨s₁, hout, hback⟩ := move_around Cell.fresh k hpage hbound hused hguard hfree
  refine .inr ⟨fun hz => ?_, _, ?_, hmove⟩
  · obtain ⟨h0, -, -⟩ := hz
    unfold Guards at hguard
    omega
  · rw [hout]
    exact hback

end Remap

section Calls

/-- The VMAs that a loop calls `vma_remap` for. -/
def calls (skip halt : VmaEntry → Bool) : List VmaEntry → List VmaEntry
  | [] => []
  | e :: es =>
      if !e.premmaped || skip e then calls skip halt es
      else if halt e then []
      else e :: calls skip halt es

theorem shiftLoop_eq (k : Placement Cell) (skip halt : VmaEntry → Bool) (es : List VmaEntry)
    (s : Space Cell) :
    shiftLoop k skip halt es s = (calls skip halt es).foldlM (vmaRemap k) s := by
  induction es generalizing s with
  | nil => rfl
  | cons e es ih =>
    unfold shiftLoop calls
    split
    · exact ih s
    split
    · rfl
    · congr 1
      funext s'
      exact ih s'

theorem calls_sublist (skip halt : VmaEntry → Bool) (es : List VmaEntry) :
    (calls skip halt es).Sublist es := by
  induction es with
  | nil => exact .slnil
  | cons e es ih =>
    unfold calls
    split
    · exact .cons e ih
    · split
      · exact nil_sublist _
      · exact .cons_cons e ih

variable {before : VmaEntry → VmaEntry → Prop}

/-- A loop calls `vma_remap` for a premapped VMA that it does not pass over if neither this VMA nor
one that comes before it ends the loop. -/
theorem mem_calls {skip halt : VmaEntry → Bool}
    (hasymm : ∀ u w, before u w → ¬ before w u) (hes : es.Pairwise before) :
    e ∈ calls skip halt es ↔
      e ∈ es ∧ e.premmaped = true ∧ skip e = false ∧ ∀ u ∈ es, u.premmaped = true →
        skip u = false → u = e ∨ before u e → halt u = false := by
  induction es with
  | nil => simp [calls]
  | cons v es ih =>
    obtain ⟨hv, hes⟩ := pairwise_cons.mp hes
    have ih := ih hes
    unfold calls
    rw [forall_mem_cons]
    split
    · next hpass =>
      have hno : v.premmaped = true → skip v = false → False := by
        intro hp hs
        simp [hp, hs] at hpass
      rw [ih]
      constructor
      · rintro ⟨he, hp, hs, hall⟩
        exact ⟨mem_cons_of_mem v he, hp, hs, fun hp hs => (hno hp hs).elim, hall⟩
      · rintro ⟨he, hp, hs, -, hall⟩
        rcases mem_cons.mp he with rfl | he
        · exact (hno hp hs).elim
        · exact ⟨he, hp, hs, hall⟩
    next hpass =>
    have hvp : v.premmaped = true ∧ skip v = false := by
      simpa [not_or] using hpass
    split
    · next hhalt =>
      refine ⟨nofun, ?_⟩
      rintro ⟨he, -, -, hall, -⟩
      have hfirst : v = e ∨ before v e := (mem_cons.mp he).imp Eq.symm (hv e)
      rw [hall hvp.1 hvp.2 hfirst] at hhalt
      cases hhalt
    next hhalt =>
    have hhalt := Bool.eq_false_iff.mpr hhalt
    rw [mem_cons, ih]
    constructor
    · rintro (rfl | ⟨he, hp, hs, hall⟩)
      · refine ⟨mem_cons_self, hvp.1, hvp.2, fun _ _ _ => hhalt, fun u hu _ _ hbefore => ?_⟩
        rcases hbefore with rfl | hbefore
        · exact hhalt
        · exact absurd hbefore (hasymm e u (hv u hu))
      · exact ⟨mem_cons_of_mem v he, hp, hs, fun _ _ _ => hhalt, hall⟩
    · rintro ⟨he, hp, hs, -, hall⟩
      exact (mem_cons.mp he).imp_right fun he => ⟨he, hp, hs, hall⟩

/-- Where a VMA is after the calls for `done`. -/
def located (done : List VmaEntry) (e : VmaEntry) : ℕ := if e ∈ done then e.start else e.shmid

/-- No call of `vma_remap` has a goal that meets another premapped VMA where that is by then. -/
def CallsApart (vmas : List VmaEntry) : List VmaEntry → List VmaEntry → Prop
  | _, [] => True
  | done, e :: rest =>
      (∀ w ∈ vmas, w ≠ e →
        Apart e.start (vmaEntryLen e) (located done w) (vmaEntryLen w)) ∧
      CallsApart vmas (done ++ [e]) rest

theorem callsApart_append {first second : List VmaEntry} : CallsApart vmas done (first ++ second) ↔
      CallsApart vmas done first ∧ CallsApart vmas (done ++ first) second := by
  induction first generalizing done with
  | nil => simp [CallsApart]
  | cons e first ih =>
    simp only [cons_append, CallsApart, ih, append_assoc, nil_append, and_assoc]

theorem located_append (done : List VmaEntry) (e : VmaEntry) :
    located (done ++ [e]) = Function.update (located done) e e.start := by
  funext w
  unfold located
  by_cases hw : w = e
  · subst hw
    rw [Function.update_self, if_pos (by simp)]
  · simp [hw]

/-- A sequence of calls that are apart ends with every VMA of it moved, or fails at a VMA at
address 0. -/
theorem remapAll_laid (k : Placement Cell) (hmov : ∀ e ∈ vmas, Movable e)
    (h : LaidOut vmas (located done) s) (hsub : ∀ e ∈ es, e ∈ vmas)
    (hnodup : es.Nodup) (htwice : ∀ e ∈ es, e ∈ done → e.start = e.shmid)
    (hapart : CallsApart vmas done es) :
    (∃ e ∈ es, ZeroGuard e) ∧ es.foldlM (vmaRemap k) s = none ∨
      (∀ e ∈ es, ¬ ZeroGuard e) ∧ ∃ s', es.foldlM (vmaRemap k) s = some s' ∧
        LaidOut vmas (located (done ++ es)) s' := by
  induction es generalizing done s with
  | nil =>
    refine .inr ⟨nofun, s, rfl, ?_⟩
    rwa [append_nil]
  | cons e es ih =>
    obtain ⟨hhead, hrest⟩ := hapart
    obtain ⟨hfresh, hnodup⟩ := nodup_cons.mp hnodup
    obtain ⟨he, hsub⟩ := forall_mem_cons.mp hsub
    obtain ⟨hone, htwice⟩ := forall_mem_cons.mp htwice
    have hloc : located done e = e.shmid := by
      unfold located
      split
      · next hmem => exact hone hmem
      · rfl
    rw [foldlM_cons]
    rcases vmaRemap_laid k h he (hmov e he) hloc hhead with ⟨hz, hnone⟩ | ⟨hz, s₁, hsome, h₁⟩
    · rw [hnone]
      exact .inl ⟨⟨e, mem_cons_self, hz⟩, rfl⟩
    rw [hsome]
    rw [← located_append] at h₁
    have htwice' : ∀ w ∈ es, w ∈ done ++ [e] → w.start = w.shmid := by
      intro w hw hmem
      refine (mem_append.mp hmem).elim (htwice w hw) fun hmem => ?_
      rw [mem_singleton.mp hmem] at hw
      exact absurd hw hfresh
    rcases ih h₁ hsub hnodup htwice' hrest with ⟨⟨w, hw, hzw⟩, hnone⟩ | ⟨hall, s₂, hs₂, h₂⟩
    · exact .inl ⟨⟨w, mem_cons_of_mem e hw, hzw⟩, hnone⟩
    · refine .inr ⟨forall_mem_cons.mpr ⟨hz, hall⟩, s₂, hs₂, ?_⟩
      rwa [append_assoc] at h₂

/-- Calls in some order are apart if the goal of each is apart from where the VMAs that do not come
before it were premapped. -/
theorem callsApart_of_order (hasymm : ∀ u w, before u w → ¬ before w u)
    (hgoals : ∀ u ∈ vmas, ∀ w ∈ vmas, w ≠ u → Apart u.start (vmaEntryLen u) w.start (vmaEntryLen w))
    (hes : es.Pairwise before) (hsub : ∀ e ∈ es, e ∈ vmas)
    (hstart : ∀ e ∈ es, ∀ w ∈ vmas, w ≠ e → w ∉ done → ¬ (w ∈ es ∧ before w e) →
      Apart e.start (vmaEntryLen e) w.shmid (vmaEntryLen w)) : CallsApart vmas done es := by
  induction es generalizing done with
  | nil => trivial
  | cons e es ih =>
    obtain ⟨he, hes⟩ := pairwise_cons.mp hes
    obtain ⟨hin, hsub⟩ := forall_mem_cons.mp hsub
    obtain ⟨hfirst, hstart⟩ := forall_mem_cons.mp hstart
    constructor
    · intro w hw hwe
      unfold located
      split
      · exact hgoals e hin w hw hwe
      · next hdone =>
        refine hfirst w hw hwe hdone fun hbefore => ?_
        exact (mem_cons.mp hbefore.1).elim hwe fun hwes => hasymm e w (he w hwes) hbefore.2
    · refine ih hes hsub fun u hu w hw hwu hdone hbefore => ?_
      rw [mem_append, mem_singleton, not_or] at hdone
      refine hstart u hu w hw hwu hdone.1 fun h => hbefore ⟨?_, h.2⟩
      exact (mem_cons.mp h.1).resolve_left hdone.2

end Calls

section Shift

def leftCalls (taskSize : ℕ) (vmas : List VmaEntry) : List VmaEntry :=
  calls (fun e => taskSize ≤ e.stop) (fun e => e.shmid < e.start) vmas

def rightCalls (taskSize : ℕ) (vmas : List VmaEntry) : List VmaEntry :=
  calls (fun e => taskSize < e.start) (fun e => e.start < e.shmid) vmas.reverse

def premmapedVmas (vmas : List VmaEntry) : List VmaEntry := vmas.filter (·.premmaped)

/-- Every premapped VMA gets to its final address, byte by byte, and no call has a goal that meets
another one. -/
structure Shifted (k : Placement Cell) (taskSize : ℕ) (vmas : List VmaEntry) : Prop where
  moved : ∃ s, shiftVmas k taskSize vmas (premappedSpace vmas) = some s ∧
    ∀ e ∈ premmapedVmas vmas, ∀ off < vmaEntryLen e,
      s (e.start + off) = some (.byte (e.shmid + off))
  apart : CallsApart (premmapedVmas vmas) [] (leftCalls taskSize vmas ++ rightCalls taskSize vmas)

/-- No VMA that goes up stands before one that goes down, no guard page is at address 0, and all
VMAs start in the address space. -/
structure Shiftable (taskSize : ℕ) (vmas : List VmaEntry) : Prop where
  uncrossed : ∀ u ∈ premmapedVmas vmas, ∀ w ∈ premmapedVmas vmas, u.start < w.start →
    u.shmid < u.start → w.shmid ≤ w.start
  noZeroGuard : ∀ e ∈ premmapedVmas vmas, ¬ ZeroGuard e
  inside : ∀ e ∈ premmapedVmas vmas, e.start ≤ taskSize

structure Ready (taskSize : ℕ) (vmas : List VmaEntry) : Prop where
  sorted : vmas.Pairwise (fun u w => u.start < w.start)
  goals : ∀ u ∈ vmas, ∀ w ∈ vmas, u.start < w.start → u.stop ≤ w.start
  packed : ∀ u ∈ premmapedVmas vmas, ∀ w ∈ premmapedVmas vmas, u.start < w.start →
    u.shmid + vmaEntryLen u ≤ w.shmid
  below : ∀ e ∈ premmapedVmas vmas, e.shmid + vmaEntryLen e ≤ taskSize
  movable : ∀ e ∈ premmapedVmas vmas, Movable e

theorem mem_premmapedVmas : e ∈ premmapedVmas vmas ↔ e ∈ vmas ∧ e.premmaped = true := mem_filter

variable {taskSize : ℕ}

/-- In a list sorted by the start addresses, a relation between each VMA and the later ones. -/
theorem rel_of_start_lt {r : VmaEntry → VmaEntry → Prop}
    (h : vmas.Pairwise (fun u w => u.start < w.start ∧ r u w)) (hu : u ∈ vmas)
    (hw : w ∈ vmas) (hlt : u.start < w.start) : r u w := by
  have hboth : vmas.Pairwise (fun u w =>
      (u.start < w.start → r u w) ∧ (w.start < u.start → r w u)) :=
    h.imp (fun hr => ⟨fun _ => hr.2, fun hgt => absurd hr.1 (Nat.lt_asymm hgt)⟩)
  have : Std.Symm (fun u w : VmaEntry =>
      (u.start < w.start → r u w) ∧ (w.start < u.start → r w u)) := ⟨fun _ _ h => h.symm⟩
  refine (hboth.forall hu hw ?_).1 hlt
  rintro rfl
  exact Nat.lt_irrefl _ hlt

namespace Ready

variable (h : Ready taskSize vmas)
include h

theorem ne_start (hu : u ∈ premmapedVmas vmas)
    (hw : w ∈ premmapedVmas vmas) (hne : u ≠ w) : u.start < w.start ∨ w.start < u.start := by
  have hstarts := h.sorted.imp (fun hlt => Nat.ne_of_lt hlt)
  have : Std.Symm (fun u w : VmaEntry => u.start ≠ w.start) := ⟨fun _ _ h => h.symm⟩
  have := hstarts.forall (mem_premmapedVmas.mp hu).1 (mem_premmapedVmas.mp hw).1 hne
  omega

theorem goals_apart : ∀ u ∈ premmapedVmas vmas, ∀ w ∈ premmapedVmas vmas, w ≠ u →
      Apart u.start (vmaEntryLen u) w.start (vmaEntryLen w) := by
  intro u hu w hw hne
  unfold Apart vmaEntryLen
  rcases h.ne_start hu hw hne.symm with hlt | hlt
  · have := h.goals u (mem_premmapedVmas.mp hu).1 w (mem_premmapedVmas.mp hw).1 hlt
    omega
  · have := h.goals w (mem_premmapedVmas.mp hw).1 u (mem_premmapedVmas.mp hu).1 hlt
    omega

theorem mem_leftCalls : e ∈ leftCalls taskSize vmas ↔ e ∈ premmapedVmas vmas ∧ e.stop < taskSize ∧
      ∀ u ∈ premmapedVmas vmas, u.stop < taskSize → u = e ∨ u.start < e.start →
        u.start ≤ u.shmid := by
  unfold leftCalls
  rw [mem_calls (fun u w (hlt) => Nat.lt_asymm hlt) h.sorted]
  simp only [decide_eq_false_iff_not, not_le, not_lt, mem_premmapedVmas, and_assoc, and_imp]

theorem mem_rightCalls :
    e ∈ rightCalls taskSize vmas ↔ e ∈ premmapedVmas vmas ∧ e.start ≤ taskSize ∧
      ∀ u ∈ premmapedVmas vmas, u.start ≤ taskSize → u = e ∨ e.start < u.start →
        u.shmid ≤ u.start := by
  unfold rightCalls
  rw [mem_calls (fun u w (hlt) => Nat.lt_asymm hlt)
    (pairwise_reverse.mpr h.sorted)]
  simp only [decide_eq_false_iff_not, not_lt, mem_premmapedVmas, and_assoc, and_imp, mem_reverse]

theorem leftCalls_sorted : (leftCalls taskSize vmas).Pairwise (fun u w => u.start < w.start) :=
  h.sorted.sublist (calls_sublist _ _ vmas)

theorem rightCalls_sorted : (rightCalls taskSize vmas).Pairwise (fun u w => w.start < u.start) :=
  (pairwise_reverse.mpr h.sorted).sublist (calls_sublist _ _ vmas.reverse)

/-- When a VMA goes down, everything below it is already at its final address and everything above
it is still where it was premapped. -/
theorem leftCalls_apart : CallsApart (premmapedVmas vmas) [] (leftCalls taskSize vmas) := by
  apply callsApart_of_order (fun u w (hlt) => Nat.lt_asymm hlt)
    h.goals_apart h.leftCalls_sorted (fun e he => (h.mem_leftCalls.mp he).1)
  intro e he w hw hwe _ hbefore
  obtain ⟨hep, hstop, hall⟩ := h.mem_leftCalls.mp he
  have hlt : e.start < w.start := by
    refine (h.ne_start hep hw hwe.symm).resolve_right (fun hlt => hbefore ⟨?_, hlt⟩)
    have hgoal := h.goals w (mem_premmapedVmas.mp hw).1 e (mem_premmapedVmas.mp hep).1 hlt
    have := (h.movable e hep).start_lt
    refine h.mem_leftCalls.mpr ⟨hw, by omega, fun u hu hus hbefore => hall u hu hus (.inr ?_)⟩
    rcases hbefore with rfl | hbefore
    · exact hlt
    · exact Nat.lt_trans hbefore hlt
  have hdown := hall e hep hstop (.inl rfl)
  have := h.packed e hep w hw hlt
  unfold Apart
  omega

/-- When a VMA goes up, everything above it is already at its final address. -/
theorem rightCalls_apart
    (hin : ∀ e ∈ premmapedVmas vmas, e.start ≤ taskSize) (done : List VmaEntry) :
    CallsApart (premmapedVmas vmas) done (rightCalls taskSize vmas) := by
  apply callsApart_of_order (fun u w (hlt) => Nat.lt_asymm hlt)
    h.goals_apart h.rightCalls_sorted (fun e he => (h.mem_rightCalls.mp he).1)
  intro e he w hw hwe _ hbefore
  obtain ⟨hep, hstart, hall⟩ := h.mem_rightCalls.mp he
  have hlt : w.start < e.start := by
    refine (h.ne_start hw hep hwe).resolve_right (fun hlt => hbefore ⟨?_, hlt⟩)
    refine h.mem_rightCalls.mpr ⟨hw, hin w hw, fun u hu hus hbefore => hall u hu hus (.inr ?_)⟩
    rcases hbefore with rfl | hbefore
    · exact hlt
    · exact Nat.lt_trans hlt hbefore
  have hup := hall e hep hstart (.inl rfl)
  have := h.packed w hw e hep hlt
  unfold Apart
  omega

/-- Every premapped VMA is moved by one of the loops. -/
theorem mem_calls_of_shiftable (hs : Shiftable taskSize vmas) (he : e ∈ premmapedVmas vmas) :
    e ∈ leftCalls taskSize vmas ++ rightCalls taskSize vmas := by
  rw [mem_append]
  by_cases hup : ∃ u ∈ premmapedVmas vmas, (u = e ∨ u.start < e.start) ∧ u.shmid < u.start
  · obtain ⟨u, hu, hue, hlt⟩ := hup
    refine .inr (h.mem_rightCalls.mpr ⟨he, hs.inside e he, fun w hw _ hew => ?_⟩)
    by_cases huw : w = u
    · exact huw ▸ Nat.le_of_lt hlt
    apply hs.uncrossed u hu w hw _ hlt
    rcases hue with rfl | hue
    · exact hew.resolve_left huw
    · rcases hew with rfl | hew
      · exact hue
      · exact Nat.lt_trans hue hew
  have hdown : ∀ u ∈ premmapedVmas vmas, u = e ∨ u.start < e.start → u.start ≤ u.shmid :=
    fun u hu hue => Nat.le_of_not_lt (fun hlt => hup ⟨u, hu, hue, hlt⟩)
  by_cases hstop : e.stop < taskSize
  · exact .inl (h.mem_leftCalls.mpr ⟨he, hstop, fun u hu _ => hdown u hu⟩)
  -- Nothing is premapped as high as this VMA ends, so that it stays where it is.
  · refine .inr (h.mem_rightCalls.mpr ⟨he, hs.inside e he, fun w hw _ hew => ?_⟩)
    have hbelow := h.below w hw
    have hpos := (h.movable w hw).start_lt
    have hestop : e.stop ≤ w.stop := by
      rcases hew with rfl | hew
      · exact Nat.le_refl _
      · have := h.goals e (mem_premmapedVmas.mp he).1 w (mem_premmapedVmas.mp hw).1 hew
        omega
    unfold vmaEntryLen at hbelow
    omega

theorem laid : LaidOut (premmapedVmas vmas) (located []) (premappedSpace vmas) := by
  have hloc : ∀ e, located [] e = e.shmid := fun e => if_neg not_mem_nil
  constructor
  · intro e he off hoff
    obtain ⟨hmem, hp⟩ := mem_premmapedVmas.mp he
    rw [hloc]
    exact if_pos ⟨e, hmem, hp, by omega, by omega⟩
  · intro x c hx
    unfold premappedSpace at hx
    split at hx
    · next hex =>
      obtain ⟨e, he, hp, hlo, hhi⟩ := hex
      refine ⟨e, mem_premmapedVmas.mpr ⟨he, hp⟩, x - e.shmid, by omega, ?_, ?_⟩
      · rw [hloc]
        omega
      · rw [Nat.add_sub_cancel' hlo]
        exact (Option.some_inj.mp hx).symm
    · cases hx
  · intro u hu w hw hne
    rw [hloc, hloc]
    unfold Apart
    rcases h.ne_start hu hw hne with hlt | hlt
    · have := h.packed u hu w hw hlt
      omega
    · have := h.packed w hw u hu hlt
      omega

theorem shiftVmas_laid (k : Placement Cell) (hapart : CallsApart (premmapedVmas vmas) []
      (leftCalls taskSize vmas ++ rightCalls taskSize vmas)) :
    shiftVmas k taskSize vmas (premappedSpace vmas) = none ∧
        (∃ e ∈ premmapedVmas vmas, ZeroGuard e) ∨
      (∀ e ∈ leftCalls taskSize vmas ++ rightCalls taskSize vmas, ¬ ZeroGuard e) ∧
        ∃ s, shiftVmas k taskSize vmas (premappedSpace vmas) = some s ∧ LaidOut (premmapedVmas vmas)
            (located (leftCalls taskSize vmas ++ rightCalls taskSize vmas)) s := by
  have hleft : ∀ e ∈ leftCalls taskSize vmas, e ∈ premmapedVmas vmas :=
    fun e he => (h.mem_leftCalls.mp he).1
  have hright : ∀ e ∈ rightCalls taskSize vmas, e ∈ premmapedVmas vmas :=
    fun e he => (h.mem_rightCalls.mp he).1
  have hstay : ∀ e ∈ rightCalls taskSize vmas, e ∈ leftCalls taskSize vmas →
      e.start = e.shmid := by
    intro e hr hl
    obtain ⟨he, hstop, hdown⟩ := h.mem_leftCalls.mp hl
    obtain ⟨-, hstart, hup⟩ := h.mem_rightCalls.mp hr
    have := hdown e he hstop (.inl rfl)
    have := hup e he hstart (.inl rfl)
    omega
  have hnodup : vmas.Nodup := by
    apply h.sorted.imp
    rintro u w hlt rfl
    exact Nat.lt_irrefl _ hlt
  obtain ⟨hapartl, hapartr⟩ := callsApart_append.mp hapart
  unfold shiftVmas shiftLeft shiftRight
  rw [shiftLoop_eq]
  rcases remapAll_laid k h.movable h.laid hleft (hnodup.sublist (calls_sublist ..)) nofun hapartl
    with ⟨⟨e, he, hz⟩, hnone⟩ | ⟨hz, s, hs, hlaid⟩
  · refine .inl ⟨?_, e, hleft e he, hz⟩
    unfold leftCalls at hnone
    rw [hnone]
    rfl
  unfold leftCalls at hs
  rw [hs, Option.bind_some, shiftLoop_eq]
  rcases remapAll_laid k h.movable hlaid hright
    ((pairwise_reverse.mpr (hnodup.imp Ne.symm)).sublist (calls_sublist ..)) hstay hapartr with
    ⟨⟨e, he, hze⟩, hnone⟩ | ⟨hzr, s', hs', hlaid'⟩
  · exact .inl ⟨hnone, e, hright e he, hze⟩
  · exact .inr ⟨forall_mem_append.mpr ⟨hz, hzr⟩, s', hs', hlaid'⟩

theorem shifted_of_shiftable (k : Placement Cell) (hs : Shiftable taskSize vmas) :
    Shifted k taskSize vmas := by
  have hapart : CallsApart (premmapedVmas vmas) []
      (leftCalls taskSize vmas ++ rightCalls taskSize vmas) :=
    callsApart_append.mpr ⟨h.leftCalls_apart, h.rightCalls_apart hs.inside _⟩
  refine ⟨?_, hapart⟩
  rcases h.shiftVmas_laid k hapart with ⟨-, e, he, hz⟩ | ⟨-, s, hsome, hlaid⟩
  · exact absurd hz (hs.noZeroGuard e he)
  · refine ⟨s, hsome, fun e he off hoff => ?_⟩
    have hcell := hlaid.cells e he off hoff
    have hloc : located (leftCalls taskSize vmas ++ rightCalls taskSize vmas) e = e.start :=
      if_pos (h.mem_calls_of_shiftable hs he)
    rwa [hloc] at hcell

/-- In a run that gets every VMA to its place, each VMA that was not there before is moved. -/
theorem called_of_shifted
    (hs : Shifted k taskSize vmas) (he : e ∈ premmapedVmas vmas) (hne : e.start ≠ e.shmid) :
    e ∈ leftCalls taskSize vmas ++ rightCalls taskSize vmas := by
  obtain ⟨⟨s, hsome, hmoved⟩, hapart⟩ := hs
  rcases h.shiftVmas_laid k hapart with ⟨hnone, -⟩ | ⟨-, s', hsome', hlaid⟩
  · rw [hnone] at hsome
    cases hsome
  cases hsome.symm.trans hsome'
  have hpos := (h.movable e he).len_pos
  by_contra hno
  obtain ⟨w, hw, off, hoff, haddr, hcell⟩ := hlaid.only _ _ (hmoved e he 0 hpos)
  have hsrc : e.shmid + 0 = w.shmid + off := Cell.byte.inj hcell
  have hwe : w = e := by
    by_contra hwe
    rcases h.ne_start hw he hwe with hlt | hlt
    · have := h.packed w hw e he hlt
      omega
    · have := h.packed e he w hw hlt
      omega
  subst hwe
  unfold located at haddr
  rw [if_neg hno] at haddr
  omega

theorem shiftable_of_shifted (hs : Shifted k taskSize vmas) : Shiftable taskSize vmas := by
  have hin : ∀ e ∈ premmapedVmas vmas, e.start ≤ taskSize := by
    intro e he
    by_contra hout
    have hbelow := h.below e he
    have hlt := (h.movable e he).start_lt
    have hcalled := h.called_of_shifted hs he (by omega)
    rcases mem_append.mp hcalled with hl | hr
    · have := (h.mem_leftCalls.mp hl).2.1
      omega
    · exact hout (h.mem_rightCalls.mp hr).2.1
  refine ⟨fun u hu w hw huw hup => ?_, fun e he hz => ?_, hin⟩
  · have hcalled := h.called_of_shifted hs hu (Nat.ne_of_gt hup)
    rcases mem_append.mp hcalled with hl | hr
    · obtain ⟨-, hstop, hdown⟩ := h.mem_leftCalls.mp hl
      have := hdown u hu hstop (.inl rfl)
      omega
    · exact (h.mem_rightCalls.mp hr).2.2 w hw (hin w hw) (.inr huw)
  obtain ⟨⟨s, hsome, -⟩, hapart⟩ := hs
  obtain ⟨h0, hpos, hlen⟩ := hz
  have hbelow := h.below e he
  have hcalled : e ∈ leftCalls taskSize vmas := by
    unfold vmaEntryLen at hbelow
    refine h.mem_leftCalls.mpr ⟨he, by omega, fun u hu _ hue => ?_⟩
    rcases hue with rfl | hue <;> omega
  rcases h.shiftVmas_laid k hapart with ⟨hnone, -⟩ | ⟨hno, -⟩
  · rw [hnone] at hsome
    cases hsome
  · exact hno e (mem_append_left _ hcalled) ⟨h0, hpos, hlen⟩

end Ready

end Shift

/-- The VMAs of a task in the order of their addresses, premapped one after another from `base`
on. The kernel premaps nothing above the task size. -/
structure Premapping where
  kdat : Kdat
  pieok : Bool
  vmas : List VmaArea
  base : ℕ
  premapped : List VmaArea
  last : ℕ
  premap : premapPrivVmas kdat pieok none 0 base vmas = some (premapped, last)
  fresh : ∀ v ∈ vmas, v.e.premmaped = false
  sorted : vmas.Pairwise (fun u w => u.e.stop ≤ w.e.start)
  proper : ∀ v ∈ vmas, v.e.start < v.e.stop ∧ v.e.stop < 2 ^ 64
  aligned : ∀ v ∈ vmas, pageSize ∣ v.e.start ∧ pageSize ∣ v.e.stop
  base_aligned : pageSize ∣ base
  last_le : last ≤ kdat.taskSize
  taskSize_le : kdat.taskSize ≤ 2 ^ 64

namespace Premapping

def entries (P : Premapping) : List VmaEntry := P.premapped.map restorerVma

theorem packed (P : Premapping) : Packed P.kdat P.base P.last P.entries :=
  premapPrivVmas_packed P.fresh P.premap

theorem spans (P : Premapping) : P.entries.map (fun e => (e.start, e.stop)) =
    P.vmas.map (fun v => (v.e.start, v.e.stop)) := premapPrivVmas_spans P.premap

/-- What holds of the addresses of all VMAs holds of those of the entries. -/
theorem entry_spans (P : Premapping) {p : ℕ × ℕ → Prop} (h : ∀ v ∈ P.vmas, p (v.e.start, v.e.stop))
    (he : e ∈ P.entries) : p (e.start, e.stop) := by
  have hmem := mem_map_of_mem (f := fun e : VmaEntry => (e.start, e.stop)) he
  rw [P.spans] at hmem
  obtain ⟨v, hv, heq⟩ := mem_map.mp hmem
  exact heq ▸ h v hv

theorem entries_sorted (P : Premapping) : P.entries.Pairwise (fun u w => u.stop ≤ w.start) := by
  have hsorted : (P.vmas.map (fun v => (v.e.start, v.e.stop))).Pairwise
      (fun p q => p.2 ≤ q.1) := pairwise_map.mpr P.sorted
  rw [← P.spans] at hsorted
  exact pairwise_map.mp hsorted

theorem ready (P : Premapping) : Ready P.kdat.taskSize P.entries := by
  have hproper : ∀ e ∈ P.entries, e.start < e.stop ∧ e.stop < 2 ^ 64 :=
    fun e he => P.entry_spans (p := fun p => p.1 < p.2 ∧ p.2 < 2 ^ 64) P.proper he
  have haligned : ∀ e ∈ P.entries, pageSize ∣ e.start ∧ pageSize ∣ e.stop :=
    fun e he => P.entry_spans (p := fun p => pageSize ∣ p.1 ∧ pageSize ∣ p.2) P.aligned he
  have hlen : ∀ e ∈ P.entries, pageSize ∣ vmaEntryLen e :=
    fun e he => Nat.dvd_sub (haligned e he).2 (haligned e he).1
  have hbelow : ∀ e ∈ premmapedVmas P.entries, e.shmid + vmaEntryLen e ≤ P.kdat.taskSize := by
    intro e he
    obtain ⟨he, hp⟩ := mem_premmapedVmas.mp he
    exact Nat.le_trans (P.packed.mem e he hp).2 P.last_le
  have hstarts : P.entries.Pairwise (fun u w => u.start < w.start) := by
    refine (P.entries_sorted.imp_of_mem ?_)
    intro u w hu _ hle
    have := (hproper u hu).1
    omega
  constructor
  · exact hstarts
  · intro u hu w hw hlt
    exact rel_of_start_lt (hstarts.and P.entries_sorted) hu hw hlt
  · intro u hu w hw hlt
    obtain ⟨hu, hup⟩ := mem_premmapedVmas.mp hu
    obtain ⟨hw, hwp⟩ := mem_premmapedVmas.mp hw
    have := rel_of_start_lt (hstarts.and P.packed.pairwise) hu hw hlt hup hwp
    omega
  · exact hbelow
  intro e he
  have hle := hbelow e he
  obtain ⟨he, hp⟩ := mem_premmapedVmas.mp he
  obtain ⟨hlt, hstop⟩ := hproper e he
  obtain ⟨hstarta, hstopa⟩ := haligned e he
  exact ⟨hlt, hstop, Nat.le_trans hle P.taskSize_le, hstarta, hstopa,
    P.packed.aligned P.base_aligned hlen e he hp⟩

end Premapping

/-- The two loops get all premapped VMAs to their final addresses without touching one another if
and only if no VMA that goes up stands before one that goes down, no VMA at address 0 overlaps the
place it is premapped at, and no VMA starts above the task size. -/
theorem premapped_vmas_shifted_iff (k : Placement Cell) (P : Premapping) :
    Shifted k P.kdat.taskSize P.entries ↔ Shiftable P.kdat.taskSize P.entries :=
  ⟨P.ready.shiftable_of_shifted, P.ready.shifted_of_shiftable k⟩

def stackPage (start : ℕ) : VmaArea where
  e :=
    { start := start
      stop := start + 4096
      pgoff := 0
      shmid := 0
      anonymous := true
      growsdown := true
      regular := true
      anonPrivate := true
      filePrivate := false
      aioring := false
      premmaped := false }
  pvma := .null
  premmapedAddr := 0

/-- A stack of three pages with different protections, premapped two pages below its address by a
kernel that hides guard pages: the first page is to go up, the last one is to go down. -/
def splitStack : Premapping where
  kdat := ⟨2 ^ 47 - 4096, true⟩
  pieok := false
  vmas := [stackPage 0x10000, stackPage 0x11000, stackPage 0x12000]
  base := 0xe000
  premapped :=
    [(premapPrivateVma ⟨2 ^ 47 - 4096, true⟩ (stackPage 0x10000) 0xe000).1,
      (premapPrivateVma ⟨2 ^ 47 - 4096, true⟩ (stackPage 0x11000) 0x10000).1,
      (premapPrivateVma ⟨2 ^ 47 - 4096, true⟩ (stackPage 0x12000) 0x12000).1]
  last := 0x14000
  premap := by decide
  fresh := by decide
  sorted := by decide
  proper := by decide
  aligned := by decide
  base_aligned := by decide
  last_le := by decide
  taskSize_le := by decide

/-- Neither loop calls `vma_remap`, and the stack stays where it was premapped. -/
theorem split_stack_not_moved :
    leftCalls splitStack.kdat.taskSize splitStack.entries = [] ∧
      rightCalls splitStack.kdat.taskSize splitStack.entries = [] ∧
      Nonempty (Placement Cell) ∧
      ¬ ∃ k : Placement Cell, Shifted k splitStack.kdat.taskSize splitStack.entries := by
  refine ⟨by decide, by decide, placement_nonempty Cell, ?_⟩
  rintro ⟨k, hs⟩
  have hcross := (splitStack.ready.shiftable_of_shifted hs).uncrossed
  revert hcross
  decide

end Criu.ShiftVmas

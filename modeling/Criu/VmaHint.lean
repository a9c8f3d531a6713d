import Mathlib.Algebra.Order.Group.Nat
import Mathlib.Data.List.Basic
import Mathlib.Order.Bounds.Basic

/-!
The place of the restorer (criu/cr-restore.c). `restorer_get_vma_hint` goes through the areas of the
task and its own ones at the same time and takes the first gap that both leave. The last area of a
list is replaced by the end of the address space before the gap is moved behind it.
-/

namespace Criu.VmaHint

open List

structure Vma where
  start : ℕ
  stop : ℕ

/-- The areas before the last one, and the last one. -/
structure VmaList where
  inner : List Vma
  last : Vma
  filled : ∀ v ∈ inner ++ [last], v.start < v.stop
  sorted : (inner ++ [last]).Pairwise fun u v => u.stop ≤ v.start

def VmaList.vmas (L : VmaList) : List Vma := L.inner ++ [L.last]

/-- What is searched for, in which bounds, and the areas of the task and the own ones. -/
structure Search where
  len : ℕ
  mmapMinAddr : ℕ
  taskSize : ℕ
  taskSize_lt : taskSize < 2 ^ 64
  tgt : VmaList
  self : VmaList

variable (q : Search)

/-- Where the area begins that the list is at; at its end this is `end_vma`. -/
def start : List Vma → ℕ
  | [] => q.taskSize
  | v :: _ => v.start

/-- One step on in a list with the end of the previous area; there is none from `end_vma` on. The
source compares the list link of `end_vma` too, which was never set and is taken not to be the head
of the list. -/
def pass (prev : ℕ) : List Vma → Option (ℕ × List Vma)
  | [] => none
  | [_] => some (prev, [])
  | v :: rest => some (if prev < v.stop then v.stop else prev, rest)

def hintLoop : ℕ → ℕ → List Vma → List Vma → Option (Option ℕ)
  | 0, _, _, _ => none
  | fuel + 1, prev, s, t =>
      if start q s < (prev + q.len) % 2 ^ 64 then
        match pass prev s with
        | none => some none
        | some (prev, s) => hintLoop fuel prev s t
      else if start q t < (prev + q.len) % 2 ^ 64 then
        match pass prev t with
        | none => some none
        | some (prev, t) => hintLoop fuel prev s t
      else some (some prev)

/-- Each pass but the last one takes an area from one of the lists. -/
def restorerGetVmaHint : Option (Option ℕ) :=
  hintLoop q (q.self.vmas.length + q.tgt.vmas.length + 1) q.mmapMinAddr q.self.vmas q.tgt.vmas

def Avoids (a : ℕ) (v : Vma) : Prop := a + q.len ≤ v.start ∨ v.stop ≤ a

def Fits (a : ℕ) : Prop :=
  q.mmapMinAddr ≤ a ∧ a + q.len ≤ q.taskSize ∧ ∀ v ∈ q.self.vmas ++ q.tgt.vmas, Avoids q a v

def Right (r : Option ℕ) : Prop := (∀ a ∈ r, Fits q a) ∧ (r = none → ∀ a, ¬ Fits q a)

/-- The areas whose ends the loop takes. -/
def inner : List Vma := q.self.inner ++ q.tgt.inner

/-- The sums of the loop do not overflow. -/
def SumsFit : Prop := q.mmapMinAddr + q.len < 2 ^ 64 ∧ ∀ v ∈ inner q, v.stop + q.len < 2 ^ 64

def Open (a : ℕ) : Prop := q.mmapMinAddr ≤ a ∧ ∀ v ∈ inner q, Avoids q a v

/-- The lowest address that avoids all areas but the last one of each list avoids these two as well.
If it is too high for the address space, one of them begins before its end. -/
def LastsClear : Prop :=
  ∀ a, IsLeast {a | Open q a} a →
    if a + q.len ≤ q.taskSize then ∀ v ∈ [q.self.last, q.tgt.last], Avoids q a v
    else ∃ v ∈ [q.self.last, q.tgt.last], v.start < a + q.len

variable {q}

theorem fits_iff {a : ℕ} : Fits q a ↔
    Open q a ∧ a + q.len ≤ q.taskSize ∧ ∀ v ∈ [q.self.last, q.tgt.last], Avoids q a v := by
  simp only [Fits, Open, inner, VmaList.vmas]
  grind

/-- The list is at `l`, and the gap begins at `prev`. -/
inductive At (q : Search) (L : VmaList) (prev : ℕ) : List Vma → Prop
  | inside {rest : List Vma} (hs : rest <:+ L.inner)
      (hb : ∀ v ∈ L.inner, v ∈ rest ∨ v.stop ≤ prev) : At q L prev (rest ++ [L.last])
  | ended (hb : ∀ v ∈ L.inner, v.stop ≤ prev) (hl : L.last.start < prev + q.len) : At q L prev []

structure Inv (q : Search) (prev : ℕ) (s t : List Vma) : Prop where
  self : At q q.self prev s
  tgt : At q q.tgt prev t
  min : q.mmapMinAddr ≤ prev
  low : ∀ a, Open q a → prev ≤ a
  sum : prev + q.len < 2 ^ 64

variable {L : VmaList} {prev prev' : ℕ} {l l' s t : List Vma}

theorem At.mono (h : At q L prev l) (hle : prev ≤ prev') : At q L prev' l := by
  cases h with
  | inside hs hb => exact .inside hs fun v hv => (hb v hv).imp_right hle.trans'
  | ended hb hl =>
    exact .ended (fun v hv => (hb v hv).trans hle) (hl.trans_le (Nat.add_le_add_right hle _))

theorem At.pass (h : At q L prev l) (hlt : start q l < prev + q.len)
    (hp : pass prev l = some (prev', l')) : At q L prev' l' ∧
      (prev' = prev ∨ ∃ v ∈ L.inner, v.start < prev + q.len ∧ prev' = max prev v.stop) := by
  cases h with
  | ended => cases hp
  | @inside rest hs hb =>
    cases rest with
    | nil =>
      cases hp
      exact ⟨.ended (fun v hv => (hb v hv).resolve_left not_mem_nil) hlt, .inl rfl⟩
    | cons v rest =>
      have hmax : pass prev (v :: (rest ++ [L.last])) =
          some (max prev v.stop, rest ++ [L.last]) := by
        have hif : (if prev < v.stop then v.stop else prev) = max prev v.stop := by
          split <;> omega
        rw [← hif]
        cases rest <;> rfl
      cases hmax.symm.trans hp
      refine ⟨.inside ((suffix_cons v _).trans hs) fun w hw => ?_,
        .inr ⟨v, hs.subset mem_cons_self, hlt, rfl⟩⟩
      rcases hb w hw with hin | hle
      · rcases mem_cons.mp hin with rfl | hin
        · exact .inr (le_max_right ..)
        · exact .inl hin
      · exact .inr (hle.trans (le_max_left ..))

theorem pass_length (hp : pass prev l = some (prev', l')) : l'.length < l.length := by
  cases l with
  | nil => cases hp
  | cons v rest => cases rest <;> cases hp <;> exact Nat.lt_succ_self _

/-- Where the loop stops in a list, the gap avoids all of it, or it is at the end. -/
theorem At.ahead (h : At q L prev l) (hle : prev + q.len ≤ start q l) :
    (∀ v ∈ L.inner, Avoids q prev v) ∧
      (prev + q.len ≤ L.last.start ∨ prev + q.len ≤ q.taskSize) := by
  cases h with
  | ended hb hl => exact ⟨fun v hv => .inr (hb v hv), .inr hle⟩
  | @inside rest hs hb =>
    have hall : ∀ v ∈ rest ++ [L.last], prev + q.len ≤ v.start := by
      obtain ⟨pre, hpre⟩ := hs
      have hsorted := L.sorted
      have hfilled := L.filled
      rw [← hpre, append_assoc] at hsorted hfilled
      have htail := (pairwise_append.mp hsorted).2.1
      cases hl : rest ++ [L.last] with
      | nil => simp at hl
      | cons w tl =>
        rw [hl] at hle htail hfilled
        refine forall_mem_cons.mpr ⟨hle, fun v hv => ?_⟩
        have hw := hfilled w (mem_append_right _ mem_cons_self)
        have hv := (pairwise_cons.mp htail).1 v hv
        exact hle.trans (hw.le.trans hv)
    refine ⟨fun v hv => (hb v hv).imp_left fun hin => hall v (mem_append_left _ hin), .inl ?_⟩
    exact hall _ (mem_append_right _ (mem_singleton_self _))

section

variable (h : Inv q prev s t)
include h

theorem Inv.passed (hsum : SumsFit q) (hL : ∀ v ∈ L.inner, v ∈ inner q)
    (hp : prev' = prev ∨ ∃ v ∈ L.inner, v.start < prev + q.len ∧ prev' = max prev v.stop) :
    prev ≤ prev' ∧ (∀ a, Open q a → prev' ≤ a) ∧ prev' + q.len < 2 ^ 64 := by
  rcases hp with rfl | ⟨v, hv, hlt, rfl⟩
  · exact ⟨Nat.le_refl _, h.low, h.sum⟩
  · have hfit := hsum.2 v (hL v hv)
    have hfit' := h.sum
    refine ⟨le_max_left .., fun a ha => ?_, by omega⟩
    have hlow := h.low a ha
    have := (ha.2 v (hL v hv)).resolve_left (by omega)
    omega

theorem Inv.none_exact (hlt : q.taskSize < prev + q.len) {v : Vma}
    (hv : v ∈ [q.self.last, q.tgt.last]) (hl : v.start < prev + q.len) :
    Right q none ↔ LastsClear q := by
  refine iff_of_true ⟨nofun, fun _ a ha => ?_⟩ fun a ha => ?_
  · have hlow := h.low a (fits_iff.mp ha).1
    have hend := ha.2.1
    omega
  · have hlow := h.low a ha.1
    rw [if_neg (by omega)]
    exact ⟨v, hv, by omega⟩

theorem Inv.some_exact (hs : prev + q.len ≤ start q s) (ht : prev + q.len ≤ start q t) :
    Right q (some prev) ↔ LastsClear q := by
  obtain ⟨hself, hselfLast⟩ := h.self.ahead hs
  obtain ⟨htgt, htgtLast⟩ := h.tgt.ahead ht
  have hopen : Open q prev := ⟨h.min, forall_mem_append.mpr ⟨hself, htgt⟩⟩
  have hleast : IsLeast {a | Open q a} prev := ⟨hopen, fun a ha => h.low a ha⟩
  have hclear : LastsClear q ↔ if prev + q.len ≤ q.taskSize then
      ∀ v ∈ [q.self.last, q.tgt.last], Avoids q prev v
      else ∃ v ∈ [q.self.last, q.tgt.last], v.start < prev + q.len :=
    ⟨fun hc => hc prev hleast, fun hc a ha => IsLeast.unique ha hleast ▸ hc⟩
  have hright : Right q (some prev) ↔ Fits q prev := by simp [Right]
  rw [hclear, hright, fits_iff]
  by_cases hts : prev + q.len ≤ q.taskSize
  · rw [if_pos hts]
    exact ⟨fun hf => hf.2.2, fun hf => ⟨hopen, hts, hf⟩⟩
  · rw [if_neg hts]
    refine iff_of_false (fun hf => hts hf.2.1) ?_
    rintro ⟨v, hv, hlt⟩
    simp only [mem_cons, not_mem_nil, or_false] at hv
    rcases hv with rfl | rfl <;> omega

end

theorem At.ended_of_none (h : At q L prev l) (hp : VmaHint.pass prev l = none) :
    l = [] ∧ L.last.start < prev + q.len := by
  cases h with
  | ended _ hl => exact ⟨rfl, hl⟩
  | @inside rest =>
    cases rest with
    | nil => cases hp
    | cons v rest => cases rest <;> cases hp

theorem hintLoop_exact (hsum : SumsFit q → Inv q prev s t) {fuel : ℕ}
    (hfuel : s.length + t.length < fuel) :
    ∃ r, hintLoop q fuel prev s t = some r ∧ (SumsFit q → (Right q r ↔ LastsClear q)) := by
  induction fuel generalizing prev s t with
  | zero => exact absurd hfuel (Nat.not_lt_zero _)
  | succ fuel ih =>
    have hmod (hf : SumsFit q) := Nat.mod_eq_of_lt (hsum hf).sum
    rw [hintLoop]
    split_ifs with hself htgt
    · cases hp : pass prev s with
      | none =>
        refine ⟨none, rfl, fun hf => ?_⟩
        obtain ⟨rfl, hl⟩ := (hsum hf).self.ended_of_none hp
        exact (hsum hf).none_exact (hmod hf ▸ hself) mem_cons_self hl
      | some out =>
        have hlen := pass_length hp
        refine ih (fun hf => ?_) (by omega)
        obtain ⟨hat, hprev⟩ := (hsum hf).self.pass (hmod hf ▸ hself) hp
        obtain ⟨hle, hlow, hsum'⟩ := (hsum hf).passed hf (fun v hv => mem_append_left _ hv) hprev
        exact ⟨hat, (hsum hf).tgt.mono hle, (hsum hf).min.trans hle, hlow, hsum'⟩
    · cases hp : pass prev t with
      | none =>
        refine ⟨none, rfl, fun hf => ?_⟩
        obtain ⟨rfl, hl⟩ := (hsum hf).tgt.ended_of_none hp
        exact (hsum hf).none_exact (hmod hf ▸ htgt) (by simp) hl
      | some out =>
        have hlen := pass_length hp
        refine ih (fun hf => ?_) (by omega)
        obtain ⟨hat, hprev⟩ := (hsum hf).tgt.pass (hmod hf ▸ htgt) hp
        obtain ⟨hle, hlow, hsum'⟩ := (hsum hf).passed hf (fun v hv => mem_append_right _ hv) hprev
        exact ⟨(hsum hf).self.mono hle, hat, (hsum hf).min.trans hle, hlow, hsum'⟩
    · refine ⟨some prev, rfl, fun hf => ?_⟩
      rw [hmod hf, not_lt] at hself htgt
      exact (hsum hf).some_exact hself htgt

def oneEach : Search where
  len := 4096
  mmapMinAddr := 65536
  taskSize := 2 ^ 47
  taskSize_lt := by decide
  self := ⟨[], ⟨65536, 131072⟩, by simp, by simp⟩
  tgt := ⟨[], ⟨2 ^ 20, 2 ^ 21⟩, by simp, by simp⟩

end Criu.VmaHint

import Mathlib.Algebra.Order.BigOperators.Group.List
import Mathlib.Algebra.Order.Group.Nat

/-!
Address spaces as partial functions from addresses to cells, with the calls that map and move
blocks of them. A layout says which blocks are where and that nothing else is mapped; moving a
block to a place that no other block uses gives a layout again. Blocks that overlap the place
they go to are moved by way of a third place, which a guard next to the goal keeps off it.
-/

namespace AddressSpace

variable {α : Type*} {src : ℕ}

abbrev Space (α : Type*) := ℕ → Option α

variable {n x dst a : ℕ}

section Calls

def Free (s : Space α) (a n : ℕ) : Prop := ∀ x, a ≤ x → x < a + n → s x = none

def Apart (a m b n : ℕ) : Prop := a + m ≤ b ∨ b + n ≤ a

instance (a m b n : ℕ) : Decidable (Apart a m b n) := inferInstanceAs (Decidable (_ ∨ _))

def mapNew (z : α) (s : Space α) (a n : ℕ) : Space α :=
  fun x => if a ≤ x ∧ x < a + n then some z else s x

def move (s : Space α) (src n dst : ℕ) : Space α :=
  fun x => if dst ≤ x ∧ x < dst + n then s (src + (x - dst))
    else if src ≤ x ∧ x < src + n then none else s x

/-- `mremap` to a fixed place refuses blocks that overlap. -/
def mremap (s : Space α) (src n dst : ℕ) : Option (Space α) :=
  if Apart src n dst n then some (move s src n dst) else none

/-- Where the kernel puts a mapping of a given length when the place is left to it: somewhere
free, as long as not everything is in use. -/
structure Placement (α : Type*) where
  place : Space α → ℕ → ℕ
  place_free : ∀ {s : Space α} {bound : ℕ} (n : ℕ), (∀ x, bound ≤ x → s x = none) →
    Free s (place s n) n

theorem placement_nonempty (α : Type*) : Nonempty (Placement α) := by
  have hroom : ∀ s : Space α, ∃ a, (∃ bound, ∀ x, bound ≤ x → s x = none) →
      ∀ x, a ≤ x → s x = none := by
    intro s
    by_cases h : ∃ bound, ∀ x, bound ≤ x → s x = none
    · obtain ⟨bound, hb⟩ := h
      exact ⟨bound, fun _ => hb⟩
    · exact ⟨0, fun hb => absurd hb h⟩
  choose place hplace using hroom
  exact ⟨fun s _ => place s, fun n hb x hx _ => hplace _ ⟨_, hb⟩ x hx⟩

variable {s : Space α}

theorem mapNew_inside (z : α) (s : Space α) (h : a ≤ x ∧ x < a + n) :
    mapNew z s a n x = some z := if_pos h

theorem mapNew_outside (z : α) (s : Space α) (h : ¬ (a ≤ x ∧ x < a + n)) :
    mapNew z s a n x = s x := if_neg h

theorem move_inside (s : Space α) (h : dst ≤ x ∧ x < dst + n) :
    move s src n dst x = s (src + (x - dst)) := if_pos h

theorem move_left (s : Space α) (hdst : ¬ (dst ≤ x ∧ x < dst + n))
    (hsrc : src ≤ x ∧ x < src + n) : move s src n dst x = none := by
  unfold move
  rw [if_neg hdst, if_pos hsrc]

theorem move_outside (s : Space α) (hdst : ¬ (dst ≤ x ∧ x < dst + n))
    (hsrc : ¬ (src ≤ x ∧ x < src + n)) : move s src n dst x = s x := by
  unfold move
  rw [if_neg hdst, if_neg hsrc]

theorem Free.apart {b m : ℕ} (h : Free s a n) (hn : 0 < n) (hm : 0 < m)
    (hused : ∀ x, b ≤ x → x < b + m → s x ≠ none) : Apart a n b m := by
  by_contra hover
  unfold Apart at hover
  exact hused (max a b) (by omega) (by omega) (h (max a b) (by omega) (by omega))

/-- The goal of a move starts below the block and the guard is its first part, or it ends above
the block and the guard is its last part. -/
def Guards (g p src n dst : ℕ) : Prop :=
  dst + p ≤ src ∧ src < dst + n ∧ g = dst ∨ src + p ≤ dst ∧ dst < src + n ∧ g + p = dst + n

/-- Moving a block out of the way and from there to its goal is a move, also if the block overlaps
its goal: no free block of that length meets the goal while the guard is there. -/
theorem move_around (z : α) (k : Placement α) {g p bound : ℕ} (hp : 0 < p)
    (hbound : ∀ x, bound ≤ x → s x = none) (hused : ∀ x, src ≤ x → x < src + n → s x ≠ none)
    (hguard : Guards g p src n dst) (hfree : Free s g p) :
    ∃ s₁, mremap (mapNew z (mapNew z s g p) (k.place (mapNew z s g p) n) n) src n
        (k.place (mapNew z s g p) n) = some s₁ ∧
      mremap s₁ (k.place (mapNew z s g p) n) n dst = some (move s src n dst) := by
  have hbound' : ∀ x, max bound (g + p) ≤ x → mapNew z s g p x = none := by
    intro x hx
    rw [mapNew_outside z s (by omega)]
    exact hbound x (by omega)
  have hplace := k.place_free n hbound'
  generalize k.place (mapNew z s g p) n = addr at hplace
  have hn : 0 < n := by
    unfold Guards at hguard
    omega
  have hnguard : Apart addr n g p := by
    apply hplace.apart hn hp
    intro x hlo hhi
    rw [mapNew_inside z s ⟨hlo, hhi⟩]
    exact Option.some_ne_none z
  have hnsrc : Apart addr n src n := by
    apply hplace.apart hn hn
    intro x hlo hhi
    by_cases hx : g ≤ x ∧ x < g + p
    · rw [mapNew_inside z s hx]
      exact Option.some_ne_none z
    · rw [mapNew_outside z s hx]
      exact hused x hlo hhi
  have hfar : Apart src n addr n ∧ Apart addr n dst n := by
    unfold Guards at hguard
    unfold Apart at hnguard hnsrc ⊢
    omega
  refine ⟨_, if_pos hfar.1, ?_⟩
  unfold mremap
  rw [if_pos hfar.2]
  congr 1
  funext x
  unfold Guards at hguard
  unfold Apart at hnsrc
  by_cases hdst : dst ≤ x ∧ x < dst + n
  · rw [move_inside _ hdst, move_inside _ (by omega), move_inside _ hdst,
      mapNew_outside _ _ (by omega)]
    have hoff : src + (addr + (x - dst) - addr) = src + (x - dst) := by omega
    rw [hoff]
    by_cases hx : g ≤ src + (x - dst) ∧ src + (x - dst) < g + p
    · exact absurd (hfree _ hx.1 hx.2) (hused _ (by omega) (by omega))
    · exact mapNew_outside z s hx
  by_cases haddr : addr ≤ x ∧ x < addr + n
  · rw [move_left _ hdst haddr, move_outside _ hdst (by omega)]
    have := hplace x haddr.1 haddr.2
    rw [mapNew_outside _ _ (by omega)] at this
    exact this.symm
  · rw [move_outside _ hdst haddr]
    by_cases hsrc : src ≤ x ∧ x < src + n
    · rw [move_left _ haddr hsrc, move_left _ hdst hsrc]
    · rw [move_outside _ haddr hsrc, move_outside _ hdst hsrc, mapNew_outside _ _ haddr,
        mapNew_outside _ _ (by omega)]

end Calls

section Layout

variable {ι : Type*} {I : List ι} {len : ι → ℕ} {cell : ι → ℕ → α} {loc : ι → ℕ} {s : Space α}

/-- The blocks of `I` are at `loc`, apart from each other, and nothing else is mapped. -/
structure Laid (I : List ι) (len : ι → ℕ) (cell : ι → ℕ → α) (loc : ι → ℕ) (s : Space α) :
    Prop where
  cells : ∀ i ∈ I, ∀ off < len i, s (loc i + off) = some (cell i off)
  only : ∀ x c, s x = some c → ∃ i ∈ I, ∃ off < len i, x = loc i + off ∧ c = cell i off
  apart : ∀ i ∈ I, ∀ j ∈ I, i ≠ j → Apart (loc i) (len i) (loc j) (len j)

theorem Laid.used (h : Laid I len cell loc s) {i : ι} (hi : i ∈ I) (hlo : loc i ≤ x)
    (hhi : x < loc i + len i) : s x ≠ none := by
  have := h.cells i hi (x - loc i) (by omega)
  rw [Nat.add_sub_cancel' hlo] at this
  rw [this]
  exact Option.some_ne_none _

theorem Laid.bounded (h : Laid I len cell loc s) : ∃ bound, ∀ x, bound ≤ x → s x = none := by
  refine ⟨(I.map fun i => loc i + len i).sum, fun x hx => ?_⟩
  rw [Option.eq_none_iff_forall_ne_some]
  intro c hc
  obtain ⟨i, hi, off, hoff, rfl, -⟩ := h.only x c hc
  have : loc i + len i ≤ (I.map fun i => loc i + len i).sum :=
    List.le_sum_of_mem (List.mem_map.mpr ⟨i, hi, rfl⟩)
  omega

/-- A place that meets no other block is free up to the block itself. -/
theorem Laid.free (h : Laid I len cell loc s) {i : ι} (hself : Apart a n (loc i) (len i))
    (hothers : ∀ j ∈ I, j ≠ i → Apart a n (loc j) (len j)) : Free s a n := by
  intro x hlo hhi
  rw [Option.eq_none_iff_forall_ne_some]
  intro c hc
  obtain ⟨j, hj, off, hoff, rfl, -⟩ := h.only x c hc
  have hj : Apart a n (loc j) (len j) := by
    by_cases hji : j = i
    · exact hji ▸ hself
    · exact hothers j hj hji
  unfold Apart at hj
  omega

theorem Laid.move [DecidableEq ι] (h : Laid I len cell loc s) {i : ι} (hi : i ∈ I)
    (hdst : ∀ j ∈ I, j ≠ i → Apart dst (len i) (loc j) (len j)) :
    Laid I len cell (Function.update loc i dst) (move s (loc i) (len i) dst) := by
  have hself : Function.update loc i dst i = dst := Function.update_self i dst loc
  have hother : ∀ {j}, j ≠ i → Function.update loc i dst j = loc j := fun hj =>
    Function.update_of_ne hj dst loc
  constructor
  · intro j hj off hoff
    by_cases hji : j = i
    · subst hji
      rw [hself, move_inside s ⟨by omega, by omega⟩, Nat.add_sub_cancel_left]
      exact h.cells j hi off hoff
    · have h1 := hdst j hj hji
      have h2 := h.apart j hj i hi hji
      unfold Apart at h1 h2
      rw [hother hji, move_outside s (by omega) (by omega)]
      exact h.cells j hj off hoff
  · intro x c hx
    by_cases hin : dst ≤ x ∧ x < dst + len i
    · rw [move_inside s hin, h.cells i hi _ (by omega)] at hx
      refine ⟨i, hi, x - dst, by omega, ?_, (Option.some_inj.mp hx).symm⟩
      omega
    by_cases hleft : loc i ≤ x ∧ x < loc i + len i
    · rw [move_left s hin hleft] at hx
      exact absurd hx.symm (Option.some_ne_none c)
    rw [move_outside s hin hleft] at hx
    obtain ⟨j, hj, off, hoff, rfl, hc⟩ := h.only x c hx
    have hji : j ≠ i := by
      rintro rfl
      exact hleft ⟨by omega, by omega⟩
    exact ⟨j, hj, off, hoff, by rw [hother hji], hc⟩
  · intro j hj l hl hjl
    by_cases hji : j = i
    · subst hji
      rw [hself, hother (Ne.symm hjl)]
      exact hdst l hl (Ne.symm hjl)
    rw [hother hji]
    by_cases hli : l = i
    · subst hli
      rw [hself]
      exact (hdst j hj hji).symm
    · rw [hother hli]
      exact h.apart j hj l hl hjl

end Layout

end AddressSpace

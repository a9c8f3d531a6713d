import Mathlib.Algebra.GroupWithZero.Nat
import Mathlib.Data.List.Induction

/-!
Blocks in lanes. Each block of a list lies in a lane, behind the blocks of that lane that come
before it in the list. So the blocks of a lane cover it from its start without gaps, and each can
be cut out of what the lane holds by its offset and size.
-/

namespace Lanes

open List

variable {β γ : Type*} (lane size off : β → ℕ)

def used (p : ℕ) (l : List β) : ℕ := ((l.filter fun x => lane x = p).map size).sum

def Placed (l : List β) : Prop :=
  ∀ pre x post, l = pre ++ x :: post → off x = used lane size (lane x) pre

theorem used_append (p : ℕ) (l r : List β) :
    used lane size p (l ++ r) = used lane size p l + used lane size p r := by
  simp [used]

theorem used_cons_self (x : β) (l : List β) :
    used lane size (lane x) (x :: l) = size x + used lane size (lane x) l := by
  simp [used]

variable {l pre post : List β} {p : ℕ} {x : β}

theorem used_eq_zero (h : ∀ x ∈ l, lane x ≠ p) : used lane size p l = 0 := by
  rw [used, filter_eq_nil_iff.mpr fun x hx => by simpa using h x hx]
  rfl

theorem used_map (f : γ → β) (p : ℕ) (l : List γ) :
    used lane size p (l.map f) = used (lane ∘ f) (size ∘ f) p l := by
  rw [used, filter_map, map_map]
  rfl

variable {lane size off}

theorem placed_nil : Placed lane size off [] := by
  intro pre x post h
  exact absurd h.symm (by simp)

theorem Placed.left {r : List β} (h : Placed lane size off (l ++ r)) : Placed lane size off l := by
  intro pre x post hl
  refine h pre x (post ++ r) ?_
  rw [hl, append_assoc, cons_append]

theorem placed_concat : Placed lane size off (l ++ [x]) ↔
      Placed lane size off l ∧ off x = used lane size (lane x) l := by
  constructor
  · exact fun h => ⟨h.left, h l x [] rfl⟩
  rintro ⟨hl, hx⟩ pre y post h
  rcases eq_nil_or_concat post with rfl | ⟨post', z, rfl⟩
  · obtain ⟨rfl, hy⟩ := append_inj' h rfl
    obtain rfl := singleton_inj.mp hy
    exact hx
  · rw [concat_eq_append, ← cons_append, ← append_assoc] at h
    exact hl pre y post' (append_inj' h rfl).1

theorem placed_map {f : γ → β} {l : List γ} :
    Placed lane size off (l.map f) ↔ Placed (lane ∘ f) (size ∘ f) (off ∘ f) l := by
  induction l using reverseRecOn with
  | nil => exact ⟨fun _ => placed_nil, fun _ => placed_nil⟩
  | append_singleton l x ih =>
    rw [map_append, map_singleton, placed_concat, placed_concat, ih, used_map]
    rfl

/-- The last block of a lane ends where the lane does. -/
theorem Placed.end_eq (h : Placed lane size off l)
    (hl : l = pre ++ x :: post) (hpost : ∀ y ∈ post, lane y ≠ lane x) :
    used lane size (lane x) l = off x + size x := by
  rw [h pre x post hl, hl, used_append, used_cons_self, used_eq_zero lane size hpost, Nat.add_zero]

theorem exists_last (h : ∃ x ∈ l, lane x = p) :
    ∃ pre x post, l = pre ++ x :: post ∧ lane x = p ∧ ∀ y ∈ post, lane y ≠ p := by
  induction l using reverseRecOn with
  | nil =>
    obtain ⟨x, hx, -⟩ := h
    exact absurd hx not_mem_nil
  | append_singleton l y ih =>
    by_cases hy : lane y = p
    · exact ⟨l, y, [], rfl, hy, nofun⟩
    obtain ⟨x, hx, hxp⟩ := h
    have hmem : x ∈ l := by
      rcases mem_append.mp hx with hx | hx
      · exact hx
      · exact absurd (mem_singleton.mp hx ▸ hxp) hy
    obtain ⟨pre, z, post, hl, hz, hpost⟩ := ih ⟨x, hmem, hxp⟩
    refine ⟨pre, z, post ++ [y], by rw [hl, append_assoc, cons_append], hz, ?_⟩
    exact forall_mem_append.mpr ⟨hpost, forall_mem_singleton.mpr hy⟩

section Content

variable {α : Type*} {data : β → List α} {unit : ℕ}

def content (lane : β → ℕ) (data : β → List α) (p : ℕ) (l : List β) : List α :=
  (l.filter fun x => lane x = p).flatMap data

theorem length_content (h : ∀ x ∈ l, (data x).length = size x * unit) :
    (content lane data p l).length = used lane size p l * unit := by
  induction l with
  | nil => simp [content, used]
  | cons x l ih =>
    have hl := ih fun y hy => h y (mem_cons_of_mem _ hy)
    rw [content] at hl
    by_cases hx : lane x = p
    · simp [content, used, hx, h x mem_cons_self, hl, Nat.add_mul]
    · simpa [content, used, hx] using hl

/-- The lane from the start of a block on. -/
theorem Placed.drop_content (h : Placed lane size off l) (data : β → List α)
    (hl : l = pre ++ x :: post) (hlen : ∀ y ∈ l, (data y).length = size y * unit) :
    (content lane data (lane x) l).drop (off x * unit) =
      data x ++ content lane data (lane x) post := by
  have hpre : (content lane data (lane x) pre).length = off x * unit := by
    rw [h pre x post hl]
    exact length_content fun y hy => hlen y (hl ▸ mem_append_left _ hy)
  rw [hl, ← hpre]
  simp [content]

end Content

end Lanes

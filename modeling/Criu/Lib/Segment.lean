import Mathlib.Data.List.Nodup
import Mathlib.Data.List.Perm.Subperm

/-!
Segments of a partial map between numbers. A segment maps `n` consecutive keys to
consecutive values; it is given by its graph, the list of its points. Cutting a segment
gives the same points, and moving it moves the keys only, so statements about maps that
are kept as lists of segments become statements about lists of points.
-/

namespace Segment

open List

/-- The points `(k, v), (k + 1, v + 1), …` of a segment of length `n`. -/
def points (k v n : ℕ) : List (ℕ × ℕ) := (List.range n).map (fun i => (k + i, v + i))

theorem points_add (k v n m : ℕ) :
    points k v (n + m) = points k v n ++ points (k + n) (v + n) m := by
  simp [points, range_add, Nat.add_assoc]

theorem mem_points {k v n : ℕ} {p : ℕ × ℕ} :
    p ∈ points k v n ↔ k ≤ p.1 ∧ p.1 < k + n ∧ p.2 = v + (p.1 - k) := by
  obtain ⟨a, m⟩ := p
  simp only [points, mem_map, mem_range, Prod.mk.injEq]
  constructor
  · intro h
    exact ⟨by omega, by omega, by omega⟩
  · intro h
    exact ⟨a - k, by omega, by omega, by omega⟩

theorem points_sorted (k v n : ℕ) : (points k v n).Pairwise (fun p q => p.1 < q.1) := by
  rw [points, pairwise_map]
  exact pairwise_lt_range.imp (fun h => Nat.add_lt_add_left h k)

/-- Move the keys from `s` to `t`. -/
def shift (s t : ℕ) (p : ℕ × ℕ) : ℕ × ℕ := (p.1 - s + t, p.2)

theorem map_shift_points {s k : ℕ} (t v n : ℕ) (h : s ≤ k) :
    (points k v n).map (shift s t) = points (k - s + t) v n := by
  simp only [points, map_map]
  apply map_congr_left
  simp only [Function.comp, shift, Prod.mk.injEq, and_true]
  omega

/-- Keys that are moved to where none is in use stay different. -/
theorem keys_move {stay moved : List (ℕ × ℕ)} (hstay : (stay.map Prod.fst).Nodup)
    (hmv : (moved.map Prod.fst).Nodup) {s t n : ℕ} (hmoved : ∀ p ∈ moved, s ≤ p.1 ∧ p.1 < s + n)
    (hfree : ∀ p ∈ stay, ¬ (t ≤ p.1 ∧ p.1 < t + n)) :
    ((stay ++ moved.map (shift s t)).map Prod.fst).Nodup := by
  rw [map_append, map_map, nodup_append]
  refine ⟨hstay, ?_, ?_⟩
  · have hinj : ∀ p ∈ moved, ∀ q ∈ moved, p.1 - s + t = q.1 - s + t → p.1 = q.1 := by
      intro p hp q hq heq
      have := hmoved p hp
      have := hmoved q hq
      omega
    rw [List.Nodup, pairwise_map] at hmv ⊢
    exact hmv.imp_of_mem (fun hp hq hne heq => hne (hinj _ hp _ hq heq))
  intro a ha b hb heq
  obtain ⟨p, hp, rfl⟩ := mem_map.mp ha
  obtain ⟨q, hq, rfl⟩ := mem_map.mp hb
  have := hmoved q hq
  apply hfree p hp
  simp only [Function.comp, shift] at heq
  omega

/-- A list of points that is a partial map with partial inverse. -/
structure Injective (l : List (ℕ × ℕ)) : Prop where
  keys : (l.map Prod.fst).Nodup
  values : (l.map Prod.snd).Nodup

namespace Injective

variable {l l' : List (ℕ × ℕ)}

theorem perm (h : Injective l) (hp : l'.Perm l) : Injective l' :=
  ⟨((hp.map _).nodup_iff).mpr h.keys, ((hp.map _).nodup_iff).mpr h.values⟩

theorem subperm (h : Injective l) (hs : l'.Subperm l) : Injective l' := by
  obtain ⟨m, hperm, hsub⟩ := hs
  exact Injective.perm ⟨h.keys.sublist (hsub.map _), h.values.sublist (hsub.map _)⟩ hperm.symm

theorem sublist (h : Injective l) (hs : l'.Sublist l) : Injective l' := h.subperm hs.subperm

/-- Moving some of the points to keys that are not in use keeps the map injective. -/
theorem move {stay moved : List (ℕ × ℕ)} (h : Injective (stay ++ moved)) {s t n : ℕ}
    (hmoved : ∀ p ∈ moved, s ≤ p.1 ∧ p.1 < s + n) (hfree : ∀ p ∈ stay, ¬ (t ≤ p.1 ∧ p.1 < t + n)) :
    Injective (stay ++ moved.map (shift s t)) := by
  obtain ⟨hkeys, hvalues⟩ := h
  rw [map_append] at hkeys hvalues
  obtain ⟨hstay, hmv, -⟩ := nodup_append.mp hkeys
  refine ⟨keys_move hstay hmv hmoved hfree, ?_⟩
  rw [map_append, map_map]
  exact hvalues

end Injective

end Segment

import Mathlib.Order.Basic
import Criu.IovLists

/-!
What the list operations of criu/uffd.c do to the tracked points. Extracting a range and
inserting one lose nothing. Dropping a range removes points of the range only, and all of
them exactly if the loop has not gone past a range that is to be cut when it comes to it; the
loops are written for sorted lists. Remapping leaves what dropping leaves, and moves the
rest.
-/

namespace Criu.IovTracking

open Segment IovLists Pagemap List

variable {len src dst x : ℕ} {l l' ms rest pre : List LazyIov} {u iov v : LazyIov} {off : ℕ → ℕ}
  {p : ℕ × ℕ}

def iovPoints (v : LazyIov) : List (ℕ × ℕ) := points v.start v.img (v.stop - v.start)

def tracked (l : List LazyIov) : List (ℕ × ℕ) := l.flatMap iovPoints

theorem mem_iovPoints :
    p ∈ iovPoints v ↔ v.start ≤ p.1 ∧ p.1 < v.stop ∧ p.2 = v.img + (p.1 - v.start) := by
  rw [iovPoints, mem_points]
  exact and_congr_right fun _ => and_congr_left fun _ => by omega

theorem mem_tracked : p ∈ tracked l ↔ ∃ v ∈ l, p ∈ iovPoints v := mem_flatMap

@[simp] theorem tracked_nil : tracked [] = [] := rfl

@[simp] theorem tracked_cons (v : LazyIov) (l : List LazyIov) :
    tracked (v :: l) = iovPoints v ++ tracked l := flatMap_cons

@[simp] theorem tracked_append (l l' : List LazyIov) :
    tracked (l ++ l') = tracked l ++ tracked l' := flatMap_append

theorem tracked_perm (h : l.Perm l') : (tracked l).Perm (tracked l') :=
  h.flatMap_right _

def Filled (l : List LazyIov) : Prop := ∀ v ∈ l, v.start < v.stop

/-- `u` is cut out of `v`. -/
structure Piece (u v : LazyIov) : Prop where
  lo : v.start ≤ u.start
  lt : u.start < u.stop
  hi : u.stop ≤ v.stop
  img : u.img = v.img + (u.start - v.start)

theorem Piece.refl (h : v.start < v.stop) : Piece v v :=
  ⟨le_refl _, h, le_refl _, by omega⟩

theorem Piece.trans {w : LazyIov} (h : Piece u v) (h' : Piece v w) : Piece u w := by
  obtain ⟨hlo, hlt, hhi, himg⟩ := h
  obtain ⟨hlo', hlt', hhi', himg'⟩ := h'
  exact ⟨by omega, hlt, by omega, by omega⟩

/-- Every range of `l'` is cut out of one of `l`. -/
def CutFrom (l' l : List LazyIov) : Prop := ∀ u ∈ l', ∃ v ∈ l, Piece u v

theorem CutFrom.filled (h : CutFrom l' l) : Filled l' := by
  intro u hu
  obtain ⟨v, -, hpiece⟩ := h u hu
  exact hpiece.lt

theorem CutFrom.append {k k' : List LazyIov} (h : CutFrom l' l) (h' : CutFrom k' k) :
    CutFrom (l' ++ k') (l ++ k) :=
  forall_mem_append.mpr ⟨fun u hu => (h u hu).imp fun _ hv => ⟨mem_append_left _ hv.1, hv.2⟩,
    fun u hu => (h' u hu).imp fun _ hv => ⟨mem_append_right _ hv.1, hv.2⟩⟩

theorem CutFrom.cons (h : CutFrom l' l) (v : LazyIov) : CutFrom l' (v :: l) :=
  fun u hu => exists_mem_cons_of_exists (h u hu)

theorem iovPoints_split (hlo : v.start ≤ x) (hhi : x ≤ v.stop) :
    iovPoints v = iovPoints (splitIov v x).1 ++ iovPoints (splitIov v x).2 := by
  unfold iovPoints splitIov
  obtain ⟨n, rfl⟩ : ∃ n, x = v.start + n := ⟨x - v.start, by omega⟩
  obtain ⟨m, hm⟩ : ∃ m, v.stop = v.start + n + m := ⟨v.stop - (v.start + n), by omega⟩
  simp only [hm]
  rw [show v.start + n + m - v.start = n + m by omega, points_add,
    show v.start + n - v.start = n by omega, show v.start + n + m - (v.start + n) = m by omega,
    show v.img + (v.start + n) - v.start = v.img + n by omega]

theorem piece_split (hlo : v.start < x) (hhi : x < v.stop) :
    Piece (splitIov v x).1 v ∧ Piece (splitIov v x).2 v := by
  constructor
  · exact ⟨le_refl _, hlo, by simp only [splitIov]; omega, by simp [splitIov]⟩
  · exact ⟨by simp only [splitIov]; omega, hhi, le_refl _, by simp only [splitIov]; omega⟩

theorem tracked_inside {lo hi : ℕ} (h : ∀ u ∈ ms, lo ≤ u.start ∧ u.stop ≤ hi) :
    ∀ p ∈ tracked ms, lo ≤ p.1 ∧ p.1 < hi := by
  intro p hp
  obtain ⟨v, hv, hpv⟩ := mem_tracked.mp hp
  have := h v hv
  have := mem_iovPoints.mp hpv
  omega

theorem mem_values {m : ℕ} (hlo : v.img ≤ m) (hhi : m < v.img + (v.stop - v.start)) :
    m ∈ (iovPoints v).map Prod.snd := by
  refine mem_map.mpr ⟨(v.start + (m - v.img), m), mem_iovPoints.mpr ⟨?_, ?_, ?_⟩, rfl⟩
  · exact Nat.le_add_right _ _
  · omega
  · omega

section Apart

/-- If the points of a list have different names, ranges that have a name for each place between
`lo` and `hi` are apart there. -/
theorem apart_of_nodup {g : ℕ × ℕ → ℕ} {lo hi : LazyIov → ℕ} (h : ((tracked l).map g).Nodup)
    (hlt : ∀ v ∈ l, lo v < hi v) (hmem : ∀ v a, lo v ≤ a → a < hi v → a ∈ (iovPoints v).map g) :
    l.Pairwise (fun u v => hi u ≤ lo v ∨ hi v ≤ lo u) := by
  rw [tracked, map_flatMap, nodup_flatMap] at h
  refine h.2.imp_of_mem ?_
  intro u v hu hv hdisj
  have huf := hlt u hu
  have hvf := hlt v hv
  by_contra hmeet
  have hu' := hmem u (max (lo u) (lo v)) (le_max_left _ _) (by omega)
  exact hdisj hu' (hmem v _ (le_max_right _ _) (by omega))

theorem apart_of_keys (h : ((tracked l).map Prod.fst).Nodup) (hf : Filled l) :
    l.Pairwise (fun u v => u.stop ≤ v.start ∨ v.stop ≤ u.start) :=
  apart_of_nodup h hf fun v a hlo hhi =>
    mem_map.mpr ⟨(a, v.img + (a - v.start)), mem_iovPoints.mpr ⟨hlo, hhi, rfl⟩, rfl⟩

/-- Ranges of an injective list do not share addresses. -/
theorem apart_of_injective (h : Injective (tracked l)) (hf : Filled l) :
    l.Pairwise (fun u v => u.stop ≤ v.start ∨ v.stop ≤ u.start) :=
  apart_of_keys h.keys hf

theorem img_apart_of_injective (h : Injective (tracked l)) (hf : Filled l) :
    l.Pairwise (fun u v => u.img + (u.stop - u.start) ≤ v.img ∨
      v.img + (v.stop - v.start) ≤ u.img) := by
  refine apart_of_nodup h.values (fun v hv => ?_) fun _ _ => mem_values
  have := hf v hv
  omega

theorem nodup_of_apart {lo hi : LazyIov → ℕ} (hlt : ∀ v ∈ l, lo v < hi v)
    (h : l.Pairwise (fun u v => hi u ≤ lo v ∨ hi v ≤ lo u)) : (l.map lo).Nodup := by
  rw [List.Nodup, pairwise_map]
  refine h.imp_of_mem ?_
  intro u v hu hv hapart
  have huf := hlt u hu
  have hvf := hlt v hv
  omega

theorem imgs_nodup (h : Injective (tracked l)) (hf : Filled l) : (l.map LazyIov.img).Nodup := by
  refine nodup_of_apart (fun v hv => ?_) (img_apart_of_injective h hf)
  have := hf v hv
  omega

end Apart

def Ordered (l : List LazyIov) : Prop := l.Pairwise (fun u v => u.stop ≤ v.start)

theorem Ordered.sorted (h : Ordered l) : (tracked l).Pairwise (fun p q => p.1 < q.1) := by
  rw [tracked, pairwise_flatMap]
  refine ⟨fun v _ => points_sorted .., h.imp ?_⟩
  intro u v huv p hp q hq
  have := mem_iovPoints.mp hp
  have := mem_iovPoints.mp hq
  omega

theorem Ordered.keys_nodup (h : Ordered l) : ((tracked l).map Prod.fst).Nodup := by
  rw [List.Nodup, pairwise_map]
  exact h.sorted.imp (fun hlt => Nat.ne_of_lt hlt)

section Insert

variable {new : LazyIov} {dst : List LazyIov}

theorem insertLoop_perm {dst' : List LazyIov} (h : insertLoop new dst = some dst') :
    dst'.Perm (new :: dst) := by
  induction dst generalizing dst' with
  | nil => cases h
  | cons iov rest ih =>
    unfold insertLoop at h
    split at h
    · cases h
      exact .refl _
    split at h
    · next hlast =>
      cases h
      rw [isEmpty_iff.mp hlast.1]
      exact .swap ..
    · obtain ⟨dst₁, hrun, rfl⟩ := Option.map_eq_some_iff.mp h
      exact ((ih hrun).cons iov).trans (.swap ..)

theorem iovListInsert_perm {dst' : List LazyIov} (h : iovListInsert new dst = some dst') :
    dst'.Perm (new :: dst) := by
  unfold iovListInsert at h
  split at h
  · next hempty =>
    cases h
    rw [isEmpty_iff.mp hempty]
  · exact insertLoop_perm h

/-- A range whose start is new to the list is inserted, and in order if the list is. -/
theorem insertLoop_some (hne : dst ≠ []) (hnew : ∀ v ∈ dst, v.start ≠ new.start) :
    ∃ dst', insertLoop new dst = some dst' ∧
      (dst.Pairwise (fun u v => u.start < v.start) →
        dst'.Pairwise (fun u v => u.start < v.start)) := by
  induction dst with
  | nil => exact absurd rfl hne
  | cons iov rest ih =>
    obtain ⟨hhead, hrest⟩ := forall_mem_cons.mp hnew
    unfold insertLoop
    by_cases hlt : new.start < iov.start
    · refine ⟨_, if_pos hlt, fun hs => ?_⟩
      exact pairwise_cons.mpr ⟨forall_mem_cons.mpr ⟨hlt, fun v hv =>
        lt_trans hlt ((pairwise_cons.mp hs).1 v hv)⟩, hs⟩
    rw [if_neg hlt]
    cases rest with
    | nil =>
      refine ⟨_, if_pos ⟨rfl, by omega⟩, fun _ => ?_⟩
      simp only [pairwise_cons, mem_singleton, forall_eq, not_mem_nil, List.Pairwise.nil]
      exact ⟨by omega, fun _ h => False.elim h, trivial⟩
    | cons v rest =>
      obtain ⟨dst', hrun, hsorted⟩ := ih (by simp) hrest
      refine ⟨iov :: dst', ?_, fun hs => ?_⟩
      · rw [hrun]
        rfl
      obtain ⟨hiov, hs'⟩ := pairwise_cons.mp hs
      refine pairwise_cons.mpr ⟨?_, hsorted hs'⟩
      intro w hw
      rcases mem_cons.mp ((insertLoop_perm hrun).mem_iff.mp hw) with rfl | hw
      · omega
      · exact hiov w hw

theorem iovListInsert_some (hnew : ∀ v ∈ dst, v.start ≠ new.start) :
    ∃ dst', iovListInsert new dst = some dst' ∧
      (dst.Pairwise (fun u v => u.start < v.start) →
        dst'.Pairwise (fun u v => u.start < v.start)) := by
  unfold iovListInsert
  by_cases hempty : dst = []
  · subst hempty
    exact ⟨[new], rfl, fun _ => pairwise_singleton _ _⟩
  · rw [if_neg (by simpa using hempty)]
    exact insertLoop_some hempty hnew

/-- A merge loses nothing: a range that is not inserted is left in the source list. -/
theorem mergeIovLists_perm (src dst : List LazyIov) :
    ((mergeIovLists src dst).1 ++ (mergeIovLists src dst).2).Perm (src ++ dst) := by
  induction src generalizing dst with
  | nil => exact .refl _
  | cons iov rest ih =>
    rw [mergeIovLists]
    cases hins : iovListInsert iov dst with
    | none => exact (ih dst).cons iov
    | some dst' =>
      exact (ih dst').trans (((iovListInsert_perm hins).append_left rest).trans perm_middle)

/-- Nothing is left behind when the starts of the source list are new. -/
theorem mergeIovLists_ok {src : List LazyIov} (hsrc : (src.map LazyIov.start).Nodup)
    (hnew : ∀ u ∈ src, ∀ v ∈ dst, v.start ≠ u.start) :
    (mergeIovLists src dst).1 = [] ∧ (dst.Pairwise (fun u v => u.start < v.start) →
      (mergeIovLists src dst).2.Pairwise (fun u v => u.start < v.start)) := by
  induction src generalizing dst with
  | nil => exact ⟨rfl, id⟩
  | cons iov rest ih =>
    rw [map_cons, nodup_cons] at hsrc
    obtain ⟨hiov, hrest⟩ := forall_mem_cons.mp hnew
    obtain ⟨dst₁, hrun, hsorted⟩ := iovListInsert_some hiov
    have hnew₁ : ∀ u ∈ rest, ∀ v ∈ dst₁, v.start ≠ u.start := by
      intro u hu v hv
      rcases mem_cons.mp ((iovListInsert_perm hrun).mem_iff.mp hv) with rfl | hv
      · exact fun heq => hsrc.1 (heq ▸ mem_map_of_mem hu)
      · exact hrest u hu v hv
    obtain ⟨hleft, hsorted₁⟩ := ih hsrc.2 hnew₁
    rw [mergeIovLists, hrun]
    exact ⟨hleft, fun hs => hsorted₁ (hsorted hs)⟩

end Insert

theorem Ordered.starts (h : Ordered l) (hf : Filled l) :
    l.Pairwise (fun u v => u.start < v.start) := by
  refine List.Pairwise.imp_of_mem ?_ h
  intro u v hu _ huv
  have := hf u hu
  omega

theorem ordered_of_starts (hs : l.Pairwise (fun u v => u.start < v.start))
    (h : ((tracked l).map Prod.fst).Nodup) (hf : Filled l) : Ordered l := by
  refine (hs.and (apart_of_keys h hf)).imp_of_mem ?_
  intro u v hu hv hboth
  have := hf v hv
  omega

variable {addr start stop : ℕ}

section Extract

/-- Replacing a range by pieces of it keeps a list ordered. -/
theorem ordered_replace {post mids : List LazyIov} (h : Ordered (pre ++ iov :: post))
    (hpiece : ∀ u ∈ mids, Piece u iov) (hmids : Ordered mids) :
    Ordered (pre ++ (mids ++ post)) := by
  obtain ⟨hpre, hrest, hcross⟩ := pairwise_append.mp h
  obtain ⟨hiov, hpost⟩ := pairwise_cons.mp hrest
  refine pairwise_append.mpr ⟨hpre, pairwise_append.mpr ⟨hmids, hpost, ?_⟩, ?_⟩
  · intro u hu v hv
    exact le_trans (hpiece u hu).hi (hiov v hv)
  · intro u hu
    obtain ⟨hfirst, hlater⟩ := forall_mem_cons.mp (hcross u hu)
    exact forall_mem_append.mpr ⟨fun v hv => le_trans hfirst (hpiece v hv).lo, hlater⟩

structure Cuts (iov : LazyIov) (l : List LazyIov) : Prop where
  points : tracked l = iovPoints iov
  piece : ∀ u ∈ l, Piece u iov
  ordered : Ordered l

theorem Cuts.split (pre : List LazyIov) {post : List LazyIov} (h : Cuts iov (pre ++ v :: post))
    (hlo : v.start < x) (hhi : x < v.stop) :
    Cuts iov (pre ++ ([(splitIov v x).1, (splitIov v x).2] ++ post)) := by
  obtain ⟨hpre, hv⟩ := forall_mem_append.mp h.piece
  obtain ⟨hv, hpost⟩ := forall_mem_cons.mp hv
  have hmids : ∀ u ∈ [(splitIov v x).1, (splitIov v x).2], Piece u v := by
    simpa using piece_split hlo hhi
  refine ⟨?_, ?_, ordered_replace h.ordered hmids (by simp [Ordered, splitIov])⟩
  · simpa [iovPoints_split (le_of_lt hlo) (le_of_lt hhi)] using h.points
  · exact forall_mem_append.mpr ⟨hpre, forall_mem_append.mpr
      ⟨fun u hu => (hmids u hu).trans hv, hpost⟩⟩

/-- A range with its middle cut out by `extract_range`. -/
structure CutOut (iov : LazyIov) (lo hi : ℕ) (before : List LazyIov) (mid : LazyIov)
    (after : List LazyIov) : Prop where
  run : extractRange iov lo hi = (before, mid, after)
  cuts : Cuts iov (before ++ mid :: after)
  start : mid.start = lo
  stop : mid.stop = min hi iov.stop
  starts : ∀ u ∈ before ++ after, u.start = iov.start ∨ u.start = hi
  stops : ∀ u ∈ before ++ after, u.stop = lo ∨ u.stop = iov.stop

theorem extractRange_ok (hlo : iov.start ≤ start) (hin : start < iov.stop) (hlt : start < stop) :
    ∃ before mid after, CutOut iov start stop before mid after := by
  have hself : Cuts iov ([] ++ [iov]) := ⟨by simp, by simp [Piece.refl (lt_of_le_of_lt hlo hin)],
    pairwise_singleton ..⟩
  by_cases htail : stop < iov.stop
  · have hhead := hself.split [] (lt_of_le_of_lt hlo hlt) htail
    have hmin : stop = min stop iov.stop := (min_eq_left (le_of_lt htail)).symm
    by_cases heq : start = iov.start
    · exact ⟨[], _, [_], by simp [extractRange, htail, heq, splitIov], hhead, heq.symm, hmin,
        by simp [splitIov], by simp [splitIov]⟩
    · exact ⟨[_], _, [_], by simp [extractRange, htail, heq, splitIov],
        hhead.split [] (lt_of_le_of_ne hlo (Ne.symm heq)) hlt, rfl, hmin, by simp [splitIov],
        by simp [splitIov]⟩
  · have hmin : iov.stop = min stop iov.stop := (min_eq_right (not_lt.mp htail)).symm
    by_cases heq : start = iov.start
    · exact ⟨[], iov, [], by simp [extractRange, htail, heq], hself, heq.symm, hmin, nofun, nofun⟩
    · exact ⟨[_], _, [], by simp [extractRange, htail, heq],
        hself.split [] (lt_of_le_of_ne hlo (Ne.symm heq)) hin, rfl, hmin, by simp [splitIov],
        by simp [splitIov]⟩

namespace CutOut

variable {lo hi : ℕ} {before after : List LazyIov} {mid : LazyIov}
  (h : CutOut iov lo hi before mid after)
include h

theorem piece : ∀ u ∈ before ++ after, Piece u iov := fun u hu =>
  h.cuts.piece u (((sublist_cons_self mid after).append_left before).subset hu)

theorem apart : ∀ u ∈ before ++ after, u.stop ≤ mid.start ∨ mid.stop ≤ u.start := by
  obtain ⟨-, hmid, hcross⟩ := pairwise_append.mp h.cuts.ordered
  exact forall_mem_append.mpr ⟨fun u hu => .inl (hcross u hu mid mem_cons_self),
    fun u hu => .inr ((pairwise_cons.mp hmid).1 u hu)⟩

theorem edges {P : ℕ → Prop} (hlo : P lo) (hhi : P hi) (hiov : P iov.start ∧ P iov.stop) :
    ∀ u ∈ before ++ mid :: after, P u.start ∧ P u.stop := by
  have hmid : P mid.start ∧ P mid.stop := ⟨h.start ▸ hlo, h.stop ▸ min_rec' P hhi hiov.2⟩
  have hrest : ∀ u ∈ before ++ after, P u.start ∧ P u.stop := fun u hu =>
    ⟨(h.starts u hu).elim (· ▸ hiov.1) (· ▸ hhi), (h.stops u hu).elim (· ▸ hlo) (· ▸ hiov.2)⟩
  obtain ⟨hbefore, hafter⟩ := forall_mem_append.mp hrest
  exact forall_mem_append.mpr ⟨hbefore, forall_mem_cons.mpr ⟨hmid, hafter⟩⟩

end CutOut

end Extract

section Drop

theorem dropIovs_zero (l : List LazyIov) (addr : ℕ) : dropIovs l addr 0 = l := by
  cases l with
  | nil => rfl
  | cons iov rest => exact if_pos (.inl rfl)

theorem remapLoop_zero (off : ℕ → ℕ) (l : List LazyIov) (src : ℕ) :
    remapLoop off l src 0 = (l, []) := by
  induction l with
  | nil => rfl
  | cons iov rest ih =>
    rw [remapLoop]
    by_cases hskip : iov.stop ≤ src
    · rw [if_pos hskip, ih]
    · rw [if_neg hskip, if_pos (.inl rfl)]

def moveIov (off : ℕ → ℕ) (v : LazyIov) : LazyIov := ⟨off v.start, off v.stop, v.img⟩

/-- The range and `[s, e)` have an address in common. -/
def Meets (s e : ℕ) (v : LazyIov) : Prop := s < e ∧ v.start < e ∧ s < v.stop

instance (s e : ℕ) (v : LazyIov) : Decidable (Meets s e v) :=
  inferInstanceAs (Decidable (s < e ∧ v.start < e ∧ s < v.stop))

/-- Where the loops of `__drop_iovs` and `__remap_iovs` stand: at a range below the one that is
cut, behind it, or at one that it meets. -/
theorem met_cases (iov : LazyIov) (src len : ℕ) : iov.stop ≤ src ∨
    ¬ iov.stop ≤ src ∧ (len = 0 ∨ src + len ≤ iov.start) ∨ Meets src (src + len) iov := by
  unfold Meets
  omega

theorem dropIovs_skip (hf : iov.start < iov.stop) (h : iov.stop ≤ src) (rest : List LazyIov) :
    dropIovs (iov :: rest) src len = iov :: dropIovs rest src len := by
  by_cases hlen : len = 0
  · rw [hlen, dropIovs_zero, dropIovs_zero]
  · rw [dropIovs, if_neg (by omega), if_pos h]

theorem dropIovs_stop (hf : iov.start < iov.stop) (h : len = 0 ∨ src + len ≤ iov.start)
    (rest : List LazyIov) : dropIovs (iov :: rest) src len = iov :: rest := by
  rw [dropIovs]
  by_cases hbreak : len = 0 ∨ src + len < iov.start
  · exact if_pos hbreak
  -- the cut ends where this range begins
  have hlt : src < iov.start := by omega
  have hzero : len - (iov.start - src) = 0 := by omega
  rw [if_neg hbreak, if_neg (by omega)]
  simp [hlt, hzero, hf]

/-- A range that is met is cut like by `extract_range`, and the loops go on behind it. -/
theorem loops_met (off : ℕ → ℕ) (hf : iov.start < iov.stop) (h : Meets src (src + len) iov)
    (rest : List LazyIov) : ∃ before mid after,
      CutOut iov (max src iov.start) (src + len) before mid after ∧
      dropIovs (iov :: rest) src len =
        before ++ after ++ dropIovs rest iov.stop (src + len - iov.stop) ∧
      remapLoop off (iov :: rest) src len =
        (before ++ after ++ (remapLoop off rest iov.stop (src + len - iov.stop)).1,
          moveIov off mid :: (remapLoop off rest iov.stop (src + len - iov.stop)).2) := by
  obtain ⟨hlen, hhi, hlo⟩ := h
  have hsrc : (if src < iov.start then iov.start else src) = max src iov.start := by
    split <;> omega
  have hrem : (if src < iov.start then len - (iov.start - src) else len) =
      src + len - max src iov.start := by split <;> omega
  have hle := le_max_right src iov.start
  have hstop := max_lt hlo hf
  have hend := max_lt hlen hhi
  obtain ⟨before, mid, after, hcut⟩ := extractRange_ok hle hstop hend
  refine ⟨before, mid, after, hcut, ?_⟩
  have hrun := hcut.run
  have hskip : ¬ iov.stop ≤ src := not_le.mpr hlo
  have hbreak : ¬ (len = 0 ∨ src + len < iov.start) := by omega
  have hbreak' : ¬ (len = 0 ∨ src + len ≤ iov.start) := by omega
  simp only [dropIovs, remapLoop, hskip, hbreak, hbreak', hsrc, hrem]
  generalize max src iov.start = b at *
  have hsum : b + (src + len - b) = src + len := by omega
  have hleft : src + len - b - (iov.stop - b) = src + len - iov.stop := by omega
  rw [hsum]
  by_cases heq : b = iov.start
  · subst heq
    by_cases hfit : src + len < iov.stop
    · have hzero : src + len - iov.stop = 0 := by omega
      simp only [extractRange, hfit, splitIov, if_true] at hrun
      obtain ⟨rfl, rfl, rfl⟩ := hrun
      simp [hfit, hzero, splitIov, moveIov, dropIovs_zero, remapLoop_zero]
      omega
    · simp only [extractRange, hfit, if_false] at hrun
      obtain ⟨rfl, rfl, rfl⟩ := hrun
      simp [hfit, moveIov, hleft]
  · have hlt : iov.start < b := lt_of_le_of_ne hle (Ne.symm heq)
    by_cases hfit : src + len < iov.stop
    · have hzero : src + len - iov.stop = 0 := by omega
      simp only [extractRange, hfit, heq, splitIov, if_true] at hrun
      obtain ⟨rfl, rfl, rfl⟩ := hrun
      simp [hfit, hlt, hzero, splitIov, moveIov, dropIovs_zero, remapLoop_zero]
      omega
    · simp only [extractRange, hfit, heq, if_false] at hrun
      obtain ⟨rfl, rfl, rfl⟩ := hrun
      simp [hfit, heq, hlt, splitIov, moveIov, hleft]

/-- The ranges that stay are those that dropping the range would leave. -/
theorem remapLoop_stay (off : ℕ → ℕ) (hf : Filled l) (src len : ℕ) :
    (remapLoop off l src len).1 = dropIovs l src len := by
  induction l generalizing src len with
  | nil => rfl
  | cons iov rest ih =>
    obtain ⟨hiov, hrest⟩ := forall_mem_cons.mp hf
    rcases met_cases iov src len with h | h | h
    · rw [dropIovs_skip hiov h, remapLoop, if_pos h, ih hrest]
    · rw [dropIovs_stop hiov h.2, remapLoop, if_neg h.1, if_pos h.2]
    · obtain ⟨_, _, _, -, hdrop, hremap⟩ := loops_met off hiov h rest
      rw [hdrop, hremap, ih hrest]

/-- The ranges `l'` begin and end where ranges of `l` do, or at an end of the source range. -/
def Edges (src len : ℕ) (l l' : List LazyIov) : Prop :=
  ∀ P : ℕ → Prop, P src → P (src + len) → (∀ v ∈ l, P v.start ∧ P v.stop) →
    ∀ u ∈ l', P u.start ∧ P u.stop

/-- The moved ranges before the move: they are cut out of the source range, and together with those
that stay they track what the list tracked. What stays of a range begins with it or behind the
source range. -/
theorem remapLoop_moved (off : ℕ → ℕ) (hf : Filled l) (src len : ℕ) :
    ∃ ms, (remapLoop off l src len).2 = ms.map (moveIov off) ∧
      (tracked (dropIovs l src len) ++ tracked ms).Perm (tracked l) ∧
      (∀ u ∈ dropIovs l src len, ∃ v ∈ l, Piece u v ∧
        (u.start = v.start ∨ 0 < len ∧ u.start = src + len)) ∧
      CutFrom ms l ∧ Edges src len l (dropIovs l src len ++ ms) ∧
      (∀ u ∈ ms, src ≤ u.start ∧ u.stop ≤ src + len) ∧ Ordered ms := by
  induction l generalizing src len with
  | nil => exact ⟨[], rfl, .refl _, nofun, nofun, fun _ _ _ _ => nofun, nofun, .nil⟩
  | cons iov rest ih =>
    obtain ⟨hiov, hrest⟩ := forall_mem_cons.mp hf
    have hself : iov ∈ iov :: rest := mem_cons_self ..
    rcases met_cases iov src len with h | h | h
    · obtain ⟨ms, hms, hperm, hstay, hcut, hedges, hin, hord⟩ := ih hrest src len
      rw [dropIovs_skip hiov h, remapLoop, if_pos h]
      refine ⟨ms, hms, ?_, ?_, hcut.cons iov, ?_, hin, hord⟩
      · simp only [tracked_cons, append_assoc]
        exact hperm.append_left _
      · exact forall_mem_cons.mpr ⟨⟨iov, hself, .refl hiov, .inl rfl⟩,
          fun u hu => exists_mem_cons_of_exists (hstay u hu)⟩
      · intro P hsrc hend hl
        obtain ⟨hiovP, hrestP⟩ := forall_mem_cons.mp hl
        exact forall_mem_cons.mpr ⟨hiovP, hedges P hsrc hend hrestP⟩
    · rw [dropIovs_stop hiov h.2, remapLoop, if_neg h.1, if_pos h.2]
      exact ⟨[], rfl, by simp, fun u hu => ⟨u, hu, .refl (hf u hu), .inl rfl⟩, nofun,
        fun P _ _ hl => by rwa [append_nil], nofun, .nil⟩
    obtain ⟨before, mid, after, hx, hdrop, hremap⟩ := loops_met off hiov h rest
    obtain ⟨ms, hms, hperm, hstay, hcut, hedges, hin, hord⟩ :=
      ih hrest iov.stop (src + len - iov.stop)
    rw [hdrop, hremap]
    refine ⟨mid :: ms, by rw [hms, map_cons], ?_, ?_, ?_, ?_, ?_,
      pairwise_cons.mpr ⟨fun u hu => ?_, hord⟩⟩
    · simp only [tracked_cons, tracked_append, ← hx.cuts.points, append_assoc]
      refine List.Perm.append_left _ ?_
      rw [← append_assoc]
      refine (perm_append_comm_assoc _ _ _).trans (List.Perm.append_left _ ?_)
      rw [append_assoc]
      exact hperm.append_left _
    · refine forall_mem_append.mpr ⟨fun u hu => ⟨iov, hself, hx.piece u hu, ?_⟩, fun u hu => ?_⟩
      · exact (hx.starts u hu).imp_right fun he => ⟨by have := h.1; omega, he⟩
      · obtain ⟨v, hv, hpiece, hstart⟩ := hstay u hu
        have := h.2.2
        exact ⟨v, mem_cons_of_mem _ hv, hpiece, by omega⟩
    · exact forall_mem_cons.mpr ⟨⟨iov, hself, hx.cuts.piece mid (by simp)⟩, hcut.cons iov⟩
    · intro P hsrc hend hl
      obtain ⟨hiovP, hrestP⟩ := forall_mem_cons.mp hl
      have hhere := hx.edges (max_rec' P hsrc hiovP.1) hend hiovP
      have hmax : iov.stop + (src + len - iov.stop) = max iov.stop (src + len) := by omega
      have hlater := hedges P hiovP.2 (hmax ▸ max_rec' P hiovP.2 hend) hrestP
      simp only [forall_mem_append, forall_mem_cons] at hhere hlater ⊢
      exact ⟨⟨⟨hhere.1, hhere.2.2⟩, hlater.1⟩, hhere.2.1, hlater.2⟩
    · refine forall_mem_cons.mpr ⟨⟨hx.start ▸ le_max_left .., hx.stop ▸ min_le_left ..⟩, ?_⟩
      intro u hu
      have := hin u hu
      have := hcut.filled u hu
      have := h.2.2
      omega
    · rw [hx.stop]
      exact le_trans (min_le_right ..) (hin u hu).1

theorem dropIovs_subperm (hf : Filled l) (addr len : ℕ) :
    (tracked (dropIovs l addr len)).Subperm (tracked l) := by
  obtain ⟨ms, -, hperm, -⟩ := remapLoop_moved id hf addr len
  exact (sublist_append_left _ (tracked ms)).subperm.trans hperm.subperm

/-- A point that is gone was in the range. -/
theorem dropIovs_keeps (hf : Filled l) (hp : p ∈ tracked l)
    (hout : ¬ (addr ≤ p.1 ∧ p.1 < addr + len)) : p ∈ tracked (dropIovs l addr len) := by
  obtain ⟨ms, -, hperm, -, -, -, hin, -⟩ := remapLoop_moved id hf addr len
  rcases mem_append.mp (hperm.mem_iff.mpr hp) with hp | hp
  · exact hp
  · exact absurd (tracked_inside hin p hp) hout

theorem dropIovs_cut (hf : Filled l) (addr len : ℕ) : CutFrom (dropIovs l addr len) l := by
  obtain ⟨ms, -, -, hstay, -⟩ := remapLoop_moved id hf addr len
  intro u hu
  obtain ⟨v, hv, hpiece, -⟩ := hstay u hu
  exact ⟨v, hv, hpiece⟩

theorem dropIovs_ordered (h : Ordered l) (hf : Filled l) (addr len : ℕ) :
    Ordered (dropIovs l addr len) := by
  induction l generalizing addr len with
  | nil => exact .nil
  | cons iov rest ih =>
    obtain ⟨hiov, hrest⟩ := forall_mem_cons.mp hf
    obtain ⟨hbefore, hord⟩ := pairwise_cons.mp h
    have hmore : ∀ (a n : ℕ), ∀ u ∈ dropIovs rest a n, iov.stop ≤ u.start := by
      intro a n u hu
      obtain ⟨v, hv, hpiece⟩ := dropIovs_cut hrest a n u hu
      exact le_trans (hbefore v hv) hpiece.lo
    rcases met_cases iov addr len with hm | hm | hm
    · rw [dropIovs_skip hiov hm]
      exact pairwise_cons.mpr ⟨hmore addr len, ih hord hrest addr len⟩
    · rw [dropIovs_stop hiov hm.2]
      exact h
    · obtain ⟨before, mid, after, hx, hdrop, -⟩ := loops_met id hiov hm rest
      rw [hdrop]
      have hhead : Ordered ([] ++ iov :: dropIovs rest iov.stop (addr + len - iov.stop)) :=
        pairwise_cons.mpr ⟨hmore _ _, ih hord hrest _ _⟩
      exact ordered_replace hhead hx.piece
        (hx.cuts.ordered.sublist ((sublist_cons_self mid after).append_left before))

/-- Behind a range the loops stand at its end or above. The ranges that `[s, e)` meets come to
it in turn if what is to be cut of them is not below that. -/
def InTurn (s e : ℕ) (l : List LazyIov) : Prop :=
  l.Pairwise (fun u v => Meets s e v → u.stop ≤ max s v.start)

/-- What is left of a list meets `[s, e)` where a range lies below the address of the loop. -/
theorem dropIovs_reached (hf : Filled l) {s e : ℕ}
    (hclear : ∀ u ∈ dropIovs l addr len, ¬ Meets s e u) (hv : v ∈ l) (h : Meets s e v) :
    addr ≤ max s v.start := by
  by_contra hlt
  obtain ⟨hse, hlo, hhi⟩ := h
  have hvf := hf v hv
  have hp : (max s v.start, v.img + (max s v.start - v.start)) ∈ iovPoints v :=
    mem_iovPoints.mpr ⟨le_max_right .., max_lt hhi hvf, rfl⟩
  have hleft := @dropIovs_keeps len _ _ addr hf (mem_tracked.mpr ⟨v, hv, hp⟩)
    (by omega)
  obtain ⟨u, hu, hpu⟩ := mem_tracked.mp hleft
  obtain ⟨hlo', hhi', -⟩ := mem_iovPoints.mp hpu
  exact hclear u hu ⟨hse, by omega, by omega⟩

/-- The cut of `[s, e)`, with the loop at `addr`, is complete exactly if the loop is not past the
ranges that it meets, and will not be. -/
theorem dropIovs_clears_from (hf : Filled l) {s e : ℕ} (hs : s ≤ addr) :
    (∀ u ∈ dropIovs l addr (e - addr), ¬ Meets s e u) ↔
      (∀ v ∈ l, Meets s e v → addr ≤ max s v.start) ∧ InTurn s e l := by
  induction l generalizing addr with
  | nil => exact ⟨fun _ => ⟨nofun, .nil⟩, fun _ => nofun⟩
  | cons iov rest ih =>
    obtain ⟨hiov, hrest⟩ := forall_mem_cons.mp hf
    have hreach := fun hclear v => @dropIovs_reached (e - addr) _ v addr hf s e hclear
    rcases met_cases iov addr (e - addr) with h | h | h
    · rw [dropIovs_skip hiov h] at hreach ⊢
      constructor
      · intro hclear
        have hpos := hreach hclear
        obtain ⟨-, hturn⟩ := (ih hrest hs).mp (forall_mem_cons.mp hclear).2
        refine ⟨hpos, pairwise_cons.mpr ⟨fun v hv hm => ?_, hturn⟩⟩
        exact le_trans h (hpos v (mem_cons_of_mem _ hv) hm)
      · rintro ⟨hpos, hturn⟩
        obtain ⟨hhead, hpos⟩ := forall_mem_cons.mp hpos
        refine forall_mem_cons.mpr ⟨fun hm => ?_, (ih hrest hs).mpr ⟨hpos, hturn.of_cons⟩⟩
        have := hhead hm
        have := hm.2.2
        omega
    · rw [dropIovs_stop hiov h.2]
      constructor
      · intro hclear
        exact ⟨fun v hv hm => absurd hm (hclear v hv), .imp_of_mem
          (fun _ hv _ hm => absurd hm (hclear _ hv)) (pairwise_of_forall (fun _ _ => trivial))⟩
      · rintro ⟨hpos, hturn⟩ v hv hm
        have := hpos v hv hm
        have := hm.1
        have := hm.2.1
        rcases mem_cons.mp hv with rfl | hv
        · omega
        · have := (pairwise_cons.mp hturn).1 v hv hm
          omega
    have hend : addr + (e - addr) = e := by
      have := h.1
      omega
    rw [hend] at h
    obtain ⟨before, mid, after, hx, hdrop, -⟩ := loops_met id hiov (hend.symm ▸ h) rest
    rw [hend] at hdrop
    have hs' : s ≤ iov.stop := le_trans hs (le_of_lt h.2.2)
    rw [hdrop] at hreach ⊢
    constructor
    · intro hclear
      obtain ⟨hlater, hturn⟩ := (ih hrest hs').mp (forall_mem_append.mp hclear).2
      exact ⟨hreach hclear, pairwise_cons.mpr ⟨hlater, hturn⟩⟩
    · rintro ⟨hpos, hturn⟩
      obtain ⟨hlater, hturn⟩ := pairwise_cons.mp hturn
      refine forall_mem_append.mpr ⟨fun u hu hm => ?_, (ih hrest hs').mpr ⟨hlater, hturn⟩⟩
      obtain ⟨hlo, hlt, hhi, -⟩ := hx.piece u hu
      have hapart := hx.apart u hu
      rw [hx.start, hx.stop] at hapart
      have := hpos iov mem_cons_self ⟨hm.1, lt_of_le_of_lt hlo hm.2.1, lt_of_lt_of_le hm.2.2 hhi⟩
      unfold Meets at hm
      omega

/-- The cut is complete exactly if the ranges it meets are in turn. -/
theorem dropIovs_clears_iff (hf : Filled l) (addr len : ℕ) :
    (∀ u ∈ dropIovs l addr len, ¬ Meets addr (addr + len) u) ↔ InTurn addr (addr + len) l := by
  have h := dropIovs_clears_from hf (le_refl addr) (e := addr + len)
  rw [Nat.add_sub_cancel_left] at h
  rw [h]
  exact and_iff_right fun v _ _ => le_max_left ..

theorem Ordered.inTurn (h : Ordered l) (s e : ℕ) : InTurn s e l := by
  refine h.imp fun {u v} hle _ => ?_
  exact le_trans hle (le_max_right ..)

/-- A list that the range does not meet is left alone. -/
theorem dropIovs_apart (hf : Filled l) (h : ∀ v ∈ l, ¬ Meets addr (addr + len) v) :
    dropIovs l addr len = l := by
  induction l with
  | nil => rfl
  | cons iov rest ih =>
    obtain ⟨hiov, hrestf⟩ := forall_mem_cons.mp hf
    obtain ⟨hmeet, hrestm⟩ := forall_mem_cons.mp h
    rcases met_cases iov addr len with hm | hm | hm
    · rw [dropIovs_skip hiov hm, ih hrestf hrestm]
    · exact dropIovs_stop hiov hm.2 rest
    · exact absurd hm hmeet

end Drop

section Remap

theorem iovPoints_move (h : src ≤ v.start) (hf : v.start < v.stop) :
    iovPoints (moveIov (fun a => a - src + dst) v) = (iovPoints v).map (shift src dst) := by
  unfold iovPoints
  rw [map_shift_points dst _ _ h]
  simp only [moveIov]
  congr 1
  omega

theorem tracked_move (h : ∀ u ∈ ms, src ≤ u.start) (hf : Filled ms) :
    tracked (ms.map (moveIov (fun a => a - src + dst))) = (tracked ms).map (shift src dst) := by
  induction ms with
  | nil => rfl
  | cons v ms ih =>
    obtain ⟨hv, hms⟩ := forall_mem_cons.mp h
    obtain ⟨hvf, hmsf⟩ := forall_mem_cons.mp hf
    simp only [map_cons, tracked_cons, map_append, iovPoints_move hv hvf, ih hms hmsf]

/-- The list `l'` is `l` with the ranges `ms`, cut out of the source range, moved; but some may be
`left` in the list of those to be moved. -/
structure Remapped (src dst len : ℕ) (l left l' ms : List LazyIov) : Prop where
  perm : (left ++ l').Perm (dropIovs l src len ++ ms.map (moveIov (fun a => a - src + dst)))
  whole : (tracked (dropIovs l src len) ++ tracked ms).Perm (tracked l)
  cut : CutFrom ms l
  edges : Edges src len l (dropIovs l src len ++ ms)
  inside : ∀ u ∈ ms, src ≤ u.start ∧ u.stop ≤ src + len
  ordered : Ordered ms

namespace Remapped

variable {dst : ℕ} {left : List LazyIov}

section

variable (h : Remapped src dst len l left l' ms)
include h

theorem moved_points : ∀ p ∈ tracked ms, src ≤ p.1 ∧ p.1 < src + len := tracked_inside h.inside

theorem subset (hu : u ∈ l') :
    u ∈ dropIovs l src len ∨ ∃ v ∈ ms, moveIov (fun a => a - src + dst) v = u :=
  (mem_append.mp (h.perm.mem_iff.mp (mem_append_right _ hu))).imp_right mem_map.mp

theorem filled (hf : Filled l) : Filled l' := by
  intro u hu
  rcases h.subset hu with hu | ⟨v, hv, rfl⟩
  · exact (dropIovs_cut hf src len).filled u hu
  · have := h.cut.filled v hv
    have := (h.inside v hv).1
    simp only [moveIov]
    omega

end

variable (h : Remapped src dst len l [] l' ms)
include h

theorem tracked_perm' :
    (tracked l').Perm (tracked (dropIovs l src len) ++ (tracked ms).map (shift src dst)) := by
  rw [← tracked_move (fun u hu => (h.inside u hu).1) h.cut.filled, ← tracked_append]
  exact tracked_perm h.perm

theorem value_kept (hp : p ∈ tracked l) : ∃ q ∈ tracked l', q.2 = p.2 := by
  rcases mem_append.mp (h.whole.mem_iff.mpr hp) with hp | hp
  · exact ⟨p, h.tracked_perm'.mem_iff.mpr (mem_append_left _ hp), rfl⟩
  · exact ⟨shift src dst p, h.tracked_perm'.mem_iff.mpr
      (mem_append_right _ (mem_map_of_mem hp)), rfl⟩

end Remapped

theorem remapIovs_remapped (hf : Filled l) (src dst len : ℕ) :
    ∃ ms, remapIovs l src dst len =
        mergeIovLists (ms.map (moveIov (fun a => a - src + dst))) (dropIovs l src len) ∧
      Remapped src dst len l (remapIovs l src dst len).1 (remapIovs l src dst len).2 ms := by
  obtain ⟨ms, hms, hwhole, -, hcut, hedges, hin, hord⟩ :=
    remapLoop_moved (fun a => a - src + dst) hf src len
  have hrun : remapIovs l src dst len =
      mergeIovLists (ms.map (moveIov (fun a => a - src + dst))) (dropIovs l src len) := by
    simp only [remapIovs, hms, remapLoop_stay _ hf]
  refine ⟨ms, hrun, ?_, hwhole, hcut, hedges, hin, hord⟩
  rw [hrun]
  exact (mergeIovLists_perm ..).trans perm_append_comm

/-- If nothing is tracked at the destination, every range cut out of the source range is
moved, and none is left in `remaps`. -/
theorem remapIovs_ok (hf : Filled l) (src : ℕ)
    (hfree : ∀ p ∈ tracked l, ¬ (dst ≤ p.1 ∧ p.1 < dst + len)) :
    ∃ l' ms, remapIovs l src dst len = ([], l') ∧ Remapped src dst len l [] l' ms ∧
      (Ordered l → Ordered l') := by
  obtain ⟨ms, hrun, h⟩ := remapIovs_remapped hf src dst len
  have hdropf : Filled (dropIovs l src len) := (dropIovs_cut hf src len).filled
  have hstay : ∀ p ∈ tracked (dropIovs l src len), ¬ (dst ≤ p.1 ∧ p.1 < dst + len) := fun p hp =>
    hfree p ((dropIovs_subperm hf src len).subset hp)
  have hnew : ∀ u ∈ ms.map (moveIov (fun a => a - src + dst)), ∀ v ∈ dropIovs l src len,
      v.start ≠ u.start := by
    intro u hu v hv heq
    obtain ⟨w, hw, rfl⟩ := mem_map.mp hu
    have := h.inside w hw
    have := h.cut.filled w hw
    have hp : (v.start, v.img) ∈ iovPoints v :=
      mem_iovPoints.mpr ⟨le_refl _, hdropf v hv, by simp⟩
    refine hstay _ (mem_tracked.mpr ⟨v, hv, hp⟩) ?_
    simp only [moveIov] at heq
    omega
  have hnodup : ((ms.map (moveIov (fun a => a - src + dst))).map LazyIov.start).Nodup := by
    rw [List.Nodup, pairwise_map, pairwise_map]
    refine (h.ordered.starts h.cut.filled).imp_of_mem fun {u v} hu _ hlt => ?_
    have := (h.inside u hu).1
    simp only [moveIov]
    omega
  obtain ⟨hleft, hsorted⟩ := mergeIovLists_ok hnodup hnew
  rw [← hrun] at hleft hsorted
  rw [hleft] at h
  refine ⟨_, ms, Prod.ext hleft rfl, h, fun hord => ?_⟩
  have hdrop := dropIovs_ordered hord hf src len
  refine ordered_of_starts (hsorted (hdrop.starts hdropf)) ?_ (h.filled hf)
  rw [(h.tracked_perm'.map _).nodup_iff]
  exact keys_move hdrop.keys_nodup h.ordered.keys_nodup h.moved_points hstay

end Remap

structure Aligned (v : LazyIov) : Prop where
  start : pageSize ∣ v.start
  stop : pageSize ∣ v.stop
  img : pageSize ∣ v.img

theorem Aligned.piece (h : Aligned v) (hu : Piece u v)
    (hedge : pageSize ∣ u.start ∧ pageSize ∣ u.stop) : Aligned u :=
  ⟨hedge.1, hedge.2, hu.img ▸ Nat.dvd_add h.img (Nat.dvd_sub hedge.1 h.start)⟩

theorem Edges.aligned (h : Edges src len l l') (hcut : CutFrom l' l) (hal : ∀ v ∈ l, Aligned v)
    (hsrc : pageSize ∣ src) (hlen : pageSize ∣ len) : ∀ u ∈ l', Aligned u := by
  intro u hu
  obtain ⟨v, hv, hpiece⟩ := hcut u hu
  exact (hal v hv).piece hpiece (h _ hsrc (Nat.dvd_add hsrc hlen)
    (fun v hv => ⟨(hal v hv).start, (hal v hv).stop⟩) u hu)

theorem dropIovs_aligned (h : ∀ v ∈ l, Aligned v) (hf : Filled l)
    (haddr : pageSize ∣ addr) (hlen : pageSize ∣ len) : ∀ u ∈ dropIovs l addr len, Aligned u := by
  obtain ⟨ms, -, -, -, hcut, hedges, -⟩ := remapLoop_moved id hf addr len
  have hall := hedges.aligned (forall_mem_append.mpr ⟨dropIovs_cut hf addr len, hcut⟩) h haddr hlen
  exact (forall_mem_append.mp hall).1

theorem Remapped.aligned {left : List LazyIov} (h : Remapped src dst len l left l' ms)
    (hal : ∀ v ∈ l, Aligned v) (hf : Filled l) (hsrc : pageSize ∣ src) (hdst : pageSize ∣ dst)
    (hlen : pageSize ∣ len) :
    ∀ u ∈ l', Aligned u := by
  have hcut : CutFrom (dropIovs l src len ++ ms) l :=
    forall_mem_append.mpr ⟨dropIovs_cut hf src len, h.cut⟩
  obtain ⟨hstay, hms⟩ := forall_mem_append.mp (h.edges.aligned hcut hal hsrc hlen)
  have hmove : ∀ {a}, pageSize ∣ a → pageSize ∣ a - src + dst := fun ha =>
    Nat.dvd_add (Nat.dvd_sub ha hsrc) hdst
  intro u hu
  rcases h.subset hu with hu | ⟨v, hv, rfl⟩
  · exact hstay u hu
  · exact ⟨hmove (hms v hv).start, hmove (hms v hv).stop, (hms v hv).img⟩

end Criu.IovTracking

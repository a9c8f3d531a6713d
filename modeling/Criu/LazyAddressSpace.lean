import Criu.LazyRuns

/-!
UNMAP, REMOVE and REMAP events over every state that the daemon reaches. The loops are written
for sorted lists, and the requests in flight are in the order in which they were made: the range
is cleared, or moved, exactly if the ranges that it meets come to the loop in turn. `iovs` is
sorted as long as every REMAP goes to where nothing is tracked. The length of a dropped range is
also cut to an `int`.
-/

namespace Criu.LazyAddressSpace

open Run Segment Pagemap ReadCursor IovLists IovTracking LazyDaemon LazyState LazyRuns List

variable {s : ℕ} {d' d : Daemon} {v : LazyIov} {l : List LazyIov} {clear : Prop}

section Checked

instance (d : Daemon) (i : ℕ) : Decidable (Polled d i) :=
  inferInstanceAs (Decidable (i < d.count ∧ i ∉ d.pending ∧ (d.lpi i).exited = false ∧
    d.freed i = false))

instance (l : Lpi) (start stop : ℕ) : Decidable (Untracked l start stop) :=
  inferInstanceAs (Decidable (∀ v ∈ l.iovs ++ l.reqs, v.stop ≤ start ∨ stop ≤ v.start))

instance (d : Daemon) (e : Event) : Decidable (ClearRemap d e) := by
  cases e <;> unfold ClearRemap <;> infer_instance

def deliverable (d : Daemon) : Event → Bool
  | .fault i _ _ | .fork i => decide (Polled d i)
  | .remove i start stop _ | .unmap i start stop =>
      decide (Polled d i ∧ pageSize ∣ start ∧ pageSize ∣ stop ∧ start ≤ stop)
  | .remap i src dst len =>
      decide (Polled d i ∧ pageSize ∣ src ∧ pageSize ∣ dst ∧ pageSize ∣ len)
  | .response nr _ =>
      match d.reads with
      | [] => false
      | a :: _ => decide (nr ≤ a.nr)
  | .completeForks | .round => true

theorem deliverable_sound {e : Event} (h : deliverable d e = true) : Deliverable d e := by
  cases e with
  | response nr ret =>
    simp only [deliverable] at h
    split at h
    · cases h
    · exact ⟨_, _, ‹_›, of_decide_eq_true h⟩
  | completeForks | round => trivial
  | fault | remove | unmap | remap | fork =>
    simp only [deliverable, decide_eq_true_eq] at h
    exact h

def runEvents (ok : Daemon → Event → Bool) : List Event → Daemon → Option Daemon
  | [], d => some d
  | e :: es, d =>
      if ok d e && deliverable d e then
        match step e d with
        | .ok d' => runEvents ok es d'
        | .error _ => none
      else none

variable {ok : Daemon → Event → Bool} {tasks : List LazyTask}

theorem runEvents_reachable (es : List Event)
    (h : Reachable tasks (fun d e => ok d e = true) d) (heq : runEvents ok es d = some d') :
    Reachable tasks (fun d e => ok d e = true) d' := by
  induction es generalizing d with
  | nil => exact Option.some.inj heq ▸ h
  | cons e es ih =>
    unfold runEvents at heq
    split at heq
    · next hcan =>
      obtain ⟨hok, hdel⟩ := Bool.and_eq_true_iff.mp hcan
      split at heq
      · exact ih (.next h hok ⟨deliverable_sound hdel, ‹_›⟩) heq
      · cases heq
    · cases heq

def runDaemon (ok : Daemon → Event → Bool) (tasks : List LazyTask) (es : List Event) :
    Option Daemon :=
  match startDaemon tasks with
  | .ok d => runEvents ok es d
  | .error _ => none

theorem runDaemon_reachable {es : List Event} (h : runDaemon ok tasks es = some d) :
    Reachable tasks (fun d e => ok d e = true) d := by
  unfold runDaemon at h
  split at h
  · exact runEvents_reachable es (.start ‹_›) h
  · cases h

end Checked

section Unmap

/-- No range of the lpi intersects `[start, stop)`. -/
def Cleared (start stop : ℕ) (l : Lpi) : Prop := ∀ v ∈ l.iovs ++ l.reqs, ¬ Meets start stop v

/-- What was tracked outside of `[start, stop)` still is, at the same image address. -/
def KeptOutside (start stop : ℕ) (l l' : Lpi) : Prop :=
  ∀ p ∈ tracked (l.iovs ++ l.reqs), ¬ (start ≤ p.1 ∧ p.1 < stop) →
    p ∈ tracked (l'.iovs ++ l'.reqs)

/-- The states in which an event removes its range. When the range is dropped, nothing may lie
behind what an `int` can hold, and both lists must be in turn; a failed unregistration drops
nothing, and one of a task that is gone drops everything. -/
def RemoveFits (l : Lpi) (start stop : ℕ) : Option UnregisterRet → Prop
  | none | some .done =>
      Cleared (start + intLen (stop - start)) stop l ∧
        InTurn start (start + intLen (stop - start)) l.iovs ∧
        InTurn start (start + intLen (stop - start)) l.reqs
  | some .nomem => ∀ p ∈ tracked (l.iovs ++ l.reqs), start ≤ p.1 ∧ p.1 < stop
  | some .failed => Cleared start stop l

theorem Meets.point {e : ℕ} (h : Meets s e v) (hv : v.start < v.stop) :
    ∃ p ∈ iovPoints v, s ≤ p.1 ∧ p.1 < e := by
  obtain ⟨hse, hlo, hhi⟩ := h
  by_cases hs : s ≤ v.start
  · exact ⟨(v.start, v.img), mem_iovPoints.mpr ⟨le_refl _, hv, by simp⟩, hs, hlo⟩
  · exact ⟨(s, v.img + (s - v.start)), mem_iovPoints.mpr ⟨by omega, hhi, rfl⟩, le_refl s, hse⟩

theorem meets_of_point {e : ℕ} {p : ℕ × ℕ} (hp : p ∈ iovPoints v)
    (hs : s ≤ p.1) (he : p.1 < e) : Meets s e v := by
  obtain ⟨hlo, hhi, -⟩ := mem_iovPoints.mp hp
  exact ⟨by omega, by omega, by omega⟩

/-- Filled ranges meet `[s, e)` where they track something in it. -/
theorem meets_iff_points {e : ℕ} (hf : Filled l) : (∀ v ∈ l, ¬ Meets s e v) ↔
    ∀ p ∈ tracked l, ¬ (s ≤ p.1 ∧ p.1 < e) := by
  constructor
  · intro h p hp hin
    obtain ⟨v, hv, hpv⟩ := mem_tracked.mp hp
    exact h v hv (meets_of_point hpv hin.1 hin.2)
  · intro h v hv hmeet
    obtain ⟨p, hp, hin⟩ := Meets.point hmeet (hf v hv)
    exact h p (mem_tracked.mpr ⟨v, hv, hp⟩) hin

theorem dropped_exact {l : Lpi} (hok : LpiOk clear l) {start stop n : ℕ} (hn : start + n ≤ stop) :
    (Cleared start stop (Lpi.drop l start n) ∧ KeptOutside start stop l (Lpi.drop l start n)) ↔
      Cleared (start + n) stop l ∧ InTurn start (start + n) l.iovs ∧
        InTurn start (start + n) l.reqs := by
  have hkeep : ∀ p ∈ tracked (l.iovs ++ l.reqs), ¬ (start ≤ p.1 ∧ p.1 < start + n) →
      p ∈ tracked (dropIovs l.iovs start n ++ dropIovs l.reqs start n) := by
    intro p hp hout
    rw [tracked_append] at hp ⊢
    rcases mem_append.mp hp with hp | hp
    · exact mem_append_left _ (dropIovs_keeps hok.iovs_filled hp hout)
    · exact mem_append_right _ (dropIovs_keeps hok.reqs_filled hp hout)
  have hsub : (tracked (dropIovs l.iovs start n ++ dropIovs l.reqs start n)).Subperm
      (tracked (l.iovs ++ l.reqs)) := by
    simp only [tracked_append]
    exact (dropIovs_subperm hok.iovs_filled ..).append (dropIovs_subperm hok.reqs_filled ..)
  have hfi := (dropIovs_cut hok.iovs_filled start n).filled
  have hfr := (dropIovs_cut hok.reqs_filled start n).filled
  unfold Cleared
  rw [← dropIovs_clears_iff hok.iovs_filled, ← dropIovs_clears_iff hok.reqs_filled,
    meets_iff_points hfi, meets_iff_points hfr, meets_iff_points hok.filled,
    meets_iff_points (show Filled ((Lpi.drop l start n).iovs ++ (Lpi.drop l start n).reqs) from
      forall_mem_append.mpr ⟨hfi, hfr⟩), ← forall_mem_append, ← tracked_append]
  constructor
  · rintro ⟨hclear, -⟩
    exact ⟨fun p hp hin => hclear p (hkeep p hp (by omega)) (by omega),
      fun p hp hin => hclear p hp (by omega)⟩
  rintro ⟨hbehind, hdrop⟩
  refine ⟨fun p hp hin => ?_, fun p hp hout => hkeep p hp (by omega)⟩
  by_cases hlt : p.1 < start + n
  · exact hdrop p hp ⟨hin.1, hlt⟩
  · exact hbehind p (hsub.subset hp) ⟨by omega, hin.2⟩

theorem handleExit_empties {i : ℕ} (h : handleExit d i = .ok d') :
    (d'.lpi i).iovs = [] ∧ (d'.lpi i).reqs = [] := by
  obtain ⟨-, rfl⟩ := handleExit_ok h
  rw [setLpi_self ..]
  exact ⟨rfl, rfl⟩

/-- In every state the daemon reaches, an UNMAP or REMOVE of whole pages leaves nothing in its
range and everything else, exactly under the stated condition. -/
theorem handle_remove_exact {tasks : List LazyTask} {d : Daemon} {i start stop : ℕ}
    (u : Option UnregisterRet) (h : Reachable tasks (fun _ _ => True) d) (hi : Polled d i)
    (hle : start ≤ stop) :
    (Cleared start stop ((handleRemove d i start stop u).1.lpi i) ∧
      KeptOutside start stop (d.lpi i) ((handleRemove d i start stop u).1.lpi i)) ↔
      RemoveFits (d.lpi i) start stop u := by
  have hdok := Reachable.daemonOk h
  have hok := hdok.lpi i
  have hdrop : ∀ d₁, d₁ = dropLpi d i start (stop - start) →
      ((Cleared start stop (d₁.lpi i) ∧ KeptOutside start stop (d.lpi i) (d₁.lpi i)) ↔
        Cleared (start + intLen (stop - start)) stop (d.lpi i) ∧
          InTurn start (start + intLen (stop - start)) (d.lpi i).iovs ∧
          InTurn start (start + intLen (stop - start)) (d.lpi i).reqs) := by
    intro d₁ heq
    have hlen := intLen_le (stop - start)
    rw [heq, dropLpi, setLpi_self]
    exact dropped_exact hok (by omega)
  cases u with
  | none => exact hdrop _ rfl
  | some r =>
    cases r with
    | done => exact hdrop _ rfl
    | failed =>
      constructor
      · exact fun h => h.1
      · exact fun h => ⟨h, fun p hp _ => hp⟩
    | nomem =>
      -- an lpi that has left the list tracks nothing, so the crash changes nothing here
      have hempty : ((handleRemove d i start stop (some .nomem)).1.lpi i).iovs = [] ∧
          ((handleRemove d i start stop (some .nomem)).1.lpi i).reqs = [] := by
        unfold handleRemove
        cases hexit : handleExit d i with
        | ok d' => exact handleExit_empties hexit
        | error f =>
          apply hdok.idle
          intro hin
          rcases mem_append.mp hin with hin | hin
          · simp [handleExit, hin] at hexit
          · exact hi.2.1 hin
      obtain ⟨hiovs, hreqs⟩ := hempty
      unfold Cleared KeptOutside
      rw [hiovs, hreqs]
      constructor
      · intro h p hp
        by_contra hout
        exact absurd (h.2 p hp hout) not_mem_nil
      · intro h
        exact ⟨by simp, fun p hp hout => absurd (h p hp) hout⟩

def threePages : LazyTask where
  pmes := [⟨0x10000, 3, peLazy⟩]
  vmas := [⟨0x10000, 0x13000⟩]
  sorted := by decide
  aligned := by decide
  nonempty := by decide
  vmaSorted := by simp
  vmaAligned := by decide

/-- Faults at the first and then at the last page leave the requests in falling order. An UNMAP
of all three pages stops at the last one. -/
theorem unmap_leaves_first_page : ∃ d, Reachable [threePages] (fun _ _ => True) d ∧ Polled d 0 ∧
    ¬ Cleared 0x10000 0x13000 ((handleRemove d 0 0x10000 0x13000 none).1.lpi 0) := by
  have hrun : runDaemon (fun _ _ => true) [threePages]
      [.fault 0 0x10000 .done, .fault 0 0x12000 .done] = some _ := rfl
  refine ⟨_, Reach.mono (fun _ _ _ => trivial) (runDaemon_reachable hrun), by decide, ?_⟩
  unfold Cleared
  decide

/-- With the faults the other way round the UNMAP clears the range. -/
theorem unmap_clears_rising_requests : ∃ d, Reachable [threePages] (fun _ _ => True) d ∧
    Polled d 0 ∧ (Cleared 0x10000 0x13000 ((handleRemove d 0 0x10000 0x13000 none).1.lpi 0) ∧
      KeptOutside 0x10000 0x13000 (d.lpi 0) ((handleRemove d 0 0x10000 0x13000 none).1.lpi 0)) := by
  have hrun : runDaemon (fun _ _ => true) [threePages]
      [.fault 0 0x12000 .done, .fault 0 0x10000 .done] = some _ := rfl
  have hreach := Reach.mono (fun _ _ _ => trivial) (runDaemon_reachable hrun)
  refine ⟨_, hreach, by decide, (handle_remove_exact none hreach (by decide) (by decide)).mpr ?_⟩
  unfold RemoveFits Cleared InTurn
  decide

/-- Just what lay outside of `[start, stop)` is left, in order. -/
def RangeRemoved (start stop : ℕ) (l l' : List LazyIov) : Prop :=
  tracked l' = (tracked l).filter (fun p => ¬ (start ≤ p.1 ∧ p.1 < stop)) ∧
    Ordered l' ∧ Filled l'

/-- On a sorted list the loop removes the range that it is given. -/
theorem dropIovs_removes (h : Ordered l) (hf : Filled l) (addr len : ℕ) :
    RangeRemoved addr (addr + len) l (dropIovs l addr len) := by
  have hclear := (dropIovs_clears_iff hf addr len).mpr (h.inTurn _ _)
  have hfilled := (dropIovs_cut hf addr len).filled
  have hout := (meets_iff_points hfilled).mp hclear
  have hord := dropIovs_ordered h hf addr len
  have hnodup : ∀ {m}, Ordered m → (tracked m).Nodup := fun hm => hm.keys_nodup.of_map _
  refine ⟨?_, hord, hfilled⟩
  refine Perm.eq_of_pairwise (fun p q _ _ hpq hqp => absurd hpq (Nat.lt_asymm hqp)) hord.sorted
    (h.sorted.filter _) ?_
  refine (perm_ext_iff_of_nodup (hnodup hord) ((hnodup h).filter _)).mpr fun p => ?_
  rw [mem_filter, decide_eq_true_iff]
  refine ⟨fun hp => ⟨(dropIovs_subperm hf addr len).subset hp, hout p hp⟩, fun hp => ?_⟩
  exact dropIovs_keeps hf hp.1 hp.2

/-- Removing a range of any length is exact on a sorted list just if nothing of the range lies
behind what an `int` can hold. -/
theorem drop_range_exact_iff {l : List LazyIov} (h : Ordered l) (hf : Filled l) (addr len : ℕ) :
    RangeRemoved addr (addr + len) l (dropIovs l addr (intLen len)) ↔
      ∀ p ∈ tracked l, ¬ (addr + intLen len ≤ p.1 ∧ p.1 < addr + len) := by
  have hle := intLen_le len
  have hrem := dropIovs_removes h hf addr (intLen len)
  constructor
  · intro hexact p hp hin
    have hleft : p ∈ tracked (dropIovs l addr (intLen len)) :=
      dropIovs_keeps hf hp (by omega)
    rw [hexact.1] at hleft
    have hout := of_decide_eq_true (mem_filter.mp hleft).2
    omega
  · intro hbehind
    refine ⟨hrem.1.trans (filter_congr fun p hp => ?_), hrem.2⟩
    have := hbehind p hp
    exact decide_eq_decide.mpr (by omega)

/-- A range of 4 GiB is removed as one of no length. -/
theorem four_gib_not_removed :
    Ordered [⟨0x10000, 0x12000, 0x10000⟩] ∧ Filled [⟨0x10000, 0x12000, 0x10000⟩] ∧
      dropIovs [⟨0x10000, 0x12000, 0x10000⟩] 0x10000 (intLen (2 ^ 32)) =
        [⟨0x10000, 0x12000, 0x10000⟩] ∧
      ¬ RangeRemoved 0x10000 (0x10000 + 2 ^ 32) [⟨0x10000, 0x12000, 0x10000⟩]
        (dropIovs [⟨0x10000, 0x12000, 0x10000⟩] 0x10000 (intLen (2 ^ 32))) := by
  have hord : Ordered [⟨0x10000, 0x12000, 0x10000⟩] := pairwise_singleton ..
  have hfilled : Filled [⟨0x10000, 0x12000, 0x10000⟩] :=
    forall_mem_singleton.mpr (by decide)
  have hlen : intLen (2 ^ 32) = 0 := by decide
  rw [hlen]
  refine ⟨hord, hfilled, rfl, fun hrem => ?_⟩
  have hin : ((0x10000, 0x10000)) ∈ tracked [⟨0x10000, 0x12000, 0x10000⟩] :=
    mem_tracked.mpr ⟨_, mem_singleton_self _, mem_iovPoints.mpr (by decide)⟩
  rw [dropIovs_zero] at hrem
  rw [hrem.1] at hin
  exact absurd (of_decide_eq_true (mem_filter.mp hin).2) (by decide)

/-- A range that ends inside the second of two ranges is removed. -/
theorem short_range_removed :
    RangeRemoved 0x11000 (0x11000 + 0x20000)
      [⟨0x10000, 0x12000, 0x10000⟩, ⟨0x30000, 0x33000, 0x50000⟩]
      (dropIovs [⟨0x10000, 0x12000, 0x10000⟩, ⟨0x30000, 0x33000, 0x50000⟩] 0x11000
        (intLen 0x20000)) := by
  have hord : Ordered [⟨0x10000, 0x12000, 0x10000⟩, ⟨0x30000, 0x33000, 0x50000⟩] := by
    simp [Ordered]
  have hfilled : Filled [⟨0x10000, 0x12000, 0x10000⟩, ⟨0x30000, 0x33000, 0x50000⟩] := by
    simp [Filled]
  have hlen : intLen 0x20000 = 0x20000 := by decide
  refine (drop_range_exact_iff hord hfilled 0x11000 0x20000).mpr fun p _ hin => ?_
  omega

end Unmap

section Remap

/-- Where a point is after the pages of `[src, src + len)` went to `dst`. -/
def relocate (src dst len : ℕ) (p : ℕ × ℕ) : ℕ × ℕ :=
  if src ≤ p.1 ∧ p.1 < src + len then shift src dst p else p

def Relocated (src dst len : ℕ) (l l' : List LazyIov) : Prop :=
  (tracked l').Perm ((tracked l).map (relocate src dst len))

variable {ps : List (ℕ × ℕ)} {dst len src : ℕ}

theorem map_relocate_inside (h : ∀ p ∈ ps, src ≤ p.1 ∧ p.1 < src + len) :
    ps.map (relocate src dst len) = ps.map (shift src dst) :=
  map_congr_left (fun p hp => if_pos (h p hp))

theorem map_relocate_outside (h : ∀ p ∈ ps, ¬ (src ≤ p.1 ∧ p.1 < src + len)) :
    ps.map (relocate src dst len) = ps := by
  refine Eq.trans (map_congr_left ?_) (map_id ps)
  exact fun p hp => if_neg (h p hp)

theorem remapIovs_exact (hf : Filled l) (src : ℕ)
    (hfree : ∀ p ∈ tracked l, ¬ (dst ≤ p.1 ∧ p.1 < dst + len)) :
    ((remapIovs l src dst len).1 = [] ∧ Relocated src dst len l (remapIovs l src dst len).2) ↔
      InTurn src (src + len) l := by
  obtain ⟨l', ms, hrun, hmap, -⟩ := remapIovs_ok hf src hfree
  have hsub := dropIovs_subperm hf src len
  rw [hrun, ← dropIovs_clears_iff hf src len,
    meets_iff_points (dropIovs_cut hf src len).filled]
  constructor
  · intro h p hdrop hin
    obtain ⟨-, hperm⟩ := h
    -- the point has stayed where it was, so it is where some point of the list was moved
    have hstay : p ∈ tracked l' := hmap.tracked_perm'.mem_iff.mpr (mem_append_left _ hdrop)
    obtain ⟨q, hq, heq⟩ := mem_map.mp (hperm.mem_iff.mp hstay)
    unfold relocate at heq
    split at heq
    · apply hfree p (hsub.subset hdrop)
      rw [← heq]
      simp only [shift]
      omega
    · next hout => exact hout (heq ▸ hin)
  · intro hclear
    refine ⟨rfl, hmap.tracked_perm'.trans ?_⟩
    have hmoved := (hmap.whole.map (relocate src dst len)).symm
    rw [map_append, map_relocate_outside hclear, map_relocate_inside hmap.moved_points] at hmoved
    exact hmoved.symm

/-- In every state the daemon reaches, a REMAP to an address range where nothing is tracked
moves the pages of its range and no others, in both lists, and leaves nothing in `remaps`,
exactly if the lists are in turn. -/
theorem handle_remap_exact {tasks : List LazyTask} {d : Daemon} {i src dst len : ℕ}
    (h : Reachable tasks (fun _ _ => True) d) (hfree : Untracked (d.lpi i) dst (dst + len)) :
    (Relocated src dst len (d.lpi i).iovs ((handleRemap d i src dst len).lpi i).iovs ∧
      Relocated src dst len (d.lpi i).reqs ((handleRemap d i src dst len).lpi i).reqs ∧
      (remapIovs (d.lpi i).iovs src dst len).1 = [] ∧
      (remapIovs (d.lpi i).reqs src dst len).1 = []) ↔
      InTurn src (src + len) (d.lpi i).iovs ∧ InTurn src (src + len) (d.lpi i).reqs := by
  have hok := (Reachable.daemonOk h).lpi i
  obtain ⟨hpi, hpr⟩ := untracked_points hfree
  rw [handleRemap, setLpi_self, ← remapIovs_exact hok.iovs_filled src hpi,
    ← remapIovs_exact hok.reqs_filled src hpr]
  constructor
  · exact fun h => ⟨⟨h.2.2.1, h.1⟩, h.2.2.2, h.2.1⟩
  · exact fun h => ⟨h.1.2, h.2.2, h.1.1, h.2.1⟩

/-- If no REMAP goes to where something is tracked, `iovs` is in turn for every range. -/
theorem iovs_inTurn {tasks : List LazyTask} (h : Reachable tasks ClearRemap d) (i s e : ℕ) :
    InTurn s e (d.lpi i).iovs :=
  (((Reachable.clearOk h fun _ _ he => he).lpi i).ordered trivial).inTurn s e

/-- The same requests as above: the first page stays at its old address. -/
theorem remap_leaves_first_page : ∃ d, Reachable [threePages] (fun _ _ => True) d ∧
    Deliverable d (.remap 0 0x10000 0x20000 0x3000) ∧
    Untracked (d.lpi 0) 0x20000 (0x20000 + 0x3000) ∧
    (0x10000, 0x10000) ∈ tracked (d.lpi 0).reqs ∧
    ¬ (0x20000, 0x10000) ∈ tracked ((handleRemap d 0 0x10000 0x20000 0x3000).lpi 0).reqs := by
  have hrun : runDaemon (fun _ _ => true) [threePages]
      [.fault 0 0x10000 .done, .fault 0 0x12000 .done] = some _ := rfl
  refine ⟨_, Reach.mono (fun _ _ _ => trivial) (runDaemon_reachable hrun),
    deliverable_sound (by decide), by decide, ?_, ?_⟩
  · simp only [mem_tracked, mem_iovPoints]
    decide
  · simp only [mem_tracked, mem_iovPoints]
    decide

theorem remap_moves_rising_requests : ∃ d, Reachable [threePages] (fun _ _ => True) d ∧
    Untracked (d.lpi 0) 0x20000 (0x20000 + 0x3000) ∧
    (Relocated 0x10000 0x20000 0x3000 (d.lpi 0).iovs
        ((handleRemap d 0 0x10000 0x20000 0x3000).lpi 0).iovs ∧
      Relocated 0x10000 0x20000 0x3000 (d.lpi 0).reqs
        ((handleRemap d 0 0x10000 0x20000 0x3000).lpi 0).reqs ∧
      (remapIovs (d.lpi 0).iovs 0x10000 0x20000 0x3000).1 = [] ∧
      (remapIovs (d.lpi 0).reqs 0x10000 0x20000 0x3000).1 = []) := by
  have hrun : runDaemon (fun _ _ => true) [threePages]
      [.fault 0 0x12000 .done, .fault 0 0x10000 .done] = some _ := rfl
  have hreach := Reach.mono (fun _ _ _ => trivial) (runDaemon_reachable hrun)
  refine ⟨_, hreach, by decide, (handle_remap_exact hreach (by decide)).mpr ?_⟩
  unfold InTurn
  decide

end Remap

end Criu.LazyAddressSpace

import Criu.Pagemap
import Criu.Lib.Run

/-!
The pagemap cache (criu/pagemap-cache.c). A window of pagemap entries is read for a memory area,
or for all areas up to a border of 2M if that area is small and starts near the border before it.
The window always starts at an area and covers it, so whatever calls and failed reads came
before, an area that is found in the window or read into it gets the entries of the kernel.
-/

namespace Criu.PagemapCache

open Pagemap Run

def pmcSize : ℕ := 2 ^ 21

def pmcSizeGap : ℕ := pmcSize / 4

structure Area where
  start : ℕ
  stop : ℕ

structure Areas where
  list : List Area
  filled : ∀ v ∈ list, v.start < v.stop
  aligned : ∀ v ∈ list, pageSize ∣ v.start ∧ pageSize ∣ v.stop
  sorted : list.Pairwise fun v w => v.stop ≤ w.start

structure Pmc where
  start : ℕ
  stop : ℕ
  mapLen : ℕ
  nrPmeRead : ℕ
  map : ℕ → ℕ

inductive PmcFault
  | bug

def pagemapBytes (len : ℕ) : ℕ := len / pageSize * 8

/-- The buffer is not cleared. -/
def pmcInit (size : ℕ) (map : ℕ → ℕ) : Pmc := ⟨0, 0, pagemapBytes (max size pmcSize), 0, map⟩

def pmcGetPfnFrom (pmc : Pmc) (addr : ℕ) : Except PmcFault ℕ :=
  if addr < pmc.start ∨ pmc.stop < addr then .error .bug
  else .ok ((addr - pmc.start) / pageSize)

def pmcGetMapAt (pmc : Pmc) (pos : ℕ) : Option ℕ :=
  if pmc.nrPmeRead ≤ pos then none else some (pmc.map pos)

def pmcGetMapFrom (pmc : Pmc) (addr : ℕ) : Except PmcFault (Option ℕ) :=
  match pmcGetPfnFrom pmc addr with
  | .error f => .error f
  | .ok pos => .ok (pmcGetMapAt pmc pos)

def followers (low high : ℕ) : List Area → Except PmcFault ℕ
  | [] => .ok 0
  | v :: rest =>
      if high < v.start ∨ high < v.stop then .ok 0
      else if v.start < low then .error .bug
      else (followers low high rest).map (· + 1)

section Calls

variable (kernel : ℕ → ℕ) (disabled : Bool) (taskSize : ℕ)

def windowEnd (v : Area) (rest : List Area) : Except PmcFault ℕ :=
  let low := v.start - v.start % pmcSize
  let top := (low + pmcSize) % 2 ^ 64
  let high := if taskSize < top then taskSize else top
  if !disabled && v.stop - v.start < pmcSize && v.start - low < pmcSizeGap then
    (followers low high rest).map fun nr => if 0 < nr then high else v.stop
  else .ok v.stop

/-- `pmc_fill_cache`; a `pread` that fails leaves something in the buffer. -/
def pmcFillCache (pmc : Pmc) (v : Area) (rest : List Area) (failed : Option (ℕ → ℕ)) :
    Except PmcFault (Pmc × Bool) :=
  match windowEnd disabled taskSize v rest with
  | .error f => .error f
  | .ok stop =>
      let len := pagemapBytes (stop - v.start)
      if pmc.mapLen < len then .error .bug
      else
        match failed with
        | some junk => .ok (⟨0, 0, pmc.mapLen, 0, junk⟩, false)
        | none =>
            .ok (⟨v.start, stop, pmc.mapLen, len / 8, fun i =>
              if i < len / 8 then kernel (v.start / pageSize + i) else pmc.map i⟩, true)

/-- `pmc_get_map` for an area with the areas behind it in the list. -/
def pmcGetMap (pmc : Pmc) (v : Area) (rest : List Area) (failed : Option (ℕ → ℕ)) :
    Except PmcFault (Pmc × Option ℕ) :=
  if pmc.start ≤ v.start ∧ v.stop ≤ pmc.stop then
    (pmcGetMapFrom pmc v.start).map fun r => (pmc, r)
  else
    match pmcFillCache kernel disabled taskSize pmc v rest failed with
    | .error f => .error f
    | .ok (pmc', false) => .ok (pmc', none)
    | .ok (pmc', true) => (pmcGetMapFrom pmc' v.start).map fun r => (pmc', r)

/-- A call for the area number `i`, and how its `pread` fails if it does. -/
def Call (areas : Areas) (pmc : Pmc) (c : ℕ × Option (ℕ → ℕ)) (pmc' : Pmc) : Prop :=
  ∃ v r, areas.list[c.1]? = some v ∧
    pmcGetMap kernel disabled taskSize pmc v (areas.list.drop (c.1 + 1)) c.2 = .ok (pmc', r)

/-- The states of a cache that was made for areas of up to `size` bytes. -/
abbrev Reachable (areas : Areas) (size : ℕ) : Pmc → Prop :=
  Reach (fun pmc => ∃ map, pmc = pmcInit size map) (Call kernel disabled taskSize areas)
    fun _ _ => True

end Calls

structure Cached (kernel : ℕ → ℕ) (size : ℕ) (pmc : Pmc) : Prop where
  len : pmc.mapLen = pagemapBytes (max size pmcSize)
  page : pageSize ∣ pmc.start
  read : pmc.nrPmeRead = (pmc.stop - pmc.start) / pageSize
  entries : ∀ i < pmc.nrPmeRead, pmc.map i = kernel (pmc.start / pageSize + i)

def Served (kernel : ℕ → ℕ) (pmc : Pmc) (v : Area) : Prop :=
  ∀ a, v.start ≤ a → a < v.stop → pageSize ∣ a →
    ∃ pos, pmcGetPfnFrom pmc a = .ok pos ∧ pmcGetMapAt pmc pos = some (kernel (a / pageSize))

section Proofs

variable {kernel : ℕ → ℕ} {disabled : Bool} {taskSize size : ℕ} {areas : Areas} {pmc : Pmc}
  {v : Area} {rest : List Area} {failed : Option (ℕ → ℕ)} {i : ℕ}

theorem cached_empty {len : ℕ} (hlen : len = pagemapBytes (max size pmcSize)) (map : ℕ → ℕ) :
    Cached kernel size ⟨0, 0, len, 0, map⟩ :=
  ⟨hlen, Nat.dvd_zero _, (Nat.zero_div _).symm, fun i hi => absurd hi (Nat.not_lt_zero i)⟩

theorem Cached.served (h : Cached kernel size pmc) (hstop : pageSize ∣ v.stop)
    (hlo : pmc.start ≤ v.start) (hhi : v.stop ≤ pmc.stop) : Served kernel pmc v := by
  intro a ha hlt hpage
  obtain ⟨s, hs⟩ := h.page
  obtain ⟨n, rfl⟩ := hpage
  obtain ⟨e, he⟩ := hstop
  have hread := h.read
  have hsize : pageSize = 4096 := rfl
  simp only [hsize] at hs ha hlt he hread ⊢
  have hpos : (4096 * n - pmc.start) / 4096 < pmc.nrPmeRead := by omega
  refine ⟨_, if_neg (by omega), ?_⟩
  simp only [pmcGetMapAt, hsize, if_neg (not_le_of_gt hpos), h.entries _ hpos]
  congr 2
  omega

theorem Served.first (h : Served kernel pmc v) (hv : v.start < v.stop)
    (hpage : pageSize ∣ v.start) :
    pmcGetMapFrom pmc v.start = .ok (some (kernel (v.start / pageSize))) := by
  obtain ⟨pos, hpfn, hat⟩ := h v.start (le_refl _) hv hpage
  rw [pmcGetMapFrom, hpfn]
  exact congrArg Except.ok hat

/-- Areas behind the first one do not start before the window; if one of them fits, the window
ends behind the first. -/
theorem followers_ok {low high bound : ℕ} (hlow : low ≤ bound) :
    ∀ {rest : List Area}, (∀ w ∈ rest, bound ≤ w.start ∧ w.start < w.stop) →
      ∃ nr, followers low high rest = .ok nr ∧ (0 < nr → bound < high) := by
  intro rest hrest
  induction rest with
  | nil => exact ⟨0, rfl, fun h => absurd h (lt_irrefl 0)⟩
  | cons w rest ih =>
    obtain ⟨⟨hw, hfill⟩, hrest⟩ := List.forall_mem_cons.mp hrest
    obtain ⟨nr, hnr, -⟩ := ih hrest
    unfold followers
    split
    · exact ⟨0, rfl, fun h => absurd h (lt_irrefl 0)⟩
    · next hin =>
      rw [if_neg (by omega), hnr]
      exact ⟨nr + 1, rfl, fun _ => by omega⟩

theorem windowEnd_ok (hv : areas.list[i]? = some v) :
    ∃ stop, windowEnd disabled taskSize v (areas.list.drop (i + 1)) = .ok stop ∧
      v.stop ≤ stop ∧ (stop = v.stop ∨ stop ≤ v.start + pmcSize) := by
  obtain ⟨hi, heq⟩ := List.getElem?_eq_some_iff.mp hv
  have hfill := areas.filled v (heq ▸ List.getElem_mem hi)
  have hbehind : ∀ w ∈ areas.list.drop (i + 1), v.stop ≤ w.start ∧ w.start < w.stop := by
    intro w hw
    have hsplit := List.drop_eq_getElem_cons hi
    have hp := (List.pairwise_cons.mp (hsplit ▸ areas.sorted.drop)).1 w hw
    exact ⟨heq ▸ hp, areas.filled w (List.mem_of_mem_drop hw)⟩
  have hlow : v.start - v.start % pmcSize ≤ v.stop := by omega
  unfold windowEnd
  dsimp only
  split
  · generalize hhigh : ite (taskSize < _) taskSize _ = high
    have hle : high ≤ v.start + pmcSize := by
      rw [← hhigh]
      split <;> omega
    obtain ⟨nr, hnr, hpos⟩ := @followers_ok _ high _ hlow _ hbehind
    rw [hnr]
    by_cases hzero : 0 < nr
    · exact ⟨high, congrArg Except.ok (if_pos hzero), Nat.le_of_lt (hpos hzero), .inr hle⟩
    · exact ⟨_, congrArg Except.ok (if_neg hzero), le_refl _, .inl rfl⟩
  · exact ⟨_, rfl, le_refl _, .inl rfl⟩

/-- A call on a valid cache hits no BUG, and leaves a valid cache with the entries of the area,
unless its read fails. -/
theorem Cached.getMap (h : Cached kernel size pmc) (hv : areas.list[i]? = some v)
    (hsize : v.stop - v.start ≤ size) : ∃ pmc' r,
      pmcGetMap kernel disabled taskSize pmc v (areas.list.drop (i + 1)) failed = .ok (pmc', r) ∧
      Cached kernel size pmc' ∧
      (r = none ∧ failed ≠ none ∨
        r = some (kernel (v.start / pageSize)) ∧ Served kernel pmc' v) := by
  have hmem := List.mem_of_getElem? hv
  have hfill := areas.filled v hmem
  obtain ⟨hpage, hend⟩ := areas.aligned v hmem
  unfold pmcGetMap
  split
  · next hhit =>
    have hserved := h.served hend hhit.1 hhit.2
    rw [hserved.first hfill hpage]
    exact ⟨pmc, _, rfl, h, .inr ⟨rfl, hserved⟩⟩
  obtain ⟨stop, hwin, hcover, hlen⟩ := @windowEnd_ok disabled taskSize _ _ _ hv
  have hroom : pagemapBytes (stop - v.start) ≤ pmc.mapLen := by
    rw [h.len]
    exact Nat.mul_le_mul_right 8 (Nat.div_le_div_right (by omega))
  unfold pmcFillCache
  rw [hwin]
  dsimp only
  rw [if_neg (by omega)]
  cases failed with
  | some junk =>
    exact ⟨_, none, rfl, cached_empty h.len junk, .inl ⟨rfl, Option.some_ne_none junk⟩⟩
  | none =>
    have hread : pagemapBytes (stop - v.start) / 8 = (stop - v.start) / pageSize :=
      Nat.mul_div_cancel _ (by decide)
    have hnew : Cached kernel size ⟨v.start, stop, pmc.mapLen, pagemapBytes (stop - v.start) / 8,
        fun i => if i < pagemapBytes (stop - v.start) / 8 then kernel (v.start / pageSize + i)
          else pmc.map i⟩ :=
      ⟨h.len, hpage, hread, fun i hi => if_pos hi⟩
    have hserved := hnew.served hend (le_refl _) hcover
    dsimp only
    rw [hserved.first hfill hpage]
    exact ⟨_, _, rfl, hnew, .inr ⟨rfl, hserved⟩⟩

theorem Reachable.cached (hsize : ∀ v ∈ areas.list, v.stop - v.start ≤ size)
    (h : Reachable kernel disabled taskSize areas size pmc) : Cached kernel size pmc := by
  refine Reach.invariant ?_ ?_ h
  · rintro pmc ⟨map, rfl⟩
    exact cached_empty rfl map
  · rintro pmc c pmc' - hc - ⟨v, r, hv, hcall⟩
    obtain ⟨pmc₁, r₁, heq, hcached, -⟩ := hc.getMap hv (hsize v (List.mem_of_getElem? hv))
    rw [hcall] at heq
    obtain ⟨rfl, -⟩ := Prod.mk.inj (Except.ok.inj heq)
    exact hcached

/-- After any calls, with the cache enabled or disabled: a call for an area hits no BUG, and
unless its own read fails it gives each page of the area the kernel's entry. -/
theorem pagemap_cache_transparent (hsize : ∀ v ∈ areas.list, v.stop - v.start ≤ size)
    (h : Reachable kernel disabled taskSize areas size pmc) (hv : areas.list[i]? = some v)
    (failed : Option (ℕ → ℕ)) : ∃ pmc' r,
      pmcGetMap kernel disabled taskSize pmc v (areas.list.drop (i + 1)) failed = .ok (pmc', r) ∧
      (r = none → failed ≠ none) ∧
      (r ≠ none → r = some (kernel (v.start / pageSize)) ∧ Served kernel pmc' v) := by
  obtain ⟨pmc', r, hcall, -, hr⟩ := (h.cached hsize).getMap hv (hsize v (List.mem_of_getElem? hv))
  refine ⟨pmc', r, hcall, ?_, ?_⟩
  · rcases hr with ⟨-, hfail⟩ | ⟨rfl, -⟩
    · exact fun _ => hfail
    · exact fun hnone => absurd hnone (Option.some_ne_none _)
  · rcases hr with ⟨rfl, -⟩ | hserved
    · exact fun hne => absurd rfl hne
    · exact fun _ => hserved

end Proofs

def twoAreas : Areas where
  list := [⟨0x1000, 0x2000⟩, ⟨0x3000, 0x4000⟩]
  filled := by decide
  aligned := by decide
  sorted := by decide

theorem two_areas_served : ∃ pmc' r,
    pmcGetMap id false (2 ^ 47) (pmcInit 0x1000 id) ⟨0x1000, 0x2000⟩ [⟨0x3000, 0x4000⟩] none =
      .ok (pmc', r) ∧ (r = none → (none : Option (ℕ → ℕ)) ≠ none) ∧
      (r ≠ none → r = some 1 ∧ Served id pmc' ⟨0x1000, 0x2000⟩) :=
  @pagemap_cache_transparent _ _ _ _ twoAreas _ _ 0 (by decide) (.start ⟨id, rfl⟩) rfl none

end Criu.PagemapCache

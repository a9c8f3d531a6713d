import Mathlib.Data.List.Nodup
import Mathlib.Data.List.Perm.Subperm
import Mathlib.Logic.Relation

/-!
The filters of threads in an image (`seccomp_prepare_threads`, criu/seccomp.c). A filter names the
one before it by an index that is only checked to be in the image, so that the loop which counts
the filters of a thread runs for ever on a cycle.
-/

namespace Criu.SeccompWalk

open List Relation

structure Thread where
  filterMode : Bool
  seccompFilter : ℕ
  memory : Bool

section Walk

/- Of a filter only this is looked at: whether its length is intact, and which one it names. -/
variable {φ : Type} (intact : φ → Bool) (prev : φ → Option ℕ) (img : List φ)

/-- The filter at an index, unless it is not in the image or its length is corrupted. -/
def checked (i : ℕ) : Option φ := img[i]?.filter intact

/-- The first loop: the number of filters or an error, unless it is still running. -/
def countFilters : ℕ → φ → ℕ → Option (Option ℕ)
  | 0, _, _ => none
  | fuel + 1, sf, nr =>
      match prev sf with
      | none => some (some nr)
      | some i =>
          match checked intact img i with
          | none => some none
          | some sf => countFilters fuel sf (nr + 1)

def copyFilters : ℕ → Option φ → List (Option φ)
  | 0, _ => []
  | nr + 1, sf => sf :: copyFilters nr (sf.bind fun sf => img[(prev sf).getD 0]?)

def prepareThread (fuel : ℕ) (t : Thread) : Option (Option (List (Option φ))) :=
  if !t.filterMode then some (some [])
  else
    match checked intact img t.seccompFilter with
    | none => some none
    | some sf => (countFilters intact prev img fuel sf 1).map fun count => do
        let nr ← count
        if t.memory then some (copyFilters prev img nr (some sf)) else none

def seccompPrepareThreads (fuel : ℕ) : List Thread → Option (Option (List (List (Option φ))))
  | [] => some (some [])
  | t :: ts => (prepareThread intact prev img fuel t).bind fun
      | none => some none
      | some fs => (seccompPrepareThreads fuel ts).map (·.map (fs :: ·))

/-- The threads are prepared or refused after some steps, with no more filters than there are. -/
def Ends (ts : List Thread) : Prop :=
  ∃ fuel r, seccompPrepareThreads intact prev img fuel ts = some r ∧
    ∀ args, r = some args → ∀ fs ∈ args, fs.length ≤ img.length

/-- The filter `i` names the filter `j`, which can be used. -/
def Prev (i j : ℕ) : Prop :=
  ∃ sf, img[i]? = some sf ∧ prev sf = some j ∧ (checked intact img j).isSome

/-- The filters before `i` come to one that leads back to itself. -/
def Cycles (i : ℕ) : Prop :=
  ∃ k, ReflTransGen (Prev intact prev img) i k ∧ TransGen (Prev intact prev img) k k

def Loops (t : Thread) : Prop :=
  t.filterMode = true ∧ (checked intact img t.seccompFilter).isSome ∧
    Cycles intact prev img t.seccompFilter

/-- No thread loops, up to the first one that is refused. -/
def Passes : List Thread → Prop
  | [] => True
  | t :: ts => ¬ Loops intact prev img t ∧
      ((∃ fuel, prepareThread intact prev img fuel t = some none) ∨ Passes ts)

variable {intact prev img} {sf : φ} {i j : ℕ} {t : Thread}

theorem getElem?_of_checked (h : checked intact img i = some sf) : img[i]? = some sf :=
  (Option.filter_eq_some_iff.mp h).1

theorem length_copyFilters (nr : ℕ) (sf : Option φ) : (copyFilters prev img nr sf).length = nr := by
  induction nr generalizing sf with
  | zero => rfl
  | succ nr ih => rw [copyFilters, length_cons, ih]

theorem length_le_of_lt {met : List ℕ} {n : ℕ} (hnodup : met.Nodup) (hlt : ∀ k ∈ met, k < n) :
    met.length ≤ n := by
  have hsub : met ⊆ range n := fun k hk => mem_range.mpr (hlt k hk)
  simpa using (subperm_of_subset hnodup hsub).length_le

theorem Cycles.of_prev (hstep : Prev intact prev img i j) (h : Cycles intact prev img j) :
    Cycles intact prev img i :=
  h.imp fun _ hk => ⟨.head hstep hk.1, hk.2⟩

/-- Without a cycle no filter is met twice. -/
theorem countFilters_ends {met : List ℕ} {fuel : ℕ} (hno : ¬ Cycles intact prev img i)
    (hnodup : met.Nodup) (hlt : ∀ k ∈ met, k < img.length)
    (hlead : ∀ k ∈ met, ReflTransGen (Prev intact prev img) k i) (hi : img[i]? = some sf)
    (hfuel : img.length < fuel + met.length) :
    ∃ r, countFilters intact prev img fuel sf met.length = some r ∧
      ∀ nr, r = some nr → nr ≤ img.length := by
  induction fuel generalizing met i sf with
  | zero =>
    have := length_le_of_lt hnodup hlt
    omega
  | succ fuel ih =>
    rw [countFilters]
    split
    case h_1 => exact ⟨_, rfl, fun nr h => Option.some.inj h ▸ length_le_of_lt hnodup hlt⟩
    case h_2 j hprev =>
      split
      case h_1 => exact ⟨_, rfl, nofun⟩
      case h_2 sg hg =>
        have hstep : Prev intact prev img i j := ⟨sf, hi, hprev, by simp [hg]⟩
        have hnew : j ∉ met := fun hk =>
          hno (.of_prev hstep ⟨j, .refl, TransGen.tail' (hlead j hk) hstep⟩)
        have hg := getElem?_of_checked hg
        obtain ⟨hin, -⟩ := List.getElem?_eq_some_iff.mp hg
        refine @ih sg j (j :: met) (fun hj => hno (.of_prev hstep hj))
          (nodup_cons.mpr ⟨hnew, hnodup⟩) (forall_mem_cons.mpr ⟨hin, hlt⟩)
          (forall_mem_cons.mpr ⟨.refl, fun k hk => ?_⟩) hg (by rw [length_cons]; omega)
        exact (hlead k hk).tail hstep

/-- On the way to a cycle, and on it, there is always a filter before. -/
theorem countFilters_cycle (hi : img[i]? = some sf) (h : Cycles intact prev img i) (fuel nr : ℕ) :
    countFilters intact prev img fuel sf nr = none := by
  induction fuel generalizing i sf nr with
  | zero => rfl
  | succ fuel ih =>
    obtain ⟨j, hstep, hnext⟩ : ∃ j, Prev intact prev img i j ∧ Cycles intact prev img j := by
      obtain ⟨k, hik, hcycle⟩ := h
      rcases ReflTransGen.cases_head hik with rfl | ⟨j, hstep, hjk⟩
      · obtain ⟨j, hstep, hback⟩ := TransGen.head'_iff.mp hcycle
        exact ⟨j, hstep, j, .refl, TransGen.tail' hback hstep⟩
      · exact ⟨j, hstep, k, hjk, hcycle⟩
    obtain ⟨sf', hi', hprev, hsome⟩ := hstep
    obtain rfl := Option.some.inj (hi.symm.trans hi')
    obtain ⟨sg, hg⟩ := Option.isSome_iff_exists.mp hsome
    rw [countFilters, hprev]
    dsimp only
    rw [hg]
    exact ih (getElem?_of_checked hg) hnext _

theorem prepareThread_loops (h : Loops intact prev img t) (fuel : ℕ) :
    prepareThread intact prev img fuel t = none := by
  obtain ⟨hmode, hsome, hcycle⟩ := h
  obtain ⟨sf, hsf⟩ := Option.isSome_iff_exists.mp hsome
  simp [prepareThread, hmode, hsf, countFilters_cycle (getElem?_of_checked hsf) hcycle]

theorem prepareThread_ends (h : ¬ Loops intact prev img t) {fuel : ℕ} (hfuel : img.length ≤ fuel) :
    ∃ r, prepareThread intact prev img fuel t = some r ∧
      ∀ fs, r = some fs → fs.length ≤ img.length := by
  unfold prepareThread
  split
  · exact ⟨_, rfl, fun fs hfs => Option.some.inj hfs ▸ Nat.zero_le _⟩
  rename_i hmode
  split
  · exact ⟨_, rfl, nofun⟩
  rename_i sf hsf
  have hi := getElem?_of_checked hsf
  obtain ⟨hin, -⟩ := List.getElem?_eq_some_iff.mp hi
  obtain ⟨r, hcount, hle⟩ := @countFilters_ends φ intact prev img sf _ [t.seccompFilter] fuel
    (fun hcycle => h ⟨by simpa using hmode, by simp [hsf], hcycle⟩) (nodup_singleton _)
    (by simpa) (by simpa using ReflTransGen.refl) hi (by rw [length_singleton]; omega)
  rw [show countFilters intact prev img fuel sf 1 = some r from hcount]
  refine ⟨_, rfl, fun fs hfs => ?_⟩
  obtain ⟨nr, rfl, hfs⟩ := Option.bind_eq_some_iff.mp hfs
  split at hfs
  · rw [← Option.some.inj hfs, length_copyFilters]
    exact hle nr rfl
  · cases hfs

theorem countFilters_mono {fuel fuel' nr : ℕ} {r : Option ℕ} (hle : fuel ≤ fuel')
    (h : countFilters intact prev img fuel sf nr = some r) :
    countFilters intact prev img fuel' sf nr = some r := by
  induction fuel generalizing sf nr fuel' with
  | zero => cases h
  | succ fuel ih =>
    obtain ⟨fuel', rfl⟩ := Nat.exists_eq_add_of_le' (Nat.le_trans (Nat.le_add_left 1 fuel) hle)
    rw [countFilters] at h ⊢
    split
    · simpa [*] using h
    rename_i hprev
    rw [hprev] at h
    dsimp only at h
    split
    · simpa [*] using h
    rename_i hsf
    rw [hsf] at h
    exact ih (Nat.le_of_succ_le_succ hle) h

theorem prepareThread_mono {fuel fuel' : ℕ} {r : Option (List (Option φ))} (hle : fuel ≤ fuel')
    (h : prepareThread intact prev img fuel t = some r) :
    prepareThread intact prev img fuel' t = some r := by
  unfold prepareThread at h ⊢
  split
  · simpa [*] using h
  rename_i hmode
  rw [if_neg hmode] at h
  split
  · simpa [*] using h
  rename_i hsf
  rw [hsf] at h
  obtain ⟨count, hcount, hr⟩ := Option.map_eq_some_iff.mp h
  rw [countFilters_mono hle hcount, ← hr, Option.map_some]

theorem le_of_countFilters {fuel nr m : ℕ}
    (h : countFilters intact prev img fuel sf nr = some (some m)) : nr ≤ m := by
  induction fuel generalizing sf nr with
  | zero => cases h
  | succ fuel ih =>
    rw [countFilters] at h
    split at h
    · cases h
      exact Nat.le_refl _
    split at h
    · cases h
    · exact Nat.le_of_succ_le (ih h)

/-- A thread in filter mode is given a filter. -/
theorem prepareThread_ne_nil {fuel : ℕ} {fs : List (Option φ)} (hmode : t.filterMode = true)
    (h : prepareThread intact prev img fuel t = some (some fs)) : fs ≠ [] := by
  rw [prepareThread, hmode] at h
  simp only [Bool.not_true, Bool.false_eq_true, if_false] at h
  split at h
  · cases h
  obtain ⟨count, hcount, hfs⟩ := Option.map_eq_some_iff.mp h
  obtain ⟨nr, rfl, hfs⟩ := Option.bind_eq_some_iff.mp hfs
  split at hfs
  · rw [← Option.some.inj hfs, ← length_pos_iff, length_copyFilters]
    exact le_of_countFilters hcount
  · cases hfs

theorem passes_of_ends {ts : List Thread} {fuel : ℕ} {r : Option (List (List (Option φ)))}
    (h : seccompPrepareThreads intact prev img fuel ts = some r) : Passes intact prev img ts := by
  induction ts generalizing r with
  | nil => trivial
  | cons t ts ih =>
    obtain ⟨r', ht, hrest⟩ := Option.bind_eq_some_iff.mp h
    refine ⟨fun hloop => ?_, ?_⟩
    · rw [prepareThread_loops hloop] at ht
      cases ht
    cases r' with
    | none => exact .inl ⟨fuel, ht⟩
    | some fs =>
      obtain ⟨r, hts, -⟩ := Option.map_eq_some_iff.mp hrest
      exact .inr (ih hts)

theorem ends_of_passes {ts : List Thread} (h : Passes intact prev img ts) :
    ∃ n, ∀ fuel, n ≤ fuel → ∃ r, seccompPrepareThreads intact prev img fuel ts = some r ∧
      ∀ args, r = some args → ∀ fs ∈ args, fs.length ≤ img.length := by
  induction ts with
  | nil => exact ⟨0, fun _ _ => ⟨_, rfl, by simp⟩⟩
  | cons t ts ih =>
    obtain ⟨hloop, ⟨n, href⟩ | hpass⟩ := h
    · refine ⟨n, fun fuel hle => ⟨none, ?_, nofun⟩⟩
      rw [seccompPrepareThreads, prepareThread_mono hle href, Option.bind_some]
    obtain ⟨n, hn⟩ := ih hpass
    refine ⟨max n img.length, fun fuel hle => ?_⟩
    obtain ⟨r, hr, hbound⟩ := hn fuel (Nat.le_trans (Nat.le_max_left ..) hle)
    obtain ⟨r', ht, hfs⟩ := prepareThread_ends hloop (Nat.le_trans (Nat.le_max_right ..) hle)
    rw [seccompPrepareThreads, ht]
    cases r' with
    | none => exact ⟨_, rfl, nofun⟩
    | some fs =>
      rw [hr]
      refine ⟨_, rfl, fun args hargs => ?_⟩
      obtain ⟨args, rfl, rfl⟩ := Option.map_eq_some_iff.mp hargs
      exact forall_mem_cons.mpr ⟨hfs fs rfl, hbound args rfl⟩

end Walk

structure SeccompFilter where
  len : ℕ
  prev : Option ℕ

def SeccompFilter.intact (sf : SeccompFilter) : Bool := sf.len % 8 = 0

/-- The threads are prepared or refused exactly if none of them, up to the first that is refused,
comes to a filter that leads back to itself. -/
theorem filter_walk_ends_iff (img : List SeccompFilter) (ts : List Thread) :
    Ends SeccompFilter.intact SeccompFilter.prev img ts ↔
      Passes SeccompFilter.intact SeccompFilter.prev img ts := by
  constructor
  · rintro ⟨fuel, r, hrun, -⟩
    exact passes_of_ends hrun
  · intro h
    obtain ⟨n, hn⟩ := ends_of_passes h
    exact ⟨n, hn n (Nat.le_refl n)⟩

/-- A filter that names itself. -/
theorem own_prev_never_ends :
    ¬ Ends SeccompFilter.intact SeccompFilter.prev [⟨0, some 0⟩] [⟨true, 0, true⟩] := by
  rintro ⟨fuel, r, hrun, -⟩
  exact (passes_of_ends hrun).1 ⟨rfl, rfl, 0, .refl, .single ⟨_, rfl, rfl, rfl⟩⟩

end Criu.SeccompWalk

import Mathlib.Algebra.Group.Int.Defs
import Criu.UnusedFd

/-!
Service descriptors (criu/servicefd.c). They lie below a base that is chosen above the descriptors
of the task, one area of numbers for each task that shares the table. When a task gets its area, the
descriptors are moved there one by one.
-/

namespace Criu.ServiceFd

open List Function UnusedFd

def serviceFdMin : ℤ := 0
def serviceFdMax : ℤ := 16

/-- `__get_service_fd`. -/
def serviceFdAt (base type id : ℤ) : ℤ := base - type - serviceFdMax * id

/-- `__builtin_clz` of a number of 32 bits. -/
def clz (n : ℕ) : ℕ := 31 - Nat.log2 n

/-- `1024 / sizeof(void *)`. -/
def fdAlign : ℤ := 128

/-- The right border of the area that the kernel allocates for the number. -/
def borderNr (nr : ℤ) : ℤ :=
  (if nr / fdAlign ≠ 0 then 2 ^ (32 - clz (nr / fdAlign).toNat) else 1) * fdAlign

/-- `choose_service_fd_base`; `fdt` is the number of tasks of a shared table. -/
def chooseServiceFdBase (serviceFdBase rlimCur inhFdMax : ℤ) (fdt : Option ℕ) (id : ℤ)
    (fds : List ℤ) : ℤ :=
  if fdt ≠ none ∧ id ≠ 0 then serviceFdBase
  else
    let realNr := max (fds.headD (-1)) inhFdMax + (serviceFdMax - serviceFdMin) * fdt.getD 1 + 16
    if borderNr realNr > rlimCur then
      let nr := rlimCur / fdAlign * fdAlign
      if nr < realNr then -1 else nr
    else borderNr realNr

structure Apart (fds : List ℤ) (rlimCur : ℤ) (nr : ℕ) (base : ℤ) : Prop where
  between : ∀ id < nr, ∀ type, serviceFdMin < type → type < serviceFdMax →
    (∀ fd ∈ fds, fd < serviceFdAt base type id) ∧ serviceFdAt base type id < rlimCur
  distinct : ∀ id id' type type', serviceFdMin < type → type < serviceFdMax →
    serviceFdMin < type' → type' < serviceFdMax →
    serviceFdAt base type id = serviceFdAt base type' id' → id = id' ∧ type = type'

theorem lt_borderNr {real : ℤ} (hreal : 0 ≤ real) (h : real < 2 ^ 30) : real < borderNr real := by
  obtain ⟨n, hn⟩ : ∃ n : ℕ, real / fdAlign = n := Int.eq_ofNat_of_zero_le (Int.ediv_nonneg hreal
    (by decide))
  have hmod : real < (n + 1) * fdAlign := hn ▸ Int.lt_ediv_add_one_mul_self real (by decide)
  refine lt_of_lt_of_le hmod (Int.mul_le_mul_of_nonneg_right ?_ (by decide))
  rw [hn, Int.toNat_natCast]
  split
  case isTrue hne =>
    have hpos : n ≠ 0 := fun hzero => hne (congrArg Nat.cast hzero)
    have hlog : n.log2 < 32 := (Nat.log2_lt hpos).mpr (by unfold fdAlign at hn; omega)
    rw [clz, show 32 - (31 - n.log2) = n.log2 + 1 by omega]
    exact_mod_cast (Nat.lt_log2_self)
  case isFalse hzero =>
    omega

/-- A base leaves room for all areas, up to the limit. -/
theorem chooseServiceFdBase_room {serviceFdBase rlimCur inhFdMax : ℤ} {fdt : Option ℕ}
    {fds : List ℤ} {base real : ℤ} (hinh : -1 ≤ inhFdMax)
    (hreal : max (fds.headD (-1)) inhFdMax + serviceFdMax * fdt.getD 1 + 16 = real)
    (hsmall : real < 2 ^ 30)
    (h : chooseServiceFdBase serviceFdBase rlimCur inhFdMax fdt 0 fds = base) (hne : base ≠ -1) :
    real ≤ base ∧ base ≤ rlimCur := by
  have hmul : 0 ≤ serviceFdMax * (fdt.getD 1) := Int.mul_nonneg (by decide) (by omega)
  have hlt := lt_borderNr (by omega) hsmall
  rw [chooseServiceFdBase, if_neg fun hid => hid.2 rfl, serviceFdMin, Int.sub_zero, hreal] at h
  dsimp only at h
  split at h
  · split at h
    · exact absurd h.symm hne
    · have := Int.ediv_mul_le rlimCur (show fdAlign ≠ 0 by decide)
      omega
  · omega

/-- The numbers of the service descriptors are above those of the task and of what it inherits,
below the limit, and all different. -/
theorem service_fds_apart (news : List ℤ) (fdt : Option ℕ) (serviceFdBase rlimCur inhFdMax : ℤ)
    (hinh : -1 ≤ inhFdMax)
    (hsmall : ∀ fd ∈ inhFdMax :: news, fd + serviceFdMax * fdt.getD 1 + 16 < 2 ^ 30)
    (h : chooseServiceFdBase serviceFdBase rlimCur inhFdMax fdt 0
      (news.foldl collectTaskFd []) ≠ -1) :
    Apart (inhFdMax :: news) rlimCur (fdt.getD 1) (chooseServiceFdBase serviceFdBase rlimCur
      inhFdMax fdt 0 (news.foldl collectTaskFd [])) := by
  obtain ⟨hsorted, hmem⟩ := collected news
  generalize news.foldl collectTaskFd [] = fds at *
  have hlast : ∀ fd ∈ inhFdMax :: news, fd ≤ max (fds.headD (-1)) inhFdMax := by
    refine forall_mem_cons.mpr ⟨le_max_right _ _, fun fd hfd => le_trans ?_ (le_max_left _ _)⟩
    cases fds with
    | nil => exact absurd ((hmem fd).mpr hfd) not_mem_nil
    | cons a rest =>
      rcases mem_cons.mp ((hmem fd).mpr hfd) with rfl | hin
      · exact le_refl _
      · exact (pairwise_cons.mp hsorted).1 fd hin
  have hmax : max (fds.headD (-1)) inhFdMax ∈ inhFdMax :: news := by
    cases fds with
    | nil => simp [max_eq_right hinh]
    | cons a rest =>
      rcases le_total a inhFdMax with hle | hle
      · simp [max_eq_right hle]
      · simp [max_eq_left hle, (hmem a).mp mem_cons_self]
  obtain ⟨hroom, hlim⟩ := chooseServiceFdBase_room hinh rfl (hsmall _ hmax) rfl h
  refine ⟨fun id hid type hlo hhi => ?_, ?_⟩
  · simp only [serviceFdAt, serviceFdMin, serviceFdMax] at *
    exact ⟨fun fd hfd => by have := hlast fd hfd; omega, by omega⟩
  · simp only [serviceFdAt, serviceFdMin, serviceFdMax] at *
    omega

/-- Three tasks share a table with three descriptors, and one more is inherited. -/
theorem service_fds_apart_three : Apart [5, 0, 1, 2] 1024 3
    (chooseServiceFdBase 0 1024 5 (some 3) 0 ([0, 1, 2].foldl collectTaskFd [])) :=
  service_fds_apart [0, 1, 2] (some 3) 0 1024 5 (by decide) (by decide) (by decide)

/-- `LOG_FD_OFF`. -/
def logFdOff : ℤ := 1

def sfdTypes : List ℤ := (range 15).map fun i : ℕ => (i : ℤ) + 1

/-- The types in `sfd_map`, with `sfd_arr`, `service_fd_base` and `service_fd_id`. -/
structure Sfds where
  map : List ℤ
  arr : ℤ → ℤ
  base : ℤ
  id : ℕ

/-- Where the service descriptors of a task go, whether the task has `CLONE_FILES`, and whether the
numbers there are closed first. -/
structure Area where
  base : ℤ
  id : ℕ
  cloneFiles : Bool
  cleanup : Bool

def Area.fd (a : Area) (type : ℤ) : ℤ := serviceFdAt a.base type a.id

def getServiceFd (s : Sfds) (type : ℤ) : ℤ :=
  if type ∉ s.map then -1
  else if s.base = 0 then s.arr type
  else serviceFdAt s.base type s.id

/-- `move_service_fd` on the table of open files. -/
def moveServiceFd (s : Sfds) (a : Area) (files : ℤ → Option ℤ) (type : ℤ) : ℤ → Option ℤ :=
  let old := getServiceFd s type
  let new := a.fd type
  let files := if a.cleanup ∧ new ≠ old then update files new none else files
  -- a type without its bit has no old number, so it is dup2 that copies
  if old < 0 ∨ new < 0 ∨ files old = none then files
  else
    let files := update files new (files old)
    if a.cloneFiles then files else update files old none

def moveOrder (s : Sfds) (a : Area) : List ℤ :=
  if getServiceFd s logFdOff < a.fd logFdOff then sfdTypes else sfdTypes.reverse

/-- `clone_service_fd`; the results of the moves are not looked at. -/
def cloneServiceFd (s : Sfds) (a : Area) (files : ℤ → Option ℤ) :
    Option (Sfds × (ℤ → Option ℤ)) :=
  if a.base = -1 then none
  else if getServiceFd s logFdOff = a.fd logFdOff then some (s, files)
  else some ({ s with base := a.base, id := a.id },
    (moveOrder s a).foldl (moveServiceFd s a) files)

/-- Types are installed at different numbers, the log among them, and their new numbers are numbers
of descriptors. -/
structure Placed (s : Sfds) (a : Area) : Prop where
  log : logFdOff ∈ s.map
  types : s.map ⊆ sfdTypes
  old : ∀ t ∈ s.map, 0 ≤ getServiceFd s t
  new : ∀ t ∈ s.map, 0 ≤ a.fd t
  distinct : ∀ t ∈ s.map, ∀ u ∈ s.map, getServiceFd s t = getServiceFd s u → t = u

/-- Every installed type refers to the file it referred to before. -/
def Kept (s : Sfds) (a : Area) : Prop :=
  ∀ files, (∀ t ∈ s.map, files (getServiceFd s t) ≠ none) →
    ∃ s' files', cloneServiceFd s a files = some (s', files') ∧
      ∀ t ∈ s.map, files' (getServiceFd s' t) = files (getServiceFd s t)

/-- No move, and no closing of its target, hits a number that is still to be moved, and no number
is closed after a move to itself. -/
structure Unharmed (s : Sfds) (a : Area) (types : List ℤ) : Prop where
  ahead : types.Pairwise fun t u => t ∈ s.map ∨ a.cleanup → u ∈ s.map → a.fd t ≠ getServiceFd s u
  inPlace : ∀ t ∈ types, t ∈ s.map → a.fd t = getServiceFd s t → a.cloneFiles

section Moves

variable {s : Sfds} {a : Area} {files : ℤ → Option ℤ} {types : List ℤ} {t u x v : ℤ}
  (h : Placed s a)

theorem Area.fd_inj (h : a.fd t = a.fd u) : t = u := by
  simp only [Area.fd, serviceFdAt] at h
  omega

include h

theorem move_apply : moveServiceFd s a files t x =
    if t ∈ s.map ∧ files (getServiceFd s t) ≠ none then
      if x = getServiceFd s t ∧ ¬ a.cloneFiles then none
      else if x = a.fd t then files (getServiceFd s t) else files x
    else if a.cleanup ∧ x = a.fd t ∧ x ≠ getServiceFd s t then none else files x := by
  have hold := h.old t
  have hnew := h.new t
  have habsent : t ∉ s.map → getServiceFd s t = -1 := fun hno => if_pos hno
  unfold moveServiceFd
  grind [update_apply]

theorem run_frame (hx : ∀ t ∈ types, x ≠ a.fd t ∧ (t ∈ s.map → x ≠ getServiceFd s t)) :
    types.foldl (moveServiceFd s a) files x = files x := by
  induction types generalizing files with
  | nil => rfl
  | cons t types ih =>
    obtain ⟨⟨hn, ho⟩, hx⟩ := forall_mem_cons.mp hx
    refine (ih hx).trans ?_
    rw [move_apply h]
    grind

theorem run_moves (hn : types.Nodup) (hu : Unharmed s a types)
    (hopen : ∀ t ∈ s.map, t ∈ types → files (getServiceFd s t) ≠ none) :
    ∀ t ∈ s.map, t ∈ types →
      types.foldl (moveServiceFd s a) files (a.fd t) = files (getServiceFd s t) := by
  have hd := h.distinct
  induction types generalizing files with
  | nil => nofun
  | cons u types ih =>
    obtain ⟨hu', hn⟩ := nodup_cons.mp hn
    obtain ⟨ha, hahead⟩ := pairwise_cons.mp hu.ahead
    obtain ⟨hin, hinPlace⟩ := forall_mem_cons.mp hu.inPlace
    have hkeep : ∀ t ∈ s.map, t ∈ types →
        moveServiceFd s a files u (getServiceFd s t) = files (getServiceFd s t) := by
      intro t hmap ht
      rw [move_apply h]
      grind
    intro t hmap ht
    rcases mem_cons.mp ht with rfl | ht
    · have hother : ∀ u ∈ types, a.fd t ≠ a.fd u := fun u hu heq => hu' (Area.fd_inj heq ▸ hu)
      refine (run_frame h fun u hu => ⟨hother u hu, ha u hu (.inl hmap)⟩).trans ?_
      rw [move_apply h]
      grind
    · refine (ih hn ⟨hahead, hinPlace⟩ (fun t hmap ht => ?_) t hmap ht).trans (hkeep t hmap ht)
      rw [hkeep t hmap ht]
      exact hopen t hmap (mem_cons_of_mem _ ht)

/-- A file that no number refers to does not come back. -/
theorem run_lost (hno : ∀ x, files x ≠ some v) :
    types.foldl (moveServiceFd s a) files x ≠ some v := by
  induction types generalizing files with
  | nil => exact hno x
  | cons t types ih =>
    refine ih fun y => ?_
    rw [move_apply h]
    grind

/-- Each harm loses a file when the files are different. -/
theorem unharmed_of_run (hn : types.Nodup)
    (hopen : ¬ a.cleanup → ∀ t ∈ s.map, t ∈ types → files (getServiceFd s t) ≠ none)
    (honly : ∀ t ∈ s.map, t ∈ types → ∀ x, files x = some (getServiceFd s t) → x = getServiceFd s t)
    (hrun : ∀ t ∈ s.map, t ∈ types →
      types.foldl (moveServiceFd s a) files (a.fd t) = some (getServiceFd s t)) :
    Unharmed s a types := by
  have hd := h.distinct
  induction types generalizing files with
  | nil => exact ⟨.nil, nofun⟩
  | cons u types ih =>
    obtain ⟨hu, hn⟩ := nodup_cons.mp hn
    have hfile : ∀ t ∈ s.map, t ∈ types → ∀ x,
        moveServiceFd s a files u x = some (getServiceFd s t) → x = getServiceFd s t := by
      intro t hmap ht x hx
      rw [move_apply h] at hx
      grind
    have hrest : ∀ t ∈ s.map, t ∈ types → types.foldl (moveServiceFd s a)
        (moveServiceFd s a files u) (a.fd t) = some (getServiceFd s t) :=
      fun t hmap ht => hrun t hmap (mem_cons_of_mem _ ht)
    have htail := ih hn (fun hc t hmap ht => ?_) hfile hrest
    · refine ⟨pairwise_cons.mpr ⟨fun t ht hc hmap heq => ?_, htail.ahead⟩,
        forall_mem_cons.mpr ⟨fun hmap heq => ?_, htail.inPlace⟩⟩
      · have hold := h.old t hmap
        have hget : u ∉ s.map → getServiceFd s u = -1 := fun hno => if_pos hno
        refine run_lost h (fun x hx => ?_) (hrest t hmap ht)
        rw [move_apply h] at hx
        grind
      · have hother : ∀ t ∈ types, a.fd u ≠ a.fd t := fun t ht heq => hu (Area.fd_inj heq ▸ ht)
        have hend : types.foldl (moveServiceFd s a) (moveServiceFd s a files u) (a.fd u) = _ :=
          run_frame h fun t ht => ⟨hother t ht, by grind⟩
        have hu' := (hrun u hmap mem_cons_self).symm.trans hend
        rw [move_apply h] at hu'
        grind
    · rw [move_apply h]
      grind

end Moves

/-- Moving the service descriptors loses none when they were placed by a base, whatever the
overlap. Without a base that is so when the log is in place already or when no move does harm. -/
theorem service_fds_kept_iff {s : Sfds} {a : Area} (h : Placed s a) :
    Kept s a ↔ s.base ≠ 0 ∨ getServiceFd s logFdOff = a.fd logFdOff ∨
      Unharmed s a (moveOrder s a) := by
  have hpos : 0 < a.base := by
    have := h.new _ h.log
    simp only [Area.fd, serviceFdAt, logFdOff, serviceFdMax] at this
    omega
  have hfd : ∀ t ∈ s.map, getServiceFd { s with base := a.base, id := a.id } t = a.fd t := by
    intro t hmap
    simp [getServiceFd, hmap, ne_of_gt hpos, Area.fd]
  by_cases hlog : getServiceFd s logFdOff = a.fd logFdOff
  · refine iff_of_true (fun files _ => ⟨s, files, ?_, fun _ _ => rfl⟩) (.inr (.inl hlog))
    rw [cloneServiceFd, if_neg (by omega), if_pos hlog]
  have hclone : ∀ files, cloneServiceFd s a files = some (_, _) := fun files => by
    rw [cloneServiceFd, if_neg (by omega), if_neg hlog]
  have horder : (moveOrder s a).Pairwise fun t u =>
      getServiceFd s logFdOff < a.fd logFdOff ∧ t < u ∨
        a.fd logFdOff ≤ getServiceFd s logFdOff ∧ u < t := by
    have hasc : sfdTypes.Pairwise (· < ·) := by decide
    unfold moveOrder
    split
    case isTrue hlt => exact hasc.imp fun h => .inl ⟨hlt, h⟩
    case isFalse hge => exact (pairwise_reverse.mpr hasc).imp fun h => .inr ⟨not_lt.mp hge, h⟩
  have hn : (moveOrder s a).Nodup := horder.imp fun _ _ => by omega
  constructor
  · intro hk
    obtain ⟨s', files', hrun, hkept⟩ := hk some fun _ _ => Option.some_ne_none _
    cases (hclone some).symm.trans hrun
    refine .inr (.inr (unharmed_of_run h hn (fun _ _ _ _ => Option.some_ne_none _)
      (fun _ _ _ _ => Option.some.inj) fun t hmap _ => ?_))
    rw [← hkept t hmap, hfd t hmap]
  · intro hcond files hopen
    have hu : Unharmed s a (moveOrder s a) := by
      rcases hcond with hbase | hl | hu
      · -- all numbers move by the same distance, in the order of memmove
        have hget : ∀ t ∈ s.map, getServiceFd s t = serviceFdAt s.base t s.id := by
          intro t hmap
          simp [getServiceFd, hmap, hbase]
        rw [hget _ h.log] at hlog horder
        refine ⟨horder.imp fun _ _ hmap heq => ?_, fun t _ hmap heq => ?_⟩
        all_goals
          rw [hget _ hmap] at heq
          simp only [Area.fd, serviceFdAt] at *
          omega
      · exact absurd hl hlog
      · exact hu
    refine ⟨_, _, hclone files, fun t hmap => ?_⟩
    rw [hfd t hmap]
    refine run_moves h hn hu (fun t hmap _ => hopen t hmap) t hmap ?_
    unfold moveOrder
    split
    · exact h.types hmap
    · exact mem_reverse.mpr (h.types hmap)

def twoInstalled : Sfds := ⟨[1, 2], fun t => if t = 1 then 3 else 127, 0, 0⟩

theorem service_fds_kept_above : Kept twoInstalled ⟨256, 0, false, false⟩ :=
  (service_fds_kept_iff ⟨by decide, by decide, by decide, by decide, by decide⟩).mpr
    (.inr (.inr ⟨by decide, by decide⟩))

/-- The log goes to the number of the image directory. That then refers to the log, whose new number
is closed. -/
theorem service_fd_overwritten : Placed twoInstalled ⟨128, 0, false, false⟩ ∧ ∃ s' files',
    cloneServiceFd twoInstalled ⟨128, 0, false, false⟩ some = some (s', files') ∧
      getServiceFd twoInstalled 2 = 127 ∧ files' (getServiceFd s' 2) = some 3 ∧
      files' (getServiceFd s' 1) = none :=
  ⟨⟨by decide, by decide, by decide, by decide, by decide⟩, _, _, rfl, by decide, by decide,
    by decide⟩

end Criu.ServiceFd

import Criu.Pagemap

/-!
Where private VMAs are premapped on restore (criu/mem.c). The VMAs of a task that may share pages
with its parent or that the restorer cannot read by itself are mapped one after another into an
area that was reserved for them. If the kernel hides the guard page of a VMA that grows down, one
more page is mapped below it, so that the addresses in the area may run ahead of the final ones.
-/

namespace Criu.Premap

open List

open Pagemap (pageSize)

variable {tgt last pstart : ℕ} {pieok : Bool} {prev : Option ℕ}

/-- The fields of a VMA that restoring private memory looks at: of the flags `MAP_ANONYMOUS` and
`MAP_GROWSDOWN`, of the status one field for each bit. -/
structure VmaEntry where
  start : ℕ
  stop : ℕ
  pgoff : ℕ
  shmid : ℕ
  anonymous : Bool
  growsdown : Bool
  regular : Bool
  anonPrivate : Bool
  filePrivate : Bool
  aioring : Bool
  premmaped : Bool
deriving DecidableEq

/-- The VMA of the parent that a VMA may share pages with: none, `VMA_COW_ROOT`, or the one with
this number. -/
inductive Pvma
  | null
  | cowRoot
  | parent (i : ℕ)
deriving DecidableEq

structure VmaArea where
  e : VmaEntry
  pvma : Pvma
  premmapedAddr : ℕ
deriving DecidableEq

structure Kdat where
  taskSize : ℕ
  stackGuardGapHidden : Bool

variable {kdat : Kdat} {vs vs' : List VmaArea}

def vmaEntryLen (e : VmaEntry) : ℕ := e.stop - e.start

def vmaEntryIsPrivate (e : VmaEntry) (taskSize : ℕ) : Bool :=
  e.regular && (e.anonPrivate || e.filePrivate) && e.stop ≤ taskSize || e.aioring

def vmaHasGuardGapHidden (kdat : Kdat) (e : VmaEntry) : Bool :=
  kdat.stackGuardGapHidden && e.growsdown

def guardLen (kdat : Kdat) (e : VmaEntry) : ℕ :=
  if vmaHasGuardGapHidden kdat e then pageSize else 0

/-- The bookkeeping of `premap_private_vma`: the VMA goes to `tgt`, behind its guard page. -/
def premapPrivateVma (kdat : Kdat) (v : VmaArea) (tgt : ℕ) : VmaArea × ℕ :=
  ({ v with
      e := { v.e with premmaped := true }
      premmapedAddr := tgt + guardLen kdat v.e },
    tgt + (vmaEntryLen v.e + guardLen kdat v.e))

/-- A VMA that grows down right above another one has no room for its guard page; `prev` is the
end of the VMA before it. -/
def vmaForcePremap (v : VmaArea) (prev : Option ℕ) : Bool :=
  v.e.growsdown && prev == some v.e.start

/-- The restorer maps the VMA itself. -/
def leftToRestorer (pieok : Bool) (v : VmaArea) (prev : Option ℕ) : Bool :=
  v.pvma == .null && pieok && !vmaForcePremap v prev

def premapOne (kdat : Kdat) (pieok : Bool) (prev : Option ℕ) (tgt : ℕ) (v : VmaArea) :
    VmaArea × ℕ :=
  if !vmaEntryIsPrivate v.e kdat.taskSize || leftToRestorer pieok v prev then (v, tgt)
  else premapPrivateVma kdat v tgt

/-- `premap_priv_vmas`, without the `VMA_NO_PROT_WRITE` marks of the VMAs that are left to the
restorer. -/
def premapPrivVmas (kdat : Kdat) (pieok : Bool) :
    Option ℕ → ℕ → ℕ → List VmaArea → Option (List VmaArea × ℕ)
  | _, _, tgt, [] => some ([], tgt)
  | prev, pstart, tgt, v :: vs =>
      if v.e.start < pstart then none
      else
        let one := premapOne kdat pieok prev tgt v
        (premapPrivVmas kdat pieok (some v.e.stop) v.e.start one.2 vs).map
          fun r => (one.1 :: r.1, r.2)

/-- What `prepare_vmas` hands over to the restorer, with the address that a VMA is premapped at in
place of its `shmid`. -/
def restorerVma (v : VmaArea) : VmaEntry :=
  if v.e.premmaped then { v.e with shmid := v.premmapedAddr } else v.e

/-- How the area is filled from `tgt` on: the premapped VMAs follow each other without gaps. -/
inductive Packed (kdat : Kdat) : ℕ → ℕ → List VmaEntry → Prop
  | nil (tgt : ℕ) : Packed kdat tgt tgt []
  | skip {tgt last : ℕ} {v : VmaEntry} {vs : List VmaEntry} (h : v.premmaped = false)
      (hvs : Packed kdat tgt last vs) : Packed kdat tgt last (v :: vs)
  | premap {tgt last : ℕ} {v : VmaEntry} {vs : List VmaEntry} (h : v.premmaped = true)
      (haddr : v.shmid = tgt + guardLen kdat v)
      (hvs : Packed kdat (tgt + (vmaEntryLen v + guardLen kdat v)) last vs) :
      Packed kdat tgt last (v :: vs)

theorem premapPrivVmas_cons {v : VmaArea}
    (h : premapPrivVmas kdat pieok prev pstart tgt (v :: vs) = some (vs', last)) :
    ∃ rest, vs' = (premapOne kdat pieok prev tgt v).1 :: rest ∧
      premapPrivVmas kdat pieok (some v.e.stop) v.e.start (premapOne kdat pieok prev tgt v).2 vs =
        some (rest, last) := by
  unfold premapPrivVmas at h
  split at h
  · cases h
  · obtain ⟨r, hr, heq⟩ := Option.map_eq_some_iff.mp h
    cases heq
    exact ⟨r.1, rfl, hr⟩

theorem premapPrivVmas_packed (hfresh : ∀ v ∈ vs, v.e.premmaped = false)
    (h : premapPrivVmas kdat pieok prev pstart tgt vs = some (vs', last)) :
    Packed kdat tgt last (vs'.map restorerVma) := by
  induction vs generalizing prev pstart tgt last vs' with
  | nil =>
    cases h
    exact .nil tgt
  | cons v vs ih =>
    obtain ⟨hv, hvs⟩ := forall_mem_cons.mp hfresh
    obtain ⟨rest, rfl, hrest⟩ := premapPrivVmas_cons h
    have hrest := ih hvs hrest
    unfold premapOne at hrest ⊢
    split at hrest
    · next hskip =>
      rw [if_pos hskip]
      refine .skip ?_ hrest
      unfold restorerVma
      rw [if_neg (by simp [hv])]
      exact hv
    · next hskip =>
      rw [if_neg hskip]
      exact .premap rfl rfl hrest

/-- Premapping does not change what the VMAs cover. -/
theorem premapPrivVmas_spans
    (h : premapPrivVmas kdat pieok prev pstart tgt vs = some (vs', last)) :
    (vs'.map restorerVma).map (fun e => (e.start, e.stop)) =
    vs.map (fun v => (v.e.start, v.e.stop)) := by
  induction vs generalizing prev pstart tgt vs' with
  | nil =>
    cases h
    rfl
  | cons v vs ih =>
    obtain ⟨rest, rfl, hrest⟩ := premapPrivVmas_cons h
    have hkeep : ∀ w : VmaArea,
        ((restorerVma w).start, (restorerVma w).stop) = (w.e.start, w.e.stop) := by
      intro w
      unfold restorerVma
      split
      · rfl
      · rfl
    rw [map_cons, map_cons, ih hrest, hkeep]
    unfold premapOne
    split
    · rfl
    · rfl

namespace Packed

variable {vs : List VmaEntry}

theorem le (h : Packed kdat tgt last vs) : tgt ≤ last := by
  induction h with
  | nil => exact Nat.le_refl _
  | skip _ _ ih => exact ih
  | premap _ _ _ ih => omega

/-- All of a premapped VMA is in the area, with its guard page. -/
theorem mem (h : Packed kdat tgt last vs) : ∀ v ∈ vs, v.premmaped = true →
    tgt + guardLen kdat v ≤ v.shmid ∧ v.shmid + vmaEntryLen v ≤ last := by
  induction h with
  | nil => exact nofun
  | skip hno _ ih => exact forall_mem_cons.mpr ⟨fun hp => absurd (hno ▸ hp) Bool.false_ne_true, ih⟩
  | premap _ haddr hvs ih =>
    have hle := hvs.le
    refine forall_mem_cons.mpr ⟨fun _ => by omega, fun v hv hp => ?_⟩
    have := ih v hv hp
    omega

theorem pairwise (h : Packed kdat tgt last vs) :
    vs.Pairwise (fun u w => u.premmaped = true → w.premmaped = true →
      u.shmid + vmaEntryLen u + guardLen kdat w ≤ w.shmid) := by
  induction h with
  | nil => exact .nil
  | skip hno hvs ih =>
    refine .cons (fun w _ hu => ?_) ih
    rw [hno] at hu
    cases hu
  | premap _ haddr hvs ih =>
    refine .cons (fun w hw _ hpw => ?_) ih
    have := (hvs.mem w hw hpw).1
    omega

theorem aligned (h : Packed kdat tgt last vs) (htgt : pageSize ∣ tgt)
    (hlen : ∀ v ∈ vs, pageSize ∣ vmaEntryLen v) :
    ∀ v ∈ vs, v.premmaped = true → pageSize ∣ v.shmid := by
  have hguard : ∀ u, pageSize ∣ guardLen kdat u := by
    intro u
    unfold guardLen
    split
    · exact Nat.dvd_refl _
    · exact Nat.dvd_zero _
  induction h with
  | nil => exact nofun
  | skip hno _ ih =>
    exact forall_mem_cons.mpr ⟨fun hp => absurd (hno ▸ hp) Bool.false_ne_true,
      ih htgt (forall_mem_cons.mp hlen).2⟩
  | premap _ haddr hvs ih =>
    obtain ⟨hv, hlen⟩ := forall_mem_cons.mp hlen
    refine forall_mem_cons.mpr ⟨fun _ => ?_, ih ?_ hlen⟩
    · rw [haddr]
      exact Nat.dvd_add htgt (hguard _)
    · exact Nat.dvd_add htgt (Nat.dvd_add hv (hguard _))

end Packed

end Criu.Premap

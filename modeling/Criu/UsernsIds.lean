import Mathlib.Algebra.Group.Nat.Defs
import Mathlib.Data.List.Pairwise
import Mathlib.Tactic.Cases

/-!
Ids of users and groups across nested user namespaces (criu/namespaces.c). An id of the root
namespace is translated down through the extents of each namespace on the way, and an id of a
namespace up again.
-/

namespace Criu.UsernsIds

open List

structure UidGidExtent where
  first : BitVec 32
  lowerFirst : BitVec 32
  count : BitVec 32

def nsInvalidXid : BitVec 32 := BitVec.allOnes 32

/-- The first extent with the id on one side, and the same id on the other one. -/
def usernsXid (src dst : UidGidExtent → BitVec 32) (id : BitVec 32) (map : List UidGidExtent) :
    BitVec 32 :=
  match map.find? fun e => src e ≤ id ∧ id < src e + e.count with
  | some e => dst e + (id - src e)
  | none => nsInvalidXid

def childUsernsXid : BitVec 32 → List UidGidExtent → BitVec 32 :=
  usernsXid UidGidExtent.lowerFirst UidGidExtent.first

/-- `newuser` tells whether `root_ns_mask` has `CLONE_NEWUSER`. -/
def parentUsernsXid (newuser : Bool) (id : BitVec 32) (map : List UidGidExtent) : BitVec 32 :=
  if newuser = false then id else usernsXid UidGidExtent.first UidGidExtent.lowerFirst id map

/-- One side of a map: extents end below the last id and do not overlap. -/
structure Side (src : UidGidExtent → BitVec 32) (map : List UidGidExtent) : Prop where
  bound : ∀ e ∈ map, (src e).toNat + e.count.toNat < 2 ^ 32
  apart : map.Pairwise fun a b => (src a).toNat + a.count.toNat ≤ (src b).toNat ∨
    (src b).toNat + b.count.toNat ≤ (src a).toNat

structure IdMap where
  extents : List UidGidExtent
  first : Side UidGidExtent.first extents
  lower : Side UidGidExtent.lowerFirst extents

structure UserNs where
  uidMap : IdMap
  gidMap : IdMap

section Translation

variable (newuser : Bool) (map : UserNs → IdMap)

/-- Down from the root to the first of the namespaces, each of which is the parent of the one
before. -/
def targetUserns : List UserNs → BitVec 32 → BitVec 32
  | [], id => id
  | ns :: up, id =>
      if newuser = false then id else childUsernsXid (targetUserns up id) (map ns).extents

def rootUserns : List UserNs → BitVec 32 → BitVec 32
  | [], id => id
  | ns :: up, id =>
      if newuser = false then id
      else rootUserns up (parentUsernsXid newuser id (map ns).extents)

end Translation

def targetUsernsUid (newuser : Bool) : List UserNs → BitVec 32 → BitVec 32 :=
  targetUserns newuser UserNs.uidMap

def targetUsernsGid (newuser : Bool) : List UserNs → BitVec 32 → BitVec 32 :=
  targetUserns newuser UserNs.gidMap

def rootUsernsUid (newuser : Bool) : List UserNs → BitVec 32 → BitVec 32 :=
  rootUserns newuser UserNs.uidMap

def rootUsernsGid (newuser : Bool) : List UserNs → BitVec 32 → BitVec 32 :=
  rootUserns newuser UserNs.gidMap

/-- The namespaces up to `root_user_ns`, which has some below only with `CLONE_NEWUSER`. -/
structure Chain where
  newuser : Bool
  levels : List UserNs
  nested : levels ≠ [] → newuser = true

def Maps (src : UidGidExtent → BitVec 32) (e : UidGidExtent) (id : BitVec 32) : Prop :=
  (src e).toNat ≤ id.toNat ∧ id.toNat < (src e).toNat + e.count.toNat

/-- The translations are inverse to each other, and an id that a namespace does not map is lost. -/
structure Bijective (map : UserNs → IdMap) (levels : List UserNs)
    (target root : List UserNs → BitVec 32 → BitVec 32) : Prop where
  up_down : ∀ id, target levels id ≠ nsInvalidXid → root levels (target levels id) = id
  down_up : ∀ id, root levels id ≠ nsInvalidXid → target levels (root levels id) = id
  target_lost : ∀ id down ns up, levels = down ++ ns :: up →
    (∀ e ∈ (map ns).extents, ¬ Maps UidGidExtent.lowerFirst e (target up id)) →
    target levels id = nsInvalidXid
  root_lost : ∀ id down ns up, levels = down ++ ns :: up →
    (∀ e ∈ (map ns).extents, ¬ Maps UidGidExtent.first e (root down id)) →
    root levels id = nsInvalidXid

/-! ### One map -/

section Side

variable {src dst : UidGidExtent → BitVec 32} {m : List UidGidExtent} {e e' : UidGidExtent}
  {id : BitVec 32}

theorem Side.maps_iff (h : Side src m) (he : e ∈ m) :
    (src e ≤ id ∧ id < src e + e.count) ↔ Maps src e id := by
  rw [BitVec.le_def, BitVec.lt_def, BitVec.toNat_add, Nat.mod_eq_of_lt (h.bound e he), Maps]

theorem Side.unique (h : Side src m) (he : e ∈ m) (he' : e' ∈ m) (hm : Maps src e id)
    (hm' : Maps src e' id) : e = e' := by
  by_contra hne
  have := @Pairwise.forall _ _ _ ⟨fun _ _ => Or.symm⟩ h.apart _ he _ he' hne
  unfold Maps at hm hm'
  omega

variable (id) in
/-- The id is lost, or the extent that has it translates it. -/
theorem Side.xid (h : Side src m) :
    (∀ e ∈ m, ¬ Maps src e id) ∧ usernsXid src dst id m = nsInvalidXid ∨
      ∃ e ∈ m, Maps src e id ∧ usernsXid src dst id m = dst e + (id - src e) := by
  unfold usernsXid
  split
  · next e hf =>
    have he := mem_of_find?_eq_some hf
    have hin := find?_some hf
    exact .inr ⟨e, he, (h.maps_iff he).mp (of_decide_eq_true hin), rfl⟩
  · next hf =>
    refine .inl ⟨fun e he hm => ?_, rfl⟩
    exact find?_eq_none.mp hf e he (decide_eq_true ((h.maps_iff he).mpr hm))

theorem Side.lost (h : Side src m) (hid : ∀ e ∈ m, ¬ Maps src e id) :
    usernsXid src dst id m = nsInvalidXid := by
  rcases h.xid id with ⟨-, hlost⟩ | ⟨e, he, hm, -⟩
  · exact hlost
  · exact absurd hm (hid e he)

theorem Side.invalid (h : Side src m) : usernsXid src dst nsInvalidXid m = nsInvalidXid := by
  refine h.lost fun e he hm => ?_
  have := h.bound e he
  rw [Maps, nsInvalidXid, BitVec.toNat_allOnes] at hm
  omega

theorem Side.inverse (hs : Side src m) (hd : Side dst m)
    (h : usernsXid src dst id m ≠ nsInvalidXid) :
    usernsXid dst src (usernsXid src dst id m) m = id := by
  rcases hs.xid id with ⟨-, hlost⟩ | ⟨e, he, hm, heq⟩
  · exact absurd hlost h
  have hbound := hd.bound e he
  have hback : Maps dst e (dst e + (id - src e)) := by
    unfold Maps at hm ⊢
    bv_omega
  rw [heq]
  rcases hd.xid (dst e + (id - src e)) with ⟨hnone, -⟩ | ⟨e', he', hm', heq'⟩
  · exact absurd hback (hnone e he)
  · rw [heq', hd.unique he' he hm' hback]
    bv_omega

end Side

/-! ### A chain of namespaces -/

section Levels

variable {map : UserNs → IdMap} {id : BitVec 32}

theorem targetUserns_cons (ns : UserNs) (up : List UserNs) : targetUserns true map (ns :: up) id =
    usernsXid UidGidExtent.lowerFirst UidGidExtent.first (targetUserns true map up id)
      (map ns).extents := rfl

theorem rootUserns_cons (ns : UserNs) (up : List UserNs) : rootUserns true map (ns :: up) id =
    rootUserns true map up
      (usernsXid UidGidExtent.first UidGidExtent.lowerFirst id (map ns).extents) := rfl

theorem rootUserns_append (down up : List UserNs) : rootUserns true map (down ++ up) id =
    rootUserns true map up (rootUserns true map down id) := by
  induction down generalizing id with
  | nil => rfl
  | cons ns down ih => exact ih

theorem rootUserns_invalid (levels : List UserNs) :
    rootUserns true map levels nsInvalidXid = nsInvalidXid := by
  induction levels with
  | nil => rfl
  | cons ns levels ih => rw [rootUserns_cons, (map ns).first.invalid, ih]

theorem targetUserns_lost (down : List UserNs) {up : List UserNs}
    (h : targetUserns true map up id = nsInvalidXid) :
    targetUserns true map (down ++ up) id = nsInvalidXid := by
  induction down with
  | nil => exact h
  | cons ns down ih => rw [cons_append, targetUserns_cons, ih, (map ns).lower.invalid]

theorem bijective (levels : List UserNs) :
    Bijective map levels (targetUserns true map) (rootUserns true map) := by
  constructor
  · intro id h
    induction levels with
    | nil => rfl
    | cons ns up ih =>
      have hup : targetUserns true map up id ≠ nsInvalidXid :=
        fun hlost => h (targetUserns_lost [ns] hlost)
      rw [targetUserns_cons]
      rw [rootUserns_cons, (map ns).lower.inverse (map ns).first h, ih hup]
  · intro id h
    induction levels generalizing id with
    | nil => rfl
    | cons ns up ih =>
      rw [rootUserns_cons] at h ⊢
      rw [targetUserns_cons, ih _ h]
      refine (map ns).first.inverse (map ns).lower fun hlost => h ?_
      rw [hlost, rootUserns_invalid]
  · rintro id down ns up rfl hun
    exact targetUserns_lost down ((map ns).lower.lost hun)
  · rintro id down ns up rfl hun
    rw [rootUserns_append, rootUserns_cons, (map ns).first.lost hun, rootUserns_invalid]

end Levels

theorem userns_ids_bijective (c : Chain) :
    Bijective UserNs.uidMap c.levels (targetUsernsUid c.newuser) (rootUsernsUid c.newuser) ∧
      Bijective UserNs.gidMap c.levels (targetUsernsGid c.newuser) (rootUsernsGid c.newuser) := by
  cases hl : c.levels with
  | nil => exact ⟨⟨fun _ _ => rfl, fun _ _ => rfl, by simp, by simp⟩,
      fun _ _ => rfl, fun _ _ => rfl, by simp, by simp⟩
  | cons ns up =>
    rw [c.nested (by simp [hl])]
    exact ⟨bijective _, bijective _⟩

/-- One extent of a hundred ids. -/
def hundred (lowerFirst : BitVec 32) (h : lowerFirst.toNat + 100 < 2 ^ 32) : IdMap where
  extents := [⟨0, lowerFirst, 100⟩]
  first := ⟨by simp, pairwise_singleton _ _⟩
  lower := ⟨by simpa using h, pairwise_singleton _ _⟩

/-- A namespace in another one. -/
def twoLevels : Chain where
  newuser := true
  levels := [⟨hundred 20 (by decide), hundred 30 (by decide)⟩,
    ⟨hundred 100000 (by decide), hundred 200000 (by decide)⟩]
  nested _ := rfl

theorem two_levels_bijective : targetUsernsUid true twoLevels.levels 100025 = 5 ∧
    rootUsernsUid true twoLevels.levels (targetUsernsUid true twoLevels.levels 100025) = 100025 :=
  ⟨by decide, (userns_ids_bijective twoLevels).1.up_down 100025 (by decide)⟩

end Criu.UsernsIds

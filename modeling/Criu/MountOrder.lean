import Criu.MountPaths

/-!
The order of the children in a mount tree (criu/mount.c). `mnt_build_tree` links the mounts by
their ids and sorts the children of each mount by the number of slashes in the mountpoint. Deeper
mountpoints have more slashes, except that the root mountpoint has as many as those right below it.
-/

namespace Criu.MountOrder

open Forest MountTree MountCheck MountPaths List

structure MountList (ι : Type) where
  list : List ι
  nodup : list.Nodup
  mntId : ι → ℕ
  parentMntId : ι → ℕ
  isNsRoot : ι → Bool
  mp : ι → List Comp

variable {ι : Type} (L : MountList ι)

def parentOf (m : ι) : Option ι :=
  if L.mntId m ≠ L.parentMntId m then L.list.find? fun p => L.mntId p = L.parentMntId m else none

/-- The loop of `mnt_build_ids_tree`, as far as it looks for the root. -/
def rootLoop : Option ι → List ι → Option ι
  | root, [] => root
  | root, m :: rest =>
      if (parentOf L m).isSome then rootLoop root rest
      else if root.isNone && L.isNsRoot m then rootLoop (some m) rest
      else none

def mntDepth (m : ι) : ℕ := (render true (L.mp m)).count 47

/-- The order of `__mnt_resort_children`. -/
def byDepth (p m : ι) : Bool := mntDepth L p < mntDepth L m

/-- The mountpoint of `b` lies strictly below the one of `a`. -/
def StrictlyBelow (a b : ι) : Prop := L.mp a <+: L.mp b ∧ L.mp a ≠ L.mp b

/-- No child of a mount of the tree comes before one that is mounted below it. -/
def DeeperFirst (f : Links ι) (root : ι) : Prop :=
  ∀ p, f.Within p root → (f.children p).Pairwise fun a b => ¬ StrictlyBelow L a b

variable {L}

theorem rootLoop_some {l : List ι} {root : Option ι} {r : ι} (h : rootLoop L root l = some r) :
    root = some r ∨ r ∈ l ∧ parentOf L r = none := by
  induction l generalizing root with
  | nil => exact .inl h
  | cons m l ih =>
    rw [rootLoop] at h
    split_ifs at h with hm hroot
    · exact (ih h).imp_right fun hr => ⟨mem_cons_of_mem m hr.1, hr.2⟩
    · rcases ih h with heq | hr
      · cases heq
        exact .inr ⟨mem_cons_self, Option.not_isSome_iff_eq_none.mp hm⟩
      · exact .inr ⟨mem_cons_of_mem m hr.1, hr.2⟩

theorem count_body (p : List Comp) : (body p).count 47 = p.length := by
  induction p with
  | nil => rfl
  | cons c p ih =>
    rw [body, count_cons_self, count_append, count_eq_zero_of_not_mem c.2.2.1, ih, Nat.zero_add,
      length_cons]

theorem mntDepth_eq (m : ι) : mntDepth L m = max 1 (L.mp m).length := by
  unfold mntDepth
  cases hm : L.mp m with
  | nil => rfl
  | cons c p =>
    rw [render_of_ne_nil true (cons_ne_nil c p), count_append, count_body]
    simp

/-- Only below the root mountpoint there are not more slashes. -/
theorem depth_of_below {a b : ι} (h : StrictlyBelow L a b) : mntDepth L a < mntDepth L b ∨
      mntDepth L a = mntDepth L b ∧ L.mp a = [] ∧ (L.mp b).length = 1 := by
  have hlt : (L.mp a).length < (L.mp b).length :=
    Nat.lt_of_le_of_ne h.1.length_le fun he => h.2 (h.1.eq_of_length he)
  rw [mntDepth_eq, mntDepth_eq, ← length_eq_zero_iff]
  omega

theorem byDepth_ranks : Ranks (byDepth L) (mntDepth L) := fun _ _ => decide_eq_true_iff

variable (L) [DecidableEq ι]

def mntBuildIdsTree : Option (Links ι × ι) :=
  (rootLoop L none L.list).map fun root =>
    ({ parent := fun m => if m ∈ L.list then parentOf L m else none
       children := fun p => L.list.filter fun m => parentOf L m = some p }, root)

def mntBuildTree (fuel : ℕ) : Option (Links ι × ι) := do
  let (tree, root) ← mntBuildIdsTree L
  let tree ← resortSiblings (byDepth L) root fuel fuel tree root
  some (tree, root)

variable {L}

/-- The mounts below the root form a tree. -/
theorem mntBuildIdsTree_branch {f : Links ι} {root : ι} (h : mntBuildIdsTree L = some (f, root)) :
    f.Branch root := by
  obtain ⟨r, hr, heq⟩ := Option.map_eq_some_iff.mp h
  cases heq
  obtain ⟨hmem, htop⟩ := (rootLoop_some hr).resolve_left nofun
  refine ⟨(L.list.finite_toSet).subset fun x hx => ?_, fun p _ c => ?_,
    fun p _ => L.nodup.filter _, fun p hp => ?_⟩
  · rcases Relation.ReflTransGen.cases_head hx with rfl | ⟨y, hy, -⟩
    · exact hmem
    · by_contra hno
      simp [Links.Up, show x ∉ L.list from hno] at hy
  · by_cases hc : c ∈ L.list <;> simp
  · simp [htop] at hp

/-- The children end up in the right order exactly if, in the order of mountinfo, no mount on the
root mountpoint comes before a sibling right below it. -/
theorem deeper_first_iff {f : Links ι} {root : ι} (h : mntBuildIdsTree L = some (f, root)) :
    ∃ N f', (∀ fuel, N ≤ fuel → mntBuildTree L fuel = some (f', root)) ∧
      (DeeperFirst L f' root ↔ ∀ p, f.Within p root → (f.children p).Pairwise fun a b =>
        ¬ (L.mp a = [] ∧ (L.mp b).length = 1)) := by
  obtain ⟨N, done, hdone, hrun⟩ := resort_spec (byDepth L) (mntBuildIdsTree_branch h)
  refine ⟨N, partly (byDepth L) f done,
    fun fuel hfuel => by simp [mntBuildTree, h, hrun fuel hfuel], ?_⟩
  refine forall_congr' fun p => ?_
  refine forall_congr' fun hp => ?_
  rw [partly_children _ _ (hdone p hp), sortedChildren_pairwise byDepth_ranks]
  · refine ⟨fun h => h.imp fun {a b} hab hbad => ?_, fun h => h.imp fun {a b} hab heq hbelow => ?_⟩
    · refine hab ?_ ⟨hbad.1 ▸ nil_prefix, fun he => ?_⟩
      · simp [mntDepth_eq, hbad.1, hbad.2]
      · rw [← he, hbad.1] at hbad
        cases hbad.2
    · rcases depth_of_below hbelow with hlt | ⟨-, hbad⟩
      · exact absurd heq hlt.ne
      · exact hab hbad
  · intro a b hab hbelow
    rcases depth_of_below hbelow with hlt | ⟨heq, -⟩ <;> omega

/-- A mount on the root mountpoint that is older than the one on `./a`. -/
def overRoot : MountList (Fin 3) where
  list := [0, 1, 2]
  nodup := by decide
  mntId m := m
  parentMntId _ := 0
  isNsRoot m := m = 0
  mp m := if m = 2 then [⟨[97], by decide⟩] else []

theorem over_root_order : ∃ f N f', mntBuildIdsTree overRoot = some (f, 0) ∧
    (∀ fuel, N ≤ fuel → mntBuildTree overRoot fuel = some (f', 0)) ∧
    (DeeperFirst overRoot f' 0 ↔ ∀ p, f.Within p 0 → (f.children p).Pairwise fun a b =>
      ¬ (overRoot.mp a = [] ∧ (overRoot.mp b).length = 1)) := by
  obtain ⟨N, f', h⟩ := deeper_first_iff (L := overRoot) rfl
  exact ⟨_, N, f', rfl, h⟩

theorem over_root_first : ∃ f', mntBuildTree overRoot 4 = some (f', 0) ∧
    ¬ DeeperFirst overRoot f' 0 := by
  refine ⟨_, rfl, fun h => ?_⟩
  have hpair := pairwise_cons.mp (h 0 Relation.ReflTransGen.refl)
  exact hpair.1 2 mem_cons_self ⟨ nil_prefix, nofun⟩

end Criu.MountOrder

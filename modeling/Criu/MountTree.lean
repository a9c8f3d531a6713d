import Criu.Lib.Grove
import Criu.StringSplit

/-!
The check of a restored mount tree (criu/mount.c). The children of every mount are sorted by
mountpoint while both trees are walked, and then the two trees are walked side by side; at each
mount the walks have to agree on what is compared and on the step that leads to the next one.
-/

namespace Criu.MountTree

open Forest List

variable {ι κ : Type} {out : Option (ι × ℕ)} {p x : ι} {d n : ℕ}

/-- `strcmp` on the bytes before the terminating zero. -/
def strcmp : List (Fin 256) → List (Fin 256) → Ordering
  | [], [] => .eq
  | [], _ :: _ => .lt
  | _ :: _, [] => .gt
  | a :: s, b :: t => if a < b then .lt else if b < a then .gt else strcmp s t

/-- `strncmp`: at most the given number of bytes, the terminating zero included. -/
def strncmp : ℕ → List (Fin 256) → List (Fin 256) → Ordering
  | 0, _, _ => .eq
  | _ + 1, [], [] => .eq
  | _ + 1, [], _ :: _ => .lt
  | _ + 1, _ :: _, [] => .gt
  | n + 1, a :: s, b :: t => if a < b then .lt else if b < a then .gt else strncmp n s t

/-- `strchrnul (s, c) - s`. -/
def strchrnul (s : List (Fin 256)) (c : Fin 256) : ℕ := (s.takeWhile (fun b => b ≠ c)).length

/-- `FSTYPE__…`: the codes that are asked for, and the others. -/
inductive FsCode
  | vzNsfs
  | cgroup
  | nfs
  | nfs4
  | other (code : ℕ)
deriving DecidableEq, Repr

structure MountInfo where
  nsMountpoint : List (Fin 256)
  root : List (Fin 256)
  fstype : FsCode
  flags : UInt32
  sbFlags : UInt32
deriving DecidableEq, Repr

/-- What `__check_mounts` complains about before it returns -1. -/
inductive Complaint
  | mountpoint
  | root
  | flags
  | topology
deriving DecidableEq, Repr

/-- `enum tree_step`; `STEP_SIBLING` is no climb at all. -/
inductive TreeStep
  | stop
  | child
  | parent (climbs : ℕ)
deriving DecidableEq, Repr

section Walk

variable [DecidableEq ι]

/-- The loop of `mnt_subtree_step` that looks for a later sibling. -/
def climb (f : Links ι) (root : ι) : ℕ → ι → ℕ → Option (Option ι × TreeStep)
  | 0, _, _ => none
  | n + 1, mi, climbs =>
      match f.parent mi with
      | none => some (none, .stop)
      | some parent =>
          if mi = root then some (none, .stop)
          else match Links.following mi (f.children parent) with
            | none => climb f root n parent (climbs + 1)
            | some sibling => some (some sibling, .parent climbs)

def mntSubtreeStep (f : Links ι) (root : ι) (n : ℕ) (mi : ι) : Option (Option ι × TreeStep) :=
  match f.children mi with
  | child :: _ => some (some child, .child)
  | [] => climb f root n mi 0

def mntSubtreeNext (f : Links ι) (root : ι) (n : ℕ) (mi : ι) : Option (Option ι) :=
  (mntSubtreeStep f root n mi).map Prod.fst

/-- The new child goes before the first one that is less. -/
def addSorted (less : ι → ι → Bool) (m : ι) : List ι → List ι
  | [] => [m]
  | p :: list => if less p m then m :: p :: list else p :: addSorted less m list

def sortedChildren (less : ι → ι → Bool) (children : List ι) : List ι :=
  children.foldl (fun list m => addSorted less m list) []

def resortChildren (less : ι → ι → Bool) (f : Links ι) (parent : ι) : Links ι :=
  { f with children :=
      Function.update f.children parent (sortedChildren less (f.children parent)) }

/-- The loop of `resort_siblings`, from some mount on. -/
def resortSiblings (less : ι → ι → Bool) (root : ι) (n : ℕ) :
    ℕ → Links ι → ι → Option (Links ι)
  | 0, _, _ => none
  | fuel + 1, f, mi =>
      let f := resortChildren less f mi
      match mntSubtreeNext f root n mi with
      | none => none
      | some none => some f
      | some (some next) => resortSiblings less root n fuel f next

/-- The order of `__resort_children`. -/
def byMountpoint (info : ι → MountInfo) (p m : ι) : Bool :=
  strcmp (info p).nsMountpoint (info m).nsMountpoint = .lt

end Walk

/-! ### The comparison -/

/-- The roots as the check compares them: a namespace's number is not looked at, and the root of a
cgroup mount may be another one. -/
def sameRoot (mnt new : MountInfo) : Bool :=
  match mnt.fstype with
  | .vzNsfs => strncmp (strchrnul mnt.root 91 + 1) mnt.root new.root = .eq
  | .cgroup => true
  | _ => strcmp mnt.root new.root = .eq

/-- One pass of the loop, before it goes on to the next mounts. A mountpoint of the new tree has a
dot in front. -/
def compareMount (mnt new : MountInfo) : Except Complaint Unit :=
  if strcmp mnt.nsMountpoint (new.nsMountpoint.drop 1) ≠ .eq then .error .mountpoint
  else if sameRoot mnt new = false then .error .root
  else if mnt.fstype = .nfs ∨ mnt.fstype = .nfs4 then .ok ()
  else if mnt.flags ≠ new.flags ∨ mnt.sbFlags ≠ new.sbFlags then .error .flags
  else .ok ()

section Check

def advance (loop : ι → κ → Option (Except Complaint Unit)) :
    Option ι × TreeStep → Option κ × TreeStep → Option (Except Complaint Unit)
  | (mnt, step), (new, newStep) =>
      if step ≠ newStep then some (.error .topology)
      else match mnt, new with
        | some mnt, some new => loop mnt new
        | _, _ => some (.ok ())

structure Mounts (ι : Type) where
  links : Links ι
  root : ι
  info : ι → MountInfo

variable [DecidableEq ι] [DecidableEq κ]

def compareLoop (old : Mounts ι) (new : Mounts κ) (n : ℕ) :
    ℕ → ι → κ → Option (Except Complaint Unit)
  | 0, _, _ => none
  | fuel + 1, mnt, newMnt =>
      match compareMount (old.info mnt) (new.info newMnt) with
      | .error e => some (.error e)
      | .ok _ =>
          match mntSubtreeStep old.links old.root n mnt,
            mntSubtreeStep new.links new.root n newMnt with
          | some next, some newNext => advance (compareLoop old new n fuel) next newNext
          | _, _ => none

def resort (m : Mounts ι) (fuel : ℕ) : Option (Mounts ι) :=
  (resortSiblings (byMountpoint m.info) m.root fuel fuel m.links m.root).map
    fun f => { m with links := f }

/-- `__check_mounts` from the sorting on. -/
def checkMounts (fuel : ℕ) (old : Mounts ι) (new : Mounts κ) :
    Option (Except Complaint Unit) := do
  let old ← resort old fuel
  let new ← resort new fuel
  compareLoop old new fuel fuel old.root new.root

end Check

/-! ### Where the walk goes on -/

section Leaving

def arrive : Option (ι × ℕ) → ℕ → Option ι × TreeStep
  | none, _ => (none, .stop)
  | some (y, j), climbs => (some y, .parent (climbs + j))

def lift (out : Option (ι × ℕ)) : Option (ι × ℕ) := out.map fun z => (z.1, z.2 + 1)

theorem arrive_lift (out : Option (ι × ℕ)) (climbs : ℕ) :
    arrive (lift out) climbs = arrive out (climbs + 1) := by
  cases out with
  | none => rfl
  | some z => simp only [lift, Option.map_some, arrive, Nat.add_assoc, Nat.add_comm 1]

def outOf (rest : Grove ι) (out : Option (ι × ℕ)) : Option (ι × ℕ) :=
  match rest with
  | .nil => lift out
  | .node y _ _ => some (y, 0)

variable [DecidableEq ι] {f : Links ι} {root : ι}

/-- Once the branch of the node is done, the walk goes on at `out`. -/
def Leaves (f : Links ι) (root : ι) (d : ℕ) (x : ι) (out : Option (ι × ℕ)) : Prop :=
  ∀ n, d ≤ n → ∀ climbs, climb f root n x climbs = some (arrive out climbs)

theorem leaves_root (f : Links ι) (root : ι) : Leaves f root 1 root none := by
  intro n hn climbs
  obtain ⟨n, rfl⟩ : ∃ k, n = k + 1 := ⟨n - 1, by omega⟩
  rw [climb]
  cases f.parent root with
  | none => rfl
  | some p => simp [arrive]

theorem following_split {pre l : List ι} (hn : (pre ++ x :: l).Nodup) :
    Links.following x (pre ++ x :: l) = l.head? := by
  have hi : (pre ++ x :: l)[pre.length]? = some x := by simp
  rw [Links.following_eq hn hi, getElem?_append_right (by omega)]
  simp [head?_eq_getElem?]

theorem Leaves.child (h : Leaves f root d p out) {pre : List ι} {rest : Grove ι}
    (hx : f.parent x = some p) (hne : x ≠ root) (hn : (f.children p).Nodup)
    (hc : f.children p = pre ++ x :: rest.roots) :
    Leaves f root (d + 1) x (outOf rest out) := by
  intro n hdn climbs
  obtain ⟨n, rfl⟩ : ∃ k, n = k + 1 := ⟨n - 1, by omega⟩
  rw [hc] at hn
  rw [climb]
  simp only [hx, hne, if_false, hc, following_split hn]
  cases rest with
  | nil =>
    simp only [Grove.roots, head?_nil, outOf]
    rw [h n (by omega), arrive_lift]
  | node y kids rest => simp [Grove.roots, outOf, arrive]

/-- The forest is what is left of the children of `p`, and the walk leaves the branch of `p` to
`out`. -/
structure Below (f : Links ι) (root : ι) (n : ℕ) (p : ι) (out : Option (ι × ℕ))
    (g : Grove ι) : Prop where
  hangs : g.Hangs f p
  suffix : g.roots <:+ f.children p
  nodup : (f.children p).Nodup
  leaves : ∃ d, Leaves f root d p out ∧ d + g.nodes.length ≤ n
  root : root ∉ g.nodes
  kids : ∀ z ∈ g.nodes, (f.children z).Nodup

variable {kids rest : Grove ι}

theorem Below.child (h : Below f root n p out (.node x kids rest)) :
    f.children x = kids.roots ∧ Below f root n x (outOf rest out) kids := by
  obtain ⟨hx, hc, hk, -⟩ := h.hangs
  obtain ⟨d, hleaves, hd⟩ := h.leaves
  obtain ⟨pre, hpre⟩ := h.suffix
  have hne : x ≠ root := fun he => h.root (he ▸ mem_cons_self)
  have hkids : ∀ z ∈ kids.nodes, z ∈ (Grove.node x kids rest).nodes := fun z hz =>
    mem_cons_of_mem _ (mem_append_left _ hz)
  simp only [Grove.nodes, length_cons, length_append] at hd
  refine ⟨hc, hk, hc ▸ suffix_rfl, h.kids x mem_cons_self,
    ⟨d + 1, hleaves.child hx hne h.nodup hpre.symm, by omega⟩, fun hin => h.root (hkids _ hin),
    fun z hz => h.kids z (hkids z hz)⟩

theorem Below.siblings (h : Below f root n p out (.node x kids rest)) :
    Below f root n p out rest := by
  obtain ⟨d, hleaves, hd⟩ := h.leaves
  have hrest : ∀ z ∈ rest.nodes, z ∈ (Grove.node x kids rest).nodes := fun z hz =>
    mem_cons_of_mem _ (mem_append_right _ hz)
  simp only [Grove.nodes, length_cons, length_append] at hd
  exact ⟨h.hangs.2.2.2, (suffix_cons x rest.roots).trans h.suffix, h.nodup,
    ⟨d, hleaves, by omega⟩, fun hin => h.root (hrest _ hin), fun z hz => h.kids z (hrest z hz)⟩

theorem Below.step_nil (h : Below f root n p out .nil) (hc : f.children p = Grove.roots .nil) :
    mntSubtreeStep f root n p = some (arrive out 0) := by
  obtain ⟨d, hleaves, hd⟩ := h.leaves
  rw [mntSubtreeStep, hc]
  exact hleaves n (by omega) 0

theorem mntSubtreeStep_cons {c : ι} {l : List ι} (n : ℕ) (hc : f.children x = c :: l) :
    mntSubtreeStep f root n x = some (some c, .child) := by
  rw [mntSubtreeStep, hc]

end Leaving

/-! ### Two walks side by side -/

section Compare

variable {out' : Option (κ × ℕ)}

section Advance

variable (loop : ι → κ → Option (Except Complaint Unit))

theorem advance_lift : advance loop (arrive (lift out) 0) (arrive (lift out') 0) =
    advance loop (arrive out 0) (arrive out' 0) := by
  cases out <;> cases out' <;> simp [lift, arrive, advance]

theorem advance_child_left (c : ι) :
    advance loop (some c, .child) (arrive out' 0) = some (.error .topology) := by
  cases out' <;> rfl

theorem advance_child_right (c : κ) :
    advance loop (arrive out 0) (some c, .child) = some (.error .topology) := by
  cases out <;> rfl

theorem advance_sibling_left (c : ι) :
    advance loop (arrive (some (c, 0)) 0) (arrive (lift out') 0) = some (.error .topology) := by
  cases out' <;> simp [lift, arrive, advance]

theorem advance_sibling_right (c : κ) :
    advance loop (arrive (lift out) 0) (arrive (some (c, 0)) 0) = some (.error .topology) := by
  cases out <;> simp [lift, arrive, advance]

end Advance

def Agree (old : Mounts ι) (new : Mounts κ) (x : ι) (y : κ) : Prop :=
  compareMount (old.info x) (new.info y) = .ok ()

/-- The loop goes on as `goOn` if the condition holds, and complains if not. -/
def Decides (cond : Prop) (result goOn : Option (Except Complaint Unit)) : Prop :=
  (cond → result = goOn) ∧ (¬ cond → ∃ e, result = some (.error e))

theorem Decides.of_not {cond : Prop} {result goOn : Option (Except Complaint Unit)}
    {e : Complaint} (hc : ¬ cond) (h : result = some (.error e)) : Decides cond result goOn :=
  ⟨fun h' => absurd h' hc, fun _ => ⟨e, h⟩⟩

variable [DecidableEq ι] [DecidableEq κ] {old : Mounts ι} {new : Mounts κ} {q y : κ}

theorem compareLoop_succ {fuel : ℕ} {a : Option ι × TreeStep} {b : Option κ × TreeStep}
    (hxy : Agree old new x y) (ha : mntSubtreeStep old.links old.root n x = some a)
    (hb : mntSubtreeStep new.links new.root n y = some b) :
    compareLoop old new n (fuel + 1) x y = advance (compareLoop old new n fuel) a b := by
  rw [compareLoop, hxy]
  simp only [ha, hb]

def ComparesGrove (old : Mounts ι) (new : Mounts κ) (n : ℕ) (g : Grove ι) : Prop :=
  ∀ ⦃g' : Grove κ⦄ ⦃p : ι⦄ ⦃q : κ⦄ ⦃out : Option (ι × ℕ)⦄ ⦃out' : Option (κ × ℕ)⦄ ⦃x : ι⦄ ⦃y : κ⦄,
    Below old.links old.root n p out g → Below new.links new.root n q out' g' →
    g.roots.head? = some x → g'.roots.head? = some y → ∀ fuel,
    Decides (g.Matches (Agree old new) g') (compareLoop old new n (g.nodes.length + fuel) x y)
      (advance (compareLoop old new n fuel) (arrive (lift out) 0) (arrive (lift out') 0))

/-- The branches of two nodes, once the forests of their children are known to be compared. -/
theorem compare_branch {k : Grove ι} {k' : Grove κ} (ih : ComparesGrove old new n k)
    (hx : old.links.children x = k.roots) (hy : new.links.children y = k'.roots)
    (hk : Below old.links old.root n x out k) (hk' : Below new.links new.root n y out' k')
    (fuel : ℕ) : Decides (Agree old new x y ∧ k.Matches (Agree old new) k')
      (compareLoop old new n (k.nodes.length + fuel + 1) x y)
      (advance (compareLoop old new n fuel) (arrive out 0) (arrive out' 0)) := by
  by_cases hxy : Agree old new x y
  swap
  · obtain ⟨e, he⟩ : ∃ e, compareMount (old.info x) (new.info y) = .error e := by
      cases hm : compareMount (old.info x) (new.info y) with
      | ok _ => exact absurd hm hxy
      | error e => exact ⟨e, rfl⟩
    refine .of_not (e := e) (fun h => hxy h.1) ?_
    rw [compareLoop, he]
  cases k with
  | nil =>
    cases k' with
    | nil =>
      refine ⟨fun _ => ?_, fun h => absurd ⟨hxy, trivial⟩ h⟩
      rw [compareLoop_succ hxy (hk.step_nil hx) (hk'.step_nil hy)]
      simp only [Grove.nodes, length_nil, Nat.zero_add]
    | node c' kids' rest' =>
      refine .of_not (e := .topology) (fun h => h.2) ?_
      rw [compareLoop_succ hxy (hk.step_nil hx) (mntSubtreeStep_cons n hy), advance_child_right]
  | node c kids rest =>
    cases k' with
    | nil =>
      refine .of_not (e := .topology) (fun h => h.2) ?_
      rw [compareLoop_succ hxy (mntSubtreeStep_cons n hx) (hk'.step_nil hy), advance_child_left]
    | node c' kids' rest' =>
      rw [compareLoop_succ hxy (mntSubtreeStep_cons n hx) (mntSubtreeStep_cons n hy),
        ← advance_lift]
      obtain ⟨hyes, hno⟩ := ih hk hk' rfl rfl fuel
      exact ⟨fun h => hyes h.2, fun h => hno fun h' => h ⟨hxy, h'⟩⟩

theorem compare_grove (g : Grove ι) : ComparesGrove old new n g := by
  induction g with
  | nil => intro g' p q out out' x y hg hg' hx hy fuel; cases hx
  | node x k r ihk ihr =>
    intro g' p q out out' x' y hg hg' hx hy fuel
    cases hx
    cases g' with
    | nil => cases hy
    | node y k' r' =>
      cases hy
      obtain ⟨hc, hbk⟩ := hg.child
      obtain ⟨hc', hbk'⟩ := hg'.child
      have hlen : (Grove.node x k r).nodes.length + fuel =
          k.nodes.length + (r.nodes.length + fuel) + 1 := by
        simp only [Grove.nodes, length_cons, length_append]
        omega
      rw [hlen]
      obtain ⟨hyes, hno⟩ := compare_branch ihk hc hc' hbk hbk' (r.nodes.length + fuel)
      by_cases hm : Agree old new x y ∧ k.Matches (Agree old new) k'
      swap
      · exact ⟨fun h => absurd ⟨h.1, h.2.1⟩ hm, fun _ => hno hm⟩
      rw [hyes hm]
      cases r with
      | nil =>
        cases r' with
        | nil =>
          refine ⟨fun _ => ?_, fun h => absurd ⟨hm.1, hm.2, trivial⟩ h⟩
          simp only [Grove.nodes, length_nil, Nat.zero_add, outOf]
        | node z kids' rest' =>
          exact .of_not (fun h => h.2.2) (advance_sibling_right _ z)
      | node z kids rest =>
        cases r' with
        | nil => exact .of_not (fun h => h.2.2) (advance_sibling_left _ z)
        | node z' kids' rest' =>
          obtain ⟨hyes', hno'⟩ := ihr hg.siblings hg'.siblings rfl rfl fuel
          exact ⟨fun h => hyes' h.2.2, fun h => hno' fun h' => h ⟨hm.1, hm.2, h'⟩⟩

end Compare

end Criu.MountTree

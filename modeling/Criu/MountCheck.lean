import Criu.MountTree

/-!
The check of the restored mounts says yes exactly for trees that correspond. Sorting while walking
leaves every list of children sorted, since the walk reads a list only after it was sorted; with
different mountpoints among siblings the order is the same in both trees, so that corresponding
mounts come at the same place of the two walks.
-/

namespace Criu.MountCheck

open Forest MountTree List

variable {ι κ : Type}
open Relation (ReflTransGen)

/-! ### The order of the children -/

theorem strcmp_eq (a b : List (Fin 256)) :
    strcmp a b = if a < b then .lt else if a = b then .eq else .gt := by
  induction a generalizing b with
  | nil => cases b <;> simp [strcmp]
  | cons x a ih =>
    cases b with
    | nil => simp [strcmp]
    | cons y b =>
      simp only [strcmp, ih, cons_lt_cons_iff]
      rcases lt_trichotomy x y with hlt | rfl | hgt
      · simp [hlt]
      · simp
      · simp [hgt, hgt.ne']

theorem strcmp_eq_lt {a b : List (Fin 256)} : strcmp a b = .lt ↔ a < b := by
  rw [strcmp_eq]
  split_ifs <;> simp [*]

theorem strcmp_eq_eq {a b : List (Fin 256)} : strcmp a b = .eq ↔ a = b := by
  rw [strcmp_eq]
  split_ifs with hlt
  · simp [hlt.ne]
  all_goals simp [*]

section Order

variable {K : Type} [LinearOrder K] (less : ι → ι → Bool) (key : ι → K)

/-- The order is the one of the keys. -/
def Ranks : Prop := ∀ p m, less p m = true ↔ key p < key m

def Sorted (l : List ι) : Prop := l.Pairwise (fun a b => key b ≤ key a)

theorem addSorted_perm (m : ι) (l : List ι) : (addSorted less m l).Perm (m :: l) := by
  induction l with
  | nil => exact List.Perm.refl [m]
  | cons p l ih =>
    rw [addSorted]
    split
    · exact List.Perm.refl _
    · exact (ih.cons p).trans (List.Perm.swap m p l)

theorem sortedChildren_concat (l : List ι) (m : ι) :
    sortedChildren less (l ++ [m]) = addSorted less m (sortedChildren less l) := foldl_append ..

theorem sortedChildren_perm (l : List ι) : (sortedChildren less l).Perm l := by
  induction l using reverseRecOn with
  | nil => exact List.Perm.refl _
  | append_singleton l m ih =>
    rw [sortedChildren_concat]
    exact (addSorted_perm less m _).trans ((ih.cons m).trans (perm_append_singleton m l).symm)

variable {less key} {l : List ι} {P : ι → ι → Prop} (hr : Ranks less key)
include hr

/-- Children with the same key keep their order. -/
theorem addSorted_pairwise (hP : ∀ a b, key b < key a → P a b) (m : ι) (h : Sorted key l) :
    (addSorted less m l).Pairwise P ↔ l.Pairwise P ∧ ∀ a ∈ l, key a = key m → P a m := by
  induction l with
  | nil => simp [addSorted]
  | cons p l ih =>
    obtain ⟨hp, hl⟩ := pairwise_cons.mp h
    rw [addSorted]
    split
    case isTrue hpm =>
      have hpm := (hr p m).mp hpm
      have hless : ∀ a ∈ p :: l, key a < key m := fun a ha =>
        (mem_cons.mp ha).elim (fun he => he ▸ hpm) fun ha => (hp a ha).trans_lt hpm
      rw [pairwise_cons, and_iff_right fun a ha => hP m a (hless a ha)]
      exact (and_iff_left fun a ha heq => absurd heq (hless a ha).ne).symm
    case isFalse hge =>
      have hge := not_lt.mp fun hpm => hge ((hr p m).mpr hpm)
      have hmem : (∀ b ∈ addSorted less m l, P p b) ↔ P p m ∧ ∀ b ∈ l, P p b := by
        simp only [(addSorted_perm less m l).mem_iff, forall_mem_cons]
      rw [pairwise_cons, ih hl, pairwise_cons, forall_mem_cons, hmem]
      constructor
      · exact fun ⟨⟨hpm, hp⟩, hpair, heq⟩ => ⟨⟨hp, hpair⟩, fun _ => hpm, heq⟩
      · rintro ⟨⟨hp, hpair⟩, hpm, heq⟩
        exact ⟨⟨hge.lt_or_eq.elim (hP p m) fun he => hpm he.symm, hp⟩, hpair, heq⟩

theorem sortedChildren_sorted (l : List ι) : Sorted key (sortedChildren less l) := by
  induction l using reverseRecOn with
  | nil => exact List.Pairwise.nil
  | append_singleton l m ih =>
    rw [sortedChildren_concat]
    exact (addSorted_pairwise hr (fun _ _ hlt => hlt.le) m ih).mpr ⟨ih, fun _ _ heq => heq.ge⟩

theorem sortedChildren_pairwise (hP : ∀ a b, key b < key a → P a b) :
    (sortedChildren less l).Pairwise P ↔ l.Pairwise fun a b => key a = key b → P a b := by
  induction l using reverseRecOn with
  | nil => exact iff_of_true List.Pairwise.nil List.Pairwise.nil
  | append_singleton l m ih =>
    rw [sortedChildren_concat, addSorted_pairwise hr hP m (sortedChildren_sorted hr l), ih,
      pairwise_append]
    simp [(sortedChildren_perm less l).mem_iff]

end Order

theorem byMountpoint_ranks (info : ι → MountInfo) :
    Ranks (byMountpoint info) fun m => (info m).nsMountpoint := by
  intro p m
  rw [byMountpoint, decide_eq_true_eq, strcmp_eq_lt]

/-! ### Sorting while walking -/

section Resort

variable [DecidableEq ι] (less : ι → ι → Bool) (f : Links ι)

def partly (done : List ι) : Links ι :=
  { f with children := fun x =>
      if x ∈ done then sortedChildren less (f.children x) else f.children x }

def fully : Links ι := { f with children := fun x => sortedChildren less (f.children x) }

theorem partly_children {done : List ι} {x : ι} (h : x ∈ done) :
    (partly less f done).children x = sortedChildren less (f.children x) := if_pos h

theorem resortChildren_partly {done : List ι} {x : ι} (h : x ∉ done) :
    resortChildren less (partly less f done) x = partly less f (x :: done) := by
  rw [resortChildren, partly]
  congr 1
  funext z
  by_cases hz : z = x
  · subst hz
    simp [h]
  · simp [hz]

theorem below_root {f : Links ι} {root : ι} {g : Grove ι} {n : ℕ} (h : f.Branch root)
    (hg : f.Crown root g) (hn : 1 + g.nodes.length ≤ n) : Below f root n root none g where
  hangs := hg.hangs
  suffix := hg.roots ▸ suffix_rfl
  nodup := h.nodup root ReflTransGen.refl
  leaves := ⟨1, leaves_root f root, hn⟩
  root := hg.root_not_mem
  kids z hz := h.nodup z (hg.within hz)

/-- The forest is below `p` once all lists are sorted; its own lists are not sorted yet, and those
of `p` and above are, so that the way up is the same. -/
structure Sorting (root : ι) (n : ℕ) (done : List ι) (p : ι) (out : Option (ι × ℕ))
    (g : Grove ι) : Prop where
  below : Below (fully less f) root n p out g
  here : p ∈ done
  same : ∀ later, done ⊆ later → ∀ n climbs,
    climb (partly less f later) root n p climbs = climb (fully less f) root n p climbs
  fresh : ∀ z ∈ g.nodes, z ∉ done
  once : g.nodes.Nodup

variable {less f} {root p x : ι} {n : ℕ} {done : List ι} {out : Option (ι × ℕ)}
  {kids rest : Grove ι}

theorem Sorting.child (h : Sorting less f root n done p out (.node x kids rest)) :
    sortedChildren less (f.children x) = kids.roots ∧
      Sorting less f root n (x :: done) x (outOf rest out) kids := by
  obtain ⟨hc, hk⟩ := h.below.child
  have honce := h.once
  rw [Grove.nodes, nodup_cons] at honce
  refine ⟨hc, hk, mem_cons_self, fun later hsub n climbs => ?_, fun z hz => ?_,
    honce.2.of_append_left⟩
  · obtain ⟨-, hdone⟩ := cons_subset.mp hsub
    have hx : f.parent x = some p := h.below.hangs.1
    have hchildren : (partly less f later).children p = (fully less f).children p :=
      partly_children less f (hdone h.here)
    cases n with
    | zero => rfl
    | succ n =>
      simp only [climb, show (partly less f later).parent x = some p from hx,
        show (fully less f).parent x = some p from hx, hchildren, h.same later hdone]
  · rw [mem_cons, not_or]
    exact ⟨fun he => honce.1 (mem_append_left _ (he ▸ hz)),
      h.fresh z (mem_cons_of_mem _ (mem_append_left _ hz))⟩

theorem Sorting.siblings (h : Sorting less f root n done p out (.node x kids rest)) :
    Sorting less f root n ((x :: kids.nodes).reverse ++ done) p out rest := by
  have honce := h.once
  rw [Grove.nodes, ← cons_append, nodup_append] at honce
  refine ⟨h.below.siblings, mem_append_right _ h.here,
    fun later hsub => h.same later (append_subset.mp hsub).2, fun z hz => ?_, honce.2.1⟩
  rw [mem_append, mem_reverse, not_or]
  exact ⟨fun hin => honce.2.2 z hin z hz rfl, h.fresh z (mem_cons_of_mem _ (mem_append_right _ hz))⟩

def goOn (less : ι → ι → Bool) (root : ι) (n fuel : ℕ) (f : Links ι) :
    Option (ι × ℕ) → Option (Links ι)
  | none => some f
  | some (y, _) => resortSiblings less root n fuel f y

def ResortsGrove (less : ι → ι → Bool) (f : Links ι) (root : ι) (n : ℕ) (g : Grove ι) : Prop :=
  ∀ ⦃done : List ι⦄ ⦃p : ι⦄ ⦃out : Option (ι × ℕ)⦄ ⦃x : ι⦄, Sorting less f root n done p out g →
    g.roots.head? = some x → ∀ fuel,
    resortSiblings less root n (g.nodes.length + fuel) (partly less f done) x =
      goOn less root n fuel (partly less f (g.nodes.reverse ++ done)) out

theorem resort_branch (ih : ResortsGrove less f root n kids) (hx : x ∉ done)
    (hc : sortedChildren less (f.children x) = kids.roots)
    (h : Sorting less f root n (x :: done) x out kids) (fuel : ℕ) :
    resortSiblings less root n (kids.nodes.length + fuel + 1) (partly less f done) x =
      goOn less root n fuel (partly less f ((x :: kids.nodes).reverse ++ done)) out := by
  have hchildren : (partly less f (x :: done)).children x = kids.roots :=
    (partly_children less f mem_cons_self).trans hc
  have hdone : (x :: kids.nodes).reverse ++ done = kids.nodes.reverse ++ (x :: done) := by simp
  rw [resortSiblings, resortChildren_partly less f hx, hdone]
  cases kids with
  | nil =>
    obtain ⟨d, hleaves, hd⟩ := h.below.leaves
    have hstep : mntSubtreeNext (partly less f (x :: done)) root n x =
        some (arrive out 0).1 := by
      rw [mntSubtreeNext, mntSubtreeStep, hchildren]
      simp only [Grove.roots]
      rw [h.same _ (List.Subset.refl _), hleaves n (by omega), Option.map_some]
    simp only [hstep]
    cases out <;> simp [arrive, goOn, Grove.nodes]
  | node c k r =>
    have hstep : mntSubtreeNext (partly less f (x :: done)) root n x = some (some c) := by
      rw [mntSubtreeNext, mntSubtreeStep_cons n hchildren, Option.map_some]
    simp only [hstep]
    exact ih h rfl fuel

theorem resort_grove (g : Grove ι) : ResortsGrove less f root n g := by
  induction g with
  | nil => intro done p out x h hx; cases hx
  | node x k r ihk ihr =>
    intro done p out x' h hx fuel
    cases hx
    obtain ⟨hc, hk⟩ := h.child
    have hfresh : x ∉ done := h.fresh x mem_cons_self
    have hlen : (Grove.node x k r).nodes.length + fuel =
        k.nodes.length + (r.nodes.length + fuel) + 1 := by
      simp only [Grove.nodes, length_cons, length_append]
      omega
    have hdone : (Grove.node x k r).nodes.reverse ++ done =
        r.nodes.reverse ++ ((x :: k.nodes).reverse ++ done) := by
      rw [Grove.nodes, ← cons_append, reverse_append, append_assoc]
    rw [hlen, resort_branch ihk hfresh hc hk (r.nodes.length + fuel), hdone]
    cases r with
    | nil => cases out <;> simp [outOf, lift, goOn, Grove.nodes]
    | node z kids rest =>
      exact ihr h.siblings rfl fuel

theorem partly_perm (done : List ι) (x : ι) :
    ((partly less f done).children x).Perm (f.children x) := by
  by_cases hx : x ∈ done
  · rw [partly_children less f hx]
    exact sortedChildren_perm less _
  · exact (if_neg hx : (partly less f done).children x = f.children x) ▸ List.Perm.refl _

theorem partly_nil : partly less f [] = f := rfl

/-- The loop sorts the children of every mount of the branch. -/
theorem resort_spec (less : ι → ι → Bool) (h : f.Branch root) :
    ∃ N done, (∀ x, f.Within x root → x ∈ done) ∧ ∀ fuel, N ≤ fuel →
      resortSiblings less root fuel fuel f root = some (partly less f done) := by
  have hfully : (fully less f).Branch root := h.perm rfl fun x => sortedChildren_perm _ _
  obtain ⟨g, hg⟩ := hfully.crown
  refine ⟨g.nodes.length + 1, (root :: g.nodes).reverse ++ [], fun x hx => ?_, fun fuel hfuel => ?_⟩
  · rw [append_nil, mem_reverse]
    exact (hg.mem x).mpr hx
  have hsorting : Sorting less f root fuel [root] root none g := by
    refine ⟨below_root hfully hg (by omega), mem_singleton_self _, fun later _ n climbs => ?_,
      fun z hz => ?_, (nodup_cons.mp hg.nodup).2⟩
    · cases n with
      | zero => rfl
      | succ n => rw [leaves_root _ _ _ (by omega), leaves_root _ _ _ (by omega)]
    · rw [mem_singleton]
      rintro rfl
      exact hg.root_not_mem hz
  obtain ⟨extra, hextra⟩ : ∃ k, fuel = g.nodes.length + k + 1 :=
    ⟨fuel - (g.nodes.length + 1), by omega⟩
  have hrun := resort_branch (resort_grove g) not_mem_nil hg.roots hsorting extra
  rw [← hextra, partly_nil] at hrun
  rw [hrun, goOn]

end Resort

/-! ### Corresponding trees -/

section Correspond

structure MountedTree (ι : Type) extends Mounts ι where
  branch : links.Branch root
  apart : ∀ p, links.Within p root → (links.children p).Pairwise
    (fun a b => (info a).nsMountpoint ≠ (info b).nsMountpoint)

/-- A tree read from mountinfo: every mountpoint starts with a dot. -/
structure ParsedTree (κ : Type) extends MountedTree κ where
  dotted : ∀ y, ∃ path, (info y).nsMountpoint = 46 :: path

/-- A bijection that keeps parents and along which the mounts agree. -/
structure Corresponds (old : Mounts ι) (new : Mounts κ) (φ : ι → κ) : Prop where
  bij : Set.BijOn φ {x | old.links.Within x old.root} {y | new.links.Within y new.root}
  parent : ∀ x a, old.links.Within x old.root → old.links.Within a old.root →
    (old.links.parent x = some a ↔ new.links.parent (φ x) = some (φ a))
  agree : ∀ x, old.links.Within x old.root → Agree old new x (φ x)

variable {old : Mounts ι} {new : Mounts κ} {g : Grove ι} {g' : Grove κ}

theorem corresponds_of_matches (hold : old.links.Branch old.root) (hnew : new.links.Branch new.root)
    (hg : old.links.Crown old.root g) (hg' : new.links.Crown new.root g')
    (hroot : Agree old new old.root new.root) (hm : g.Matches (Agree old new) g') :
    ∃ φ, Corresponds old new φ := by
  have hfst : (((old.root, new.root) :: g.pairs g').map Prod.fst) = old.root :: g.nodes := by
    rw [map_cons, hm.nodes_pairs.1]
  have hsnd : (((old.root, new.root) :: g.pairs g').map Prod.snd) = new.root :: g'.nodes := by
    rw [map_cons, hm.nodes_pairs.2]
  have : Nonempty κ := ⟨new.root⟩
  obtain ⟨φ, hφ, hbij⟩ := exists_bijOn_of_pairs (hfst ▸ hg.nodup) (hsnd ▸ hg'.nodup)
  simp only [hfst, hsnd, hg.mem, hg'.mem] at hbij
  -- a mount is the root, or its parent and its partner's parent are partners
  have hpair : ∀ x, old.links.Within x old.root → Agree old new x (φ x) ∧
      (x = old.root ∧ φ x = new.root ∨ ∃ a, old.links.Within a old.root ∧
        old.links.parent x = some a ∧ new.links.parent (φ x) = some (φ a)) := by
    intro x hx
    obtain ⟨z, hz, rfl⟩ := mem_map.mp (hfst ▸ (hg.mem x).mpr hx)
    have hin : ∀ a b, (a, b) ∈ (old.root, new.root) :: g.pairs g' →
        old.links.Within a old.root := fun a b hab =>
      (hg.mem a).mp (hfst ▸ mem_map_of_mem hab)
    rw [hφ z hz]
    rcases mem_cons.mp hz with rfl | hz'
    · exact ⟨hroot, .inl ⟨rfl, rfl⟩⟩
    · obtain ⟨hagree, a, b, hab, ha, hb⟩ := hm.pair hg.hangs hg'.hangs z hz'
      have hmem : (a, b) ∈ (old.root, new.root) :: g.pairs g' := mem_cons.mpr hab
      refine ⟨hagree, .inr ⟨a, hin a b hmem, ha, ?_⟩⟩
      rw [hφ (a, b) hmem]
      exact hb
  refine ⟨φ, hbij, fun x a hx ha => ?_, fun x hx => (hpair x hx).1⟩
  rcases (hpair x hx).2 with ⟨rfl, hx'⟩ | ⟨b, hb, hxb, hxb'⟩
  · constructor
    · intro hp
      exact absurd ha (hold.top a hp)
    · intro hp
      rw [hx'] at hp
      exact absurd (hbij.mapsTo ha) (hnew.top _ hp)
  · rw [hxb, hxb', Option.some.injEq, Option.some.injEq]
    exact ⟨fun h => h ▸ rfl, fun h => hbij.injOn hb ha h⟩

theorem Corresponds.root {φ : ι → κ} (h : Corresponds old new φ)
    (hnew : new.links.Branch new.root) : φ old.root = new.root := by
  have hroot : new.links.Within new.root new.root := ReflTransGen.refl
  obtain ⟨x, hx, hφ⟩ := h.bij.surjOn hroot
  rcases ReflTransGen.cases_head hx with rfl | ⟨p, hp, hpr⟩
  · exact hφ
  · have hup := (h.parent x p hx hpr).mp hp
    rw [hφ] at hup
    exact absurd (h.bij.mapsTo hpr) (hnew.top _ hup)

/-- The children of a mount's partner are its children's partners. -/
theorem Corresponds.children {φ : ι → κ} (h : Corresponds old new φ)
    (hold : old.links.Branch old.root) (hnew : new.links.Branch new.root) {x : ι}
    (hx : old.links.Within x old.root) :
    ((old.links.children x).map φ).Perm (new.links.children (φ x)) := by
  have hx' := h.bij.mapsTo hx
  have hin : ∀ c ∈ old.links.children x, old.links.Within c old.root := fun c hc =>
    ReflTransGen.head ((hold.agree x hx c).mp hc) hx
  rw [perm_ext_iff_of_nodup ((hold.nodup x hx).map_on fun a ha b hb hab =>
    h.bij.injOn (hin a ha) (hin b hb) hab) (hnew.nodup _ hx')]
  intro y
  rw [hnew.agree _ hx', mem_map]
  constructor
  · rintro ⟨c, hc, rfl⟩
    exact (h.parent c x (hin c hc) hx).mp ((hold.agree x hx c).mp hc)
  · intro hy
    have hyr : new.links.Within y new.root := ReflTransGen.head hy hx'
    obtain ⟨c, hc, rfl⟩ := h.bij.surjOn hyr
    exact ⟨c, (hold.agree x hx c).mpr ((h.parent c x hc hx).mpr hy), rfl⟩

theorem mountpoint_of_agree {x : ι} {y : κ} (h : Agree old new x y) :
    (new.info y).nsMountpoint.drop 1 = (old.info x).nsMountpoint := by
  rw [Agree, compareMount] at h
  split at h
  · cases h
  · rename_i hmp
    exact (strcmp_eq_eq.mp (not_not.mp hmp)).symm

/-- Sorted by mountpoint, the children of partners are in the same order. -/
theorem Corresponds.sorted {old : MountedTree ι} {new : ParsedTree κ} {φ : ι → κ}
    (h : Corresponds old.toMounts new.toMounts φ) {x : ι} (hx : old.links.Within x old.root) :
    sortedChildren (byMountpoint new.info) (new.links.children (φ x)) =
      (sortedChildren (byMountpoint old.info) (old.links.children x)).map φ := by
  have hkey : ∀ c ∈ old.links.children x,
      (new.info (φ c)).nsMountpoint = 46 :: (old.info c).nsMountpoint := by
    intro c hc
    have hagree := h.agree c (ReflTransGen.head ((old.branch.agree x hx c).mp hc) hx)
    obtain ⟨path, hpath⟩ := new.dotted (φ c)
    rw [← mountpoint_of_agree hagree, hpath, drop_one, tail_cons]
  have hperm : (sortedChildren (byMountpoint new.info) (new.links.children (φ x))).Perm
      ((sortedChildren (byMountpoint old.info) (old.links.children x)).map φ) :=
    (sortedChildren_perm _ _).trans ((h.children old.branch new.branch hx).symm.trans
      ((sortedChildren_perm _ _).map φ).symm)
  refine List.Perm.eq_of_pairwise (fun a b ha hb hab hba => ?_)
    (sortedChildren_sorted (byMountpoint_ranks new.info) _) ?_ hperm
  · have hnd : ((new.links.children (φ x)).map fun c => (new.info c).nsMountpoint).Nodup :=
      pairwise_map.mpr (new.apart (φ x) (h.bij.mapsTo hx))
    exact inj_on_of_nodup_map hnd ((sortedChildren_perm _ _).subset ha)
      ((sortedChildren_perm _ _).subset (hperm.symm.subset hb)) (le_antisymm hba hab)
  rw [pairwise_map]
  refine (sortedChildren_sorted (byMountpoint_ranks old.info) _).imp_of_mem
    fun {a b} ha hb hab => ?_
  dsimp only
  rw [hkey a ((sortedChildren_perm _ _).subset ha),
    hkey b ((sortedChildren_perm _ _).subset hb), ← not_lt, cons_lt_cons_iff]
  rintro (hlt | ⟨-, hlt⟩)
  · exact lt_irrefl _ hlt
  · exact absurd hlt (not_lt.mpr hab)

end Correspond

section Check

variable [DecidableEq ι] [DecidableEq κ]

/-- The comparison loop tells whether the trees have the same shape with agreeing mounts. -/
theorem compareLoop_root {old : Mounts ι} {new : Mounts κ} {g : Grove ι} {g' : Grove κ}
    (hold : old.links.Branch old.root) (hnew : new.links.Branch new.root)
    (hg : old.links.Crown old.root g) (hg' : new.links.Crown new.root g') {fuel : ℕ}
    (hfuel : 1 + g.nodes.length ≤ fuel) (hfuel' : 1 + g'.nodes.length ≤ fuel) :
    Decides (Agree old new old.root new.root ∧ g.Matches (Agree old new) g')
      (compareLoop old new fuel fuel old.root new.root) (some (.ok ())) := by
  obtain ⟨extra, hextra⟩ : ∃ k, fuel = g.nodes.length + k + 1 :=
    ⟨fuel - (g.nodes.length + 1), by omega⟩
  have h := compare_branch (compare_grove g) hg.roots hg'.roots (below_root hold hg hfuel)
    (below_root hnew hg' hfuel') extra
  rw [← hextra] at h
  exact h

/-- With enough passes the check ends, and it returns 0 exactly if there is a bijection between the
two trees that keeps parents and along which mountpoints, roots and flags agree. -/
theorem check_mounts_exact (old : MountedTree ι) (new : ParsedTree κ) :
    ∃ N, ∀ fuel, N ≤ fuel → ∃ result,
      checkMounts fuel old.toMounts new.toMounts = some result ∧
      (result = .ok () ↔ ∃ φ, Corresponds old.toMounts new.toMounts φ) := by
  obtain ⟨N₁, done, hdone, hresort⟩ := resort_spec (byMountpoint old.info) old.branch
  obtain ⟨N₂, done', hdone', hresort'⟩ := resort_spec (byMountpoint new.info) new.branch
  let sold : Mounts ι :=
    { old.toMounts with links := partly (byMountpoint old.info) old.links done }
  let snew : Mounts κ :=
    { new.toMounts with links := partly (byMountpoint new.info) new.links done' }
  have hold : sold.links.Branch sold.root := old.branch.perm rfl (partly_perm done)
  have hnew : snew.links.Branch snew.root := new.branch.perm rfl (partly_perm done')
  obtain ⟨g, hg⟩ := hold.crown
  obtain ⟨g', hg'⟩ := hnew.crown
  have hiff : (Agree sold snew sold.root snew.root ∧ g.Matches (Agree sold snew) g') ↔
      ∃ φ, Corresponds old.toMounts new.toMounts φ := by
    constructor
    · rintro ⟨hroot, hm⟩
      obtain ⟨φ, hφ⟩ := corresponds_of_matches hold hnew hg hg' hroot hm
      exact ⟨φ, hφ.bij, hφ.parent, hφ.agree⟩
    rintro ⟨φ, hφ⟩
    have hroot := hφ.root new.branch
    have hself : old.links.Within old.root old.root := ReflTransGen.refl
    -- both lists of children were sorted
    have hkids : ∀ x, old.links.Within x old.root →
        snew.links.children (φ x) = (sold.links.children x).map φ := fun x hx => by
      rw [partly_children _ _ (hdone x hx), partly_children _ _ (hdone' _ (hφ.bij.mapsTo hx))]
      exact hφ.sorted hx
    refine ⟨hroot ▸ hφ.agree old.root hself, Grove.matches_of_map hg.hangs hg'.hangs ?_
      fun x hx => ⟨hφ.agree x (hg.within hx), hkids x (hg.within hx)⟩⟩
    have hr := hkids old.root hself
    rw [hroot] at hr
    rw [← hg.roots, ← hg'.roots]
    exact hr
  refine ⟨max (max N₁ N₂) (1 + g.nodes.length + g'.nodes.length), fun fuel hfuel => ?_⟩
  have hcheck : checkMounts fuel old.toMounts new.toMounts =
      compareLoop sold snew fuel fuel sold.root snew.root := by
    rw [checkMounts, resort, resort, hresort fuel (by omega), hresort' fuel (by omega)]
    rfl
  obtain ⟨hyes, hno⟩ := compareLoop_root hold hnew hg hg'
    (show 1 + g.nodes.length ≤ fuel by omega) (by omega)
  rw [hcheck, ← hiff]
  by_cases hm : Agree sold snew sold.root snew.root ∧ g.Matches (Agree sold snew) g'
  · exact ⟨.ok (), hyes hm, iff_of_true rfl hm⟩
  · obtain ⟨e, he⟩ := hno hm
    exact ⟨.error e, he, iff_of_false nofun hm⟩

def onRoot (mounts : List (Option Bool)) : Links (Option Bool) where
  parent x := if x = none then none else some none
  children p := if p = none then mounts else []

/-- A root mount with `/a` and `/b` on it. -/
def mounted : MountedTree (Option Bool) where
  links := onRoot [some false, some true]
  root := none
  info x := ⟨if x = none then [47] else [47, if x = some false then 97 else 98], [47],
    .other 0, 0, 0⟩
  branch := ⟨Set.toFinite _, fun p h => by clear h; revert p; decide,
    fun p h => by clear h; revert p; decide, nofun⟩
  apart p h := by clear h; revert p; decide

/-- The same mounts, read in the other order. -/
def parsed : ParsedTree (Option Bool) where
  links := onRoot [some true, some false]
  root := none
  info x := { mounted.info x with nsMountpoint := 46 :: (mounted.info x).nsMountpoint }
  branch := ⟨Set.toFinite _, fun p h => by clear h; revert p; decide,
    fun p h => by clear h; revert p; decide, nofun⟩
  apart p h := by clear h; revert p; decide
  dotted _ := ⟨_, rfl⟩

theorem swapped_mounts_pass : ∃ N, ∀ fuel, N ≤ fuel →
    checkMounts fuel mounted.toMounts parsed.toMounts = some (.ok ()) := by
  obtain ⟨N, hall⟩ := check_mounts_exact mounted parsed
  refine ⟨N, fun fuel hfuel => ?_⟩
  obtain ⟨result, hrun, hexact⟩ := hall fuel hfuel
  have hagree : ∀ x, Agree mounted.toMounts parsed.toMounts x x := by
    unfold Agree
    decide
  rw [hrun, hexact.mpr ⟨id, Set.bijOn_id _, fun _ _ _ _ => Iff.rfl, fun x _ => hagree x⟩]

end Check

end Criu.MountCheck

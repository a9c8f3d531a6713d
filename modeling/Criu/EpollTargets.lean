import Mathlib.Data.Prod.Lex
import Mathlib.Data.List.Perm.Basic
import Criu.FdDistribution
import Criu.Lib.RbTree

/-!
The targets of eventpoll files at restore (criu/eventpoll.c). A target that is a descriptor of
another task is taken out of the list of its file before the tasks start, and put into a tree by
its pid and number, where that task finds it when it opens the descriptor. A second entry for the
same descriptor finds the tree's place taken and stays in its list.
-/

namespace Criu.EpollTargets

open FdDistribution RbTree List Function

variable {pid : ℕ} {ε δ : Type}

/-- `EventpollTfdEntry`; the pid is there for targets of other tasks. -/
structure TfdEntry where
  tfd : ℕ
  pid : Option ℕ
  events : ℕ
  data : ℕ
deriving DecidableEq, Repr

structure Target (δ : Type) where
  pid : ℕ
  tfd : ℕ
  info : δ
  tfde : TfdEntry
deriving DecidableEq, Repr

def targetKey (pid tfd : ℕ) : ℕ ×ₗ ℕ :=
  toLex (tfd, pid)

def Target.key (t : Target δ) : ℕ ×ₗ ℕ :=
  targetKey t.pid t.tfd

/-- The files of an image: the entries of the tasks, which are named by their pids, the eventpoll
files in the order they were collected, and their targets. A target of another task is one of its
descriptors. -/
structure Image (ε δ : Type) where
  layout : Layout ℕ ε δ
  epolls : List δ
  epolls_nodup : epolls.Nodup
  tfd : δ → List TfdEntry
  target_open : ∀ d ∈ epolls, ∀ e ∈ tfd d, ∀ pid ∈ e.pid,
    ∃ f, layout.task f = pid ∧ layout.fd f = e.tfd

def Image.home (I : Image ε δ) (d : δ) : ℕ :=
  I.layout.task (I.layout.master d)

def Image.foreign (I : Image ε δ) (d : δ) (e : TfdEntry) : Option ℕ :=
  e.pid.filter (fun pid => pid ≠ I.home d)

/-- What `prep_epoll_targets_cb` works on. `own` is the array `efe->tfd` with null for the targets
that were taken out, and `needed` is `fdstore_needed`. -/
structure Prep (δ : Type) where
  tree : Rb (Target δ)
  own : δ → List (Option TfdEntry)
  needed : δ → Bool

/-- `epoll_lookup_target`, with the place for a new node. -/
def lookupDescent (tree : Rb (Target δ)) (pid tfd : ℕ) : Descent (Target δ) :=
  descend (fun t => some (compare (targetKey pid tfd) t.key)) tree []

def epollLookupTarget (tree : Rb (Target δ)) (pid tfd : ℕ) : Option (Target δ) :=
  match lookupDescent tree pid tfd with
  | .found _ _ _ t _ => some t
  | _ => none

section Prepare

variable [DecidableEq δ] (I : Image ε δ)

def Prep.need (p : Prep δ) (d : δ) : Prep δ :=
  { p with needed := update p.needed d true }

def prepEntry (d : δ) (p : Prep δ) (e : TfdEntry) : Option (Prep δ × Option TfdEntry) :=
  match I.foreign d e with
  | none => some (p, some e)
  | some pid =>
      match lookupDescent p.tree pid e.tfd with
      | .missing path =>
          (linkAndBalance ⟨pid, e.tfd, d, e⟩ path).map fun tree =>
            ({ p with tree := tree }.need d, none)
      | _ => some (p.need d, some e)

def prepEntries (d : δ) (p : Prep δ) : List TfdEntry → Option (Prep δ × List (Option TfdEntry))
  | [] => some (p, [])
  | e :: es =>
      (prepEntry I d p e).bind fun r =>
        (prepEntries d r.1 es).map fun r' => (r'.1, r.2 :: r'.2)

def prepFile (p : Prep δ) (d : δ) : Option (Prep δ) :=
  (prepEntries I d p (I.tfd d)).map fun r => { r.1 with own := update r.1.own d r.2 }

/-- `prep_epoll_targets_cb`; allocations do not fail. -/
def prepEpollTargets : Option (Prep δ) :=
  I.epolls.foldlM (prepFile I) ⟨.nil, fun d => (I.tfd d).map some, fun _ => false⟩

end Prepare

section Tree

variable {tree : Rb (Target δ)} {t : Target δ} {tfd : ℕ}

theorem targetKey_inj {pid' tfd' : ℕ} :
    targetKey pid tfd = targetKey pid' tfd' ↔ pid = pid' ∧ tfd = tfd' := by
  rw [targetKey, targetKey, EmbeddingLike.apply_eq_iff_eq, Prod.mk.injEq, and_comm]

structure Ordered (tree : Rb (Target δ)) : Prop where
  ascending : tree.toList.Pairwise (fun a b => a.key < b.key)
  black : tree.isRed = false

/-- A lookup ends at the target with the key, or at the place where it would be. -/
theorem Ordered.lookupDescent (h : Ordered tree) (pid tfd : ℕ) :
    (∃ path c l t r, lookupDescent tree pid tfd = .found path c l t r ∧
      plug (.node c l t r) path = tree ∧ t ∈ tree.toList ∧ t.key = targetKey pid tfd) ∨
    (∃ path, lookupDescent tree pid tfd = .missing path ∧
      Place Target.key (targetKey pid tfd) tree path) :=
  descend_ascending h.ascending fun _ _ => rfl

theorem Ordered.keys_nodup (h : Ordered tree) : (tree.toList.map Target.key).Nodup := by
  rw [List.Nodup, pairwise_map]
  exact h.ascending.imp fun hlt => hlt.ne

theorem Ordered.lookup_eq_some_iff (h : Ordered tree) :
    epollLookupTarget tree pid tfd = some t ↔ t ∈ tree.toList ∧ t.key = targetKey pid tfd := by
  unfold epollLookupTarget
  rcases h.lookupDescent pid tfd with
    ⟨path, c, l, t', r, hd, -, hmem, hkey⟩ | ⟨path, hd, hplace⟩
  · rw [hd]
    constructor
    · rintro ⟨rfl⟩
      exact ⟨hmem, hkey⟩
    · rintro ⟨ht, hk⟩
      rw [inj_on_of_nodup_map h.keys_nodup hmem ht (hkey.trans hk.symm)]
  rw [hd]
  refine iff_of_false nofun ?_
  exact fun ht => hplace.ne ht.1 ht.2

theorem Ordered.insert (h : Ordered tree) (t : Target δ) (hnew : ∀ u ∈ tree.toList, u.key ≠ t.key) :
    ∃ path tree', EpollTargets.lookupDescent tree t.pid t.tfd = .missing path ∧
      linkAndBalance t path = some tree' ∧ Ordered tree' ∧
      tree'.toList.Perm (t :: tree.toList) := by
  rcases h.lookupDescent t.pid t.tfd with
    ⟨path, c, l, t', r, hd, -, hmem, hkey⟩ | ⟨path, hd, hplace⟩
  · exact absurd hkey (hnew t' hmem)
  obtain ⟨tree', hlink, hlist, hblack, hsorted⟩ :=
    linkAndBalance_spec t hplace h.black h.ascending
  refine ⟨path, tree', hd, hlink, ⟨hsorted, hblack⟩, ?_⟩
  rw [hlist, hplace.toList]
  exact perm_middle

end Tree

section PrepareSpec

variable (I : Image ε δ)

def Image.targetsOf (d : δ) (es : List TfdEntry) : List (Target δ) :=
  es.filterMap fun e => (I.foreign d e).map fun pid => ⟨pid, e.tfd, d, e⟩

def Image.targets : List (Target δ) :=
  I.epolls.flatMap fun d => I.targetsOf d (I.tfd d)

def Image.slots (d : δ) (es : List TfdEntry) : List (Option TfdEntry) :=
  es.map fun e => if (I.foreign d e).isSome then none else some e

variable {I}

section Cons

variable {d : δ} {e : TfdEntry} (es : List TfdEntry)

theorem targetsOf_cons_none (h : I.foreign d e = none) :
    I.targetsOf d (e :: es) = I.targetsOf d es := by
  rw [Image.targetsOf, filterMap_cons, h]
  rfl

theorem targetsOf_cons_some (h : I.foreign d e = some pid) :
    I.targetsOf d (e :: es) = ⟨pid, e.tfd, d, e⟩ :: I.targetsOf d es := by
  rw [Image.targetsOf, filterMap_cons, h]
  rfl

theorem slots_cons_none (h : I.foreign d e = none) :
    I.slots d (e :: es) = some e :: I.slots d es := by
  rw [Image.slots, map_cons, h]
  rfl

theorem slots_cons_some (h : I.foreign d e = some pid) :
    I.slots d (e :: es) = none :: I.slots d es := by
  rw [Image.slots, map_cons, h]
  rfl

end Cons

variable [DecidableEq δ]

theorem prepEntries_spec (d : δ) (es : List TfdEntry) (p : Prep δ) (ht : Ordered p.tree)
    (hn : ((p.tree.toList ++ I.targetsOf d es).map Target.key).Nodup) :
    ∃ p', prepEntries I d p es = some (p', I.slots d es) ∧ Ordered p'.tree ∧
      p'.tree.toList.Perm (p.tree.toList ++ I.targetsOf d es) ∧ p'.own = p.own ∧
      (∀ d', p.needed d' = true → p'.needed d' = true) ∧
      ((∃ e ∈ es, (I.foreign d e).isSome) → p'.needed d = true) := by
  induction es generalizing p with
  | nil =>
    refine ⟨p, rfl, ht, ?_, rfl, fun _ h => h, fun h => ?_⟩
    · rw [Image.targetsOf, filterMap_nil, append_nil]
    · obtain ⟨e, he, _⟩ := h
      exact absurd he not_mem_nil
  | cons e es ih =>
    cases hf : I.foreign d e with
    | none =>
      rw [targetsOf_cons_none es hf] at hn ⊢
      obtain ⟨p', hp', h1, h2, h3, h4, h5⟩ := ih p ht hn
      refine ⟨p', ?_, h1, h2, h3, h4, fun hex => h5 ?_⟩
      · rw [prepEntries, prepEntry, hf, slots_cons_none es hf]
        simp only [Option.bind_some, hp', Option.map_some]
      · exact (or_exists_of_exists_mem_cons hex).resolve_left (by simp [hf])
    | some pid =>
      rw [targetsOf_cons_some es hf] at hn ⊢
      have hnew : ∀ u ∈ p.tree.toList, u.key ≠ (⟨pid, e.tfd, d, e⟩ : Target δ).key := by
        intro u hu hk
        rw [map_append, nodup_append] at hn
        exact hn.2.2 _ (mem_map_of_mem hu) _ (mem_map_of_mem mem_cons_self) hk
      obtain ⟨path, tree', hd, hlink, hord, hperm⟩ := ht.insert _ hnew
      obtain ⟨p', hp', h1, h2, h3, h4, h5⟩ := ih ({ p with tree := tree' }.need d) hord (by
        refine (List.Perm.nodup_iff ?_).mp hn
        refine (perm_middle.trans ?_).map _
        exact hperm.symm.append_right _)
      refine ⟨p', ?_, h1, ?_, h3, fun d' hd' => h4 d' ?_, fun _ => h4 d ?_⟩
      · rw [prepEntries, prepEntry, hf, slots_cons_some es hf]
        simp only [hd, hlink, Option.map_some, Option.bind_some, hp']
      · exact h2.trans ((hperm.append_right _).trans perm_middle.symm)
      · change update p.needed d true d' = true
        rw [update_apply, hd', ite_self]
      · exact update_self ..

/-- The tree and the arrays when every foreign target has its own place in the tree. -/
structure Prepared (I : Image ε δ) (p : Prep δ) : Prop where
  ordered : Ordered p.tree
  tree : p.tree.toList.Perm I.targets
  own : ∀ d ∈ I.epolls, p.own d = I.slots d (I.tfd d)
  needed : ∀ d ∈ I.epolls, (∃ e ∈ I.tfd d, (I.foreign d e).isSome) → p.needed d = true

theorem prepFiles_spec (ds : List δ) (p : Prep δ) (hds : ds.Nodup) (ht : Ordered p.tree)
    (hn : ((p.tree.toList ++ ds.flatMap fun d => I.targetsOf d (I.tfd d)).map Target.key).Nodup) :
    ∃ p', ds.foldlM (prepFile I) p = some p' ∧ Ordered p'.tree ∧
      p'.tree.toList.Perm (p.tree.toList ++ ds.flatMap fun d => I.targetsOf d (I.tfd d)) ∧
      (∀ d ∉ ds, p'.own d = p.own d) ∧ (∀ d ∈ ds, p'.own d = I.slots d (I.tfd d)) ∧
      (∀ d, p.needed d = true → p'.needed d = true) ∧
      ∀ d ∈ ds, (∃ e ∈ I.tfd d, (I.foreign d e).isSome) → p'.needed d = true := by
  induction ds generalizing p with
  | nil =>
    refine ⟨p, rfl, ht, ?_, fun _ _ => rfl, nofun,
      fun _ h => h, nofun⟩
    rw [flatMap_nil, append_nil]
  | cons d ds ih =>
    obtain ⟨hd, hds⟩ := nodup_cons.mp hds
    rw [flatMap_cons, ← append_assoc] at hn ⊢
    have hhead : ((p.tree.toList ++ I.targetsOf d (I.tfd d)).map Target.key).Nodup := by
      rw [map_append] at hn
      exact (nodup_append.mp hn).1
    obtain ⟨p1, hp1, h1, h2, h3, h4, h5⟩ := prepEntries_spec d (I.tfd d) p ht hhead
    obtain ⟨p', hp', g1, g2, g3, g4, g5, g6⟩ :=
      ih { p1 with own := update p1.own d (I.slots d (I.tfd d)) } hds h1
        ((List.Perm.nodup_iff ((h2.append_right _).map _)).mpr hn)
    refine ⟨p', ?_, g1, g2.trans (h2.append_right _), fun x hx => ?_, fun x hx => ?_,
      fun x hx => g5 x (h4 x hx), fun x hx hex => ?_⟩
    · rw [foldlM_cons, prepFile, hp1]
      exact hp'
    · rw [mem_cons, not_or] at hx
      exact (g3 x hx.2).trans ((update_of_ne hx.1 ..).trans (congrFun h3 x))
    · rcases mem_cons.mp hx with rfl | hx
      · exact (g3 x hd).trans (update_self ..)
      · exact g4 x hx
    · rcases mem_cons.mp hx with rfl | hx
      · exact g5 x (h5 hex)
      · exact g6 x hx hex

/-- With distinct foreign targets, each gets its place in the tree and leaves its array. -/
theorem prepEpollTargets_spec (hn : (I.targets.map Target.key).Nodup) :
    ∃ p, prepEpollTargets I = some p ∧ Prepared I p := by
  obtain ⟨p, hp, h1, h2, _, h4, _, h6⟩ := prepFiles_spec I.epolls
    ⟨.nil, fun d => (I.tfd d).map some, fun _ => false⟩ I.epolls_nodup ⟨.nil, rfl⟩ hn
  exact ⟨p, hp, h1, h2, h4, h6⟩

end PrepareSpec

end Criu.EpollTargets

import Criu.Lib.Ancestry
import Mathlib.Data.List.Induction

/-!
The order of the entries of a file (criu/files.c). A new entry goes behind the last one of an
ancestor or of the same task, so that the first entry, the master, is never below another one.
-/

namespace Criu.FdOwners

open List Ancestry

/-- The process tree, with the items that have a pid in the root pid namespace. -/
structure Tasks (ι : Type) extends Ancestry ι where
  itemByVirt : ℕ → Option ι
  virt_inj : ∀ {a b x}, itemByVirt a = some x → itemByVirt b = some x → a = b

variable {ι ε : Type} (T : Tasks ι)

def Above (a b : ℕ) : Prop :=
  ∃ x y, T.itemByVirt a = some x ∧ T.itemByVirt b = some y ∧ x ≠ y ∧ x ∈ T.chain y

variable {T} {a b c : ℕ}

theorem Above.trans (h : Above T a b) (h' : Above T b c) : Above T a c := by
  obtain ⟨x, y, hx, hy, hne, hxy⟩ := h
  obtain ⟨y', z, hy', hz, -, hyz⟩ := h'
  cases hy.symm.trans hy'
  refine ⟨x, z, hx, hz, fun he => hne ?_, chain_subset hyz hxy⟩
  subst he
  exact chain_unique (Nat.le_antisymm (level_chain hxy) (level_chain hyz)) hxy (mem_chain_self y)

theorem not_above_self (a : ℕ) : ¬ Above T a a := by
  rintro ⟨x, y, hx, hy, hne, -⟩
  exact hne (Option.some.inj (hx.symm.trans hy))

variable [DecidableEq ι] (T)

def pstreePidCmp (a b : ℕ) : ℤ :=
  if a = b then 0
  else match T.itemByVirt a, T.itemByVirt b with
    | some x, some y =>
        if x ∈ T.chain y then 1
        else if y ∈ T.chain x then 2
        else 3
    | _, _ => -1

/-- `__collect_desc_fle`, with the list written from its end on. -/
def collectDescFle (pid : ε → ℕ) (list : List ε) (new : ε) : List ε :=
  match list with
  | [] => [new]
  | le :: rest =>
      let ret := pstreePidCmp T (pid le) (pid new)
      if ret < 0 then
        if pid le ≤ pid new then new :: le :: rest else le :: collectDescFle pid rest new
      else if ret = 0 ∨ ret = 1 then new :: le :: rest
      else le :: collectDescFle pid rest new

/-- `fd_info_head` after calls of `collect_fd_to` for the entries. -/
def fdInfoHead (pid : ε → ℕ) (news : List ε) : List ε :=
  (news.foldl (collectDescFle T pid) []).reverse

variable {T} {pid : ε → ℕ} {list : List ε} {e new : ε}

theorem pstreePidCmp_spec (ha : (T.itemByVirt a).isSome) (hb : (T.itemByVirt b).isSome) :
    0 ≤ pstreePidCmp T a b ∧
      (pstreePidCmp T a b = 0 ∨ pstreePidCmp T a b = 1 ↔ a = b ∨ Above T a b) := by
  obtain ⟨x, hx⟩ := Option.isSome_iff_exists.mp ha
  obtain ⟨y, hy⟩ := Option.isSome_iff_exists.mp hb
  unfold pstreePidCmp
  by_cases hab : a = b
  · simp [hab]
  have hne : x ≠ y := fun he => hab (T.virt_inj hx (he ▸ hy))
  have habove : Above T a b ↔ x ∈ T.chain y := by
    refine ⟨fun ⟨x', y', hx', hy', _, h⟩ => ?_, fun h => ⟨x, y, hx, hy, hne, h⟩⟩
    cases hx.symm.trans hx'
    cases hy.symm.trans hy'
    exact h
  rw [habove, hx, hy, or_iff_right hab]
  dsimp only
  split_ifs with h1 h2 <;> simp [h1]

/-- The new entry goes behind an entry of its task or of an ancestor, and past all others. -/
theorem collectDescFle_cons {le : ε} (rest : List ε) (hle : (T.itemByVirt (pid le)).isSome)
    (hnew : (T.itemByVirt (pid new)).isSome) :
    (pid le = pid new ∨ Above T (pid le) (pid new)) ∧
        collectDescFle T pid (le :: rest) new = new :: le :: rest ∨
      ¬ Above T (pid le) (pid new) ∧
        collectDescFle T pid (le :: rest) new = le :: collectDescFle T pid rest new := by
  obtain ⟨hpos, hspec⟩ := pstreePidCmp_spec hle hnew
  rw [collectDescFle, if_neg (Int.not_lt.mpr hpos)]
  split_ifs with h
  · exact .inl ⟨hspec.mp h, rfl⟩
  · exact .inr ⟨fun habove => h (hspec.mpr (.inr habove)), rfl⟩

/-- From the end of the list on, no entry is above one before it. -/
theorem collectDescFle_keeps (hlist : ∀ e ∈ list, (T.itemByVirt (pid e)).isSome)
    (hnew : (T.itemByVirt (pid new)).isSome)
    (h : list.Pairwise fun e e' => ¬ Above T (pid e) (pid e')) :
    (∀ e, e ∈ collectDescFle T pid list new ↔ e = new ∨ e ∈ list) ∧
      (collectDescFle T pid list new).Pairwise fun e e' => ¬ Above T (pid e) (pid e') := by
  induction list with
  | nil => exact ⟨fun e => by simp [collectDescFle], pairwise_singleton _ _⟩
  | cons le rest ih =>
    obtain ⟨hle, hrest⟩ := forall_mem_cons.mp hlist
    obtain ⟨hlast, hpair⟩ := pairwise_cons.mp h
    rcases collectDescFle_cons rest hle hnew with ⟨hstop, heq⟩ | ⟨hpass, heq⟩
    · rw [heq]
      have habove : ∀ {b}, Above T (pid new) b → Above T (pid le) b := fun hb =>
        hstop.elim (fun hsame => hsame ▸ hb) fun hle => hle.trans hb
      exact ⟨fun e => mem_cons, pairwise_cons.mpr ⟨forall_mem_cons.mpr
        ⟨fun habv => not_above_self _ (habove habv), fun e he habv => hlast e he (habove habv)⟩, h⟩⟩
    · obtain ⟨hmem, hsorted⟩ := ih hrest hpair
      rw [heq]
      refine ⟨fun e => ?_, pairwise_cons.mpr ⟨fun e he => ?_, hsorted⟩⟩
      · rw [mem_cons, hmem, mem_cons, or_left_comm]
      · rcases (hmem e).mp he with rfl | he
        · exact hpass
        · exact hlast e he

/-- An entry of a task comes before all entries of its descendants. -/
theorem owners_in_order {T : Tasks ι} {pid : ε → ℕ} {news : List ε}
    (h : ∀ e ∈ news, (T.itemByVirt (pid e)).isSome) :
    (∀ e, e ∈ fdInfoHead T pid news ↔ e ∈ news) ∧
      (fdInfoHead T pid news).Pairwise (fun e e' => ¬ Above T (pid e') (pid e)) ∧
      ∀ master ∈ (fdInfoHead T pid news).head?, ∀ e ∈ news, ¬ Above T (pid e) (pid master) := by
  have key : (∀ e, e ∈ news.foldl (collectDescFle T pid) [] ↔ e ∈ news) ∧
      (news.foldl (collectDescFle T pid) []).Pairwise fun e e' => ¬ Above T (pid e) (pid e') := by
    induction news using reverseRecOn with
    | nil => exact ⟨fun _ => Iff.rfl, List.Pairwise.nil⟩
    | append_singleton news new ih =>
      obtain ⟨hmem, hpair⟩ := ih fun e he => h e (mem_append_left _ he)
      obtain ⟨hmem', hpair'⟩ := collectDescFle_keeps
        (fun e he => h e (mem_append_left _ ((hmem e).mp he))) (h new (by simp)) hpair
      rw [foldl_append]
      refine ⟨fun e => ?_, hpair'⟩
      rw [foldl_cons, foldl_nil, hmem', hmem, mem_append, mem_singleton, or_comm]
  have hmem : ∀ e, e ∈ fdInfoHead T pid news ↔ e ∈ news := fun e => by
    rw [fdInfoHead, mem_reverse, key.1]
  have hpair : (fdInfoHead T pid news).Pairwise fun e e' => ¬ Above T (pid e') (pid e) :=
    pairwise_reverse.mpr key.2
  refine ⟨hmem, hpair, fun master hmaster e he => ?_⟩
  rw [← hmem] at he
  cases hlist : fdInfoHead T pid news with
  | nil => simp [hlist] at he
  | cons m rest =>
    rw [hlist] at hmaster he hpair
    cases hmaster
    rcases mem_cons.mp he with rfl | he
    · exact not_above_self _
    · exact (pairwise_cons.mp hpair).1 e he

def twoTasks : Tasks Bool where
  parent x := if x then some false else none
  level x := if x then 1 else 0
  level_child := by decide
  itemByVirt n := if n = 1 then some false else if n = 2 then some true else none
  virt_inj {a b x} ha hb := by split_ifs at ha hb <;> simp_all

theorem two_owners_in_order : (∀ e, e ∈ fdInfoHead twoTasks id [2, 1] ↔ e ∈ [2, 1]) ∧
    (fdInfoHead twoTasks id [2, 1]).Pairwise (fun e e' => ¬ Above twoTasks e' e) ∧
    ∀ master ∈ (fdInfoHead twoTasks id [2, 1]).head?, ∀ e ∈ [2, 1], ¬ Above twoTasks e master :=
  @owners_in_order _ _ _ twoTasks id [2, 1] (by decide)

end Criu.FdOwners

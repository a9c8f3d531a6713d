import Mathlib.Data.List.Basic
import Mathlib.Data.Nat.Init

/-!
Nodes with parent links that do not go round in a circle, as each node is one level below its
parent.
-/

structure Ancestry (ι : Type*) where
  parent : ι → Option ι
  level : ι → ℕ
  level_child : ∀ {m c}, parent c = some m → level c = level m + 1

namespace Ancestry

open List

variable {ι : Type*} (T : Ancestry ι)

def ancestors : ℕ → ι → List ι
  | 0, m => [m]
  | n + 1, m =>
      match T.parent m with
      | none => [m]
      | some p => m :: ancestors n p

def chain (m : ι) : List ι := T.ancestors (T.level m) m

variable {T} {m c q x y : ι}

theorem chain_child (h : T.parent m = some x) : T.chain m = m :: T.chain x := by
  unfold chain
  rw [T.level_child h, ancestors, h]

theorem chain_top (h : T.parent m = none) : T.chain m = [m] := by
  unfold chain
  cases T.level m with
  | zero => rfl
  | succ n => rw [ancestors, h]

theorem mem_chain_self (m : ι) : m ∈ T.chain m := by
  cases hm : T.parent m with
  | none => exact chain_top hm ▸ mem_cons_self
  | some q => exact chain_child hm ▸ mem_cons_self

theorem up_rule (T : Ancestry ι) {P : ι → Prop} (htop : ∀ m, T.parent m = none → P m)
    (hchild : ∀ {m c}, T.parent c = some m → P m → P c) (m : ι) : P m := by
  induction hk : T.level m using Nat.strong_induction_on generalizing m with
  | h k ih =>
    cases hm : T.parent m with
    | none => exact htop m hm
    | some q =>
      have := T.level_child hm
      exact hchild hm (ih (T.level q) (by omega) q rfl)

theorem chain_rule {P : ι → Prop} (hup : ∀ {c q}, T.parent c = some q → P c → P q) (hm : P m) :
    ∀ n ∈ T.chain m, P n := by
  intro n hn
  induction m using T.up_rule with
  | htop m htop =>
    rw [chain_top htop] at hn
    exact mem_singleton.mp hn ▸ hm
  | hchild hc ih =>
    rw [chain_child hc] at hn
    rcases mem_cons.mp hn with rfl | hn
    · exact hm
    · exact ih (hup hc hm) hn

theorem chain_subset (h : x ∈ T.chain y) : T.chain x ⊆ T.chain y :=
  chain_rule (P := fun n => T.chain n ⊆ T.chain y)
    (fun hc h _ hn => h (chain_child hc ▸ mem_cons_of_mem _ hn)) (List.Subset.refl _) x h

theorem level_chain (h : x ∈ T.chain y) : T.level x ≤ T.level y := by
  refine chain_rule (P := fun n => T.level n ≤ T.level y) (fun hc h => ?_) (Nat.le_refl _) x h
  have := T.level_child hc
  omega

theorem chain_unique (hl : T.level x = T.level c) (hx : x ∈ T.chain y) (hc : c ∈ T.chain y) :
    x = c := by
  induction y using T.up_rule with
  | htop y hy =>
    rw [chain_top hy, mem_singleton] at hx hc
    exact hx.trans hc.symm
  | hchild hy ih =>
    have := T.level_child hy
    rw [chain_child hy, mem_cons] at hx hc
    rcases hx with rfl | hx
    · refine hc.elim Eq.symm fun hc => ?_
      have := level_chain hc
      omega
    · refine hc.elim (fun hc => ?_) (ih hx)
      subst hc
      have := level_chain hx
      omega

end Ancestry

import Mathlib.Data.Set.Card
import Criu.Lib.Forest

/-!
Ordered forests as data. A node comes with the forest of its children and the forest of its later
siblings, so that one induction goes through the whole. A finite branch of linked nodes has one
such forest below its root; two forests of the same shape pair their nodes, parents with parents.
-/

namespace Forest

open List

variable {ι : Type*} {f f' : Links ι} {p : ι}
open Relation (ReflTransGen TransGen)

inductive Grove (ι : Type*)
  | nil
  | node (x : ι) (kids rest : Grove ι)

namespace Grove

variable {κ : Type*}

def roots : Grove ι → List ι
  | nil => []
  | node x _ rest => x :: rest.roots

def nodes : Grove ι → List ι
  | nil => []
  | node x kids rest => x :: (kids.nodes ++ rest.nodes)

def Hangs (f : Links ι) : ι → Grove ι → Prop
  | _, nil => True
  | p, node x kids rest =>
      f.parent x = some p ∧ f.children x = kids.roots ∧ Hangs f x kids ∧ Hangs f p rest

def Matches (R : ι → κ → Prop) : Grove ι → Grove κ → Prop
  | nil, nil => True
  | node x kids rest, node y kids' rest' => R x y ∧ Matches R kids kids' ∧ Matches R rest rest'
  | _, _ => False

def pairs : Grove ι → Grove κ → List (ι × κ)
  | node x kids rest, node y kids' rest' => (x, y) :: (pairs kids kids' ++ pairs rest rest')
  | _, _ => []

variable {R : ι → κ → Prop} {g : Grove ι} {g' : Grove κ}

theorem Matches.nodes_pairs (h : Matches R g g') :
    (pairs g g').map Prod.fst = g.nodes ∧ (pairs g g').map Prod.snd = g'.nodes := by
  induction g generalizing g' with
  | nil =>
    cases g' with
    | nil => exact ⟨rfl, rfl⟩
    | node y kids' rest' => exact h.elim
  | node x kids rest ihk ihr =>
    cases g' with
    | nil => exact h.elim
    | node y kids' rest' => simp [pairs, nodes, ihk h.2.1, ihr h.2.2]

/-- Nodes at the same place are related, and so are their places below the parents. -/
theorem Matches.pair {f' : Links κ} {q : κ} (h : Matches R g g') (hg : Hangs f p g)
    (hg' : Hangs f' q g') : ∀ z ∈ pairs g g', R z.1 z.2 ∧
      ∃ a b, ((a, b) = (p, q) ∨ (a, b) ∈ pairs g g') ∧ f.parent z.1 = some a ∧
        f'.parent z.2 = some b := by
  induction g generalizing g' p q with
  | nil =>
    cases g' with
    | nil => exact nofun
    | node y kids' rest' => exact h.elim
  | node x kids rest ihk ihr =>
    cases g' with
    | nil => exact h.elim
    | node y kids' rest' =>
      obtain ⟨hR, hk, hr⟩ := h
      intro z hz
      rw [pairs, mem_cons, mem_append] at hz
      rcases hz with rfl | hz | hz
      · exact ⟨hR, p, q, .inl rfl, hg.1, hg'.1⟩
      · -- the parents of the children's forest are the node itself and its partner
        obtain ⟨hz', a, b, hab, ha, hb⟩ := ihk hk hg.2.2.1 hg'.2.2.1 z hz
        refine ⟨hz', a, b, .inr ?_, ha, hb⟩
        rcases hab with hab | hab
        · rw [hab]
          exact mem_cons_self
        · exact mem_cons_of_mem _ (mem_append_left _ hab)
      · obtain ⟨hz', a, b, hab, ha, hb⟩ := ihr hr hg.2.2.2 hg'.2.2.2 z hz
        exact ⟨hz', a, b, hab.imp_right fun hab =>
          mem_cons_of_mem _ (mem_append_right _ hab), ha, hb⟩

/-- A map that sends children to children in order gives forests of the same shape. -/
theorem matches_of_map {f' : Links κ} {q : κ} {φ : ι → κ} (hg : Hangs f p g)
    (hg' : Hangs f' q g') (hroots : g'.roots = g.roots.map φ)
    (h : ∀ x ∈ g.nodes, R x (φ x) ∧ f'.children (φ x) = (f.children x).map φ) :
    Matches R g g' := by
  induction g generalizing g' p q with
  | nil =>
    cases g' with
    | nil => trivial
    | node y kids' rest' => exact absurd hroots (cons_ne_nil _ _)
  | node x kids rest ihk ihr =>
    cases g' with
    | nil => exact absurd hroots.symm (cons_ne_nil _ _)
    | node y kids' rest' =>
      obtain ⟨rfl, hrest⟩ := List.cons.inj hroots
      obtain ⟨hR, hc⟩ := h x mem_cons_self
      rw [hg.2.1, hg'.2.1] at hc
      refine ⟨hR, ihk hg.2.2.1 hg'.2.2.1 hc fun z hz => ?_,
        ihr hg.2.2.2 hg'.2.2.2 hrest fun z hz => ?_⟩
      · exact h z (mem_cons_of_mem _ (mem_append_left _ hz))
      · exact h z (mem_cons_of_mem _ (mem_append_right _ hz))

end Grove

/-! ### The forest below a node -/

namespace Links

variable {root : ι}

/-- A finite branch, whose lists of children agree with the parent links. What the root itself
hangs from is not part of it. -/
structure Branch (f : Links ι) (root : ι) : Prop where
  finite : {x | f.Within x root}.Finite
  agree : ∀ p, f.Within p root → ∀ c, c ∈ f.children p ↔ f.parent c = some p
  nodup : ∀ p, f.Within p root → (f.children p).Nodup
  top : ∀ p, f.parent root = some p → ¬ f.Within p root

variable {x : ι} {g : Grove ι}

theorem Branch.acyclic (h : f.Branch root) (hx : f.Within x root) : ¬ TransGen f.Up x x :=
  hx.not_cycle h.top

theorem within_total {a b : ι} (ha : f.Within x a) (hb : f.Within x b) :
    f.Within a b ∨ f.Within b a := by
  induction ha using ReflTransGen.head_induction_on with
  | refl => exact .inl hb
  | head hup hrest ih =>
    rcases ReflTransGen.cases_head hb with rfl | ⟨y, hy, hyb⟩
    · exact .inr (ReflTransGen.head hup hrest)
    · rw [Up, hup] at hy
      cases hy
      exact ih hyb

/-- The branches of two children have nothing in common. -/
theorem Branch.child_unique (h : f.Branch root) {c d : ι} (hp : f.Within p root)
    (hc : f.parent c = some p) (hd : f.parent d = some p) (hxc : f.Within x c)
    (hxd : f.Within x d) : c = d := by
  have key : ∀ a b, f.parent a = some p → f.parent b = some p → f.Within a b → a = b := by
    intro a b ha hb hab
    rcases ReflTransGen.cases_head hab with hab | ⟨y, hy, hyb⟩
    · exact hab
    · rw [Up, ha] at hy
      cases hy
      exact absurd (TransGen.tail' hyb hb) (h.acyclic hp)
  rcases within_total hxc hxd with hcd | hdc
  · exact key c d hc hd hcd
  · exact (key d c hd hc hdc).symm

theorem within_iff_children {y : ι} (h : ∀ c, c ∈ f.children x ↔ f.parent c = some x) :
    f.Within y x ↔ y = x ∨ ∃ c ∈ f.children x, f.Within y c := by
  constructor
  · intro hy
    rcases ReflTransGen.cases_tail hy with rfl | ⟨c, hyc, hc⟩
    · exact .inl rfl
    · exact .inr ⟨c, (h c).mpr hc, hyc⟩
  · rintro (rfl | ⟨c, hc, hyc⟩)
    · exact ReflTransGen.refl
    · exact ReflTransGen.tail hyc ((h c).mp hc)

/-- A forest that hangs below `p` and holds the branches of the given children, once each. -/
structure Holds (f : Links ι) (p : ι) (l : List ι) (g : Grove ι) : Prop where
  roots : l = g.roots
  hangs : Grove.Hangs f p g
  nodup : g.nodes.Nodup
  mem : ∀ y, y ∈ g.nodes ↔ ∃ c ∈ l, f.Within y c

theorem Branch.holds_of_children (h : f.Branch root) (hp : f.Within p root)
    (ih : ∀ c, f.parent c = some p → ∃ g, f.Holds c (f.children c) g) {l : List ι}
    (hl : ∀ c ∈ l, f.parent c = some p) (hn : l.Nodup) : ∃ g, f.Holds p l g := by
  induction l with
  | nil => exact ⟨.nil, rfl, trivial, nodup_nil, by simp [Grove.nodes]⟩
  | cons c l ihl =>
    obtain ⟨hc, hl⟩ := forall_mem_cons.mp hl
    obtain ⟨hcl, hn⟩ := nodup_cons.mp hn
    obtain ⟨rest, hrest⟩ := ihl hl hn
    obtain ⟨kids, hkids⟩ := ih c hc
    have hcroot : f.Within c root := ReflTransGen.head hc hp
    have hmem : ∀ y, y ∈ c :: kids.nodes ↔ f.Within y c := fun y => by
      rw [mem_cons, hkids.mem, within_iff_children (h.agree c hcroot)]
    have hself : c ∉ kids.nodes := by
      intro hin
      obtain ⟨d, hd, hcd⟩ := (hkids.mem c).mp hin
      exact h.acyclic hcroot (TransGen.tail' hcd ((h.agree c hcroot d).mp hd))
    refine ⟨.node c kids rest, ?_, ⟨hc, hkids.roots, hkids.hangs, hrest.hangs⟩, ?_, fun y => ?_⟩
    · rw [Grove.roots, ← hrest.roots]
    · rw [Grove.nodes, ← cons_append, nodup_append]
      refine ⟨nodup_cons.mpr ⟨hself, hkids.nodup⟩, hrest.nodup, fun a ha b hb hab => ?_⟩
      obtain ⟨d, hd, hbd⟩ := (hrest.mem b).mp hb
      rw [← hab] at hbd
      have hcd := h.child_unique hp hc (hl d hd) ((hmem a).mp ha) hbd
      exact hcl (hcd ▸ hd)
    · rw [Grove.nodes, ← cons_append, mem_append, hmem, hrest.mem]
      simp only [mem_cons, exists_eq_or_imp]

theorem Branch.holds (h : f.Branch root) (hx : f.Within x root) :
    ∃ g, f.Holds x (f.children x) g := by
  have hsub : ∀ y, f.Within y root → {z | f.Within z y}.Finite := fun y hy =>
    h.finite.subset fun z hz => ReflTransGen.trans hz hy
  -- the branch of a child is smaller, since the node itself is not in it
  induction hn : {z | f.Within z x}.ncard using Nat.strong_induction_on generalizing x with
  | _ n ih =>
    refine h.holds_of_children hx (fun c hc => ?_) (fun c hc => (h.agree x hx c).mp hc)
      (h.nodup x hx)
    have hcx : f.Within c x := ReflTransGen.single hc
    refine ih _ ?_ (ReflTransGen.trans hcx hx) rfl
    rw [← hn]
    refine Set.ncard_lt_ncard ⟨fun z hz => ReflTransGen.trans hz hcx, fun hle => ?_⟩
      (hsub x hx)
    have hxc : f.Within x c := hle ReflTransGen.refl
    exact h.acyclic hx (TransGen.tail' hxc hc)

/-- The forest below the root holds every node of the branch but the root, once. -/
structure Crown (f : Links ι) (root : ι) (g : Grove ι) : Prop where
  roots : f.children root = g.roots
  hangs : Grove.Hangs f root g
  nodup : (root :: g.nodes).Nodup
  mem : ∀ x, x ∈ root :: g.nodes ↔ f.Within x root

theorem Branch.crown (h : f.Branch root) : ∃ g : Grove ι, f.Crown root g := by
  have hroot : f.Within root root := ReflTransGen.refl
  obtain ⟨g, hg⟩ := h.holds hroot
  refine ⟨g, hg.roots, hg.hangs, nodup_cons.mpr ⟨fun hin => ?_, hg.nodup⟩, fun x => ?_⟩
  · obtain ⟨c, hc, hrc⟩ := (hg.mem root).mp hin
    exact h.acyclic hroot (TransGen.tail' hrc ((h.agree root hroot c).mp hc))
  · rw [mem_cons, hg.mem, within_iff_children (h.agree root hroot)]

theorem Crown.root_not_mem (h : f.Crown root g) : root ∉ g.nodes :=
  (nodup_cons.mp h.nodup).1

theorem Crown.within (h : f.Crown root g) (hx : x ∈ g.nodes) :
    f.Within x root := (h.mem x).mp (mem_cons_of_mem _ hx)

theorem within_congr (h : f'.parent = f.parent) (x a : ι) : f'.Within x a ↔ f.Within x a := by
  have hup : f'.Up = f.Up := by
    funext y z
    rw [Up, Up, h]
  rw [Within, Within, hup]

theorem Branch.perm (h : f.Branch root) (hparent : f'.parent = f.parent)
    (hperm : ∀ x, (f'.children x).Perm (f.children x)) : f'.Branch root := by
  have hw := within_congr hparent
  constructor
  · simpa only [hw] using h.finite
  · intro p hp c
    rw [(hperm p).mem_iff, hparent]
    exact h.agree p ((hw p root).mp hp) c
  · intro p hp
    exact (hperm p).nodup_iff.mpr (h.nodup p ((hw p root).mp hp))
  · intro p hp hwp
    rw [hparent] at hp
    exact h.top p hp ((hw p root).mp hwp)

end Links

/-- A list of pairs without repetition on either side is a bijection. -/
theorem exists_bijOn_of_pairs {κ : Type*} [Nonempty κ] {l : List (ι × κ)}
    (h₁ : (l.map Prod.fst).Nodup) (h₂ : (l.map Prod.snd).Nodup) :
    ∃ φ : ι → κ, (∀ z ∈ l, φ z.1 = z.2) ∧
      Set.BijOn φ {x | x ∈ l.map Prod.fst} {y | y ∈ l.map Prod.snd} := by
  classical
  let φ : ι → κ := fun x => if h : ∃ y, (x, y) ∈ l then h.choose else Classical.arbitrary κ
  have hφ : ∀ z ∈ l, φ z.1 = z.2 := by
    intro z hz
    have hex : ∃ y, (z.1, y) ∈ l := ⟨z.2, hz⟩
    have hval : φ z.1 = hex.choose := dif_pos hex
    have hmem : (z.1, φ z.1) ∈ l := hval ▸ hex.choose_spec
    exact congrArg Prod.snd (inj_on_of_nodup_map h₁ hmem hz rfl)
  refine ⟨φ, hφ, fun x hx => ?_, fun x hx y hy hxy => ?_, fun y hy => ?_⟩
  · obtain ⟨z, hz, rfl⟩ := mem_map.mp hx
    exact mem_map.mpr ⟨z, hz, (hφ z hz).symm⟩
  · obtain ⟨z, hz, rfl⟩ := mem_map.mp hx
    obtain ⟨w, hw, rfl⟩ := mem_map.mp hy
    rw [hφ z hz, hφ w hw] at hxy
    rw [inj_on_of_nodup_map h₂ hz hw hxy]
  · obtain ⟨z, hz, rfl⟩ := mem_map.mp hy
    exact ⟨z.1, mem_map.mpr ⟨z, hz, rfl⟩, hφ z hz⟩

end Forest

import Mathlib.Data.List.Induction
import Mathlib.Data.List.Lex
import Mathlib.Data.List.Nodup
import Mathlib.Data.Set.Basic

/-!
Trees that are kept twice, by a parent link in every node and by a list of children. A node is
addressed by the positions in the lists of children that lead to it from the root, and the
positions, compared from the root on, give the order in which a depth-first walk meets the nodes.
The walk goes from node to node by the links alone. A node may be hung to another parent as long
as that parent is not in its own branch.
-/

namespace Forest

open List

variable {i n k : ℕ} {p c : List ℕ}
open Relation (ReflTransGen TransGen)

structure Links (ι : Type*) where
  parent : ι → Option ι
  children : ι → List ι

namespace Links

variable {ι : Type*} (f : Links ι)

def Up (a b : ι) : Prop := f.parent a = some b

def Within (x a : ι) : Prop := Relation.ReflTransGen f.Up x a

def follow : ι → List ℕ → Option ι
  | x, [] => some x
  | x, i :: path => (f.children x)[i]?.bind fun y => follow y path

/-- The lists of children agree with the parent links, but for the loose nodes: those have a
parent that does not list them. -/
structure Hung (loose : List ι) : Prop where
  mem_children : ∀ p c, c ∈ f.children p ↔ f.parent c = some p ∧ c ∉ loose
  nodup : ∀ p, (f.children p).Nodup

structure IsTree (root : ι) (nodes : Set ι) : Prop where
  top : f.parent root = none
  acyclic : ∀ x, ¬ Relation.TransGen f.Up x x
  once : ∀ x ∈ nodes, ∃! path, f.follow root path = some x
  agree : ∀ p c, c ∈ f.children p ↔ f.parent c = some p

variable {f} {root : ι} {nodes : Set ι} {loose : List ι}

theorem follow_append (x : ι) (p q : List ℕ) :
    f.follow x (p ++ q) = (f.follow x p).bind fun y => f.follow y q := by
  induction p generalizing x with
  | nil => simp [follow]
  | cons i p ih =>
    simp only [cons_append, follow, Option.bind_assoc]
    congr 1
    funext y
    exact ih y

theorem follow_concat (x : ι) (p : List ℕ) (i : ℕ) :
    f.follow x (p ++ [i]) = (f.follow x p).bind fun y => (f.children y)[i]? := by
  simp [follow_append, follow]

theorem follow_concat_eq {x y : ι} (h : f.follow x (p ++ [i]) = some y) :
    ∃ z, f.follow x p = some z ∧ (f.children z)[i]? = some y := by
  rw [follow_concat] at h
  exact Option.bind_eq_some_iff.mp h

theorem follow_within (hf : ∀ p c, c ∈ f.children p → f.parent c = some p) {x y : ι}
    {path : List ℕ} (h : f.follow x path = some y) : f.Within y x := by
  induction path using reverseRecOn generalizing y with
  | nil =>
    cases h
    exact ReflTransGen.refl
  | append_singleton path i ih =>
    obtain ⟨z, hz, hy⟩ := follow_concat_eq h
    exact ReflTransGen.head (hf z y (mem_of_getElem? hy)) (ih hz)

/-- A node is met on one path only. -/
theorem follow_inj (hf : ∀ p c, c ∈ f.children p → f.parent c = some p)
    (hn : ∀ p, (f.children p).Nodup) (htop : f.parent root = none) {x : ι} {q : List ℕ}
    (hp : f.follow root p = some x) (hq : f.follow root q = some x) : p = q := by
  induction p using reverseRecOn generalizing q x with
  | nil =>
    cases hp
    rcases eq_nil_or_concat q with rfl | ⟨q, j, rfl⟩
    · rfl
    · obtain ⟨z, -, hz⟩ := follow_concat_eq (concat_eq_append ▸ hq)
      rw [hf z root (mem_of_getElem? hz)] at htop
      cases htop
  | append_singleton p i ih =>
    obtain ⟨y, hy, hi⟩ := follow_concat_eq hp
    have hup := hf y x (mem_of_getElem? hi)
    rcases eq_nil_or_concat q with rfl | ⟨q, j, rfl⟩
    · cases hq
      rw [hup] at htop
      cases htop
    rw [concat_eq_append] at hq ⊢
    obtain ⟨z, hz, hj⟩ := follow_concat_eq hq
    have hzy : y = z := by
      have := hf z x (mem_of_getElem? hj)
      rw [hup] at this
      exact Option.some.inj this
    subst hzy
    have hij : i = j := by
      have hlt : i < (f.children y).length := (List.getElem?_eq_some_iff.mp hi).1
      exact (getElem?_inj hlt (hn y)).mp (hi.trans hj.symm)
    rw [ih hy hz, hij]

theorem Within.path (h : f.Hung []) {x y : ι} (hw : f.Within y x) :
    ∃ path, f.follow x path = some y := by
  induction hw using ReflTransGen.head_induction_on with
  | refl => exact ⟨[], by simp [follow]⟩
  | head hup _ ih =>
    obtain ⟨path, hpath⟩ := ih
    obtain ⟨i, hi⟩ := mem_iff_getElem?.mp ((h.mem_children _ _).mpr ⟨hup, not_mem_nil⟩)
    exact ⟨path ++ [i], by rw [follow_concat, hpath]; exact hi⟩

/-- No branch goes round in a circle if nothing in it is above its top. -/
theorem Within.not_cycle (htop : ∀ p, f.Up root p → ¬ f.Within p root) {x : ι}
    (hw : f.Within x root) : ¬ TransGen f.Up x x := by
  induction hw using ReflTransGen.head_induction_on with
  | refl =>
    intro h
    obtain ⟨y, hy, hrest⟩ := TransGen.head'_iff.mp h
    exact htop y hy hrest
  | head hup _ ih =>
    intro h
    obtain ⟨y, hy, hrest⟩ := TransGen.head'_iff.mp h
    rw [Up, hup] at hy
    cases hy
    exact ih (TransGen.tail' hrest hup)

theorem Hung.isTree (h : f.Hung []) (htop : f.parent root = none)
    (hnodes : ∀ x p, f.parent x = some p → x ∈ nodes) (hw : ∀ x ∈ nodes, f.Within x root) :
    f.IsTree root nodes := by
  have hagree : ∀ p c, c ∈ f.children p ↔ f.parent c = some p := by
    intro p c
    rw [h.mem_children]
    exact and_iff_left not_mem_nil
  constructor
  · exact htop
  · intro x hx
    obtain ⟨y, hy, -⟩ := TransGen.head'_iff.mp hx
    refine (hw x (hnodes x y hy)).not_cycle (fun p hp => ?_) hx
    cases htop.symm.trans hp
  · intro x hx
    obtain ⟨path, hpath⟩ := (hw x hx).path h
    refine ⟨path, hpath, fun q hq => ?_⟩
    exact follow_inj (fun p c => (hagree p c).mp) h.nodup htop hq hpath
  · exact hagree

theorem IsTree.hung (h : f.IsTree root nodes)
    (hn : ∀ x p, f.parent x = some p → x ∈ nodes ∧ p ∈ nodes) : f.Hung [] := by
  constructor
  · intro p c
    rw [h.agree]
    exact (and_iff_left not_mem_nil).symm
  intro p
  rw [nodup_iff_getElem?_ne_getElem?]
  intro i j hij hj heq
  have hget := getElem?_eq_getElem hj
  have hup := (h.agree p _).mp (mem_of_getElem? hget)
  obtain ⟨hchild, hparent⟩ := hn _ p hup
  obtain ⟨path, hpath, -⟩ := h.once p hparent
  have hi : f.follow root (path ++ [i]) = some (f.children p)[j] := by
    rw [follow_concat, hpath]
    exact heq.trans hget
  have hj' : f.follow root (path ++ [j]) = some (f.children p)[j] := by
    rw [follow_concat, hpath]
    exact hget
  have hsame := (h.once _ hchild).unique hi hj'
  have := (List.cons.inj (append_cancel_left hsame)).1
  omega

theorem IsTree.within (h : f.IsTree root nodes) {x : ι} (hx : x ∈ nodes) : f.Within x root := by
  obtain ⟨path, hpath, -⟩ := h.once x hx
  exact follow_within (fun p c => (h.agree p c).mp) hpath

/-- Links that agree on nodes whose parents are among them have the same branches there. -/
theorem within_of_agree {g : Links ι} (h : ∀ y ∈ nodes, g.parent y = f.parent y)
    (hup : ∀ y ∈ nodes, ∀ z, f.Up y z → z ∈ nodes) {x a : ι} (hx : x ∈ nodes) (hw : f.Within x a) :
    g.Within x a := by
  induction hw using ReflTransGen.head_induction_on with
  | refl => exact ReflTransGen.refl
  | head hxy _ ih =>
    exact ReflTransGen.head ((h _ hx).trans hxy) (ih (hup _ hx _ hxy))

section Rehang

variable [DecidableEq ι]

def setParent (f : Links ι) (b h : ι) : Links ι :=
  { f with parent := Function.update f.parent b (some h) }

theorem setParent_up {b h x y : ι} (hx : x ≠ b) : (f.setParent b h).Up x y ↔ f.Up x y := by
  simp [Up, setParent, hx]

theorem Within.setParent_of_not {b h x : ι} (hw : f.Within x root) (hb : ¬ f.Within x b) :
    (f.setParent b h).Within x root := by
  induction hw using ReflTransGen.head_induction_on with
  | refl => exact ReflTransGen.refl
  | head hup _ ih =>
    have hne : _ ≠ b := fun he => hb (he ▸ ReflTransGen.refl)
    refine ReflTransGen.head ((setParent_up hne).mpr hup) (ih fun hw => ?_)
    exact hb (ReflTransGen.head hup hw)

/-- A branch may be hung to every node that is not in it. -/
theorem Within.setParent {b h x : ι} (hw : f.Within x root) (hh : f.Within h root)
    (hb : ¬ f.Within h b) : (f.setParent b h).Within x root := by
  induction hw using ReflTransGen.head_induction_on with
  | refl => exact ReflTransGen.refl
  | @head a _ hup _ ih =>
    by_cases he : a = b
    · subst he
      exact ReflTransGen.head (by simp [Up, Links.setParent]) (hh.setParent_of_not hb)
    · exact ReflTransGen.head ((setParent_up he).mpr hup) ih

end Rehang

section Walk

variable [DecidableEq ι]

def following (x : ι) : List ι → Option ι
  | [] => none
  | y :: l => if y = x then l.head? else following x l

theorem following_eq_getElem? (x : ι) (l : List ι) : following x l = l[l.idxOf x + 1]? := by
  induction l with
  | nil => rfl
  | cons y l ih =>
    by_cases hy : y = x
    · simp [following, hy, head?_eq_getElem?]
    · rw [following, if_neg hy, ih, idxOf_cons_ne l hy, getElem?_cons_succ]

theorem following_eq {x : ι} {l : List ι} (hn : l.Nodup) (hi : l[i]? = some x) :
    following x l = l[i + 1]? := by
  obtain ⟨hlt, rfl⟩ := List.getElem?_eq_some_iff.mp hi
  rw [following_eq_getElem?, hn.idxOf_getElem]

theorem following_mem {x y : ι} {l : List ι} (h : following x l = some y) : y ∈ l :=
  mem_of_getElem? (following_eq_getElem? x l ▸ h)

theorem following_ne {x y : ι} {l : List ι} (hn : l.Nodup) (h : following x l = some y) :
    y ≠ x := by
  rw [following_eq_getElem?, List.getElem?_eq_some_iff] at h
  obtain ⟨hlt, rfl⟩ := h
  intro heq
  have := hn.idxOf_getElem _ hlt
  rw [heq] at this
  omega

/-- The first node after the branch of the given one, looked for upwards along the parent links.
Without a stop the search ends at a node that has no parent. Nothing comes out if the links go up
further than there is fuel for. -/
def climb (f : Links ι) (stop : Option ι) : ℕ → ι → Option (Option ι)
  | 0, _ => none
  | n + 1, x =>
      match f.parent x with
      | none => some none
      | some p =>
          if stop = some x then some none
          else
            match following x (f.children p) with
            | some y => some (some y)
            | none => climb f stop n p

def next (f : Links ι) (stop : Option ι) (n : ℕ) (x : ι) : Option (Option ι) :=
  match f.children x with
  | c :: _ => some (some c)
  | [] => f.climb stop n x

def walk (f : Links ι) (n : ℕ) : ℕ → ι → Option (List ι)
  | 0, _ => none
  | k + 1, x =>
      match f.next none n x with
      | none => none
      | some none => some [x]
      | some (some y) => (walk f n k y).map (x :: ·)

end Walk

section Order

theorem lt_append_cons (l : List ℕ) (i : ℕ) (m : List ℕ) : l < l ++ i :: m := by
  have h : l ++ [] < l ++ i :: m := append_left_lt (nil_lt_cons i m)
  rwa [append_nil] at h

theorem cons_le_cons_cases {a b : ℕ} {l m : List ℕ} : a :: l ≤ b :: m ↔ a < b ∨ a = b ∧ l ≤ m := by
  simp only [le_iff_lt_or_eq, cons_lt_cons_iff, cons.injEq]
  tauto

theorem concat_le_append_cons (c : List ℕ) {j : ℕ} (h : i ≤ j) (s : List ℕ) :
    c ++ [i] ≤ c ++ j :: s := by
  rcases h.lt_or_eq with hlt | rfl
  · exact (append_left_lt (cons_lt_cons_iff.mpr (.inl hlt))).le
  · cases s with
    | nil => exact le_refl _
    | cons k s => exact (append_left_lt (cons_lt_cons_iff.mpr (.inr ⟨rfl, nil_lt_cons k s⟩))).le

/-- What comes after a child and is not in its branch is in the branch of a later child of the
same parent, or comes after the parent's branch. -/
theorem concat_lt_cases {m : List ℕ} (h : c ++ [i] < m) (hp : ¬ c ++ [i] <+: m) :
    (∃ j s, m = c ++ j :: s ∧ i < j) ∨ c < m ∧ ¬ c <+: m := by
  induction c generalizing m with
  | nil =>
    cases m with
    | nil => exact absurd h (not_lt_nil _)
    | cons j s =>
      rcases cons_lt_cons_iff.mp h with hij | ⟨rfl, -⟩
      · exact .inl ⟨j, s, rfl, hij⟩
      · exact absurd ⟨s, rfl⟩ hp
  | cons a c ih =>
    cases m with
    | nil => exact absurd h (not_lt_nil _)
    | cons b m =>
      rcases cons_lt_cons_iff.mp h with hab | ⟨rfl, hlm⟩
      · refine .inr ⟨cons_lt_cons_iff.mpr (.inl hab), fun hpre => ?_⟩
        have := (cons_prefix_cons.mp hpre).1
        omega
      have hp' : ¬ c ++ [i] <+: m := fun hpre =>
        hp (cons_prefix_cons.mpr ⟨rfl, hpre⟩)
      rcases ih hlm hp' with ⟨j, s, rfl, hij⟩ | ⟨hlt, hpre⟩
      · exact .inl ⟨j, s, rfl, hij⟩
      · refine .inr ⟨cons_lt_cons_iff.mpr (.inr ⟨rfl, hlt⟩), fun hpre' => ?_⟩
        exact hpre (cons_prefix_cons.mp hpre').2

theorem concat_le_of_lt {m : List ℕ} (h : c < m) (hp : ¬ c <+: m) : c ++ [i] ≤ m := by
  induction c generalizing m with
  | nil => exact absurd nil_prefix hp
  | cons a c ih =>
    cases m with
    | nil => exact absurd h (not_lt_nil _)
    | cons b m =>
      rw [cons_append, cons_le_cons_cases]
      rcases cons_lt_cons_iff.mp h with hab | ⟨rfl, hlm⟩
      · exact .inl hab
      · exact .inr ⟨rfl, ih hlm fun hpre => hp (cons_prefix_cons.mpr ⟨rfl, hpre⟩)⟩

theorem lt_concat_zero_le {l m : List ℕ} (h : l < m) : l ++ [0] ≤ m := by
  by_cases hp : l <+: m
  · obtain ⟨s, rfl⟩ := hp
    cases s with
    | nil => exact absurd (append_nil l ▸ h) (lt_irrefl _)
    | cons j s => exact concat_le_append_cons l (Nat.zero_le j) s
  · exact concat_le_of_lt h hp

end Order

section Coverage

variable [DecidableEq ι]

def IsNext (f : Links ι) (root : ι) (later : List ℕ → Prop) (path : List ℕ) (z : ι) : Prop :=
  ∃ k, f.follow root k = some z ∧ path < k ∧ later k ∧
    ∀ m y, f.follow root m = some y → path < m → later m → k ≤ m

theorem climb_spec (h : f.Hung loose) {x : ι} {path : List ℕ} {res : Option ι}
    (hx : f.follow root path = some x) (htop : f.parent root = none)
    (hc : f.climb none n x = some res) :
    match res with
    | none => ∀ m y, f.follow root m = some y → path < m → path <+: m
    | some z => f.IsNext root (fun m => ¬ path <+: m) path z := by
  induction n generalizing x path with
  | zero => cases hc
  | succ n ih =>
    rcases eq_nil_or_concat path with rfl | ⟨path, i, rfl⟩
    · cases hx
      simp only [climb, htop, Option.some.injEq] at hc
      subst hc
      exact fun m y _ _ => nil_prefix
    rw [concat_eq_append] at hx ⊢
    obtain ⟨p, hp, hi⟩ := follow_concat_eq hx
    have hup := ((h.mem_children p x).mp (mem_of_getElem? hi)).1
    simp only [climb, hup, reduceCtorEq, if_false] at hc
    rw [following_eq (h.nodup p) hi] at hc
    cases hnext : (f.children p)[i + 1]? with
    | some z =>
      simp only [hnext, Option.some.injEq] at hc
      subst hc
      refine ⟨path ++ [i + 1], ?_, ?_, fun hpre => ?_, fun m y hm hlt hpre => ?_⟩
      · rw [follow_concat, hp]
        exact hnext
      · exact append_left_lt (cons_lt_cons_iff.mpr (.inl (Nat.lt_succ_self i)))
      · have := (cons_prefix_cons.mp ((prefix_append_right_inj path).mp hpre)).1
        omega
      rcases concat_lt_cases hlt hpre with ⟨j, s, rfl, hij⟩ | ⟨hlt', hpre'⟩
      · exact concat_le_append_cons path (Nat.succ_le_of_lt hij) s
      · exact concat_le_of_lt hlt' hpre'
    | none =>
      simp only [hnext] at hc
      -- no child of the parent comes later, so only what is after the parent's branch counts
      have hlast : ∀ m y, f.follow root m = some y → path ++ [i] < m →
          ¬ path ++ [i] <+: m → path < m ∧ ¬ path <+: m := by
        intro m y hm hlt hpre
        rcases concat_lt_cases hlt hpre with ⟨j, s, rfl, hij⟩ | hafter
        · rw [follow_append, hp, Option.bind_some] at hm
          obtain ⟨w, hw, -⟩ := Option.bind_eq_some_iff.mp hm
          have hlen := List.getElem?_eq_none_iff.mp hnext
          have := (List.getElem?_eq_some_iff.mp hw).1
          omega
        · exact hafter
      have hrec := ih hp hc
      cases res with
      | none =>
        intro m y hm hlt
        by_contra hpre
        obtain ⟨hlt', hpre'⟩ := hlast m y hm hlt hpre
        exact hpre' (hrec m y hm hlt')
      | some z =>
        obtain ⟨k, hk, hlt, hout, hmin⟩ := hrec
        refine ⟨k, hk, ?_, fun hpre => ?_, fun m y hm hlt' hpre => ?_⟩
        · refine lt_of_le_of_ne (concat_le_of_lt hlt hout) fun he => ?_
          exact hout (he ▸ prefix_append path [i])
        · exact hout ((prefix_append path [i]).trans hpre)
        · obtain ⟨hlt'', hpre'⟩ := hlast m y hm hlt' hpre
          exact hmin m y hm hlt'' hpre'

theorem next_spec (h : f.Hung loose) {x : ι} {path : List ℕ} {res : Option ι}
    (hx : f.follow root path = some x) (htop : f.parent root = none)
    (hc : f.next none n x = some res) :
    match res with
    | none => ∀ m y, f.follow root m = some y → ¬ path < m
    | some z => f.IsNext root (fun _ => True) path z := by
  unfold next at hc
  cases hch : f.children x with
  | cons c cs =>
    simp only [hch, Option.some.injEq] at hc
    subst hc
    refine ⟨path ++ [0], ?_, lt_append_cons path 0 [], trivial, fun m y _ hlt _ => ?_⟩
    · rw [follow_concat, hx]
      simp [hch]
    · exact lt_concat_zero_le hlt
  | nil =>
    simp only [hch] at hc
    -- nothing is below a node without children
    have hleaf : ∀ m y, f.follow root m = some y → path < m → ¬ path <+: m := by
      rintro m y hm hlt ⟨s, rfl⟩
      cases s with
      | nil =>
        rw [append_nil] at hlt
        exact lt_irrefl _ hlt
      | cons j s =>
        rw [follow_append, hx, Option.bind_some, follow, hch] at hm
        cases hm
    have hclimb := climb_spec h hx htop hc
    cases res with
    | none => exact fun m y hm hlt => hleaf m y hm hlt (hclimb m y hm hlt)
    | some z =>
      obtain ⟨k, hk, hlt, -, hmin⟩ := hclimb
      exact ⟨k, hk, hlt, trivial, fun m y hm hlt _ => hmin m y hm hlt (hleaf m y hm hlt)⟩

theorem walk_from (h : f.Hung loose) (htop : f.parent root = none) {x : ι} {path : List ℕ}
    {met : List ι} (hx : f.follow root path = some x) (hw : f.walk n k x = some met) :
    met.Nodup ∧ ∀ y, y ∈ met ↔ ∃ m, path ≤ m ∧ f.follow root m = some y := by
  induction k generalizing x path met with
  | zero => cases hw
  | succ k ih =>
    cases hn : f.next none n x with
    | none => simp [walk, hn] at hw
    | some res =>
      have hnext := next_spec h hx htop hn
      have huniq : ∀ m, f.follow root m = some x → m = path := fun m hm =>
        follow_inj (fun p c hc => ((h.mem_children p c).mp hc).1) h.nodup htop hm hx
      cases res with
      | none =>
        simp only [walk, hn, Option.some.injEq] at hw
        subst hw
        refine ⟨nodup_singleton x, fun y => ?_⟩
        rw [mem_singleton]
        constructor
        · rintro rfl
          exact ⟨path, le_refl _, hx⟩
        · rintro ⟨m, hle, hm⟩
          rcases hle.lt_or_eq with hlt | rfl
          · exact absurd hlt (hnext m y hm)
          · exact Option.some.inj (hm.symm.trans hx)
      | some z =>
        obtain ⟨k', hz, hlt, -, hmin⟩ := hnext
        simp only [walk, hn, Option.map_eq_some_iff] at hw
        obtain ⟨rest, hrest, rfl⟩ := hw
        obtain ⟨hnodup, hmem⟩ := ih hz hrest
        constructor
        · refine nodup_cons.mpr ⟨fun hin => ?_, hnodup⟩
          obtain ⟨m, hle, hm⟩ := (hmem x).mp hin
          exact absurd (huniq m hm ▸ hle) (not_le.mpr hlt)
        intro y
        rw [mem_cons, hmem]
        constructor
        · rintro (rfl | ⟨m, hle, hm⟩)
          · exact ⟨path, le_refl _, hx⟩
          · exact ⟨m, hlt.le.trans hle, hm⟩
        · rintro ⟨m, hle, hm⟩
          rcases hle.lt_or_eq with hlt' | rfl
          · exact .inr ⟨m, hmin m y hm hlt' trivial, hm⟩
          · exact .inl (Option.some.inj (hm.symm.trans hx))

/-- A walk from the root that comes to its end meets every node that a path leads to, and meets
it once. -/
theorem walk_root (h : f.Hung loose) (htop : f.parent root = none) {met : List ι}
    (hw : f.walk n k root = some met) :
    met.Nodup ∧ ∀ y, y ∈ met ↔ ∃ m, f.follow root m = some y := by
  have hroot : f.follow root [] = some root := by simp [follow]
  obtain ⟨hnodup, hmem⟩ := walk_from h htop hroot hw
  refine ⟨hnodup, fun y => ?_⟩
  rw [hmem]
  exact exists_congr fun m => and_iff_right (not_lt.mp (not_lt_nil m))

end Coverage

end Links

end Forest

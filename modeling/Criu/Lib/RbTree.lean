import Mathlib.Data.List.Induction
import Mathlib.Order.Compare
import Mathlib.Order.Lattice

/-!
Red-black trees with a repair loop that climbs from the new node. A position in a tree is the
subtree there and the path of frames up to the root, so that parents can be reached. A search
goes down by an oracle; inserting at the place where it ended and repairing the colours adds
one element to the walked list and changes nothing else in it.
-/

namespace RbTree

inductive Color
  | red
  | black
deriving DecidableEq, Repr

inductive Side
  | left
  | right
deriving DecidableEq, Repr

inductive Rb (α : Type*)
  | nil
  | node (color : Color) (left : Rb α) (value : α) (right : Rb α)

variable {α : Type*}

namespace Rb

def toList : Rb α → List α
  | nil => []
  | node _ l v r => l.toList ++ v :: r.toList

def setColor (c : Color) : Rb α → Rb α
  | nil => nil
  | node _ l v r => node c l v r

def isRed : Rb α → Bool
  | node .red _ _ _ => true
  | _ => false

def rotateLeft : Rb α → Rb α
  | node c l v (node c' l' v' r') => node c' (node c l v l') v' r'
  | t => t

def rotateRight : Rb α → Rb α
  | node c (node c' l' v' r') v r => node c' l' v' (node c r' v r)
  | t => t

@[simp] theorem toList_setColor (c : Color) (t : Rb α) : (t.setColor c).toList = t.toList := by
  cases t <;> rfl

@[simp] theorem toList_rotateLeft (t : Rb α) : t.rotateLeft.toList = t.toList := by
  cases t with
  | nil => rfl
  | node c l v r => cases r <;> simp [rotateLeft, toList]

@[simp] theorem toList_rotateRight (t : Rb α) : t.rotateRight.toList = t.toList := by
  cases t with
  | nil => rfl
  | node c l v r => cases l <;> simp [rotateRight, toList]

@[simp] theorem isRed_setColor_black (t : Rb α) : (t.setColor .black).isRed = false := by
  cases t <;> rfl

end Rb

open Rb

structure Frame (α : Type*) where
  side : Side
  color : Color
  value : α
  sibling : Rb α

def Frame.attach (f : Frame α) (t : Rb α) : Rb α :=
  match f.side with
  | .left => node f.color t f.value f.sibling
  | .right => node f.color f.sibling f.value t

abbrev Path (α : Type*) := List (Frame α)

def plug (t : Rb α) : Path α → Rb α
  | [] => t
  | f :: path => plug (f.attach t) path

def before : Path α → List α
  | [] => []
  | f :: path =>
      match f.side with
      | .left => before path
      | .right => before path ++ (f.sibling.toList ++ [f.value])

def after : Path α → List α
  | [] => []
  | f :: path =>
      match f.side with
      | .left => f.value :: f.sibling.toList ++ after path
      | .right => after path

theorem toList_plug (t : Rb α) (path : Path α) :
    (plug t path).toList = before path ++ (t.toList ++ after path) := by
  induction path generalizing t with
  | nil => simp [plug, before, after]
  | cons f path ih =>
    rw [plug, ih]
    cases hs : f.side <;> simp [Frame.attach, before, after, hs, toList]

variable {t t' : Rb α} {go : α → Option Ordering} {path : Path α} {β : Type*} [LinearOrder β]
  {f : α → β} {key : β}

/-- The colour at the root only depends on the colour at the position. -/
theorem isRed_plug_congr (path : Path α) (h : t.isRed = t'.isRed) :
    (plug t path).isRed = (plug t' path).isRed := by
  induction path generalizing t t' with
  | nil => exact h
  | cons f path ih =>
    refine ih ?_
    cases hs : f.side <;> cases hc : f.color <;> simp [Frame.attach, hs, hc, isRed]

/-! ### Searching -/

inductive Descent (α : Type*)
  | found (path : Path α) (color : Color) (left : Rb α) (value : α) (right : Rb α)
  | missing (path : Path α)
  | failed

/-- Go down from a position. The oracle says on which side of a value the sought one is. -/
def descend (go : α → Option Ordering) : Rb α → Path α → Descent α
  | nil, path => .missing path
  | node c l v r, path =>
      match go v with
      | some .lt => descend go l (⟨.left, c, v, r⟩ :: path)
      | some .gt => descend go r (⟨.right, c, v, l⟩ :: path)
      | some .eq => .found path c l v r
      | none => .failed

/-- The oracle agrees with the order of a list: it points to the same side from all values beyond
one that it points away from. -/
def Guides (go : α → Option Ordering) (l : List α) : Prop :=
  l.Pairwise (fun a b => (go a = some .lt → go b = some .lt) ∧
    (go b = some .gt → go a = some .gt))

/-- In an ascending list the oracle compares the sought key with those of the values. -/
theorem guides_of_ascending {l : List α} (h : l.Pairwise (fun a b => f a < f b))
    (hgo : ∀ a ∈ l, go a = some (compare key (f a))) : Guides go l := by
  refine h.imp_of_mem fun {a b} ha hb hab => ?_
  simp only [hgo a ha, hgo b hb, Option.some.injEq, compare_lt_iff_lt, compare_gt_iff_gt]
  exact ⟨fun hka => hka.trans hab, fun hbk => hab.trans hbk⟩

structure Led (go : α → Option Ordering) (path : Path α) : Prop where
  before : ∀ a ∈ before path, go a = some .gt
  after : ∀ a ∈ after path, go a = some .lt

theorem descend_spec
    (hg : Guides go t.toList) (hl : Led go path) (hok : ∀ a ∈ t.toList, go a ≠ none) :
    (∃ path' c l v r, descend go t path = .found path' c l v r ∧ go v = some .eq ∧
      plug (node c l v r) path' = plug t path) ∨
    (∃ path', descend go t path = .missing path' ∧ Led go path' ∧
      plug nil path' = plug t path) := by
  induction t generalizing path with
  | nil => exact .inr ⟨path, rfl, hl, rfl⟩
  | node c l v r ihl ihr =>
    rw [toList, Guides, List.pairwise_append, List.pairwise_cons] at hg
    obtain ⟨hgl, ⟨hvr, hgr⟩, hlr⟩ := hg
    rw [descend]
    cases hv : go v with
    | none => exact absurd hv (hok v (by simp [toList]))
    | some o =>
      cases o with
      | lt =>
        have hled : Led go (⟨.left, c, v, r⟩ :: path) := by
          refine ⟨hl.before, fun a ha => ?_⟩
          simp only [after, List.cons_append, List.mem_cons, List.mem_append] at ha
          rcases ha with rfl | ha | ha
          · exact hv
          · exact (hvr a ha).1 hv
          · exact hl.after a ha
        exact ihl hgl hled (fun a ha => hok a (by simp [toList, ha]))
      | gt =>
        have hled : Led go (⟨.right, c, v, l⟩ :: path) := by
          refine ⟨fun a ha => ?_, hl.after⟩
          simp only [before, List.mem_append, List.mem_singleton] at ha
          rcases ha with ha | ha | rfl
          · exact hl.before a ha
          · exact (hlr a ha v List.mem_cons_self).2 hv
          · exact hv
        exact ihr hgr hled (fun a ha => hok a (by simp [toList, ha]))
      | eq => exact .inl ⟨path, c, l, v, r, rfl, hv, rfl⟩

/-- The place of a key in an ascending tree: what is before it is less, what is after it greater. -/
structure Place (f : α → β) (key : β) (t : Rb α) (path : Path α) : Prop where
  plug : plug nil path = t
  before : ∀ a ∈ before path, f a < key
  after : ∀ a ∈ after path, key < f a

theorem Place.toList (h : Place f key t path) :
    t.toList = RbTree.before path ++ RbTree.after path := by
  rw [← h.plug, toList_plug, Rb.toList, List.nil_append]

theorem Place.ne (h : Place f key t path) {a : α} (ha : a ∈ t.toList) : f a ≠ key := by
  rw [h.toList, List.mem_append] at ha
  exact ha.elim (fun ha => (h.before a ha).ne) fun ha => (h.after a ha).ne'

/-- A search in an ascending tree finds a value with the key, or the place for one. -/
theorem descend_ascending (h : t.toList.Pairwise (fun a b => f a < f b))
    (hgo : ∀ a ∈ t.toList, go a = some (compare key (f a))) :
    (∃ path c l v r, descend go t [] = .found path c l v r ∧ RbTree.plug (node c l v r) path = t ∧
      v ∈ t.toList ∧ f v = key) ∨
    (∃ path, descend go t [] = .missing path ∧ Place f key t path) := by
  have hroot : Led go [] := ⟨by simp [before], by simp [after]⟩
  have hok : ∀ a ∈ t.toList, go a ≠ none := fun a ha => by simp [hgo a ha]
  rcases descend_spec (guides_of_ascending h hgo) hroot hok with
    ⟨path, c, l, v, r, hd, heq, hplug⟩ | ⟨path, hd, hled, hplug⟩
  · have hmem : v ∈ t.toList := by
      rw [← show RbTree.plug (node c l v r) path = t from hplug, toList_plug]
      simp [Rb.toList]
    rw [hgo v hmem, Option.some.injEq, compare_eq_iff_eq] at heq
    exact .inl ⟨path, c, l, v, r, hd, hplug, hmem, heq.symm⟩
  have hin : ∀ a, a ∈ before path ∨ a ∈ after path → a ∈ t.toList := by
    rw [← show RbTree.plug nil path = t from hplug, toList_plug]
    simp [Rb.toList]
  refine .inr ⟨path, hd, hplug, fun a ha => ?_, fun a ha => ?_⟩
  · have hgt := hled.before a ha
    rw [hgo a (hin a (.inl ha)), Option.some.injEq, compare_gt_iff_gt] at hgt
    exact hgt
  · have hlt := hled.after a ha
    rw [hgo a (hin a (.inr ha)), Option.some.injEq, compare_lt_iff_lt] at hlt
    exact hlt

/-! ### Inserting -/

/-- The rotations for a red parent with a black uncle; the grandparent's frame is `g`. -/
def rotateUp (t : Rb α) (p g : Frame α) : Rb α :=
  let parent := p.attach t
  match g.side with
  | .left =>
      let top := if p.side = .right then parent.rotateLeft else parent
      (node .red (top.setColor .black) g.value g.sibling).rotateRight
  | .right =>
      let top := if p.side = .left then parent.rotateRight else parent
      (node .red g.sibling g.value (top.setColor .black)).rotateLeft

def recolor (t : Rb α) (p g : Frame α) : Rb α :=
  Frame.attach { g with color := .red, sibling := g.sibling.setColor .black }
    (Frame.attach { p with color := .black } t)

/-- The repair loop; without a grandparent for a red parent it follows a null pointer. -/
def insertColor : Rb α → Path α → Option (Rb α)
  | t, [] => some (t.setColor .black)
  | t, p :: path =>
      if p.color = .black then some ((plug t (p :: path)).setColor .black)
      else match path with
        | [] => none
        | g :: path =>
            if g.sibling.isRed then insertColor (recolor t p g) path
            else some ((plug (rotateUp t p g) path).setColor .black)

/-- Link a new red node at a free place and repair. -/
def linkAndBalance (v : α) (path : Path α) : Option (Rb α) :=
  insertColor (node .red nil v nil) path

theorem toList_rotateUp (t : Rb α) (p g : Frame α) :
    (rotateUp t p g).toList = (g.attach (p.attach t)).toList := by
  cases hg : g.side <;> cases hp : p.side <;>
    simp [rotateUp, hg, hp, Frame.attach, toList]

theorem toList_recolor (t : Rb α) (p g : Frame α) :
    (recolor t p g).toList = (g.attach (p.attach t)).toList := by
  cases hg : g.side <;> cases hp : p.side <;> simp [recolor, hg, hp, Frame.attach, toList]

theorem toList_plug_congr (path : Path α) (h : t.toList = t'.toList) :
    (plug t path).toList = (plug t' path).toList := by
  rw [toList_plug, toList_plug, h]

def TopBlack (path : Path α) : Prop := ∀ f, path.getLast? = some f → f.color = .black

theorem insertColor_spec (t : Rb α) (path : Path α) (h : TopBlack path) :
    ∃ t', insertColor t path = some t' ∧ t'.toList = (plug t path).toList ∧ t'.isRed = false := by
  induction path using List.twoStepInduction generalizing t with
  | nil => exact ⟨t.setColor .black, rfl, by simp [plug], by simp⟩
  | singleton p =>
    have hp : p.color = .black := h p rfl
    exact ⟨_, by rw [insertColor, if_pos hp], by simp, by simp⟩
  | cons_cons p g path ih _ =>
    rw [insertColor]
    by_cases hp : p.color = .black
    · exact ⟨_, by rw [if_pos hp], by simp, by simp⟩
    rw [if_neg hp]
    by_cases hu : g.sibling.isRed = true
    · have htop : TopBlack path := by
        intro f hf
        refine h f ?_
        cases path with
        | nil => cases hf
        | cons x path => simpa using hf
      obtain ⟨t', ht', hlist, hred⟩ := ih (recolor t p g) htop
      refine ⟨t', by simp only [hu]; exact ht', ?_, hred⟩
      rw [hlist]
      exact toList_plug_congr path (toList_recolor t p g)
    · refine ⟨_, by simp only [hu]; rfl, ?_, by simp⟩
      rw [toList_setColor]
      exact toList_plug_congr path (toList_rotateUp t p g)

theorem topBlack_of_plug (h : (plug t path).isRed = false) : TopBlack path := by
  induction path generalizing t with
  | nil => exact nofun
  | cons f path ih =>
    cases path with
    | nil =>
      intro g hg
      obtain rfl : f = g := by simpa using hg
      cases hc : f.color with
      | black => rfl
      | red => cases hs : f.side <;> simp [plug, Frame.attach, hs, hc, isRed] at h
    | cons g path =>
      intro x hx
      exact ih h x (by simpa using hx)

/-- Inserting in its place adds the value there and keeps the tree ascending. -/
theorem linkAndBalance_spec (v : α) (hp : Place f (f v) t path) (ht : t.isRed = false)
    (hs : t.toList.Pairwise (fun a b => f a < f b)) : ∃ t', linkAndBalance v path = some t' ∧
      t'.toList = before path ++ v :: after path ∧ t'.isRed = false ∧
      t'.toList.Pairwise (fun a b => f a < f b) := by
  obtain ⟨t', ht', hlist, hred⟩ :=
    insertColor_spec (node .red nil v nil) path (topBlack_of_plug (hp.plug ▸ ht))
  have hin : t'.toList = before path ++ v :: after path := by
    rw [hlist, toList_plug]
    simp [Rb.toList]
  refine ⟨t', ht', hin, hred, ?_⟩
  rw [hp.toList, List.pairwise_append] at hs
  rw [hin, List.pairwise_append, List.pairwise_cons]
  refine ⟨hs.1, ⟨hp.after, hs.2.1⟩, fun a ha b hb => ?_⟩
  rcases List.mem_cons.mp hb with rfl | hb
  · exact hp.before a ha
  · exact hs.2.2 a ha b hb

end RbTree

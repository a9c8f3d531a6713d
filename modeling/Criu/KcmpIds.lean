import Mathlib.Algebra.Group.Nat.Defs
import Mathlib.Data.Finset.Card
import Mathlib.Data.Prod.Lex
import Criu.Lib.RbTree

/-!
Numbers for kernel objects that tasks share (criu/kcmp-ids.c). A first tree is ordered by the
general id, which comes from fstat; below each of its entries a second tree holds the elements
with that general id, ordered by `kcmp`. A call finds the number of an object that was seen
before or gives it the next one.
-/

namespace Criu.KcmpIds

open RbTree List

/-- `struct kid_elem`: where to look for the object. -/
structure KidElem where
  pid : ℕ
  genid : ℕ
  idx : ℕ
deriving DecidableEq, Repr

/-- What `kcmp` returns: 0, 1, 2, or something else. -/
inductive Kcmp
  | equal
  | less
  | greater
  | failed
deriving DecidableEq, Repr

structure SubEntry where
  subid : ℕ
  elem : KidElem
deriving DecidableEq, Repr

/-- A `struct kid_entry` as a node of the tree; it is in its own subtree. -/
structure KidEntry where
  elem : KidElem
  subtree : Rb SubEntry

structure KidTree where
  root : Rb KidEntry
  subid : ℕ

def emptyTree : KidTree := ⟨.nil, 1⟩

/-- A `BUG_ON` that is met, or a null pointer that is followed. -/
inductive Fault
  | bug
  | null
deriving DecidableEq, Repr

/-- The number of a new entry, which is cut to 32 bits. -/
def allocKidEntry (tree : KidTree) (elem : KidElem) : Except Fault (KidTree × SubEntry) :=
  let subid := tree.subid % 2 ^ 32
  if subid = 0 then .error .bug
  else .ok ({ tree with subid := (tree.subid + 1) % 2 ^ 64 }, ⟨subid, elem⟩)

/-- From a smaller object the search goes left, from a greater one right. -/
def subSide : Kcmp → Option Ordering
  | .less => some .lt
  | .greater => some .gt
  | .equal => some .eq
  | .failed => none

def genSide (genid : ℕ) (this : KidEntry) : Option Ordering :=
  some (compare genid this.elem.genid)

def orNull {α : Type} : Option α → Except Fault α
  | some a => .ok a
  | none => .error .null

/-- The number, whether it is new, and the tree and subtree after the call. -/
def kidGenerateSub (kcmp : KidElem → KidElem → Kcmp) (tree : KidTree) (e : KidEntry)
    (elem : KidElem) : Except Fault (ℕ × Bool × KidTree × Rb SubEntry) :=
  if e.subtree.toList = [] then .error .bug
  else match descend (fun this => subSide (kcmp this.elem elem)) e.subtree [] with
    | .found _ _ _ this _ => .ok (this.subid, false, tree, e.subtree)
    | .failed => .ok (0, false, tree, e.subtree)
    | .missing path => do
        let (tree', sub) ← allocKidEntry tree elem
        let subtree ← orNull (linkAndBalance sub path)
        .ok (sub.subid, true, tree', subtree)

def kidGenerateGen (kcmp : KidElem → KidElem → Kcmp) (tree : KidTree) (elem : KidElem) :
    Except Fault (ℕ × Bool × KidTree) :=
  match descend (genSide elem.genid) tree.root [] with
  | .found path c l e r => do
      let (id, new, tree', subtree) ← kidGenerateSub kcmp tree e elem
      .ok (id, new, { tree' with root := plug (.node c l { e with subtree := subtree } r) path })
  | .missing path => do
      let (tree', sub) ← allocKidEntry tree elem
      let subtree ← orNull (linkAndBalance sub [])
      let root ← orNull (linkAndBalance ⟨elem, subtree⟩ path)
      .ok (sub.subid, true, { tree' with root := root })
  | .failed => .error .bug

/-- `kid_lookup_epoll_tfd`; the oracle compares an element with the target of the slot. -/
def kidLookupEpollTfd (kcmpTfd : KidElem → Kcmp) (genid : ℕ) (tree : KidTree) : Option KidElem :=
  match descend (genSide genid) tree.root [] with
  | .found _ _ _ e _ =>
      match descend (fun this => subSide (kcmpTfd this.elem)) e.subtree [] with
      | .found _ _ _ this _ => some this.elem
      | _ => none
  | _ => none

structure Call where
  elem : KidElem
  id : ℕ
  newId : Bool
deriving DecidableEq, Repr

def generateAll (kcmp : KidElem → KidElem → Kcmp) :
    List KidElem → KidTree → Except Fault (KidTree × List Call)
  | [], tree => .ok (tree, [])
  | elem :: elems, tree => do
      let (id, new, tree') ← kidGenerateGen kcmp tree elem
      let (tree'', calls) ← generateAll kcmp elems tree'
      .ok (tree'', ⟨elem, id, new⟩ :: calls)

/-! ### The kernel's side -/

def ofOrdering : Ordering → Kcmp
  | .lt => .less
  | .eq => .equal
  | .gt => .greater

variable {Obj : Type} [LinearOrder Obj]

/-- The objects behind the elements. They have a fixed order, by which `kcmp` compares those with
the same general id; the general id belongs to the object. -/
structure Kernel (Obj : Type) [LinearOrder Obj] where
  obj : KidElem → Obj
  kcmp : KidElem → KidElem → Kcmp
  kcmp_obj : ∀ a b, a.genid = b.genid → kcmp a b = ofOrdering (compare (obj a) (obj b))
  genid_obj : ∀ a b, obj a = obj b → a.genid = b.genid

structure Slot (k : Kernel Obj) where
  target : Obj
  genid : ℕ
  kcmpTfd : KidElem → Kcmp
  kcmp_target : ∀ a, a.genid = genid → kcmpTfd a = ofOrdering (compare (k.obj a) target)
  genid_target : ∀ a, k.obj a = target → a.genid = genid

/-- Objects that are told apart by the general id and the index. -/
example : Nonempty (Kernel (ℕ ×ₗ ℕ)) :=
  ⟨{ obj := fun e => toLex (e.genid, e.idx)
     kcmp := fun a b => ofOrdering (compare (toLex (a.genid, a.idx)) (toLex (b.genid, b.idx)))
     kcmp_obj := fun _ _ _ => rfl
     genid_obj := fun _ _ h => congrArg Prod.fst (toLex.injective h) }⟩

/-! ### What the trees hold -/

/-- The elements of a subtree have the general id of its entry and stand for different objects. -/
structure SubOk (k : Kernel Obj) (e : KidEntry) : Prop where
  black : e.subtree.isRed = false
  occupied : e.subtree.toList ≠ []
  sorted : e.subtree.toList.Pairwise (fun a b => k.obj b.elem < k.obj a.elem)
  genid : ∀ s ∈ e.subtree.toList, s.elem.genid = e.elem.genid

/-- The trees after some calls: `seen` has the first element of each object, and its number is its
place in that list. -/
structure Ids (k : Kernel Obj) (t : KidTree) (seen : List KidElem) : Prop where
  black : t.root.isRed = false
  sorted : t.root.toList.Pairwise (fun a b => a.elem.genid < b.elem.genid)
  sub : ∀ e ∈ t.root.toList, SubOk k e
  subid : t.subid = seen.length + 1
  small : seen.length < 2 ^ 32
  entries : ∀ s, (∃ e ∈ t.root.toList, s ∈ e.subtree.toList) ↔
    1 ≤ s.subid ∧ seen[s.subid - 1]? = some s.elem
  distinct : (seen.map k.obj).Nodup

variable {k : Kernel Obj} {t : KidTree} {seen : List KidElem} {elem : KidElem}

theorem ids_empty (k : Kernel Obj) : Ids k emptyTree [] := by
  refine ⟨rfl, List.Pairwise.nil, nofun, rfl, by decide, fun s => ?_, nodup_nil⟩
  simp [emptyTree, Rb.toList]

@[simp] theorem subSide_ofOrdering (o : Ordering) : subSide (ofOrdering o) = some o := by
  cases o <;> rfl

variable {e : KidEntry} {subtree : Rb SubEntry} {x : KidElem}

theorem SubOk.search (he : SubOk k e) {cmp : KidElem → Kcmp} {o : Obj}
    (hcmp : ∀ a, a.genid = e.elem.genid → cmp a = ofOrdering (compare (k.obj a) o)) :
    (∃ path c l this r, descend (fun s => subSide (cmp s.elem)) e.subtree [] =
        .found path c l this r ∧ plug (.node c l this r) path = e.subtree ∧
        this ∈ e.subtree.toList ∧ OrderDual.toDual (k.obj this.elem) = OrderDual.toDual o) ∨
    (∃ path, descend (fun s => subSide (cmp s.elem)) e.subtree [] = .missing path ∧
      Place (fun s => OrderDual.toDual (k.obj s.elem)) (OrderDual.toDual o) e.subtree path) := by
  refine descend_ascending he.sorted fun s hs => ?_
  rw [hcmp s.elem (he.genid s hs), subSide_ofOrdering]
  rfl

/-- Which numbers the entries have once one more element has the next number. -/
theorem entries_append {P : SubEntry → Prop} (hP : ∀ s, P s ↔
    1 ≤ s.subid ∧ seen[s.subid - 1]? = some s.elem) (elem : KidElem) (s : SubEntry) :
    (P s ∨ s = ⟨seen.length + 1, elem⟩) ↔
      1 ≤ s.subid ∧ (seen ++ [elem])[s.subid - 1]? = some s.elem := by
  rw [hP]
  constructor
  · rintro (⟨h1, h2⟩ | rfl)
    · refine ⟨h1, ?_⟩
      rw [getElem?_append_left (List.getElem?_eq_some_iff.mp h2).1]
      exact h2
    · exact ⟨by simp, by simp⟩
  rintro ⟨h1, h2⟩
  rcases Nat.lt_or_ge (s.subid - 1) seen.length with hlt | hge
  · rw [getElem?_append_left hlt] at h2
    exact .inl ⟨h1, h2⟩
  rw [getElem?_append_right hge, getElem?_singleton] at h2
  split at h2
  · have hid : s.subid = seen.length + 1 := by omega
    rw [Option.some.inj h2, ← hid]
    exact .inr rfl
  · cases h2

section

variable (h : Ids k t seen)
include h

theorem Ids.search (genid : ℕ) :
    (∃ path c l e r, descend (genSide genid) t.root [] = .found path c l e r ∧
      plug (.node c l e r) path = t.root ∧ e ∈ t.root.toList ∧ e.elem.genid = genid) ∨
    (∃ path, descend (genSide genid) t.root [] = .missing path ∧
      Place (fun e => e.elem.genid) genid t.root path) :=
  descend_ascending h.sorted fun _ _ => rfl

theorem Ids.entry_unique {e' : KidEntry} (he : e ∈ t.root.toList)
    (he' : e' ∈ t.root.toList) (hg : e.elem.genid = e'.elem.genid) : e = e' := by
  have hnd : (t.root.toList.map (fun e => e.elem.genid)).Nodup :=
    pairwise_map.mpr (h.sorted.imp Nat.ne_of_lt)
  exact inj_on_of_nodup_map hnd he he' hg

/-- An object that is not in the subtree of its general id was not seen. -/
theorem Ids.not_seen {genid : ℕ} {o : Obj}
    (hgen : ∀ a, k.obj a = o → a.genid = genid) (hne : ∀ e ∈ t.root.toList,
      e.elem.genid = genid → ∀ s ∈ e.subtree.toList, k.obj s.elem ≠ o) : o ∉ seen.map k.obj := by
  intro hm
  obtain ⟨x, hx, hobj⟩ := mem_map.mp hm
  -- an element that was seen is in the subtree of its general id
  obtain ⟨i, hi⟩ := getElem?_of_mem hx
  obtain ⟨e, he, hs⟩ := (h.entries ⟨i + 1, x⟩).mpr ⟨Nat.succ_pos i, hi⟩
  exact hne e he (((h.sub e he).genid _ hs).symm.trans (hgen _ hobj)) _ hs hobj

theorem allocKidEntry_spec (elem : KidElem) : (seen.length + 1 < 2 ^ 32 ∧ allocKidEntry t elem =
      .ok ({ t with subid := seen.length + 2 }, ⟨seen.length + 1, elem⟩)) ∨
    (seen.length + 1 = 2 ^ 32 ∧ allocKidEntry t elem = .error .bug) := by
  have hsmall := h.small
  rw [allocKidEntry, h.subid]
  rcases Nat.lt_or_ge (seen.length + 1) (2 ^ 32) with hlt | hge
  · refine .inl ⟨hlt, ?_⟩
    rw [Nat.mod_eq_of_lt hlt, if_neg (Nat.succ_ne_zero _),
      Nat.mod_eq_of_lt (by omega)]
  · have heq : seen.length + 1 = 2 ^ 32 := by omega
    refine .inr ⟨heq, ?_⟩
    rw [heq, Nat.mod_self, if_pos rfl]

theorem Ids.distinct_append (hnew : k.obj elem ∉ seen.map k.obj) :
    ((seen ++ [elem]).map k.obj).Nodup := by
  rw [map_append, map_singleton, ← concat_eq_append]
  exact List.Nodup.concat hnew h.distinct

theorem Ids.extend_sub (hsmall : seen.length + 1 < 2 ^ 32) {path : Path KidEntry}
    {c : Color} {l r : Rb KidEntry} (hplug : plug (.node c l e r) path = t.root)
    (hg : e.elem.genid = elem.genid) (hnew : k.obj elem ∉ seen.map k.obj) {as bs : List SubEntry}
    (hold : e.subtree.toList = as ++ bs)
    (hlist : subtree.toList = as ++ ⟨seen.length + 1, elem⟩ :: bs) (hblack : subtree.isRed = false)
    (hsorted : subtree.toList.Pairwise (fun a b => k.obj b.elem < k.obj a.elem)) :
    Ids k ⟨plug (.node c l { e with subtree := subtree } r) path, seen.length + 2⟩
      (seen ++ [elem]) := by
  have hroot : t.root.toList = before path ++ l.toList ++ e :: (r.toList ++ after path) := by
    rw [← hplug, toList_plug]
    simp [Rb.toList]
  have hroot' : (plug (.node c l { e with subtree := subtree } r) path).toList =
      before path ++ l.toList ++ { e with subtree := subtree } :: (r.toList ++ after path) := by
    rw [toList_plug]
    simp [Rb.toList]
  generalize before path ++ l.toList = xs at hroot hroot'
  generalize r.toList ++ after path = ys at hroot hroot'
  have he : e ∈ t.root.toList := by rw [hroot]; simp
  have hsub := h.sub e he
  refine ⟨?_, ?_, ?_, by simp, by simpa using hsmall, fun s => ?_, h.distinct_append hnew⟩
  · have hred : (Rb.node c l { e with subtree := subtree } r).isRed =
        (Rb.node c l e r).isRed := by
      cases c <;> rfl
    rw [isRed_plug_congr path hred, hplug]
    exact h.black
  · have hs := h.sorted
    rw [hroot] at hs
    rw [hroot']
    simpa only [pairwise_append, pairwise_cons, mem_cons, forall_eq_or_imp] using hs
  · rw [hroot']
    obtain ⟨hxs, hys⟩ := forall_mem_append.mp (hroot ▸ h.sub)
    refine forall_mem_append.mpr ⟨hxs, forall_mem_cons.mpr ⟨?_, (forall_mem_cons.mp hys).2⟩⟩
    refine ⟨hblack, by simp [hlist], hsorted, ?_⟩
    rw [hlist]
    obtain ⟨has, hbs⟩ := forall_mem_append.mp (hold ▸ hsub.genid)
    exact forall_mem_append.mpr ⟨has, forall_mem_cons.mpr ⟨hg.symm, hbs⟩⟩
  · rw [← entries_append h.entries, hroot, hroot']
    simp only [mem_append, mem_cons, or_and_right, exists_or, exists_eq_left, hlist, hold,
      or_assoc, or_left_comm, or_comm]

theorem Ids.extend_root (hsmall : seen.length + 1 < 2 ^ 32)
    (hnew : k.obj elem ∉ seen.map k.obj) {root : Rb KidEntry}
    {as bs : List KidEntry} (hold : t.root.toList = as ++ bs)
    (hlist : root.toList = as ++ ⟨elem, subtree⟩ :: bs) (hblack : root.isRed = false)
    (hsub : subtree.toList = [⟨seen.length + 1, elem⟩]) (hsubBlack : subtree.isRed = false)
    (hsorted : root.toList.Pairwise (fun a b => a.elem.genid < b.elem.genid)) :
    Ids k ⟨root, seen.length + 2⟩ (seen ++ [elem]) := by
  refine ⟨hblack, hsorted, ?_, by simp, by simpa using hsmall, fun s => ?_, h.distinct_append hnew⟩
  · rw [hlist]
    obtain ⟨has, hbs⟩ := forall_mem_append.mp (hold ▸ h.sub)
    refine forall_mem_append.mpr ⟨has, forall_mem_cons.mpr ⟨?_, hbs⟩⟩
    refine ⟨hsubBlack, by simp [hsub], by simp [hsub], fun s hs => ?_⟩
    rw [hsub, mem_singleton] at hs
    rw [hs]
  · rw [← entries_append h.entries, hold, hlist]
    simp only [mem_append, mem_cons, or_and_right, exists_or, exists_eq_left, hsub,
      not_mem_nil, false_or, or_left_comm, or_comm]

/-- What is stored after a call for `elem`. -/
def see (k : Kernel Obj) (seen : List KidElem) (elem : KidElem) : List KidElem :=
  if k.obj elem ∈ seen.map k.obj then seen else seen ++ [elem]

/-- What a call does: it finds the number of an object that was seen, or gives a new object the
next one, of which there are `2 ^ 32 - 1`. -/
theorem kidGenerateGen_spec (elem : KidElem) :
    (∃ id new x t', kidGenerateGen k.kcmp t elem = .ok (id, new, t') ∧ 1 ≤ id ∧
      (see k seen elem)[id - 1]? = some x ∧ k.obj x = k.obj elem ∧
      (new = true ↔ k.obj elem ∉ seen.map k.obj) ∧ Ids k t' (see k seen elem)) ∨
    (k.obj elem ∉ seen.map k.obj ∧ seen.length + 1 = 2 ^ 32 ∧
      kidGenerateGen k.kcmp t elem = .error .bug) := by
  have hgen : ∀ a, k.obj a = k.obj elem → a.genid = elem.genid := fun a => k.genid_obj a elem
  rcases h.search elem.genid with ⟨path, c, l, e, r, hd, hplug, he, hg⟩ | ⟨path, hd, hplace⟩
  · have hsub := h.sub e he
    have hcmp : ∀ a, a.genid = e.elem.genid →
        k.kcmp a elem = ofOrdering (compare (k.obj a) (k.obj elem)) :=
      fun a ha => k.kcmp_obj a elem (ha.trans hg)
    rw [kidGenerateGen, hd]
    simp only [kidGenerateSub, hsub.occupied, if_false]
    rcases hsub.search hcmp with ⟨path', c', l', this, r', hd', -, hmem, hobj⟩ |
      ⟨path', hd', hplace⟩
    · obtain ⟨h1, h2⟩ := (h.entries this).mp ⟨e, he, hmem⟩
      have hmem : k.obj elem ∈ seen.map k.obj := mem_map.mpr ⟨_, mem_of_getElem? h2, hobj⟩
      rw [see, if_pos hmem]
      refine .inl ⟨this.subid, false, this.elem, t, ?_, h1, h2, hobj, by simp [hmem], h⟩
      simp only [hd', bind, Except.bind, hplug]
    have hnew : k.obj elem ∉ seen.map k.obj := h.not_seen hgen fun e' he' hg' s hs => by
      rw [h.entry_unique he' he (hg'.trans hg.symm)] at hs
      exact hplace.ne hs
    rcases allocKidEntry_spec h elem with ⟨hsmall, ha⟩ | ⟨hlast, ha⟩
    · obtain ⟨subtree, hl, hlist, hblack, hsorted⟩ :=
        linkAndBalance_spec (⟨seen.length + 1, elem⟩) hplace hsub.black hsub.sorted
      rw [see, if_neg hnew]
      refine .inl ⟨seen.length + 1, true, elem, _, ?_, Nat.succ_pos _, by simp, rfl, by simp [hnew],
        h.extend_sub hsmall hplug hg hnew hplace.toList hlist hblack hsorted⟩
      simp only [hd', ha, hl, bind, Except.bind, orNull]
    · refine .inr ⟨hnew, hlast, ?_⟩
      simp only [hd', ha, bind, Except.bind]
  · have hnew : k.obj elem ∉ seen.map k.obj :=
      h.not_seen hgen fun e he hg => absurd hg (hplace.ne he)
    rw [kidGenerateGen, hd]
    rcases allocKidEntry_spec h elem with ⟨hsmall, ha⟩ | ⟨hlast, ha⟩
    · have hnil : Place SubEntry.subid (seen.length + 1) .nil [] :=
        ⟨rfl, nofun, nofun⟩
      obtain ⟨subtree, hl, hlist, hblack, -⟩ :=
        linkAndBalance_spec (⟨seen.length + 1, elem⟩ : SubEntry) hnil rfl .nil
      obtain ⟨root, hl', hlist', hblack', hsorted⟩ :=
        linkAndBalance_spec (⟨elem, subtree⟩) hplace h.black h.sorted
      rw [see, if_neg hnew]
      refine .inl ⟨seen.length + 1, true, elem, _, ?_, Nat.succ_pos _, by simp, rfl, by simp [hnew],
        h.extend_root hsmall hnew hplace.toList hlist' hblack' hlist hblack hsorted⟩
      simp only [ha, hl, hl', bind, Except.bind, orNull]
    · refine .inr ⟨hnew, hlast, ?_⟩
      simp only [ha, bind, Except.bind]

/-! ### Whole runs -/

end

/-- What a run of calls from the trees of `seen` leaves behind and returns. -/
structure Ran (k : Kernel Obj) (seen es : List KidElem) (calls : List Call)
    (seen' : List KidElem) : Prop where
  elems : calls.map Call.elem = es
  stored : ∀ o, seen'.find? (fun x => k.obj x = o) = (seen ++ es).find? (fun x => k.obj x = o)
  number : ∀ c ∈ calls, 1 ≤ c.id ∧ ∃ x, seen'[c.id - 1]? = some x ∧ k.obj x = k.obj c.elem
  first : ∀ pre c post, calls = pre ++ c :: post →
    (c.newId = true ↔ k.obj c.elem ∉ seen.map k.obj ∧ ∀ d ∈ pre, k.obj d.elem ≠ k.obj c.elem)
  grows : seen <+: seen'

theorem prefix_see (k : Kernel Obj) (seen : List KidElem) (elem : KidElem) :
    seen <+: see k seen elem := by
  rw [see]
  split
  · exact prefix_rfl
  · exact prefix_append seen [elem]

theorem mem_map_see (k : Kernel Obj) (seen : List KidElem) (elem : KidElem) (o : Obj) :
    o ∈ (see k seen elem).map k.obj ↔ o ∈ seen.map k.obj ∨ o = k.obj elem := by
  rw [see]
  split
  case isTrue hmem => exact ⟨.inl, fun ho => ho.elim (fun h => h) fun h => h ▸ hmem⟩
  case isFalse => simp only [map_append, map_singleton, mem_append,
    mem_singleton]

theorem find_see (k : Kernel Obj) (seen : List KidElem) (elem : KidElem) (o : Obj) :
    (see k seen elem).find? (fun x => k.obj x = o) =
      (seen ++ [elem]).find? (fun x => k.obj x = o) := by
  rw [see]
  split
  case isFalse => rfl
  case isTrue hmem =>
    rw [find?_append]
    cases hfind : seen.find? (fun x => k.obj x = o) with
    | some x => rfl
    | none =>
      -- nothing of this object is stored, so `elem` is not of it either
      have hne : k.obj elem ≠ o := by
        obtain ⟨x, hx, hobj⟩ := mem_map.mp hmem
        simpa [hobj] using find?_eq_none.mp hfind x hx
      simp [hne]

theorem Ran.cons {seen' es : List KidElem} {calls : List Call} {id : ℕ} {new : Bool}
    (h : Ran k (see k seen elem) es calls seen') (hid : 1 ≤ id)
    (hx : (see k seen elem)[id - 1]? = some x) (hobj : k.obj x = k.obj elem)
    (hnew : new = true ↔ k.obj elem ∉ seen.map k.obj) :
    Ran k seen (elem :: es) (⟨elem, id, new⟩ :: calls) seen' where
  elems := by rw [map_cons, h.elems]
  stored o := by
    rw [h.stored, find?_append, find_see, ← find?_append, append_assoc, singleton_append]
  number c hc := by
    rcases mem_cons.mp hc with rfl | hc
    · obtain ⟨later, rfl⟩ := h.grows
      refine ⟨hid, x, ?_, hobj⟩
      rw [getElem?_append_left (List.getElem?_eq_some_iff.mp hx).1]
      exact hx
    · exact h.number c hc
  first pre c post heq := by
    cases pre with
    | nil =>
      obtain ⟨rfl, -⟩ := List.cons.inj heq
      simpa using hnew
    | cons d pre =>
      obtain ⟨rfl, hcalls⟩ := List.cons.inj heq
      rw [h.first pre c post hcalls, mem_map_see, not_or, forall_mem_cons, and_assoc]
      exact and_congr_right fun _ => and_congr_left fun _ => ne_comm
  grows := (prefix_see k seen elem).trans h.grows

theorem generateAll_spec (es : List KidElem) (h : Ids k t seen) :
    (∃ t' calls seen', generateAll k.kcmp es t = .ok (t', calls) ∧ Ids k t' seen' ∧
      Ran k seen es calls seen') ∨
    (generateAll k.kcmp es t = .error .bug ∧ 2 ^ 32 ≤ ((seen ++ es).map k.obj).toFinset.card) := by
  induction es generalizing t seen with
  | nil => exact .inl ⟨t, [], seen, rfl, h,
      ⟨rfl, fun o => by rw [append_nil], nofun, fun pre c post h => by simp at h, prefix_rfl⟩⟩
  | cons elem es ih =>
    rcases kidGenerateGen_spec h elem with
      ⟨id, new, x, t', hgen, hid, hx, hobj, hnew, h'⟩ | ⟨hnew, hfull, hgen⟩
    · rcases ih h' with ⟨t'', calls, seen', hall, hids, hran⟩ | ⟨hall, hcard⟩
      · refine .inl ⟨t'', ⟨elem, id, new⟩ :: calls, seen', ?_, hids,
          hran.cons hid hx hobj hnew⟩
        simp only [generateAll, hgen, hall, bind, Except.bind]
      refine .inr ⟨by simp only [generateAll, hgen, hall, bind, Except.bind],
        hcard.trans (Finset.card_le_card fun o ho => ?_)⟩
      rw [mem_toFinset, map_append, mem_append] at ho ⊢
      rw [mem_map_see] at ho
      rw [map_cons, mem_cons]
      exact or_assoc.mp ho
    · refine .inr ⟨by simp only [generateAll, hgen, bind, Except.bind], ?_⟩
      have hnd := toFinset_card_of_nodup (h.distinct_append hnew)
      rw [length_map, length_append, length_singleton, hfull] at hnd
      rw [← hnd]
      refine Finset.card_le_card fun o ho => ?_
      rw [mem_toFinset, map_append, mem_append] at ho ⊢
      refine ho.imp_right fun ho => ?_
      exact mem_cons.mpr (.inl (mem_singleton.mp ho))

/-- A search by slot finds what is stored for its target. -/
theorem kidLookupEpollTfd_spec (h : Ids k t seen) (slot : Slot k) :
    kidLookupEpollTfd slot.kcmpTfd slot.genid t = seen.find? (fun x => k.obj x = slot.target) := by
  have hnone : slot.target ∉ seen.map k.obj →
      seen.find? (fun x => k.obj x = slot.target) = none := by
    intro hne
    refine find?_eq_none.mpr fun x hx hobj => ?_
    exact hne (mem_map.mpr ⟨x, hx, of_decide_eq_true hobj⟩)
  rw [kidLookupEpollTfd]
  rcases h.search slot.genid with ⟨path, c, l, e, r, hd, -, he, hg⟩ | ⟨path, hd, hplace⟩
  · simp only [hd]
    rcases (h.sub e he).search fun a ha => slot.kcmp_target a (ha.trans hg) with
      ⟨path', c', l', this, r', hd', -, hmem, hobj⟩ | ⟨path', hd', hplace⟩
    · simp only [hd']
      have hobj : k.obj this.elem = slot.target := hobj
      obtain ⟨-, hx⟩ := (h.entries this).mp ⟨e, he, hmem⟩
      have hin : this.elem ∈ seen := mem_of_getElem? hx
      cases hfind : seen.find? (fun x => k.obj x = slot.target) with
      | none => simpa [hobj] using find?_eq_none.mp hfind this.elem hin
      | some y =>
        have hy : k.obj y = slot.target := by simpa using find?_some hfind
        rw [inj_on_of_nodup_map h.distinct hin (mem_of_find?_eq_some hfind) (hobj.trans hy.symm)]
    · simp only [hd']
      refine (hnone (h.not_seen slot.genid_target fun e' he' hg' s hs => ?_)).symm
      rw [h.entry_unique he' he (hg'.trans hg.symm)] at hs
      exact hplace.ne hs
  · simp only [hd]
    exact (hnone (h.not_seen slot.genid_target fun e he hg => absurd hg (hplace.ne he))).symm

/-- The numbers tell the objects apart, the mark is on the first call for an object, and a search
finds the element that call stored. -/
structure Exact (k : Kernel Obj) (es : List KidElem) (t : KidTree) (calls : List Call) :
    Prop where
  elems : calls.map Call.elem = es
  nonzero : ∀ c ∈ calls, c.id ≠ 0
  same : ∀ c ∈ calls, ∀ d ∈ calls, c.id = d.id ↔ k.obj c.elem = k.obj d.elem
  first : ∀ pre c post, calls = pre ++ c :: post →
    (c.newId = true ↔ ∀ d ∈ pre, k.obj d.elem ≠ k.obj c.elem)
  lookup : ∀ slot : Slot k, kidLookupEpollTfd slot.kcmpTfd slot.genid t =
    es.find? (fun e => k.obj e = slot.target)

/-- Any sequence of calls on one tree gives exact numbers; the only other end is the `BUG_ON` once
the numbers of 32 bits are used up. -/
theorem shared_ids_exact (k : Kernel Obj) (es : List KidElem) :
    (∃ t calls, generateAll k.kcmp es emptyTree = .ok (t, calls) ∧ Exact k es t calls) ∨
    (generateAll k.kcmp es emptyTree = .error .bug ∧
      2 ^ 32 ≤ (es.map k.obj).toFinset.card) := by
  rcases generateAll_spec es (ids_empty k) with ⟨t, calls, seen, hall, hids, hran⟩ | hfull
  · refine .inl ⟨t, calls, hall, hran.elems, fun c hc => ?_, fun c hc d hd => ?_,
      fun pre c post heq => ?_, fun slot => ?_⟩
    · exact Nat.ne_of_gt (hran.number c hc).1
    · obtain ⟨hc1, x, hx, hxo⟩ := hran.number c hc
      obtain ⟨hd1, y, hy, hyo⟩ := hran.number d hd
      constructor
      · intro heq
        rw [heq, hy] at hx
        rw [← hxo, ← hyo, Option.some.inj hx]
      intro heq
      have hxy : (seen.map k.obj)[c.id - 1]? = (seen.map k.obj)[d.id - 1]? := by
        rw [getElem?_map, getElem?_map, hx, hy, Option.map_some, Option.map_some, hxo, hyo, heq]
      have hlt : c.id - 1 < (seen.map k.obj).length := by
        rw [length_map]
        exact (List.getElem?_eq_some_iff.mp hx).1
      have := (getElem?_inj hlt hids.distinct).mp hxy
      omega
    · simpa using hran.first pre c post heq
    · rw [kidLookupEpollTfd_spec hids, hran.stored, nil_append]
  · exact .inr hfull

end Criu.KcmpIds

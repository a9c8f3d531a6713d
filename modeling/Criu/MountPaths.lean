import Criu.MountCheck

/-!
Paths of mountpoints as strings (criu/util.c, criu/include/util.h). A normalized path is a list of
components, written with one slash before each and, in what `/proc` shows, with a dot in front. On
such strings `get_relative_path` and `issubpath` are tests for prefixes of components.
-/

namespace Criu.MountPaths

open List

variable {n : ℕ} {skip : Bool}

abbrev Bytes := List (Fin 256)

variable {o : Option Bytes}

abbrev Comp := { c : List (Fin 256) // c ≠ [] ∧ 47 ∉ c ∧ c ≠ [46] }

def body : List Comp → List (Fin 256)
  | [] => []
  | c :: p => 47 :: (c.1 ++ body p)

def render (dot : Bool) (p : List Comp) : List (Fin 256) :=
  (if dot then [46] else []) ++ if p.isEmpty then [47] else body p

def atEnd : List (Fin 256) → Bool
  | [] => true
  | b :: _ => b = 47

def skipSlashes : List (Fin 256) → List (Fin 256)
  | [] => []
  | b :: s => if b = 47 ∨ b = 46 ∧ atEnd s then skipSlashes s else b :: s

/-- The loop of `get_relative_path`; `none` is NULL. -/
def relLoop : ℕ → List (Fin 256) → List (Fin 256) → Bool → Option (List (Fin 256))
  | 0, _, _, _ => none
  | n + 1, path, sub, skip =>
      let skip := skip || atEnd path && atEnd sub
      match if skip then skipSlashes sub else sub, if skip then skipSlashes path else path with
      | [], path => if skip then some path else none
      | _ :: _, [] => none
      | b :: sub, a :: path => if a = b then relLoop n path sub false else none

/-- Each pass but the last takes a byte of the path. -/
def getRelativePath (path sub : List (Fin 256)) : Option (List (Fin 256)) :=
  relLoop (path.length + 1) path sub true

/-- `issubpath`; the last component matches in full, or `sub` ends with a slash. -/
def issubpath (path sub : List (Fin 256)) : Bool :=
  sub.isPrefixOf path && (sub.getLast? == some 47 || atEnd (path.drop sub.length))

def components (s : Bytes) : List Bytes :=
  (s.splitOn 47).filter fun c => c ≠ [] ∧ c ≠ [46]

section
variable {p q : List Comp} {c s t u v : Bytes}

theorem atEnd_body : atEnd (body p) = true := by
  cases p <;> rfl

theorem not_atEnd (hu : 47 ∉ u) (hne : u ≠ []) (v : Bytes) : atEnd (u ++ v) = false := by
  cases u with
  | nil => exact absurd rfl hne
  | cons b u => exact decide_eq_false fun h => hu (h ▸ mem_cons_self)

theorem components_slash (s : Bytes) : components (47 :: s) = components s := by
  have : (47 :: s).splitOn 47 = [] :: s.splitOn 47 :=
    @splitOnP_append_cons_of_forall_mem _ (· == 47) [] nofun 47 (beq_self_eq_true _) s
  rw [components, this, filter_cons_of_neg (by simp), components]

theorem components_append (hc : 47 ∉ c) (ht : atEnd t = true) :
    components (c ++ t) = (if c ≠ [] ∧ c ≠ [46] then [c] else []) ++ components t := by
  have hbytes : ∀ x ∈ c, (x == 47) = false := fun x hx => beq_false_of_ne fun he => hc (he ▸ hx)
  cases t with
  | nil =>
    rw [components, append_nil, splitOn, splitOnP_eq_singleton hbytes, filter_singleton]
    simp [components]
  | cons b t =>
    obtain rfl : b = 47 := of_decide_eq_true ht
    rw [components_slash, components, splitOn,
      splitOnP_append_cons_of_forall_mem hbytes 47 (beq_self_eq_true _)]
    split <;> simp_all [components, splitOn]

theorem exists_split (s : Bytes) : ∃ u t, s = u ++ t ∧ 47 ∉ u ∧ atEnd t = true := by
  induction s with
  | nil => exact ⟨[], [], rfl, not_mem_nil, rfl⟩
  | cons b s ih =>
    by_cases hb : b = 47
    · exact ⟨[], b :: s, rfl, not_mem_nil, decide_eq_true hb⟩
    · obtain ⟨u, t, rfl, hu, ht⟩ := ih
      exact ⟨b :: u, t, rfl, not_mem_cons_of_ne_of_not_mem (Ne.symm hb) hu, ht⟩

def Begins (s : Bytes) : Prop :=
  ∃ a u t, s = a :: (u ++ t) ∧ 47 ∉ a :: u ∧ atEnd t = true ∧
    components s = (a :: u) :: components t

theorem skipSlashes_spec (s : Bytes) :
    components (skipSlashes s) = components s ∧ skipSlashes s <:+ s ∧
      (skipSlashes s = [] ∨ Begins (skipSlashes s)) := by
  induction s with
  | nil => exact ⟨rfl, suffix_rfl, .inl rfl⟩
  | cons b s ih =>
    rw [skipSlashes]
    split_ifs with h
    · obtain ⟨hcomp, hsuffix, hbegins⟩ := ih
      refine ⟨hcomp.trans ?_, hsuffix.trans (suffix_cons b s), hbegins⟩
      rcases h with rfl | ⟨rfl, hend⟩
      · exact (components_slash s).symm
      · exact (components_append (c := [46]) (by decide) hend).symm
    refine ⟨rfl, suffix_rfl, .inr ?_⟩
    obtain ⟨u, t, rfl, hu, hend⟩ := exists_split s
    have hmem : 47 ∉ b :: u := by
      rw [mem_cons, not_or]
      exact ⟨fun hb => h (.inl hb.symm), hu⟩
    refine ⟨b, u, t, rfl, hmem, hend, ?_⟩
    have hproper : b :: u ≠ [46] := fun hdot => by
      cases hdot
      exact h (.inr ⟨rfl, hend⟩)
    rw [← cons_append, components_append hmem hend, if_pos ⟨cons_ne_nil _ _, hproper⟩]
    rfl

/-- What comes out for the components of a path and of a possible prefix. -/
def Answer (p q : List Bytes) : Option Bytes → Prop
  | none => ¬ q <+: p
  | some r => p = q ++ components r ∧ r.head? ≠ some 47

theorem Answer.cons {p q : List Bytes} (h : Answer p q o) (c : Bytes) :
    Answer (c :: p) (c :: q) o := by
  cases o with
  | none => exact fun hpre => h (cons_prefix_cons.mp hpre).2
  | some r => exact ⟨congrArg _ h.1, h.2⟩

theorem Answer.byte {p q : List Bytes}
    (h : Answer (u :: p) (v :: q) o) (a : Fin 256) : Answer ((a :: u) :: p) ((a :: v) :: q) o := by
  cases o with
  | none =>
    rintro hpre
    obtain ⟨heq, hpre⟩ := cons_prefix_cons.mp hpre
    exact h (cons_prefix_cons.mpr ⟨(List.cons.inj heq).2, hpre⟩)
  | some r =>
    obtain ⟨rfl, hp⟩ := List.cons.inj h.1
    exact ⟨congrArg _ hp, h.2⟩

theorem answer_none {p q : List Bytes} (h : u ≠ v) : Answer (u :: p) (v :: q) none :=
  fun hpre => h (cons_prefix_cons.mp hpre).1.symm

def Inside (n : ℕ) : Prop :=
  ∀ {u v s t : Bytes}, 47 ∉ u → 47 ∉ v → atEnd s = true → atEnd t = true →
    (u ++ s).length < n →
    Answer (u :: components s) (v :: components t) (relLoop n (u ++ s) (v ++ t) false)

/-- A pass of the loop at the beginning of components. -/
theorem relLoop_boundary (ih : Inside n)
    (hskip : (skip || atEnd s && atEnd t) = true) (hn : s.length ≤ n) :
    Answer (components s) (components t) (relLoop (n + 1) s t skip) := by
  unfold relLoop
  simp only [hskip]
  obtain ⟨hs, hsuffix, hsb⟩ := skipSlashes_spec s
  obtain ⟨ht, -, htb⟩ := skipSlashes_spec t
  rw [← hs, ← ht]
  rcases htb with htb | ⟨b, v, t', htb, hv, ht', hq⟩
  · rw [htb]
    refine ⟨rfl, ?_⟩
    rcases hsb with hsb | ⟨a, u, s', hsb, hu, -⟩
    · rw [hsb]
      nofun
    · rw [hsb]
      exact fun h => hu (Option.some.inj h ▸ mem_cons_self)
  rcases hsb with hsb | ⟨a, u, s', hsb, hu, hs', hp⟩
  · rw [hq, htb, hsb]
    exact fun h => by simpa [components] using h.length_le
  rw [hp, hq, hsb, htb]
  show Answer _ _ (if a = b then relLoop n (u ++ s') (v ++ t') false else none)
  rw [hsb] at hsuffix
  have hlen : (u ++ s').length < n := Nat.le_trans hsuffix.length_le hn
  split
  · next hab =>
    subst hab
    exact (ih (fun h => hu (mem_cons_of_mem _ h)) (fun h => hv (mem_cons_of_mem _ h)) hs' ht'
      hlen).byte a
  · next hab => exact answer_none fun h => hab (List.cons.inj h).1

/-- A pass of the loop that is not between two components on both sides. -/
theorem relLoop_inside (n : ℕ) (h : (atEnd s && atEnd t) = false) :
    relLoop (n + 1) s t false = match t, s with
      | b :: t, a :: s => if a = b then relLoop n s t false else none
      | _, _ => none := by
  rw [relLoop, h]
  cases t <;> cases s <;> rfl

theorem inside (n : ℕ) : Inside n := by
  induction n with
  | zero => exact fun _ _ _ _ h => absurd h (Nat.not_lt_zero _)
  | succ n ih =>
    intro u v s t hu hv hs ht hn
    cases u with
    | nil =>
      cases v with
      | nil => exact (relLoop_boundary ih (by simp [hs, ht]) (Nat.le_of_lt_succ hn)).cons []
      | cons b v =>
        rw [relLoop_inside n (by rw [not_atEnd hv (cons_ne_nil _ _), Bool.and_false])]
        cases s with
        | nil => exact answer_none nofun
        | cons a s =>
          have hab : a ≠ b := fun h => hv (of_decide_eq_true hs ▸ h ▸ mem_cons_self)
          show Answer _ _ (if a = b then _ else none)
          rw [if_neg hab]
          exact answer_none nofun
    | cons a u =>
      rw [relLoop_inside n (by rw [not_atEnd hu (cons_ne_nil _ _), Bool.false_and])]
      cases v with
      | nil =>
        cases t with
        | nil => exact answer_none nofun
        | cons b t =>
          have hab : a ≠ b := fun h => hu (of_decide_eq_true ht ▸ h ▸ mem_cons_self)
          show Answer _ _ (if a = b then _ else none)
          rw [if_neg hab]
          exact answer_none nofun
      | cons b v =>
        show Answer _ _ (if a = b then relLoop n (u ++ s) (v ++ t) false else none)
        split
        · next hab =>
          subst hab
          exact (ih (fun h => hu (mem_cons_of_mem _ h)) (fun h => hv (mem_cons_of_mem _ h)) hs ht
            (Nat.lt_of_succ_lt_succ hn)).byte a
        · next hab => exact answer_none fun h => hab (List.cons.inj h).1

theorem getRelativePath_spec (s t : Bytes) :
    Answer (components s) (components t) (getRelativePath s t) :=
  relLoop_boundary (inside _) rfl (Nat.le_refl _)

theorem relLoop_suffix {r : Bytes} (h : relLoop n s t skip = some r) : r <:+ s := by
  induction n generalizing s t skip with
  | zero => cases h
  | succ n ih =>
    unfold relLoop at h
    have hs : (if skip || atEnd s && atEnd t then skipSlashes s else s) <:+ s := by
      split
      · exact (skipSlashes_spec s).2.1
      · exact suffix_rfl
    dsimp only at h
    generalize (if skip || atEnd s && atEnd t then skipSlashes s else s) = s' at h hs
    split at h
    · split at h
      · exact Option.some.inj h ▸ hs
      · cases h
    · cases h
    · split at h
      · exact (ih h).trans ((suffix_cons _ _).trans hs)
      · cases h

theorem getRelativePath_isSome_iff (s t : Bytes) :
    (getRelativePath s t).isSome ↔ components t <+: components s := by
  have h := getRelativePath_spec s t
  cases hr : getRelativePath s t with
  | none =>
    rw [hr] at h
    exact iff_of_false Bool.false_ne_true h
  | some r =>
    rw [hr] at h
    exact iff_of_true rfl ⟨components r, h.1.symm⟩

theorem atEnd_body_append (hs : atEnd s = true) : atEnd (body p ++ s) = true := by
  cases p with
  | nil => exact hs
  | cons => rfl

theorem components_body (hs : atEnd s = true) :
    components (body p ++ s) = p.map (·.1) ++ components s := by
  induction p with
  | nil => rfl
  | cons c p ih =>
    rw [body, cons_append, components_slash, append_assoc,
      components_append c.2.2.1 (atEnd_body_append hs), ih, if_pos ⟨c.2.1, c.2.2.2⟩]
    rfl

theorem components_dot (dot : Bool) (hs : atEnd s = true) :
    components ((if dot then [46] else []) ++ s) = components s := by
  cases dot with
  | false => rfl
  | true => exact components_append (by decide) hs

theorem render_of_ne_nil (dot : Bool) (hp : p ≠ []) :
    render dot p = (if dot then [46] else []) ++ body p := by
  cases p with
  | nil => exact absurd rfl hp
  | cons => rfl

theorem components_render_append (dot : Bool) (hp : p ≠ []) (hs : atEnd s = true) :
    components (render dot p ++ s) = p.map (·.1) ++ components s := by
  rw [render_of_ne_nil dot hp, append_assoc, components_dot dot (atEnd_body_append hs),
    components_body hs]

theorem components_render (dot : Bool) : components (render dot p) = p.map (·.1) := by
  by_cases hp : p = []
  · subst hp
    cases dot <;> rfl
  · have := components_render_append dot hp (s := []) rfl
    rwa [append_nil, show components [] = [] from rfl, append_nil] at this

theorem prefix_map_val : q.map (·.1) <+: p.map (·.1) ↔ q <+: p :=
  prefix_map_iff_of_injective Subtype.val_injective

theorem body_append (p q : List Comp) : body (p ++ q) = body p ++ body q := by
  induction p with
  | nil => rfl
  | cons c p ih => rw [cons_append, body, ih, body, cons_append, append_assoc]

/-- A path ends with a slash only if it is the root. -/
theorem getLast_render (dot : Bool) (hp : p ≠ []) : (render dot p).getLast? ≠ some 47 := by
  obtain ⟨q, c, rfl⟩ := (eq_nil_or_concat p).resolve_left hp
  rw [render_of_ne_nil dot hp, concat_eq_append, body_append]
  show ((if dot then [46] else []) ++ (body q ++ 47 :: (c.1 ++ []))).getLast? ≠ some 47
  rw [append_nil, ← append_assoc, append_cons, getLast?_append_of_ne_nil _ c.2.1]
  exact fun h => c.2.2.1 (mem_of_getLast? h)

theorem issubpath_render (dot : Bool) : issubpath (render dot p) (render dot q) ↔ q <+: p := by
  unfold issubpath
  rw [Bool.and_eq_true_iff, isPrefixOf_iff_prefix]
  constructor
  · rintro ⟨⟨s, hs⟩, hend⟩
    by_cases hq : q = []
    · exact hq ▸ nil_prefix
    have hlast : ((render dot q).getLast? == some 47) = false :=
      beq_eq_false_iff_ne.mpr (getLast_render dot hq)
    rw [hlast, ← hs, drop_left] at hend
    rw [← prefix_map_val, ← components_render dot (p := p), ← hs,
      components_render_append dot hq hend]
    exact prefix_append _ _
  · rintro ⟨s, rfl⟩
    by_cases hq : q = []
    · subst hq
      refine ⟨?_, by cases dot <;> rfl⟩
      cases s with
      | nil => exact prefix_refl _
      | cons c s => exact ⟨c.1 ++ body s, by cases dot <;> rfl⟩
    · have : render dot (q ++ s) = render dot q ++ body s := by
        rw [render_of_ne_nil _ hq, render_of_ne_nil _ (append_ne_nil_of_left_ne_nil hq s),
          body_append, append_assoc]
      rw [this, drop_left, atEnd_body, Bool.or_true]
      exact ⟨prefix_append _ _, rfl⟩

/-- `get_relative_path` takes the components of `sub` from the beginning of those of `path`. -/
theorem relative_path_components (path sub : Bytes) :
    ((getRelativePath path sub).isSome ↔ components sub <+: components path) ∧
      (∀ r, getRelativePath path sub = some r →
        r <:+ path ∧ components path = components sub ++ components r ∧ r.head? ≠ some 47) ∧
      ∀ p q, (getRelativePath (render false p) (render false q)).isSome =
        issubpath (render false p) (render false q) := by
  refine ⟨getRelativePath_isSome_iff path sub, fun r hr => ⟨relLoop_suffix hr, ?_⟩, fun p q => ?_⟩
  · have := getRelativePath_spec path sub
    rwa [hr] at this
  · rw [Bool.eq_iff_iff, getRelativePath_isSome_iff, components_render, components_render,
      prefix_map_val, issubpath_render]

end

end Criu.MountPaths

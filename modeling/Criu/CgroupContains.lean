import Criu.StringSplit

/-!
The controllers of a hierarchy (criu/cgroup.c). `cgroup_contains` looks for each name of an array in
a list of names with commas between them. It asks what stands behind the name that `strstr` came to
but not what stands in front of it.
-/

namespace Criu.CgroupContains

open StringSplit List

/-- The rest of the string from the first `c` on. -/
def strstr (c : Bytes) : Bytes → Option Bytes
  | [] => if c = [] then some [] else none
  | b :: s => if c <+: b :: s then some (b :: s) else strstr c s

/-- The terminating zero or a comma. -/
def Ends (s : Bytes) : Prop := s.headD 0 = 0 ∨ s.headD 0 = 44

instance : DecidablePred Ends := fun _ => inferInstanceAs (Decidable (_ ∨ _))

def clearBit (i : ℕ) (m : BitVec 64) : BitVec 64 := m &&& ~~~(1#64 <<< i)

/-- The search for the controller `i`, with `found` and the mask. -/
def search (c : Bytes) (i : ℕ) : ℕ → Bytes → Bool → Option (BitVec 64) →
    Option (Bool × Option (BitVec 64))
  | 0, _, _, _ => none
  | fuel + 1, loc, found, mask =>
      match strstr c loc with
      | none => some (found, mask)
      | some s =>
          let loc := s.drop c.length
          if Ends loc then search c i fuel loc true (mask.map (clearBit i))
          else search c i fuel loc found mask

/-- The loop over the controllers; each pass of the search takes a byte. -/
def containsLoop (name : Bytes) : List (Bytes × ℕ) → Bool → Option (BitVec 64) →
    Option (Bool × Option (BitVec 64))
  | [], all, mask => some (all, mask)
  | (c, i) :: cs, all, mask => do
      let (found, mask) ← search c i (name.length + 1) name false mask
      containsLoop name cs (all && found) mask

def cgroupContains (controllers : List Bytes) (name : Bytes) (mask : Option (BitVec 64)) :
    Option (Bool × Option (BitVec 64)) :=
  if controllers = [[]] then some (name.headD 0 = 0, mask)
  else do
    let (all, mask) ← containsLoop name controllers.zipIdx true mask
    some (all && controllers ≠ [], mask)

/-- The string is searched for `c` from left to right, and on behind each place where it stands.
What follows one of these places meets `E`. -/
inductive Scan (E : Bytes → Prop) (c : Bytes) : Bytes → Prop
  | here {r : Bytes} (hr : E r) : Scan E c (c ++ r)
  | later {r : Bytes} (h : Scan E c r) : Scan E c (c ++ r)
  | skip {b : Fin 256} {s : Bytes} (hn : ¬ c <+: b :: s) (h : Scan E c s) : Scan E c (b :: s)

variable {E : Bytes → Prop} {c d s r name : Bytes} {b : Fin 256} {i : ℕ}

theorem scan_append : Scan E c (c ++ r) ↔ E r ∨ Scan E c r := by
  refine ⟨fun h => ?_, fun h => h.elim .here .later⟩
  generalize hs : c ++ r = s at h
  cases h with
  | here hr => exact .inl (append_cancel_left hs ▸ hr)
  | later h => exact .inr (append_cancel_left hs ▸ h)
  | skip hn => exact absurd ⟨r, hs⟩ hn

theorem scan_cons (hn : ¬ c <+: b :: s) : Scan E c (b :: s) ↔ Scan E c s := by
  refine ⟨fun h => ?_, .skip hn⟩
  generalize hs : b :: s = t at h hn
  cases h with
  | here | later => exact absurd (prefix_append c _) hn
  | skip _ h => exact (cons.inj hs).2 ▸ h

theorem not_scan_nil (hc : c ≠ []) : ¬ Scan E c [] := by
  intro h
  generalize hs : [] = s at h
  cases h with
  | here | later => exact hc (append_eq_nil_iff.mp hs.symm).1
  | skip => cases hs

theorem strstr_spec (hc : c ≠ []) (s : Bytes) : (strstr c s = none ∧ ¬ Scan Ends c s) ∨
      ∃ r, strstr c s = some (c ++ r) ∧ r.length < s.length ∧
        (Scan Ends c s ↔ Scan Ends c (c ++ r)) := by
  induction s with
  | nil =>
    exact .inl ⟨if_neg hc, not_scan_nil hc⟩
  | cons b s ih =>
    rw [strstr]
    by_cases hp : c <+: b :: s
    · obtain ⟨r, hr⟩ := hp
      rw [← hr, if_pos (prefix_append c r)]
      have hlt : r.length < (c ++ r).length := by
        rw [length_append]
        exact Nat.lt_add_of_pos_left (length_pos_of_ne_nil hc)
      exact .inr ⟨r, rfl, hlt, .rfl⟩
    · rw [if_neg hp, scan_cons hp]
      refine ih.imp_right fun ⟨r, hr, hlt, hiff⟩ => ⟨r, hr, ?_, hiff⟩
      exact Nat.lt_succ_of_lt hlt

theorem clearBit_clearBit (m : BitVec 64) : clearBit i (clearBit i m) = clearBit i m := by
  rw [clearBit, clearBit, BitVec.and_assoc, BitVec.and_self]

open Classical in
theorem search_eq (hc : c ≠ []) {fuel : ℕ} (hfuel : s.length < fuel) (found : Bool)
    (mask : Option (BitVec 64)) : search c i fuel s found mask =
      some (found || Scan Ends c s, mask.map (if Scan Ends c s then clearBit i else id)) := by
  induction fuel generalizing s found mask with
  | zero => exact absurd hfuel (Nat.not_lt_zero _)
  | succ fuel ih =>
    rw [search]
    rcases strstr_spec hc s with ⟨hs, hn⟩ | ⟨r, hs, hlt, hiff⟩
    · simp [hs, hn]
    · simp only [hs, drop_left, ih (show r.length < fuel by omega), hiff, scan_append]
      by_cases hr : Ends r
      · by_cases hit : Scan Ends c r <;> simp [hr, hit, Function.comp_def, clearBit_clearBit]
      · simp [hr]

def bits (l : List Bool) : BitVec 64 := (BitVec.ofBoolListLE l).setWidth 64

def Finds (P : Bytes → Prop) [DecidablePred P] (cs : List Bytes) (name : Bytes) : Prop :=
  ∀ mask, cgroupContains cs name mask =
    some (decide (cs ≠ [] ∧ ∀ c ∈ cs, P c), mask.map (· &&& ~~~bits (cs.map P)))

/-- The controllers that are found are the components of `name`. -/
def Correct (cs : List Bytes) (name : Bytes) : Prop := Finds (· ∈ name.splitOn 44) cs name

structure Controllers where
  names : List Bytes
  length_le : names.length ≤ 64
  name : ∀ c ∈ names, c ≠ [] ∧ 44 ∉ c ∧ 0 ∉ c

theorem getElem_bits (l : List Bool) {j : ℕ} (hj : j < 64) : (bits l)[j] = l.getD j false := by
  simp [bits]

theorem clear_bits (b : Bool) (l : List Bool) (m : BitVec 64) :
    (if b then clearBit i else id) m &&& ~~~(bits l <<< (i + 1)) =
      m &&& ~~~(bits (b :: l) <<< i) := by
  ext j hj
  rcases Nat.lt_trichotomy j i with h | rfl | h
  · cases b <;> simp [clearBit, h, Nat.lt_succ_of_lt h]
  · cases b <;> simp [clearBit, getElem_bits]
  · have hsub : j - i = j - (i + 1) + 1 := by omega
    have hle : ¬ j < i := by omega
    have hle' : ¬ j < i + 1 := by omega
    cases b <;> simp [clearBit, getElem_bits, hsub, hle, hle']

open Classical in
theorem containsLoop_eq {cs : List Bytes} (h : ∀ c ∈ cs, c ≠ []) (i : ℕ) (all : Bool)
    (mask : Option (BitVec 64)) : containsLoop name (cs.zipIdx i) all mask =
      some (all && decide (∀ c ∈ cs, Scan Ends c name),
        mask.map (· &&& ~~~(bits (cs.map (Scan Ends · name)) <<< i))) := by
  induction cs generalizing i all mask with
  | nil =>
    have hid (m : BitVec 64) : m &&& ~~~(bits [] <<< i) = m := by
      ext j hj
      simp [getElem_bits]
    simp [containsLoop, hid]
  | cons c cs ih =>
    obtain ⟨hc, h⟩ := forall_mem_cons.mp h
    rw [zipIdx_cons, containsLoop, search_eq hc (Nat.lt_succ_self _)]
    simp [ih h, ← clear_bits, Function.comp_def, Bool.and_assoc]

open Classical in
theorem finds_hit (cs : Controllers) : Finds (Scan Ends · name) cs.names name := by
  intro mask
  have hne : cs.names ≠ [[]] := fun h => (cs.name [] (h ▸ mem_cons_self)).1 rfl
  rw [cgroupContains, if_neg hne, containsLoop_eq fun c hc => (cs.name c hc).1]
  simp [Bool.and_comm]

/-- A place of `c` lies before the end. -/
theorem eq_append_of_prefix (hcomma : 44 ∉ c) (hzero : 0 ∉ c) (hr : Ends r) (h : c <+: d ++ r) :
    ∃ e, d = c ++ e := by
  obtain ⟨t, ht⟩ := h
  obtain ⟨e, he, -⟩ | ⟨x, rfl, rfl⟩ := append_eq_append_iff.mp ht
  · exact ⟨e, he⟩
  · cases x with
    | nil => exact ⟨[], by simp⟩
    | cons b x => simp_all [Ends, eq_comm]

theorem hit_append (hc : c ≠ []) (hcomma : 44 ∉ c) (hzero : 0 ∉ c) (hd : 44 ∉ d) (h0 : 0 ∉ d)
    (hr : Ends r) : Scan Ends c (d ++ r) ↔ Scan (· = []) c d ∨ Scan Ends c r := by
  induction hn : d.length using Nat.strongRecOn generalizing d with
  | _ n ih =>
    by_cases hp : c <+: d ++ r
    · obtain ⟨e, rfl⟩ := eq_append_of_prefix hcomma hzero hr hp
      have hpos := length_pos_of_ne_nil hc
      rw [length_append] at hn
      rw [mem_append, not_or] at hd h0
      have hends : Ends (e ++ r) ↔ e = [] := by
        cases e with
        | nil => simpa using hr
        | cons b e => simp_all [Ends, eq_comm]
      rw [append_assoc, scan_append, hends, ih _ (by omega) hd.2 h0.2 rfl, scan_append, or_assoc]
    · cases d with
      | nil => rw [nil_append, or_iff_right (not_scan_nil hc)]
      | cons b d =>
        rw [cons_append] at hp ⊢
        rw [scan_cons hp, ih _ (by simp [← hn]) (by simp_all) (by simp_all) rfl,
          scan_cons fun h => hp (h.trans (prefix_append ..))]

/-- A name is hit exactly if the search of some component comes to it at the end. -/
theorem hit_iff (hc : c ≠ []) (hcomma : 44 ∉ c) (hzero : 0 ∉ c) (h0 : 0 ∉ name) :
    Scan Ends c name ↔ ∃ d ∈ name.splitOn 44, Scan (· = []) c d := by
  induction hn : name.length using Nat.strongRecOn generalizing name with
  | _ n ih =>
    by_cases hin : 44 ∈ name
    · obtain ⟨d, s, rfl, hd⟩ := eq_append_cons_of_mem hin
      rw [mem_append, not_or] at h0
      have hno : ¬ c <+: 44 :: s := by
        cases c with
        | nil => exact absurd rfl hc
        | cons b c => simp_all [eq_comm]
      rw [hit_append hc hcomma hzero hd h0.1 (.inr rfl), scan_cons hno, splitOn_append_cons hd,
        ih _ (by simp [← hn]; omega) (by simp_all) rfl]
      simp
    · have happ := hit_append (r := []) hc hcomma hzero hin h0 (.inl rfl)
      rw [append_nil, or_iff_left (not_scan_nil hc)] at happ
      simp [splitOn_of_notMem hin, happ]

/-- The names are found as they should be exactly if no other one is at the end of a component,
at a place that the search comes to. -/
theorem cgroup_contains_iff (cs : Controllers) (name : Str) :
    Correct cs.names name.1 ↔
      ∀ c ∈ cs.names, c ∉ name.1.splitOn 44 → ∀ d ∈ name.1.splitOn 44, ¬ Scan (· = []) c d := by
  classical
  have hs := @finds_hit name.1 cs
  have hit {c : Bytes} (hc : c ∈ cs.names) : Scan Ends c name.1 ↔ _ :=
    have ⟨hne, hcomma, hzero⟩ := cs.name c hc
    hit_iff hne hcomma hzero name.2
  refine ⟨fun hr c hc hno d hd hclose => ?_, fun h => ?_⟩
  · have hbits := (hr (some (.allOnes 64))).symm.trans (hs (some (.allOnes 64)))
    simp only [Option.map_some, BitVec.allOnes_and, Option.some.injEq, Prod.mk.injEq,
      BitVec.not_inj] at hbits
    obtain ⟨j, hj⟩ := mem_iff_getElem?.mp hc
    have hlt : j < 64 := Nat.lt_of_lt_of_le (List.getElem?_eq_some_iff.mp hj).1 cs.length_le
    have hbit : (bits _)[j] = (bits _)[j] := congrArg (·[j]) hbits.2
    exact hno (by simpa [getElem_bits, hj, (hit hc).mpr ⟨d, hd, hclose⟩] using hbit)
  · have hiff : ∀ c ∈ cs.names, (c ∈ name.1.splitOn 44 ↔ Scan Ends c name.1) := by
      refine fun c hc => ⟨fun hin => (hit hc).mpr ⟨c, hin, ?_⟩, fun hh => ?_⟩
      · simpa using @Scan.here (· = []) c [] rfl
      · obtain ⟨d, hd, hclose⟩ := (hit hc).mp hh
        by_contra hno
        exact h c hc hno d hd hclose
    have hmap : cs.names.map (fun c => decide (Scan Ends c name.1)) =
        cs.names.map (fun c => decide (c ∈ name.1.splitOn 44)) :=
      map_congr_left fun c hc => decide_eq_decide.mpr (hiff c hc).symm
    intro mask
    rw [hs mask, hmap]
    simp [forall₂_congr hiff]

/-- The array of "cpu" and "io" and the string "io,cpu". -/
theorem correct_cpu_io :
    Correct [[99, 112, 117], [105, 111]] [105, 111, 44, 99, 112, 117] := by
  refine (cgroup_contains_iff ⟨_, by decide, by decide⟩ ⟨_, by decide⟩).mpr fun c hc hno => ?_
  exact absurd (show ∀ c ∈ _, c ∈ _ by decide) fun h => hno (h c hc)

/-- The array of "cpu" alone and the string "xcpu". -/
theorem not_correct_xcpu : ¬ Correct [[99, 112, 117]] [120, 99, 112, 117] := by
  exact fun h => absurd (h none) (by decide)

end Criu.CgroupContains

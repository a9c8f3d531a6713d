import Criu.Pagemap
import Mathlib.Data.List.Nodup

/-!
Which lists of SysV memory areas a restore accepts. `open_shmem_sysv` sees the areas of a task
one by one and keeps for each segment the attaches found so far; only the last one can be
continued. `fixup_sysv_shmems` then looks for attaches that end too early. An area that
continues an attach when its segment has none is compared with whatever lies behind the
`shmem_info` in memory, since `list_first_entry` of the empty list is not an attach.
-/

namespace Criu.SysvAttach

open Pagemap List

variable {size first prev id : ℕ}

/-- The `VmaEntry` of an area of a SysV segment. -/
structure SysvVma where
  start : ℕ
  stop : ℕ
  pgoff : ℕ
  shmid : ℕ
  filled : start < stop
  bound : stop < 2 ^ 64

/-- `struct shmem_info`; `sysv` says that its pid is `SYSVIPC_SHMEM_PID`. -/
structure ShmemInfo where
  shmid : ℕ
  size : ℕ
  sysv : Bool
  bound : size < 2 ^ 64

structure ShmemTable where
  entries : List ShmemInfo
  nodup : (entries.map ShmemInfo.shmid).Nodup

structure Att where
  firstStart : ℕ
  prevEnd : ℕ

/-- The memory that is taken for an attach if there is none: `prev_end` is behind the
`shmem_info`, and `first` is not a pointer (`none` if it cannot be followed). -/
structure Stray where
  prevEnd : ℕ
  firstStart : Option ℕ

inductive ShmemFd
  | segment (shmid : ℕ)
  | skip
deriving DecidableEq

variable {l : List (SysvVma × Stray)} {fd : ShmemFd} {as : List Att}

inductive SysvFault
  | err
  | crash
deriving DecidableEq

section Model

def minus (a b : ℕ) : ℕ := (a + 2 ^ 64 - b) % 2 ^ 64

def roundUp (x y : ℕ) : ℕ := ((minus x 1 ||| minus y 1) + 1) % 2 ^ 64

/-- The part of `open_shmem_sysv` behind the search for the segment. -/
def attach (atts : List Att) (v : SysvVma) (stray : Stray) :
    Except SysvFault (List Att × ShmemFd) :=
  if v.pgoff = 0 then .ok (⟨v.start, v.stop⟩ :: atts, .segment v.shmid)
  else
    match atts with
    | att :: rest =>
        if att.prevEnd ≠ v.start then .error .err
        else if v.pgoff ≠ minus att.prevEnd att.firstStart then .error .err
        else .ok (⟨att.firstStart, v.stop⟩ :: rest, .skip)
    | [] =>
        if stray.prevEnd ≠ v.start then .error .err
        else
          match stray.firstStart with
          | none => .error .crash
          | some first =>
              if v.pgoff ≠ minus stray.prevEnd first then .error .err else .ok ([], .skip)

/-- `open_shmem_sysv` for the areas of a task, each with the stray memory of its call. -/
def openShmemSysv (table : ShmemTable) : List (SysvVma × Stray) → (ℕ → List Att) →
    Except SysvFault ((ℕ → List Att) × List ShmemFd)
  | [], atts => .ok (atts, [])
  | (v, stray) :: rest, atts =>
      match table.entries.find? (fun si => si.shmid = v.shmid) with
      | none => .error .err
      | some si =>
          if !si.sysv then .error .err
          else
            match attach (atts v.shmid) v stray with
            | .error f => .error f
            | .ok (l, fd) =>
                match openShmemSysv table rest (Function.update atts v.shmid l) with
                | .error f => .error f
                | .ok (atts', fds) => .ok (atts', fd :: fds)

def attEnds (size : ℕ) (att : Att) : Bool :=
  (att.firstStart + roundUp size pageSize) % 2 ^ 64 = att.prevEnd

def fixupSysvShmems (table : ShmemTable) (atts : ℕ → List Att) : Bool :=
  table.entries.all fun si => !si.sysv || (atts si.shmid).all (attEnds si.size)

def restoreSysv (table : ShmemTable) (l : List (SysvVma × Stray)) :
    Except SysvFault (List ShmemFd) :=
  match openShmemSysv table l (fun _ => []) with
  | .error f => .error f
  | .ok (atts, fds) => if fixupSysvShmems table atts then .ok fds else .error .err

end Model

section Runs

def Tail (size first : ℕ) : ℕ → List SysvVma → Prop
  | prev, [] => prev = first + (size + (pageSize - 1)) / pageSize * pageSize
  | prev, w :: ws => w.start = prev ∧ w.pgoff = w.start - first ∧ Tail size first w.stop ws

def IsAttach (size : ℕ) : List SysvVma → Prop
  | [] => False
  | v :: vs => v.pgoff = 0 ∧ Tail size v.start v.stop vs

/-- The areas are those of the runs, and each run is an attach of the whole segment. -/
def SplitsAs (size : ℕ) (vs : List SysvVma) (runs : List (List SysvVma)) : Prop :=
  vs = runs.flatten ∧ ∀ r ∈ runs, IsAttach size r

def Whole (size : ℕ) (vs : List SysvVma) : Prop := ∃ runs, SplitsAs size vs runs

def WholeFrom (size first prev : ℕ) (vs : List SysvVma) : Prop :=
  ∃ tail rest, vs = tail ++ rest ∧ Tail size first prev tail ∧ Whole size rest

variable {v w : SysvVma} {vs : List SysvVma}

theorem whole_nil : Whole size [] := ⟨[], rfl, nofun⟩

theorem whole_cons : Whole size (v :: vs) ↔ v.pgoff = 0 ∧ WholeFrom size v.start v.stop vs := by
  constructor
  · intro h
    obtain ⟨runs, heq, hruns⟩ := h
    cases runs with
    | nil => exact absurd heq (cons_ne_nil _ _)
    | cons r runs =>
      obtain ⟨hr, hrest⟩ := forall_mem_cons.mp hruns
      cases r with
      | nil => exact hr.elim
      | cons u tail =>
        obtain ⟨rfl, rfl⟩ := List.cons.inj heq
        exact ⟨hr.1, tail, runs.flatten, rfl, hr.2, runs, rfl, hrest⟩
  · intro h
    obtain ⟨hv, tail, rest, rfl, htail, runs, rfl, hruns⟩ := h
    exact ⟨(v :: tail) :: runs, rfl, forall_mem_cons.mpr ⟨⟨hv, htail⟩, hruns⟩⟩

theorem wholeFrom_nil : WholeFrom size first prev [] ↔ Tail size first prev [] := by
  constructor
  · intro h
    obtain ⟨tail, rest, heq, htail, -⟩ := h
    obtain ⟨rfl, -⟩ := append_eq_nil_iff.mp heq.symm
    exact htail
  · exact fun h => ⟨[], [], rfl, h, whole_nil⟩

/-- A continuation has a positive offset, so an area with offset 0 starts an attach. -/
theorem wholeFrom_cons_first (hprev : first < prev) (hw : w.pgoff = 0) :
    WholeFrom size first prev (w :: vs) ↔
      Tail size first prev [] ∧ WholeFrom size w.start w.stop vs := by
  constructor
  · intro h
    obtain ⟨tail, rest, heq, htail, hrest⟩ := h
    cases tail with
    | nil => exact ⟨htail, (whole_cons.mp (heq ▸ hrest)).2⟩
    | cons u tail =>
      obtain ⟨rfl, -⟩ := List.cons.inj heq
      obtain ⟨hstart, hoff, -⟩ := htail
      omega
  · intro h
    exact ⟨[], w :: vs, rfl, h.1, whole_cons.mpr ⟨hw, h.2⟩⟩

theorem wholeFrom_cons_next (hw : w.pgoff ≠ 0) : WholeFrom size first prev (w :: vs) ↔
      (w.start = prev ∧ w.pgoff = w.start - first) ∧ WholeFrom size first w.stop vs := by
  constructor
  · intro h
    obtain ⟨tail, rest, heq, htail, hrest⟩ := h
    cases tail with
    | nil =>
      rw [nil_append] at heq
      exact absurd (whole_cons.mp (heq ▸ hrest)).1 hw
    | cons u tail =>
      obtain ⟨rfl, rfl⟩ := List.cons.inj heq
      obtain ⟨hstart, hoff, htail⟩ := htail
      exact ⟨⟨hstart, hoff⟩, tail, rest, rfl, htail, hrest⟩
  · intro h
    obtain ⟨⟨hstart, hoff⟩, tail, rest, rfl, htail, hrest⟩ := h
    exact ⟨w :: tail, rest, rfl, ⟨hstart, hoff, htail⟩, hrest⟩

theorem Tail.pos {tail : List SysvVma} (hprev : first < prev)
    (h : Tail size first prev tail) : ∀ w ∈ tail, w.pgoff ≠ 0 := by
  induction tail generalizing prev with
  | nil => exact nofun
  | cons u tail ih =>
    obtain ⟨hstart, hoff, htail⟩ := h
    have hlt := u.filled
    exact forall_mem_cons.mpr ⟨by omega, ih (by omega) htail⟩

end Runs

section Rounding

theorem or_low (x k : ℕ) : x ||| (2 ^ k - 1) = x / 2 ^ k * 2 ^ k + (2 ^ k - 1) := by
  have hlt : 2 ^ k - 1 < 2 ^ k := Nat.sub_one_lt_of_lt (Nat.two_pow_pos k)
  apply Nat.eq_of_testBit_eq
  intro i
  rw [Nat.mul_comm, Nat.testBit_or, Nat.testBit_two_pow_sub_one,
    Nat.testBit_two_pow_mul_add _ hlt]
  split
  · next hi => simp [hi]
  · next hi =>
    rw [decide_eq_false hi, Bool.or_false, Nat.testBit_div_two_pow, Nat.sub_add_cancel (by omega)]

/-- The last check of an attach sees no wrapped address, since areas end behind their start. -/
theorem attEnds_iff (hsize : size < 2 ^ 64) (hprev : first < prev)
    (hbound : prev < 2 ^ 64) : attEnds size ⟨first, prev⟩ = true ↔ Tail size first prev [] := by
  have hone : minus pageSize 1 = 2 ^ 12 - 1 := by decide
  have hpage : pageSize = 4096 := rfl
  simp only [attEnds, Tail, decide_eq_true_eq, roundUp, hone, or_low]
  simp only [minus, hpage]
  omega

end Rounding

section Segment

def extend (atts : List Att) : List (SysvVma × Stray) → Except SysvFault (List Att)
  | [] => .ok atts
  | p :: rest =>
      match attach atts p.1 p.2 with
      | .error f => .error f
      | .ok (l, _) => extend l rest

def Accepts (size : ℕ) (atts : List Att) (l : List (SysvVma × Stray)) : Prop :=
  ∃ atts', extend atts l = .ok atts' ∧ ∀ att ∈ atts', attEnds size att = true

variable {atts : List Att} {p : SysvVma × Stray}

theorem accepts_cons_ok {atts' : List Att} (h : attach atts p.1 p.2 = .ok (atts', fd)) :
    Accepts size atts (p :: l) ↔ Accepts size atts' l := by
  simp only [Accepts, extend, h]

theorem accepts_cons_error {f : SysvFault} (h : attach atts p.1 p.2 = .error f) :
    ¬ Accepts size atts (p :: l) := by
  intro ha
  obtain ⟨atts', hext, -⟩ := ha
  simp only [extend, h] at hext
  cases hext

theorem attach_first (hp : p.1.pgoff = 0) :
    attach atts p.1 p.2 = .ok (⟨p.1.start, p.1.stop⟩ :: atts, .segment p.1.shmid) := if_pos hp

theorem attach_next {att : Att} (hp : p.1.pgoff ≠ 0) (hatt : att.firstStart < att.prevEnd) :
    (∃ fd, attach (att :: atts) p.1 p.2 = .ok (⟨att.firstStart, p.1.stop⟩ :: atts, fd) ∧
        p.1.start = att.prevEnd ∧ p.1.pgoff = p.1.start - att.firstStart) ∨
      attach (att :: atts) p.1 p.2 = .error .err ∧
        ¬ (p.1.start = att.prevEnd ∧ p.1.pgoff = p.1.start - att.firstStart) := by
  have hdist : p.1.start = att.prevEnd →
      minus att.prevEnd att.firstStart = p.1.start - att.firstStart := by
    have hlt := p.1.filled
    have hb := p.1.bound
    unfold minus
    omega
  unfold attach
  rw [if_neg hp]
  dsimp only
  split
  · next hne => exact .inr ⟨rfl, fun h => hne h.1.symm⟩
  next heq =>
  have heq := not_not.mp heq
  rw [hdist heq.symm]
  split
  · next hne => exact .inr ⟨rfl, fun h => hne h.2⟩
  · next hoff => exact .inl ⟨_, rfl, heq.symm, not_not.mp hoff⟩

/-- With an open attach the areas must complete it and then split into attaches. -/
theorem accepts_open (hsize : size < 2 ^ 64) {att : Att}
    (hatt : att.firstStart < att.prevEnd) (hb : att.prevEnd < 2 ^ 64) :
    (Accepts size (att :: atts) l ↔
    WholeFrom size att.firstStart att.prevEnd (l.map Prod.fst) ∧
      ∀ a ∈ atts, attEnds size a = true) := by
  induction l generalizing att atts with
  | nil =>
    rw [map_nil, wholeFrom_nil, ← attEnds_iff hsize hatt hb]
    constructor
    · intro h
      obtain ⟨atts', hext, hall⟩ := h
      cases hext
      exact forall_mem_cons.mp hall
    · exact fun h => ⟨_, rfl, forall_mem_cons.mpr h⟩
  | cons p l ih =>
    rw [map_cons]
    by_cases hp : p.1.pgoff = 0
    · rw [accepts_cons_ok (attach_first hp), ih p.1.filled p.1.bound,
        wholeFrom_cons_first hatt hp, forall_mem_cons, attEnds_iff hsize hatt hb]
      tauto
    rw [wholeFrom_cons_next hp]
    rcases @attach_next atts p att hp hatt with ⟨fd, hok, hcont⟩ | ⟨herr, hno⟩
    · have hgrown : att.firstStart < p.1.stop := by
        have := p.1.filled
        omega
      rw [accepts_cons_ok hok, ih hgrown p.1.bound]
      exact ⟨fun h => ⟨⟨hcont, h.1⟩, h.2⟩, fun h => ⟨h.1.2, h.2⟩⟩
    · exact ⟨fun h => absurd h (accepts_cons_error herr), fun h => absurd h.1.1 hno⟩

def orphans (l : List (SysvVma × Stray)) : List (SysvVma × Stray) :=
  l.takeWhile fun p => p.1.pgoff ≠ 0

def afterOrphans (l : List (SysvVma × Stray)) : List (SysvVma × Stray) :=
  l.dropWhile fun p => p.1.pgoff ≠ 0

/-- The stray memory looks like an attach that the area continues. -/
def StrayMatches (p : SysvVma × Stray) : Prop :=
  p.2.prevEnd = p.1.start ∧
    ∃ first, p.2.firstStart = some first ∧ p.1.pgoff = minus p.2.prevEnd first

theorem attach_orphan (hp : p.1.pgoff ≠ 0) : StrayMatches p ∧ attach [] p.1 p.2 = .ok ([], .skip) ∨
      ¬ StrayMatches p ∧ ∃ f, attach [] p.1 p.2 = .error f := by
  unfold attach StrayMatches
  rw [if_neg hp]
  dsimp only
  split
  · next hne => exact .inr ⟨fun h => hne h.1, _, rfl⟩
  next heq =>
  cases hf : p.2.firstStart with
  | none => exact .inr ⟨fun h => by simp at h, _, rfl⟩
  | some first =>
    dsimp only
    split
    · next hne => exact .inr ⟨fun h => hne (by simpa using h.2), _, rfl⟩
    · next hoff => exact .inl ⟨⟨not_not.mp heq, first, rfl, not_not.mp hoff⟩, rfl⟩

theorem accepts_nil_iff (hsize : size < 2 ^ 64) : Accepts size [] l ↔
    (∀ p ∈ orphans l, StrayMatches p) ∧ Whole size ((afterOrphans l).map Prod.fst) := by
  induction l with
  | nil => exact ⟨fun _ => ⟨nofun, whole_nil⟩, fun _ => ⟨[], rfl, nofun⟩⟩
  | cons p l ih =>
    unfold orphans afterOrphans
    by_cases hp : p.1.pgoff = 0
    · rw [dropWhile_cons_of_neg (by simpa using hp), map_cons, whole_cons,
        accepts_cons_ok (attach_first hp), accepts_open hsize p.1.filled p.1.bound]
      simp [hp]
    rw [takeWhile_cons_of_pos (by simpa using hp),
      dropWhile_cons_of_pos (by simpa using hp), forall_mem_cons]
    rcases attach_orphan hp with ⟨hm, hok⟩ | ⟨hm, f, herr⟩
    · rw [accepts_cons_ok hok]
      tauto
    · exact ⟨fun h => absurd h (accepts_cons_error herr), fun h => absurd h.1.1 hm⟩

/-- Areas that split into attaches do not start with a continuation. -/
theorem whole_iff : Whole size (l.map Prod.fst) ↔
    orphans l = [] ∧ Whole size ((afterOrphans l).map Prod.fst) := by
  cases l with
  | nil => exact ⟨fun h => ⟨rfl, h⟩, fun h => h.2⟩
  | cons p l =>
    unfold orphans afterOrphans
    by_cases hp : p.1.pgoff = 0
    · rw [takeWhile_cons_of_neg (by simpa using hp),
        dropWhile_cons_of_neg (by simpa using hp)]
      simp
    · rw [map_cons, whole_cons]
      simp [hp]

end Segment

section Task

def ofSegment (id : ℕ) (l : List (SysvVma × Stray)) : List (SysvVma × Stray) :=
  l.filter fun p => p.1.shmid = id

def Known (table : ShmemTable) (l : List (SysvVma × Stray)) : Prop :=
  ∀ p ∈ l, ∃ si ∈ table.entries, si.shmid = p.1.shmid ∧ si.sysv = true

/-- What `open_shmem_sysv` puts into the fd of an area. -/
def markOf (v : SysvVma) : ShmemFd := if v.pgoff = 0 then .segment v.shmid else .skip

variable {table : ShmemTable} {atts atts' : ℕ → List Att} {fds : List ShmemFd}

theorem ShmemTable.find_eq (table : ShmemTable) {si : ShmemInfo} (hsi : si ∈ table.entries) :
    table.entries.find? (fun x => x.shmid = si.shmid) = some si := by
  have hinj := inj_on_of_nodup_map table.nodup
  obtain ⟨x, hx⟩ := Option.isSome_iff_exists.mp
    (find?_isSome.mpr ⟨si, hsi, decide_eq_true rfl⟩ :
      (table.entries.find? (fun x => x.shmid = si.shmid)).isSome)
  rw [hx, hinj (mem_of_find?_eq_some hx) hsi (of_decide_eq_true (find?_some hx :))]

theorem attach_mark {as' : List Att} {v : SysvVma} {stray : Stray}
    (h : attach as v stray = .ok (as', fd)) : fd = markOf v := by
  unfold attach at h
  unfold markOf
  split at h
  · next hp => rw [if_pos hp, (Prod.mk.inj (Except.ok.inj h)).2]
  · next hp =>
    rw [if_neg hp]
    repeat' split at h
    all_goals cases h
    all_goals rfl

theorem extend_ofSegment_cons {p : SysvVma × Stray}
    (h : attach (atts p.1.shmid) p.1 p.2 = .ok (as, fd)) (id : ℕ) :
    extend (atts id) (ofSegment id (p :: l)) =
      extend (Function.update atts p.1.shmid as id) (ofSegment id l) := by
  unfold ofSegment
  by_cases heq : p.1.shmid = id
  · subst heq
    rw [filter_cons_of_pos (by simp), extend, h, Function.update_self]
  · rw [filter_cons_of_neg (by simpa using heq), Function.update_of_ne (Ne.symm heq)]

/-- The calls for one segment do not see the others. -/
theorem openShmemSysv_ok_iff (hknown : Known table l) :
    openShmemSysv table l atts = .ok (atts', fds) ↔
      fds = l.map (fun p => markOf p.1) ∧
        ∀ id, extend (atts id) (ofSegment id l) = .ok (atts' id) := by
  induction l generalizing atts fds with
  | nil =>
    simp only [openShmemSysv, ofSegment, extend, filter_nil, Except.ok.injEq,
      Prod.mk.injEq, funext_iff]
    exact and_comm.trans (and_congr_left' eq_comm)
  | cons p l ih =>
    obtain ⟨⟨si, hsi, hid, hsysv⟩, hknown⟩ := forall_mem_cons.mp hknown
    unfold openShmemSysv
    rw [← hid, table.find_eq hsi, hid]
    simp only [hsysv, Bool.not_true, Bool.false_eq_true, if_false]
    cases hatt : attach (atts p.1.shmid) p.1 p.2 with
    | error f =>
      refine iff_of_false nofun fun h => ?_
      have hself := h.2 p.1.shmid
      rw [ofSegment, filter_cons_of_pos (by simp), extend, hatt] at hself
      cases hself
    | ok r =>
      simp only [extend_ofSegment_cons hatt, map_cons, ← attach_mark hatt]
      constructor
      · intro h
        split at h
        · cases h
        next hrest =>
        obtain ⟨rfl, rfl⟩ := Prod.mk.inj (Except.ok.inj h)
        obtain ⟨rfl, hall⟩ := (ih hknown).mp hrest
        exact ⟨rfl, hall⟩
      · rintro ⟨rfl, hall⟩
        rw [(ih hknown).mpr ⟨rfl, hall⟩]

/-- Areas of other segments are not in a task that `Known` describes. -/
theorem Known.ofSegment_nil (h : Known table l)
    (hid : ∀ si ∈ table.entries, si.shmid = id → si.sysv = false) : ofSegment id l = [] := by
  apply filter_eq_nil_iff.mpr
  intro p hp heq
  obtain ⟨si, hsi, hsame, hs⟩ := h p hp
  cases hs.symm.trans (hid si hsi (hsame.trans (of_decide_eq_true heq)))

theorem restoreSysv_ok_iff (hknown : Known table l) : restoreSysv table l = .ok fds ↔
    fds = l.map (fun p => markOf p.1) ∧
      ∀ si ∈ table.entries, si.sysv = true → Accepts si.size [] (ofSegment si.shmid l) := by
  constructor
  · intro h
    unfold restoreSysv at h
    split at h
    · cases h
    next hopen =>
    split at h
    · next hfix =>
      obtain ⟨hmarks, hlane⟩ := (openShmemSysv_ok_iff hknown).mp hopen
      refine ⟨Except.ok.inj h ▸ hmarks, fun si hsi hs => ?_⟩
      have hall := all_eq_true.mp hfix si hsi
      rw [hs] at hall
      exact ⟨_, hlane si.shmid, all_eq_true.mp hall⟩
    · cases h
  rintro ⟨rfl, h⟩
  have hlane : ∀ id, ∃ as, extend [] (ofSegment id l) = .ok as := by
    intro id
    by_cases hid : ∃ si ∈ table.entries, si.shmid = id ∧ si.sysv = true
    · obtain ⟨si, hsi, rfl, hs⟩ := hid
      exact (h si hsi hs).imp fun _ ha => ha.1
    · refine ⟨[], ?_⟩
      rw [hknown.ofSegment_nil fun si hsi heq => ?_, extend]
      exact Bool.eq_false_iff.mpr fun hs => hid ⟨si, hsi, heq, hs⟩
  choose atts' hlane using hlane
  have hfix : fixupSysvShmems table atts' = true := by
    apply all_eq_true.mpr
    intro si hsi
    cases hs : si.sysv with
    | false => rfl
    | true =>
      obtain ⟨as, hext, hall⟩ := h si hsi hs
      obtain rfl := Except.ok.inj ((hlane si.shmid).symm.trans hext)
      exact all_eq_true.mpr hall
  rw [restoreSysv, (openShmemSysv_ok_iff hknown).mpr ⟨rfl, hlane⟩]
  exact if_pos hfix

def fdsOf (id : ℕ) (l : List (SysvVma × Stray)) (fds : List ShmemFd) : List ShmemFd :=
  ((l.zip fds).filter fun p => p.1.1.shmid = id).map Prod.snd

def runFds (id : ℕ) (r : List SysvVma) : List ShmemFd :=
  .segment id :: List.replicate (r.length - 1) .skip

theorem IsAttach.marks {r : List SysvVma} (h : IsAttach size r)
    (hid : ∀ v ∈ r, v.shmid = id) : r.map markOf = runFds id r := by
  cases r with
  | nil => exact h.elim
  | cons v vs =>
    obtain ⟨hv, htail⟩ := h
    have hrest : ∀ w ∈ vs, markOf w = .skip := fun w hw => if_neg (htail.pos v.filled w hw)
    rw [map_cons, map_congr_left hrest, map_const', markOf, if_pos hv, hid v mem_cons_self]
    rfl

theorem fdsOf_marks (id : ℕ) (l : List (SysvVma × Stray)) : fdsOf id l (l.map fun p => markOf p.1) =
      ((ofSegment id l).map Prod.fst).map markOf := by
  rw [fdsOf, ← map_prod_left_eq_zip, filter_map, map_map, map_map]
  rfl

/-- The property: a restore succeeds exactly if the areas of each segment split into whole
attaches, and then marks the first area of each. -/
def WholeAttaches (table : ShmemTable) (l : List (SysvVma × Stray)) : Prop :=
  ((∃ fds, restoreSysv table l = .ok fds) ↔
    ∀ si ∈ table.entries, Whole si.size ((ofSegment si.shmid l).map Prod.fst)) ∧
  ∀ fds, restoreSysv table l = .ok fds → ∀ si ∈ table.entries, ∀ runs,
    SplitsAs si.size ((ofSegment si.shmid l).map Prod.fst) runs →
      fdsOf si.shmid l fds = runs.flatMap (runFds si.shmid)

/-- Some area comes before all attaches of its segment, and nothing stops the restore: the
stray memory matches all such areas, and the others split into attaches. -/
def OrphansPass (table : ShmemTable) (l : List (SysvVma × Stray)) : Prop :=
  (∃ si ∈ table.entries, orphans (ofSegment si.shmid l) ≠ []) ∧
    ∀ si ∈ table.entries, (∀ p ∈ orphans (ofSegment si.shmid l), StrayMatches p) ∧
      Whole si.size ((afterOrphans (ofSegment si.shmid l)).map Prod.fst)

theorem marks_of_splits {runs : List (List SysvVma)}
    (h : SplitsAs size ((ofSegment id l).map Prod.fst) runs) :
    fdsOf id l (l.map fun p => markOf p.1) = runs.flatMap (runFds id) := by
  obtain ⟨heq, hruns⟩ := h
  have hid : ∀ r ∈ runs, ∀ v ∈ r, v.shmid = id := by
    intro r hr v hv
    have hmem : v ∈ (ofSegment id l).map Prod.fst := heq ▸ mem_flatten.mpr ⟨r, hr, hv⟩
    obtain ⟨p, hp, rfl⟩ := mem_map.mp hmem
    exact of_decide_eq_true (mem_filter.mp hp).2
  rw [fdsOf_marks, heq, map_flatten]
  exact congrArg flatten (map_congr_left fun r hr => (hruns r hr).marks (hid r hr))

/-- For areas of known segments the restore accepts exactly the whole attaches, unless areas
that continue no attach pass because of what lies behind a `shmem_info`. -/
theorem sysv_attaches_whole_iff (hknown : Known table l) :
    WholeAttaches table l ↔ ¬ OrphansPass table l := by
  have hok : (∃ fds, restoreSysv table l = .ok fds) ↔
      ∀ si ∈ table.entries, (∀ p ∈ orphans (ofSegment si.shmid l), StrayMatches p) ∧
        Whole si.size ((afterOrphans (ofSegment si.shmid l)).map Prod.fst) := by
    simp only [restoreSysv_ok_iff hknown, exists_and_right, exists_eq, true_and]
    constructor
    · intro h si hsi
      cases hs : si.sysv with
      | false =>
        rw [hknown.ofSegment_nil fun sj hsj heq =>
          inj_on_of_nodup_map table.nodup hsj hsi heq ▸ hs]
        exact ⟨nofun, whole_nil⟩
      | true => exact (accepts_nil_iff si.bound).mp (h si hsi hs)
    · exact fun h si hsi _ => (accepts_nil_iff si.bound).mpr (h si hsi)
  constructor
  · intro h hpass
    obtain ⟨⟨si, hsi, hne⟩, hall⟩ := hpass
    exact hne (whole_iff.mp (h.1.mp (hok.mpr hall) si hsi)).1
  intro hno
  refine ⟨⟨fun hs si hsi => whole_iff.mpr ?_, fun hw => hok.mpr fun si hsi => ?_⟩, ?_⟩
  · refine ⟨?_, (hok.mp hs si hsi).2⟩
    by_contra hne
    exact hno ⟨⟨si, hsi, hne⟩, hok.mp hs⟩
  · obtain ⟨hnil, hrest⟩ := whole_iff.mp (hw si hsi)
    rw [hnil]
    exact ⟨nofun, hrest⟩
  · intro fds hfds si _ runs hruns
    rw [((restoreSysv_ok_iff hknown).mp hfds).1]
    exact marks_of_splits hruns

end Task

def twoPages : ShmemTable := ⟨[⟨7, 0x2000, true, by decide⟩], nodup_singleton 7⟩

def firstPage : SysvVma := ⟨0x1000, 0x2000, 0, 7, by decide, by decide⟩

def secondPage : SysvVma := ⟨0x2000, 0x3000, 0x1000, 7, by decide, by decide⟩

/-- One attach in two areas, with any stray memory. -/
theorem two_areas_whole : WholeAttaches twoPages [(firstPage, ⟨0, none⟩), (secondPage, ⟨0, none⟩)] ∧
    restoreSysv twoPages [(firstPage, ⟨0, none⟩), (secondPage, ⟨0, none⟩)] =
      .ok [.segment 7, .skip] := by
  refine ⟨(sysv_attaches_whole_iff ?_).mpr ?_, by decide⟩
  · intro p hp
    refine ⟨_, mem_singleton_self _, ?_, rfl⟩
    rcases mem_pair.mp hp with rfl | rfl <;> rfl
  · intro h
    obtain ⟨⟨si, hsi, hne⟩, -⟩ := h
    obtain rfl := mem_singleton.mp hsi
    exact hne rfl

/-- The second page alone is accepted if the memory behind the `shmem_info` holds its start
and the word before it points to the number 0x1000. -/
theorem orphan_page_accepted :
    restoreSysv twoPages [(secondPage, ⟨0x2000, some 0x1000⟩)] = .ok [.skip] ∧
      ¬ WholeAttaches twoPages [(secondPage, ⟨0x2000, some 0x1000⟩)] := by
  have hok : restoreSysv twoPages [(secondPage, ⟨0x2000, some 0x1000⟩)] = .ok [.skip] := by decide
  refine ⟨hok, fun h => ?_⟩
  have hw : Whole 0x2000 [secondPage] := h.1.mp ⟨_, hok⟩ _ (mem_singleton_self _)
  exact absurd (whole_cons.mp hw).1 (by decide)

end Criu.SysvAttach

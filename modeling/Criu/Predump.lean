import Mathlib.Tactic.Ring
import Criu.Lib.Fuel
import Criu.ImageWriter

/-!
Pre-dumping by `process_vm_readv` (criu/page-xfer.c). The iovecs of a page pipe buffer are
read into the user buffer; a call stops at the first page of the target that is gone, and
the iovec it stopped in is finished piece by piece. What was read is listed in `aux_iov`.
Every access to that array is checked here. Seen from outside, the loop goes through the
iovecs one by one and adds the readable runs of each.
-/

namespace Criu.Predump

open Fuel Pagemap ReadCursor PipeBuffers PipeContents ImageWriter List

variable {iov : Iovec} {n a q k m p cap b : ℕ} {rest : List Iovec} {strict : Bool}

inductive Errno
  | efault
  | esrch
deriving DecidableEq, Repr

/-- How the functions can go wrong: an access outside of `aux_iov` or `riov`, or a loop that
has used up its fuel. -/
inductive Fault
  | auxBounds
  | riovBounds
  | hang
deriving DecidableEq, Repr

/-- The process that is dumped: which pages can be read, by their address, and its memory. -/
structure Target where
  readable : ℕ → Bool
  mem : ℕ → UInt8
  gone : Bool
  gone_unreadable : gone = true → ∀ a, readable a = false

def pageBytes (mem : ℕ → UInt8) (a : ℕ) : List UInt8 := iovBytes mem ⟨a, pageSize⟩

/-- The pages that the call copies: the readable prefix of the remote iovecs, as far as the
local buffer goes. -/
def copiedPages (t : Target) (room : ℕ) (riov : List Iovec) : List ℕ :=
  ((riov.flatMap iovPages).take (room / pageSize)).takeWhile t.readable

/-- `process_vm_readv` with one local iovec of length `room`. -/
def processVmReadv (t : Target) (room : ℕ) (riov : List Iovec) : Except Errno (List UInt8) :=
  if room = 0 then .ok []
  else if t.gone then .error .esrch
  else if copiedPages t room riov = [] then .error .efault
  else .ok ((copiedPages t room riov).flatMap (pageBytes t.mem))

/-- What the functions share: `aux_iov` up to `aux_len`, the user buffer up to
`bufvec->iov_base`, `bufvec->iov_len`, and what was taken off the count of written pages. -/
structure Fill where
  aux : List Iovec
  userbuf : List UInt8
  room : ℕ
  lost : ℕ
deriving DecidableEq, Repr

variable {t : Target} {s : Fill}

def Fill.receive (s : Fill) (data : List UInt8) : Fill :=
  { s with userbuf := s.userbuf ++ data, room := s.room - data.length }

def Fill.lose (s : Fill) : Fill := { s with lost := s.lost + 1 }

/-- A write to `aux_iov[aux_len]`. -/
def push (cap : ℕ) (aux : List Iovec) (iov : Iovec) : Except Fault (List Iovec) :=
  if aux.length < cap then .ok (aux ++ [iov]) else .error .auxBounds

/-- A write to the length of `aux_iov[aux_len - 1]`. -/
def setLast (aux : List Iovec) (f : ℕ → ℕ) : Except Fault (List Iovec) :=
  match aux.getLast? with
  | some r => .ok (aux.dropLast ++ [⟨r.base, f r.len⟩])
  | none => .error .auxBounds

/-- The merge test, which reads `aux_iov[aux_len - 1]`. Without `strict` it is taken as false
when nothing was recorded yet. -/
def merges (strict : Bool) (aux : List Iovec) (a : ℕ) : Except Fault Bool :=
  match aux.getLast? with
  | some r => .ok (r.base + r.len == a)
  | none => if strict then .error .auxBounds else .ok false

def faultyLoop (strict : Bool) (cap : ℕ) (t : Target) :
    ℕ → Iovec → Fill → ℕ → Except Fault (Fill × ℕ)
  | 0, _, _, _ => .error .hang
  | fuel + 1, dummy, s, finalReadCnt =>
      if dummy.len = 0 then .ok (s, finalReadCnt)
      else match processVmReadv t s.room [dummy] with
        | .error _ =>
            faultyLoop strict cap t fuel ⟨dummy.base + pageSize, dummy.len - pageSize⟩ s.lose
              finalReadCnt
        | .ok data => do
            let merge ← merges strict s.aux dummy.base
            let aux ← if merge then setLast s.aux (· + data.length)
              else push cap s.aux ⟨dummy.base, data.length⟩
            faultyLoop strict cap t fuel ⟨dummy.base + data.length, dummy.len - data.length⟩
              { s.receive data with aux := aux } (finalReadCnt + data.length)

def handleFaultyIov (strict : Bool) (cap : ℕ) (t : Target) (fuel : ℕ) (riov : List Iovec)
    (faultyIndex : ℕ) (s : Fill) (partialReadBytes : ℕ) : Except Fault (Fill × ℕ) :=
  match riov[faultyIndex]? with
  | none => .error .riovBounds
  | some iov =>
      if iov.len = pageSize then .ok (s.lose, 0)
      else
        let offset := if partialReadBytes ≠ 0 then partialReadBytes else pageSize
        let s' := if partialReadBytes = 0 then s.lose else s
        faultyLoop strict cap t fuel ⟨iov.base + offset, iov.len - offset⟩ s' 0

/-- The loop of `analyze_iov`, over the iovecs from `riov[*index]` on. -/
def analyzeLoop (cap bytesRead : ℕ) :
    List Iovec → ℕ → ℕ → List Iovec → Except Fault (ℕ × ℕ × List Iovec)
  | [], processed, index, aux =>
      if processed < bytesRead then .error .riovBounds else .ok (processed, index, aux)
  | iov :: rest, processed, index, aux =>
      if processed < bytesRead then do
        let aux' ← push cap aux iov
        analyzeLoop cap bytesRead rest (processed + iov.len) (index + 1) aux'
      else .ok (processed, index, aux)

/-- The new index, the bytes read of a partly read iovec, and `aux_iov`. -/
def analyzeIov (cap bytesRead : ℕ) (riov : List Iovec) (index : ℕ) (aux : List Iovec) :
    Except Fault (ℕ × ℕ × List Iovec) := do
  let (processed, index', aux') ← analyzeLoop cap bytesRead (riov.drop index) 0 index aux
  if processed - bytesRead ≠ 0 then
    match riov[index' - 1]? with
    | none => .error .riovBounds
    | some iov =>
        let partialReadBytes := iov.len - (processed - bytesRead)
        let aux'' ← setLast aux' (fun _ => partialReadBytes)
        .ok (index' - 1, partialReadBytes, aux'')
  else .ok (index', 0, aux')

/-- `ESRCH`, which `fill_userbuf` returns in place of a count. -/
def esrch : ℕ := 3

/-- The rest of the loop body of `fill_userbuf` once it is known where the call stopped. -/
def finishIov (strict : Bool) (cap : ℕ) (t : Target) (fuel : ℕ) (riov : List Iovec)
    (start : ℕ) (s : Fill) (partialReadBytes : ℕ) : Except Fault (Fill × ℕ) :=
  if start < riov.length then handleFaultyIov strict cap t fuel riov start s partialReadBytes
  else .ok (s, 0)

/-- What the call has read is entered into `aux_iov`. -/
def recordRead (cap : ℕ) (riov : List Iovec) (start : ℕ) (s : Fill) (data : List UInt8) :
    Except Fault (ℕ × ℕ × Fill) :=
  if 0 < data.length then do
    let (start', partialReadBytes, aux) ← analyzeIov cap data.length riov start s.aux
    .ok (start', partialReadBytes, { s.receive data with aux := aux })
  else .ok (start, 0, s)

def fillLoop (strict : Bool) (cap : ℕ) (t : Target) (riov : List Iovec) :
    ℕ → ℕ → Fill → ℕ → Except Fault (Fill × ℕ)
  | 0, _, _, _ => .error .hang
  | fuel + 1, start, s, total =>
      match riov[start]? with
      | none => .ok (s, total)
      | some iov =>
          match processVmReadv t s.room (riov.drop start) with
          | .error e =>
              if iov.len = pageSize then
                fillLoop strict cap t riov fuel (start + 1) s.lose total
              else if e = .esrch then .ok (s, esrch)
              else do
                let (s', cnt) ← finishIov strict cap t fuel riov start s 0
                fillLoop strict cap t riov fuel (start + 1) s' (total + cnt)
          | .ok data => do
              let (start', partialReadBytes, s') ← recordRead cap riov start s data
              let (s'', cnt) ← finishIov strict cap t fuel riov start' s' partialReadBytes
              fillLoop strict cap t riov fuel (start' + 1) s'' (total + data.length + cnt)

/-- The user buffer and `aux_iov` of `page_xfer_predump_pages` before a page pipe buffer. -/
def freshFill (cap : ℕ) : Fill := { aux := [], userbuf := [], room := cap * pageSize, lost := 0 }

/-- `fill_userbuf` as `page_xfer_predump_pages` calls it. -/
def fillUserbuf (strict : Bool) (t : Target) (riov : List Iovec) (fuel : ℕ) :
    Except Fault (Fill × ℕ) :=
  fillLoop strict pipeMaxSize t riov fuel 0 (freshFill pipeMaxSize) 0

/-! ### Runs of pages -/

/-- The addresses of `n` pages from `a` on. -/
def pagesFrom : ℕ → ℕ → List ℕ
  | _, 0 => []
  | a, n + 1 => a :: pagesFrom (a + pageSize) n

/-- The runs of pages that pass the test, among `n` pages from `a` on. -/
def runs (ok : ℕ → Bool) : ℕ → ℕ → List Iovec
  | _, 0 => []
  | a, n + 1 =>
      if ok a then
        match runs ok (a + pageSize) n with
        | [] => [⟨a, pageSize⟩]
        | r :: rs =>
            if r.base = a + pageSize then ⟨a, r.len + pageSize⟩ :: rs
            else ⟨a, pageSize⟩ :: r :: rs
      else runs ok (a + pageSize) n

/-- The pages that pass the test can be stored one by one before `p` places are used up, and
no page is left over then. -/
def fits (ok : ℕ → Bool) : ℕ → ℕ → ℕ → Bool
  | _, 0, _ => true
  | _, _ + 1, 0 => false
  | a, n + 1, p + 1 => if ok a then fits ok (a + pageSize) n p else fits ok (a + pageSize) n (p + 1)

variable {r dummy : Iovec}

section Runs

variable {ok : ℕ → Bool}

@[simp] theorem length_pagesFrom (a n : ℕ) : (pagesFrom a n).length = n := by
  induction n generalizing a with
  | zero => rfl
  | succ n ih => simp [pagesFrom, ih]

/-- Where a stretch ends, seen from its second page. -/
theorem page_succ (a k : ℕ) : a + pageSize + k * pageSize = a + (k + 1) * pageSize := by ring

theorem pages_ne_zero (h : 0 < n) : n * pageSize ≠ 0 := Nat.mul_ne_zero h.ne' (by decide)

theorem pages_div (n : ℕ) : n * pageSize / pageSize = n := Nat.mul_div_cancel n (by decide)

theorem pagesFrom_add (a m n : ℕ) :
    pagesFrom a (m + n) = pagesFrom a m ++ pagesFrom (a + m * pageSize) n := by
  induction m generalizing a with
  | zero => simp [pagesFrom]
  | succ m ih => rw [Nat.succ_add, pagesFrom, ih, pagesFrom, cons_append, page_succ]

theorem iovPages_eq (h : iov.len = n * pageSize) : iovPages iov = pagesFrom iov.base n := by
  rw [iovPages, h, pages_div]
  clear h
  induction n with
  | zero => rfl
  | succ n ih => rw [range_succ, map_append, ih, pagesFrom_add]; rfl

/-- The `k` pages from `a` on pass the test. -/
def Good (ok : ℕ → Bool) (a k : ℕ) : Prop := ∀ x ∈ pagesFrom a k, ok x = true

theorem Good.head (h : Good ok a (k + 1)) : ok a = true := h a mem_cons_self

theorem Good.tail (h : Good ok a (k + 1)) : Good ok (a + pageSize) k :=
  fun x hx => h x (mem_cons_of_mem _ hx)

theorem Good.mono (h : Good ok a n) (hk : k ≤ n) : Good ok a k := by
  intro x hx
  obtain ⟨m, rfl⟩ := Nat.exists_eq_add_of_le hk
  exact h x (by rw [pagesFrom_add]; exact mem_append_left _ hx)

/-- A block of `k` pages that pass the test, and behind it a page that does not, or no page. -/
structure Block (ok : ℕ → Bool) (a k m : ℕ) : Prop where
  all : Good ok a k
  next : 0 < m → ok (a + k * pageSize) = false

inductive Blocks (ok : ℕ → Bool) : ℕ → ℕ → Prop
  | done (a : ℕ) : Blocks ok a 0
  | skip {a n : ℕ} : ok a = false → Blocks ok (a + pageSize) n → Blocks ok a (n + 1)
  | block {a k m : ℕ} : Block ok a (k + 1) m → Blocks ok (a + (k + 1) * pageSize) m →
      Blocks ok a (k + 1 + m)

theorem blocks (ok : ℕ → Bool) (a n : ℕ) : Blocks ok a n := by
  induction n generalizing a with
  | zero => exact .done a
  | succ n ih =>
    by_cases ha : ok a = true
    · have hone : Good ok a 1 := by simpa [Good, pagesFrom] using ha
      have hrest := ih (a + pageSize)
      cases hrest with
      | done => exact .block ⟨hone, by omega⟩ (.done _)
      | @skip _ n hskip hrest =>
        rw [show n + 1 + 1 = 0 + 1 + (n + 1) by omega]
        exact .block ⟨hone, fun _ => by exact hskip⟩ (by exact .skip hskip hrest)
      | @block _ k m hblock hrest =>
        rw [show k + 1 + m + 1 = k + 1 + 1 + m by omega]
        refine .block ⟨?_, fun hm => ?_⟩ (by rw [← page_succ]; exact hrest)
        · simpa [Good, pagesFrom, ha] using hblock.all
        · rw [← page_succ]
          exact hblock.next hm
    · exact .skip (by simpa using ha) (ih _)

theorem runs_skip (h : ok a = false) : runs ok a (n + 1) = runs ok (a + pageSize) n := by
  simp [runs, h]

theorem runs_base : ∀ r ∈ runs ok a n, ok r.base = true := by
  induction n generalizing a with
  | zero => exact nofun
  | succ n ih =>
    have hrest := @ih (a + pageSize)
    rw [runs]
    split
    · next ha =>
      cases hr : runs ok (a + pageSize) n with
      | nil => exact forall_mem_singleton.mpr ha
      | cons r rs =>
        rw [hr, forall_mem_cons] at hrest
        dsimp only
        split
        · exact forall_mem_cons.mpr ⟨ha, hrest.2⟩
        · exact forall_mem_cons.mpr ⟨ha, forall_mem_cons.mpr hrest⟩
    · exact hrest

theorem Block.runs_ne (h : Block ok a k m) :
    ∀ r ∈ runs ok (a + k * pageSize) m, r.base ≠ a + k * pageSize := by
  intro r hr heq
  rcases Nat.eq_zero_or_pos m with rfl | hm
  · cases hr
  · have hok := runs_base r hr
    rw [heq, h.next hm] at hok
    cases hok

theorem runs_block (h : Block ok a (k + 1) m) : runs ok a (k + 1 + m) =
    ⟨a, (k + 1) * pageSize⟩ :: runs ok (a + (k + 1) * pageSize) m := by
  obtain ⟨hall, hnext⟩ := h
  induction k generalizing a with
  | zero =>
    have hne := Block.runs_ne ⟨hall, hnext⟩
    rw [show 0 + 1 + m = m + 1 by omega, runs]
    simp only [hall.head, Nat.zero_add, Nat.one_mul] at hne ⊢
    cases hr : runs ok (a + pageSize) m with
    | nil => rfl
    | cons r rs => simp [hne r (hr ▸ mem_cons_self ..)]
  | succ k ih =>
    rw [show k + 1 + 1 + m = (k + 1 + m) + 1 by omega, runs]
    simp only [hall.head]
    rw [ih hall.tail (by rw [page_succ]; exact hnext), page_succ]
    simp [← Nat.succ_mul]

theorem fits_skip (h : ok a = false) (hp : 0 < p) :
    fits ok a (n + 1) p = fits ok (a + pageSize) n p := by
  obtain ⟨p, rfl⟩ := Nat.exists_eq_succ_of_ne_zero hp.ne'
  simp [fits, h]

theorem fits_block (hall : Good ok a k) :
    fits ok a (k + m) (k + p) = fits ok (a + k * pageSize) m p := by
  induction k generalizing a with
  | zero => simp
  | succ k ih =>
    rw [show k + 1 + m = (k + m) + 1 by omega, show k + 1 + p = (k + p) + 1 by omega, fits]
    simp only [hall.head, if_true]
    rw [ih hall.tail, page_succ]

/-- No page may be left when the places are used up. -/
theorem fits_full (hall : Good ok a p) (hn : p < n) : fits ok a n p = false := by
  obtain ⟨j, rfl⟩ := Nat.exists_eq_add_of_lt hn
  exact fits_block (m := j + 1) (p := 0) hall

/-- A scan of the pages that stops in their first block. -/
theorem takeWhile_stop (h : Block ok a k m) (hstop : p ≤ k ∨ 0 < m) (more : List ℕ) :
    ((pagesFrom a (k + m) ++ more).take p).takeWhile ok = pagesFrom a (min k p) := by
  obtain ⟨hall, hnext⟩ := h
  induction k generalizing a p with
  | zero =>
    rcases Nat.eq_zero_or_pos m with rfl | hm
    · have hp : p = 0 := by omega
      simp [hp, pagesFrom]
    · have ha : ok a = false := by simpa using hnext hm
      obtain ⟨m, rfl⟩ := Nat.exists_eq_succ_of_ne_zero hm.ne'
      cases p with
      | zero => simp [pagesFrom]
      | succ p => simp [pagesFrom, ha]
  | succ k ih =>
    cases p with
    | zero => simp [pagesFrom]
    | succ p =>
      have hrest := ih (p := p) (by omega) hall.tail (by rw [page_succ]; exact hnext)
      rw [show k + 1 + m = (k + m) + 1 by omega, pagesFrom, cons_append,
        take_succ_cons, takeWhile_cons_of_pos hall.head, hrest, Nat.succ_min_succ]
      rfl

end Runs

/-! ### One call -/

def goodPages (t : Target) (a n : ℕ) : List ℕ := (pagesFrom a n).filter t.readable

def bytesOf (t : Target) (pages : List ℕ) : List UInt8 := pages.flatMap (pageBytes t.mem)

theorem length_bytesOf (t : Target) (pages : List ℕ) :
    (bytesOf t pages).length = pages.length * pageSize := by
  induction pages with
  | nil => rfl
  | cons a l ih =>
    have ha : (pageBytes t.mem a).length = pageSize := by simp [pageBytes, iovBytes]
    rw [bytesOf, flatMap_cons, length_append, ha, length_cons, Nat.succ_mul, Nat.add_comm]
    exact congrArg (· + pageSize) ih

section Call

theorem copiedPages_stop (rest : List Iovec) (hlen : iov.len = (k + m) * pageSize)
    (h : Block t.readable iov.base k m) (hstop : p ≤ k ∨ 0 < m) :
    copiedPages t (p * pageSize) (iov :: rest) = pagesFrom iov.base (min k p) := by
  rw [copiedPages, pages_div, flatMap_cons, iovPages_eq hlen]
  exact takeWhile_stop h hstop _

theorem copiedPages_through (hlen : iov.len = k * pageSize) (hall : Good t.readable iov.base k)
    (hk : k ≤ p) : copiedPages t (p * pageSize) (iov :: rest) =
      pagesFrom iov.base k ++ copiedPages t ((p - k) * pageSize) rest := by
  rw [copiedPages, pages_div, flatMap_cons, iovPages_eq hlen, copiedPages, pages_div, take_append,
    length_pagesFrom, take_of_length_le (by simpa using hk), takeWhile_append_of_pos hall]

/-- The call stops at once if the first page is gone. -/
theorem copiedPages_gap (rest : List Iovec) (hlen : iov.len = (m + 1) * pageSize)
    (hgap : t.readable iov.base = false) : copiedPages t (p * pageSize) (iov :: rest) = [] := by
  have hblock : Block t.readable iov.base 0 (m + 1) :=
    ⟨by simp [Good, pagesFrom], fun _ => by simpa using hgap⟩
  rw [copiedPages_stop rest (by rw [hlen, Nat.zero_add]) hblock (by omega)]
  rfl

/-- A call on a live target, by the pages it copies. -/
theorem processVmReadv_eq (hlive : t.gone = false) (hp : 0 < p) (riov : List Iovec) :
    processVmReadv t (p * pageSize) riov =
      if copiedPages t (p * pageSize) riov = [] then .error .efault
      else .ok (bytesOf t (copiedPages t (p * pageSize) riov)) := by
  rw [processVmReadv]
  simp [pages_ne_zero hp, hlive, bytesOf]

theorem copiedPages_singleton (hlen : iov.len = (k + m) * pageSize)
    (h : Block t.readable iov.base k m) :
    copiedPages t (p * pageSize) [iov] = pagesFrom iov.base (min k p) := by
  by_cases hstop : p ≤ k ∨ 0 < m
  · exact copiedPages_stop _ hlen h hstop
  · rw [show k + m = k by omega] at hlen
    rw [copiedPages_through hlen h.all (by omega), Nat.min_eq_left (by omega)]
    simp [copiedPages]

theorem processVmReadv_full (t : Target) (riov : List Iovec) :
    processVmReadv t 0 riov = .ok [] := rfl

end Call

/-! ### The loop of `handle_faulty_iov` -/

/-- The state once `n` pages from `a` on were gone through. -/
def Fill.absorb (t : Target) (s : Fill) (a n : ℕ) : Fill :=
  { aux := s.aux ++ runs t.readable a n
    userbuf := s.userbuf ++ bytesOf t (goodPages t a n)
    room := s.room - (goodPages t a n).length * pageSize
    lost := s.lost + (n - (goodPages t a n).length) }

def Fill.take (t : Target) (s : Fill) (a k : ℕ) : Fill :=
  { s.receive (bytesOf t (pagesFrom a k)) with aux := s.aux ++ [⟨a, k * pageSize⟩] }

/-- The user buffer has room for whole pages, every recorded run for one place of the array,
and the last run ends with a page that was readable. -/
structure Sane (cap : ℕ) (t : Target) (s : Fill) (p : ℕ) : Prop where
  room : s.room = p * pageSize
  bound : s.aux.length + p ≤ cap
  last : ∀ r, s.aux.getLast? = some r → ∃ c, t.readable c = true ∧ r.base + r.len = c + pageSize

section Absorb

@[simp] theorem absorb_zero (t : Target) (s : Fill) (a : ℕ) : s.absorb t a 0 = s := by
  simp [Fill.absorb, runs, goodPages, pagesFrom, bytesOf]

theorem goodPages_skip (h : t.readable a = false) :
    goodPages t a (n + 1) = goodPages t (a + pageSize) n := by
  simp [goodPages, pagesFrom, h]

theorem goodPages_block (hall : Good t.readable a k) :
    goodPages t a (k + m) = pagesFrom a k ++ goodPages t (a + k * pageSize) m := by
  rw [goodPages, pagesFrom_add, filter_append, filter_eq_self.mpr hall, goodPages]

theorem length_goodPages_le (t : Target) (a n : ℕ) : (goodPages t a n).length ≤ n := by
  simpa [goodPages] using length_filter_le t.readable (pagesFrom a n)

theorem absorb_skip (h : t.readable a = false) :
    s.absorb t a (n + 1) = s.lose.absorb t (a + pageSize) n := by
  have hle := length_goodPages_le t (a + pageSize) n
  simp only [Fill.absorb, Fill.lose, runs_skip h, goodPages_skip h, Fill.mk.injEq, true_and]
  omega

theorem absorb_block (h : Block t.readable a (k + 1) m) :
    s.absorb t a (k + 1 + m) = (s.take t a (k + 1)).absorb t (a + (k + 1) * pageSize) m := by
  simp only [Fill.absorb, Fill.take, Fill.receive, runs_block h, goodPages_block h.all,
    bytesOf, flatMap_append, append_assoc, length_append, length_pagesFrom,
    Fill.mk.injEq, cons_append, nil_append, true_and]
  refine ⟨?_, by omega⟩
  have hlen := length_bytesOf t (pagesFrom a (k + 1))
  rw [bytesOf, length_pagesFrom] at hlen
  rw [hlen, Nat.add_mul, Nat.sub_add_eq]

theorem Sane.lose (h : Sane cap t s p) : Sane cap t s.lose p := { h with }

theorem Sane.lt_cap (h : Sane cap t s p) (hp : 0 < p) : s.aux.length < cap := by
  have := h.bound
  omega

/-- Reading a run takes its pages off the room and one place of the array. -/
theorem Sane.take (h : Sane cap t s (k + 1 + p)) (hall : Good t.readable a (k + 1)) :
    Sane cap t (s.take t a (k + 1)) p := by
  refine ⟨?_, ?_, fun r hr => ?_⟩
  · simp only [Fill.take, Fill.receive, length_bytesOf, length_pagesFrom, h.room, Nat.add_mul]
    omega
  · have := h.bound
    simp only [Fill.take, length_append, length_singleton]
    omega
  simp only [Fill.take, getLast?_append, getLast?_singleton, Option.some_or,
    Option.some.injEq] at hr
  refine ⟨a + k * pageSize, hall _ ?_, ?_⟩
  · rw [pagesFrom_add]
    simp [pagesFrom]
  · rw [← hr]
    ring

/-- After a page that cannot be read, the next run is a new one. -/
theorem Sane.merges_false (h : Sane cap t s p) (hb : t.readable b = false) (strict : Bool)
    (hs : ¬ (strict = true ∧ s.aux = [])) : merges strict s.aux (b + pageSize) = .ok false := by
  rw [merges]
  cases hl : s.aux.getLast? with
  | none =>
    have hnil : s.aux = [] := by simpa using hl
    simp [hnil] at hs
    simp [hs]
  | some r =>
    obtain ⟨c, hc, hend⟩ := h.last r hl
    have hne : r.base + r.len ≠ b + pageSize := by
      intro heq
      have hcb : c = b := by omega
      rw [hcb, hb] at hc
      cases hc
    simp [hne]

theorem push_ok {aux : List Iovec} (h : aux.length < cap) (iov : Iovec) :
    push cap aux iov = .ok (aux ++ [iov]) := by
  simp [push, h]

end Absorb

section Faulty

variable {cnt : ℕ}

/-- Without room the call copies nothing; the last run ends where it should go on, so the loop
adds nothing to it for ever. -/
theorem faultyLoop_full (hroom : s.room = 0) (hlen : dummy.len ≠ 0)
    (hlast : s.aux.getLast? = some r) (hend : r.base + r.len = dummy.base) (fuel : ℕ) :
    faultyLoop strict cap t fuel dummy s cnt = .error .hang := by
  induction fuel generalizing s with
  | zero => rfl
  | succ fuel ih =>
    obtain ⟨l, hl⟩ := getLast?_eq_some_iff.mp hlast
    have hmerge : merges strict s.aux dummy.base = .ok true := by simp [merges, hlast, hend]
    have hset : setLast s.aux (· + 0) = .ok s.aux := by simp [setLast, hl]
    simp only [faultyLoop, hlen, hroom, processVmReadv_full, hmerge]
    simp only [length_nil, hset]
    exact ih hroom hlast

theorem faultyLoop_done (fuel : ℕ) :
    faultyLoop strict cap t (fuel + 1) ⟨a, 0⟩ s cnt = .ok (s, cnt) := rfl

theorem faultyLoop_lose (hlive : t.gone = false) (hs : Sane cap t s p) (hp : 0 < p)
    (ha : t.readable a = false) (fuel : ℕ) :
    faultyLoop strict cap t (fuel + 1) ⟨a, (n + 1) * pageSize⟩ s cnt =
      faultyLoop strict cap t fuel ⟨a + pageSize, n * pageSize⟩ s.lose cnt := by
  have hlen : (n + 1) * pageSize ≠ 0 := pages_ne_zero n.succ_pos
  have hcopy : copiedPages t (p * pageSize) [⟨a, (n + 1) * pageSize⟩] = [] :=
    copiedPages_gap [] rfl ha
  have hsub : (n + 1) * pageSize - pageSize = n * pageSize := by
    rw [Nat.succ_mul]
    omega
  simp only [faultyLoop, hlen, if_false, hs.room, processVmReadv_eq hlive hp, hcopy, if_true, hsub]

/-- A readable block after a gap is recorded as a run of its own, as far as there is room. -/
theorem faultyLoop_read (cnt : ℕ) (hlive : t.gone = false) (hs : Sane cap t s p) (hp : 0 < p)
    (hk : 0 < k) (h : Block t.readable a k m)
    (hmerge : merges strict s.aux a = .ok false) (fuel : ℕ) :
    faultyLoop strict cap t (fuel + 1) ⟨a, (k + m) * pageSize⟩ s cnt = faultyLoop strict cap t fuel
        ⟨a + min k p * pageSize, (k + m - min k p) * pageSize⟩ (s.take t a (min k p))
        (cnt + min k p * pageSize) := by
  have hlen : (k + m) * pageSize ≠ 0 := pages_ne_zero (by omega)
  have hcopy : copiedPages t (p * pageSize) [⟨a, (k + m) * pageSize⟩] = pagesFrom a (min k p) :=
    copiedPages_singleton rfl h
  have hne : pagesFrom a (min k p) ≠ [] := by
    intro h
    have := congrArg List.length h
    simp only [length_pagesFrom, length_nil] at this
    omega
  have hpush := push_ok (hs.lt_cap hp) ⟨a, min k p * pageSize⟩
  simp only [faultyLoop, hlen, if_false, hs.room, processVmReadv_eq hlive hp, hcopy, hne, hmerge,
    length_bytesOf, length_pagesFrom]
  simp only [bind, Except.bind, Bool.false_eq_true, if_false, hpush, Nat.sub_mul, Fill.take]

def afterGap (strict : Bool) (t : Target) (b n p : ℕ) (s : Fill) (cnt : ℕ) :
    Except Fault (Fill × ℕ) :=
  if strict = true ∧ s.aux = [] ∧ runs t.readable (b + pageSize) n ≠ [] then .error .auxBounds
  else if fits t.readable (b + pageSize) n p then
    .ok (s.absorb t (b + pageSize) n,
      cnt + (goodPages t (b + pageSize) n).length * pageSize)
  else .error .hang

theorem afterGap_done : afterGap strict t b 0 p s cnt = .ok (s, cnt) := by
  simp [afterGap, runs, fits, goodPages, pagesFrom]

theorem afterGap_skip (hp : 0 < p) (h : t.readable (b + pageSize) = false) :
    afterGap strict t b (n + 1) p s cnt = afterGap strict t (b + pageSize) n p s.lose cnt := by
  rw [afterGap, runs_skip h, fits_skip h hp, absorb_skip h, goodPages_skip h]
  rfl

/-- A block that is read, and what follows. -/
theorem afterGap_block (h : Block t.readable (b + pageSize) (k + 1) m)
    (hs : ¬ (strict = true ∧ s.aux = [])) :
    afterGap strict t b (k + 1 + m) (k + 1 + p) s cnt =
      afterGap strict t (b + (k + 1) * pageSize) m p (s.take t (b + pageSize) (k + 1))
        (cnt + (k + 1) * pageSize) := by
  have hstrict : ¬ (strict = true ∧ s.aux = [] ∧
      runs t.readable (b + pageSize) (k + 1 + m) ≠ []) := fun h => hs ⟨h.1, h.2.1⟩
  have hstrict' : ¬ (strict = true ∧ (s.take t (b + pageSize) (k + 1)).aux = [] ∧
      runs t.readable (b + pageSize + (k + 1) * pageSize) m ≠ []) := by
    rintro ⟨-, h, -⟩
    simp [Fill.take] at h
  rw [afterGap, afterGap, Nat.add_right_comm b, if_neg hstrict, if_neg hstrict',
    fits_block h.all, absorb_block h, goodPages_block h.all, length_append, length_pagesFrom,
    Nat.add_mul (k + 1), Nat.add_assoc cnt]

/-- With nothing recorded the merge test of a strict run is out of bounds. -/
theorem faultyLoop_strict (hlive : t.gone = false) (hs : Sane cap t s p) (hp : 0 < p)
    (ha : t.readable a = true) (hnil : s.aux = []) (fuel : ℕ) :
    faultyLoop true cap t (fuel + 1) ⟨a, (n + 1) * pageSize⟩ s cnt = .error .auxBounds := by
  have hlen : (n + 1) * pageSize ≠ 0 := pages_ne_zero n.succ_pos
  have hcopy : copiedPages t (p * pageSize) [⟨a, (n + 1) * pageSize⟩] ≠ [] := by
    obtain ⟨p, rfl⟩ := Nat.exists_eq_succ_of_ne_zero hp.ne'
    have hpages : iovPages ⟨a, (n + 1) * pageSize⟩ = a :: pagesFrom (a + pageSize) n := by
      rw [iovPages_eq rfl, pagesFrom]
    simp [copiedPages, pages_div, hpages, ha]
  simp only [faultyLoop, hlen, hs.room, processVmReadv_eq hlive hp, hcopy, hnil]
  rfl

theorem getLast?_take (t : Target) (s : Fill) (a k : ℕ) :
    (s.take t a k).aux.getLast? = some ⟨a, k * pageSize⟩ := by
  simp [Fill.take]

theorem faultyLoop_ends (hlive : t.gone = false) (hs : Sane cap t s p) (hp : 0 < p)
    (hb : t.readable b = false ∨ t.readable (b + pageSize) = false) :
    Ends .hang (fun fuel => faultyLoop strict cap t fuel ⟨b + pageSize, n * pageSize⟩ s cnt)
      (n + 1) (afterGap strict t b n p s cnt) := by
  have hblocks := blocks t.readable (b + pageSize) n
  generalize hc : b + pageSize = c at hblocks
  induction hblocks generalizing s b p cnt with
  | done =>
    rw [afterGap_done]
    exact .succ rfl (fun fuel => faultyLoop_done fuel) (.const _ 0) (by omega)
  | skip hgap _ ih =>
    subst hc
    rw [afterGap_skip hp hgap]
    exact .succ rfl (faultyLoop_lose hlive hs hp hgap) (ih hs.lose hp (.inl hgap) rfl)
      (by omega)
  | @block _ k m h _ ih =>
    subst hc
    by_cases hstrict : strict = true ∧ s.aux = []
    · obtain ⟨rfl, hnil⟩ := hstrict
      have hbad : afterGap true t b (k + 1 + m) p s cnt = .error .auxBounds := by
        rw [afterGap, if_pos ⟨rfl, hnil, by rw [runs_block h]; simp⟩]
      rw [hbad, show k + 1 + m = k + m + 1 by omega]
      exact .succ rfl (faultyLoop_strict hlive hs hp h.all.head hnil) (.const _ 0) (by omega)
    have hb : t.readable b = false := hb.resolve_right (by simp [h.all.head])
    have hread := faultyLoop_read cnt hlive hs hp k.succ_pos h (hs.merges_false hb strict hstrict)
    have hgap : ¬ (strict = true ∧ s.aux = [] ∧
        runs t.readable (b + pageSize) (k + 1 + m) ≠ []) :=
      fun h => hstrict ⟨h.1, h.2.1⟩
    by_cases hfull : p ≤ k + 1 ∧ p < k + 1 + m
    · -- the room ends with the block or within it, and pages are left
      obtain ⟨p, rfl⟩ := Nat.exists_eq_succ_of_ne_zero hp.ne'
      have hall := h.all.mono hfull.1
      have hroom : (s.take t (b + pageSize) (p + 1)).room = 0 := by
        simpa using (Sane.take (p := 0) hs hall).room
      rw [Nat.min_eq_right hfull.1] at hread
      rw [afterGap, if_neg hgap, fits_full hall hfull.2]
      refine .succ rfl hread (.stuck (fun fuel => ?_) 0) (by omega)
      exact faultyLoop_full hroom (pages_ne_zero (by omega)) (getLast?_take ..) rfl fuel
    obtain ⟨p, rfl⟩ := Nat.exists_eq_add_of_le (show k + 1 ≤ p by omega)
    have hs1 := Sane.take hs h.all
    rw [Nat.min_eq_left (by omega), Nat.add_sub_cancel_left] at hread
    rcases Nat.eq_zero_or_pos m with rfl | hm
    · rw [afterGap_block h hstrict, afterGap_done]
      exact .succ rfl hread (.succ rfl (fun fuel => faultyLoop_done fuel)
        (.const _ 0) (Nat.lt_succ_self 0)) (by omega)
    have hadd : b + (k + 1) * pageSize + pageSize = b + pageSize + (k + 1) * pageSize :=
      Nat.add_right_comm ..
    rw [afterGap_block h hstrict]
    exact .succ rfl hread (ih hs1 (by omega) (.inr (by rw [hadd]; exact h.next hm)) hadd)
      (by omega)

end Faulty

/-! ### The loop of `fill_userbuf`, one iovec after the other -/

def fullOutcome (strict : Bool) (cap : ℕ) (aux : List Iovec) (a : ℕ) : Fault :=
  match merges strict aux a with
  | .error e => e
  | .ok true => .hang
  | .ok false => if aux.length < cap then .hang else .auxBounds

/-- What one call after the other comes to: every iovec adds its readable runs. Once the user
buffer is full, single pages are dropped and a longer iovec is where the loop gets stuck, after
a last access to `aux_iov`. -/
def fillEach (strict : Bool) (cap : ℕ) (t : Target) : List Iovec → Fill → Except Fault Fill
  | [], s => .ok s
  | iov :: rest, s =>
      if s.room = 0 then
        if iov.len = pageSize then fillEach strict cap t rest s.lose
        else .error (fullOutcome strict cap s.aux (iov.base + pageSize))
      else if strict = true ∧ s.aux = [] ∧ t.readable iov.base = false ∧
          runs t.readable iov.base (iov.len / pageSize) ≠ [] then .error .auxBounds
      else if fits t.readable iov.base (iov.len / pageSize) (s.room / pageSize) then
        fillEach strict cap t rest (s.absorb t iov.base (iov.len / pageSize))
      else .error .hang

def WellFormed (riov : List Iovec) : Prop :=
  ∀ iov ∈ riov, 0 < iov.len ∧ pageSize ∣ iov.len

def pageCount (riov : List Iovec) : ℕ := (riov.map (fun iov => iov.len / pageSize)).sum

theorem WellFormed.tail (h : WellFormed (iov :: rest)) : WellFormed rest :=
  fun x hx => h x (mem_cons_of_mem _ hx)

theorem exists_pages (hwf : WellFormed (iov :: rest)) :
    ∃ n, iov.len = (n + 1) * pageSize ∧ iov.len / pageSize = n + 1 := by
  obtain ⟨hpos, n, hlen⟩ := hwf iov mem_cons_self
  cases n with
  | zero => omega
  | succ n =>
    rw [Nat.mul_comm] at hlen
    exact ⟨n, hlen, by rw [hlen, pages_div]⟩

section Fill

variable {riov : List Iovec} {start total : ℕ}

theorem analyzeLoop_shift (cap x b : ℕ) (rest : List Iovec) (y i : ℕ) (aux : List Iovec) :
    analyzeLoop cap (x + b) rest (x + y) i aux =
      (analyzeLoop cap b rest y i aux).map (fun r => (x + r.1, r.2)) := by
  induction rest generalizing y i aux with
  | nil => by_cases h : y < b <;> simp [analyzeLoop, h, Except.map]
  | cons iov rest ih =>
    by_cases h : y < b
    · simp only [analyzeLoop, Nat.add_lt_add_iff_left, h, Nat.add_assoc]
      cases push cap aux iov with
      | error e => rfl
      | ok aux' => exact ih (y + iov.len) (i + 1) aux'
    · simp [analyzeLoop, h, Except.map]

theorem analyzeLoop_stop (cap : ℕ) (rest : List Iovec) (y i : ℕ) (aux : List Iovec) :
    analyzeLoop cap y rest y i aux = .ok (y, i, aux) := by
  cases rest <;> simp [analyzeLoop]

theorem len_eq_pageSize (hlen : iov.len = n * pageSize) : iov.len = pageSize ↔ n = 1 := by
  rw [hlen]
  constructor
  · intro h
    exact Nat.eq_of_mul_eq_mul_right (by decide : 0 < pageSize) (by omega)
  · rintro rfl
    exact Nat.one_mul _

theorem faultyLoop_room {cnt : ℕ} (hroom : s.room = 0) (hlen : dummy.len ≠ 0) :
    Ends .hang (fun fuel => faultyLoop strict cap t fuel dummy s cnt) 1
      (.error (fullOutcome strict cap s.aux dummy.base)) := by
  rw [fullOutcome]
  cases hm : merges strict s.aux dummy.base with
  | error e =>
    refine .succ rfl (fun fuel => ?_) (.const _ 0) (Nat.lt_succ_self 0)
    simp only [faultyLoop, hlen, hroom, hm]
    rfl
  | ok b =>
    cases b with
    | true =>
      rw [merges] at hm
      cases hl : s.aux.getLast? with
      | none =>
        rw [hl] at hm
        cases strict <;> cases hm
      | some r =>
        rw [hl] at hm
        have hend : r.base + r.len = dummy.base := by simpa using hm
        exact .stuck (faultyLoop_full hroom hlen hl hend) 1
    | false =>
      by_cases hcap : s.aux.length < cap
      · -- an empty run is recorded, and nothing is added to it for ever
        simp only [hcap]
        have hstuck : ∀ fuel, faultyLoop strict cap t fuel dummy
            { s with aux := s.aux ++ [⟨dummy.base, 0⟩] } cnt = .error .hang :=
          faultyLoop_full hroom hlen getLast?_concat rfl
        refine .succ rfl (fun fuel => ?_) (.stuck hstuck 0) (Nat.lt_succ_self 0)
        simp only [faultyLoop, hlen, hroom, processVmReadv_full, hm]
        simp only [bind, Except.bind, Bool.false_eq_true, if_false, push_ok hcap,
          length_nil, Nat.add_zero, Nat.sub_zero, Fill.receive, append_nil]
        rw [hroom]
      · refine .succ rfl (fun fuel => ?_) (.const _ 0) (Nat.lt_succ_self 0)
        simp only [faultyLoop, hlen, hroom, processVmReadv_full, hm]
        simp only [bind, Except.bind, Bool.false_eq_true, if_false, push, hcap]

theorem length_userbuf_absorb (t : Target) (s : Fill) (a n : ℕ) : (s.absorb t a n).userbuf.length =
      s.userbuf.length + (goodPages t a n).length * pageSize := by
  simp only [Fill.absorb, length_append, length_bytesOf]

theorem length_userbuf_take (t : Target) (s : Fill) (a k : ℕ) :
    (s.take t a k).userbuf.length = s.userbuf.length + k * pageSize := by
  simp only [Fill.take, Fill.receive, length_append, length_bytesOf, length_pagesFrom]

theorem Sane.absorb (hs : Sane cap t s p) (hf : fits t.readable a n p = true) :
    ∃ p', Sane cap t (s.absorb t a n) p' := by
  have hblocks := blocks t.readable a n
  induction hblocks generalizing s p with
  | done => exact ⟨p, by rw [absorb_zero]; exact hs⟩
  | skip hgap _ ih =>
    rcases Nat.eq_zero_or_pos p with rfl | hp
    · cases hf
    · rw [fits_skip hgap hp] at hf
      rw [absorb_skip hgap]
      exact ih hs.lose hf
  | @block _ k _ h _ ih =>
    rcases Nat.lt_or_ge p (k + 1) with hlt | hge
    · rw [fits_full (h.all.mono hlt.le) (by omega)] at hf
      cases hf
    · obtain ⟨p, rfl⟩ := Nat.exists_eq_add_of_le hge
      rw [fits_block h.all] at hf
      rw [absorb_block h]
      exact ih (Sane.take hs h.all) hf

/-- The loop from `start` on ends as `r`, and has counted what the user buffer holds. -/
def FillEnds (strict : Bool) (cap : ℕ) (t : Target) (riov : List Iovec) (start : ℕ) (s : Fill)
    (n : ℕ) (r : Except Fault Fill) : Prop :=
  Ends .hang (fun fuel => fillLoop strict cap t riov fuel start s s.userbuf.length) n
    (r.map (fun s' => (s', s'.userbuf.length)))

def RestEnds (strict : Bool) (cap : ℕ) (t : Target) (riov : List Iovec) (start : ℕ)
    (rest : List Iovec) : Prop :=
  ∀ s p, Sane cap t s p →
    FillEnds strict cap t riov start s (pageCount rest + 2) (fillEach strict cap t rest s)

def iovOutcome (strict : Bool) (cap : ℕ) (t : Target) (rest : List Iovec) (s : Fill)
    (a n p : ℕ) : Except Fault Fill :=
  if strict = true ∧ s.aux = [] ∧ t.readable a = false ∧ runs t.readable a n ≠ [] then
    .error .auxBounds
  else if fits t.readable a n p then fillEach strict cap t rest (s.absorb t a n)
  else .error .hang

theorem fillEach_cons (hroom : s.room = p * pageSize) (hp : 0 < p) :
    fillEach strict cap t (iov :: rest) s =
      iovOutcome strict cap t rest s iov.base (iov.len / pageSize) p := by
  have hroom' : s.room ≠ 0 := hroom ▸ pages_ne_zero hp
  rw [fillEach, if_neg hroom', hroom, pages_div, iovOutcome]

/-- Behind the first gap of an iovec, and then the rest of the buffer. -/
theorem afterGap_ends {s₀ : Fill} {n₀ p₀ : ℕ} {f : ℕ → Except Fault (Fill × ℕ)}
    (hf : Ends .hang f (n + 2) (afterGap strict t b n p s 0)) (hs₀ : Sane cap t s₀ p₀)
    (hbad : (strict = true ∧ s.aux = [] ∧ runs t.readable (b + pageSize) n ≠ []) ↔
      (strict = true ∧ s₀.aux = [] ∧ t.readable a = false ∧ runs t.readable a n₀ ≠ []))
    (hfits : fits t.readable (b + pageSize) n p = fits t.readable a n₀ p₀)
    (habs : s.absorb t (b + pageSize) n = s₀.absorb t a n₀)
    (hrest : RestEnds strict cap t riov (start + 1) rest) :
    Ends .hang (fun fuel => f fuel >>= fun r =>
        fillLoop strict cap t riov fuel (start + 1) r.1 (s.userbuf.length + r.2))
      (n + pageCount rest + 2)
      ((iovOutcome strict cap t rest s₀ a n₀ p₀).map (fun s' => (s', s'.userbuf.length))) := by
  rw [afterGap] at hf
  rw [iovOutcome]
  by_cases h : strict = true ∧ s.aux = [] ∧ runs t.readable (b + pageSize) n ≠ []
  · rw [if_pos h] at hf
    rw [if_pos (hbad.mp h)]
    exact hf.bind_error.mono (by omega)
  rw [if_neg h] at hf
  rw [if_neg (fun h' => h (hbad.mpr h'))]
  rw [hfits] at hf
  by_cases hfit : fits t.readable a n₀ p₀ = true
  · rw [if_pos hfit] at hf ⊢
    obtain ⟨p', hs'⟩ := hs₀.absorb hfit
    have hgo := (hrest _ p' hs').mono (show pageCount rest + 2 ≤ n + pageCount rest + 2 by omega)
    refine (hf.mono (by omega)).bind ?_
    rw [← habs, length_userbuf_absorb] at hgo
    simpa only [Nat.zero_add, habs] using hgo
  · rw [if_neg hfit] at hf ⊢
    exact hf.bind_error.mono (by omega)

section Iov

variable (hd : riov.drop start = iov :: rest)
include hd

theorem getElem?_of_drop : riov[start]? = some iov := by
  rw [← head?_drop, hd, head?_cons]

/-- What is read behind an iovec that was read as a whole is entered as if it was read by a call
of its own. -/
theorem recordRead_cons (hlen : iov.len = (k + 1) * pageSize)
    (hcap : s.aux.length < cap) (data : List UInt8) :
    recordRead cap riov start s (bytesOf t (pagesFrom iov.base (k + 1)) ++ data) =
      recordRead cap riov (start + 1) (s.take t iov.base (k + 1)) data := by
  have hd' : riov.drop (start + 1) = rest := by rw [← drop_drop, hd]; rfl
  have haux : (s.take t iov.base (k + 1)).aux = s.aux ++ [iov] := by
    rw [Fill.take, ← hlen]
  have hlenb : (bytesOf t (pagesFrom iov.base (k + 1)) ++ data).length =
      iov.len + data.length := by
    rw [length_append, length_bytesOf, length_pagesFrom, hlen]
  have hpos : 0 < iov.len + data.length := by
    rw [hlen, Nat.succ_mul]
    have : 0 < pageSize := by decide
    omega
  have hloop : analyzeLoop cap (iov.len + data.length) (riov.drop start) 0 start s.aux =
      (analyzeLoop cap data.length rest 0 (start + 1) (s.aux ++ [iov])).map
        (fun r => (iov.len + r.1, r.2)) := by
    rw [hd, analyzeLoop, if_pos hpos, push_ok hcap, ← analyzeLoop_shift]
    simp only [bind, Except.bind, Nat.zero_add, Nat.add_zero]
  have hrecv : ∀ aux, { s.receive (bytesOf t (pagesFrom iov.base (k + 1)) ++ data) with
      aux := aux } = { (s.take t iov.base (k + 1)).receive data with aux := aux } := by
    intro aux
    simp only [Fill.receive, Fill.take, append_assoc, length_append, Nat.sub_add_eq]
  rw [recordRead, hlenb, if_pos hpos, analyzeIov, hloop, recordRead]
  by_cases hdata : 0 < data.length
  · rw [if_pos hdata, analyzeIov, hd', haux]
    cases analyzeLoop cap data.length rest 0 (start + 1) (s.aux ++ [iov]) with
    | error e => rfl
    | ok r =>
      simp only [Except.map, bind, Except.bind, Nat.add_sub_add_left, hrecv]
  have hnil : data = [] := by simpa using hdata
  subst hnil
  rw [length_nil, analyzeLoop_stop]
  simp only [Except.map, bind, Except.bind, hrecv]
  rw [← haux]
  simp [Fill.receive]

theorem recordRead_stop
    (hlen : iov.len = (k + 1 + (m + 1)) * pageSize) (hcap : s.aux.length < cap) :
    recordRead cap riov start s (bytesOf t (pagesFrom iov.base (k + 1))) =
      .ok (start, (k + 1) * pageSize, s.take t iov.base (k + 1)) := by
  have hpos : 0 < (k + 1) * pageSize := Nat.mul_pos (by omega) (by decide)
  have hmore : (k + 1) * pageSize < iov.len := by
    rw [hlen]
    exact Nat.mul_lt_mul_of_pos_right (by omega) (by decide)
  have hloop : analyzeLoop cap ((k + 1) * pageSize) (riov.drop start) 0 start s.aux =
      .ok (iov.len, start + 1, s.aux ++ [iov]) := by
    rw [hd, analyzeLoop, if_pos hpos, push_ok hcap]
    cases rest <;> simp [bind, Except.bind, analyzeLoop, hmore.le]
  have hpart : iov.len - (iov.len - (k + 1) * pageSize) = (k + 1) * pageSize := by omega
  have hexc : iov.len - (k + 1) * pageSize ≠ 0 := by omega
  rw [recordRead, length_bytesOf, length_pagesFrom, if_pos hpos, analyzeIov, hloop]
  simp only [bind, Except.bind, hexc, ne_eq, not_false_eq_true, if_true, Nat.add_sub_cancel,
    getElem?_of_drop hd, hpart, setLast, getLast?_append, getLast?_singleton, Option.some_or,
    dropLast_concat, Fill.take]

theorem lt_length_of_drop : start < riov.length := by
  by_contra h
  rw [drop_eq_nil_of_le (by omega)] at hd
  cases hd

theorem finishIov_single (hone : iov.len = pageSize) (x fuel : ℕ) :
    finishIov strict cap t fuel riov start s x = .ok (s.lose, 0) := by
  simp only [finishIov, lt_length_of_drop hd, if_true, handleFaultyIov, getElem?_of_drop hd, hone]

/-- Nothing of a longer iovec was read: its first page is lost. -/
theorem finishIov_first (hlen : iov.len = (m + 2) * pageSize) (fuel : ℕ) :
    finishIov strict cap t fuel riov start s 0 =
      faultyLoop strict cap t fuel ⟨iov.base + pageSize, (m + 1) * pageSize⟩ s.lose 0 := by
  have hone : iov.len ≠ pageSize := fun h => nomatch (len_eq_pageSize hlen).mp h
  have hsub : iov.len - pageSize = (m + 1) * pageSize := by
    rw [hlen, Nat.succ_mul, Nat.add_sub_cancel]
  simp only [finishIov, lt_length_of_drop hd, if_true, handleFaultyIov, getElem?_of_drop hd, hone,
    if_false, ne_eq, not_true_eq_false, hsub]

theorem finishIov_later (hlen : iov.len = (q + 1 + (m + 1)) * pageSize) (fuel : ℕ) :
    finishIov strict cap t fuel riov start s ((q + 1) * pageSize) =
      faultyLoop strict cap t fuel ⟨iov.base + (q + 1) * pageSize, (m + 1) * pageSize⟩ s 0 := by
  have hone : iov.len ≠ pageSize := fun h => by
    have := (len_eq_pageSize hlen).mp h
    omega
  have hsub : iov.len - (q + 1) * pageSize = (m + 1) * pageSize := by
    rw [hlen, Nat.add_mul, Nat.add_sub_cancel_left]
  simp only [finishIov, lt_length_of_drop hd, if_true, handleFaultyIov, getElem?_of_drop hd, hone,
    if_false, ne_eq, pages_ne_zero q.succ_pos, not_false_eq_true, hsub]

/-- The call copies nothing: a single page is lost, a longer iovec is finished behind it. -/
theorem fillLoop_none (hread : processVmReadv t s.room (iov :: rest) = .ok [] ∨
      processVmReadv t s.room (iov :: rest) = .error .efault) (fuel : ℕ) :
    fillLoop strict cap t riov (fuel + 1) start s total =
      finishIov strict cap t fuel riov start s 0 >>= fun r =>
        fillLoop strict cap t riov fuel (start + 1) r.1 (total + r.2) := by
  rw [fillLoop, getElem?_of_drop hd, hd]
  rcases hread with hread | hread
  · rw [hread]
    rfl
  rw [hread]
  by_cases hone : iov.len = pageSize
  · simp only [hone, if_true, finishIov_single hd hone, bind, Except.bind, Nat.add_zero]
  · simp only [hone, if_false, reduceCtorEq]

variable (hlive : t.gone = false)
include hlive

/-- The iovec a call stopped in is finished behind the page that could not be read. -/
theorem finishIov_gap (strict : Bool) (hs : Sane cap t s p) (hp : 0 < p)
    (hlen : iov.len = (q + (m + 1)) * pageSize)
    (hgap : t.readable (iov.base + q * pageSize) = false) :
    Ends .hang (fun fuel => finishIov strict cap t fuel riov start s (q * pageSize)) (m + 2)
      (afterGap strict t (iov.base + q * pageSize) m p s.lose 0) := by
  have hends : Ends .hang (fun fuel => faultyLoop strict cap t fuel
      ⟨iov.base + q * pageSize + pageSize, m * pageSize⟩ s.lose 0) (m + 1) _ :=
    faultyLoop_ends hlive hs.lose hp (.inl hgap)
  cases q with
  | zero =>
    rw [Nat.zero_add] at hlen
    rw [Nat.zero_mul]
    cases m with
    | zero =>
      rw [afterGap_done]
      simp only [finishIov_single hd (hlen.trans (Nat.one_mul _))]
      exact .const _ _
    | succ m =>
      simp only [finishIov_first hd hlen]
      exact hends.mono (by omega)
  | succ q =>
    simp only [finishIov_later hd hlen]
    exact .succ rfl (faultyLoop_lose hlive hs hp hgap) hends (by omega)

/-- An iovec that is read as a whole could have been read by a call of its own. -/
theorem fillLoop_through (strict : Bool) (total : ℕ)
    (hs : Sane cap t s (k + 1 + p)) (hrest : rest ≠ [])
    (hlen : iov.len = (k + 1) * pageSize) (hall : Good t.readable iov.base (k + 1)) (fuel : ℕ) :
    fillLoop strict cap t riov fuel start s total =
      fillLoop strict cap t riov fuel (start + 1) (s.take t iov.base (k + 1))
        (total + (k + 1) * pageSize) := by
  cases fuel with
  | zero => rfl
  | succ fuel =>
    obtain ⟨iov', rest', rfl⟩ := exists_cons_of_ne_nil hrest
    have hd' : riov.drop (start + 1) = iov' :: rest' := by
      rw [← drop_drop, hd]; rfl
    have hs1 := Sane.take hs hall
    have hcopy : copiedPages t ((k + 1 + p) * pageSize) (iov :: iov' :: rest') = _ :=
      copiedPages_through hlen hall (Nat.le_add_right _ _)
    rw [Nat.add_sub_cancel_left] at hcopy
    have hread : processVmReadv t s.room (riov.drop start) =
        .ok (bytesOf t (pagesFrom iov.base (k + 1)) ++
          bytesOf t (copiedPages t (p * pageSize) (iov' :: rest'))) := by
      rw [hd, hs.room, processVmReadv_eq hlive (by omega), hcopy, bytesOf,
        flatMap_append]
      rfl
    have hlenb : (bytesOf t (pagesFrom iov.base (k + 1)) ++
        bytesOf t (copiedPages t (p * pageSize) (iov' :: rest'))).length =
        (k + 1) * pageSize +
          (bytesOf t (copiedPages t (p * pageSize) (iov' :: rest'))).length := by
      rw [length_append, length_bytesOf, length_pagesFrom]
    rw [fillLoop, fillLoop, getElem?_of_drop hd, getElem?_of_drop hd', hread, hs1.room, hd']
    simp only [recordRead_cons hd hlen (hs.lt_cap (by omega)), hlenb]
    by_cases hnil : copiedPages t (p * pageSize) (iov' :: rest') = []
    · rw [hnil]
      have hrec : recordRead cap riov (start + 1) (s.take t iov.base (k + 1)) (bytesOf t []) =
          .ok (start + 1, 0, s.take t iov.base (k + 1)) := rfl
      simp only [hrec, bind, Except.bind]
      rcases Nat.eq_zero_or_pos p with rfl | hp
      · rfl
      rw [processVmReadv_eq hlive hp, if_pos hnil]
      by_cases hone : iov'.len = pageSize
      · simp [finishIov_single hd' hone, bytesOf]
      · simp [hone, bytesOf]
    · have hp : 0 < p := by
        rcases Nat.eq_zero_or_pos p with rfl | hp
        · simp [copiedPages] at hnil
        · exact hp
      rw [processVmReadv_eq hlive hp, if_neg hnil]
      simp only [Nat.add_assoc]

theorem fillLoop_stop (strict : Bool) (total : ℕ) (hs : Sane cap t s p) (hp : 0 < p)
    (hlen : iov.len = (q + 1 + (m + 1)) * pageSize)
    (hcopy : copiedPages t (p * pageSize) (iov :: rest) = pagesFrom iov.base (q + 1)) (fuel : ℕ) :
    fillLoop strict cap t riov (fuel + 1) start s total =
      finishIov strict cap t fuel riov start (s.take t iov.base (q + 1)) ((q + 1) * pageSize) >>=
        fun r => fillLoop strict cap t riov fuel (start + 1) r.1
          (total + (q + 1) * pageSize + r.2) := by
  have hne : copiedPages t (p * pageSize) (iov :: rest) ≠ [] := by
    rw [hcopy, pagesFrom]
    simp
  rw [fillLoop, getElem?_of_drop hd, hd, hs.room, processVmReadv_eq hlive hp, if_neg hne, hcopy]
  simp only [recordRead_stop hd hlen (hs.lt_cap hp), length_bytesOf, length_pagesFrom]
  rfl

theorem gap_ends (hs : Sane cap t s p) (hp : 0 < p) (hlen : iov.len = (m + 1) * pageSize)
    (hgap : t.readable iov.base = false) (hrest : RestEnds strict cap t riov (start + 1) rest) :
    FillEnds strict cap t riov start s (m + 1 + pageCount rest + 2)
      (iovOutcome strict cap t rest s iov.base (m + 1) p) := by
  have hfin := finishIov_gap hd hlive strict hs hp (by rw [Nat.zero_add, hlen])
    (by simpa using hgap)
  have hbad : (strict = true ∧ s.lose.aux = [] ∧ runs t.readable (iov.base + pageSize) m ≠ []) ↔
      (strict = true ∧ s.aux = [] ∧ t.readable iov.base = false ∧
        runs t.readable iov.base (m + 1) ≠ []) := by
    rw [runs_skip hgap]
    simp [hgap, Fill.lose]
  have hread : processVmReadv t s.room (iov :: rest) = .error .efault := by
    rw [hs.room, processVmReadv_eq hlive hp, if_pos (copiedPages_gap rest hlen hgap)]
  exact .succ rfl (fillLoop_none hd (.inr hread))
    (afterGap_ends (s := s.lose) hfin hs hbad (fits_skip hgap hp).symm (absorb_skip hgap).symm
      hrest) (by omega)

/-- An iovec that begins with readable pages and has a gap, for which there is room. -/
theorem stop_ends (hs : Sane cap t s (k + 1 + p)) (hp : 0 < p)
    (hlen : iov.len = (k + 1 + (m + 1)) * pageSize) (h : Block t.readable iov.base (k + 1) (m + 1))
    (hrest : RestEnds strict cap t riov (start + 1) rest) :
    FillEnds strict cap t riov start s (k + 1 + (m + 1) + pageCount rest + 2)
      (iovOutcome strict cap t rest s iov.base (k + 1 + (m + 1)) (k + 1 + p)) := by
  have hgap := h.next m.succ_pos
  have hcopy : copiedPages t ((k + 1 + p) * pageSize) (iov :: rest) =
      pagesFrom iov.base (k + 1) := by
    rw [copiedPages_stop rest hlen h (.inr m.succ_pos), Nat.min_eq_left (by omega)]
  have hfin := finishIov_gap hd hlive strict (Sane.take hs h.all) hp hlen hgap
  have hstop := fillLoop_stop hd hlive strict s.userbuf.length hs (by omega) hlen hcopy
  rw [← length_userbuf_take t s iov.base (k + 1)] at hstop
  have hbad : (strict = true ∧ (s.take t iov.base (k + 1)).lose.aux = [] ∧
      runs t.readable (iov.base + (k + 1) * pageSize + pageSize) m ≠ []) ↔
      (strict = true ∧ s.aux = [] ∧ t.readable iov.base = false ∧
        runs t.readable iov.base (k + 1 + (m + 1)) ≠ []) := by
    simp [h.all.head, Fill.lose, Fill.take]
  have hfits : fits t.readable iov.base (k + 1 + (m + 1)) (k + 1 + p) =
      fits t.readable (iov.base + (k + 1) * pageSize + pageSize) m p := by
    rw [fits_block h.all, fits_skip hgap hp]
  have habs : s.absorb t iov.base (k + 1 + (m + 1)) = (s.take t iov.base (k + 1)).lose.absorb t
      (iov.base + (k + 1) * pageSize + pageSize) m := by
    rw [absorb_block h, absorb_skip hgap]
  exact .succ rfl hstop (afterGap_ends (s := (s.take t iov.base (k + 1)).lose) hfin hs hbad
    hfits.symm habs.symm hrest) (by omega)

/-- An iovec that begins with as many readable pages as the user buffer has room for, with more
pages behind them. -/
theorem stuck_ends (hs : Sane cap t s (q + 1))
    (hlen : iov.len = (q + 1 + (m + 1)) * pageSize) (hall : Good t.readable iov.base (q + 1))
    (hcopy : copiedPages t ((q + 1) * pageSize) (iov :: rest) = pagesFrom iov.base (q + 1)) :
    FillEnds strict cap t riov start s (q + 1 + (m + 1) + pageCount rest + 2)
      (iovOutcome strict cap t rest s iov.base (q + 1 + (m + 1)) (q + 1)) := by
  have hroom : (s.take t iov.base (q + 1)).room = 0 := by
    simpa using (Sane.take (p := 0) hs hall).room
  have hfits : fits t.readable iov.base (q + 1 + (m + 1)) (q + 1) = false :=
    fits_block (p := 0) hall
  have hout : iovOutcome strict cap t rest s iov.base (q + 1 + (m + 1)) (q + 1) =
      .error .hang := by
    simp [iovOutcome, hall.head, hfits]
  rw [hout]
  refine .stuck (fun fuel => ?_) _
  cases fuel with
  | zero => rfl
  | succ fuel =>
    rw [fillLoop_stop hd hlive strict _ hs (by omega) hlen hcopy, finishIov_later hd hlen,
      faultyLoop_full hroom (pages_ne_zero m.succ_pos) (getLast?_take ..) rfl fuel]
    rfl

theorem through_ends (hs : Sane cap t s (k + 1 + p)) (hlen : iov.len = (k + 1) * pageSize)
    (hall : Good t.readable iov.base (k + 1))
    (hrest : RestEnds strict cap t riov (start + 1) rest) :
    FillEnds strict cap t riov start s (k + 1 + pageCount rest + 2)
      (iovOutcome strict cap t rest s iov.base (k + 1) (k + 1 + p)) := by
  have hblock : Block t.readable iov.base (k + 1) 0 := ⟨hall, by omega⟩
  have hs1 := Sane.take hs hall
  have hfits : fits t.readable iov.base (k + 1) (k + 1 + p) = true :=
    fits_block (m := 0) hall
  have habs : s.absorb t iov.base (k + 1) = s.take t iov.base (k + 1) :=
    (absorb_block hblock).trans (absorb_zero ..)
  have hout : iovOutcome strict cap t rest s iov.base (k + 1) (k + 1 + p) =
      fillEach strict cap t rest (s.take t iov.base (k + 1)) := by
    simp [iovOutcome, hall.head, hfits, habs]
  rw [FillEnds, hout]
  by_cases hnil : rest = []
  · -- the last iovec: the loop ends after it
    subst hnil
    have hcopy : copiedPages t ((k + 1 + p) * pageSize) [iov] = pagesFrom iov.base (k + 1) := by
      rw [copiedPages_singleton (m := 0) hlen hblock, Nat.min_eq_left (by omega)]
    have hne : pagesFrom iov.base (k + 1) ≠ [] := by simp [pagesFrom]
    have hend : riov.length ≤ start + 1 := by
      have := congrArg List.length hd
      simp only [length_drop, length_singleton] at this
      omega
    have hrec := recordRead_cons (t := t) hd hlen (hs.lt_cap (by omega)) []
    rw [append_nil] at hrec
    refine .succ rfl (fun fuel => ?_) (hrest _ p hs1) (by omega)
    rw [fillLoop, getElem?_of_drop hd, hd, hs.room, processVmReadv_eq hlive (by omega), hcopy,
      if_neg hne, length_userbuf_take]
    simp only [hrec, length_bytesOf, length_pagesFrom]
    simp only [recordRead, length_nil, Nat.lt_irrefl, if_false, bind, Except.bind, finishIov,
      show ¬ start + 1 < riov.length by omega]
    cases fuel with
    | zero => rfl
    | succ fuel =>
      rw [fillLoop, fillLoop, getElem?_eq_none hend,
        getElem?_eq_none (by omega)]
      rfl
  · have hthrough := fillLoop_through hd hlive strict s.userbuf.length hs hnil hlen hall
    rw [← length_userbuf_take t s iov.base (k + 1)] at hthrough
    simp only [hthrough]
    exact (hrest _ p hs1).mono (by omega)

end Iov

/-- The loop goes through the iovecs as `fillEach` does. -/
theorem fillLoop_ends (hlive : t.gone = false) (hwf : WellFormed rest)
    (hd : riov.drop start = rest) : RestEnds strict cap t riov start rest := by
  induction rest generalizing start with
  | nil =>
    intro s p _
    refine .succ rfl (fun fuel => ?_) (.const _ 0) (by omega)
    rw [fillLoop, getElem?_eq_none (drop_eq_nil_iff.mp hd)]
    rfl
  | cons iov rest ih =>
    intro s p hs
    have hd' : riov.drop (start + 1) = rest := by rw [← drop_drop, hd]; rfl
    have hrest := ih hwf.tail hd'
    obtain ⟨n, hlen, hdiv⟩ := exists_pages hwf
    have hcount : pageCount (iov :: rest) = n + 1 + pageCount rest := by
      simp [pageCount, hdiv]
    rw [hcount]
    rcases Nat.eq_zero_or_pos p with rfl | hp
    · -- the user buffer is full
      have hroom : s.room = 0 := by simpa using hs.room
      have hread : processVmReadv t s.room (iov :: rest) = .ok [] := by rw [hroom]; rfl
      rw [fillEach, if_pos hroom]
      cases n with
      | zero =>
        have hsingle := hlen.trans (Nat.one_mul _)
        rw [if_pos hsingle]
        refine .succ rfl (fun fuel => ?_) (hrest _ 0 hs.lose) (by omega)
        rw [fillLoop_none hd (.inl hread), finishIov_single hd hsingle]
        rfl
      | succ m =>
        rw [if_neg (fun h => nomatch (len_eq_pageSize hlen).mp h)]
        refine .succ rfl (fillLoop_none hd (.inl hread)) (n := 1) (Ends.bind_error ?_) (by omega)
        simp only [finishIov_first hd hlen]
        exact faultyLoop_room hroom (pages_ne_zero m.succ_pos)
    rw [fillEach_cons hs.room hp, hdiv]
    have hblocks := blocks t.readable iov.base (n + 1)
    generalize hn : n + 1 = n' at hblocks hlen
    cases hblocks with
    | done => exact nomatch hn
    | skip hgap _ => exact gap_ends hd hlive hs hp hlen hgap hrest
    | @block _ k m h _ =>
      by_cases hfull : p ≤ k + 1 ∧ p < k + 1 + m
      · obtain ⟨q, rfl⟩ := Nat.exists_eq_succ_of_ne_zero hp.ne'
        obtain ⟨j, hj⟩ : ∃ j, k + 1 + m = q + 1 + (j + 1) := ⟨k + m - q - 1, by omega⟩
        have hcopy := copiedPages_stop rest hlen h (.inl hfull.1)
        rw [Nat.min_eq_right hfull.1] at hcopy
        rw [hj] at hlen ⊢
        exact stuck_ends hd hlive hs hlen (h.all.mono hfull.1) hcopy
      obtain ⟨p, rfl⟩ := Nat.exists_eq_add_of_le (show k + 1 ≤ p by omega)
      cases m with
      | zero => exact through_ends hd hlive hs hlen h.all hrest
      | succ m => exact stop_ends hd hlive hs (by omega) hlen h hrest

end Fill

end Criu.Predump

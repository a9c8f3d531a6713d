import Mathlib.Algebra.Order.BigOperators.Group.List
import Criu.Predump

/-!
What `fill_userbuf` leaves behind. For a page pipe buffer that fits into the user buffer it
ends with the readable pages in order and their maximal runs in `aux_iov`. The array is left
in bounds exactly if the first readable page is the first one of its iovec and the array is
not full of single pages when an iovec of several pages comes after the last place is used.
-/

namespace Criu.PredumpExact

open Fuel Pagemap ReadCursor PipeBuffers PipeContents Predump List

variable {t : Target} {a n p cap : ℕ} {s : Fill} {riov : List Iovec}

section Pages

def readablePages (t : Target) (riov : List Iovec) : List ℕ :=
  (riov.flatMap iovPages).filter t.readable

def runsOf (t : Target) (riov : List Iovec) : List Iovec :=
  riov.flatMap (fun iov => runs t.readable iov.base (iov.len / pageSize))

theorem iovPages_pagesFrom (iov : Iovec) :
    iovPages iov = pagesFrom iov.base (iov.len / pageSize) := by
  have h : iovPages ⟨iov.base, iov.len / pageSize * pageSize⟩ = _ := iovPages_eq rfl
  rw [← h, iovPages, iovPages, pages_div]

theorem readablePages_eq (t : Target) (riov : List Iovec) :
    readablePages t riov = riov.flatMap fun iov => goodPages t iov.base (iov.len / pageSize) := by
  simp only [readablePages, filter_flatMap, iovPages_pagesFrom, goodPages]

theorem readablePages_cons (t : Target) (iov : Iovec) (riov : List Iovec) :
    readablePages t (iov :: riov) =
      goodPages t iov.base (iov.len / pageSize) ++ readablePages t riov := by
  rw [readablePages_eq, flatMap_cons, readablePages_eq]

theorem readablePages_append (t : Target) (l l' : List Iovec) :
    readablePages t (l ++ l') = readablePages t l ++ readablePages t l' := by
  rw [readablePages, flatMap_append, filter_append, readablePages, readablePages]

theorem runsOf_cons (t : Target) (iov : Iovec) (riov : List Iovec) : runsOf t (iov :: riov) =
      runs t.readable iov.base (iov.len / pageSize) ++ runsOf t riov := by
  rw [runsOf, flatMap_cons, runsOf]

theorem length_readablePages_le (t : Target) (riov : List Iovec) :
    (readablePages t riov).length ≤ pageCount riov := by
  rw [readablePages_eq, length_flatMap]
  exact List.sum_le_sum fun iov _ => length_goodPages_le ..

theorem fits_of_le (h : n ≤ p) : fits t.readable a n p = true := by
  induction n generalizing a p with
  | zero => rfl
  | succ n ih =>
    obtain ⟨p, rfl⟩ := Nat.exists_eq_succ_of_ne_zero (show p ≠ 0 by omega)
    rw [fits]
    split
    · exact ih (by omega)
    · exact ih (by omega)

/-- The places are enough if one is left over, or if the last of them is for the last page. -/
theorem fits_iff : fits t.readable a (n + 1) p = true ↔ (goodPages t a (n + 1)).length < p ∨
    ((goodPages t a (n + 1)).length = p ∧ t.readable (a + n * pageSize) = true) := by
  induction n generalizing a p with
  | zero =>
    cases p with
    | zero =>
      by_cases ha : t.readable a = true
      · simp [fits, goodPages, pagesFrom]
      · simp [fits, goodPages, pagesFrom]
    | succ p =>
      by_cases ha : t.readable a = true
      · simp [fits, goodPages, pagesFrom, ha]
        omega
      · simp [fits, goodPages, pagesFrom, ha]
  | succ n ih =>
    cases p with
    | zero =>
      have hlast : t.readable (a + (n + 1) * pageSize) = true →
          0 < (goodPages t a (n + 1 + 1)).length := by
        intro h
        refine length_pos_of_mem (a := a + (n + 1) * pageSize) ?_
        rw [goodPages, mem_filter, pagesFrom_add]
        exact ⟨by simp [pagesFrom], h⟩
      simp only [fits, Bool.false_eq_true, Nat.not_lt_zero, false_or, false_iff, not_and]
      intro h0 hr
      have := hlast hr
      omega
    | succ p =>
      rw [fits]
      by_cases ha : t.readable a = true
      · have hg : goodPages t a (n + 1 + 1) = a :: goodPages t (a + pageSize) (n + 1) := by
          rw [goodPages, pagesFrom, filter_cons_of_pos ha, goodPages]
        rw [if_pos ha, ih, page_succ, hg, length_cons, Nat.add_lt_add_iff_right,
          Nat.add_right_cancel_iff]
      · rw [if_neg ha, ih, page_succ, goodPages_skip (a := a) (by simpa using ha)]

theorem runs_bounds (t : Target) (a n : ℕ) :
    (runs t.readable a n = [] ↔ goodPages t a n = []) ∧
      (runs t.readable a n).length ≤ (goodPages t a n).length := by
  have hblocks := blocks t.readable a n
  induction hblocks with
  | done => simp [runs, goodPages, pagesFrom]
  | skip ha _ ih =>
    rw [runs_skip ha, goodPages_skip ha]
    exact ih
  | block h _ ih =>
    rw [runs_block h, goodPages_block h.all, length_cons, length_append, length_pagesFrom]
    exact ⟨by simp [pagesFrom], by omega⟩

/-- The maximal runs of readable pages inside of an iovec, in order. -/
structure MaximalRuns (ok : ℕ → Bool) (iov : Iovec) (rs : List Iovec) : Prop where
  pages : rs.flatMap iovPages = (iovPages iov).filter ok
  whole : ∀ r ∈ rs, 0 < r.len ∧ pageSize ∣ r.len
  first : ∀ r ∈ rs, r.base = iov.base ∨ ∃ b, r.base = b + pageSize ∧ ok b = false
  last : ∀ r ∈ rs, r.base + r.len = iov.base + iov.len ∨ ok (r.base + r.len) = false

variable {rs : List Iovec} {ok : ℕ → Bool}

/-- Pages that cannot be read go in front of the first run. -/
theorem MaximalRuns.skip (ha : ok a = false) (h : MaximalRuns ok ⟨a + pageSize, n * pageSize⟩ rs) :
    MaximalRuns ok ⟨a, (n + 1) * pageSize⟩ rs := by
  refine ⟨?_, h.whole, fun r hr => .inr ?_, fun r hr => (h.last r hr).imp_left fun he => ?_⟩
  · rw [h.pages, iovPages_eq rfl, iovPages_eq rfl, pagesFrom,
      filter_cons_of_neg (by simp [ha])]
  · exact (h.first r hr).elim (fun hb => ⟨a, hb, ha⟩) id
  · exact he.trans (page_succ a n)

/-- A block in front of a gap, or of the end, is a run of its own. -/
theorem MaximalRuns.block {k m : ℕ} (hblock : Block ok a (k + 1) m)
    (h : MaximalRuns ok ⟨a + (k + 1) * pageSize, m * pageSize⟩ rs)
    (hrs : ∀ r ∈ rs, r.base ≠ a + (k + 1) * pageSize) :
    MaximalRuns ok ⟨a, (k + 1 + m) * pageSize⟩ (⟨a, (k + 1) * pageSize⟩ :: rs) := by
  have hend : a + (k + 1) * pageSize + m * pageSize = a + (k + 1 + m) * pageSize := by ring
  refine ⟨?_, forall_mem_cons.mpr ⟨?_, h.whole⟩, forall_mem_cons.mpr ⟨.inl rfl, fun r hr => ?_⟩,
    forall_mem_cons.mpr ⟨?_, fun r hr => (h.last r hr).imp_left fun he => he.trans hend⟩⟩
  · rw [flatMap_cons, h.pages, iovPages_eq rfl, iovPages_eq rfl,
      iovPages_eq rfl, pagesFrom_add a (k + 1) m, filter_append,
      filter_eq_self.mpr hblock.all]
  · exact ⟨Nat.mul_pos (by omega) (by decide), Nat.dvd_mul_left _ _⟩
  · exact .inr ((h.first r hr).resolve_left (hrs r hr))
  · rcases Nat.eq_zero_or_pos m with rfl | hm
    · exact .inl (by rw [Nat.add_zero])
    · exact .inr (hblock.next hm)

theorem runs_maximal (ok : ℕ → Bool) (a n : ℕ) :
    MaximalRuns ok ⟨a, n * pageSize⟩ (runs ok a n) := by
  have hblocks := blocks ok a n
  induction hblocks with
  | done => exact ⟨by simp [runs, iovPages], by simp [runs], by simp [runs], by simp [runs]⟩
  | skip ha _ ih =>
    rw [runs_skip ha]
    exact ih.skip ha
  | block h _ ih =>
    rw [runs_block h]
    exact .block h ih h.runs_ne

end Pages

/-! ### Exactness -/

section Exact

theorem fillEach_fits (cap : ℕ) (hwf : WellFormed riov) (hroom : s.room = p * pageSize)
    (hp : pageCount riov ≤ p) : ∃ s', fillEach false cap t riov s = .ok s' ∧
      s'.aux = s.aux ++ runsOf t riov ∧
      s'.userbuf = s.userbuf ++ bytesOf t (readablePages t riov) ∧
      s'.lost = s.lost + (pageCount riov - (readablePages t riov).length) := by
  induction riov generalizing s p with
  | nil => exact ⟨s, rfl, by simp [runsOf], by simp [readablePages, bytesOf], by simp [pageCount]⟩
  | cons iov riov ih =>
    obtain ⟨n, -, hdiv⟩ := exists_pages hwf
    have hcount : pageCount (iov :: riov) = n + 1 + pageCount riov := by simp [pageCount, hdiv]
    have hle := length_goodPages_le t iov.base (n + 1)
    have hroom' : (s.absorb t iov.base (n + 1)).room =
        (p - (goodPages t iov.base (n + 1)).length) * pageSize := by
      simp only [Fill.absorb, hroom, Nat.sub_mul]
    obtain ⟨s', hs', haux, hbuf, hlost⟩ := ih hwf.tail hroom' (by omega)
    refine ⟨s', ?_, ?_, ?_, ?_⟩
    · rw [fillEach_cons hroom (by omega), hdiv, iovOutcome, fits_of_le (by omega)]
      simpa using hs'
    · rw [haux, runsOf_cons, hdiv, ← append_assoc]
      rfl
    · rw [hbuf, readablePages_cons, hdiv, bytesOf, bytesOf, flatMap_append,
        ← append_assoc]
      rfl
    · have hle' := length_readablePages_le t riov
      rw [hlost, readablePages_cons, hdiv, length_append]
      simp only [Fill.absorb]
      omega

theorem freshFill_sane (cap : ℕ) (t : Target) : Sane cap t (freshFill cap) cap :=
  ⟨rfl, by simp [freshFill], by simp [freshFill]⟩

/-- The runs in `aux_iov` are those of the iovecs, one after the other. -/
theorem runsOf_parts (hwf : WellFormed riov) : ∃ parts, runsOf t riov = parts.flatten ∧
    List.Forall₂ (MaximalRuns t.readable) riov parts := by
  induction riov with
  | nil => exact ⟨[], rfl, .nil⟩
  | cons iov riov ih =>
    obtain ⟨parts, hflat, hall⟩ := ih hwf.tail
    obtain ⟨n, hlen, hdiv⟩ := exists_pages hwf
    refine ⟨runs t.readable iov.base (n + 1) :: parts, ?_, .cons ?_ hall⟩
    · rw [runsOf_cons, hdiv, hflat, flatten_cons]
    · have h := runs_maximal t.readable iov.base (n + 1)
      rw [← hlen] at h
      exact h

/-- `fill_userbuf` on a buffer whose pages fit: it returns, the user buffer holds the readable
pages in order, `aux_iov` their maximal runs, and the other pages are counted as lost. -/
theorem fillUserbuf_exact (hlive : t.gone = false) (hwf : WellFormed riov)
    (hfit : pageCount riov ≤ pipeMaxSize) : ∃ s parts,
      (∀ fuel, pageCount riov + 2 ≤ fuel →
        fillUserbuf false t riov fuel = .ok (s, (readablePages t riov).length * pageSize)) ∧
      s.userbuf = (readablePages t riov).flatMap (pageBytes t.mem) ∧
      s.aux = parts.flatten ∧ List.Forall₂ (MaximalRuns t.readable) riov parts ∧
      s.lost + (readablePages t riov).length = pageCount riov := by
  obtain ⟨s, hs, haux, hbuf, hlost⟩ :=
    fillEach_fits pipeMaxSize (s := freshFill pipeMaxSize) hwf rfl hfit
  obtain ⟨parts, hflat, hparts⟩ := runsOf_parts hwf
  have hlen : s.userbuf.length = (readablePages t riov).length * pageSize := by
    rw [hbuf, length_append, length_bytesOf]
    exact Nat.zero_add _
  have hrest : RestEnds false pipeMaxSize t riov 0 riov := fillLoop_ends hlive hwf rfl
  have hends := hrest (freshFill pipeMaxSize) pipeMaxSize (freshFill_sane pipeMaxSize t)
  rw [hs] at hends
  refine ⟨s, parts, fun fuel hfuel => ?_, ?_, ?_, hparts, ?_⟩
  · rw [← hlen]
    exact hends.enough fuel hfuel
  · rw [hbuf]
    rfl
  · rw [haux, ← hflat]
    rfl
  · have hle := length_readablePages_le t riov
    rw [hlost]
    simp only [freshFill]
    omega

end Exact

def secondPage : Target where
  readable a := a == pageSize
  mem _ := 0
  gone := false
  gone_unreadable h := nomatch h

theorem second_page_exact : secondPage.gone = false ∧ WellFormed [⟨0, 2 * pageSize⟩] ∧
    pageCount [⟨0, 2 * pageSize⟩] ≤ pipeMaxSize ∧ ∃ s parts,
      (∀ fuel, pageCount [⟨0, 2 * pageSize⟩] + 2 ≤ fuel →
        fillUserbuf false secondPage [⟨0, 2 * pageSize⟩] fuel = .ok (s, 1 * pageSize)) ∧
      s.userbuf = [pageSize].flatMap (pageBytes secondPage.mem) ∧ s.aux = parts.flatten ∧
      List.Forall₂ (MaximalRuns secondPage.readable) [⟨0, 2 * pageSize⟩] parts ∧
        s.lost + 1 = 2 := by
  have hwf : WellFormed [⟨0, 2 * pageSize⟩] :=
    forall_mem_singleton.mpr ⟨by decide, by decide⟩
  exact ⟨rfl, hwf, by decide, fillUserbuf_exact rfl hwf (by decide)⟩

/-! ### The bounds of `aux_iov` -/

/-- The first readable page of the buffer is the first page of its iovec. -/
def FirstAligned (t : Target) (riov : List Iovec) : Prop :=
  ∀ pre iov post, riov = pre ++ iov :: post → readablePages t pre = [] →
    readablePages t [iov] ≠ [] → t.readable iov.base = true

/-- The user buffer ends with the page `a`, the last one of its iovec, when every place of the
array holds a run of one page, and the next iovec of several pages is still to come. -/
structure Overflow (t : Target) (cap : ℕ) (pre mid : List Iovec) (iov : Iovec) (a : ℕ) :
    Prop where
  runs : (runsOf t pre).length = cap
  pages : (readablePages t pre).length = cap
  last : (pre.flatMap iovPages).getLast? = some a
  readable : t.readable a = true
  singles : ∀ x ∈ mid, x.len = pageSize
  several : iov.len ≠ pageSize
  apart : a ≠ iov.base

def Overflows (t : Target) (cap : ℕ) (riov : List Iovec) : Prop :=
  ∃ pre mid iov post a, riov = pre ++ mid ++ iov :: post ∧ Overflow t cap pre mid iov a

section Bounds

variable {pre rest : List Iovec} {iov : Iovec}

theorem length_runsOf_le (t : Target) (riov : List Iovec) :
    (runsOf t riov).length ≤ (readablePages t riov).length := by
  rw [runsOf, readablePages_eq, length_flatMap, length_flatMap]
  exact List.sum_le_sum fun iov _ => (runs_bounds ..).2

theorem runsOf_append (t : Target) (l l' : List Iovec) :
    runsOf t (l ++ l') = runsOf t l ++ runsOf t l' := by
  rw [runsOf, flatMap_append, runsOf, runsOf]

theorem runsOf_eq_nil_iff : runsOf t riov = [] ↔ readablePages t riov = [] := by
  simp only [runsOf, readablePages_eq, flatMap_eq_nil_iff, (runs_bounds ..).1]

/-- A stretch that ends with a readable page ends with a run. -/
theorem runs_last (h : t.readable (a + n * pageSize) = true) :
    ∃ r, (runs t.readable a (n + 1)).getLast? = some r ∧
      r.base + r.len = a + (n + 1) * pageSize := by
  have hblocks := blocks t.readable a (n + 1)
  generalize hN : n + 1 = N at hblocks
  induction hblocks generalizing n with
  | done => exact nomatch hN
  | @skip a _ ha _ ih =>
    cases n with
    | zero =>
      rw [Nat.zero_mul, Nat.add_zero, ha] at h
      cases h
    | succ n =>
      obtain rfl := Nat.succ.inj hN
      obtain ⟨r, hr, hend⟩ := ih (by rw [page_succ]; exact h) rfl
      exact ⟨r, by rw [runs_skip ha]; exact hr, by rw [hend, page_succ]⟩
  | @block a k m hblock _ ih =>
    rw [runs_block hblock]
    cases m with
    | zero => exact ⟨⟨a, (k + 1) * pageSize⟩, by simp [runs], by simp⟩
    | succ m =>
      obtain rfl : n = k + 1 + m := by omega
      rw [Nat.add_mul, ← Nat.add_assoc] at h
      obtain ⟨r, hr, hend⟩ := ih h rfl
      refine ⟨r, ?_, ?_⟩
      · rw [getLast?_cons, hr]
        rfl
      · rw [hend]
        ring

theorem fillEach_full_iff {r : Iovec} (hroom : s.room = 0) (hlast : s.aux.getLast? = some r) :
    fillEach true cap t rest s = .error .auxBounds ↔ cap ≤ s.aux.length ∧
      ∃ iov, rest.find? (·.len != pageSize) = some iov ∧ r.base + r.len ≠ iov.base + pageSize := by
  induction rest generalizing s with
  | nil => simp [fillEach]
  | cons iov rest ih =>
    rw [fillEach, if_pos hroom]
    by_cases hone : iov.len = pageSize
    · rw [if_pos hone, ih (s := s.lose) hroom hlast, find?_cons_of_neg (by simp [hone])]
      rfl
    rw [if_neg hone, fullOutcome, merges, hlast, find?_cons_of_pos (by simpa using hone)]
    by_cases hend : r.base + r.len = iov.base + pageSize
    · simp [hend]
    · have hbeq : (r.base + r.len == iov.base + pageSize) = false := by simpa using hend
      simp only [hbeq]
      by_cases hcap : s.aux.length < cap
      · simp [hcap]
      · rw [if_neg hcap]
        exact ⟨fun _ => ⟨by omega, iov, rfl, hend⟩, fun _ => rfl⟩

/-- The state once the iovecs `pre` were gone through and `p` pages have room left. -/
structure After (cap : ℕ) (t : Target) (pre : List Iovec) (s : Fill) (p : ℕ) : Prop where
  aux : s.aux = runsOf t pre
  room : s.room = p * pageSize
  pages : (readablePages t pre).length + p = cap

theorem After.absorb (h : After cap t pre s p) (iov : Iovec)
    (hle : (goodPages t iov.base (iov.len / pageSize)).length ≤ p) :
    After cap t (pre ++ [iov]) (s.absorb t iov.base (iov.len / pageSize))
      (p - (goodPages t iov.base (iov.len / pageSize)).length) := by
  refine ⟨?_, ?_, ?_⟩
  · rw [runsOf_append, ← h.aux]
    simp [Fill.absorb, runsOf]
  · simp only [Fill.absorb, h.room, Nat.sub_mul]
  · have hpages := h.pages
    rw [readablePages_append, readablePages_cons, length_append, length_append]
    simp only [readablePages, flatMap_nil, filter_nil, length_nil] at hpages ⊢
    omega

theorem getLast?_iovPages (hlen : iov.len = (n + 1) * pageSize) :
    (iovPages iov).getLast? = some (iov.base + n * pageSize) := by
  rw [iovPages_eq hlen, pagesFrom_add]
  simp [pagesFrom]

/-- The last page of an iovec took the last place. -/
theorem After.full_iff (h : After cap t pre s (goodPages t iov.base (n + 1)).length)
    (hdiv : iov.len / pageSize = n + 1) (hlast : t.readable (iov.base + n * pageSize) = true) :
    fillEach true cap t rest (s.absorb t iov.base (n + 1)) = .error .auxBounds ↔
      cap ≤ (runsOf t (pre ++ [iov])).length ∧
        ∃ x, rest.find? (·.len != pageSize) = some x ∧ iov.base + n * pageSize ≠ x.base := by
  have hnext := h.absorb iov (by rw [hdiv])
  rw [hdiv, Nat.sub_self] at hnext
  obtain ⟨r, hr, hend⟩ := runs_last hlast
  have hrlast : (s.absorb t iov.base (n + 1)).aux.getLast? = some r := by
    simp only [Fill.absorb, getLast?_append, hr, Option.some_or]
  rw [fillEach_full_iff (hnext.room.trans (Nat.zero_mul _)) hrlast, hnext.aux, hend]
  simp only [Nat.add_mul, Nat.one_mul, ← Nat.add_assoc, Ne, Nat.add_right_cancel_iff]

/-- An access outside of the array has one of the two causes. -/
theorem cause_of_auxBounds (h : After cap t pre s p) (hp : 0 < p) (hwf : WellFormed rest)
    (hf : fillEach true cap t rest s = .error .auxBounds) :
    ¬ FirstAligned t (pre ++ rest) ∨ Overflows t cap (pre ++ rest) := by
  induction rest generalizing pre s p with
  | nil => cases hf
  | cons iov rest ih =>
    obtain ⟨n, hlen, hdiv⟩ := exists_pages hwf
    rw [fillEach_cons h.room hp, iovOutcome] at hf
    split_ifs at hf with hbad hfit
    · obtain ⟨-, haux, hbase, hruns⟩ := hbad
      refine .inl (fun hfirst => ?_)
      have hpre : readablePages t pre = [] := runsOf_eq_nil_iff.mp (h.aux ▸ haux)
      have hiov : readablePages t [iov] ≠ [] := by
        rw [readablePages_cons]
        intro hnil
        exact hruns ((runs_bounds ..).1.mpr (append_eq_nil_iff.mp hnil).1)
      rw [hfirst pre iov rest rfl hpre hiov] at hbase
      cases hbase
    · rw [hdiv] at hfit
      have hassoc : pre ++ iov :: rest = pre ++ [iov] ++ rest := by simp
      rcases fits_iff.mp hfit with hlt | ⟨heq, hlast⟩
      · have hnext := h.absorb iov (by rw [hdiv]; exact hlt.le)
        rw [hassoc]
        exact ih hnext (by rw [hdiv]; omega) hwf.tail hf
      obtain rfl := heq
      rw [hdiv] at hf
      obtain ⟨hcap, x, hfind, hne⟩ := (h.full_iff hdiv hlast).mp hf
      obtain ⟨hx, mid, post, rfl, hmid⟩ := find?_eq_some_iff_append.mp hfind
      have hpages := h.pages
      have hle := length_runsOf_le t (pre ++ [iov])
      have hall : (readablePages t (pre ++ [iov])).length = cap := by
        rw [readablePages_append, readablePages_cons, length_append, length_append, hdiv]
        exact hpages
      refine .inr ⟨pre ++ [iov], mid, x, post, iov.base + n * pageSize, by simp,
        ⟨by omega, hall, ?_, hlast, by simpa using hmid, by simpa using hx, hne⟩⟩
      rw [flatMap_append, flatMap_singleton, getLast?_append, getLast?_iovPages hlen]
      rfl
    · cases hf

/-- Pages that cannot be read are passed over until the first readable one, which is not the
first of its iovec. -/
theorem auxBounds_of_unaligned {post : List Iovec} (hroom : s.room = p * pageSize) (hp : 0 < p)
    (haux : s.aux = []) (hpre : readablePages t pre = []) (hiov : readablePages t [iov] ≠ [])
    (hbase : t.readable iov.base = false) :
    fillEach true cap t (pre ++ iov :: post) s = .error .auxBounds := by
  induction pre generalizing s with
  | nil =>
    have hruns : runs t.readable iov.base (iov.len / pageSize) ≠ [] := by
      rw [Ne, (runs_bounds ..).1]
      intro hnil
      rw [readablePages_cons, hnil] at hiov
      exact hiov rfl
    rw [nil_append, fillEach_cons hroom hp, iovOutcome, if_pos ⟨rfl, haux, hbase, hruns⟩]
  | cons x pre ih =>
    rw [readablePages_cons, append_eq_nil_iff] at hpre
    obtain ⟨hx, hpre⟩ := hpre
    have hruns := (runs_bounds ..).1.mpr hx
    have hfit : fits t.readable x.base (x.len / pageSize) p = true := by
      cases hn : x.len / pageSize with
      | zero => rfl
      | succ n =>
        rw [fits_iff, ← hn, hx]
        exact .inl hp
    rw [cons_append, fillEach_cons hroom hp, iovOutcome, if_neg (by simp [hruns]), if_pos hfit]
    have haux' : (s.absorb t x.base (x.len / pageSize)).aux = [] := by
      simp [Fill.absorb, hruns, haux]
    have hroom' : (s.absorb t x.base (x.len / pageSize)).room = s.room := by
      simp [Fill.absorb, hx]
    exact ih (hroom'.trans hroom) haux' hpre

/-- A last page that is readable is in the last iovecs. -/
theorem readablePages_pos {l : List Iovec} (hne : rest ≠ []) (hwf : WellFormed rest)
    (hlast : ((l ++ rest).flatMap iovPages).getLast? = some a) (ha : t.readable a = true) :
    0 < (readablePages t rest).length := by
  have hpages : rest.flatMap iovPages ≠ [] := by
    obtain ⟨x, rest, rfl⟩ := exists_cons_of_ne_nil hne
    obtain ⟨n, hlen, -⟩ := exists_pages hwf
    rw [flatMap_cons, iovPages_eq hlen]
    simp [pagesFrom]
  rw [flatMap_append, getLast?_append_of_ne_nil _ hpages] at hlast
  exact length_pos_of_mem (mem_filter.mpr ⟨mem_of_getLast? hlast, ha⟩)

/-- The user buffer gets full with the last page of `pre`, unless an access failed before. -/
theorem auxBounds_of_overflow {pre' mid post : List Iovec} (h : After cap t pre' s p) (hp : 0 < p)
    (hne : pre ≠ []) (hwf : WellFormed pre) (ho : Overflow t cap (pre' ++ pre) mid iov a) :
    fillEach true cap t (pre ++ mid ++ iov :: post) s = .error .auxBounds := by
  induction pre generalizing pre' s p with
  | nil => exact absurd rfl hne
  | cons x pre ih =>
    obtain ⟨n, hlen, hdiv⟩ := exists_pages hwf
    have hcount : (goodPages t x.base (n + 1)).length + (readablePages t pre).length = p := by
      have h1 := ho.pages
      have h2 := h.pages
      rw [readablePages_append, readablePages_cons, length_append, length_append, hdiv] at h1
      omega
    have hnext := h.absorb x (by rw [hdiv]; omega)
    rw [hdiv] at hnext
    rw [cons_append, cons_append, fillEach_cons h.room hp, hdiv, iovOutcome]
    by_cases hbad : true = true ∧ s.aux = [] ∧ t.readable x.base = false ∧
        runs t.readable x.base (n + 1) ≠ []
    · rw [if_pos hbad]
    rw [if_neg hbad]
    have hassoc : pre' ++ x :: pre = pre' ++ [x] ++ pre := by simp
    rw [hassoc] at ho
    by_cases hpre : pre = []
    · subst hpre
      have hlast := ho.last
      rw [append_nil, flatMap_append, flatMap_singleton, getLast?_append,
        getLast?_iovPages hlen, Option.some_or, Option.some.injEq] at hlast
      have hread : t.readable (x.base + n * pageSize) = true := hlast ▸ ho.readable
      obtain rfl : (goodPages t x.base (n + 1)).length = p := hcount
      rw [if_pos (fits_iff.mpr (.inr ⟨rfl, hread⟩)), h.full_iff hdiv hread]
      refine ⟨append_nil (pre' ++ [x]) ▸ ho.runs.ge, iov, ?_, hlast ▸ ho.apart⟩
      exact find?_eq_some_iff_append.mpr
        ⟨by simpa using ho.several, mid, post, rfl, by simpa using ho.singles⟩
    · have hpos := readablePages_pos hpre hwf.tail ho.last ho.readable
      rw [if_pos (fits_iff.mpr (.inl (by omega)))]
      exact ih hnext (by omega) hpre hwf.tail ho

theorem fillLoop_gone {start total fuel : ℕ} (hgone : t.gone = true) (hroom : s.room ≠ 0) :
    fillLoop true cap t riov fuel start s total ≠ .error .auxBounds := by
  induction fuel generalizing start s with
  | zero => simp [fillLoop]
  | succ fuel ih =>
    rw [fillLoop]
    cases riov[start]? with
    | none => simp
    | some iov =>
      simp only [processVmReadv, hroom, if_false]
      split_ifs
      · exact ih hroom
      · simp

theorem readablePages_gone (hgone : t.gone = true) (riov : List Iovec) :
    readablePages t riov = [] := by
  simp [readablePages, t.gone_unreadable hgone]

/-- `fill_userbuf` keeps to the bounds of `aux_iov`, whatever the fuel, exactly if the first
readable page begins its iovec and the array does not overflow. -/
theorem fillUserbuf_in_bounds_iff (hwf : WellFormed riov) :
    (∀ fuel, fillUserbuf true t riov fuel ≠ .error .auxBounds) ↔
      FirstAligned t riov ∧ ¬ Overflows t pipeMaxSize riov := by
  have hcap : 0 < pipeMaxSize := by decide
  cases hlive : t.gone with
  | true =>
    refine ⟨fun _ => ⟨fun pre iov post _ _ hiov => ?_, ?_⟩, fun _ fuel => ?_⟩
    · exact absurd (readablePages_gone hlive _) hiov
    · rintro ⟨pre, mid, iov, post, a, -, ho⟩
      have hpages := ho.pages
      rw [readablePages_gone hlive, length_nil] at hpages
      omega
    · exact fillLoop_gone hlive (pages_ne_zero hcap)
  | false =>
    have hrest : RestEnds true pipeMaxSize t riov 0 riov := fillLoop_ends hlive hwf rfl
    have hends := hrest (freshFill pipeMaxSize) pipeMaxSize (freshFill_sane pipeMaxSize t)
    have hstart : After pipeMaxSize t [] (freshFill pipeMaxSize) pipeMaxSize :=
      ⟨rfl, rfl, by simp [readablePages]⟩
    have hiff : (∀ fuel, fillUserbuf true t riov fuel ≠ .error .auxBounds) ↔
        fillEach true pipeMaxSize t riov (freshFill pipeMaxSize) ≠ .error .auxBounds := by
      constructor
      · intro h hbad
        rw [hbad] at hends
        exact h _ (hends.enough _ le_rfl)
      intro h fuel hbad
      rcases hends.any fuel with hf | hf
      · cases hf.symm.trans hbad
      have hmap := hf.symm.trans hbad
      cases hr : fillEach true pipeMaxSize t riov (freshFill pipeMaxSize) with
      | error e =>
        rw [hr] at hmap h
        cases hmap
        exact h rfl
      | ok s =>
        rw [hr] at hmap
        cases hmap
    rw [hiff]
    constructor
    · intro h
      refine ⟨fun pre iov post heq hpre hiov => ?_, ?_⟩
      · by_contra hbase
        rw [heq] at h
        exact h (auxBounds_of_unaligned rfl hcap rfl hpre hiov (by simpa using hbase))
      · rintro ⟨pre, mid, iov, post, a, rfl, ho⟩
        refine h (auxBounds_of_overflow hstart hcap ?_ ?_ ho)
        · rintro rfl
          cases ho.last
        · exact fun x hx => hwf x (mem_append_left _ (mem_append_left _ hx))
    · rintro ⟨hfirst, hno⟩ hbad
      rcases cause_of_auxBounds hstart hcap hwf hbad with h | h
      · exact h hfirst
      · exact hno h

end Bounds

/-- An iovec of two pages of which the first is gone: the merge test reads in front of the array. -/
theorem second_page_out_of_bounds :
    fillUserbuf true secondPage [⟨0, 2 * pageSize⟩] 3 = .error .auxBounds := by
  rfl

def secondPageFirst : List Iovec := [⟨pageSize, 2 * pageSize⟩, ⟨0, pageSize⟩]

/-- Of two iovecs only the first page of the first one can be read. -/
theorem second_page_bounds : WellFormed secondPageFirst ∧
    ∀ fuel, fillUserbuf true secondPage secondPageFirst fuel ≠ .error .auxBounds := by
  have hwf : WellFormed secondPageFirst := by
    unfold WellFormed
    decide
  have hpages : readablePages secondPage secondPageFirst = [pageSize] := by decide
  refine ⟨hwf, (fillUserbuf_in_bounds_iff hwf).mpr ⟨fun pre iov post heq hpre _ => ?_, ?_⟩⟩
  · cases pre with
    | nil =>
      cases heq
      rfl
    | cons first pre =>
      obtain ⟨rfl, -⟩ := cons.inj heq
      rw [readablePages_cons] at hpre
      exact absurd (append_eq_nil_iff.mp hpre).1 (by decide)
  · rintro ⟨pre, mid, iov, post, a, heq, ho⟩
    have hlen := congrArg length hpages
    rw [heq, append_assoc, readablePages_append, length_append, ho.pages] at hlen
    exact absurd ((Nat.le_add_right pipeMaxSize _).trans hlen.le) (by decide)

end Criu.PredumpExact

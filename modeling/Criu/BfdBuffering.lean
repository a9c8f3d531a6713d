import Criu.Bfd
import Mathlib.Data.Int.Notation

/-!
Buffered images (criu/bfd.c). A write goes into the buffer, behind a flush of it where it does not
fit, or past the buffer where it is larger than that; a read takes what the buffer still has and
refills it until it has its size. Neither reorders or loses a byte.
-/

namespace Criu.Bfd

open StringSplit List

/-- A descriptor open for writing: the bytes in the buffer and those in the file. -/
structure Out where
  data : Bytes
  file : Bytes

/-- A length as an `int`, unless that is negative. -/
def intSize (n : ℕ) : Option ℕ := if n % 2 ^ 32 < 2 ^ 31 then some (n % 2 ^ 32) else none

def bflush (f : Out) : Out := ⟨[], f.file ++ f.data⟩

/-- `__bwrite`, with writes that succeed in full. -/
def bwriteBuf (buf : Bytes) (f : Out) : Option (ℕ × Out) := do
  -- a negative size is a huge number of bytes to write
  let size ← intSize buf.length
  let g := if bufsize < f.data.length + size then bflush f else f
  if bufsize < size then some (size, { g with file := g.file ++ buf.take size })
  else some (size, { g with data := g.data ++ buf.take size })

/-- The loop of `bwritev`, with what was written before. -/
def bwritev : List Bytes → ℤ → Out → Option (ℤ × Out)
  | [], written, f => some (written, f)
  | v :: iov, written, f => do
      let (ret, g) ← bwriteBuf v f
      let written := (written + ret).bmod (2 ^ 32)
      if ret < v.length then some (written, g) else bwritev iov written g

inductive Write
  | bwrite (buf : Bytes)
  | bwritev (iov : List Bytes)

variable {ws : List Write}

def Write.run : Write → Out → Option (ℤ × Out)
  | bwrite buf, f => (bwriteBuf buf f).map fun (ret, g) => (ret, g)
  | bwritev iov, f => Bfd.bwritev iov 0 f

def Write.iov : Write → List Bytes
  | bwrite buf => [buf]
  | bwritev iov => iov

def writes : List Write → Out → Option Out
  | [], f => some f
  | w :: ws, f => do
      let (_, g) ← w.run f
      writes ws g

/-- The file that `bclose` leaves. -/
def bclose (f : Out) : Bytes := (bflush f).file

/-- What a call takes of its areas, up to one whose length is not its size; none of them may have a
negative size. -/
def taken : List Bytes → Option Bytes
  | [] => some []
  | v :: iov => do
      let size ← intSize v.length
      if size < v.length then some (v.take size) else (taken iov).map (v ++ ·)

theorem intSize_eq {n : ℕ} (h : n < 2 ^ 31) : intSize n = some n := by
  rw [intSize, Nat.mod_eq_of_lt (by omega), if_pos h]

theorem taken_all {iov : List Bytes} (h : ∀ v ∈ iov, v.length < 2 ^ 31) :
    taken iov = some iov.flatten := by
  induction iov with
  | nil => rfl
  | cons v iov ih =>
    obtain ⟨hv, hiov⟩ := forall_mem_cons.mp h
    simp [taken, intSize_eq hv, ih hiov]

theorem taken_calls (h : ∀ w ∈ ws, ∀ v ∈ w.iov, v.length < 2 ^ 31) :
    ws.mapM (fun w => taken w.iov) = some (ws.map fun w => w.iov.flatten) := by
  induction ws with
  | nil => rfl
  | cons w ws ih =>
    obtain ⟨hw, hws⟩ := forall_mem_cons.mp h
    simp [taken_all hw, ih hws]

section Writes

variable {buf s : Bytes} {iov : List Bytes} {size : ℕ} (f : Out)

theorem bwriteBuf_eq (h : intSize buf.length = some size) :
    ∃ g, bwriteBuf buf f = some (size, g) ∧ bclose g = bclose f ++ buf.take size := by
  simp only [bwriteBuf, h, Option.bind_eq_bind, Option.bind_some]
  by_cases hfull : bufsize < f.data.length + size
  · split <;> exact ⟨_, rfl, by simp [bclose, bflush]⟩
  · rw [if_neg hfull, if_neg (by omega)]
    exact ⟨_, rfl, by simp [bclose, bflush]⟩

theorem bwritev_eq (h : taken iov = some s) (written : ℤ) :
    ∃ r, bwritev iov written f = some r ∧ bclose r.2 = bclose f ++ s := by
  induction iov generalizing s written f with
  | nil =>
    obtain rfl := Option.some.inj h
    exact ⟨_, rfl, (append_nil _).symm⟩
  | cons v iov ih =>
    obtain ⟨size, hsize, h⟩ := Option.bind_eq_some_iff.mp h
    obtain ⟨g, hv, hg⟩ := bwriteBuf_eq f hsize
    simp only [bwritev, hv, Option.bind_eq_bind, Option.bind_some]
    split at h
    case isTrue hshort =>
      obtain rfl := Option.some.inj h
      rw [if_pos hshort]
      exact ⟨_, rfl, hg⟩
    case isFalse hall =>
      obtain ⟨t, ht, rfl⟩ := Option.map_eq_some_iff.mp h
      rw [if_neg hall, ← append_assoc, ← take_of_length_le (Nat.le_of_not_lt hall), ← hg]
      exact ih g ht _

theorem Write.run_eq {w : Write} (h : taken w.iov = some s) :
    ∃ r, w.run f = some r ∧ bclose r.2 = bclose f ++ s := by
  cases w with
  | bwritev iov => exact bwritev_eq f h 0
  | bwrite buf =>
    -- one area is taken as a whole
    obtain ⟨r, hr, hclose⟩ := bwritev_eq f h 0
    obtain ⟨⟨ret, g⟩, hbuf, hg⟩ := Option.bind_eq_some_iff.mp hr
    refine ⟨(ret, g), by simp [run, hbuf], ?_⟩
    rw [← hclose]
    dsimp only [Bfd.bwritev] at hg
    split at hg <;> rw [← Option.some.inj hg]

theorem writes_eq {ss : List Bytes} (h : ws.mapM (fun w => taken w.iov) = some ss) :
    ∃ g, writes ws f = some g ∧ bclose g = bclose f ++ ss.flatten := by
  induction ws generalizing f ss with
  | nil =>
    obtain rfl := Option.some.inj h
    exact ⟨f, rfl, (append_nil _).symm⟩
  | cons w ws ih =>
    rw [mapM_cons] at h
    obtain ⟨s, hs, h⟩ := Option.bind_eq_some_iff.mp h
    obtain ⟨t, ht, h⟩ := Option.bind_eq_some_iff.mp h
    obtain rfl := Option.some.inj h
    obtain ⟨r, hr, hclose⟩ := w.run_eq f hs
    rw [flatten_cons, ← append_assoc, ← hclose]
    simpa [writes, hr] using ih r.2 ht

end Writes

/-- What `bread` returns unless BUG_ON stops it, the bytes it has stored, the number of reads made
and the descriptor. -/
structure Got where
  ret : Option ℤ
  buf : Bytes
  reads : ℕ
  f : In

/-- The loop of `bread`, with the bytes it has and the number of reads made before. -/
def breadLoop (reads : ℕ → Option ℕ) (size : ℤ) (buf : Bytes) (i : ℕ) (f : In) : Got :=
  -- the comparison is unsigned, so that a negative rest is large
  let chunk := if 0 ≤ size - buf.length then min (size - buf.length).toNat f.data.length
    else f.data.length
  let filled := buf ++ f.data.take chunk
  let data := f.data.drop chunk
  if filled.length < size then
    match h : brefill (reads i) ⟨data, f.file⟩ with
    | none => ⟨some (-1), filled, i + 1, ⟨data, f.file⟩⟩
    | some g =>
        if hread : g.data.length = data.length then
          ⟨some ↑filled.length, filled, i + 1, g⟩
        else breadLoop reads size filled (i + 1) g
  else ⟨if filled.length > size then none else some ↑filled.length, filled, i,
    ⟨data, f.file⟩⟩
termination_by f.file.length
decreasing_by
  obtain ⟨k, -, rfl⟩ := Option.map_eq_some_iff.mp h
  simp only [length_append, length_take, length_drop] at hread ⊢
  omega

/-- Without a buffer all bytes that are left are in the file. -/
def bread (reads : ℕ → Option ℕ) (buffered : Bool) (size : ℤ) (i : ℕ) (f : In) : Got :=
  if buffered then breadLoop reads size [] i f
  -- the kernel refuses a negative count
  else match if size < 0 then none else reads i with
    | none => ⟨some (-1), [], i + 1, f⟩
    | some k =>
        let n := min (k + 1) size.toNat
        ⟨some ↑((left f).take n).length, (left f).take n, i + 1, ⟨[], (left f).drop n⟩⟩

/-- What some calls of `bread` return. -/
def breads (reads : ℕ → Option ℕ) : List ℕ → ℕ → In → Option (List Bytes)
  | [], _, _ => some []
  | size :: sizes, i, f => do
      let got := bread reads true size i f
      let ret ← got.ret
      if ret < 0 then none
      else (breads reads sizes got.reads got.f).map (got.buf :: ·)

section Reads

theorem left_chunk (buf : Bytes) (n : ℕ) (f : In) :
    buf ++ left f = buf ++ f.data.take n ++ left ⟨f.data.drop n, f.file⟩ := by
  rw [left, left, append_assoc, ← append_assoc (take n f.data), take_append_drop]

/-- No byte is lost, and less than `size` of them are stored only where a read fails or the file
ends. -/
structure Fills (size : ℤ) (failed : Prop) (s : Bytes) (got : Got) : Prop where
  split : s = got.buf ++ left got.f
  ret : got.ret = some (-1) ∧ got.buf.length < size ∧ failed ∨
    got.ret = some ↑got.buf.length ∧ got.buf.length ≤ size ∧
      (got.buf.length < size → left got.f = [])

theorem breadLoop_fills {reads : ℕ → Option ℕ} {size : ℤ} {buf : Bytes}
    (hbuf : buf.length ≤ size) (i : ℕ) (f : In) :
    Fills size (∃ j, reads j = none) (buf ++ left f) (breadLoop reads size buf i f) := by
  fun_induction breadLoop with
  | case1 buf i f chunk filled data hmore h =>
    exact ⟨left_chunk buf chunk f, .inl ⟨rfl, hmore, i, Option.map_eq_none_iff.mp h⟩⟩
  | case2 buf i f chunk filled data hmore g h hread =>
    have hdata : data = [] := by grind
    have hend : left ⟨data, f.file⟩ = [] :=
      refill_empty h (length_eq_zero_iff.mp (by rw [hread, hdata, length_nil]))
    rw [left_chunk buf chunk f, ← left_refill h]
    exact ⟨rfl, .inr ⟨rfl, Int.le_of_lt hmore, fun _ => (left_refill h).trans hend⟩⟩
  | case3 buf i f chunk filled data hmore g h hread ih =>
    rw [left_chunk buf chunk f, ← left_refill h]
    exact ih (Int.le_of_lt hmore)
  | case4 buf i f chunk filled data hmore =>
    have hle : filled.length ≤ size := by grind
    exact ⟨left_chunk buf chunk f, .inr ⟨if_neg (Int.not_lt.mpr hle), hle,
      fun hlt => absurd hlt hmore⟩⟩

variable (reads : ℕ → ℕ)

theorem bread_eq (size i : ℕ) (f : In) :
    ∃ j g, bread (fun i => some (reads i)) true size i f =
        ⟨some ↑((left f).take size).length, (left f).take size, j, g⟩ ∧
      left g = (left f).drop size := by
  obtain ⟨hsplit, ⟨-, -, j, hj⟩ | ⟨hret, hle, hend⟩⟩ :=
    @breadLoop_fills (fun i => some (reads i)) size [] (Int.natCast_nonneg size) i f
  · cases hj
  rw [bread]
  generalize breadLoop (fun i => some (reads i)) size [] i f = got at hsplit hret hle hend
  obtain ⟨ret, buf, j, g⟩ := got
  dsimp only at hret
  have hbuf : (buf ++ left g).take size = buf ∧ (buf ++ left g).drop size = left g := by
    rcases Nat.lt_or_eq_of_le (Int.ofNat_le.mp hle) with hlt | rfl
    · rw [hend (Int.ofNat_lt.mpr hlt), append_nil]
      exact ⟨take_of_length_le (Nat.le_of_lt hlt), drop_of_length_le (Nat.le_of_lt hlt)⟩
    · exact ⟨take_left, drop_left⟩
  rw [← nil_append (left f), hsplit, hbuf.1, hbuf.2, hret]
  exact ⟨j, g, rfl, rfl⟩

theorem breads_eq (sizes : List ℕ) (i : ℕ) (f : In) :
    ∃ bufs, breads (fun i => some (reads i)) sizes i f = some bufs ∧
      bufs.flatten = (left f).take sizes.sum ∧ ∀ n, bufs[n]? = sizes[n]?.map fun size =>
          ((left f).drop (sizes.take n).sum).take size := by
  induction sizes generalizing i f with
  | nil => exact ⟨[], rfl, by simp, by simp⟩
  | cons size sizes ih =>
    obtain ⟨j, g, hread, hg⟩ := bread_eq reads size i f
    obtain ⟨bufs, hbufs, hflat, hall⟩ := ih j g
    refine ⟨(left f).take size :: bufs, ?_, ?_, fun n => ?_⟩
    · simp [breads, hread, hbufs]
    · rw [flatten_cons, hflat, hg, sum_cons, take_add]
    · cases n with
      | zero => simp
      | succ n => simp [hall, hg]

end Reads

/-- Behind `bclose` the file holds what the calls took, in order, and they take everything if the
lengths are `int`s; the calls of `bread` return the bytes of the file in order, each as many as it
asked for until the file ends. -/
theorem buffering_round_trip :
    (∀ (ws : List Write) (ss : List Bytes), ws.mapM (fun w => taken w.iov) = some ss →
      ∃ f, writes ws ⟨[], []⟩ = some f ∧ bclose f = ss.flatten) ∧
    (∀ ws : List Write, (∀ w ∈ ws, ∀ v ∈ w.iov, v.length < 2 ^ 31) →
      ws.mapM (fun w => taken w.iov) = some (ws.map fun w => w.iov.flatten)) ∧
    ∀ (s : Bytes) (sizes : List ℕ) (reads : ℕ → ℕ),
      ∃ bufs, breads (fun i => some (reads i)) sizes 0 ⟨[], s⟩ = some bufs ∧
        bufs.flatten = s.take sizes.sum ∧
          ∀ n, bufs[n]? = sizes[n]?.map fun size => (s.drop (sizes.take n).sum).take size :=
  ⟨fun _ _ => writes_eq ⟨[], []⟩, fun _ => taken_calls,
    fun s sizes reads => breads_eq reads sizes 0 ⟨[], s⟩⟩

end Criu.Bfd

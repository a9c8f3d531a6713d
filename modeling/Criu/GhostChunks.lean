import Mathlib.Data.List.GetD
import Criu.PbRead

/-!
Ghost files in chunks (criu/files-reg.c). Every extent of data is a record with its offset and
length, and the bytes behind it. Where the bytes of a chunk are cut off, the loop that restores it
asks for the rest for ever.
-/

namespace Criu.GhostChunks

open StringSplit PbRead List

structure GhostChunk where
  off : ℕ
  len : ℕ

structure File where
  size : ℕ
  bytes : ℕ → Fin 256

def File.ftruncate (f : File) (size : ℕ) : File :=
  ⟨size, fun x => if x < f.size then f.bytes x else 0⟩

def File.write (f : File) (off : ℕ) (s : Bytes) : File :=
  ⟨if s = [] then f.size else max f.size (off + s.length),
    fun x => if off ≤ x then s.getD (x - off) (f.bytes x) else f.bytes x⟩

/-- The calls of `sendfile` or `splice`: they fail, or move at most one byte more than this. -/
abbrev Kernel := ℕ → Option (Fin 0x7ffff000)

variable (kernel : Kernel) (unpack : Bytes → Option GhostChunk)

/-- `pb_read_one_eof` of a chunk, which comes with the rest of the image. -/
def pbReadOneEof (img : Bytes) : Option (Option (GhostChunk × Bytes)) :=
  let size := le (img.take 4)
  if img = [] then some none
  else if img.length < 4 + size ∨ 2 ^ 31 ≤ size then none
  else (unpack ((img.drop 4).take size)).map fun c => some (c, img.drop (4 + size))

/-- The number of calls made, the rest of the image and the file, unless there is an error; nothing
if the loop is still running. -/
def copyChunkToFile : ℕ → ℕ → Bytes → File → ℕ → ℕ → Option (Option (ℕ × Bytes × File))
  | 0, _, _, _, _, _ => none
  | fuel + 1, i, img, f, off, len =>
      if len = 0 then some (some (i, img, f))
      -- `lseek` refuses a negative offset
      else if 2 ^ 63 ≤ off then some none
      else match kernel i with
        | none => some none
        | some k =>
            let s := img.take (min (min (k + 1) len) (2 ^ 63 - off))
            copyChunkToFile fuel (i + 1) (img.drop s.length) (f.write off s) (off + s.length)
              (len - s.length)

def chunksLoop : ℕ → ℕ → Bytes → File → Option (Option File)
  | 0, _, _, _ => none
  | fuel + 1, i, img, f =>
      match pbReadOneEof unpack img with
      | none => some none
      | some none => some (some f)
      | some (some (c, rest)) =>
          match copyChunkToFile kernel fuel i rest f c.off c.len with
          | none => none
          | some none => some none
          | some (some (i, rest, f)) => chunksLoop fuel i rest f

def copyFileFromChunks (resized : Bool) (fuel : ℕ) (img : Bytes) (f : File) (fileSize : ℕ) :
    Option (Option File) :=
  if resized then chunksLoop kernel unpack fuel 0 img (f.ftruncate fileSize) else some none

inductive Whole : Bytes → Prop
  | nil : Whole []
  | chunk {img rest : Bytes} {c : GhostChunk} : pbReadOneEof unpack img = some (some (c, rest)) →
      c.len ≤ rest.length → Whole (rest.drop c.len) → Whole img

/-- The bytes of a chunk are cut off before an offset that `lseek` refuses. -/
inductive Stuck : Bytes → Prop
  | here {img rest : Bytes} {c : GhostChunk} : pbReadOneEof unpack img = some (some (c, rest)) →
      rest.length < c.len → c.off + rest.length < 2 ^ 63 → Stuck img
  | later {img rest : Bytes} {c : GhostChunk} : pbReadOneEof unpack img = some (some (c, rest)) →
      c.len ≤ rest.length → c.len = 0 ∨ c.off + c.len ≤ 2 ^ 63 → Stuck (rest.drop c.len) →
      Stuck img

def Ends (img : Bytes) (f : File) (fileSize : ℕ) : Prop :=
  ∀ kernel resized, ∃ fuel r,
    copyFileFromChunks kernel unpack resized fuel img f fileSize = some r ∧
      (r.isSome → Whole unpack img)

variable {kernel unpack} {img : Bytes} {f : File} {fuel i off len : ℕ}

theorem pbReadOneEof_cases {r : Option (GhostChunk × Bytes)}
    (h : pbReadOneEof unpack img = some r) :
    r = none ∧ img = [] ∨ ∃ c rest, r = some (c, rest) ∧ rest.length < img.length := by
  simp only [pbReadOneEof] at h
  split at h
  · next hnil => exact .inl ⟨(Option.some.inj h).symm, hnil⟩
  next hne =>
  split at h
  · cases h
  obtain ⟨c, -, rfl⟩ := Option.map_eq_some_iff.mp h
  refine .inr ⟨c, _, rfl, ?_⟩
  rw [length_drop]
  omega

theorem moved (img : Bytes) {k off len : ℕ} (hlen : len ≠ 0) (hoff : ¬ 2 ^ 63 ≤ off) :
    ∃ s rest : Bytes, img = s ++ rest ∧ img.take (min (min (k + 1) len) (2 ^ 63 - off)) = s ∧
      s.length ≤ len ∧ off + s.length ≤ 2 ^ 63 ∧ (rest ≠ [] → 0 < s.length) := by
  refine ⟨_, _, (take_append_drop _ _).symm, rfl, ?_⟩
  rw [← length_pos_iff, length_drop, length_take]
  omega

theorem File.write_nil (f : File) (off : ℕ) : f.write off [] = f := by
  simp [File.write]

theorem File.write_write (f : File) (off : ℕ) (s t : Bytes) :
    (f.write off s).write (off + s.length) t = f.write off (s ++ t) := by
  rcases eq_or_ne s [] with rfl | hs
  · simp [write_nil]
  simp only [File.write, append_eq_nil_iff, hs, false_and, if_false, length_append, File.mk.injEq]
  refine ⟨?_, funext fun x => ?_⟩
  · split
    · next ht => simp [ht]
    · omega
  · by_cases hlo : off + s.length ≤ x
    · rw [if_pos hlo, if_pos (by omega), if_pos (by omega), getD_append_right _ _ _ _ (by omega),
        getD_eq_default s _ (by omega), Nat.sub_sub]
    · rw [if_neg hlo]
      split
      · rw [getD_append _ _ _ _ (by omega)]
      · rfl

/-- A chunk that is complete, or that goes on to an offset that is refused, is done with. -/
theorem copyChunkToFile_ends (h : len ≤ img.length ∨ 2 ^ 63 ≤ off + img.length)
    (hfuel : img.length < fuel) :
    ∃ r, copyChunkToFile kernel fuel i img f off len = some r ∧
      (∀ x ∈ r, len ≤ img.length ∧ (len = 0 ∨ off + len ≤ 2 ^ 63) ∧
        x.2 = (img.drop len, f.write off (img.take len))) ∧
      ((∀ i, kernel i ≠ none) → len ≤ img.length → off + len ≤ 2 ^ 63 → r ≠ none) := by
  induction fuel generalizing i img f off len with
  | zero => omega
  | succ fuel ih =>
    rw [copyChunkToFile]
    split
    · next hlen => exact ⟨_, rfl, by simp [hlen, File.write_nil], nofun⟩
    next hlen =>
    split
    · exact ⟨_, rfl, nofun, by omega⟩
    next hoff =>
    cases hk : kernel i with
    | none => exact ⟨_, rfl, nofun, fun hall => absurd hk (hall i)⟩
    | some k =>
      obtain ⟨s, rest, rfl, hs, hle, hend, hpos⟩ := moved img hlen hoff
      dsimp only
      rw [hs, drop_left]
      rw [length_append] at h hfuel
      have hmore : rest.length < fuel := by
        rcases eq_or_ne rest [] with rfl | hne
        · simp only [length_nil] at h
          omega
        · have := hpos hne
          omega
      obtain ⟨r, hr, hall, hsome⟩ := @ih rest (f.write off s) (i + 1) (off + s.length)
        (len - s.length) (by omega) hmore
      rw [length_append, take_append, take_of_length_le hle, drop_append, drop_eq_nil_of_le hle,
        ← File.write_write]
      refine ⟨r, hr, fun x hx => ?_, fun hall hlen hoff => hsome hall (by omega) (by omega)⟩
      obtain ⟨hlen', hoff', hrest⟩ := hall x hx
      exact ⟨by omega, by omega, hrest⟩

/-- A kernel that moves a byte at a time gets past a complete chunk, if the loop ends. -/
theorem copyChunkToFile_bytewise (h : len = 0 ∨ off + min len (img.length + 1) ≤ 2 ^ 63)
    (fuel i : ℕ) (f : File) : copyChunkToFile (fun _ => some 0) fuel i img f off len = none ∨
      len ≤ img.length ∧ ∃ i' f', copyChunkToFile (fun _ => some 0) fuel i img f off len =
        some (some (i', img.drop len, f')) := by
  induction fuel generalizing i img f off len with
  | zero => exact .inl rfl
  | succ fuel ih =>
    rw [copyChunkToFile]
    split
    · next hzero => exact .inr ⟨by omega, i, f, by rw [hzero]; rfl⟩
    next hzero =>
    have hlt : ¬ 2 ^ 63 ≤ off := by omega
    obtain ⟨s, rest, rfl, hs, hle, hend, hpos⟩ := moved img hzero hlt
    rw [if_neg hlt]
    dsimp only
    rw [hs, drop_left, drop_append, drop_eq_nil_of_le hle, length_append]
    rw [length_append] at h
    refine (@ih rest (off + s.length) (len - s.length) ?_ (i + 1) (f.write off s)).imp_right
      fun ⟨hlen, hrest⟩ => ⟨by omega, hrest⟩
    omega

theorem Stuck.never (h : Stuck unpack img) (fuel i : ℕ) (f : File) :
    chunksLoop (fun _ => some 0) unpack fuel i img f = none := by
  induction h generalizing fuel i f with
  | @here img rest c hread hlen hoff =>
    cases fuel with
    | zero => rfl
    | succ fuel =>
      have hnone := (@copyChunkToFile_bytewise rest c.off c.len (by omega) fuel i f).resolve_right
        fun hpast => by omega
      simp only [chunksLoop, hread, hnone]
  | @later img rest c hread hlen hoff _ ih =>
    cases fuel with
    | zero => rfl
    | succ fuel =>
      rcases @copyChunkToFile_bytewise rest c.off c.len (by omega) fuel i f with
        hnone | ⟨-, i', f', hsome⟩
      · simp only [chunksLoop, hread, hnone]
      · simp only [chunksLoop, hread, hsome, ih]

theorem chunksLoop_ends (h : ¬ Stuck unpack img) (hfuel : img.length < fuel) :
    ∃ r, chunksLoop kernel unpack fuel i img f = some r ∧ (r.isSome → Whole unpack img) := by
  induction fuel generalizing i img f with
  | zero => omega
  | succ fuel ih =>
    rw [chunksLoop]
    cases hread : pbReadOneEof unpack img with
    | none => exact ⟨_, rfl, nofun⟩
    | some r =>
      obtain ⟨rfl, rfl⟩ | ⟨c, rest, rfl, hlt⟩ := pbReadOneEof_cases hread
      · exact ⟨_, rfl, fun _ => .nil⟩
      have hcut : c.len ≤ rest.length ∨ 2 ^ 63 ≤ c.off + rest.length := by
        by_contra hno
        exact h (.here hread (by omega) (by omega))
      obtain ⟨r, hr, hall, -⟩ :=
        @copyChunkToFile_ends kernel rest f fuel i c.off c.len hcut (by omega)
      dsimp only
      rw [hr]
      match r with
      | none => exact ⟨_, rfl, nofun⟩
      | some (i', x) =>
        obtain ⟨hlen, hoff, heq⟩ := hall _ rfl
        cases heq
        obtain ⟨r, hr, hwhole⟩ := @ih (rest.drop c.len) _ i'
          (fun hstuck => h (.later hread hlen hoff hstuck)) (by rw [length_drop]; omega)
        exact ⟨r, hr, fun hsome => .chunk hread hlen (hwhole hsome)⟩

theorem Stuck.not_ends (h : Stuck unpack img) (f : File) (fileSize : ℕ) :
    ¬ Ends unpack img f fileSize := by
  intro hends
  obtain ⟨fuel, r, hr, -⟩ := hends (fun _ => some 0) true
  cases (h.never fuel 0 _).symm.trans hr

/-- A ghost file is restored or refused whatever the calls do exactly if no chunk is cut off before
an offset that is refused. -/
theorem ghost_restore_ends_iff (unpack : Bytes → Option GhostChunk) (img : Bytes) (f : File)
    (fileSize : ℕ) : Ends unpack img f fileSize ↔ ¬ Stuck unpack img := by
  refine ⟨fun h hstuck => hstuck.not_ends f fileSize h,
    fun h kernel resized => ⟨img.length + 1, ?_⟩⟩
  cases resized with
  | false => exact ⟨none, rfl, nofun⟩
  | true => exact chunksLoop_ends h (Nat.lt_succ_self _)

/-- A chunk of one byte at offset 0, without the byte. -/
theorem cut_chunk_never_ends : ¬ Ends
    (fun s => if s = [8, 1, 16, 0] then some ⟨0, 1⟩ else none) [4, 0, 0, 0, 8, 1, 16, 0]
    ⟨0, fun _ => 0⟩ 1 :=
  (@Stuck.here _ _ [] ⟨0, 1⟩ rfl (by decide) (by decide)).not_ends _ _

end Criu.GhostChunks

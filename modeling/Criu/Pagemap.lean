import Mathlib.Algebra.GroupWithZero.Nat
import Mathlib.Data.List.Basic
import Criu.Lib.Blit

/-!
Pagemap entries (images/pagemap.proto, criu/include/pagemap.h) and the layout of
the pages image they describe: the pages of the PRESENT entries are stored one
after another in pagemap order, and nothing else is stored.
-/

namespace Criu.Pagemap

def pageSize : ℕ := 4096

def peParent : ℕ := 1
def peLazy : ℕ := 2
def pePresent : ℕ := 4

structure PagemapEntry where
  vaddr : ℕ
  nrPages : ℕ
  flags : ℕ
deriving DecidableEq, Repr

def pagemapLen (pe : PagemapEntry) : ℕ := pe.nrPages * pageSize

def pagemapInParent (pe : PagemapEntry) : Bool := pe.flags &&& peParent != 0

def pagemapLazy (pe : PagemapEntry) : Bool := pe.flags &&& peLazy != 0

def pagemapPresent (pe : PagemapEntry) : Bool := pe.flags &&& pePresent != 0

namespace PagemapEntry

def stop (pe : PagemapEntry) : ℕ := pe.vaddr + pagemapLen pe

def Covers (pe : PagemapEntry) (v : ℕ) : Prop := pe.vaddr ≤ v ∧ v < pe.stop

instance (pe : PagemapEntry) (v : ℕ) : Decidable (pe.Covers v) :=
  inferInstanceAs (Decidable (pe.vaddr ≤ v ∧ v < pe.stop))

def presentLen (pe : PagemapEntry) : ℕ := if pagemapPresent pe then pagemapLen pe else 0

/-- Exactly one of PE_PRESENT and PE_PARENT is set. -/
def Plain (pe : PagemapEntry) : Prop := pagemapPresent pe = !pagemapInParent pe

instance (pe : PagemapEntry) : Decidable pe.Plain :=
  inferInstanceAs (Decidable (pagemapPresent pe = !pagemapInParent pe))

theorem vaddr_le_stop (pe : PagemapEntry) : pe.vaddr ≤ pe.stop := Nat.le_add_right _ _

end PagemapEntry

def SortedMap (pmes : List PagemapEntry) : Prop :=
  pmes.Pairwise (fun a b => a.stop ≤ b.vaddr)

instance (pmes : List PagemapEntry) : Decidable (SortedMap pmes) :=
  inferInstanceAs (Decidable (pmes.Pairwise (fun a b => a.stop ≤ b.vaddr)))

def presentTotal (pmes : List PagemapEntry) : ℕ :=
  (pmes.map PagemapEntry.presentLen).sum

theorem presentTotal_cons (e : PagemapEntry) (rest : List PagemapEntry) :
    presentTotal (e :: rest) = e.presentLen + presentTotal rest := by
  simp [presentTotal]

theorem presentTotal_append (l r : List PagemapEntry) :
    presentTotal (l ++ r) = presentTotal l + presentTotal r := by
  simp [presentTotal]

def entryAt (pmes : List PagemapEntry) (v : ℕ) : Option PagemapEntry :=
  pmes.find? (fun e => e.Covers v)

/-- Where the byte of address `v` is stored in the pages image: the image holds
the pages of the PRESENT entries one after another in pagemap order. -/
def fileOffset : List PagemapEntry → ℕ → Option ℕ
  | [], _ => none
  | e :: rest, v =>
      if e.Covers v then
        if pagemapPresent e then some (v - e.vaddr) else none
      else (fileOffset rest v).map (e.presentLen + ·)

/-- The first entry's pages are stored before all others. -/
theorem fileOffset_head_ne {e : PagemapEntry} {rest : List PagemapEntry} {a b o : ℕ}
    (ha : e.Covers a) (hb : ¬ e.Covers b) (hoa : fileOffset (e :: rest) a = some o) :
    fileOffset (e :: rest) b ≠ some o := by
  intro hob
  obtain ⟨hlo, hhi⟩ := ha
  simp only [PagemapEntry.stop] at hhi
  simp only [fileOffset, show e.Covers a from ⟨hlo, hhi⟩, hb, if_false,
    Option.map_eq_some_iff] at hoa hob
  obtain ⟨o', -, ho'⟩ := hob
  cases hp : pagemapPresent e with
  | false => simp [hp] at hoa
  | true =>
    simp only [hp, if_true, Option.some.injEq, PagemapEntry.presentLen] at hoa ho'
    omega

variable {pmes : List PagemapEntry}

/-- Distinct addresses are stored at distinct places. -/
theorem fileOffset_inj {v v' o : ℕ}
    (h : fileOffset pmes v = some o) (h' : fileOffset pmes v' = some o) : v = v' := by
  induction pmes generalizing o with
  | nil => simp [fileOffset] at h
  | cons e rest ih =>
    by_cases hv : e.Covers v
    · by_cases hv' : e.Covers v'
      · cases hp : pagemapPresent e with
        | false => simp [fileOffset, hv, hp] at h
        | true =>
          simp only [fileOffset, hv, hv', hp, if_true, Option.some.injEq] at h h'
          have := hv.1
          have := hv'.1
          omega
      · exact absurd h' (fileOffset_head_ne hv hv' h)
    · by_cases hv' : e.Covers v'
      · exact absurd h (fileOffset_head_ne hv' hv h')
      · simp only [fileOffset, hv, hv', if_false, Option.map_eq_some_iff] at h h'
        obtain ⟨o₁, h₁, ho₁⟩ := h
        obtain ⟨o₂, h₂, ho₂⟩ := h'
        obtain rfl : o₁ = o₂ := by omega
        exact ih h₁ h₂

theorem fileOffset_some {v o : ℕ} (h : fileOffset pmes v = some o) :
    ∃ e ∈ pmes, e.Covers v ∧ pagemapPresent e = true := by
  induction pmes generalizing o with
  | nil => simp [fileOffset] at h
  | cons e rest ih =>
    by_cases hv : e.Covers v
    · refine ⟨e, List.mem_cons_self .., hv, ?_⟩
      by_contra hp
      simp [fileOffset, hv, hp] at h
    · simp only [fileOffset, hv, if_false, Option.map_eq_some_iff] at h
      obtain ⟨o', ho', -⟩ := h
      obtain ⟨e', he', hc⟩ := ih ho'
      exact ⟨e', List.mem_cons_of_mem _ he', hc⟩

section Sorted

variable {pre post : List PagemapEntry} {e : PagemapEntry} {v : ℕ}

theorem not_covers_pre (hs : SortedMap (pre ++ e :: post)) (hv : e.vaddr ≤ v) :
    ∀ a ∈ pre, ¬ a.Covers v := by
  intro a ha hc
  have hle : a.stop ≤ e.vaddr :=
    (List.pairwise_append.mp hs).2.2 a ha e List.mem_cons_self
  have := hc.2
  omega

theorem entryAt_split (hs : SortedMap (pre ++ e :: post)) (hc : e.Covers v) :
    entryAt (pre ++ e :: post) v = some e := by
  have hpre : pre.find? (fun a => decide (a.Covers v)) = none := by
    rw [List.find?_eq_none]
    intro a ha
    simpa using not_covers_pre hs hc.1 a ha
  simp [entryAt, hpre, hc]

/-- In a sorted pagemap the bytes before an entry are those of the entries before it. -/
theorem fileOffset_split (hs : SortedMap (pre ++ e :: post)) (hc : e.Covers v)
    (hp : pagemapPresent e = true) :
    fileOffset (pre ++ e :: post) v = some (presentTotal pre + (v - e.vaddr)) := by
  induction pre with
  | nil => simp [fileOffset, hc, hp, presentTotal]
  | cons a rest ih =>
    have hna : ¬ a.Covers v := not_covers_pre hs hc.1 a List.mem_cons_self
    have htail := ih (List.pairwise_cons.mp hs).2
    simp [fileOffset, hna, htail, presentTotal_cons, Nat.add_assoc]

/-- No two entries of a sorted pagemap cover one address. -/
theorem covers_unique {a b : PagemapEntry} (hs : SortedMap pmes)
    (ha : a ∈ pmes) (hb : b ∈ pmes) (hca : a.Covers v) (hcb : b.Covers v) : a = b := by
  obtain ⟨pre, post, rfl⟩ := List.append_of_mem ha
  obtain ⟨pre', post', h⟩ := List.append_of_mem hb
  have h1 := entryAt_split hs hca
  have h2 := entryAt_split (h ▸ hs) hcb
  rw [h, h2, Option.some.injEq] at h1
  exact h1.symm

end Sorted

end Criu.Pagemap

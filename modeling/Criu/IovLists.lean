import Criu.Lib.Segment
import Criu.Pagemap

/-!
The lists of lazy ranges of criu/uffd.c. A range tracks addresses of the restored task
together with the addresses the pages had at dump time; ranges are split, cut, moved
between lists and moved in the address space. What a list tracks is the list of its
points, an address with its dump-time address.
-/

namespace Criu.IovLists

open Segment Pagemap

structure LazyIov where
  start : ℕ
  stop : ℕ
  img : ℕ
deriving DecidableEq, Repr

/-- `split_iov`: the range up to `addr`, and the new range linked behind it. -/
def splitIov (iov : LazyIov) (addr : ℕ) : LazyIov × LazyIov :=
  (⟨iov.start, addr, iov.img⟩, ⟨addr, iov.stop, iov.img + addr - iov.start⟩)

/-- The loop of `iov_list_insert` over a list that is not empty. It may end without having
inserted anything. -/
def insertLoop (new : LazyIov) : List LazyIov → Option (List LazyIov)
  | [] => none
  | iov :: rest =>
      if new.start < iov.start then some (new :: iov :: rest)
      else if rest.isEmpty ∧ iov.start < new.start then some [iov, new]
      else (insertLoop new rest).map (iov :: ·)

/-- `iov_list_insert`; without a result the new range stays where it is linked. -/
def iovListInsert (new : LazyIov) (dst : List LazyIov) : Option (List LazyIov) :=
  if dst.isEmpty then some [new] else insertLoop new dst

/-- `merge_iov_lists`: the ranges left in the source list, and the destination list. -/
def mergeIovLists : List LazyIov → List LazyIov → List LazyIov × List LazyIov
  | [], dst => ([], dst)
  | iov :: rest, dst =>
      match iovListInsert iov dst with
      | some dst' => mergeIovLists rest dst'
      | none => (iov :: (mergeIovLists rest dst).1, (mergeIovLists rest dst).2)

def dropIovs : List LazyIov → ℕ → ℕ → List LazyIov
  | [], _, _ => []
  | iov :: rest, addr, len =>
      if len = 0 ∨ addr + len < iov.start then iov :: rest
      else if iov.stop ≤ addr then iov :: dropIovs rest addr len
      else
        let len' := if addr < iov.start then len - (iov.start - addr) else len
        let addr' := if addr < iov.start then iov.start else addr
        if addr' + len' < iov.stop then
          if addr' = iov.start then ⟨iov.start + len', iov.stop, iov.img + len'⟩ :: rest
          else ⟨iov.start, addr', iov.img⟩ :: (splitIov iov (addr' + len')).2 :: rest
        else if addr' = iov.start then dropIovs rest iov.stop (len' - (iov.stop - addr'))
        else ⟨iov.start, addr', iov.img⟩ :: dropIovs rest iov.stop (len' - (iov.stop - addr'))

/-- An argument of type `int` as a length; the loop stops at once at a negative one. -/
def intLen (len : ℕ) : ℕ := ((len : ℤ).bmod (2 ^ 32)).toNat

/-- `extract_range`: the ranges left in the list before and behind the extracted one. -/
def extractRange (iov : LazyIov) (start stop : ℕ) : List LazyIov × LazyIov × List LazyIov :=
  let (iov', tails) :=
    if stop < iov.stop then ((splitIov iov stop).1, [(splitIov iov stop).2]) else (iov, [])
  if start = iov'.start then ([], iov', tails)
  else ([(splitIov iov' start).1], (splitIov iov' start).2, tails)

/-- The loop of `__remap_iovs`: the ranges that stay in the list, and the `remaps` list with
the moved ones. A head in front of the range is split off and stays, and the next round goes
on with the new range behind it; a tail behind the range is split off and ends the loop. -/
def remapLoop (off : ℕ → ℕ) : List LazyIov → ℕ → ℕ → List LazyIov × List LazyIov
  | [], _, _ => ([], [])
  | iov :: rest, src, len =>
      if iov.stop ≤ src then
        (iov :: (remapLoop off rest src len).1, (remapLoop off rest src len).2)
      else if len = 0 ∨ src + len ≤ iov.start then (iov :: rest, [])
      else
        let len' := if src < iov.start then len - (iov.start - src) else len
        let src' := if src < iov.start then iov.start else src
        let head := if iov.start < src' then [(splitIov iov src').1] else []
        let iov' := if iov.start < src' then (splitIov iov src').2 else iov
        if src' + len' < iov'.stop then
          let cut := splitIov iov' (src' + len')
          (head ++ cut.2 :: rest, [⟨off cut.1.start, off cut.1.stop, cut.1.img⟩])
        else
          let r := remapLoop off rest iov'.stop (len' - (iov'.stop - iov'.start))
          (head ++ r.1, ⟨off iov'.start, off iov'.stop, iov'.img⟩ :: r.2)

/-- `__remap_iovs`: what is left linked in `remaps`, and the list. -/
def remapIovs (iovs : List LazyIov) (src dst len : ℕ) : List LazyIov × List LazyIov :=
  let r := remapLoop (fun a => a - src + dst) iovs src len
  mergeIovLists r.2 r.1

end Criu.IovLists

import Mathlib.Data.Finset.Card
import Criu.LazyRuns

/-!
The reference counts of lpis. An lpi has one reference for the list it is in and one for each
child that is not freed; the parent of a forked lpi is always one that was opened, not itself a
child. So an lpi is freed only when it is in no list, and then it tracks nothing.
-/

namespace Criu.LazyRefs

open Run Pagemap IovLists IovTracking LazyDaemon LazyState LazyRuns List Function

variable {d : Daemon} {i : ℕ} {clear : Prop}

def Linked (d : Daemon) (i : ℕ) : Prop := i ∈ d.lpis ++ d.pending

instance (d : Daemon) (i : ℕ) : Decidable (Linked d i) :=
  inferInstanceAs (Decidable (i ∈ d.lpis ++ d.pending))

/-- The lpis that hold a reference to `i`. -/
def children (d : Daemon) (i : ℕ) : Finset ℕ :=
  (Finset.range d.count).filter (fun c => (d.lpi c).parent = some i ∧ d.freed c = false)

variable {tasks : List LazyTask} {c j : ℕ}

theorem mem_children :
    c ∈ children d i ↔ c < d.count ∧ (d.lpi c).parent = some i ∧ d.freed c = false := by
  simp [children]

/-- All references are accounted for. One of `owed` is about to be put. -/
structure Refs (d : Daemon) (owed : Option ℕ) : Prop where
  parent : ∀ c p, (d.lpi c).parent = some p → p < d.count ∧ p ≠ c ∧ (d.lpi p).parent = none
  count : ∀ i < d.count, (d.lpi i).refCnt =
    (if owed = some i then 1 else 0) + (if Linked d i then 1 else 0) + (children d i).card
  freed : ∀ i < d.count, d.freed i = true ↔ (d.lpi i).refCnt = 0
  fresh : ∀ i, d.count ≤ i → (d.lpi i).parent = none ∧ d.freed i = false

structure ChildAdded (d d' : Daemon) (root : ℕ) : Prop where
  count : d'.count = d.count + 1
  freed : d'.freed = d.freed
  linked : ∀ j, Linked d' j ↔ Linked d j ∨ j = d.count
  child : (d'.lpi d.count).parent = some root ∧ (d'.lpi d.count).refCnt = 1
  others : ∀ j, j ≠ d.count → (d'.lpi j).parent = (d.lpi j).parent ∧
    (d'.lpi j).refCnt = (d.lpi j).refCnt + if j = root then 1 else 0

theorem handleFork_lpi_of_ne (d : Daemon) (i : ℕ) (hj : j ≠ d.count) :
    (handleFork d i).lpi j = { d.lpi j with
      refCnt := (d.lpi j).refCnt + if j = (d.lpi i).parent.getD i then 1 else 0 } := by
  refine (setLpi_of_ne _ _ hj).trans ?_
  by_cases hr : j = (d.lpi i).parent.getD i
  · rw [← hr, setLpi_self, if_pos rfl]
  · rw [setLpi_of_ne d _ hr, if_neg hr]
    rfl

theorem handleFork_lpi_count (d : Daemon) (i : ℕ) : (handleFork d i).lpi d.count = forkedLpi d i :=
  setLpi_self ..

theorem handleFork_childAdded (d : Daemon) (i : ℕ) :
    ChildAdded d (handleFork d i) ((d.lpi i).parent.getD i) := by
  constructor
  · rfl
  · rfl
  · intro j
    show j ∈ d.lpis ++ (d.pending ++ [d.count]) ↔ _
    rw [← append_assoc, mem_append, mem_singleton]
    exact Iff.rfl
  · rw [handleFork_lpi_count]
    exact ⟨rfl, rfl⟩
  · intro j hj
    rw [handleFork_lpi_of_ne d i hj]
    exact ⟨rfl, rfl⟩

namespace Refs

variable {d' : Daemon}

theorem same (h : Refs d none) (hcount : d'.count = d.count) (hfreed : d'.freed = d.freed)
    (hlpi : ∀ j, (d'.lpi j).parent = (d.lpi j).parent ∧ (d'.lpi j).refCnt = (d.lpi j).refCnt)
    (hlink : ∀ j, Linked d' j ↔ Linked d j) : Refs d' none := by
  have hchildren : ∀ i, children d' i = children d i := by
    intro i
    ext c
    rw [mem_children, mem_children, hcount, hfreed, (hlpi c).1]
  constructor
  · intro c p hp
    rw [(hlpi c).1] at hp
    rw [hcount, (hlpi p).1]
    exact h.parent c p hp
  · intro i hi
    rw [(hlpi i).2, hchildren, if_congr (hlink i) rfl rfl]
    exact h.count i (hcount ▸ hi)
  · intro i hi
    rw [(hlpi i).2, hfreed]
    exact h.freed i (hcount ▸ hi)
  · intro i hi
    rw [(hlpi i).1, hfreed]
    exact h.fresh i (hcount ▸ hi)

theorem set (h : Refs d none) {l : Lpi} (hparent : l.parent = (d.lpi i).parent)
    (hcnt : l.refCnt = (d.lpi i).refCnt) : Refs (setLpi d i l) none := by
  refine h.same rfl rfl ?_ (fun _ => Iff.rfl)
  exact fun j => setLpi_cases ⟨hparent, hcnt⟩ (fun _ _ => ⟨rfl, rfl⟩) j

theorem withReads (h : Refs d none) (reads : List AsyncRead) :
    Refs { d with reads := reads } none :=
  h.same rfl rfl (fun _ => ⟨rfl, rfl⟩) (fun _ => Iff.rfl)

theorem exit (h : Refs d none) (hexit : handleExit d i = .ok d') : Refs d' none := by
  obtain ⟨hin, rfl⟩ := handleExit_ok hexit
  have hset := h.set (l := { d.lpi i with iovs := [], reqs := [], exited := true }) rfl rfl
  refine hset.same rfl rfl (fun _ => ⟨rfl, rfl⟩) (fun j => ?_)
  exact ((perm_move_tail hin).append_right d.pending).mem_iff

theorem freed_unlinked (h : Refs d none) (hi : d.freed i = true) : ¬ Linked d i := by
  by_cases hlt : i < d.count
  · intro hlink
    have hzero := (h.freed i hlt).mp hi
    rw [h.count i hlt, if_pos hlink] at hzero
    omega
  · rw [(h.fresh i (by omega)).2] at hi
    exact absurd hi Bool.false_ne_true

/-- The parent of an lpi that is not freed is not freed. -/
theorem parent_live (h : Refs d none) {p : ℕ} (hc : c < d.count)
    (hp : (d.lpi c).parent = some p) (hlive : d.freed c = false) : d.freed p = false := by
  obtain ⟨hlt, -, -⟩ := h.parent c p hp
  have hmem : c ∈ children d p := mem_children.mpr ⟨hc, hp, hlive⟩
  have hcnt := h.count p hlt
  have hpos := Finset.card_pos.mpr ⟨c, hmem⟩
  cases hf : d.freed p with
  | false => rfl
  | true =>
    have := (h.freed p hlt).mp hf
    omega

section Put

theorem unlink (h : Refs d none) (hok : DaemonOk clear d) (hi : i ∈ d.lpis) :
    Refs { d with lpis := d.lpis.erase i } (some i) := by
  have hnodup := (nodup_append.mp hok.nodup).1
  constructor
  · exact h.parent
  · intro j hj
    have hcnt := h.count j hj
    rw [show (children { d with lpis := d.lpis.erase i } j).card = (children d j).card from rfl]
    by_cases heq : i = j
    · subst heq
      have hold : Linked d i := mem_append_left _ hi
      have hnew : ¬ Linked { d with lpis := d.lpis.erase i } i := by
        intro hin
        rcases mem_append.mp hin with hin | hin
        · exact hnodup.not_mem_erase hin
        · exact hok.not_pending hi hin
      rw [if_pos hold] at hcnt
      rw [if_pos rfl, if_neg hnew]
      simp only [reduceCtorEq, if_false] at hcnt
      omega
    · have hsame : Linked { d with lpis := d.lpis.erase i } j ↔ Linked d j := by
        simp only [Linked, mem_append, mem_erase_of_ne (Ne.symm heq)]
      have hne : ¬ some i = some j := fun he => heq (Option.some.inj he)
      rw [if_neg hne, if_congr hsame rfl rfl]
      exact hcnt
  · exact h.freed
  · exact h.fresh

/-- The reference that is owed is one of the count. -/
theorem owed_live (h : Refs d (some i)) (hi : i < d.count) :
    (d.lpi i).refCnt = 1 + (if Linked d i then 1 else 0) + (children d i).card ∧
      d.freed i = false := by
  have hcnt := h.count i hi
  rw [if_pos rfl] at hcnt
  refine ⟨hcnt, ?_⟩
  cases hf : d.freed i with
  | false => rfl
  | true =>
    have := (h.freed i hi).mp hf
    omega

theorem count_of_ne (h : Refs d (some i)) (hj : j < d.count) (hne : j ≠ i) :
    (d.lpi j).refCnt = (if Linked d j then 1 else 0) + (children d j).card := by
  have hcnt := h.count j hj
  rw [if_neg (fun he => hne (Option.some.inj he).symm)] at hcnt
  omega

theorem put_more (h : Refs d (some i)) (hi : i < d.count) (hcnt : (d.lpi i).refCnt - 1 ≠ 0) :
    Refs (setLpi d i { d.lpi i with refCnt := (d.lpi i).refCnt - 1 }) none := by
  obtain ⟨hone, hlive⟩ := h.owed_live hi
  have hparent : ∀ j, ((setLpi d i { d.lpi i with refCnt := (d.lpi i).refCnt - 1 }).lpi j).parent =
      (d.lpi j).parent := fun j => setLpi_cases rfl (fun _ _ => rfl) j
  have hchildren : ∀ k, children (setLpi d i { d.lpi i with refCnt := (d.lpi i).refCnt - 1 }) k =
      children d k := by
    intro k
    ext c
    rw [mem_children, mem_children, hparent]
    exact Iff.rfl
  constructor
  · intro c p hp
    rw [hparent] at hp ⊢
    exact h.parent c p hp
  · intro j hj
    rw [hchildren, if_neg (Option.some_ne_none j).symm, Nat.zero_add]
    by_cases heq : j = i
    · rw [heq, setLpi_self]
      show (d.lpi i).refCnt - 1 = (if Linked d i then 1 else 0) + (children d i).card
      omega
    · rw [setLpi_of_ne d _ heq]
      exact h.count_of_ne hj heq
  · intro j hj
    by_cases heq : j = i
    · rw [heq, setLpi_self]
      show d.freed i = true ↔ (d.lpi i).refCnt - 1 = 0
      rw [hlive]
      exact ⟨fun hf => absurd hf Bool.false_ne_true, fun hz => absurd hz hcnt⟩
    · rw [setLpi_of_ne d _ heq]
      exact h.freed j hj
  · intro j hj
    rw [hparent]
    exact h.fresh j hj

theorem put_last (h : Refs d (some i)) (hi : i < d.count) (hcnt : (d.lpi i).refCnt - 1 = 0) :
    Refs (freeLpi d i) (d.lpi i).parent := by
  obtain ⟨hone, hlive⟩ := h.owed_live hi
  have hself : (freeLpi d i).lpi i = { d.lpi i with
      refCnt := (d.lpi i).refCnt - 1, iovs := [], reqs := [] } := setLpi_self ..
  have hothers : ∀ j, j ≠ i → (freeLpi d i).lpi j = d.lpi j ∧ (freeLpi d i).freed j = d.freed j :=
    fun j hj => ⟨setLpi_of_ne d _ hj, update_of_ne hj ..⟩
  have hfreed : (freeLpi d i).freed i = true := update_self ..
  have hlink : ∀ j, Linked (freeLpi d i) j ↔ Linked d j := fun _ => Iff.rfl
  have hparent : ∀ j, ((freeLpi d i).lpi j).parent = (d.lpi j).parent :=
    fun j => setLpi_cases rfl (fun _ _ => rfl) j
  have hchildren : ∀ k, children (freeLpi d i) k = (children d k).erase i := by
    intro k
    ext c
    rw [Finset.mem_erase, mem_children, mem_children, hparent]
    by_cases hc : c = i
    · rw [hc, hfreed]
      simp
    · rw [(hothers c hc).2]
      exact ⟨fun hm => ⟨hc, hm⟩, fun hm => hm.2⟩
  constructor
  · intro c p hp
    rw [hparent] at hp ⊢
    exact h.parent c p hp
  · intro j hj
    rw [if_congr (hlink j) rfl rfl, hchildren]
    by_cases heq : j = i
    · have hne : ¬ (d.lpi i).parent = some i := fun hp => (h.parent i i hp).2.1 rfl
      have hle := Finset.card_erase_le (s := children d i) (a := i)
      rw [heq, hself, if_neg hne]
      show (d.lpi i).refCnt - 1 = _
      omega
    have hold := h.count_of_ne hj heq
    rw [(hothers j heq).1, hold]
    by_cases hp : (d.lpi i).parent = some j
    · have hmem : i ∈ children d j := mem_children.mpr ⟨hi, hp, hlive⟩
      have hpos := Finset.card_pos.mpr ⟨i, hmem⟩
      rw [if_pos hp, Finset.card_erase_of_mem hmem]
      omega
    · have hmem : i ∉ children d j := fun hm => hp (mem_children.mp hm).2.1
      rw [if_neg hp, Finset.erase_eq_of_notMem hmem, Nat.zero_add]
  · intro j hj
    by_cases heq : j = i
    · rw [heq, hfreed, hself]
      exact ⟨fun _ => hcnt, fun _ => rfl⟩
    · rw [(hothers j heq).1, (hothers j heq).2]
      exact h.freed j hj
  · intro j hj
    have hne : j ≠ i := fun he => Nat.not_le.mpr hi (he ▸ hj)
    rw [hparent, (hothers j hne).2]
    exact h.fresh j hj

/-- Putting the last reference of a child puts one of its parent, which has no parent. -/
theorem put_root (h : Refs d (some i)) (hi : i < d.count) (hroot : (d.lpi i).parent = none)
    (fuel : ℕ) : Refs (lpiPut (fuel + 1) d i) none := by
  unfold lpiPut
  simp only
  split
  · next hz =>
    split
    · exact hroot ▸ h.put_last hi hz
    · next p hp => exact absurd (hroot ▸ hp) (Option.some_ne_none p).symm
  · next hz => exact h.put_more hi hz

theorem put (h : Refs d (some i)) (hi : i < d.count) (fuel : ℕ) :
    Refs (lpiPut (fuel + 2) d i) none := by
  unfold lpiPut
  simp only
  split
  · next hz =>
    have hlast := h.put_last hi hz
    split
    · next hp => exact hp ▸ hlast
    · next p hp =>
      obtain ⟨hlt, hne, hroot⟩ := h.parent i p hp
      rw [hp] at hlast
      refine hlast.put_root hlt ?_ fuel
      exact (setLpi_of_ne d _ hne).symm ▸ hroot
  · next hz => exact h.put_more hi hz

theorem release (h : Refs d none) (hok : DaemonOk clear d) (hi : i ∈ d.lpis) :
    Refs (releaseLpi d i) none := by
  have hlt := hok.known i (mem_append_left _ hi)
  obtain ⟨n, hn⟩ : ∃ n, d.count + 1 = n + 2 := ⟨d.count - 1, by omega⟩
  unfold releaseLpi
  rw [hn]
  exact (h.unlink hok hi).put hlt n

end Put

theorem addChild (h : Refs d none) {root : ℕ} (hadd : ChildAdded d d' root) (hlt : root < d.count)
    (hroot : (d.lpi root).parent = none) (hlive : d.freed root = false) : Refs d' none := by
  have hin : ∀ j, j < d'.count → j < d.count ∨ j = d.count := by
    intro j hj
    rw [hadd.count] at hj
    omega
  have hsmall : ∀ j, j < d.count → j ≠ d.count := fun j hj => by omega
  have hnew : d.count ∉ children d root := fun hm => absurd (mem_children.mp hm).1 (lt_irrefl _)
  have hchildren : ∀ k, children d' k =
      if k = root then insert d.count (children d k) else children d k := by
    intro k
    ext c
    rw [mem_children, hadd.count, hadd.freed]
    by_cases hc : c = d.count
    · have hcf := (h.fresh d.count (le_refl _)).2
      rw [hc, hadd.child.1]
      split
      · next hk => simp [hk, hcf]
      · next hk =>
        have hmem : d.count ∉ children d k := fun hm =>
          absurd (mem_children.mp hm).1 (lt_irrefl _)
        simp [Ne.symm hk, hmem]
    · have hlt' : c < d.count + 1 ↔ c < d.count := by omega
      rw [(hadd.others c hc).1, hlt']
      split
      · rw [Finset.mem_insert, mem_children]
        exact ⟨.inr, fun hm => hm.resolve_left hc⟩
      · rw [mem_children]
  constructor
  · intro c p hp
    have hold : p < d.count ∧ p ≠ c ∧ (d.lpi p).parent = none := by
      by_cases hc : c = d.count
      · rw [hc, hadd.child.1] at hp
        cases hp
        exact ⟨hlt, hc ▸ hsmall _ hlt, hroot⟩
      · rw [(hadd.others c hc).1] at hp
        exact h.parent c p hp
    obtain ⟨hplt, hne, hpp⟩ := hold
    rw [hadd.count, (hadd.others p (hsmall p hplt)).1]
    exact ⟨by omega, hne, hpp⟩
  · intro j hj
    rw [hchildren, if_congr (hadd.linked j) rfl rfl, if_neg (Option.some_ne_none j).symm]
    rcases hin j hj with hj | rfl
    · have hcnt := h.count j hj
      rw [if_neg (Option.some_ne_none j).symm] at hcnt
      have hlink : (Linked d j ∨ j = d.count) ↔ Linked d j := by simp [hsmall j hj]
      rw [(hadd.others j (hsmall j hj)).2, if_congr hlink rfl rfl, hcnt]
      by_cases hr : j = root
      · rw [if_pos hr, if_pos hr, hr, Finset.card_insert_of_notMem hnew]
        omega
      · rw [if_neg hr, if_neg hr]
        omega
    · have hnone : children d d.count = ∅ := by
        apply Finset.eq_empty_of_forall_notMem
        intro c hc
        exact absurd (h.parent c _ (mem_children.mp hc).2.1).1 (lt_irrefl _)
      rw [hadd.child.2, if_neg (Ne.symm (hsmall root hlt)), hnone]
      simp
  · intro j hj
    rw [hadd.freed]
    rcases hin j hj with hj | rfl
    · rw [(hadd.others j (hsmall j hj)).2]
      by_cases hr : j = root
      · rw [hr, hlive]
        simp
      · rw [if_neg hr]
        exact h.freed j hj
    · rw [hadd.child.2, (h.fresh d.count (le_refl _)).2]
      simp
  · intro j hj
    rw [hadd.count] at hj
    rw [hadd.freed, (hadd.others j (by omega)).1]
    exact h.fresh j (by omega)

theorem fork (h : Refs d none) (hi : Polled d i) : Refs (handleFork d i) none := by
  obtain ⟨hlt, -, -, hlive⟩ := hi
  have hadd := handleFork_childAdded d i
  cases hp : (d.lpi i).parent with
  | none =>
    rw [hp] at hadd
    exact h.addChild hadd hlt hp hlive
  | some p =>
    rw [hp] at hadd
    obtain ⟨hplt, -, hpp⟩ := h.parent i p hp
    exact h.addChild hadd hplt hpp (h.parent_live hlt hp hlive)

theorem start (hd : startDaemon tasks = .ok d) : Refs d none := by
  obtain ⟨hopen, -, hlpis, hpending, -, hfreed⟩ := startDaemon_ok hd
  have hparent : ∀ j, (d.lpi j).parent = none := fun j => start_lpi hd rfl (fun _ _ _ _ => rfl) j
  constructor
  · intro c p hp
    exact absurd (hparent c ▸ hp) (Option.some_ne_none p).symm
  · intro j hj
    have hnone : children d j = ∅ := by
      apply Finset.eq_empty_of_forall_notMem
      intro c hc
      exact absurd (hparent c ▸ (mem_children.mp hc).2.1) (Option.some_ne_none j).symm
    have hlink : Linked d j := by
      rw [Linked, hlpis, hpending, append_nil]
      exact mem_range.mpr hj
    obtain ⟨task, -, iovs, bufSize, -, hl⟩ := hopen j hj
    rw [hl, if_pos hlink, hnone]
    rfl
  · intro j hj
    obtain ⟨task, -, iovs, bufSize, -, hl⟩ := hopen j hj
    rw [hl, hfreed]
    simp
  · exact fun j _ => ⟨hparent j, hfreed ▸ rfl⟩

theorem request (h : Refs d none) (hr : Requested d i d') : Refs d' none := by
  obtain ⟨l', req, nr, htaken, -, -, rfl⟩ := hr
  apply Refs.withReads
  apply h.set
  · rw [htaken.frame]
  · rw [htaken.frame]

theorem answer (h : Refs d none) {a : AsyncRead} {rest : List AsyncRead} {ret : UffdRet}
    (ha : Answered d a rest ret d') : Refs d' none := by
  cases ha with
  | nothing _ => exact h.withReads rest
  | exit hexit => exact (h.exit hexit).withReads rest
  | finish _ hfin =>
    apply Refs.withReads
    apply h.set
    · rw [hfin.frame]
    · rw [hfin.frame]

theorem next (h : Refs d none) (hok : DaemonOk clear d) {e : Event} (hdel : Deliverable d e)
    (hstep : step e d = .ok d') : Refs d' none := by
  cases step_moved hok hdel hstep with
  | idle => exact h
  | faultExit hexit | removeExit hexit => exact h.exit hexit
  | request _ hreq => exact h.request hreq
  | remove | unmap | remap => exact h.set rfl rfl
  | fork hi => exact h.fork hi
  | completeForks =>
    refine h.same rfl rfl (fun _ => ⟨rfl, rfl⟩) (fun j => ?_)
    rw [Linked, completeForks, append_nil]
    exact Iff.rfl
  | answer _ ha => exact h.answer ha
  | round hstep =>
    exact (@round_rule _ _ (Refs · none) _ (fun d i hd h hlink _ _ => h.release hd hlink)
      (fun d i d' _ h hreq => h.request hreq) hok h hstep).2

end Refs

theorem Reachable.refs {ok : Daemon → Event → Prop} (h : Reachable tasks ok d) : Refs d none := by
  apply Reach.invariant (fun d hd => Refs.start hd) _ h
  intro d e d' hr hrefs _ hstep
  exact hrefs.next (Reachable.daemonOk hr) hstep.1 hstep.2

section Lists

/-- A release changes no list: what it frees tracked nothing. -/
theorem releaseLpi_lists (hok : DaemonOk clear d) (hrefs : Refs d none) (hlink : i ∈ d.lpis)
    (hi : (d.lpi i).iovs = []) (hr : (d.lpi i).reqs = []) (j : ℕ) :
    ((releaseLpi d i).lpi j).iovs = (d.lpi j).iovs ∧
      ((releaseLpi d i).lpi j).reqs = (d.lpi j).reqs := by
  obtain ⟨lpi, freed, heq, hput⟩ := releaseLpi_frame d i
  rcases (hput j).lists with hsame | ⟨hf, hi', hr'⟩
  · rwa [heq]
  have hout := (hrefs.release hok hlink).freed_unlinked (by rwa [heq])
  have hempty : (d.lpi j).iovs = [] ∧ (d.lpi j).reqs = [] := by
    by_cases hj : j = i
    · rw [hj]
      exact ⟨hi, hr⟩
    refine hok.idle j fun hin => hout ?_
    rw [heq]
    exact mem_released hj hin
  rw [hempty.1, hempty.2, heq]
  exact ⟨hi', hr'⟩

end Lists

end Criu.LazyRefs

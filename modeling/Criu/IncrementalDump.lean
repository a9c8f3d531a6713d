import Criu.ChainClient
import Criu.ChunkedDump

/-!
Dumps of a task that goes on running (criu/mem.c, criu/page-xfer.c), each over the images of the
dumps before it. A page whose soft-dirty bit is clear is left to the parent images. Whatever a
restore then reads from the chain is the memory at the last dump.
-/

namespace Criu.IncrementalDump

open List Pagemap ReadCursor PageIo PipeBuffers PipeContents AsyncQueue Delivery SnapshotChain
  ChainClient Dedup DumpPlan DumpPages TaskDump ChunkedDump

variable {snaps : List Snapshot} {mem : ℕ → UInt8} {s : Snapshot} {calls : List AddCall}
  {pmi : List PagemapEntry} {pi : List UInt8} {e : PagemapEntry} {c : AddCall} {v : ℕ}

def imageOf (pi : List UInt8) : PagesImage := ⟨fun o => pi[o]?.getD 0, pi.length⟩

/-- A dump over the images `snaps`, the last of which was made when the memory was `mem`. A page
that is left to the parent is there, and was not written to since. -/
structure Round (snaps : List Snapshot) (mem : ℕ → UInt8) where
  k : PipeKernel
  kernel : ℕ → ℕ → ℕ → ℕ
  opts : DumpOpts
  task : Task
  parentMode : Option PreDumpMode
  pidReuse : Bool
  iovs : ℕ → Iovec
  calls : List AddCall
  calls_eq : taskCalls opts task parentMode (!snaps.isEmpty && !pidReuse) = calls
  grants : Grants k
  moves : ∀ i c n, 0 < n → 0 < kernel i c n
  -- it would punch holes into the parent images
  keepsParent : opts.autoDedup = false
  count : nrPrivPages opts task < 2 ^ 32
  small : calls.length < 2 ^ 31
  dumpable : Dumpable calls
  clean : ∀ c ∈ calls, c.isPage = false → ∀ v ∈ Set.Ico c.addr (c.addr + pageSize),
    task.mem v = mem v ∧ ∃ s, snaps.head? = some s ∧ v ∈ coverage s.pmes

def Round.dump (r : Round snaps mem) : Except Fault DumpRun :=
  dumpPagesSeized r.k r.kernel r.opts r.task r.parentMode r.pidReuse r.iovs snaps

/-- The images that dumps leave one after another, and the memory at the last dump. -/
inductive Dumps : List Snapshot → (ℕ → UInt8) → Prop
  | none (mem : ℕ → UInt8) : Dumps [] mem
  | next {snaps : List Snapshot} {mem : ℕ → UInt8} {r : Round snaps mem} {run : DumpRun}
      {s : Snapshot} : Dumps snaps mem → r.dump = .ok run → s.pmes = run.xfer.pmi →
      s.pages = imageOf run.xfer.pi → Dumps (s :: snaps) r.task.mem

/-- The bytes of an entry in the image. -/
def entryBytes (mem : ℕ → UInt8) (e : PagemapEntry) : List UInt8 :=
  (range e.presentLen).map fun i => mem (e.vaddr + i)

theorem presentBytes_entries (mem : ℕ → UInt8) (l : List PagemapEntry) :
    presentBytes mem (expandEntries l) = l.flatMap (entryBytes mem) := by
  induction l with
  | nil => rfl
  | cons e l ih =>
    rw [flatMap_cons, ← ih, entryBytes, PagemapEntry.presentLen]
    cases hp : pagemapPresent e with
    | false => simp_all [presentBytes, expandEntries, pagemapPresent]
    | true =>
      have hflag : (e.flags &&& pePresent != 0) = true := hp
      rw [if_pos rfl, pagemapLen, Nat.mul_comm, range_blocks]
      simp [presentBytes, expandEntries, filter_map, Function.comp_def, hflag, flatMap_map,
        pageBytes]

theorem length_entryBytes (mem : ℕ → UInt8) (l : List PagemapEntry) :
    (l.flatMap (entryBytes mem)).length = presentTotal l := by
  simp [entryBytes, presentTotal]

theorem flags_of_call (h : (callPage true c).2 = e.flags) :
    pagemapPresent e = c.isPage ∧ pagemapInParent e = !c.isPage := by
  rw [pagemapPresent, pagemapInParent, ← h, callPage]
  cases c.isPage with
  | false => simp [pePresent, peParent]
  | true =>
    simp only [ImageWriter.ppbXferFlags, if_true]
    split <;> exact ⟨rfl, rfl⟩

section Written

variable (hw : WritesCalls mem 0 true calls pmi pi)
include hw

theorem bytes_eq : pi = pmi.flatMap (entryBytes mem) := by
  rw [← presentBytes_entries, hw.pages, hw.data]
  simp

theorem stored_byte (hpmes : s.pmes = pmi) (hpages : s.pages = imageOf pi) (he : e ∈ pmi)
    (hv : e.Covers v) (hp : pagemapPresent e = true) :
    overlay (s :: snaps) v = some (mem v) := by
  obtain ⟨pre, post, heq⟩ := append_of_mem he
  have hs := heq ▸ hw.sorted
  obtain ⟨hlo, hhi⟩ := id hv
  have hin : v - e.vaddr < (entryBytes mem e).length := by
    simp only [entryBytes, length_map, length_range, PagemapEntry.presentLen, hp, if_true,
      PagemapEntry.stop] at hhi ⊢
    omega
  rw [overlay, hpmes, heq, entryAt_split hs hv]
  simp only [hp, fileOffset_split hs hv hp, Option.map_some, hpages, imageOf]
  rw [bytes_eq hw, heq, flatMap_append, flatMap_cons, ← length_entryBytes mem pre,
    getElem?_append_right (Nat.le_add_right ..), Nat.add_sub_cancel_left,
    getElem?_append_left hin, getElem?_eq_getElem hin]
  simp [entryBytes, Nat.add_sub_cancel' hlo]

/-- Each page of an entry was added, as a hole if the entry is left to the parent. -/
theorem call_of_entry (he : e ∈ pmi) {i : ℕ} (hi : i < e.nrPages) :
    ∃ c ∈ calls, c.addr = e.vaddr + i * pageSize ∧ (callPage true c).2 = e.flags := by
  have hmem := mem_expandEntries.mpr ⟨e, he, i, hi, rfl⟩
  rw [hw.pages] at hmem
  obtain ⟨c, hc, heq⟩ := mem_map.mp hmem
  exact ⟨c, hc, Prod.mk.inj heq⟩

theorem call_of_covers (he : e ∈ pmi) (hv : e.Covers v) :
    ∃ c ∈ calls, v ∈ Set.Ico c.addr (c.addr + pageSize) ∧ (callPage true c).2 = e.flags := by
  obtain ⟨hlo, hhi⟩ := hv
  simp only [PagemapEntry.stop, pagemapLen, pageSize] at hhi
  obtain ⟨c, hc, haddr, hflags⟩ :=
    call_of_entry hw he (show (v - e.vaddr) / pageSize < e.nrPages by simp only [pageSize]; omega)
  refine ⟨c, hc, ?_, hflags⟩
  simp only [Set.mem_Ico, pageSize] at haddr ⊢
  omega

theorem exists_snapshot (hinc : Increasing calls) (hlen : calls.length < 2 ^ 31) :
    ∃ s : Snapshot, s.pmes = pmi ∧ s.pages = imageOf pi := by
  refine ⟨⟨pmi, imageOf pi, hw.sorted, fun e he => ?_, fun e he => ?_, fun e he => ?_, ?_⟩,
    rfl, rfl⟩
  · obtain ⟨c, -, -, hf⟩ := call_of_entry hw he (hw.nonempty e he)
    rw [PagemapEntry.Plain, (flags_of_call hf).1, (flags_of_call hf).2, Bool.not_not]
  · obtain ⟨c, hc, haddr, -⟩ := call_of_entry hw he (hw.nonempty e he)
    rw [Nat.zero_mul, Nat.add_zero] at haddr
    exact haddr ▸ hinc.aligned c hc
  · have hle := congrArg length hw.pages
    simp only [expandEntries, length_flatMap, length_map, length_range] at hle
    have := le_sum_of_mem (mem_map_of_mem (f := fun e => e.nrPages) he)
    omega
  · exact (congrArg length (bytes_eq hw)).trans (length_entryBytes mem pmi)

end Written

/-- The chain can be read and has the memory, for every address that its newest images cover. -/
structure Exact (snaps : List Snapshot) (mem : ℕ → UInt8) : Prop where
  covered : Covered snaps
  bytes : ∀ s, snaps.head? = some s → ∀ v ∈ coverage s.pmes, overlay snaps v = some (mem v)

theorem Exact.dump (h : Exact snaps mem) (r : Round snaps mem)
    (hw : WritesCalls r.task.mem 0 true r.calls s.pmes pi) (hpages : s.pages = imageOf pi) :
    Exact (s :: snaps) r.task.mem := by
  constructor
  · refine ⟨fun e he hpar v hv => ?_, h.covered⟩
    obtain ⟨c, hc, hin, hf⟩ := call_of_covers hw he hv
    have hhole : c.isPage = false := by simpa [hpar] using (flags_of_call hf).2
    exact (r.clean c hc hhole v hin).2
  rintro _ ⟨⟩ v ⟨e, he, hv⟩
  cases hp : pagemapPresent e with
  | true => exact stored_byte hw rfl hpages he hv hp
  | false =>
    -- left to the parent: the byte is that of the dump before, and has not changed since
    obtain ⟨c, hc, hin, hf⟩ := call_of_covers hw he hv
    obtain ⟨hsame, p, hhead, hcov⟩ := r.clean c hc ((flags_of_call hf).1 ▸ hp) v hin
    obtain ⟨pre, post, heq⟩ := append_of_mem he
    rw [overlay, heq, entryAt_split (heq ▸ hw.sorted) hv, hsame]
    simp only [hp]
    exact h.bytes p hhead v hcov

theorem Round.increasing (r : Round snaps mem) : Increasing r.calls :=
  r.calls_eq ▸ taskCalls_increasing ..

theorem Round.writes (r : Round snaps mem) :
    ∃ run, r.dump = .ok run ∧ WritesCalls r.task.mem 0 true r.calls run.xfer.pmi run.xfer.pi := by
  have hpages := taskCalls_count r.opts r.task r.parentMode (!snaps.isEmpty && !r.pidReuse)
  rw [r.calls_eq] at hpages
  have hback : HolesBacked snaps 0 r.calls := by
    intro c hc hhole p hp v hv
    obtain ⟨-, p', hp', hcov⟩ := r.clean c hc hhole v hv
    rw [Option.some.inj (hp.symm.trans hp')]
    exact hcov
  obtain ⟨run, hrun, hw, -⟩ := dumpPagesSeized_ok r.grants r.moves r.opts r.task r.parentMode
    r.pidReuse r.iovs r.count r.calls_eq ⟨r.increasing, ⟨lt_of_le_of_lt hpages r.count,
      r.dumpable.run⟩, r.dumpable.flags, hback⟩ r.dumpable.zero
  exact ⟨run, hrun, hw⟩

theorem Dumps.exact (h : Dumps snaps mem) : Exact snaps mem := by
  induction h with
  | none mem => exact ⟨trivial, by simp⟩
  | @next _ _ r run s _ hrun hpmes hpages ih =>
    obtain ⟨run', hrun', hw⟩ := r.writes
    cases hrun.symm.trans hrun'
    exact ih.dump r (hpmes ▸ hw) hpages

/-- Whatever a restore reads from the images is the memory, once its queued reads are done. -/
def Restores (snaps : List Snapshot) (mem : ℕ → UInt8) : Prop :=
  ∀ (kernel : ℕ → ℕ → ℕ) (autoDedup : Bool) (pre post : List ClientOp) (vaddr nr buf flags : ℕ)
    (io : Io), Progress kernel →
    Disciplined kernel autoDedup (pre ++ .read vaddr nr buf flags :: post) (openChain snaps, io) →
    ∃ st₀ st, runOps kernel autoDedup pre (openChain snaps, io) = .ok st₀ ∧
      runOps kernel autoDedup (pre ++ .read vaddr nr buf flags :: (post ++ [.sync]))
        (openChain snaps, io) = .ok st ∧
      ∀ i < nr * pageSize, ¬ ChainTargets st₀.1 (buf + i) →
        (∀ op ∈ post, ¬ op.Writes (buf + i)) → st.2.mem (buf + i) = mem (vaddr + i)

theorem Exact.restores {rest : List Snapshot} (h : Exact (s :: rest) mem) :
    Restores (s :: rest) mem := by
  intro kernel autoDedup pre post vaddr nr buf flags io hk hd
  rw [openChain_cons]
  obtain ⟨hdpre, hdrest⟩ := disciplined_append hd
  obtain ⟨pr₀, parents₀, io₀, hrun₀, hok₀, -⟩ :=
    runOps_ok hk h.covered pre _ _ _ (openChain_clientOk s rest) hdpre
  obtain ⟨hal, hdpost⟩ := hdrest _ hrun₀
  obtain ⟨pr₁, parents₁, io₁, hrun₁, hok₁, val, hdel, hval⟩ :=
    clientStep_ok hk autoDedup h.covered hok₀ (hal pr₀ rfl) io₀
  obtain ⟨pr₂, parents₂, io₂, hrun₂, hok₂, hkeep⟩ :=
    runOps_ok hk h.covered post _ _ _ hok₁ (hdpost _ hrun₁)
  obtain ⟨pr₃, parents₃, io₃, hrun₃, -, -, hmem⟩ := sync_step hk autoDedup hok₂ io₂
  refine ⟨_, (pr₃ :: parents₃, io₃), hrun₀, ?_, fun i hi hfree hlater => ?_⟩
  · rw [runOps_append hrun₀]
    simp only [runOps, hrun₁]
    rw [runOps_append hrun₂]
    simp only [runOps, hrun₃]
  have hover := hval i hi
  -- the overlay has only bytes of addresses that the top level covers
  have hcov : vaddr + i ∈ coverage s.pmes := by
    rw [overlay] at hover
    cases he : entryAt s.pmes (vaddr + i) with
    | none => simp [ClientOp.vaddr, he] at hover
    | some e => exact ⟨e, mem_of_find?_eq_some he, by simpa using find?_some he⟩
  rw [ClientOp.vaddr, h.bytes s rfl _ hcov] at hover
  rw [Option.some.inj hover, hmem]
  exact pendingMem_of_promised (hkeep _ _ hlater (hdel.inside i hi hfree))

/-- A dump over the images of any earlier dumps succeeds. Its images have every page that was
collected, also those that were left to the parent, and a restore from the chain reads the memory
at this dump. -/
theorem incremental_dump_restored {snaps : List Snapshot} {mem : ℕ → UInt8} (h : Dumps snaps mem)
    (r : Round snaps mem) :
    ∃ run s, r.dump = .ok run ∧ s.pmes = run.xfer.pmi ∧ s.pages = imageOf run.xfer.pi ∧
      (∀ c ∈ r.calls, ∀ v ∈ Set.Ico c.addr (c.addr + pageSize), v ∈ coverage s.pmes) ∧
      Restores (s :: snaps) r.task.mem := by
  obtain ⟨run, hrun, hw⟩ := r.writes
  obtain ⟨s, hpmes, hpages⟩ := exists_snapshot hw r.increasing r.small
  refine ⟨run, s, hrun, hpmes, hpages, fun c hc v hv => ?_,
    (h.next hrun hpmes hpages).exact.restores⟩
  have hmem : (c.addr, (callPage true c).2) ∈ expandEntries run.xfer.pmi := by
    rw [hw.pages]
    exact mem_map_of_mem hc
  obtain ⟨e, he, i, hi, heq⟩ := mem_expandEntries.mp hmem
  obtain ⟨haddr, -⟩ := Prod.mk.inj heq
  refine ⟨e, hpmes ▸ he, ?_⟩
  simp only [PagemapEntry.Covers, PagemapEntry.stop, pagemapLen, Set.mem_Ico, pageSize] at *
  omega

/-- Two pages are dumped, and the first of them again. -/
theorem two_dumps_restored : ∃ s₁ s₂, Restores [s₂, s₁] (fun _ => 7) ∧
    Set.Ico 0x1000 0x3000 ⊆ coverage s₂.pmes := by
  obtain ⟨run, s₁, hrun, hpmes, hpages, hfirst, -⟩ := incremental_dump_restored (.none fun _ => 0)
    ⟨growingPipes, fun _ _ n => n, trackOpts, oneAreaTask 0 1 2 0, none, false, fun _ => ⟨0, 0⟩,
      [.page 0x1000 ppbLazy, .page 0x2000 ppbLazy], by decide, by simp [Grants, growingPipes],
      fun _ _ _ h => h, rfl, by decide, by decide,
      ⟨by decide, by simp, fun a h => by simpa using h 0⟩, by simp [AddCall.isPage]⟩
  obtain ⟨-, s₂, -, -, -, hcov, hback⟩ :=
    incremental_dump_restored (.next (.none _) hrun hpmes hpages)
    ⟨growingPipes, fun _ _ n => n, trackOpts, oneAreaTask 0 1 2 2, none, false, fun _ => ⟨0, 0⟩,
      pageAndHole, show taskCalls trackOpts (oneAreaTask 0 1 2 2) none true = _ by decide,
      by simp [Grants, growingPipes], fun _ _ _ h => h, rfl, by decide, by decide,
      @dumpable_of_hole _ 0x2000 (by decide) (by decide), by
        simp only [pageAndHole, forall_mem_cons, AddCall.isPage]
        exact ⟨by simp, fun _ v hv => ⟨rfl, s₁, rfl,
          hfirst (.page 0x2000 ppbLazy) (by decide) v hv⟩, by simp⟩⟩
  refine ⟨s₁, s₂, hback, fun v hv => ?_⟩
  rcases Nat.lt_or_ge v 0x2000 with hlt | hge
  · exact hcov _ mem_cons_self v ⟨hv.1, hlt⟩
  · exact hcov _ (mem_cons_of_mem _ mem_cons_self) v ⟨hge, hv.2⟩

end Criu.IncrementalDump

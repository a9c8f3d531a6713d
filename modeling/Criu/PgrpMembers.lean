import Mathlib.Data.Finset.Card
import Criu.PstreeIds

/-!
The counters of the members of process groups (criu/pstree.c). For each task whose group is led by
another task, which is not a session leader, `prepare_pstree_leaders` adds one to the counter of
that leader, while some of the leaders are only placeholders yet and get their session later. In a
tree in which a group is in one session the counters come out as the numbers of the tasks that
will take one away again.
-/

namespace Criu.PgrpMembers

open Pstree Reparent PstreeIds List

variable {o : Opts} {t t' t₀ t₁ : Tree} {x : ℕ} {s : Option ℕ}

instance (t : Tree) (x : ℕ) : Decidable (x ∈ t.tasks) :=
  inferInstanceAs (Decidable (x < t.size ∧ (t.item x).state ≠ .undef))

/-- The task is in a group of the tree that is led by another task, and not by a session leader. -/
def Member (o : Opts) (t : Tree) (x leader : ℕ) : Prop :=
  x ∈ t.tasks ∧ externalGroup o t x = false ∧ t.itemByVirt (t.vpgid x) = some leader ∧
    x ≠ leader ∧ t.isSessionLeader leader = false

instance (o : Opts) (t : Tree) (x leader : ℕ) : Decidable (Member o t x leader) :=
  inferInstanceAs (Decidable (_ ∧ _))

def members (o : Opts) (t : Tree) (leader : ℕ) : Finset ℕ :=
  (Finset.range t.size).filter fun x => Member o t x leader

theorem mem_members {leader : ℕ} : x ∈ members o t leader ↔ Member o t x leader := by
  rw [members, Finset.mem_filter, Finset.mem_range]
  exact and_iff_right_of_imp fun h => h.1.1

/-- Groups are in one session: a session leader leads its group as well, and a task has the session
of the task that its group is named after. In a session from outside of the tree no task is in the
group of the session's leader, unless it is the group that the root is in. -/
structure Grouped (o : Opts) (t : Tree) : Prop where
  leads : ∀ x ∈ t.tasks, t.isSessionLeader x = true → t.isGroupLeader x = true
  together : ∀ x ∈ t.tasks, ∀ leader, externalGroup o t x = false →
    t.itemByVirt (t.vpgid x) = some leader → t.vsid leader = t.vsid x
  outside : ∀ x ∈ t.tasks, externalSession o t x = true → t.vpgid x = t.vsid x →
    externalGroup o t x = true

/-- A tree from an image with what the counters need: pids are not used twice, what stands for a
pid has no session yet, and nothing is counted. -/
structure GroupTree (t : Tree) : Prop where
  process : ProcessTree t
  unique : ∀ x < t.size, ∀ y < t.size, t.vpid x = t.vpid y → x = y
  placeholder : ∀ x < t.size, (t.item x).state = .undef → t.isSessionLeader x = false
  uncounted : ∀ x, t.pgrpMemberCnt x = 0

def Keeps (t t' : Tree) : Prop := ∀ y ∈ t.tasks, y ∈ t'.tasks ∧ t'.item y = t.item y

theorem Keeps.refl (t : Tree) : Keeps t t := fun _ hy => ⟨hy, rfl⟩

theorem Keeps.trans {t'' : Tree} (h : Keeps t t') (h' : Keeps t' t'') : Keeps t t'' := by
  intro y hy
  obtain ⟨hy', he⟩ := h y hy
  exact ⟨(h' y hy').1, (h' y hy').2.trans he⟩

theorem becomeHelper_keeps {p : ℕ} {pgid sid ns : List ℕ} (hx : x < t.size)
    (hu : (t.item x).state = .undef) : Keeps t (becomeHelper t x pgid sid ns p) := by
  intro y hy
  have hne : y ≠ x := fun he => hy.2 (he ▸ hu)
  exact ⟨(becomeHelper_tasks hx).mpr (.inr hy), becomeHelper_item hne⟩

variable {namespaces : List (List ℕ)} {items : List ℕ} {g fuel : ℕ}

section Counting

theorem prepareSessionLeader_keeps (h : prepareSessionLeader o t x = some (t', s)) :
    Keeps t t' ∧ t'.pgrpMemberCnt = t.pgrpMemberCnt := by
  rcases prepareSessionLeader_cases h with ⟨-, rfl⟩ | ⟨l, hl, -, ⟨-, rfl⟩ | ⟨hu, init, -, rfl⟩⟩
  · exact ⟨.refl _, rfl⟩
  · exact ⟨.refl _, rfl⟩
  · exact ⟨becomeHelper_keeps (Tree.itemByVirt_eq_some.mp hl).2.1 hu, rfl⟩

/-- What the part for the group leader does to the counters. -/
theorem prepareGroupLeader_counts (h : prepareGroupLeader o t x s = some t') (g : ℕ) :
    Keeps t t' ∧ t'.pgrpMemberCnt g = t.pgrpMemberCnt g +
      if t.isGroupLeader x = false ∧ externalGroup o t x = false ∧
        t.itemByVirt (t.vpgid x) = some g ∧ t.isSessionLeader g = false then 1 else 0 := by
  rcases prepareGroupLeader_cases h with ⟨hno, rfl⟩ | ⟨hgl, hext, l, cnt, hl, hcnt, hcase⟩
  · rcases hno with hno | hno <;> simp [hno, Keeps.refl]
  simp only [hgl, hext, hl, true_and, Option.some.injEq]
  rcases hcase with rfl | ⟨hu, p, ns, -, rfl⟩
  · exact ⟨.refl t, hcnt g⟩
  · exact ⟨becomeHelper_keeps (t := { t with pgrpMemberCnt := cnt })
      (Tree.itemByVirt_eq_some.mp hl).2.1 hu, hcnt g⟩

def Counted (o : Opts) (t₀ t₁ : Tree) (x g : ℕ) : Prop :=
  t₀.isSessionLeader x = false ∧ t₀.isGroupLeader x = false ∧ externalGroup o t₀ x = false ∧
    t₀.itemByVirt (t₀.vpgid x) = some g ∧ t₁.isSessionLeader g = false

instance (o : Opts) (t₀ t₁ : Tree) (x g : ℕ) : Decidable (Counted o t₀ t₁ x g) :=
  inferInstanceAs (Decidable (_ ∧ _))

/-- A leader that is not a task yet when a member is counted does not turn out to be the leader of
a session: the member would be in that session, and have seen to it that its leader is there. -/
theorem leader_stays {tm : Tree} (ht : GroupTree t₀) (hm : WithLeaders t₀ tm)
    (h₁ : WithLeaders t₀ t₁) (hk : Keeps tm t₁) (hg : Grouped o t₁) (hx : x ∈ t₀.tasks)
    (hsess : externalSession o t₀ x = false → ∃ l ∈ tm.tasks, t₀.itemByVirt (t₀.vsid x) = some l)
    (hext : externalGroup o t₀ x = false) (hlook : t₀.itemByVirt (t₀.vpgid x) = some g) :
    tm.isSessionLeader g = t₁.isSessionLeader g := by
  obtain ⟨hpid, hlt, -⟩ := Tree.itemByVirt_eq_some.mp hlook
  by_cases hgm : g ∈ tm.tasks
  · rw [Tree.isSessionLeader, Tree.isSessionLeader, (hk g hgm).2]
  have hitem := hm.placeholder g hgm
  have hu : (t₀.item g).state = .undef := by
    by_contra hne
    exact hgm (hm.mem ⟨hlt, hne⟩)
  have hno : tm.isSessionLeader g = false := by
    rw [Tree.isSessionLeader, hitem]
    exact ht.placeholder g hlt hu
  rw [hno]
  cases hsl : t₁.isSessionLeader g with
  | false => rfl
  | true =>
    exfalso
    have hx₁ := h₁.mem hx
    have hgroup : externalGroup o t₁ x = false := (h₁.externalGroup ht.process hx).trans hext
    have hlook₁ : t₁.itemByVirt (t₁.vpgid x) = some g := by
      rw [h₁.itemByVirt, h₁.vpgid hx]
      exact hlook
    have hsame : t₀.vsid x = t₀.vpgid x := by
      rw [← h₁.vsid hx, ← hg.together x hx₁ g hgroup hlook₁, isSessionLeader_iff.mp hsl,
        h₁.vpid, hpid]
    cases hout : externalSession o t₀ x with
    | true =>
      have hin := hg.outside x hx₁ ((h₁.externalSession ht.process hx).trans hout)
        (by rw [h₁.vpgid hx, h₁.vsid hx, hsame])
      rw [hgroup] at hin
      cases hin
    | false =>
      obtain ⟨l, hl, hlook'⟩ := hsess hout
      rw [hsame, hlook] at hlook'
      exact hgm (Option.some.inj hlook' ▸ hl)

theorem leadersStep_counts (ht : GroupTree t₀) (h : WithLeaders t₀ t) (hx : x ∈ t₀.tasks)
    (hs : leadersStep o t x = some t') (h₁ : WithLeaders t₀ t₁) (hk : Keeps t' t₁)
    (hg : Grouped o t₁) :
    Keeps t t' ∧ (∀ g, t'.pgrpMemberCnt g =
      t.pgrpMemberCnt g + if Counted o t₀ t₁ x g then 1 else 0) ∧
      (t₀.isSessionLeader x = false → t₀.isGroupLeader x = false →
        externalGroup o t₀ x = false → ∃ g, t₀.itemByVirt (t₀.vpgid x) = some g) := by
  rcases leadersStep_cases h hx hs with ⟨hsl, rfl⟩ | ⟨hsl, tm, s, hsess, hs⟩
  · refine ⟨.refl _, fun g => by simp [Counted, hsl], fun hno => ?_⟩
    rw [hsl] at hno
    cases hno
  obtain ⟨hm, hleader⟩ := prepareSessionLeader_spec h ht.process hx hsess
  obtain ⟨hkm, hcm⟩ := prepareSessionLeader_keeps hsess
  have hgl : tm.isGroupLeader x = t₀.isGroupLeader x :=
    congrArg Item.isGroupLeader (hm.kept x hx)
  have hext : externalGroup o tm x = externalGroup o t₀ x := hm.externalGroup ht.process hx
  have hgc := prepareGroupLeader_counts hs
  rw [hgl, hext, hm.itemByVirt, hm.vpgid hx, hcm] at hgc
  have hstays : ∀ g, externalGroup o t₀ x = false → t₀.itemByVirt (t₀.vpgid x) = some g →
      tm.isSessionLeader g = t₁.isSessionLeader g := by
    refine fun g => leader_stays ht hm h₁ ((hgc g).1.trans hk) hg hx fun hout => ?_
    obtain ⟨l, hl, -, hlook⟩ := hleader hout
    exact ⟨l, hl, hlook⟩
  refine ⟨hkm.trans (hgc 0).1, fun g => ?_, fun _ hgl₀ hext₀ => ?_⟩
  · rw [(hgc g).2]
    congr 1
    refine if_congr ?_ rfl rfl
    constructor
    · rintro ⟨hgl₀, hext₀, hlook, hslg⟩
      rw [hstays g hext₀ hlook] at hslg
      exact ⟨hsl, hgl₀, hext₀, hlook, hslg⟩
    · rintro ⟨-, hgl₀, hext₀, hlook, hslg⟩
      rw [← hstays g hext₀ hlook] at hslg
      exact ⟨hgl₀, hext₀, hlook, hslg⟩
  · rcases prepareGroupLeader_cases hs with ⟨hno, -⟩ | ⟨-, -, l, -, hlook, -⟩
    · simp [hgl, hext, hgl₀, hext₀] at hno
    · rw [hm.itemByVirt, hm.vpgid hx] at hlook
      exact ⟨l, hlook⟩

theorem leaders_count (ht : GroupTree t₀) (h : WithLeaders t₀ t)
    (hitems : ∀ x ∈ items, x ∈ t₀.tasks) (hs : items.foldlM (leadersStep o) t = some t₁)
    (hg : Grouped o t₁) :
    WithLeaders t₀ t₁ ∧ Keeps t t₁ ∧ (∀ g, t₁.pgrpMemberCnt g =
      t.pgrpMemberCnt g + items.countP fun x => Counted o t₀ t₁ x g) ∧
      ∀ x ∈ items, t₀.isSessionLeader x = false → t₀.isGroupLeader x = false →
        externalGroup o t₀ x = false → ∃ g, t₀.itemByVirt (t₀.vpgid x) = some g := by
  induction items generalizing t with
  | nil =>
    cases hs
    exact ⟨h, .refl _, fun g => by simp, nofun⟩
  | cons x items ih =>
    obtain ⟨t', hstep, hrest⟩ := Option.bind_eq_some_iff.mp hs
    have hx := hitems x mem_cons_self
    have h' := leadersStep_spec h ht.process hx hstep
    obtain ⟨h₁, hk, hcnt, hfound⟩ := ih h' (fun y hy => hitems y (mem_cons_of_mem _ hy)) hrest
    obtain ⟨hk', hcnt', hfound'⟩ := leadersStep_counts ht h hx hstep h₁ hk hg
    refine ⟨h₁, hk'.trans hk, fun g => ?_, forall_mem_cons.mpr ⟨hfound', hfound⟩⟩
    rw [hcnt g, hcnt' g, countP_cons]
    simp only [decide_eq_true_eq]
    omega

end Counting

theorem Grouped.of_follows (hl : Linked t₁ []) (hf : Follows t₁ t) (hg : Grouped o t) :
    Grouped o t₁ := by
  have hroot := hf.item _ hl.root_mem.1
  have hgroup : ∀ x < t₁.size, externalGroup o t x = externalGroup o t₁ x := fun x hx =>
    externalGroup_congr hf.root hroot (hf.item x hx)
  constructor
  · intro x hx
    have := hg.leads x (hf.mem hx)
    simpa only [Tree.isSessionLeader, Tree.isGroupLeader, hf.item x hx.1] using this
  · intro x hx g hext hlook
    have hlt := (Tree.itemByVirt_eq_some.mp hlook).2.1
    have := hg.together x (hf.mem hx) g ((hgroup x hx.1).trans hext)
    simp only [Tree.vpgid, Tree.vsid, hf.item x hx.1, hf.item g hlt] at this
    exact this (hf.itemByVirt hlook)
  · intro x hx hout hsame
    have := hg.outside x (hf.mem hx)
      ((externalSession_congr hf.root hroot (hf.item x hx.1)).trans hout)
    rw [hgroup x hx.1] at this
    simp only [Tree.vpgid, Tree.vsid, hf.item x hx.1] at this
    exact this hsame

theorem itemByVirt_self (ht : GroupTree t₀) (hwl : WithLeaders t₀ t₁) (hf : Follows t₁ t) {y : ℕ}
    (hy : y < t₀.size) : t.itemByVirt (t.vpid y) = some y := by
  refine hf.itemByVirt ?_
  rw [(hwl.extends hf).pid y hy, hwl.itemByVirt]
  refine Tree.itemByVirt_eq_some.mpr ⟨rfl, hy, fun z hz he => ?_⟩
  exact hz.ne (ht.unique z (hz.trans hy) y hy he)

/-- The members of a group, in a tree that has come out of the preparation, are the tasks that
were counted. -/
theorem member_iff_counted (ht : GroupTree t₀) (hwl : WithLeaders t₀ t₁) (hf : Follows t₁ t)
    (hg : Grouped o t) (hfound : ∀ x ∈ t₀.tasks, t₀.isSessionLeader x = false → t₀.isGroupLeader x =
    false → externalGroup o t₀ x = false → ∃ g, t₀.itemByVirt (t₀.vpgid x) = some g) :
    Member o t x g ↔ x ∈ t₀.tasks ∧ Counted o t₀ t₁ x g := by
  have hlook : ∀ v y, t₀.itemByVirt v = some y → t.itemByVirt v = some y := fun v y hy =>
    hf.itemByVirt ((hwl.itemByVirt v).trans hy)
  have he := hwl.extends hf
  have hitem := he.item
  have hext : ∀ y ∈ t₀.tasks, externalGroup o t y = externalGroup o t₀ y := fun y hy =>
    externalGroup_congr he.root (hitem _ ht.process.image.root_mem) (hitem y hy)
  constructor
  · rintro ⟨hx, hout, hl, hne, hsl⟩
    have hx₁ : x ∈ t₁.tasks := by
      rcases hf.added x hx with h | ⟨-, l, -, hl', hsl'⟩
      · exact h
      · rw [hl] at hl'
        rw [← Option.some.inj hl', hsl] at hsl'
        cases hsl'
    have hnot : ¬ t.vpid x = t.vpgid x := by
      intro hsame
      have := itemByVirt_self ht hwl hf (hx₁.1.trans_le hwl.size.le)
      rw [hsame, hl] at this
      exact hne (Option.some.inj this).symm
    have hx₀ : x ∈ t₀.tasks := by
      by_contra hn
      have := hwl.helper x hx₁ hn
      rw [isGroupLeader_iff] at this
      refine hnot ?_
      simpa only [Tree.vpid, Tree.vpgid, hf.item x hx₁.1] using this
    have hgl : t₀.isGroupLeader x = false := by
      rw [Bool.eq_false_iff]
      intro hgl
      refine hnot ?_
      rw [isGroupLeader_iff] at hgl
      simpa only [Tree.vpid, Tree.vpgid, hitem x hx₀] using hgl
    have hsl₀ : t₀.isSessionLeader x = false := by
      rw [Bool.eq_false_iff]
      intro hsx
      have hleads := hg.leads x hx
      simp only [Tree.isSessionLeader, Tree.isGroupLeader, hitem x hx₀] at hleads
      have := hleads hsx
      rw [Tree.isGroupLeader, this] at hgl
      cases hgl
    have hout₀ := (hext x hx₀).symm.trans hout
    obtain ⟨g', hg'⟩ := hfound x hx₀ hsl₀ hgl hout₀
    have hgg : g = g' := by
      have := hlook _ _ hg'
      rw [Tree.vpgid, ← hitem x hx₀] at this
      exact Option.some.inj (hl.symm.trans this)
    subst hgg
    refine ⟨hx₀, hsl₀, hgl, hout₀, hg', ?_⟩
    have hlt := (Tree.itemByVirt_eq_some.mp hg').2.1
    rw [Tree.isSessionLeader, ← hf.item g (hlt.trans_le hwl.size.ge)]
    exact hsl
  · rintro ⟨hx₀, -, hgl, hout, hl, hsl⟩
    obtain ⟨hpid, hlt, -⟩ := Tree.itemByVirt_eq_some.mp hl
    refine ⟨hf.mem (hwl.mem hx₀), (hext x hx₀).trans hout, ?_, ?_, ?_⟩
    · rw [Tree.vpgid, hitem x hx₀]
      exact hlook _ g hl
    · rintro rfl
      rw [← Bool.not_eq_true, isGroupLeader_iff] at hgl
      exact hgl hpid
    · rw [Tree.isSessionLeader, hf.item g (hlt.trans_le hwl.size.ge)]
      exact hsl

/-- The counters are as high as there are members. -/
theorem member_count (ht : GroupTree t₀)
    (h : preparePstreeIds o namespaces fuel t₀ = some t) (hg : Grouped o t) (g : ℕ) :
    t.pgrpMemberCnt g = (members o t g).card := by
  obtain ⟨t₁, t₃, items, hs⟩ := stages_of_ids ht.process h
  have hwl := preparePstreeLeaders_spec ht.process hs.leaders
  obtain ⟨born, rfl⟩ := hs.checking.1.exists_born
  have hg₃ : Grouped o t₃ := { hg with }
  have hg₁ := hg₃.of_follows hwl.linked hs.follows
  obtain ⟨items₀, hwalk, hfold⟩ := Option.bind_eq_some_iff.mp hs.leaders
  have hstart := WithLeaders.start ht.process
  have hmem := forEachItem_mem hstart.linked hwalk
  have hnodup := (Forest.Links.walk_root hstart.linked.hung hstart.linked.top hwalk).1
  have htasks : ∀ x, x ∈ items₀ ↔ x ∈ t₀.tasks := by
    intro x
    rw [hmem]
    constructor
    · rintro ⟨path, hpath⟩
      exact follow_mem_tasks hstart.linked hpath
    · intro hx
      exact (ht.process.image.isTree.once x hx).exists
  obtain ⟨-, -, hcnt, hfound⟩ := leaders_count ht hstart (fun x hx => (htasks x).mp hx) hfold hg₁
  have hcount : t₃.pgrpMemberCnt g = items₀.countP fun x => Counted o t₀ t₁ x g := by
    rw [← Nat.zero_add (countP _ _), ← ht.uncounted g, ← hcnt g]
    exact congrFun hs.follows.pgrpMemberCnt g
  have hset : members o t₃ g = (items₀.filter fun x => Counted o t₀ t₁ x g).toFinset := by
    ext x
    rw [mem_members, mem_toFinset, mem_filter, htasks, decide_eq_true_eq,
      ← member_iff_counted ht hwl hs.follows hg₃ fun x hx => hfound x ((htasks x).mpr hx)]
  change t₃.pgrpMemberCnt g = (members o t₃ g).card
  rw [hcount, hset, toFinset_card_of_nodup (hnodup.filter _), countP_eq_length_filter]

theorem canReceivePgid_spec (h : canReceivePgid o t x = some true)
    (hext : externalGroup o t x = false) :
    ∃ l ∈ t.tasks, t.itemByVirt (t.vpgid x) = some l ∧
      (t.isSessionLeader l = true ∨ getRelativePid (t.item x) (t.item l) ≠ 0) := by
  unfold canReceivePgid at h
  rw [hext] at h
  simp only [Bool.false_eq_true, if_false] at h
  split at h
  · cases h
  cases hl : t.itemByVirt (t.vpgid x) with
  | none => simp [hl] at h
  | some l =>
    simp only [hl] at h
    split at h
    · cases h
    rename_i hstate
    refine ⟨l, ⟨(Tree.itemByVirt_eq_some.mp hl).2.1, hstate⟩, rfl, ?_⟩
    split at h
    · exact .inl ‹_›
    · exact .inr (by simpa using h)

/-- Every task finds the leader of its group, and sees it if it has to join the group by
itself. -/
theorem leader_found (ht : GroupTree t₀) (h : preparePstreeIds o namespaces fuel t₀ = some t)
    {path : List ℕ} (hx : t.follow t.root path = some x) (hext : externalGroup o t x = false)
    (hroot : t.isGroupLeader t.root = true ∨ canReceivePgid o t t.root = some true) :
    ∃ l ∈ t.tasks, t.itemByVirt (t.vpgid x) = some l ∧
      (l = x ∨ t.isSessionLeader l = true ∨ getRelativePid (t.item x) (t.item l) ≠ 0) := by
  obtain ⟨t₁, t₃, items, hs⟩ := stages_of_ids ht.process h
  have hwl := preparePstreeLeaders_spec ht.process hs.leaders
  obtain ⟨hmark, hacc⟩ := hs.checking
  have hlinked : Linked t [] := (prepared_of_ids ht.process h).linked
  have hmem := follow_mem_tasks hlinked hx
  obtain ⟨born, rfl⟩ := hmark.exists_born
  have hwalk : x ∈ items := (forEachItem_mem hs.linked hs.walk x).mpr ⟨path, hx⟩
  rcases hs.follows.added x hmem with hx₁ | ⟨-, l, hl, hlook, hsl⟩
  · by_cases hgl : t₃.isGroupLeader x = true
    · refine ⟨x, hmem, ?_, .inl rfl⟩
      have hself := itemByVirt_self ht hwl hs.follows (hx₁.1.trans_le hwl.size.le)
      rwa [isGroupLeader_iff.mp hgl] at hself
    have hreceive : canReceivePgid o t₃ x = some true := by
      rcases eq_nil_or_concat path with rfl | ⟨path, i, rfl⟩
      · cases hx
        exact hroot.resolve_left hgl
      obtain ⟨z, -, hz⟩ := Forest.Links.follow_concat_eq (concat_eq_append ▸ hx)
      have hpar := ((hlinked.hung.mem_children z x).mp (mem_of_getElem? hz)).1
      refine (hacc x hwalk (hpar ▸ Option.some_ne_none z) ?_).resolve_left hgl
      -- helpers lead their groups, so this one is from the image
      have hitem := hs.follows.item x hx₁.1
      by_cases hx₀ : x ∈ t₀.tasks
      · rw [hitem, hwl.kept x hx₀]
        exact ht.process.noHelper x hx₀
      · have := hwl.helper x hx₁ hx₀
        rw [Tree.isGroupLeader, ← hitem] at this
        exact absurd this hgl
    obtain ⟨l, hl, hlook, hsee⟩ := canReceivePgid_spec hreceive hext
    exact ⟨l, hl, hlook, .inr hsee⟩
  · exact ⟨l, hl, hlook, .inr (.inl hsl)⟩

end Criu.PgrpMembers

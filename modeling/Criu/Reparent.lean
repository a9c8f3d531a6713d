import Criu.Lib.Run
import Criu.Pstree

/-!
Tasks that were reparented to the init of their pid namespace or to a subreaper, and that can get
their session only as descendants of its leader (criu/pstree.c). The branch such a task is in is
hung to a helper, and the helper to the leader of the session. All of `handle_reparenting`, for
one pid namespace after the other, is a run of single steps: one item that a walk looks at, or the
end of a walk, where its helpers are put into the lists of their parents.

The leader is looked up by its pid and can be anywhere, in the branch that is moved as well: a
task that was cloned with CLONE_PARENT by a session leader has the leader's parent as its own. Then
the branch ends up below itself and out of the tree.
-/

namespace Criu.Reparent

open Pstree List Function

variable {leader x top : ℕ} {helpers : List ℕ} {t : Tree} {skip : Bool} {P : Tree → Prop}
open Relation (ReflTransGen TransGen)
open Forest (Links)
open Forest.Links (following following_mem following_ne)

inductive Verdict where
  | next
  | skipDescendants
  | reparent
  deriving DecidableEq, Repr

/-- The leader of a session, which has to be there (`BUG_ON`). -/
def sessionLeader (t : Tree) (sid : ℕ) : Option ℕ :=
  match t.itemByVirt sid with
  | none => none
  | some leader =>
      if (t.item leader).state = .undef ∨ t.isSessionLeader leader = false then none
      else some leader

def getHelper (t : Tree) (sid : ℕ) (ns : List ℕ) (helpers : List ℕ) : Option ℕ :=
  helpers.find? fun h => t.vsid h == sid && (t.item h).pidNs == ns

def hasSubreaper (t : Tree) (x : ℕ) : Option ℕ := t.myChildSubreaper x

/-- What both loops do with an item of the walk below `top`, up to what is done with one that can
not inherit its session. There is no verdict if the code does not come to an end. -/
def verdictWith (t : Tree) (top x : ℕ) (orphan : Option Verdict) : Option Verdict :=
  if x = top then some .next
  else if t.isSessionLeader x then
    if (t.item x).lastLevelPid = initPid then some .skipDescendants else some .next
  else
    match canInheritSid t x with
    | none => none
    | some true => some .skipDescendants
    | some false => orphan

/-- `handle_init_reparent` on an item that can not inherit its session. -/
def initOrphan (t : Tree) (helpers ns : List ℕ) (init x : ℕ) : Option Verdict :=
  match getHelper t (t.vsid x) ns helpers with
  | some _ => some .reparent
  | none =>
      match sessionLeader t (t.vsid x) with
      | none => none
      | some leader =>
          if (hasSubreaper t leader).isSome || (t.item leader).childSubreaper then
            some .skipDescendants
          else if (t.item leader).level > (t.item init).level then some .skipDescendants
          else some .reparent

/-- `handle_subreaper_reparent` on such an item. -/
def subreaperOrphan (t : Tree) (subreaper x : ℕ) : Option Verdict :=
  match sessionLeader t (t.vsid x) with
  | none => none
  | some leader =>
      if hasSubreaper t leader ≠ some subreaper ∨ (t.item leader).childSubreaper = true then
        some .skipDescendants
      else some .reparent

def initVerdict (t : Tree) (helpers ns : List ℕ) (init x : ℕ) : Option Verdict :=
  verdictWith t init x (initOrphan t helpers ns init x)

def subreaperVerdict (t : Tree) (subreaper x : ℕ) : Option Verdict :=
  verdictWith t subreaper x (subreaperOrphan t subreaper x)

/-- The ancestor of an item that is a child of `top`. A walk below `top` meets no other items than
those that are below it by their parent links too, so the end of the links is not met. -/
def branchOf (t : Tree) (top : ℕ) : ℕ → ℕ → Option ℕ
  | 0, _ => none
  | n + 1, branch =>
      match t.parent branch with
      | none => none
      | some p => if p = top then some branch else branchOf t top n p

/-- The helper for the session of an item in a pid namespace, found or made. Its own namespace is
`ids`. -/
def findHelper (t : Tree) (helpers ns ids : List ℕ) (x : ℕ) : Option (Tree × List ℕ × ℕ) :=
  match getHelper t (t.vsid x) ns helpers with
  | some helper => some (t, helpers, helper)
  | none =>
      match sessionLeader t (t.vsid x), getFreePids t ns with
      | some leader, some pids => some (t.addHelper pids ids x leader, helpers ++ [t.size], t.size)
      | _, _ => none

/-- `branch->parent = helper; move_child_task(branch, helper)`. -/
def hang (t : Tree) (branch helper : ℕ) : Tree :=
  { t with parent := update t.parent branch (some helper) }.moveChildTask branch helper

def attachHelper (t : Tree) (helper : ℕ) : Tree :=
  match t.parent helper with
  | none => t
  | some p => t.moveChildTask helper p

def attachHelpers (t : Tree) (helpers : List ℕ) : Tree := helpers.foldl attachHelper t

/-- The walk of `handle_subreapers_reparent`; the last one found comes first. -/
def collectSubreapers (t : Tree) (init : ℕ) : ℕ → Option ℕ → List ℕ → Option (List ℕ)
  | 0, _, _ => none
  | _ + 1, none, found => some found
  | n + 1, some x, found =>
      if x = init then
        (t.pssubtreeItemNext x init false).bind fun y => collectSubreapers t init n y found
      else if (t.item x).lastLevelPid = initPid then
        (t.pssubtreeItemNext x init true).bind fun y => collectSubreapers t init n y found
      else
        (t.pssubtreeItemNext x init false).bind fun y =>
          collectSubreapers t init n y (if (t.item x).childSubreaper then x :: found else found)

/-- Where the run is: before the namespaces that are left, in the walk below the init of one or
before the subreapers that are left in it, or in the walk below a subreaper. -/
inductive Phase where
  | namespaces (todo : List (List ℕ))
  | inits (ns : List ℕ) (init : ℕ) (item : Option ℕ) (todo : List (List ℕ))
  | subreapers (left : List ℕ) (todo : List (List ℕ))
  | subreap (subreaper : ℕ) (item : Option ℕ) (left : List ℕ) (todo : List (List ℕ))

variable {phase : Option ℕ → Phase}

structure State where
  tree : Tree
  helpers : List ℕ
  phase : Phase

def start (t : Tree) (namespaces : List (List ℕ)) : State := ⟨t, [], .namespaces namespaces⟩

/-- One turn of the loop of `handle_init_reparent`. -/
def initStep (r : State) (ns : List ℕ) (init x : ℕ) (todo : List (List ℕ)) : Option State :=
  match initVerdict r.tree r.helpers ns init x with
  | none => none
  | some .next =>
      (r.tree.pssubtreeItemNext x init false).map fun y => { r with phase := .inits ns init y todo }
  | some .skipDescendants =>
      (r.tree.pssubtreeItemNext x init true).map fun y => { r with phase := .inits ns init y todo }
  | some .reparent =>
      match findHelper r.tree r.helpers ns (r.tree.item init).pidNs x,
        branchOf r.tree init (r.tree.size + 1) x with
      | some (t, helpers, helper), some branch =>
          some ⟨hang t branch helper, helpers,
            .inits ns init (following branch (t.children init)) todo⟩
      | _, _ => none

/-- One turn of the loop of `handle_subreaper_reparent`. -/
def subreaperStep (r : State) (subreaper x : ℕ) (left : List ℕ) (todo : List (List ℕ)) :
    Option State :=
  match subreaperVerdict r.tree subreaper x with
  | none => none
  | some .next =>
      (r.tree.pssubtreeItemNext x subreaper false).map fun y =>
        { r with phase := .subreap subreaper y left todo }
  | some .skipDescendants =>
      (r.tree.pssubtreeItemNext x subreaper true).map fun y =>
        { r with phase := .subreap subreaper y left todo }
  | some .reparent =>
      match sessionLeader r.tree (r.tree.vsid x), branchOf r.tree subreaper (r.tree.size + 1) x with
      | some leader, some branch =>
          let ns := (r.tree.item leader).pidNs
          match findHelper r.tree r.helpers ns ns x with
          | none => none
          | some (t, helpers, helper) =>
              (t.pssubtreeItemNext branch subreaper true).map fun y =>
                ⟨hang t branch helper, helpers, .subreap subreaper y left todo⟩
      | _, _ => none

def step (r : State) : Option State :=
  match r.phase with
  | .namespaces [] => none
  | .namespaces (ns :: todo) =>
      (r.tree.itemByVirtIn ns initPid).map fun init =>
        { r with phase := .inits ns init (some init) todo }
  | .inits ns init (some x) todo => initStep r ns init x todo
  | .inits ns _ none todo =>
      let t := attachHelpers r.tree r.helpers
      match t.itemByVirtIn ns initPid with
      | none => none
      | some init =>
          (collectSubreapers t init (t.size + 1) (some init) []).map fun found =>
            ⟨t, [], .subreapers found todo⟩
  | .subreapers [] todo => some { r with phase := .namespaces todo }
  | .subreapers (subreaper :: left) todo =>
      some { r with phase := .subreap subreaper (some subreaper) left todo }
  | .subreap subreaper (some x) left todo => subreaperStep r subreaper x left todo
  | .subreap _ none left todo =>
      some ⟨attachHelpers r.tree r.helpers, [], .subreapers left todo⟩

def State.looking (r : State) : Option (ℕ × ℕ) :=
  match r.phase with
  | .inits _ init (some x) _ => some (init, x)
  | .subreap subreaper (some x) _ _ => some (subreaper, x)
  | _ => none

def State.verdict (r : State) : Option Verdict :=
  match r.phase with
  | .inits ns init (some x) _ => initVerdict r.tree r.helpers ns init x
  | .subreap subreaper (some x) _ _ => subreaperVerdict r.tree subreaper x
  | _ => none

def State.Clear (r : State) : Prop :=
  r.verdict = some .reparent → ∀ top x branch leader, r.looking = some (top, x) →
    branchOf r.tree top (r.tree.size + 1) x = some branch →
    sessionLeader r.tree (r.tree.vsid x) = some leader → ¬ r.tree.Within leader branch

variable {namespaces : List (List ℕ)} {helpers' ns : List ℕ} {r r' : State} {t' : Tree}
  {branch helper n p sid y : ℕ}

theorem sessionLeader_eq_some : sessionLeader t sid = some leader ↔
      t.itemByVirt sid = some leader ∧ (t.item leader).state ≠ .undef ∧
        t.isSessionLeader leader = true := by
  unfold sessionLeader
  cases hv : t.itemByVirt sid with
  | none => simp
  | some l =>
    by_cases hok : (t.item l).state = .undef ∨ t.isSessionLeader l = false
    · simp only [hok, if_true, reduceCtorEq, Option.some.injEq, false_iff]
      rintro ⟨rfl, hstate, hlead⟩
      rcases hok with h | h
      · exact hstate h
      · rw [h] at hlead
        cases hlead
    simp only [hok, if_false, Option.some.injEq]
    push Not at hok
    constructor
    · rintro rfl
      exact ⟨rfl, hok.1, by simpa using hok.2⟩
    · exact fun h => h.1

theorem sessionLeader_mem (h : sessionLeader t sid = some leader) : leader ∈ t.tasks := by
  obtain ⟨hv, hstate, -⟩ := sessionLeader_eq_some.mp h
  exact ⟨(Tree.itemByVirt_eq_some.mp hv).2.1, hstate⟩

/-- The lists of children agree with the parent links, but for the helpers of the walk that is
going on; each of those is meant for the leader of its session. -/
structure Linked (t : Tree) (helpers : List ℕ) : Prop where
  hung : t.Hung helpers
  top : t.parent t.root = none
  root_mem : t.root ∈ t.tasks
  member : ∀ x p, t.parent x = some p → x ∈ t.tasks ∧ p ∈ t.tasks
  nodup : helpers.Nodup
  leader : ∀ h ∈ helpers, ∃ l, t.parent h = some l ∧ sessionLeader t (t.vsid h) = some l

theorem Linked.helper_mem (h : Linked t helpers) (hx : x ∈ helpers) : x ∈ t.tasks := by
  obtain ⟨l, hl, -⟩ := h.leader x hx
  exact (h.member x l hl).1

theorem Linked.child_mem (h : Linked t helpers) (hx : x ∈ t.children p) :
    x ∈ t.tasks ∧ p ∈ t.tasks :=
  h.member x p ((h.hung.mem_children p x).mp hx).1

section AddHelper

variable {pids ids : List ℕ}

theorem addHelper_item (hy : y < t.size) : (t.addHelper pids ids x leader).item y = t.item y :=
  update_of_ne hy.ne _ _

theorem addHelper_parent (hy : y < t.size) :
    (t.addHelper pids ids x leader).parent y = t.parent y :=
  update_of_ne hy.ne _ _

theorem addHelper_tasks (hy : y ∈ t.tasks) : y ∈ (t.addHelper pids ids x leader).tasks := by
  refine ⟨Nat.lt_succ_of_lt hy.1, ?_⟩
  rw [addHelper_item hy.1]
  exact hy.2

theorem addHelper_vsid_new (hp : pids ≠ []) :
    (t.addHelper pids ids x leader).vsid t.size = t.vsid x := by
  cases pids with
  | nil => exact absurd rfl hp
  | cons pid rest => cases hs : (t.item x).sid <;> simp [Tree.addHelper, Tree.vsid, Item.vsid, hs]

theorem addHelper_sessionLeader (h : sessionLeader t sid = some y) :
    sessionLeader (t.addHelper pids ids x leader) sid = some y := by
  obtain ⟨hv, hstate, hlead⟩ := sessionLeader_eq_some.mp h
  have hlt := (sessionLeader_mem h).1
  refine sessionLeader_eq_some.mpr ⟨Tree.itemByVirt_mono (Nat.le_succ _) ?_ hv, ?_, ?_⟩
  · exact fun z hz => addHelper_item hz
  · rw [addHelper_item hlt]
    exact hstate
  · rw [Tree.isSessionLeader, addHelper_item hlt]
    exact hlead

theorem Linked.addHelper (h : Linked t helpers) (hl : sessionLeader t (t.vsid x) = some leader)
    (hp : pids ≠ []) : Linked (t.addHelper pids ids x leader) (helpers ++ [t.size]) := by
  have hnew : ∀ p, t.size ∉ t.children p := fun p hc => lt_irrefl _ (h.child_mem hc).1.1
  constructor
  · constructor
    · intro p c
      rw [mem_append, mem_singleton, not_or]
      by_cases hc : c = t.size
      · subst hc
        exact iff_of_false (hnew p) fun hn => hn.2.2 rfl
      have hpar : (t.addHelper pids ids x leader).parent c = t.parent c :=
        update_of_ne hc _ _
      rw [hpar]
      constructor
      · intro hin
        obtain ⟨hup, hloose⟩ := (h.hung.mem_children p c).mp hin
        exact ⟨hup, hloose, hc⟩
      · exact fun hin => (h.hung.mem_children p c).mpr ⟨hin.1, hin.2.1⟩
    · exact h.hung.nodup
  · rw [show (t.addHelper pids ids x leader).root = t.root from rfl, addHelper_parent h.root_mem.1]
    exact h.top
  · exact addHelper_tasks h.root_mem
  · intro y p hy
    by_cases hn : y = t.size
    · subst hn
      have hlp : leader = p := by simpa [Tree.addHelper] using hy
      exact ⟨⟨Nat.lt_succ_self _, by simp [Tree.addHelper]⟩,
        addHelper_tasks (hlp ▸ sessionLeader_mem hl)⟩
    · have hpar : t.parent y = some p := (update_of_ne hn _ _).symm.trans hy
      exact (h.member y p hpar).imp addHelper_tasks addHelper_tasks
  · refine nodup_append.mpr ⟨h.nodup, nodup_singleton _, fun y hy z hz => ?_⟩
    rw [mem_singleton] at hz
    exact hz ▸ (h.helper_mem hy).1.ne
  · intro y hy
    rcases mem_append.mp hy with hy | hy
    · obtain ⟨l, hpar, hlead⟩ := h.leader y hy
      have hlt := (h.helper_mem hy).1
      refine ⟨l, (addHelper_parent hlt).trans hpar, ?_⟩
      rw [Tree.vsid, addHelper_item hlt]
      exact addHelper_sessionLeader hlead
    · cases mem_singleton.mp hy
      refine ⟨leader, by simp [Tree.addHelper], ?_⟩
      rw [addHelper_vsid_new hp]
      exact addHelper_sessionLeader hl

end AddHelper

section Hang

theorem moveChildTask_mem {child parent c : ℕ} (hn : ∀ p, (t.children p).Nodup) :
    c ∈ (t.moveChildTask child parent).children p ↔
      c = child ∧ p = parent ∨ c ≠ child ∧ c ∈ t.children p := by
  by_cases hp : p = parent
  · subst hp
    simp only [Tree.moveChildTask, Tree.addChildTask, Tree.delChild, update_self,
      Tree.mem_insertChild, (hn p).mem_erase_iff, and_true]
  · simp only [Tree.moveChildTask, Tree.addChildTask, Tree.delChild, update_of_ne hp,
      (hn p).mem_erase_iff, hp, and_false, false_or]

theorem moveChildTask_nodup (child parent : ℕ) (hn : ∀ p, (t.children p).Nodup) (p : ℕ) :
    ((t.moveChildTask child parent).children p).Nodup := by
  by_cases hp : p = parent
  · subst hp
    simp only [Tree.moveChildTask, Tree.addChildTask, update_self]
    refine (Tree.insertChild_perm _ _).nodup_iff.mpr (nodup_cons.mpr ⟨?_, (hn p).erase _⟩)
    exact (hn p).not_mem_erase
  · simp only [Tree.moveChildTask, Tree.addChildTask, update_of_ne hp]
    exact (hn p).erase _

/-- A task whose link leads to the list it is put into is not loose any more. -/
theorem hung_hang (h : t.Hung helpers) (hb : branch ∉ helpers')
    (hother : ∀ c ≠ branch, c ∈ helpers' ↔ c ∈ helpers) :
    (hang t branch helper).Hung helpers' := by
  refine ⟨fun p c => ?_, moveChildTask_nodup branch helper h.nodup⟩
  have hmem : c ∈ (hang t branch helper).children p ↔
      c = branch ∧ p = helper ∨ c ≠ branch ∧ c ∈ t.children p := moveChildTask_mem h.nodup
  rw [hmem]
  by_cases hc : c = branch
  · subst hc
    rw [show (hang t c helper).parent c = some helper from update_self _ _ _]
    simp [hb, eq_comm]
  · rw [show (hang t branch helper).parent c = t.parent c from update_of_ne hc _ _]
    simp [hc, h.mem_children, hother]

theorem Linked.hang (h : Linked t helpers) (hb : branch ∈ t.children top)
    (hh : helper ∈ helpers) : Linked (hang t branch helper) helpers := by
  have hloose := ((h.hung.mem_children top branch).mp hb).2
  have hpar : ∀ y, y ≠ branch → (Reparent.hang t branch helper).parent y = t.parent y :=
    fun y hy => update_of_ne hy _ _
  have hself : (Reparent.hang t branch helper).parent branch = some helper :=
    update_self _ _ _
  constructor
  · exact hung_hang h.hung hloose fun _ _ => .rfl
  · refine (hpar _ fun he => ?_).trans h.top
    have := ((h.hung.mem_children top branch).mp hb).1
    rw [← he, show (Reparent.hang t branch helper).root = t.root from rfl, h.top] at this
    cases this
  · exact h.root_mem
  · intro y p hy
    by_cases hb' : y = branch
    · subst hb'
      rw [hself] at hy
      cases hy
      exact ⟨(h.child_mem hb).1, h.helper_mem hh⟩
    · rw [hpar y hb'] at hy
      exact h.member y p hy
  · exact h.nodup
  · intro y hy
    obtain ⟨l, hl, hlead⟩ := h.leader y hy
    exact ⟨l, (hpar y fun he => hloose (he ▸ hy)).trans hl, hlead⟩

theorem Linked.attachHelper (h : Linked t (helper :: helpers)) :
    Linked (attachHelper t helper) helpers := by
  obtain ⟨l, hl, -⟩ := h.leader helper mem_cons_self
  obtain ⟨hnot, hnodup⟩ := nodup_cons.mp h.nodup
  have heq : Reparent.attachHelper t helper = t.moveChildTask helper l := by
    simp [Reparent.attachHelper, hl]
  have hhang : Reparent.hang t helper l = t.moveChildTask helper l := by
    rw [Reparent.hang, update_eq_self_iff.mpr hl.symm]
  rw [heq]
  constructor
  · rw [← hhang]
    exact hung_hang h.hung hnot fun c hc => by simp [hc]
  · exact h.top
  · exact h.root_mem
  · exact h.member
  · exact hnodup
  · exact fun y hy => h.leader y (mem_cons_of_mem _ hy)

theorem Linked.attachHelpers (h : Linked t helpers) : Linked (attachHelpers t helpers) [] := by
  induction helpers generalizing t with
  | nil => exact h
  | cons helper helpers ih => exact ih h.attachHelper

end Hang

section Walk

/-- The tasks that a walk below `top` goes down through; all of them are session leaders. -/
inductive LeaderPath (t : Tree) (top : ℕ) : ℕ → Prop
  | top : LeaderPath t top top
  | step {y p : ℕ} : y ∈ t.children p → t.isSessionLeader y = true → LeaderPath t top p →
      LeaderPath t top y

/-- Where a walk below `top` can be. -/
def OnWalk (t : Tree) (top x : ℕ) : Prop :=
  x = top ∨ ∃ p, x ∈ t.children p ∧ LeaderPath t top p

theorem OnWalk.leaderPath (h : OnWalk t top x) (hx : x = top ∨ t.isSessionLeader x = true) :
    LeaderPath t top x := by
  rcases h with rfl | ⟨p, hp, hpath⟩
  · exact .top
  · rcases hx with rfl | hx
    · exact .top
    · exact .step hp hx hpath

theorem climb_top {res : Option ℕ} (h : t.climb (some top) n top = some res) : res = none := by
  cases n with
  | zero => cases h
  | succ n =>
    cases hp : t.parent top <;> simpa [Links.climb, hp] using h.symm

theorem climb_onWalk (h : t.Hung helpers) (hx : x ∈ t.children p) (hp : LeaderPath t top p)
    (hc : t.climb (some top) n x = some (some y)) : OnWalk t top y := by
  induction n generalizing x p with
  | zero => cases hc
  | succ n ih =>
    have hup := ((h.mem_children p x).mp hx).1
    simp only [Links.climb, hup] at hc
    split at hc
    · cases hc
    cases hf : following x (t.children p) with
    | some z =>
      simp only [hf, Option.some.injEq] at hc
      subst hc
      exact .inr ⟨p, following_mem hf, hp⟩
    | none =>
      simp only [hf] at hc
      cases hp with
      | top => cases climb_top hc
      | step hin _ hq => exact ih hin hq hc

/-- A walk stays on its way: it goes down only from `top` and from session leaders. -/
theorem pssubtreeItemNext_onWalk (h : t.Hung helpers) (hx : OnWalk t top x)
    (hlead : skip = false → x = top ∨ t.isSessionLeader x = true)
    (hn : t.pssubtreeItemNext x top skip = some (some y)) : OnWalk t top y := by
  have hclimb : t.climb (some top) (t.size + 1) x = some (some y) → OnWalk t top y := by
    intro hc
    rcases hx with rfl | ⟨p, hp, hpath⟩
    · cases climb_top hc
    · exact climb_onWalk h hp hpath hc
  cases skip with
  | true => exact hclimb (by simpa [Tree.pssubtreeItemNext] using hn)
  | false =>
    simp only [Tree.pssubtreeItemNext, Bool.false_eq_true, if_false, Links.next] at hn
    cases hch : t.children x with
    | nil => exact hclimb (by simpa [hch] using hn)
    | cons c cs =>
      simp only [hch, Option.some.injEq] at hn
      subst hn
      exact .inr ⟨x, by simp [hch], hx.leaderPath (hlead rfl)⟩

theorem branchOf_spec (h : t.Hung helpers) (hx : OnWalk t top x) (hne : x ≠ top)
    (hb : branchOf t top n x = some branch) :
    branch ∈ t.children top ∧ (branch = x ∨ t.isSessionLeader branch = true) := by
  induction n generalizing x with
  | zero => cases hb
  | succ n ih =>
    rcases hx with rfl | ⟨p, hp, hpath⟩
    · exact absurd rfl hne
    have hup := ((h.mem_children p x).mp hp).1
    simp only [branchOf, hup] at hb
    split at hb
    · rename_i hpt
      cases hb
      exact ⟨hpt ▸ hp, .inl rfl⟩
    rename_i hpt
    cases hpath with
    | top => exact absurd rfl hpt
    | step hin hlead hq =>
      obtain ⟨hmem, rfl | hl⟩ := ih (.inr ⟨_, hin, hq⟩) hpt hb
      · exact ⟨hmem, .inr hlead⟩
      · exact ⟨hmem, .inr hl⟩

/-- What a walk goes on with after the branch of a child of `top` is another child of it. -/
theorem climb_child (h : t.Hung helpers) (hx : x ∈ t.children top)
    (hc : t.climb (some top) n x = some (some y)) : y ∈ t.children top ∧ y ≠ x := by
  cases n with
  | zero => cases hc
  | succ n =>
    have hup := ((h.mem_children top x).mp hx).1
    simp only [Links.climb, hup] at hc
    split at hc
    · cases hc
    cases hf : following x (t.children top) with
    | some z =>
      simp only [hf, Option.some.injEq] at hc
      subst hc
      exact ⟨following_mem hf, following_ne (h.nodup top) hf⟩
    | none =>
      simp only [hf] at hc
      cases climb_top hc

theorem hang_onWalk (h : t.Hung helpers) (hy : y ∈ t.children top) (hne : y ≠ branch) :
    OnWalk (hang t branch helper) top y := by
  have hmem : y ∈ (hang t branch helper).children top ↔
      y = branch ∧ top = helper ∨ y ≠ branch ∧ y ∈ t.children top := moveChildTask_mem h.nodup
  exact .inr ⟨top, hmem.mpr (.inr ⟨hne, hy⟩), .top⟩

end Walk

section Step

variable {orphan : Option Verdict}

theorem verdictWith_next (h : verdictWith t top x orphan = some .next) (ho : orphan ≠ some .next) :
    x = top ∨ t.isSessionLeader x = true := by
  unfold verdictWith at h
  split at h
  · exact .inl ‹_›
  split at h
  · exact .inr ‹_›
  · split at h
    · cases h
    · cases h
    · exact absurd h ho

theorem verdictWith_reparent (h : verdictWith t top x orphan = some .reparent) :
    x ≠ top ∧ t.isSessionLeader x = false ∧ canInheritSid t x = some false := by
  unfold verdictWith at h
  split at h
  · cases h
  rename_i hne
  split at h
  · split at h <;> cases h
  · rename_i hlead
    split at h
    · cases h
    · cases h
    · exact ⟨hne, by simpa using hlead, ‹_›⟩

variable {todo : List (List ℕ)} {init subreaper : ℕ}

theorem initOrphan_ne_next : initOrphan t helpers ns init x ≠ some .next := by
  unfold initOrphan
  repeat' split
  all_goals exact fun h => by cases h

theorem subreaperOrphan_ne_next : subreaperOrphan t subreaper x ≠ some .next := by
  unfold subreaperOrphan
  repeat' split
  all_goals exact fun h => by cases h

structure HelperFor (t : Tree) (x : ℕ) (t' : Tree) (helpers' : List ℕ) (helper : ℕ) : Prop where
  linked : Linked t' helpers'
  mem : helper ∈ helpers'
  children : t'.children = t.children
  root : t'.root = t.root
  tasks : ∀ y ∈ t.tasks, y ∈ t'.tasks
  size : t.size ≤ t'.size
  item : ∀ y < t.size, t'.item y = t.item y
  bornSid : t'.bornSid = t.bornSid
  pgrpMemberCnt : t'.pgrpMemberCnt = t.pgrpMemberCnt
  parent : ∀ y ∈ t.tasks, t'.parent y = t.parent y
  added : ∀ y ∈ t'.tasks, y ∈ t.tasks ∨
    y = helper ∧ (t'.item y).state = .helper ∧ t'.vpgid y = t'.vsid y
  sid : t'.vsid helper = t.vsid x
  leader : ∃ l, sessionLeader t (t.vsid x) = some l ∧ t'.parent helper = some l

theorem findHelper_spec (h : Linked t helpers) {ids : List ℕ}
    (hf : findHelper t helpers ns ids x = some (t', helpers', helper)) :
    HelperFor t x t' helpers' helper := by
  unfold findHelper at hf
  cases hg : getHelper t (t.vsid x) ns helpers with
  | some found =>
    simp only [hg, Option.some.injEq, Prod.mk.injEq] at hf
    obtain ⟨rfl, rfl, rfl⟩ := hf
    have hmem := mem_of_find?_eq_some hg
    have hsid : t.vsid found = t.vsid x := by
      have := find?_some hg
      simp only [Bool.and_eq_true, beq_iff_eq] at this
      exact this.1
    obtain ⟨l, hpar, hlead⟩ := h.leader found hmem
    exact ⟨h, hmem, rfl, rfl, fun _ hy => hy, le_refl _, fun _ _ => rfl, rfl, rfl,
      fun _ _ => rfl, fun _ hy => .inl hy, hsid, l, hsid ▸ hlead, hpar⟩
  | none =>
    cases hl : sessionLeader t (t.vsid x) with
    | none => simp [hg, hl] at hf
    | some leader =>
      cases hp : getFreePids t ns with
      | none => simp [hg, hp] at hf
      | some pids =>
        simp only [hg, hl, hp] at hf
        obtain ⟨rfl, rfl, rfl⟩ := hf
        obtain ⟨pid, rest, rfl⟩ := getFreePids_head hp
        refine ⟨h.addHelper hl (cons_ne_nil _ _), by simp, rfl, rfl,
          fun _ => addHelper_tasks, Nat.le_succ _, fun _ => addHelper_item, rfl, rfl,
          fun _ hy => addHelper_parent hy.1, fun y hy => ?_,
          addHelper_vsid_new (cons_ne_nil _ _), leader, hl, ?_⟩
        · rcases Nat.lt_or_eq_of_le (Nat.le_of_lt_succ hy.1) with hlt | rfl
          · exact .inl ⟨hlt, by simpa [addHelper_item hlt] using hy.2⟩
          · exact .inr ⟨rfl, by simp [Tree.addHelper],
              by simp [Tree.addHelper, Tree.vpgid, Tree.vsid, Item.vpgid, Item.vsid]⟩
        · simp [Tree.addHelper]

inductive Effect (r r' : State) : Prop
  | walk : r.verdict ≠ some .reparent → r'.tree = r.tree → r'.helpers = r.helpers → Effect r r'
  | attach : r.verdict ≠ some .reparent → r'.tree = attachHelpers r.tree r.helpers →
      r'.helpers = [] → Effect r r'
  | move {top x branch helper : ℕ} {ns ids : List ℕ} {t : Tree} :
      r.looking = some (top, x) → r.verdict = some .reparent →
      findHelper r.tree r.helpers ns ids x = some (t, r'.helpers, helper) →
      branchOf r.tree top (r.tree.size + 1) x = some branch →
      r'.tree = hang t branch helper → Effect r r'

structure Inv (r : State) : Prop where
  linked : Linked r.tree r.helpers
  onWalk : ∀ top x, r.looking = some (top, x) → OnWalk r.tree top x
  idle : (∃ todo, r.phase = .namespaces todo) ∨ (∃ left todo, r.phase = .subreapers left todo) →
    r.helpers = []

/-- A turn of the walk below `top`; `phase` is where the run is at each item of it. -/
def Turned (r r' : State) (top : ℕ) (phase : Option ℕ → Phase) : Prop :=
  Effect r r' ∧ ∃ item, r'.phase = phase item ∧ ∀ y, item = some y → OnWalk r'.tree top y

theorem State.verdict_eq (hl : r.looking = some (top, x)) :
    ∃ orphan, orphan ≠ some .next ∧ r.verdict = verdictWith r.tree top x orphan := by
  unfold State.looking at hl
  split at hl
  · cases hl
    exact ⟨_, initOrphan_ne_next, by simp only [State.verdict, ‹r.phase = _›]; rfl⟩
  · cases hl
    exact ⟨_, subreaperOrphan_ne_next, by simp only [State.verdict, ‹r.phase = _›]; rfl⟩
  · cases hl

theorem State.verdict_reparent (hl : r.looking = some (top, x)) (hv : r.verdict = some .reparent) :
    x ≠ top ∧ r.tree.isSessionLeader x = false ∧ canInheritSid r.tree x = some false := by
  obtain ⟨orphan, -, heq⟩ := State.verdict_eq hl
  exact verdictWith_reparent (heq.symm.trans hv)

/-- A branch that is moved is that of a child of `top`. -/
theorem Inv.moved (hi : Inv r) (hl : r.looking = some (top, x)) (hv : r.verdict = some .reparent)
    (hfor : HelperFor r.tree x t' helpers' helper)
    (hb : branchOf r.tree top (r.tree.size + 1) x = some branch) : branch ∈ t'.children top := by
  have hne := (State.verdict_reparent hl hv).1
  rw [hfor.children]
  exact (branchOf_spec hi.linked.hung (hi.onWalk _ _ hl) hne hb).1

/-- A turn that only goes on, past the descendants of the item or into them. -/
theorem Inv.walked (hi : Inv r) (hl : r.looking = some (top, x))
    (h : (r.tree.pssubtreeItemNext x top skip).map (fun y => { r with phase := phase y }) = some r')
    (hv : r.verdict = some (if skip then .skipDescendants else .next)) :
    Turned r r' top phase := by
  obtain ⟨orphan, ho, heq⟩ := State.verdict_eq hl
  obtain ⟨item, hitem, rfl⟩ := Option.map_eq_some_iff.mp h
  refine ⟨.walk ?_ rfl rfl, item, rfl, ?_⟩
  · rw [hv]
    cases skip <;> exact fun h => by cases h
  · rintro y rfl
    refine pssubtreeItemNext_onWalk hi.linked.hung (hi.onWalk top x hl) (fun hs => ?_) hitem
    subst hs
    exact verdictWith_next (heq.symm.trans hv) ho

theorem initStep_spec (hi : Inv r) (hph : r.phase = .inits ns init (some x) todo)
    (h : initStep r ns init x todo = some r') :
    Turned r r' init fun item => .inits ns init item todo := by
  have hlook : r.looking = some (init, x) := by simp [State.looking, hph]
  have hv : r.verdict = initVerdict r.tree r.helpers ns init x := by simp [State.verdict, hph]
  unfold initStep at h
  split at h
  · cases h
  · next hverd => exact hi.walked hlook h (hv.trans hverd)
  · next hverd => exact hi.walked hlook h (hv.trans hverd)
  · next hverd =>
    split at h
    · next t helpers helper branch hf hb =>
      cases h
      refine ⟨.move hlook (hv.trans hverd) hf hb rfl, _, rfl, fun y hnext => ?_⟩
      have hung := (findHelper_spec hi.linked hf).linked.hung
      exact hang_onWalk hung (following_mem hnext) (following_ne (hung.nodup init) hnext)
    · cases h

theorem subreaperStep_spec {left : List ℕ} (hi : Inv r)
    (hph : r.phase = .subreap subreaper (some x) left todo)
    (h : subreaperStep r subreaper x left todo = some r') :
    Turned r r' subreaper fun item => .subreap subreaper item left todo := by
  have hlook : r.looking = some (subreaper, x) := by simp [State.looking, hph]
  have hv : r.verdict = subreaperVerdict r.tree subreaper x := by simp [State.verdict, hph]
  unfold subreaperStep at h
  split at h
  · cases h
  · next hverd => exact hi.walked hlook h (hv.trans hverd)
  · next hverd => exact hi.walked hlook h (hv.trans hverd)
  · next hverd =>
    split at h
    · next leader branch hl hb =>
      simp only at h
      split at h
      · cases h
      next t helpers helper hf =>
      obtain ⟨item, hitem, rfl⟩ := Option.map_eq_some_iff.mp h
      refine ⟨.move hlook (hv.trans hverd) hf hb rfl, item, rfl, ?_⟩
      rintro y rfl
      have hfor := findHelper_spec hi.linked hf
      obtain ⟨hy, hne⟩ := climb_child hfor.linked.hung (hi.moved hlook (hv.trans hverd) hfor hb)
        (by simpa [Tree.pssubtreeItemNext] using hitem)
      exact hang_onWalk hfor.linked.hung hy hne
    · cases h

theorem Effect.linked (hi : Inv r) (he : Effect r r') : Linked r'.tree r'.helpers := by
  cases he with
  | walk _ ht hh =>
    rw [ht, hh]
    exact hi.linked
  | attach _ ht hh =>
    rw [ht, hh]
    exact hi.linked.attachHelpers
  | move hl hv hf hb ht =>
    have hfor := findHelper_spec hi.linked hf
    rw [ht]
    exact hfor.linked.hang (hi.moved hl hv hfor hb) hfor.mem

/-- After a turn the walk is where it can be. -/
theorem Turned.inv (h : Turned r r' top phase) (hi : Inv r)
    (hlook : ∀ item, State.looking ⟨r'.tree, r'.helpers, phase item⟩ = item.map fun y => (top, y))
    (hin : ∀ item, (∀ todo, phase item ≠ .namespaces todo) ∧
      ∀ left todo, phase item ≠ .subreapers left todo) : Inv r' ∧ Effect r r' := by
  obtain ⟨heff, item, hph, hwalk⟩ := h
  refine ⟨⟨heff.linked hi, fun top' x hl => ?_, ?_⟩, heff⟩
  · rw [show r' = ⟨r'.tree, r'.helpers, phase item⟩ from hph ▸ rfl, hlook] at hl
    obtain ⟨y, hy, he⟩ := Option.map_eq_some_iff.mp hl
    cases he
    exact hwalk _ hy
  · rw [hph]
    rintro (⟨_, hp⟩ | ⟨_, _, hp⟩)
    · exact absurd hp ((hin item).1 _)
    · exact absurd hp ((hin item).2 _ _)

/-- A step between two walks, to where no helper is loose. -/
theorem Effect.between (he : Effect r r') (hi : Inv r) (hidle : r'.helpers = [])
    (hl : ∀ top x, r'.looking = some (top, x) → x = top) : Inv r' ∧ Effect r r' :=
  ⟨⟨he.linked hi, fun top x h => .inl (hl top x h), fun _ => hidle⟩, he⟩

/-- Every step keeps the links in order, whatever the tree is. -/
theorem step_spec (hi : Inv r) (h : step r = some r') : Inv r' ∧ Effect r r' := by
  unfold step at h
  cases hph : r.phase with
  | namespaces todo =>
    cases todo with
    | nil => simp [hph] at h
    | cons ns todo =>
      have hno : r.verdict ≠ some .reparent := by simp [State.verdict, hph]
      simp only [hph, Option.map_eq_some_iff] at h
      obtain ⟨init, -, rfl⟩ := h
      exact Effect.between (.walk hno rfl rfl) hi (hi.idle (.inl ⟨_, hph⟩)) (by rintro _ _ ⟨⟩; rfl)
  | inits ns init item todo =>
    cases item with
    | some x =>
      simp only [hph] at h
      exact (initStep_spec hi hph h).inv hi (fun item => by cases item <;> rfl)
        fun _ => ⟨nofun, nofun⟩
    | none =>
      simp only [hph] at h
      split at h
      · cases h
      have hno : r.verdict ≠ some .reparent := by simp [State.verdict, hph]
      obtain ⟨found, -, rfl⟩ := Option.map_eq_some_iff.mp h
      exact Effect.between (.attach hno rfl rfl) hi rfl nofun
  | subreapers left todo =>
    have hidle := hi.idle (.inr ⟨left, todo, hph⟩)
    have hno : r.verdict ≠ some .reparent := by simp [State.verdict, hph]
    cases left with
    | nil =>
      simp only [hph, Option.some.injEq] at h
      subst h
      exact Effect.between (.walk hno rfl rfl) hi hidle nofun
    | cons subreaper left =>
      simp only [hph, Option.some.injEq] at h
      subst h
      exact Effect.between (.walk hno rfl rfl) hi hidle (by rintro _ _ ⟨⟩; rfl)
  | subreap subreaper item left todo =>
    cases item with
    | some x =>
      simp only [hph] at h
      exact (subreaperStep_spec hi hph h).inv hi (fun item => by cases item <;> rfl) fun _ =>
        ⟨nofun, nofun⟩
    | none =>
      simp only [hph, Option.some.injEq] at h
      subst h
      have hno : r.verdict ≠ some .reparent := by simp [State.verdict, hph]
      exact Effect.between (.attach hno rfl rfl) hi rfl nofun

end Step

section Rooted

/-- Putting helpers into lists changes nothing but the lists. -/
theorem attachHelpers_eq (t : Tree) (helpers : List ℕ) :
    ∃ lists, attachHelpers t helpers = { t with children := lists } := by
  induction helpers generalizing t with
  | nil => exact ⟨t.children, rfl⟩
  | cons helper helpers ih =>
    have hone : ∃ lists, attachHelper t helper = { t with children := lists } := by
      unfold attachHelper
      cases t.parent helper <;> exact ⟨_, rfl⟩
    obtain ⟨lists, hlists⟩ := hone
    obtain ⟨lists', hrest⟩ := ih (attachHelper t helper)
    refine ⟨lists', hrest.trans ?_⟩
    rw [hlists]

/-- What holds of the tree after a step, if it does not depend on the lists, and holds when a branch
is hung to a helper. -/
theorem Effect.rule (hi : Inv r) (he : Effect r r')
    (hlists : ∀ lists, P { r.tree with children := lists })
    (hmove : ∀ top x branch helper t, r.looking = some (top, x) → r.verdict = some .reparent →
      HelperFor r.tree x t r'.helpers helper →
      branchOf r.tree top (r.tree.size + 1) x = some branch → P (hang t branch helper)) :
    P r'.tree := by
  cases he with
  | walk _ ht _ =>
    rw [ht]
    exact hlists r.tree.children
  | attach _ ht _ =>
    obtain ⟨lists, heq⟩ := attachHelpers_eq r.tree r.helpers
    rw [ht, heq]
    exact hlists lists
  | move hl hv hf hb ht =>
    rw [ht]
    exact hmove _ _ _ _ _ hl hv (findHelper_spec hi.linked hf) hb

def Rooted (t : Tree) : Prop := ∀ x ∈ t.tasks, t.Within x t.root

theorem HelperFor.rooted (hf : HelperFor t x t' helpers' helper) (hl : Linked t helpers)
    (h : Rooted t) : Rooted t' := by
  have hold : ∀ y ∈ t.tasks, t'.Within y t.root := fun y hy =>
    Links.within_of_agree hf.parent (fun z _ p hup => (hl.member z p hup).2) hy (h y hy)
  intro y hy
  rw [hf.root]
  rcases hf.added y hy with hy | ⟨rfl, -, -⟩
  · exact hold y hy
  · obtain ⟨l, hlead, hpar⟩ := hf.leader
    exact ReflTransGen.head hpar (hold l (sessionLeader_mem hlead))

/-- The helper is not in the branch if the leader it is for is not. -/
theorem HelperFor.not_within (hf : HelperFor t x t' helpers' helper) (hl : Linked t helpers)
    (hb : branch ∉ helpers')
    (hclear : ∀ leader, sessionLeader t (t.vsid x) = some leader → ¬ t.Within leader branch) :
    ¬ t'.Within helper branch := by
  obtain ⟨l, hlead, hpar⟩ := hf.leader
  have hlm := sessionLeader_mem hlead
  intro hw
  rcases ReflTransGen.cases_head hw with he | ⟨y, hup, hw'⟩
  · exact hb (he ▸ hf.mem)
  · cases Option.some.inj (hpar.symm.trans hup)
    refine hclear l hlead (Links.within_of_agree (fun z hz => (hf.parent z hz).symm) ?_ hlm hw')
    intro z hz p hzp
    exact (hl.member z p ((hf.parent z hz).symm.trans hzp)).2

theorem Effect.rooted (hi : Inv r) (hclear : r.Clear) (he : Effect r r') (h : Rooted r.tree) :
    Rooted r'.tree := by
  refine he.rule hi (fun _ => h) fun top x branch helper t hl hv hfor hb => ?_
  have hloose := ((hfor.linked.hung.mem_children _ _).mp (hi.moved hl hv hfor hb)).2
  have hroot := hfor.rooted hi.linked h
  have hnot := hfor.not_within hi.linked hloose fun leader hlead =>
    hclear hv _ _ _ leader hl hb hlead
  intro x hx
  exact (hroot x hx).setParent (hroot _ (hfor.linked.helper_mem hfor.mem)) hnot

end Rooted

/-- A tree as it is read from an image: the tasks are linked into a tree, and what only stands for
a pid is not. -/
structure ImageTree (t : Tree) : Prop where
  isTree : t.IsTree t.root t.tasks
  root_mem : t.root ∈ t.tasks
  member : ∀ x p, t.parent x = some p → x ∈ t.tasks ∧ p ∈ t.tasks

theorem ImageTree.of_numbered (h0 : t.root = 0) (hsize : 0 < t.size)
    (hout : ∀ x, t.size ≤ x → t.parent x = none ∧ t.children x = [])
    (hstate : ∀ x < t.size, (t.item x).state ≠ .undef)
    (hparent : ∀ x < t.size, x ≠ 0 → t.parent x ≠ none)
    (hbelow : ∀ x < t.size, ∀ p ∈ t.parent x, p < x)
    (hchild : ∀ p < t.size, (t.children p).Nodup ∧ (∀ c ∈ t.children p, c < t.size) ∧
      ∀ c < t.size, c ∈ t.children p ↔ t.parent c = some p) :
    ImageTree t := by
  have hlt : ∀ x p, t.parent x = some p → p < x ∧ x < t.size := by
    intro x p hp
    have hx : x < t.size := by
      by_contra hge
      cases (hout x (not_lt.mp hge)).1.symm.trans hp
    exact ⟨hbelow x hx p hp, hx⟩
  have hung : t.Hung [] := by
    refine ⟨fun p c => ?_, fun p => ?_⟩
    all_goals by_cases hp : p < t.size
    · obtain ⟨-, hmem, hiff⟩ := hchild p hp
      simp only [not_mem_nil, not_false_iff, and_true]
      exact ⟨fun hc => (hiff c (hmem c hc)).mp hc, fun hc => (hiff c (hlt c p hc).2).mpr hc⟩
    · rw [(hout p (not_lt.mp hp)).2]
      exact iff_of_false not_mem_nil fun hc => hp ((hlt c p hc.1).1.trans (hlt c p hc.1).2)
    · exact (hchild p hp).1
    · exact (hout p (not_lt.mp hp)).2 ▸ nodup_nil
  have hmember : ∀ x p, t.parent x = some p → x ∈ t.tasks ∧ p ∈ t.tasks := by
    intro x p hp
    obtain ⟨hpx, hx⟩ := hlt x p hp
    exact ⟨⟨hx, hstate x hx⟩, ⟨hpx.trans hx, hstate p (hpx.trans hx)⟩⟩
  have htop : t.parent 0 = none := by
    cases hp : t.parent 0 with
    | none => rfl
    | some p => exact absurd (hlt 0 p hp).1 (Nat.not_lt_zero p)
  have hwithin : ∀ x < t.size, t.Within x 0 := by
    intro x
    induction x using Nat.strong_induction_on with
    | _ x ih =>
      intro hx
      by_cases hx0 : x = 0
      · exact hx0 ▸ ReflTransGen.refl
      · obtain ⟨p, hp⟩ := Option.ne_none_iff_exists'.mp (hparent x hx hx0)
        have hpx := (hlt x p hp).1
        exact ReflTransGen.head hp (ih p hpx (hpx.trans hx))
  constructor
  · rw [h0]
    exact hung.isTree htop (fun x p hp => (hmember x p hp).1) fun x hx => hwithin x hx.1
  · rw [h0]
    exact ⟨hsize, hstate 0 hsize⟩
  · exact hmember

theorem ImageTree.inv (h : ImageTree t) (namespaces : List (List ℕ)) :
    Inv (start t namespaces) := by
  constructor
  · exact ⟨h.isTree.hung h.member, h.isTree.top, h.root_mem, h.member, nodup_nil,
      nofun⟩
  · intro top x hl
    cases hl
  · exact fun _ => rfl

def Reached (t : Tree) (namespaces : List (List ℕ)) (ok : State → Prop) : State → Prop :=
  Run.Reach (· = start t namespaces) (fun r (_ : Unit) r' => step r = some r') fun r _ => ok r

theorem Reached.inv {ok : State → Prop} (ht : ImageTree t) (hr : Reached t namespaces ok r) :
    Inv r := by
  refine Run.Reach.invariant ?_ ?_ hr
  · rintro r rfl
    exact ht.inv namespaces
  · intro r _ r' _ hi _ hstep
    exact (step_spec hi hstep).1

structure Kept (t : Tree) (r : State) : Prop where
  rooted : Rooted r.tree
  root : r.tree.root = t.root
  tasks : ∀ x ∈ t.tasks, x ∈ r.tree.tasks

theorem Reached.kept (ht : ImageTree t) (hr : Reached t namespaces State.Clear r) : Kept t r := by
  refine Run.Reach.invariant ?_ ?_ hr
  · rintro r rfl
    exact ⟨fun x hx => ht.isTree.within hx, rfl, fun _ hx => hx⟩
  intro r _ r' hreach hk hclear hstep
  have hi := Reached.inv ht hreach
  obtain ⟨-, heff⟩ := step_spec hi hstep
  obtain ⟨htasks, hroot⟩ := heff.rule
    (P := fun t => (∀ x ∈ r.tree.tasks, x ∈ t.tasks) ∧ t.root = r.tree.root) hi
    (fun _ => ⟨fun _ hx => hx, rfl⟩) fun _ _ _ _ _ _ _ hfor _ => ⟨hfor.tasks, hfor.root⟩
  exact ⟨heff.rooted hi hclear hk.rooted, hroot.trans hk.root, fun x hx => htasks x (hk.tasks x hx)⟩

/-- Reparenting keeps a tree a tree as long as no branch is moved that holds the leader of the
session it is moved for. -/
theorem reparenting_keeps_tree {t : Tree} {namespaces : List (List ℕ)} {r : State}
    (ht : ImageTree t) (hr : Reached t namespaces State.Clear r)
    (hdone : r.phase = .namespaces []) :
    r.tree.IsTree r.tree.root r.tree.tasks ∧ r.tree.root = t.root ∧
      ∀ x ∈ t.tasks, x ∈ r.tree.tasks := by
  have hk := Reached.kept ht hr
  have hi := Reached.inv ht hr
  have hidle := hi.idle (.inl ⟨[], hdone⟩)
  have hung := hi.linked.hung
  rw [hidle] at hung
  refine ⟨hung.isTree hi.linked.top (fun x p hup => (hi.linked.member x p hup).1) hk.rooted, ?_⟩
  exact ⟨hk.root, hk.tasks⟩

def finish : ℕ → State → Option Tree
  | 0, _ => none
  | n + 1, r =>
      match r.phase with
      | .namespaces [] => some r.tree
      | _ => (step r).bind (finish n)

theorem finish_spec (hstep : ∀ r r', Inv r → Effect r r' → P r.tree → P r'.tree)
    (hi : Inv r) (hp : P r.tree) (h : finish n r = some t') : P t' ∧ Linked t' [] := by
  induction n generalizing r with
  | zero => cases h
  | succ n ih =>
    unfold finish at h
    split at h
    · cases h
      exact ⟨hp, hi.idle (.inl ⟨[], ‹_›⟩) ▸ hi.linked⟩
    · obtain ⟨r', hs, h'⟩ := Option.bind_eq_some_iff.mp h
      obtain ⟨hi', he⟩ := step_spec hi hs
      exact ih hi' (hstep r r' hi he hp) h'

theorem finish_reached (hr : Reached t namespaces (fun _ => True) r) (h : finish n r = some t') :
    ∃ r', Reached t namespaces (fun _ => True) r' ∧ r'.phase = .namespaces [] ∧ r'.tree = t' := by
  induction n generalizing r with
  | zero => cases h
  | succ n ih =>
    unfold finish at h
    split at h
    · exact ⟨r, hr, ‹_›, Option.some.inj h⟩
    · obtain ⟨r', hstep, h'⟩ := Option.bind_eq_some_iff.mp h
      have hnext : Reached t namespaces (fun _ => True) r' :=
        Run.Reach.next (e := ()) hr trivial hstep
      exact ih hnext h'

def task (pid sid : ℕ) : Item := ⟨[pid], [pid], [sid], [], .alive, [0], false⟩

/-- The init, a session leader below it, and two children of that: a session leader and a task of
the latter's session, as CLONE_PARENT makes them. -/
def cloneParentTree : Tree where
  parent := fun x => if x = 1 then some 0 else if x = 2 ∨ x = 3 then some 1 else none
  children := fun x => if x = 0 then [1] else if x = 1 then [2, 3] else []
  item := fun x =>
    if x = 0 then task 1 1 else if x = 1 then task 2 2 else if x = 2 then task 3 3 else task 4 3
  size := 4
  root := 0
  bornSid := fun _ => none
  myChildSubreaper := fun _ => none
  pgrpMemberCnt := fun _ => 0

theorem cloneParentTree_image : ImageTree cloneParentTree := by
  refine .of_numbered rfl (by decide) (fun x hx => ?_) (by decide) (by decide) (by decide)
    (by decide)
  change 4 ≤ x at hx
  simp [cloneParentTree, show x ≠ 0 ∧ x ≠ 1 ∧ x ≠ 2 ∧ x ≠ 3 by omega]

theorem cloneParentTree_moved : (finish 20 (start cloneParentTree [[0]])).map
      (fun t => (t.parent 1, t.parent 4, t.parent 2)) = some (some 4, some 2, some 1) := by
  decide

/-- The branch of the session leader is hung to a helper of a leader that is in that branch: the
three go round in a circle that nothing leads to from the root. -/
theorem leader_in_branch_detached :
    ImageTree cloneParentTree ∧ ∃ r, Reached cloneParentTree [[0]] (fun _ => True) r ∧
      r.phase = .namespaces [] ∧ ¬ r.tree.IsTree r.tree.root r.tree.tasks := by
  refine ⟨cloneParentTree_image, ?_⟩
  obtain ⟨t, ht, hpar⟩ := Option.map_eq_some_iff.mp cloneParentTree_moved
  simp only [Prod.mk.injEq] at hpar
  obtain ⟨h1, h4, h2⟩ := hpar
  obtain ⟨r, hr, hph, rfl⟩ := finish_reached (.start rfl) ht
  refine ⟨r, hr, hph, fun htree => htree.acyclic 1 ?_⟩
  exact TransGen.head h1 (TransGen.head h4 (TransGen.single h2))

def orphanTree : Tree where
  parent := fun x => if x = 1 ∨ x = 2 then some 0 else none
  children := fun x => if x = 0 then [1, 2] else []
  item := fun x => if x = 0 then task 1 1 else if x = 1 then task 2 2 else task 3 2
  size := 3
  root := 0
  bornSid := fun _ => none
  myChildSubreaper := fun _ => none
  pgrpMemberCnt := fun _ => 0

theorem orphanTree_image : ImageTree orphanTree := by
  refine .of_numbered rfl (by decide) (fun x hx => ?_) (by decide) (by decide) (by decide)
    (by decide)
  change 3 ≤ x at hx
  simp [orphanTree, show x ≠ 0 ∧ x ≠ 1 ∧ x ≠ 2 by omega]

theorem State.Clear.of_verdict (h : r.verdict ≠ some .reparent) : r.Clear :=
  fun hv => absurd hv h

theorem orphan_reparented :
    ∃ r, Reached orphanTree [[0]] State.Clear r ∧ r.phase = .namespaces [] ∧
      r.tree.parent 2 = some 3 ∧ r.tree.IsTree r.tree.root r.tree.tasks := by
  have h0 : Reached orphanTree [[0]] State.Clear (start orphanTree [[0]]) := .start rfl
  have h1 := h0.next (e := ()) (.of_verdict (by decide)) rfl
  have h2 := h1.next (e := ()) (.of_verdict (by decide)) rfl
  have h3 := h2.next (e := ()) (.of_verdict (by decide)) rfl
  -- the leader is a child of the init, as the orphan is
  have hclear : State.Clear ⟨orphanTree, [], .inits [0] 0 (some 2) []⟩ := by
    intro _ top x branch leader hl hb hlead hw
    cases hl
    cases hb
    cases hlead
    rcases ReflTransGen.cases_head hw with he | ⟨y, hup, hw⟩
    · cases he
    · cases hup
      rcases ReflTransGen.cases_head hw with he | ⟨y, hup, -⟩
      · cases he
      · cases hup
  have h4 := h3.next (e := ()) hclear rfl
  have h5 := h4.next (e := ()) (.of_verdict (by decide)) rfl
  have h6 := h5.next (e := ()) (.of_verdict (by decide)) rfl
  exact ⟨_, h6, rfl, rfl, (reparenting_keeps_tree orphanTree_image h6 rfl).1⟩

end Criu.Reparent

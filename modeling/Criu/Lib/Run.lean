import Mathlib.Data.List.Induction

/-!
Runs of a transition system with labelled steps, and invariants over them. A run may be
restricted to steps that meet a condition; such a run is also a run without it, so what
is known of all runs can be used.
-/

namespace Run

open List

variable {φ σ ε : Type*}

/-- The states that runs reach whose steps all meet the condition. -/
inductive Reach (init : σ → Prop) (step : σ → ε → σ → Prop) (ok : σ → ε → Prop) : σ → Prop
  | start {s : σ} : init s → Reach init step ok s
  | next {s t : σ} {e : ε} : Reach init step ok s → ok s e → step s e t → Reach init step ok t

variable {init : σ → Prop} {step : σ → ε → σ → Prop} {ok ok' : σ → ε → Prop}

theorem Reach.mono (h : ∀ s e, ok s e → ok' s e) {s : σ} (hr : Reach init step ok s) :
    Reach init step ok' s := by
  induction hr with
  | start hs => exact .start hs
  | next _ hok hstep ih => exact .next ih (h _ _ hok) hstep

/-- What holds at the start and is kept by every step holds throughout. -/
theorem Reach.invariant {inv : σ → Prop} (hinit : ∀ s, init s → inv s)
    (hstep : ∀ s e t, Reach init step ok s → inv s → ok s e → step s e t → inv t)
    {s : σ} (hr : Reach init step ok s) : inv s := by
  induction hr with
  | start hs => exact hinit _ hs
  | next hr hok hs ih => exact hstep _ _ _ hr ih hok hs

/-- A fold whose steps can fail, as a run over the list: the invariant holds at its end, and each
element has met what a step asks for. -/
theorem foldlM_invariant {f : σ → ε → Option σ} {inv : σ → Prop} {met : ε → Prop} {l : List ε}
    {s t : σ} (hstep : ∀ s e t, e ∈ l → inv s → f s e = some t → inv t ∧ met e) (hs : inv s)
    (h : l.foldlM f s = some t) : inv t ∧ ∀ e ∈ l, met e := by
  induction l generalizing s with
  | nil =>
    cases h
    exact ⟨hs, nofun⟩
  | cons e l ih =>
    obtain ⟨s', hf, h'⟩ := Option.bind_eq_some_iff.mp h
    obtain ⟨hs', he⟩ := hstep s e s' mem_cons_self hs hf
    obtain ⟨ht, hall⟩ := ih (fun s e t he => hstep s e t (mem_cons_of_mem _ he)) hs' h'
    exact ⟨ht, forall_mem_cons.mpr ⟨he, hall⟩⟩

/-- A run that is given by what is to be done in it. -/
theorem Reach.foldlM {α : Type*} {f : σ → α → Option σ} {l : List α} {s t : σ}
    (hs : Reach init step ok s)
    (hf : ∀ a ∈ l, ∀ s t, f s a = some t → ∃ e, ok s e ∧ step s e t)
    (h : l.foldlM f s = some t) : Reach init step ok t := by
  refine (foldlM_invariant (fun s a t ha hs hr => ⟨?_, trivial⟩) hs h).1
  obtain ⟨e, hok, hstep⟩ := hf a ha s t hr
  exact .next hs hok hstep

theorem exists_ok_of_map {α β : Type*} {x : Except ε α} {f : α → β} {b : β}
    (h : x.toOption.map f = some b) : ∃ a, x = .ok a ∧ f a = b := by
  cases x with
  | error e => cases h
  | ok a => exact ⟨a, rfl, Option.some.inj h⟩

theorem foldlM_cons_ok {f : σ → ε → Except φ σ} {e : ε} {l : List ε} {s t : σ} :
    (e :: l).foldlM f s = .ok t ↔ ∃ s', f s e = .ok s' ∧ l.foldlM f s' = .ok t := by
  rw [foldlM_cons]
  cases f s e with
  | error a => exact ⟨nofun, fun ⟨_, h, _⟩ => nomatch h⟩
  | ok s' => exact ⟨fun h => ⟨s', rfl, h⟩, fun ⟨_, h, h'⟩ => Except.ok.inj h ▸ h'⟩

/-- What every call keeps holds at the end of a run of calls. -/
theorem foldlM_ok_invariant {f : σ → ε → Except φ σ} (inv : σ → Prop) {l : List ε}
    {s t : σ} (hstep : ∀ s e t, e ∈ l → inv s → f s e = .ok t → inv t) (hs : inv s)
    (h : l.foldlM f s = .ok t) : inv t := by
  induction l generalizing s with
  | nil =>
    cases h
    exact hs
  | cons e l ih =>
    obtain ⟨s', he, h'⟩ := foldlM_cons_ok.mp h
    exact ih (fun s e t hin => hstep s e t (mem_cons_of_mem _ hin))
      (hstep s e s' mem_cons_self hs he) h'

/-- A run of calls that may fail. If what is safe follows from an invariant that the calls meeting a
condition keep, and no other call ends in a safe state, then all states of the run are safe exactly
if all its calls meet the condition. -/
theorem foldlM_safe_iff {f : σ → ε → Except φ σ} {safe : σ → Prop} (inv : σ → Prop)
    (hsafe : ∀ s, inv s → safe s) (hkeep : ∀ s e t, inv s → f s e = .ok t → ok s e → inv t)
    (hneed : ∀ s e t, inv s → f s e = .ok t → safe t → ok s e) {s : σ} (hs : inv s) (l : List ε) :
    (∀ pre post t, l = pre ++ post → pre.foldlM f s = .ok t → safe t) ↔
      ∀ pre e post t u, l = pre ++ e :: post → pre.foldlM f s = .ok t → f t e = .ok u → ok t e := by
  induction l generalizing s with
  | nil =>
    constructor
    · intro _ pre e post t u hl
      exact absurd hl.symm (by simp)
    · intro _ pre post t hl ht
      obtain ⟨rfl, -⟩ := append_eq_nil_iff.mp hl.symm
      cases ht
      exact hsafe s hs
  | cons e l ih =>
    constructor
    · intro h
      have hok : ∀ u, f s e = .ok u → ok s e := fun u hu =>
        hneed s e u hs hu (h [e] l u rfl (foldlM_cons_ok.mpr ⟨u, hu, rfl⟩))
      intro pre e' post t u hl ht hu
      cases pre with
      | nil =>
        cases ht
        obtain ⟨rfl, -⟩ := List.cons.inj hl
        exact hok u hu
      | cons x pre =>
        obtain ⟨rfl, hl'⟩ := List.cons.inj hl
        obtain ⟨s', hx, ht'⟩ := foldlM_cons_ok.mp ht
        have hinv := hkeep s e s' hs hx (hok s' hx)
        refine (ih hinv).mp (fun pre' post' t' hsplit hrun => ?_) pre e' post t u hl' ht' hu
        exact h (e :: pre') post' t' (by rw [hsplit, cons_append])
          (foldlM_cons_ok.mpr ⟨s', hx, hrun⟩)
    · intro h pre post t hl ht
      cases pre with
      | nil =>
        cases ht
        exact hsafe s hs
      | cons x pre =>
        obtain ⟨rfl, hl'⟩ := List.cons.inj hl
        obtain ⟨s', hx, ht'⟩ := foldlM_cons_ok.mp ht
        have hinv := hkeep s e s' hs hx (h [] e l s s' rfl rfl hx)
        refine (ih hinv).mpr (fun pre' e' post' t' u hsplit hrun hu => ?_) pre post t hl' ht'
        exact h (e :: pre') e' post' t' u (by rw [hsplit, cons_append])
          (foldlM_cons_ok.mpr ⟨s', hx, hrun⟩) hu

end Run

import Mathlib.Tactic.Common

/-!
# Systems that take steps, and the runs that keep to a condition

A system is a set of initial states and a partial step function: an action either is possible in
a state, and then leads to one next state, or it is not.  What may happen in which order is left
to the list of actions.

`Reach ok s` says that some run from an initial state ends in `s` and that each of its steps met
the condition `ok` in the state it was taken from; with the condition `Free`, which asks nothing,
these are the reachable states of the system.  The rule everything is proved with is
`Reach.invariant`: what holds initially and is kept by each step that meets the condition holds
in every state reached.
-/

set_option autoImplicit false

/-- A system: its initial states, and what each action does. -/
structure System (σ α : Type) where
  /-- The states a run may start in. -/
  init : σ → Prop
  /-- The state after an action, if the action is possible. -/
  step : σ → α → Option σ

namespace System

variable {σ α : Type} (S : System σ α)

/-- The condition that every step meets. -/
def Free (_ : σ) (_ : α) : Prop := True

/-- The states at the end of the runs of `S` whose steps all meet the condition `ok`. -/
inductive Reach (ok : σ → α → Prop) : σ → Prop
  | init {s : σ} (h : S.init s) : Reach ok s
  | step {s s' : σ} {a : α} (h : Reach ok s) (hok : ok s a) (hs : S.step s a = some s') :
      Reach ok s'

variable {S}

/-- **The invariant rule**: what holds initially and is kept by every step that meets the
condition holds in every state of every run whose steps meet it. -/
theorem Reach.invariant {ok : σ → α → Prop} {I : σ → Prop} (hinit : ∀ s, S.init s → I s)
    (hstep : ∀ s a s', I s → ok s a → S.step s a = some s' → I s') {s : σ}
    (h : S.Reach ok s) : I s := by
  induction h with
  | init h => exact hinit _ h
  | step _ hok hs ih => exact hstep _ _ _ ih hok hs

/-- The same with an invariant already known of the states the run passes through. -/
theorem Reach.invariant_of {ok : σ → α → Prop} {J I : σ → Prop}
    (hJ : ∀ s, S.Reach ok s → J s) (hinit : ∀ s, S.init s → I s)
    (hstep : ∀ s a s', J s → I s → ok s a → S.step s a = some s' → I s') {s : σ}
    (h : S.Reach ok s) : I s := by
  induction h with
  | init h => exact hinit _ h
  | step h hok hs ih => exact hstep _ _ _ (hJ _ h) ih hok hs

/-- A run that meets a condition meets every weaker one. -/
theorem Reach.mono {ok ok' : σ → α → Prop} (hle : ∀ s a, ok s a → ok' s a) {s : σ}
    (h : S.Reach ok s) : S.Reach ok' s := by
  induction h with
  | init h => exact .init h
  | step _ hok hs ih => exact .step ih (hle _ _ hok) hs

/-- The same with an invariant known of the states the run passes through. -/
theorem Reach.mono_of {ok ok' : σ → α → Prop} {J : σ → Prop} (hJ : ∀ s, S.Reach ok s → J s)
    (hle : ∀ s a, J s → ok s a → ok' s a) {s : σ} (h : S.Reach ok s) : S.Reach ok' s := by
  induction h with
  | init h => exact .init h
  | step h hok hs ih => exact .step ih (hle _ _ (hJ _ h) hok) hs

/-- A run may be prolonged by any list of actions that are possible one after the other. -/
theorem Reach.run {s : σ} (h : S.Reach Free s) :
    ∀ (as : List α) {s' : σ}, as.foldlM S.step s = some s' → S.Reach Free s' := by
  intro as
  induction as generalizing s with
  | nil =>
    intro s' hs
    rw [List.foldlM_nil] at hs
    exact Option.some.inj hs ▸ h
  | cons a as ih =>
    intro s' hs
    rw [List.foldlM_cons] at hs
    obtain ⟨t, ht, hs⟩ := Option.bind_eq_some_iff.mp hs
    exact ih (h.step trivial ht) hs

/-! ## Runs with a record of the past -/

variable (S) in
/-- The system with a record of its past beside each state; `note` says what a step adds to it. -/
def track {γ : Type} (start : γ) (note : γ → σ → α → σ → γ) : System (σ × γ) α where
  init x := S.init x.1 ∧ x.2 = start
  step x a := (S.step x.1 a).map fun s ↦ (s, note x.2 x.1 a s)

section Track

variable {γ : Type} {start : γ} {note : γ → σ → α → σ → γ} {x x' : σ × γ} {a : α}

theorem track_step (h : (S.track start note).step x a = some x') :
    S.step x.1 a = some x'.1 ∧ x'.2 = note x.2 x.1 a x'.1 := by
  obtain ⟨s, hs, rfl⟩ := Option.map_eq_some_iff.mp h
  exact ⟨hs, rfl⟩

/-- Without the record it is a run of the system. -/
theorem Reach.untrack {ok : σ × γ → α → Prop} (h : (S.track start note).Reach ok x) :
    S.Reach Free x.1 := by
  induction h with
  | init h => exact .init h.1
  | step _ _ hs ih => exact ih.step trivial (track_step hs).1

/-- A step with its record. -/
theorem Reach.track_next {ok : σ × γ → α → Prop} {s s' : σ} {r : γ}
    (h : (S.track start note).Reach ok (s, r)) (hok : ok (s, r) a) (hs : S.step s a = some s') :
    (S.track start note).Reach ok (s', note r s a s') := by
  refine h.step hok ?_
  rw [track]
  dsimp only
  rw [hs, Option.map_some]

/-- A run of which no notice is taken leaves the record as it starts. -/
theorem Reach.track_start {ok : σ → α → Prop} {ok' : σ × γ → α → Prop} {s : σ}
    (h : S.Reach ok s)
    (hnote : ∀ s a s', ok s a → note start s a s' = start ∧ ok' (s, start) a) :
    (S.track start note).Reach ok' (s, start) := by
  induction h with
  | init h => exact .init ⟨h, rfl⟩
  | @step s s' a _ hok hs ih =>
    obtain ⟨hstart, hok'⟩ := hnote s a s' hok
    have hnext := ih.track_next hok' hs
    rwa [hstart] at hnext

/-- Every run has a record. -/
theorem Reach.track {ok : σ → α → Prop} {ok' : σ × γ → α → Prop} {s : σ} (h : S.Reach ok s)
    (hok : ∀ s a r, ok s a → ok' (s, r) a) : ∃ r, (S.track start note).Reach ok' (s, r) := by
  induction h with
  | init h => exact ⟨start, .init ⟨h, rfl⟩⟩
  | @step s s' a _ hs hstep ih =>
    obtain ⟨r, hr⟩ := ih
    exact ⟨_, hr.track_next (hok s a r hs) hstep⟩

end Track

end System

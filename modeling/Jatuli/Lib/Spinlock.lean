import Jatuli.Lib.Transition
import Mathlib.Data.List.Basic
import Mathlib.Logic.Function.Basic

/-!
# Spinlocks on one core

Tasks share one core and some spinlocks.  A lock is a flag: whoever finds it down raises it and has
the lock, whoever finds it up tries again and again.  On one core that can only end well if the
holder gets to run, and an interrupt handler, or other code under masked interrupts, does not let
anybody else run.

What the tasks do besides is a system of its own, the *host*.  For each of its actions it supplies
the *code* with which the action is taken (`Code`): which locks are taken and dropped on the way,
where interrupts are masked, and at which point the action happens.  Branches and loops of the code
are left open.  What a task has still to do is a list of frames (`Frame`), and what it holds can be
read off it: a guard that is to be dropped is a frame.  An interrupt puts the code of its handler on
top of what the running task has to do, and a task that is switched away from keeps its frames.

Three things are shown for every host.  A flag is up exactly if there is a guard of its lock, and
then there is only one (`exclusive_of_reach`).  If no interrupt comes while the code it interrupts
holds a lock, and the code does not let go of the core under a lock nor takes a lock twice
(`Code.clear`), then no lock is ever found taken (`Alone`).  And every run of the host is a run with
locks whose interrupts come between two actions (`lift`).
-/

set_option autoImplicit false

namespace Spinlock

/-! ## Code -/

/-- What a piece of code does to the locks `ι` and to the interrupt mask, and where the actions `α`
of the host happen.  Which branch is taken, and how often a loop is gone through, is left open. -/
inductive Code (α ι : Type)
  /-- Nothing. -/
  | skip
  /-- The action happens. -/
  | act (a : α)
  /-- `c` runs under the lock.  At its end the guard is dropped; the action, if there is one, is the
  last thing that happens under it. -/
  | locked (l : ι) (c : Code α ι) (a : Option α)
  /-- `c` runs with interrupts masked. -/
  | masked (c : Code α ι)
  /-- One after the other. -/
  | seq (c d : Code α ι)
  /-- One of the two. -/
  | either (c d : Code α ι)
  /-- Any number of times. -/
  | loop (c : Code α ι)
deriving DecidableEq, Repr

instance appendCode {α ι : Type} : Append (Code α ι) := ⟨.seq⟩

/-- What a context has still to do. -/
inductive Frame (α ι : Type)
  /-- Run this code. -/
  | run (c : Code α ι)
  /-- Do the action, if there is one, and drop the guard of the lock. -/
  | release (l : ι) (a : Option α)
  /-- Unmask interrupts, unless they were masked before. -/
  | restore
  /-- Return from the exception. -/
  | eret
deriving DecidableEq, Repr

namespace Code

variable {α ι : Type}

/-- No action happens, whichever way the code goes. -/
def actless : Code α ι → Bool
  | .skip => true
  | .act _ => false
  | .locked _ c a => a.isNone && c.actless
  | .masked c => c.actless
  | .seq c d => c.actless && d.actless
  | .either c d => c.actless && d.actless
  | .loop c => c.actless

/-- A lock is not taken, whichever way the code goes. -/
def avoids [DecidableEq ι] (l : ι) : Code α ι → Bool
  | .skip => true
  | .act _ => true
  | .locked l' c _ => l' ≠ l && c.avoids l
  | .masked c => c.avoids l
  | .seq c d => c.avoids l && d.avoids l
  | .either c d => c.avoids l && d.avoids l
  | .loop c => c.avoids l

/-- Under a lock the same lock is not taken again, and the only action is the one with which the
guard is dropped. -/
def clear [DecidableEq ι] : Code α ι → Bool
  | .skip => true
  | .act _ => true
  | .locked l c _ => c.clear && c.actless && c.avoids l
  | .masked c => c.clear
  | .seq c d => c.clear && d.clear
  | .either c d => c.clear && d.clear
  | .loop c => c.clear

/-- There is a way through the code on which it takes no lock and nothing happens. -/
def silent : Code α ι → Bool
  | .skip => true
  | .act _ => false
  | .locked _ _ _ => false
  | .masked c => c.silent
  | .seq c d => c.silent && d.silent
  | .either c d => c.silent || d.silent
  | .loop _ => true

/-- There is a way through the code on which nothing happens. -/
def passes : Code α ι → Bool
  | .skip => true
  | .act _ => false
  | .locked _ c a => a.isNone && c.silent
  | .masked c => c.passes
  | .seq c d => c.passes && d.passes
  | .either c d => c.passes || d.passes
  | .loop _ => true

/-- There is a way through the code on which this action happens, and after it nothing. -/
def commits (a : α) : Code α ι → Prop
  | .skip => False
  | .act a' => a' = a
  | .locked _ c a' => a' = some a ∧ c.silent
  | .masked c => c.commits a
  | .seq c d => c.passes ∧ d.commits a ∨ c.commits a ∧ d.silent
  | .either c d => c.commits a ∨ d.commits a
  | .loop _ => False

end Code

namespace Frame

variable {α ι : Type}

/-- Interrupts are masked until the frame is done with. -/
def masks : Frame α ι → Bool
  | .restore => true
  | .eret => true
  | _ => false

/-- The frame is the guard of a lock. -/
def Guards (l : ι) (f : Frame α ι) : Prop := ∃ a, f = .release l a

/-- The same as a test. -/
def isGuard [DecidableEq ι] (l : ι) : Frame α ι → Bool
  | .release l' _ => l' = l
  | _ => false

/-- Nothing happens until the frame is done with, and no exception is returned from. -/
def actless : Frame α ι → Bool
  | .run c => c.actless
  | .release _ a => a.isNone
  | .restore => true
  | .eret => false

/-- A lock is not taken until the frame is done with, and it is not the guard of it. -/
def avoids [DecidableEq ι] (l : ι) : Frame α ι → Bool
  | .run c => c.avoids l
  | .release l' _ => l' ≠ l
  | .restore => true
  | .eret => true

/-- The frame's code keeps to what is asked of code. -/
def clear [DecidableEq ι] : Frame α ι → Bool
  | .run c => c.clear
  | _ => true

/-- The frame can be done with without a lock. -/
def quiet : Frame α ι → Bool
  | .run c => c.silent
  | .release _ _ => false
  | .restore => true
  | .eret => true

/-- What frames that do nothing to the locks give way to. -/
inductive Unfolds : Frame α ι → List (Frame α ι) → Prop
  | skip : Unfolds (.run .skip) []
  | masked (c : Code α ι) : Unfolds (.run (.masked c)) [.run c, .restore]
  | seq (c d : Code α ι) : Unfolds (.run (.seq c d)) [.run c, .run d]
  | left (c d : Code α ι) : Unfolds (.run (.either c d)) [.run c]
  | right (c d : Code α ι) : Unfolds (.run (.either c d)) [.run d]
  | again (c : Code α ι) : Unfolds (.run (.loop c)) [.run c, .run (.loop c)]
  | leave (c : Code α ι) : Unfolds (.run (.loop c)) []
  | restore : Unfolds .restore []
  | eret : Unfolds .eret []

end Frame

/-! ## The system -/

/-- A system of tasks on one core, with the code of its actions. -/
structure Host (σ α ι : Type) where
  /-- What happens. -/
  sys : System σ α
  /-- The running task. -/
  current : σ → Nat
  /-- Whether a task is inside a system call, which goes on with the task's next action. -/
  inCall : σ → Nat → Bool
  /-- The code with which the running task takes an action. -/
  code : σ → α → Option (Code α ι)
  /-- Whether an action begins with a system call of the running task. -/
  isCall : α → Bool
  /-- The code of the interrupt handler that takes an action. -/
  handler : σ → α → Option (Code α ι)

/-- A state of the host, the flags of the locks, and what each task has still to do. -/
structure State (σ α ι : Type) where
  /-- The state of the host. -/
  host : σ
  /-- The flag of each lock. -/
  taken : ι → Bool
  /-- The frames of each task, the next one first. -/
  stack : Nat → List (Frame α ι)

namespace State

variable {σ α ι : Type}

/-- The host is in another state. -/
def setHost (s : State σ α ι) (m : σ) : State σ α ι := { s with host := m }

/-- A flag is raised or taken down. -/
def setTaken [DecidableEq ι] (s : State σ α ι) (l : ι) (b : Bool) : State σ α ι :=
  { s with taken := Function.update s.taken l b }

/-- How many guards of a lock a task has still to drop. -/
def guards [DecidableEq ι] (s : State σ α ι) (l : ι) (t : Nat) : Nat :=
  (s.stack t).countP (·.isGuard l)

/-- **One at a time**: if the flag is up there is one guard, in the frames of one task, and if it is
down there is none. -/
def Exclusive [DecidableEq ι] (s : State σ α ι) (l : ι) : Prop :=
  if s.taken l then ∃ t, s.guards l t = 1 ∧ ∀ t', t' ≠ t → s.guards l t' = 0
  else ∀ t, s.guards l t = 0

theorem taken_setTaken_self [DecidableEq ι] (s : State σ α ι) (l : ι) (b : Bool) :
    (s.setTaken l b).taken l = b := Function.update_self ..

theorem taken_setTaken_of_ne [DecidableEq ι] (s : State σ α ι) {l l' : ι} (h : l' ≠ l) (b : Bool) :
    (s.setTaken l b).taken l' = s.taken l' := Function.update_of_ne h ..

end State

/-- What can happen next. -/
inductive Move (α : Type)
  /-- The running task begins an action. -/
  | start (a : α)
  /-- An interrupt comes. -/
  | interrupt (a : α)
  /-- The next frame is gone on with; in a branch or a loop this says which way. -/
  | exec (b : Bool)
deriving DecidableEq, Repr

namespace Host

variable {σ α ι : Type}

section Defs

variable (H : Host σ α ι) (s : State σ α ι)

/-- The frames of the running task. -/
def running : List (Frame α ι) := s.stack (H.current s.host)

/-- Give the running task other frames. -/
def setRunning (K : List (Frame α ι)) : State σ α ι :=
  { s with stack := Function.update s.stack (H.current s.host) K }

/-- Whether interrupts are masked. -/
def masked : Bool := (H.running s).any Frame.masks

/-- Whether the running task is between two actions. -/
def between : Bool :=
  match H.running s with
  | [] => !H.inCall s.host (H.current s.host)
  | [.eret] => H.inCall s.host (H.current s.host)
  | _ => false

/-- Go on with the frames `K`, after the action if there is one. -/
def perform (K : List (Frame α ι)) : Option α → Option (State σ α ι)
  | none => some (H.setRunning s K)
  | some a => (H.sys.step s.host a).map (H.setRunning s K).setHost

variable [DecidableEq ι]

/-- Go on with the next frame.  A lock that is taken is not got; a task inside a system call does
not return from it before its next action. -/
def exec (b : Bool) : Option (State σ α ι) :=
  match H.running s with
  | [] => none
  | .run .skip :: K => some (H.setRunning s K)
  | .run (.act a) :: K => H.perform s K (some a)
  | .run (.locked l c a) :: K =>
    if s.taken l then none
    else some ((H.setRunning s (.run c :: .release l a :: K)).setTaken l true)
  | .run (.masked c) :: K => some (H.setRunning s (.run c :: .restore :: K))
  | .run (.seq c d) :: K => some (H.setRunning s (.run c :: .run d :: K))
  | .run (.either c d) :: K => some (H.setRunning s (.run (if b then c else d) :: K))
  | .run (.loop c) :: K =>
    some (H.setRunning s (if b then .run c :: .run (.loop c) :: K else K))
  | .release l a :: K => H.perform (s.setTaken l false) K a
  | .restore :: K => some (H.setRunning s K)
  | .eret :: K =>
    if H.inCall s.host (H.current s.host) && K.isEmpty then none else some (H.setRunning s K)

/-- One step. -/
def move : Move α → Option (State σ α ι)
  | .start a =>
    if H.between s then
      (H.code s.host a).map fun c ↦ H.setRunning s
        (.run c :: ((if H.isCall a then [.eret] else []) ++ H.running s))
    else none
  | .interrupt a =>
    if H.masked s then none
    else (H.handler s.host a).map fun c ↦ H.setRunning s (.run c :: .eret :: H.running s)
  | .exec b => H.exec s b

/-- The host with its locks: all of them are free at first, and no task has anything to do. -/
def system : System (State σ α ι) (Move α) where
  init s := H.sys.init s.host ∧ (∀ l, s.taken l = false) ∧ ∀ t, s.stack t = []
  step s := H.move s

/-- The running context tries to take a lock that is taken. -/
def Spins (l : ι) : Prop := s.taken l = true ∧ ∃ c a K, H.running s = .run (.locked l c a) :: K

/-- A lock is held by a context that does not run: by another task, or by the code of this task that
was interrupted. -/
def HeldBySuspended (l : ι) : Prop :=
  (∃ t f, t ≠ H.current s.host ∧ f ∈ s.stack t ∧ f.Guards l) ∨
  ∃ K K' f, H.running s = K ++ .eret :: K' ∧ f ∈ K' ∧ f.Guards l

/-- The condition that no interrupt comes while the code it interrupts holds a lock. -/
def Undisturbed (m : Move α) : Prop :=
  ∀ a, m = .interrupt a → ∀ f ∈ H.running s, ∀ l, ¬ f.Guards l

/-- What one step can do. -/
inductive Step : Move α → State σ α ι → Prop
  | unfold {b : Bool} {f : Frame α ι} {fs K : List (Frame α ι)} (hs : H.running s = f :: K)
      (hf : f.Unfolds fs) : Step (.exec b) (H.setRunning s (fs ++ K))
  | take {b : Bool} {l : ι} {c : Code α ι} {a : Option α} {K : List (Frame α ι)}
      (hs : H.running s = .run (.locked l c a) :: K) (hl : s.taken l = false) :
      Step (.exec b) ((H.setRunning s (.run c :: .release l a :: K)).setTaken l true)
  | act {b : Bool} {a : α} {m : σ} {K : List (Frame α ι)}
      (hs : H.running s = .run (.act a) :: K) (hm : H.sys.step s.host a = some m) :
      Step (.exec b) ((H.setRunning s K).setHost m)
  | drop {b : Bool} {l : ι} {K : List (Frame α ι)} (hs : H.running s = .release l none :: K) :
      Step (.exec b) ((H.setRunning s K).setTaken l false)
  | dropAct {b : Bool} {l : ι} {a : α} {m : σ} {K : List (Frame α ι)}
      (hs : H.running s = .release l (some a) :: K) (hm : H.sys.step s.host a = some m) :
      Step (.exec b) (((H.setRunning s K).setTaken l false).setHost m)
  | start {a : α} {c : Code α ι} (hb : H.between s = true) (hc : H.code s.host a = some c) :
      Step (.start a) (H.setRunning s
        (.run c :: ((if H.isCall a then [.eret] else []) ++ H.running s)))
  | interrupt {a : α} {c : Code α ι} (hm : H.masked s = false)
      (hc : H.handler s.host a = some c) :
      Step (.interrupt a) (H.setRunning s (.run c :: .eret :: H.running s))

end Defs

variable {H : Host σ α ι} {s s' : State σ α ι} {m : Move α} {K : List (Frame α ι)}

@[simp]
theorem running_setRunning : H.running (H.setRunning s K) = K := Function.update_self ..

theorem taken_setRunning : (H.setRunning s K).taken = s.taken := rfl

theorem stack_setRunning_of_ne {t : Nat} (ht : t ≠ H.current s.host) :
    (H.setRunning s K).stack t = s.stack t := Function.update_of_ne ht ..

@[simp]
theorem setRunning_setRunning (K' : List (Frame α ι)) :
    H.setRunning (H.setRunning s K) K' = H.setRunning s K' := by
  rw [setRunning, setRunning, setRunning]
  dsimp only
  rw [Function.update_idem]

theorem setRunning_running (hs : H.running s = K) : H.setRunning s K = s := by
  subst hs
  rw [setRunning, running, Function.update_eq_self]

theorem running_setTaken [DecidableEq ι] (l : ι) (b : Bool) :
    H.running (s.setTaken l b) = H.running s := rfl

theorem between_cases (h : H.between s = true) :
    H.running s = if H.inCall s.host (H.current s.host) then [.eret] else [] := by
  rw [between] at h
  split at h
  · rename_i hs
    rw [hs, if_neg (by simpa using h)]
  · rename_i hs
    rw [hs, if_pos h]
  · cases h

variable [DecidableEq ι]

theorem exec_cases {b : Bool} (h : H.exec s b = some s') : H.Step s (.exec b) s' := by
  rw [exec] at h
  split at h
  · cases h
  · rename_i hs
    cases h
    exact .unfold hs .skip
  · rename_i hs
    obtain ⟨m, hm, rfl⟩ := Option.map_eq_some_iff.mp h
    exact .act hs hm
  · rename_i hs
    split_ifs at h with hl
    cases h
    exact .take hs (by simpa using hl)
  · rename_i hs
    cases h
    exact .unfold hs (.masked _)
  · rename_i hs
    cases h
    exact .unfold hs (.seq _ _)
  · rename_i hs
    cases h
    cases b with
    | true => exact .unfold hs (.left _ _)
    | false => exact .unfold hs (.right _ _)
  · rename_i hs
    cases h
    cases b with
    | true => exact .unfold hs (.again _)
    | false => exact .unfold hs (.leave _)
  · rename_i l a K hs
    cases a with
    | none =>
      cases h
      exact .drop hs
    | some a =>
      obtain ⟨m, hm, rfl⟩ := Option.map_eq_some_iff.mp h
      exact .dropAct hs hm
  · rename_i hs
    cases h
    exact .unfold hs .restore
  · rename_i hs
    split_ifs at h
    cases h
    exact .unfold hs .eret

theorem step_cases (h : H.system.step s m = some s') : H.Step s m s' := by
  cases m with
  | start a =>
    have h' : (if H.between s then _ else none) = some s' := h
    by_cases hb : H.between s = true
    · rw [if_pos hb] at h'
      obtain ⟨c, hc, rfl⟩ := Option.map_eq_some_iff.mp h'
      exact .start hb hc
    · rw [if_neg hb] at h'
      cases h'
  | interrupt a =>
    have h' : (if H.masked s then none else _) = some s' := h
    split_ifs at h' with hm
    obtain ⟨c, hc, rfl⟩ := Option.map_eq_some_iff.mp h'
    exact .interrupt (by simpa using hm) hc
  | exec b => exact exec_cases h

/-- Who spins with interrupts masked is stuck: nothing can happen any more. -/
theorem Spins.stuck {l : ι} (h : H.Spins s l) (hmask : H.masked s = true) (m : Move α) :
    H.system.step s m = none := by
  obtain ⟨hl, c, a, K, hs⟩ := h
  cases m with
  | start a' =>
    have hb : H.between s = false := by rw [between, hs]
    show (if H.between s then _ else none) = none
    rw [hb]
    rfl
  | interrupt a' => exact if_pos hmask
  | exec b =>
    show H.exec s b = none
    rw [exec, hs]
    exact if_pos hl

/-- Without its locks it is a run of the host. -/
theorem sys_of_reach {ok : State σ α ι → Move α → Prop} (h : H.system.Reach ok s) :
    H.sys.Reach System.Free s.host := by
  induction h with
  | init h => exact .init h.1
  | step _ _ hs ih =>
    cases step_cases hs with
    | act _ hm => exact ih.step trivial hm
    | dropAct _ hm => exact ih.step trivial hm
    | unfold => exact ih
    | take => exact ih
    | drop => exact ih
    | start => exact ih
    | interrupt => exact ih

end Host

/-! ## Who holds a lock -/

section Exclusive

variable {σ α ι : Type} [DecidableEq ι] {H : Host σ α ι} {s s' : State σ α ι} {m : Move α} {l : ι}
  {K : List (Frame α ι)}

theorem countP_isGuard_run (l : ι) (c : Code α ι) (K : List (Frame α ι)) :
    (Frame.run c :: K).countP (·.isGuard l) = K.countP (·.isGuard l) := rfl

theorem countP_isGuard_self (l : ι) (a : Option α) (K : List (Frame α ι)) :
    (Frame.release l a :: K).countP (·.isGuard l) = K.countP (·.isGuard l) + 1 :=
  List.countP_cons_of_pos (p := Frame.isGuard l) (decide_eq_true rfl)

theorem countP_isGuard_of_ne {l' : ι} (h : l ≠ l') (a : Option α) (K : List (Frame α ι)) :
    (Frame.release l' a :: K).countP (·.isGuard l) = K.countP (·.isGuard l) :=
  List.countP_cons_of_neg (p := Frame.isGuard l) fun hl ↦ h (of_decide_eq_true hl).symm

theorem Frame.Unfolds.countP_isGuard {f : Frame α ι} {fs : List (Frame α ι)} (hf : f.Unfolds fs)
    (l : ι) (K : List (Frame α ι)) :
    (fs ++ K).countP (·.isGuard l) = (f :: K).countP (·.isGuard l) := by
  cases hf <;> rfl

namespace State.Exclusive

theorem congr (h : s.Exclusive l) (htaken : s'.taken l = s.taken l)
    (hguards : ∀ t, s'.guards l t = s.guards l t) : s'.Exclusive l := by
  rw [Exclusive] at *
  rw [htaken]
  split_ifs at * with hl
  · obtain ⟨t, ht, hother⟩ := h
    exact ⟨t, (hguards t).trans ht, fun t' ht' ↦ (hguards t').trans (hother t' ht')⟩
  · exact fun t ↦ (hguards t).trans (h t)

/-- The running task goes on with as many guards as it has. -/
theorem goOn (h : s.Exclusive l) (htaken : s'.taken l = s.taken l)
    (hstack : s'.stack = (H.setRunning s K).stack)
    (hK : K.countP (·.isGuard l) = (H.running s).countP (·.isGuard l)) : s'.Exclusive l := by
  refine h.congr htaken fun t ↦ ?_
  rw [guards, guards, hstack]
  by_cases ht : t = H.current s.host
  · subst ht
    exact (congrArg _ (Function.update_self ..)).trans hK
  · rw [Host.stack_setRunning_of_ne ht]

/-- It takes the lock, which is free. -/
theorem take (h : s.Exclusive l) (hl : s.taken l = false) (htaken : s'.taken l = true)
    (hstack : s'.stack = (H.setRunning s K).stack)
    (hK : K.countP (·.isGuard l) = (H.running s).countP (·.isGuard l) + 1) : s'.Exclusive l := by
  rw [Exclusive, hl, if_neg Bool.false_ne_true] at h
  rw [Exclusive, htaken, if_pos rfl]
  refine ⟨H.current s.host, ?_, fun t ht ↦ ?_⟩
  · rw [guards, hstack]
    refine (congrArg _ (Function.update_self ..)).trans (hK.trans ?_)
    rw [show (H.running s).countP (·.isGuard l) = 0 from h _]
  · rw [guards, hstack, Host.stack_setRunning_of_ne ht]
    exact h t

/-- It drops its guard. -/
theorem drop (h : s.Exclusive l) (htaken : s'.taken l = false)
    (hstack : s'.stack = (H.setRunning s K).stack)
    (hK : K.countP (·.isGuard l) + 1 = (H.running s).countP (·.isGuard l)) : s'.Exclusive l := by
  rw [Exclusive, htaken, if_neg Bool.false_ne_true]
  have hrun : 0 < s.guards l (H.current s.host) := Nat.lt_of_lt_of_eq (Nat.succ_pos _) hK
  -- the guard it drops is the only one
  rw [Exclusive] at h
  split_ifs at h with hl
  · obtain ⟨t₀, ht₀, hother⟩ := h
    have hcur : H.current s.host = t₀ := by
      by_contra hne
      rw [hother _ hne] at hrun
      exact absurd hrun (Nat.lt_irrefl 0)
    rw [← hcur] at ht₀ hother
    intro t
    rw [guards, hstack]
    by_cases ht : t = H.current s.host
    · subst ht
      refine (congrArg _ (Function.update_self ..)).trans ?_
      have hone : (H.running s).countP (·.isGuard l) = 1 := ht₀
      omega
    · rw [Host.stack_setRunning_of_ne ht]
      exact hother t ht
  · rw [h] at hrun
    exact absurd hrun (Nat.lt_irrefl 0)

/-- The guard of `l'` is dropped. -/
theorem release {l' : ι} {a : Option α} (h : s.Exclusive l)
    (hs : H.running s = .release l' a :: K) (htaken : s'.taken = (s.setTaken l' false).taken)
    (hstack : s'.stack = (H.setRunning s K).stack) : s'.Exclusive l := by
  by_cases he : l = l'
  · subst he
    refine h.drop (by rw [htaken, taken_setTaken_self]) hstack ?_
    rw [hs, countP_isGuard_self]
  · refine h.goOn (by rw [htaken, taken_setTaken_of_ne _ he]) hstack ?_
    rw [hs, countP_isGuard_of_ne he]

theorem step (h : s.Exclusive l) (hs : H.Step s m s') : s'.Exclusive l := by
  cases hs with
  | @unfold _ f fs K hs hf => exact h.goOn rfl rfl (by rw [hs, hf.countP_isGuard])
  | @take _ l' c a K hs hl =>
    by_cases he : l = l'
    · subst he
      refine h.take hl (taken_setTaken_self ..) rfl ?_
      rw [hs, countP_isGuard_run, countP_isGuard_self, countP_isGuard_run]
    · refine h.goOn (taken_setTaken_of_ne _ he _) rfl ?_
      rw [hs, countP_isGuard_run, countP_isGuard_of_ne he, countP_isGuard_run]
  | @act _ a m K hs hm =>
    exact h.goOn rfl rfl (by rw [hs, countP_isGuard_run])
  | @drop _ l' K hs => exact h.release hs rfl rfl
  | @dropAct _ l' a m K hs hm => exact h.release hs rfl rfl
  | @start a c hb hc =>
    refine h.goOn rfl rfl ?_
    rw [countP_isGuard_run, List.countP_append]
    split_ifs <;> exact Nat.zero_add _
  | @interrupt a c hm hc =>
    exact h.goOn rfl rfl (countP_isGuard_run ..)

end State.Exclusive

/-- **In every run a lock is held by one context at a time.** -/
theorem Host.exclusive_of_reach {ok : State σ α ι → Move α → Prop} (h : H.system.Reach ok s)
    (l : ι) : s.Exclusive l := by
  refine h.invariant (I := (State.Exclusive · l)) (fun s hs ↦ ?_)
    fun s m s' hI _ hs ↦ hI.step (step_cases hs)
  obtain ⟨-, hfree, hempty⟩ := hs
  rw [State.Exclusive, hfree l, if_neg Bool.false_ne_true]
  intro t
  rw [State.guards, hempty t]
  rfl

end Exclusive

/-! ## No lock is found taken -/

section Alone

variable {σ α ι : Type} [DecidableEq ι] {H : Host σ α ι} {s s' : State σ α ι} {m : Move α}
  {f g : Frame α ι} {fs K : List (Frame α ι)}

theorem Frame.Unfolds.mem (hf : f.Unfolds fs) (hg : g ∈ fs) :
    (∀ l, ¬ g.Guards l) ∧ (f.clear = true → g.clear = true) ∧
      (f.actless = true → g.actless = true) ∧ ∀ l, f.avoids l = true → g.avoids l = true := by
  have hrun : ∀ (c : Code α ι) (l : ι), ¬ Frame.Guards l (.run c) := by rintro c l ⟨a, ⟨⟩⟩
  have hrestore : ∀ l : ι, ¬ Frame.Guards l (.restore : Frame α ι) := by rintro l ⟨a, ⟨⟩⟩
  cases hf with
  | skip => cases hg
  | masked c =>
    rcases List.mem_pair.mp hg with rfl | rfl
    · exact ⟨hrun c, id, id, fun _ ↦ id⟩
    · exact ⟨hrestore, fun _ ↦ rfl, fun _ ↦ rfl, fun _ _ ↦ rfl⟩
  | seq c d =>
    simp only [Frame.clear, Frame.actless, Frame.avoids, Code.clear, Code.actless, Code.avoids,
      Bool.and_eq_true]
    rcases List.mem_pair.mp hg with rfl | rfl
    · exact ⟨hrun c, And.left, And.left, fun _ ↦ And.left⟩
    · exact ⟨hrun d, And.right, And.right, fun _ ↦ And.right⟩
  | left c d =>
    simp only [Frame.clear, Frame.actless, Frame.avoids, Code.clear, Code.actless, Code.avoids,
      Bool.and_eq_true]
    rw [List.mem_singleton.mp hg]
    exact ⟨hrun c, And.left, And.left, fun _ ↦ And.left⟩
  | right c d =>
    simp only [Frame.clear, Frame.actless, Frame.avoids, Code.clear, Code.actless, Code.avoids,
      Bool.and_eq_true]
    rw [List.mem_singleton.mp hg]
    exact ⟨hrun d, And.right, And.right, fun _ ↦ And.right⟩
  | again c =>
    rcases List.mem_pair.mp hg with rfl | rfl
    · exact ⟨hrun c, id, id, fun _ ↦ id⟩
    · exact ⟨hrun _, id, id, fun _ ↦ id⟩
  | leave c => cases hg
  | restore => cases hg
  | eret => cases hg

/-- What holds of the frames of a task: above a guard its lock is not taken, and nothing happens. -/
structure Tidy (K : List (Frame α ι)) : Prop where
  clear : ∀ f ∈ K, f.clear = true
  above : K.Pairwise fun f g ↦ ∀ l, g.Guards l → f.actless = true ∧ f.avoids l = true

namespace Tidy

theorem of_guardless (hc : ∀ f ∈ K, f.clear = true) (hg : ∀ f ∈ K, ∀ l, ¬ f.Guards l) : Tidy K :=
  ⟨hc, List.pairwise_of_forall_mem_list fun _ _ g hK l hl ↦ absurd hl (hg g hK l)⟩

theorem tail (h : Tidy (f :: K)) : Tidy K :=
  ⟨fun g hg ↦ h.clear g (List.mem_cons_of_mem f hg), (List.pairwise_cons.mp h.above).2⟩

theorem unfold (h : Tidy (f :: K)) (hf : f.Unfolds fs) : Tidy (fs ++ K) := by
  obtain ⟨habove, htail⟩ := List.pairwise_cons.mp h.above
  refine ⟨fun g hg ↦ ?_, List.pairwise_append.mpr ⟨?_, htail, fun g hg g' hg' l hl ↦ ?_⟩⟩
  · rcases List.mem_append.mp hg with hg | hg
    · exact (hf.mem hg).2.1 (h.clear f List.mem_cons_self)
    · exact h.tail.clear g hg
  · exact List.pairwise_of_forall_mem_list fun _ _ g hg l hl ↦ absurd hl ((hf.mem hg).1 l)
  · obtain ⟨hact, hav⟩ := habove g' hg' l hl
    exact ⟨(hf.mem hg).2.2.1 hact, (hf.mem hg).2.2.2 l hav⟩

theorem take {l : ι} {c : Code α ι} {a : Option α} (h : Tidy (.run (.locked l c a) :: K)) :
    Tidy (.run c :: .release l a :: K) := by
  obtain ⟨habove, htail⟩ := List.pairwise_cons.mp h.above
  have hclear := h.clear _ List.mem_cons_self
  rw [Frame.clear, Code.clear, Bool.and_eq_true, Bool.and_eq_true] at hclear
  obtain ⟨⟨hclear, hact⟩, hav⟩ := hclear
  -- what holds of the section above a guard further down holds of its body and of its own guard
  have hbelow : ∀ g ∈ K, ∀ l', g.Guards l' →
      (a.isNone = true ∧ c.actless = true) ∧ l ≠ l' ∧ c.avoids l' = true := by
    intro g hg l' hl'
    obtain ⟨h₁, h₂⟩ := habove g hg l' hl'
    rw [Frame.actless, Code.actless, Bool.and_eq_true] at h₁
    rw [Frame.avoids, Code.avoids, Bool.and_eq_true, decide_eq_true_iff] at h₂
    exact ⟨h₁, h₂⟩
  refine ⟨fun g hg ↦ ?_, List.pairwise_cons.mpr ⟨fun g hg l' hl' ↦ ?_, List.pairwise_cons.mpr
    ⟨fun g hg l' hl' ↦ ?_, htail⟩⟩⟩
  · rcases List.mem_cons.mp hg with rfl | hg
    · exact hclear
    · rcases List.mem_cons.mp hg with rfl | hg
      · rfl
      · exact h.tail.clear g hg
  · rcases List.mem_cons.mp hg with rfl | hg
    · obtain ⟨a', ha'⟩ := hl'
      cases ha'
      exact ⟨hact, hav⟩
    · obtain ⟨h₁, h₂⟩ := hbelow g hg l' hl'
      exact ⟨h₁.2, h₂.2⟩
  · obtain ⟨h₁, h₂⟩ := hbelow g hg l' hl'
    exact ⟨h₁.1, decide_eq_true h₂.1⟩

/-- Below a frame with which something happens there is no guard. -/
theorem guardless (h : Tidy (f :: K)) (hf : f.actless = false) : ∀ g ∈ K, ∀ l, ¬ g.Guards l := by
  intro g hg l hl
  have hact := ((List.pairwise_cons.mp h.above).1 g hg l hl).1
  rw [hf] at hact
  cases hact

end Tidy

/-- The code of the host keeps to what is asked of code. -/
def Host.IsClear (H : Host σ α ι) : Prop :=
  ∀ m a c, H.code m a = some c ∨ H.handler m a = some c → c.clear = true

/-- **Only the running context holds locks**: the other tasks have no guards to drop, and for every
flag that is up the running task has one. -/
structure Host.Alone (H : Host σ α ι) (s : State σ α ι) : Prop where
  tidy : ∀ t, Tidy (s.stack t)
  others : ∀ t, t ≠ H.current s.host → ∀ f ∈ s.stack t, ∀ l, ¬ f.Guards l
  flag : ∀ l, s.taken l = true → ∃ f ∈ H.running s, f.Guards l

namespace Host.Alone

/-- The running task goes on with other frames. -/
theorem goOn (h : H.Alone s) (hK : Tidy K) (hhost : s'.host = s.host)
    (hstack : s'.stack = (H.setRunning s K).stack)
    (hflag : ∀ l, s'.taken l = true → ∃ f ∈ K, f.Guards l) : H.Alone s' := by
  have hrun : s'.stack (H.current s.host) = K := by
    rw [hstack]
    exact Function.update_self ..
  have hother : ∀ t, t ≠ H.current s.host → s'.stack t = s.stack t :=
    fun t ht ↦ hstack ▸ stack_setRunning_of_ne ht
  refine ⟨fun t ↦ ?_, fun t ht ↦ ?_, fun l hl ↦ ?_⟩
  · by_cases ht : t = H.current s.host
    · rwa [ht, hrun]
    · rw [hother t ht]
      exact h.tidy t
  · rw [hhost] at ht
    rw [hother t ht]
    exact h.others t ht
  · rw [Host.running, hhost, hrun]
    exact hflag l hl

/-- Something happens, and another task may run. -/
theorem switch (h : H.Alone s) (hK : Tidy K) (hguard : ∀ f ∈ K, ∀ l, ¬ f.Guards l)
    (hstack : s'.stack = (H.setRunning s K).stack) (hfree : ∀ l, s'.taken l = false) :
    H.Alone s' := by
  have hall : ∀ t, Tidy (s'.stack t) ∧ ∀ f ∈ s'.stack t, ∀ l, ¬ f.Guards l := by
    intro t
    rw [hstack]
    show Tidy (Function.update s.stack _ K t) ∧ ∀ f ∈ Function.update s.stack _ K t, _
    by_cases ht : t = H.current s.host
    · rw [ht, Function.update_self]
      exact ⟨hK, hguard⟩
    · rw [Function.update_of_ne ht]
      exact ⟨h.tidy t, h.others t ht⟩
  refine ⟨fun t ↦ (hall t).1, fun t _ ↦ (hall t).2, fun l hl ↦ ?_⟩
  rw [hfree l] at hl
  cases hl

/-- Frames are put on top of ones without a guard. -/
theorem push (h : H.Alone s) (hguard : ∀ f ∈ H.running s, ∀ l, ¬ f.Guards l)
    (hfs : ∀ f ∈ fs, f.clear = true ∧ ∀ l, ¬ f.Guards l) :
    H.Alone (H.setRunning s (fs ++ H.running s)) := by
  refine h.goOn (.of_guardless (fun f hf ↦ ?_) fun f hf ↦ ?_) rfl rfl fun l hl ↦ ?_
  · rcases List.mem_append.mp hf with hf | hf
    · exact (hfs f hf).1
    · exact (h.tidy _).clear f hf
  · rcases List.mem_append.mp hf with hf | hf
    · exact (hfs f hf).2
    · exact hguard f hf
  · obtain ⟨f, hf, hg⟩ := h.flag l hl
    exact absurd hg (hguard f hf l)

/-- The guard for a flag that is up is the next frame, or below it. -/
theorem flag_cons (h : H.Alone s) (hs : H.running s = f :: K) {l : ι} (hl : s.taken l = true) :
    f.Guards l ∨ ∃ g ∈ K, g.Guards l := by
  obtain ⟨g, hg, hgl⟩ := h.flag l hl
  rw [hs] at hg
  rcases List.mem_cons.mp hg with rfl | hg
  · exact .inl hgl
  · exact .inr ⟨g, hg, hgl⟩

theorem step (hH : H.IsClear) (h : H.Alone s) (hok : H.Undisturbed s m) (hs : H.Step s m s') :
    H.Alone s' := by
  have hrun : ∀ (c : Code α ι) (l : ι), ¬ Frame.Guards l (.run c) := by rintro c l ⟨a, ⟨⟩⟩
  have heret : ∀ l : ι, ¬ Frame.Guards l (.eret : Frame α ι) := by rintro l ⟨a, ⟨⟩⟩
  have htidy : ∀ {f : Frame α ι} {K : List (Frame α ι)}, H.running s = f :: K → Tidy (f :: K) :=
    fun hs ↦ hs ▸ h.tidy _
  cases hs with
  | @unfold _ f fs K hs hf =>
    refine h.goOn ((htidy hs).unfold hf) rfl rfl fun l hl ↦ ?_
    rcases h.flag_cons hs hl with ⟨a, rfl⟩ | ⟨g, hg, hgl⟩
    · cases hf
    · exact ⟨g, List.mem_append_right fs hg, hgl⟩
  | @take _ l c a K hs hl =>
    refine h.goOn (htidy hs).take rfl rfl fun l' hl' ↦ ?_
    by_cases he : l' = l
    · exact ⟨.release l a, List.mem_cons_of_mem _ List.mem_cons_self, a, by rw [he]⟩
    · rw [State.taken_setTaken_of_ne _ he] at hl'
      rcases h.flag_cons hs hl' with hgl | ⟨g, hg, hgl⟩
      · exact absurd hgl (hrun _ l')
      · exact ⟨g, List.mem_cons_of_mem _ (List.mem_cons_of_mem _ hg), hgl⟩
  | @act _ a m K hs hm =>
    have hguard := (htidy hs).guardless rfl
    refine h.switch (htidy hs).tail hguard rfl fun l ↦ Bool.not_eq_true _ ▸ fun hl ↦ ?_
    rcases h.flag_cons hs hl with hgl | ⟨g, hg, hgl⟩
    · exact hrun _ l hgl
    · exact hguard g hg l hgl
  | @drop _ l K hs =>
    refine h.goOn (htidy hs).tail rfl rfl fun l' hl' ↦ ?_
    have he : l' ≠ l := by
      rintro rfl
      rw [State.taken_setTaken_self] at hl'
      cases hl'
    rw [State.taken_setTaken_of_ne _ he] at hl'
    rcases h.flag_cons hs hl' with ⟨a, ha⟩ | hK
    · cases ha
      exact absurd rfl he
    · exact hK
  | @dropAct _ l a m K hs hm =>
    have hguard := (htidy hs).guardless rfl
    refine h.switch (htidy hs).tail hguard rfl fun l' ↦ ?_
    show (State.setTaken _ l false).taken l' = false
    by_cases he : l' = l
    · rw [he, State.taken_setTaken_self]
    · rw [State.taken_setTaken_of_ne _ he]
      refine Bool.not_eq_true _ ▸ fun hl' ↦ ?_
      rcases h.flag_cons hs hl' with ⟨a', ha'⟩ | ⟨g, hg, hgl⟩
      · cases ha'
        exact he rfl
      · exact hguard g hg l' hgl
  | @start a c hb hc =>
    have hempty : ∀ f ∈ H.running s, ∀ l, ¬ f.Guards l := by
      intro f hf
      rw [between_cases hb] at hf
      split_ifs at hf
      · rw [List.mem_singleton.mp hf]
        exact heret
      · cases hf
    show H.Alone (H.setRunning s
      ((.run c :: if H.isCall a then [.eret] else []) ++ H.running s))
    refine h.push hempty fun f hf ↦ ?_
    rcases List.mem_cons.mp hf with rfl | hf
    · exact ⟨hH _ _ _ (.inl hc), hrun c⟩
    · split_ifs at hf
      · rw [List.mem_singleton.mp hf]
        exact ⟨rfl, heret⟩
      · cases hf
  | @interrupt a c hm hc =>
    show H.Alone (H.setRunning s ([.run c, .eret] ++ H.running s))
    refine h.push (hok a rfl) fun f hf ↦ ?_
    rcases List.mem_cons.mp hf with rfl | hf
    · exact ⟨hH _ _ _ (.inr hc), hrun c⟩
    · rw [List.mem_singleton.mp hf]
      exact ⟨rfl, heret⟩

/-- The running context finds no lock taken. -/
theorem not_spins (h : H.Alone s) (l : ι) : ¬ H.Spins s l := by
  rintro ⟨hl, c, a, K, hs⟩
  have htidy : Tidy (.run (.locked l c a) :: K) := hs ▸ h.tidy _
  rcases h.flag_cons hs hl with ⟨a', ⟨⟩⟩ | ⟨g, hg, hgl⟩
  have hav := ((List.pairwise_cons.mp htidy.above).1 g hg l hgl).2
  rw [Frame.avoids, Code.avoids, Bool.and_eq_true, decide_eq_true_iff] at hav
  exact hav.1 rfl

/-- No context that does not run holds a lock. -/
theorem not_heldBySuspended (h : H.Alone s) (l : ι) : ¬ H.HeldBySuspended s l := by
  rintro (⟨t, f, ht, hf, hl⟩ | ⟨K, K', f, hs, hf, hl⟩)
  · exact h.others t ht f hf l hl
  · have htidy : Tidy (K ++ .eret :: K') := hs ▸ h.tidy _
    have hbelow := (List.pairwise_append.mp htidy.above).2.1
    have hact := ((List.pairwise_cons.mp hbelow).1 f hf l hl).1
    cases hact

end Host.Alone

/-- **In an undisturbed run only the running context holds locks.** -/
theorem Host.alone_of_reach (hH : H.IsClear) (h : H.system.Reach H.Undisturbed s) : H.Alone s := by
  refine h.invariant (fun s hs ↦ ?_) fun s m s' hI hok hs ↦ hI.step hH hok (step_cases hs)
  obtain ⟨-, hfree, hempty⟩ := hs
  refine ⟨fun t ↦ ?_, fun t _ f hf ↦ ?_, fun l hl ↦ ?_⟩
  · rw [hempty t]
    exact ⟨by rintro f ⟨⟩, .nil⟩
  · rw [hempty t] at hf
    cases hf
  · rw [hfree l] at hl
    cases hl

end Alone

/-! ## Runs of the host -/

section Lift

variable {σ α ι : Type} [DecidableEq ι] {H : Host σ α ι} {s : State σ α ι} {m : σ} {a : α} {l : ι}
  {f : Frame α ι} {fs K : List (Frame α ι)} {c : Code α ι} {ok : State σ α ι → Move α → Prop}

/-- All locks are free, and what a task has still to do needs none; the last thing it does inside a
system call is to return from it. -/
structure Host.Quiet (H : Host σ α ι) (s : State σ α ι) : Prop where
  free : ∀ l, s.taken l = false
  rest : ∀ t, ∀ f ∈ s.stack t, f.quiet = true
  calls : ∀ t, H.inCall s.host t = true → ∃ K, s.stack t = K ++ [.eret]

/-- What is asked of a host for its runs to be runs with locks: each action that is possible has
code on a way through which it happens, and a task gets into a system call by its own action. -/
structure Host.Covers (H : Host σ α ι) : Prop where
  init : ∀ m, H.sys.init m → ∀ t, H.inCall m t = false
  call : ∀ m a m' t, H.sys.Reach System.Free m → H.sys.step m a = some m' →
    H.inCall m' t = true → H.inCall m t = true ∨ t = H.current m ∧ H.isCall a = true
  commits : ∀ m a m', H.sys.Reach System.Free m → H.sys.step m a = some m' →
    (∃ c, H.code m a = some c ∧ c.commits a) ∨
    H.inCall m (H.current m) = false ∧ ∃ c, H.handler m a = some c ∧ c.commits a

namespace Host

/-- A lock that was free is free again. -/
theorem setRunning_taken (hl : s.taken l = false) (K₁ K₂ : List (Frame α ι)) :
    H.setRunning ((H.setRunning ((H.setRunning s K₁).setTaken l true) K₂).setTaken l false) K =
      H.setRunning s K := by
  have htaken : Function.update (Function.update s.taken l true) l false = s.taken := by
    rw [Function.update_idem, ← hl, Function.update_eq_self]
  rw [setRunning, setRunning, setRunning, setRunning, State.setTaken, State.setTaken]
  dsimp only
  rw [htaken, Function.update_idem, Function.update_idem]

/-- The running task begins an action. -/
theorem starts (h : H.system.Reach ok s) (hok : ok s (.start a))
    (hs : H.running s = if H.inCall s.host (H.current s.host) then [.eret] else [])
    (hc : H.code s.host a = some c) :
    H.system.Reach ok (H.setRunning s
      (.run c :: ((if H.isCall a then [.eret] else []) ++ H.running s))) := by
  have hbetween : H.between s = true := by
    rw [between, hs]
    by_cases hin : H.inCall s.host (H.current s.host) = true
    · rw [if_pos hin]
      exact hin
    · rw [if_neg hin]
      rw [Bool.not_eq_true] at hin
      show (!H.inCall s.host (H.current s.host)) = true
      rw [hin]
      rfl
  refine h.step hok (?_ : H.move s (.start a) = _)
  rw [move, if_pos hbetween, hc, Option.map_some]

/-- An interrupt comes. -/
theorem interrupts (h : H.system.Reach ok s) (hok : ok s (.interrupt a)) (hm : H.masked s = false)
    (hc : H.handler s.host a = some c) :
    H.system.Reach ok (H.setRunning s (.run c :: .eret :: H.running s)) := by
  refine h.step hok (?_ : H.move s (.interrupt a) = _)
  rw [move, hm, if_neg Bool.false_ne_true, hc, Option.map_some]

theorem free_of_avoids {a : Option α}
    (hfree : ∀ l', s.taken l' = true → (Code.locked l c a).avoids l' = true) :
    s.taken l = false := by
  refine Bool.not_eq_true _ ▸ fun hl ↦ ?_
  have hav := hfree l hl
  rw [Code.avoids, Bool.and_eq_true, decide_eq_true_iff] at hav
  exact hav.1 rfl

variable (hexec : ∀ s b, ok s (.exec b))
include hexec

theorem unfolds (h : H.system.Reach ok s) (hs : H.running s = f :: K) (hf : f.Unfolds fs)
    (hret : f = .eret → H.inCall s.host (H.current s.host) = true → K ≠ []) :
    H.system.Reach ok (H.setRunning s (fs ++ K)) := by
  have hstep : ∃ b, H.exec s b = some (H.setRunning s (fs ++ K)) := by
    cases hf with
    | left c d => exact ⟨true, by rw [exec, hs]; rfl⟩
    | right c d => exact ⟨false, by rw [exec, hs]; rfl⟩
    | again c => exact ⟨true, by rw [exec, hs]; rfl⟩
    | leave c => exact ⟨false, by rw [exec, hs]; rfl⟩
    | eret =>
      refine ⟨true, ?_⟩
      rw [exec, hs]
      dsimp only
      rw [if_neg, List.nil_append]
      rw [Bool.and_eq_true, List.isEmpty_iff]
      exact fun h ↦ hret rfl h.1 h.2
    | _ => exact ⟨true, by rw [exec, hs]; rfl⟩
  obtain ⟨b, hb⟩ := hstep
  exact h.step (hexec s b) hb

theorem takes {a : Option α} (h : H.system.Reach ok s)
    (hs : H.running s = .run (.locked l c a) :: K) (hl : s.taken l = false) :
    H.system.Reach ok ((H.setRunning s (.run c :: .release l a :: K)).setTaken l true) := by
  refine h.step (hexec s true) (?_ : H.exec s true = _)
  rw [exec, hs]
  dsimp only
  rw [if_neg (by rw [hl]; exact Bool.false_ne_true)]

theorem performs {a : Option α} {s' : State σ α ι} (h : H.system.Reach ok s)
    (hs : H.running s = .release l a :: K) (hp : H.perform (s.setTaken l false) K a = some s') :
    H.system.Reach ok s' := by
  refine h.step (hexec s true) (?_ : H.exec s true = _)
  rw [exec, hs]
  exact hp

/-- Code is run to its end on a way without locks. -/
theorem silently (hc : c.silent = true) (h : H.system.Reach ok s) (hs : H.running s = .run c :: K) :
    H.system.Reach ok (H.setRunning s K) := by
  induction c generalizing s K with
  | skip => exact unfolds hexec h hs .skip (by rintro ⟨⟩)
  | act a => cases hc
  | locked l c a => cases hc
  | masked c ih =>
    have h₁ := unfolds hexec h hs (.masked c) (by rintro ⟨⟩)
    have h₂ := unfolds hexec (ih hc h₁ running_setRunning) running_setRunning .restore
      (by rintro ⟨⟩)
    rwa [setRunning_setRunning, setRunning_setRunning] at h₂
  | seq c d ihc ihd =>
    rw [Code.silent, Bool.and_eq_true] at hc
    have h₁ := unfolds hexec h hs (.seq c d) (by rintro ⟨⟩)
    have h₂ := ihd hc.2 (ihc hc.1 h₁ running_setRunning) running_setRunning
    rwa [setRunning_setRunning, setRunning_setRunning] at h₂
  | either c d ihc ihd =>
    rw [Code.silent, Bool.or_eq_true] at hc
    rcases hc with hc | hd
    · have h₁ := ihc hc (unfolds hexec h hs (.left c d) (by rintro ⟨⟩)) running_setRunning
      rwa [setRunning_setRunning] at h₁
    · have h₁ := ihd hd (unfolds hexec h hs (.right c d) (by rintro ⟨⟩)) running_setRunning
      rwa [setRunning_setRunning] at h₁
  | loop c ih => exact unfolds hexec h hs (.leave c) (by rintro ⟨⟩)

/-- Code is run to its end on a way on which nothing happens, the locks it takes being free. -/
theorem passing (hc : c.passes = true) (h : H.system.Reach ok s) (hs : H.running s = .run c :: K)
    (hfree : ∀ l, s.taken l = true → c.avoids l = true) :
    H.system.Reach ok (H.setRunning s K) := by
  induction c generalizing s K with
  | skip => exact unfolds hexec h hs .skip (by rintro ⟨⟩)
  | act a => cases hc
  | locked l c a =>
    rw [Code.passes, Bool.and_eq_true, Option.isNone_iff_eq_none] at hc
    obtain ⟨rfl, hc⟩ := hc
    have hl := free_of_avoids hfree
    have h₁ := silently hexec hc (takes hexec h hs hl)
      ((running_setTaken ..).trans running_setRunning)
    have h₂ := performs hexec h₁ running_setRunning rfl
    rwa [setRunning_taken hl] at h₂
  | masked c ih =>
    have h₁ := ih hc (unfolds hexec h hs (.masked c) (by rintro ⟨⟩)) running_setRunning hfree
    have h₂ := unfolds hexec h₁ running_setRunning .restore (by rintro ⟨⟩)
    rwa [setRunning_setRunning, setRunning_setRunning] at h₂
  | seq c d ihc ihd =>
    rw [Code.passes, Bool.and_eq_true] at hc
    simp only [Code.avoids, Bool.and_eq_true] at hfree
    have h₁ := ihc hc.1 (unfolds hexec h hs (.seq c d) (by rintro ⟨⟩)) running_setRunning
      fun l hl ↦ (hfree l hl).1
    have h₂ := ihd hc.2 h₁ running_setRunning fun l hl ↦ (hfree l hl).2
    rwa [setRunning_setRunning, setRunning_setRunning] at h₂
  | either c d ihc ihd =>
    rw [Code.passes, Bool.or_eq_true] at hc
    simp only [Code.avoids, Bool.and_eq_true] at hfree
    rcases hc with hc | hd
    · have h₁ := ihc hc (unfolds hexec h hs (.left c d) (by rintro ⟨⟩)) running_setRunning
        fun l hl ↦ (hfree l hl).1
      rwa [setRunning_setRunning] at h₁
    · have h₁ := ihd hd (unfolds hexec h hs (.right c d) (by rintro ⟨⟩)) running_setRunning
        fun l hl ↦ (hfree l hl).2
      rwa [setRunning_setRunning] at h₁
  | loop c ih => exact unfolds hexec h hs (.leave c) (by rintro ⟨⟩)

/-- Code is run up to its action, the locks it takes being free; what is left of it needs none. -/
theorem committing (hc : c.commits a) (h : H.system.Reach ok s) (hs : H.running s = .run c :: K)
    (hfree : ∀ l, s.taken l = true → c.avoids l = true) (hm : H.sys.step s.host a = some m) :
    ∃ K', (∀ f ∈ K', f.quiet = true) ∧
      H.system.Reach ok ((H.setRunning s (K' ++ K)).setHost m) := by
  induction c generalizing s K with
  | skip => cases hc
  | act a' =>
    cases hc
    refine ⟨[], by rintro f ⟨⟩, h.step (hexec s true) (?_ : H.exec s true = _)⟩
    rw [exec, hs]
    dsimp only [perform]
    rw [hm]
    rfl
  | locked l c a' =>
    obtain ⟨rfl, hc⟩ := hc
    have hl := free_of_avoids hfree
    have h₁ := silently hexec hc (takes hexec h hs hl)
      ((running_setTaken ..).trans running_setRunning)
    refine ⟨[], by rintro f ⟨⟩, performs hexec h₁ running_setRunning ?_⟩
    rw [perform, setRunning_taken hl]
    show (H.sys.step s.host a).map _ = _
    rw [hm]
    rfl
  | masked c ih =>
    obtain ⟨K', hK', h'⟩ := ih hc (unfolds hexec h hs (.masked c) (by rintro ⟨⟩))
      running_setRunning hfree hm
    refine ⟨K' ++ [.restore], fun f hf ↦ ?_, ?_⟩
    · rcases List.mem_append.mp hf with hf | hf
      · exact hK' f hf
      · rw [List.mem_singleton.mp hf]
        rfl
    · rw [setRunning_setRunning] at h'
      rwa [List.append_assoc]
  | seq c d ihc ihd =>
    simp only [Code.avoids, Bool.and_eq_true] at hfree
    have h₁ := unfolds hexec h hs (.seq c d) (by rintro ⟨⟩)
    rcases hc with ⟨hpass, hc⟩ | ⟨hc, hsilent⟩
    · have h₂ := passing hexec hpass h₁ running_setRunning fun l hl ↦ (hfree l hl).1
      obtain ⟨K', hK', h'⟩ := ihd hc h₂ running_setRunning (fun l hl ↦ (hfree l hl).2) hm
      rw [setRunning_setRunning, setRunning_setRunning] at h'
      exact ⟨K', hK', h'⟩
    · obtain ⟨K', hK', h'⟩ := ihc hc h₁ running_setRunning (fun l hl ↦ (hfree l hl).1) hm
      refine ⟨K' ++ [.run d], fun f hf ↦ ?_, ?_⟩
      · rcases List.mem_append.mp hf with hf | hf
        · exact hK' f hf
        · rw [List.mem_singleton.mp hf]
          exact hsilent
      · rw [setRunning_setRunning] at h'
        rwa [List.append_assoc]
  | either c d ihc ihd =>
    simp only [Code.avoids, Bool.and_eq_true] at hfree
    rcases hc with hc | hd
    · obtain ⟨K', hK', h'⟩ := ihc hc (unfolds hexec h hs (.left c d) (by rintro ⟨⟩))
        running_setRunning (fun l hl ↦ (hfree l hl).1) hm
      rw [setRunning_setRunning] at h'
      exact ⟨K', hK', h'⟩
    · obtain ⟨K', hK', h'⟩ := ihd hd (unfolds hexec h hs (.right c d) (by rintro ⟨⟩))
        running_setRunning (fun l hl ↦ (hfree l hl).2) hm
      rw [setRunning_setRunning] at h'
      exact ⟨K', hK', h'⟩
  | loop c ih => cases hc

/-- Frames that need no lock are done with. -/
theorem flushes {K' : List (Frame α ι)} (hK' : ∀ f ∈ K', f.quiet = true)
    (h : H.system.Reach ok s) (hs : H.running s = K' ++ K)
    (hret : H.inCall s.host (H.current s.host) = true → K ≠ []) :
    H.system.Reach ok (H.setRunning s K) := by
  induction K' generalizing s with
  | nil => rwa [setRunning_running (by rwa [List.nil_append] at hs)]
  | cons f K' ih =>
    rw [List.forall_mem_cons] at hK'
    rw [List.cons_append] at hs
    have hne : f = .eret → H.inCall s.host (H.current s.host) = true → K' ++ K ≠ [] :=
      fun _ hin he ↦ hret hin (List.append_eq_nil_iff.mp he).2
    have h₁ : H.system.Reach ok (H.setRunning s (K' ++ K)) := by
      cases f with
      | run c => exact silently hexec hK'.1 h hs
      | release l a => cases hK'.1
      | restore => simpa only [List.nil_append] using unfolds hexec h hs .restore hne
      | eret => simpa only [List.nil_append] using unfolds hexec h hs .eret hne
    have h₂ := ih hK'.2 h₁ running_setRunning hret
    rwa [setRunning_setRunning] at h₂

/-- Between two actions, with no lock taken. -/
theorem Quiet.settles (hq : H.Quiet s) (h : H.system.Reach ok s) :
    H.system.Reach ok (H.setRunning s
      (if H.inCall s.host (H.current s.host) then [.eret] else [])) := by
  by_cases hin : H.inCall s.host (H.current s.host) = true
  · obtain ⟨K, hK⟩ := hq.calls _ hin
    rw [if_pos hin]
    exact flushes hexec (fun f hf ↦ hq.rest _ f (hK ▸ List.mem_append_left _ hf)) h hK
      fun _ ↦ List.cons_ne_nil _ _
  · rw [if_neg hin]
    exact flushes hexec (hq.rest _) h (List.append_nil _).symm fun h ↦ absurd h hin

omit [DecidableEq ι] hexec in
/-- After an action the locks are free, and what is left needs none. -/
theorem Quiet.after (hH : H.Covers) (hreach : H.sys.Reach System.Free s.host) (hq : H.Quiet s)
    (hm : H.sys.step s.host a = some m)
    (hK : ∀ f ∈ K, f.quiet = true)
    (hcall : H.inCall s.host (H.current s.host) = true ∨ H.isCall a = true →
      ∃ K', K = K' ++ [.eret]) : H.Quiet ((H.setRunning s K).setHost m) := by
  refine ⟨hq.free, fun t ↦ ?_, fun t ht ↦ ?_⟩
  · show ∀ f ∈ Function.update s.stack _ K t, _
    by_cases he : t = H.current s.host
    · rwa [he, Function.update_self]
    · rw [Function.update_of_ne he]
      exact hq.rest t
  · show ∃ K', Function.update s.stack _ K t = _
    have hlaw := hH.call _ a _ t hreach hm ht
    by_cases he : t = H.current s.host
    · rw [he, Function.update_self]
      refine hcall ?_
      rw [he] at hlaw
      exact hlaw.imp_right And.right
    · rw [Function.update_of_ne he]
      exact hq.calls t (hlaw.resolve_right fun h ↦ he h.1)

/-- An action of the host is taken with locks. -/
theorem Quiet.next (hH : H.Covers) (hstart : ∀ s a, ok s (.start a))
    (hirq : ∀ s a, H.running s = [] → ok s (.interrupt a)) (hq : H.Quiet s)
    (h : H.system.Reach ok s) (hm : H.sys.step s.host a = some m) :
    ∃ s', H.system.Reach ok s' ∧ s'.host = m ∧ H.Quiet s' := by
  have hreach := sys_of_reach h
  have h₁ := hq.settles hexec h
  obtain ⟨B, hB⟩ : ∃ B, B = if H.inCall s.host (H.current s.host) then [.eret] else
    ([] : List (Frame α ι)) := ⟨_, rfl⟩
  rw [← hB] at h₁
  have hquiet : ∀ f ∈ B, f.quiet = true := by
    intro f hf
    rw [hB] at hf
    split_ifs at hf
    · rw [List.mem_singleton.mp hf]
      rfl
    · cases hf
  have hfree : ∀ {c : Code α ι} (l : ι), s.taken l = true → c.avoids l = true := by
    intro c l hl
    rw [hq.free l] at hl
    cases hl
  rcases hH.commits _ a _ hreach hm with ⟨c, hc, hcommits⟩ | ⟨hin, c, hc, hcommits⟩
  · have h₂ := starts h₁ (hstart _ a) (running_setRunning.trans hB) hc
    rw [running_setRunning, setRunning_setRunning] at h₂
    obtain ⟨K', hK', h'⟩ := committing hexec hcommits h₂ running_setRunning hfree hm
    rw [setRunning_setRunning] at h'
    refine ⟨_, h', rfl, hq.after hH hreach hm (fun f hf ↦ ?_) fun hcall ↦ ?_⟩
    · rcases List.mem_append.mp hf with hf | hf
      · exact hK' f hf
      · rcases List.mem_append.mp hf with hf | hf
        · split_ifs at hf
          · rw [List.mem_singleton.mp hf]
            rfl
          · cases hf
        · exact hquiet f hf
    · by_cases hin : H.inCall s.host (H.current s.host) = true
      · rw [hB, if_pos hin, ← List.append_assoc]
        exact ⟨_, rfl⟩
      · rw [hB, if_neg hin, if_pos (hcall.resolve_left hin), List.append_nil]
        exact ⟨_, rfl⟩
  · rw [hin, if_neg Bool.false_ne_true] at hB
    subst hB
    have h₂ := interrupts h₁ (hirq _ a running_setRunning)
      (by rw [masked, running_setRunning]; rfl) hc
    rw [running_setRunning, setRunning_setRunning] at h₂
    obtain ⟨K', hK', h'⟩ := committing hexec hcommits h₂ running_setRunning hfree hm
    rw [setRunning_setRunning] at h'
    refine ⟨_, h', rfl, hq.after hH hreach hm (fun f hf ↦ ?_) fun _ ↦ ⟨_, rfl⟩⟩
    rcases List.mem_append.mp hf with hf | hf
    · exact hK' f hf
    · rw [List.mem_singleton.mp hf]
      rfl

/-- **Every run of the host is a run with locks**, whose interrupts come between two actions. -/
theorem lift (hH : H.Covers) (hstart : ∀ s a, ok s (.start a))
    (hirq : ∀ s a, H.running s = [] → ok s (.interrupt a)) {ok' : σ → α → Prop}
    (h : H.sys.Reach ok' m) : ∃ s, H.system.Reach ok s ∧ s.host = m ∧ H.Quiet s := by
  induction h with
  | @init m h =>
    refine ⟨{ host := m, taken := fun _ ↦ false, stack := fun _ ↦ [] },
      .init ⟨h, fun _ ↦ rfl, fun _ ↦ rfl⟩, rfl, fun _ ↦ rfl, by rintro t f ⟨⟩, fun t ht ↦ ?_⟩
    rw [show _ = false from hH.init m h t] at ht
    cases ht
  | step _ _ hs ih =>
    obtain ⟨s, hreach, rfl, hq⟩ := ih
    exact hq.next hexec hH hstart hirq hreach hs

end Host

end Lift

end Spinlock

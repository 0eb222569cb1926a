import Mathlib.Algebra.Group.Nat.Defs
import Mathlib.Tactic.Common

/-!
# The scheduler's table

The task table and the pure part of every scheduler operation.  Installing the next task's address
space and switching stacks is left to `Kernel.schedule`; what is here decides *which* task that
is.
-/

set_option autoImplicit false

namespace Jatuli

/-- The state of a task. -/
inductive TaskState
  | runnable
  | blocked
  | exited
deriving DecidableEq, Repr

/-- One entry of the task table.  (The saved stack pointer is not modelled here.) -/
structure Task where
  /-- Whether the task may run. -/
  state : TaskState
  /-- Tick at which a blocked task is woken by the timer. -/
  wakeAt : Nat
  /-- The process the task belongs to, `none` for a kernel task. -/
  process : Option Nat
  /-- The address space to install when the task runs; `none` leaves the live one in place. -/
  ttbr0 : Option Nat
deriving DecidableEq, Repr

/-- The task table and the index of the running task. -/
structure Scheduler where
  /-- All tasks ever spawned; entries are never removed. -/
  tasks : List Task
  /-- The running task. -/
  current : Nat
deriving DecidableEq, Repr

/-- `u64::MAX`, the `wake_at` of a task that only `wake` may wake. -/
def u64Max : Nat := 2 ^ 64 - 1

namespace Scheduler

/-- `tasks[i].state == Runnable` -/
def runnable (s : Scheduler) (i : Nat) : Bool := (s.tasks[i]?).any (·.state = .runnable)

/-- The search of `schedule`: the first runnable task after the current one in cyclic order, the
current one itself last; `current` if there is none at all. -/
def next (s : Scheduler) : Nat :=
  (((List.range s.tasks.length).map fun i ↦ (s.current + (i + 1)) % s.tasks.length).find?
    s.runnable).getD s.current

/-- The table after a call of `schedule`. -/
def schedule (s : Scheduler) : Scheduler := { s with current := s.next }

/-- The task at `current`. -/
def currentTask (s : Scheduler) : Option Task := s.tasks[s.current]?

/-- `current_process` -/
def currentProcess (s : Scheduler) : Option Nat := s.currentTask.bind (·.process)

/-- The table after a task is pushed by `spawn_inner`. -/
def spawnInner (s : Scheduler) (process ttbr0 : Option Nat) : Scheduler :=
  { s with tasks := s.tasks ++ [{ state := .runnable, wakeAt := 0, process, ttbr0 }] }

/-- The first half of `block_current`: mark the current task. -/
def markBlocked (s : Scheduler) : Scheduler :=
  { s with tasks := s.tasks.modify s.current fun t ↦
    { t with wakeAt := u64Max, state := .blocked } }

/-- The first half of `sleep_ticks`: mark the current task. -/
def markSleeping (s : Scheduler) (wakeAt : Nat) : Scheduler :=
  { s with tasks := s.tasks.modify s.current fun t ↦ { t with wakeAt, state := .blocked } }

/-- The first half of `task_exit`: mark the current task. -/
def markExited (s : Scheduler) : Scheduler :=
  { s with tasks := s.tasks.modify s.current fun t ↦ { t with state := .exited } }

/-- `wake`: make a blocked task runnable, and leave any other alone. -/
def wake (s : Scheduler) (task : Nat) : Scheduler :=
  { s with tasks := s.tasks.modify task fun t ↦
      if t.state = .blocked then { t with state := .runnable } else t }

/-- `wake_sleepers` -/
def wakeSleepers (s : Scheduler) (now : Nat) : Scheduler :=
  { s with tasks := s.tasks.map fun t ↦
      if t.state = .blocked ∧ t.wakeAt ≤ now then { t with state := .runnable } else t }

end Scheduler
end Jatuli

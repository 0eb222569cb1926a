import Jatuli.Lib.Cyclic
import Jatuli.Lib.Transition
import Jatuli.Scheduling

/-!
# Runs of the scheduler

The scheduler on its own: tasks that spawn, yield, block, sleep, wake one another and exit, and a
timer that ticks, in any order.  An operation first changes the table and then, unless it is a spawn
or a wakeup, calls `schedule`, which passes the processor on; the running task is the one that does
all of this, interrupts apart.

Three things are shown of all runs.  `schedule` goes round: between two turns of a task every other
task that is runnable all the time gets one (`round_robin_no_bypass`).  As long as `kmain` only
yields and spawns, the running task is always runnable, an exited task never runs again, and a task
that blocks or sleeps goes on only for the reasons it waits for (`tasks_return_when_woken`).  And
then it can go on: a task in `block_current` or `sleep_ticks` is runnable exactly when the call is
over (`waiting_runnable_iff`), so no wakeup is lost.  The timer looks at the sleepers when it ticks;
even `sleep_ticks(0)` waits for the next tick.
-/

set_option autoImplicit false

namespace Jatuli

/-- The task table and the tick count. -/
structure Tasking where
  sched : Scheduler
  ticks : Nat
deriving DecidableEq, Repr

/-- The operations of the scheduler. -/
inductive SchedAct
  /-- `spawn`, `spawn_user` -/
  | spawn (process ttbr0 : Option Nat)
  /-- `yield_now` -/
  | yieldNow
  /-- The timer interrupt: `on_tick`, then `tick`. -/
  | tick
  /-- `block_current` -/
  | blockCurrent
  /-- `sleep_ticks` -/
  | sleepTicks (n : Nat)
  /-- `wake` -/
  | wake (task : Nat)
  /-- `task_exit` -/
  | taskExit
deriving DecidableEq, Repr

/-- Whether the operation ends with a call of `schedule`. -/
def SchedAct.schedules : SchedAct → Bool
  | .spawn _ _ => false
  | .wake _ => false
  | _ => true

namespace Tasking

/-- What an operation does before it calls `schedule`; `none` where it panics. -/
def prepare (s : Tasking) : SchedAct → Option Tasking
  | .spawn process ttbr0 => some { s with sched := s.sched.spawnInner process ttbr0 }
  | .yieldNow => some s
  | .tick =>
    let now := (s.ticks + 1) % 2 ^ 64
    some { sched := s.sched.wakeSleepers now, ticks := now }
  | .blockCurrent => some { s with sched := s.sched.markBlocked }
  | .sleepTicks n =>
    if s.ticks + n < 2 ^ 64 then some { s with sched := s.sched.markSleeping (s.ticks + n) }
    else none
  | .wake task =>
    if task < s.sched.tasks.length then some { s with sched := s.sched.wake task } else none
  | .taskExit => some { s with sched := s.sched.markExited }

/-- A call of `schedule`. -/
def schedule (s : Tasking) : Tasking := { s with sched := s.sched.schedule }

/-- What an operation does. -/
def step (s : Tasking) (a : SchedAct) : Option Tasking :=
  (s.prepare a).map fun s ↦ if a.schedules then s.schedule else s

end Tasking

/-- The kernel's scheduler calls are those of the table. -/
theorem Kernel.schedule_sched (k : Kernel) : k.schedule.sched = k.sched.schedule := by
  rw [schedule_eq]
  rfl

/-! ## Going round -/

namespace Scheduler

variable {s : Scheduler} {u : Nat}

theorem runnable_lt (h : s.runnable u = true) : u < s.tasks.length := by
  obtain ⟨t, ht, -⟩ := runnable_iff.mp h
  exact (List.getElem?_eq_some_iff.mp ht).1

/-- The scan does not pass a runnable task. -/
theorem next_upTo (hc : s.current < s.tasks.length) (hu : s.runnable u = true) :
    Cyclic.UpTo s.current s.next u := by
  obtain ⟨x, hx, -, hup⟩ := Cyclic.find?_after hc (runnable_lt hu) hu
  have hnext : s.next = x := by
    rw [next, ← Cyclic.after, hx, Option.getD_some]
  rwa [hnext]

end Scheduler

/-- The processor has been with task `t`, and on its way round from there has not come to `u`. -/
def OnTheWay (t u c : Nat) : Prop := (t < u ∧ t ≤ c ∧ c < u) ∨ (u < t ∧ (t ≤ c ∨ c < u))

theorem OnTheWay.next {t u c x : Nat} (h : OnTheWay t u c) (hx : Cyclic.UpTo c x u) :
    x = u ∨ (OnTheWay t u x ∧ x ≠ t) := by
  rw [OnTheWay, Cyclic.UpTo] at *
  omega

namespace Tasking

variable {s s' : Tasking} {a : SchedAct}

/-- Before it schedules, an operation leaves the processor where it is and removes no task. -/
theorem prepare_kept (h : s.prepare a = some s') : s'.sched.current = s.sched.current ∧
    s.sched.tasks.length ≤ s'.sched.tasks.length := by
  cases a with
  | spawn process ttbr0 =>
    obtain rfl := Option.some.inj h
    refine ⟨rfl, ?_⟩
    rw [Scheduler.spawnInner, List.length_append]
    exact Nat.le_add_right _ _
  | yieldNow =>
    obtain rfl := Option.some.inj h
    exact ⟨rfl, le_refl _⟩
  | tick =>
    obtain rfl := Option.some.inj h
    exact ⟨rfl, (List.length_map ..).ge⟩
  | blockCurrent =>
    obtain rfl := Option.some.inj h
    exact ⟨rfl, (List.length_modify ..).ge⟩
  | sleepTicks n =>
    rw [prepare, Option.ite_none_right_eq_some] at h
    obtain rfl := Option.some.inj h.2
    exact ⟨rfl, (List.length_modify ..).ge⟩
  | wake task =>
    rw [prepare, Option.ite_none_right_eq_some] at h
    obtain rfl := Option.some.inj h.2
    exact ⟨rfl, (List.length_modify ..).ge⟩
  | taskExit =>
    obtain rfl := Option.some.inj h
    exact ⟨rfl, (List.length_modify ..).ge⟩

/-- Either the processor stays where it is, or it goes to the next runnable task of the new
table. -/
theorem step_cases (h : s.step a = some s') :
    (a.schedules = false ∧ s.prepare a = some s') ∨
      (a.schedules = true ∧ ∃ p, s.prepare a = some p ∧ s' = p.schedule) := by
  obtain ⟨p, hp, rfl⟩ := Option.map_eq_some_iff.mp h
  cases ha : a.schedules with
  | false => exact .inl ⟨rfl, hp⟩
  | true => exact .inr ⟨rfl, p, hp, rfl⟩

/-- After a call of `schedule` that finds a runnable task the running one is runnable. -/
theorem schedule_runnable {u : Nat} (h : s.schedule.sched.runnable u = true) :
    s.schedule.sched.runnable s.schedule.sched.current = true :=
  Scheduler.next_runnable (s := s.sched) h

/-- One step on the way round. -/
theorem step_onTheWay {t u : Nat} (h : s.step a = some s')
    (hc : s.sched.current < s.sched.tasks.length) (hu : s'.sched.runnable u = true)
    (hway : OnTheWay t u s.sched.current) :
    (a.schedules = true ∧ s'.sched.current = u) ∨
      (OnTheWay t u s'.sched.current ∧ (a.schedules = true → s'.sched.current ≠ t)) := by
  rcases step_cases h with ⟨ha, hp⟩ | ⟨ha, p, hp, rfl⟩
  · rw [(prepare_kept hp).1]
    exact .inr ⟨hway, fun h ↦ absurd (ha.symm.trans h) (by decide)⟩
  · obtain ⟨hcur, hlen⟩ := prepare_kept hp
    rw [← hcur] at hway hc
    have hup := Scheduler.next_upTo (Nat.lt_of_lt_of_le hc hlen) hu
    rcases hway.next hup with hx | ⟨hway', hne⟩
    · exact .inl ⟨ha, hx⟩
    · exact .inr ⟨hway', fun _ ↦ hne⟩

/-- The running task is in the table again afterwards. -/
theorem step_current_lt {u : Nat} (h : s.step a = some s')
    (hc : s.sched.current < s.sched.tasks.length) (hu : s'.sched.runnable u = true) :
    s'.sched.current < s'.sched.tasks.length := by
  rcases step_cases h with ⟨-, hp⟩ | ⟨-, p, -, rfl⟩
  · obtain ⟨hcur, hlen⟩ := prepare_kept hp
    omega
  · exact Scheduler.runnable_lt (schedule_runnable hu)

end Tasking

/-- **Round-robin bypasses no ready task.**  In any run of the scheduler, if two calls of `schedule`
both leave task `t` running, then every other task that is runnable from the first of them to the
second is made the running one by a call in between. -/
theorem round_robin_no_bypass {s : Nat → Tasking} {a : Nat → SchedAct} {j k t u : Nat}
    (hrun : ∀ i, j ≤ i → i ≤ k → (s i).step (a i) = some (s (i + 1))) (hjk : j < k)
    (hj : (a j).schedules = true) (hjt : (s (j + 1)).sched.current = t)
    (hk : (a k).schedules = true) (hkt : (s (k + 1)).sched.current = t) (hut : u ≠ t)
    (hu : ∀ i, j < i → i ≤ k + 1 → (s i).sched.runnable u = true) :
    ∃ i, j < i ∧ i < k ∧ (a i).schedules = true ∧ (s (i + 1)).sched.current = u := by
  by_contra hnone
  push Not at hnone
  -- the invariant: the processor is on its way from `t` and has not come to `u`
  have hway (n : Nat) (hn : j + 1 + n ≤ k) : OnTheWay t u (s (j + 1 + n)).sched.current ∧
      (s (j + 1 + n)).sched.current < (s (j + 1 + n)).sched.tasks.length := by
    induction n with
    | zero =>
      have hrunnable := hu (j + 1) (by omega) (by omega)
      rcases Tasking.step_cases (hrun j le_rfl (by omega)) with ⟨hnot, -⟩ | ⟨-, p, -, hs⟩
      · exact absurd (hnot.symm.trans hj) (by decide)
      · rw [Nat.add_zero, hjt]
        refine ⟨by rw [OnTheWay]; omega, ?_⟩
        rw [hs] at hrunnable
        rw [← hjt, hs]
        exact Scheduler.runnable_lt (Tasking.schedule_runnable hrunnable)
    | succ n ih =>
      obtain ⟨hway, hlt⟩ := ih (by omega)
      have hstep := hrun (j + 1 + n) (by omega) (by omega)
      have hrunnable := hu (j + 1 + n + 1) (by omega) (by omega)
      refine ⟨?_, Tasking.step_current_lt hstep hlt hrunnable⟩
      rcases Tasking.step_onTheWay hstep hlt hrunnable hway with ⟨ha, hcur⟩ | ⟨hway', -⟩
      · exact absurd hcur (hnone (j + 1 + n) (by omega) (by omega) ha)
      · exact hway'
  obtain ⟨hway, hlt⟩ := hway (k - (j + 1)) (by omega)
  rw [show j + 1 + (k - (j + 1)) = k by omega] at hway hlt
  have hrunnable := hu (k + 1) (by omega) le_rfl
  rcases Tasking.step_onTheWay (hrun k (by omega) le_rfl) hlt hrunnable hway with
    ⟨-, hcur⟩ | ⟨-, hne⟩
  · exact hut (hcur.symm.trans hkt)
  · exact hne hk hkt

/-- Two tasks that yield to each other. -/
def yielding (i : Nat) : Tasking :=
  { sched := { tasks := [.kernel, .kernel], current := i % 2 }, ticks := 0 }

/-- Task 1 gets its second turn after one of task 0. -/
theorem yielding_no_bypass : (yielding 1).sched.current = 1 ∧ (yielding 3).sched.current = 1 ∧
    ∃ i, 0 < i ∧ i < 2 ∧ SchedAct.yieldNow.schedules = true ∧
      (yielding (i + 1)).sched.current = 0 := by
  refine ⟨rfl, rfl, round_robin_no_bypass (j := 0) (k := 2) (t := 1) (a := fun _ ↦ .yieldNow) ?_
    (by decide) rfl rfl rfl rfl (by decide) ?_⟩
  · intro i _ hi
    obtain rfl | rfl | rfl : i = 0 ∨ i = 1 ∨ i = 2 := by omega
    · rfl
    · rfl
    · rfl
  · intro i _ _
    rfl

/-! ## Waiting and returning -/

/-- A call in which a task has passed the processor on, and whether a wakeup has been issued for it
since. -/
inductive WaitCall
  /-- `block_current` -/
  | block (woken : Bool)
  /-- `sleep_ticks(n)`, called at the tick `since`. -/
  | sleep (since n : Nat) (woken : Bool)
deriving DecidableEq, Repr

namespace WaitCall

/-- A wakeup is issued for the task. -/
def wake : WaitCall → WaitCall
  | .block _ => .block true
  | .sleep since n _ => .sleep since n true

/-- What the call waits for has happened by the tick `now`. -/
def Due (now : Nat) : WaitCall → Prop
  | .block woken => woken = true
  | .sleep since n woken => since + n ≤ now ∨ woken = true

end WaitCall

/-- A record of the past: the calls tasks are in, the tasks that have been seen exited, and the
calls that have returned, each with its task and the tick at which it did. -/
structure TaskLog where
  call : Nat → Option WaitCall
  exited : Set Nat
  returned : List (Nat × WaitCall × Nat)

namespace TaskLog

/-- The calls after an operation of the running task has begun. -/
def begin (log : TaskLog) (s : Tasking) : SchedAct → TaskLog
  | .blockCurrent =>
    { log with call := Function.update log.call s.sched.current (some (.block false)) }
  | .sleepTicks n =>
    { log with call := Function.update log.call s.sched.current (some (.sleep s.ticks n false)) }
  | .wake task => { log with call := Function.update log.call task ((log.call task).map .wake) }
  | _ => log

/-- The running task goes on: the call it is in returns. -/
def resume (log : TaskLog) (s : Tasking) : TaskLog :=
  match log.call s.sched.current with
  | none => log
  | some c =>
    { log with
      call := Function.update log.call s.sched.current none
      returned := (s.sched.current, c, s.ticks) :: log.returned }

/-- What a step adds to the record. -/
def note (log : TaskLog) (s : Tasking) (a : SchedAct) (s' : Tasking) : TaskLog :=
  let log := log.begin s a
  let log := if a.schedules then log.resume s' else log
  { log with exited := log.exited ∪ { i | ∃ t, s'.sched.tasks[i]? = some t ∧ t.state = .exited } }

end TaskLog

/-- The scheduler from `init` on, with the record. -/
def tasking : System (Tasking × TaskLog) SchedAct :=
  System.track
    { init := fun s ↦ s.sched = { tasks := [.kernel], current := 0 } ∧ s.ticks < u64Max
      step := Tasking.step }
    { call := fun _ ↦ none, exited := ∅, returned := [] } TaskLog.note

/-- Task 0 only yields and spawns, and the tick count stays below `u64::MAX`. -/
def KmainYields (x : Tasking × TaskLog) : SchedAct → Prop
  | .blockCurrent => x.1.sched.current ≠ 0
  | .sleepTicks _ => x.1.sched.current ≠ 0
  | .taskExit => x.1.sched.current ≠ 0
  | .tick => x.1.ticks + 1 < u64Max
  | _ => True

/-! ### The invariant -/

namespace WaitCall

/-- The wake time that goes with a call. -/
def wakeAt : WaitCall → Nat
  | .block _ => u64Max
  | .sleep since n _ => since + n

/-- The call is over at the tick `now`: the task has been woken, or it has slept long enough, and
the timer has ticked since. -/
def Over (now : Nat) : WaitCall → Prop
  | .block woken => woken = true
  | .sleep since n woken => woken = true ∨ (since < now ∧ since + n ≤ now)

/-- The tick at which the call was made is past. -/
def Begun (now : Nat) : WaitCall → Prop
  | .block _ => True
  | .sleep since _ _ => since ≤ now

/-- How the table shows a task that is in the call: runnable if the call is over, else blocked. -/
structure Shown (now : Nat) (c : WaitCall) (t : Task) : Prop where
  wakeAt : t.wakeAt = c.wakeAt
  begun : c.Begun now
  state : t.state = .blocked ∧ ¬ c.Over now ∨ t.state = .runnable ∧ c.Over now

variable {now : Nat} {c : WaitCall} {t : Task}

theorem Over.due (h : c.Over now) : c.Due now := by
  cases c with
  | block woken => exact h
  | sleep since n woken => exact h.elim .inr fun hslept ↦ .inl hslept.2

theorem over_wake (now : Nat) (c : WaitCall) : c.wake.Over now := by
  cases c with
  | block woken => rfl
  | sleep since n woken => exact .inl rfl

theorem wakeAt_wake (c : WaitCall) : c.wake.wakeAt = c.wakeAt := by cases c <;> rfl

/-- With the next tick a call gets over if its wake time has come, and not else. -/
theorem over_succ_iff (hb : c.Begun now) (hnow : now + 1 < u64Max) :
    c.Over (now + 1) ↔ c.Over now ∨ c.wakeAt ≤ now + 1 := by
  cases c with
  | block woken => exact (or_iff_left (Nat.not_le.mpr hnow)).symm
  | sleep since n woken =>
    rw [Over, Over, WaitCall.wakeAt]
    rw [Begun] at hb
    constructor
    · rintro (hwoken | hslept)
      · exact .inl (.inl hwoken)
      · exact .inr hslept.2
    · rintro ((hwoken | hslept) | hdue)
      · exact .inl hwoken
      · exact .inr (by omega)
      · exact .inr ⟨by omega, hdue⟩

namespace Shown

/-- A tick wakes the task if its wake time has come. -/
theorem tick (h : c.Shown now t) (hnow : now + 1 < u64Max) :
    c.Shown (now + 1) (if t.state = .blocked ∧ t.wakeAt ≤ now + 1 then
      { t with state := .runnable } else t) := by
  have hbegun : c.Begun (now + 1) := by
    cases c with
    | block woken => trivial
    | sleep since n woken => exact Nat.le_succ_of_le h.begun
  have hover := c.over_succ_iff h.begun hnow
  rw [← h.wakeAt] at hover
  rcases h.state with ⟨hblocked, hnot⟩ | ⟨hrunnable, hdone⟩
  · split_ifs with hdue
    · exact ⟨h.wakeAt, hbegun, .inr ⟨rfl, hover.mpr (.inr hdue.2)⟩⟩
    · refine ⟨h.wakeAt, hbegun, .inl ⟨hblocked, fun hlate ↦ ?_⟩⟩
      exact hdue ⟨hblocked, (hover.mp hlate).resolve_left hnot⟩
  · rw [if_neg (by simp [hrunnable])]
    exact ⟨h.wakeAt, hbegun, .inr ⟨hrunnable, hover.mpr (.inl hdone)⟩⟩

/-- A wakeup ends the call. -/
theorem wake (h : c.Shown now t) :
    c.wake.Shown now (if t.state = .blocked then { t with state := .runnable } else t) := by
  have hbegun : c.wake.Begun now := by
    cases c with
    | block woken => trivial
    | sleep since n woken => exact h.begun
  have hwake := h.wakeAt.trans c.wakeAt_wake.symm
  split_ifs with hblocked
  · exact ⟨hwake, hbegun, .inr ⟨rfl, c.over_wake now⟩⟩
  · refine ⟨hwake, hbegun, .inr ⟨?_, c.over_wake now⟩⟩
    rcases h.state with ⟨hstate, -⟩ | ⟨hstate, -⟩
    · exact absurd hstate hblocked
    · exact hstate

end Shown

end WaitCall

/-- What holds between the two halves of an operation. -/
structure Tasking.Halfway (s : Tasking) (log : TaskLog) : Prop where
  kmain : s.sched.runnable 0 = true
  ticks : s.ticks < u64Max
  waiting : ∀ i c, log.call i = some c → ∃ t, s.sched.tasks[i]? = some t ∧ c.Shown s.ticks t
  exited : ∀ i ∈ log.exited, ∃ t, s.sched.tasks[i]? = some t ∧ t.state = .exited
  returned : ∀ r ∈ log.returned, r.2.1.Due r.2.2

/-- What holds between two operations: the running task is runnable, and in no call. -/
structure Tasking.Ok (s : Tasking) (log : TaskLog) : Prop extends s.Halfway log where
  running : s.sched.runnable s.sched.current = true
  idle : log.call s.sched.current = none

namespace Tasking

variable {s p : Tasking} {log log' : TaskLog} {a : SchedAct}

/-- `schedule` makes a runnable task the running one, and the call it was in returns. -/
theorem Halfway.schedule (h : p.Halfway log) : p.schedule.Ok (log.resume p.schedule) := by
  have hrunning : p.sched.runnable p.sched.next = true := Scheduler.next_runnable h.kmain
  obtain ⟨t, ht, hstate⟩ := Scheduler.runnable_iff.mp hrunning
  rw [TaskLog.resume]
  cases hcall : log.call p.schedule.sched.current with
  | none => exact ⟨⟨h.kmain, h.ticks, h.waiting, h.exited, h.returned⟩, hrunning, hcall⟩
  | some c =>
    obtain ⟨t', ht', hshown⟩ := h.waiting _ _ hcall
    have hdue : c.Due p.ticks := by
      obtain rfl : t' = t := Option.some.inj (ht'.symm.trans ht)
      rcases hshown.state with ⟨hblocked, -⟩ | ⟨-, hover⟩
      · rw [hstate] at hblocked
        cases hblocked
      · exact hover.due
    refine ⟨⟨h.kmain, h.ticks, fun i c' hi ↦ ?_, h.exited, ?_⟩, hrunning, Function.update_self ..⟩
    · dsimp only at hi
      by_cases hne : i = p.schedule.sched.current
      · rw [hne, Function.update_self] at hi
        cases hi
      · rw [Function.update_of_ne hne] at hi
        exact h.waiting i c' hi
    · exact List.forall_mem_cons.mpr ⟨hdue, h.returned⟩

/-- The first half of an operation that changes each entry of the table in its own way. -/
theorem Ok.halfway (h : s.Ok log) {f : Nat → Task → Task}
    (hf : ∀ i t, s.sched.tasks[i]? = some t → p.sched.tasks[i]? = some (f i t))
    (hkmain : ∀ t, t.state = .runnable → (f 0 t).state = .runnable) (hticks : p.ticks < u64Max)
    (hwaiting : ∀ i c, log'.call i = some c → ∃ t, s.sched.tasks[i]? = some t ∧
      c.Shown p.ticks (f i t))
    (hexited : ∀ i t, s.sched.tasks[i]? = some t → t.state = .exited → (f i t).state = .exited)
    (hlog : log'.exited = log.exited ∧ log'.returned = log.returned) : p.Halfway log' where
  kmain := by
    obtain ⟨t, ht, hstate⟩ := Scheduler.runnable_iff.mp h.kmain
    exact Scheduler.runnable_iff.mpr ⟨_, hf 0 t ht, hkmain t hstate⟩
  ticks := hticks
  waiting i c hc := by
    obtain ⟨t, ht, hshown⟩ := hwaiting i c hc
    exact ⟨_, hf i t ht, hshown⟩
  exited i hi := by
    obtain ⟨t, ht, hstate⟩ := h.exited i (hlog.1 ▸ hi)
    exact ⟨_, hf i t ht, hexited i t ht hstate⟩
  returned := by
    rw [hlog.2]
    exact h.returned

/-- What the running task does to its own entry does not matter to the others. -/
theorem Ok.mark (h : s.Ok log) {g : Task → Task} (hne : s.sched.current ≠ 0)
    (hp : p.sched.tasks = s.sched.tasks.modify s.sched.current g) (hticks : p.ticks = s.ticks)
    {call : Option WaitCall} (hcall : ∀ c t, call = some c → c.Shown s.ticks (g t)) :
    p.Halfway { log with call := Function.update log.call s.sched.current call } := by
  obtain ⟨t₀, ht₀, hstate₀⟩ := Scheduler.runnable_iff.mp h.running
  refine h.halfway (f := fun i t ↦ if i = s.sched.current then g t else t) (fun i t ht ↦ ?_)
    (fun t ht ↦ ?_) (hticks ▸ h.ticks) (fun i c hc ↦ ?_) (fun i t ht hstate ↦ ?_) ⟨rfl, rfl⟩
  · rw [hp, List.getElem?_modify, ht]
    by_cases hi : i = s.sched.current
    · simp [hi]
    · simp [hi, Ne.symm hi]
  · rwa [if_neg (Ne.symm hne)]
  · dsimp only at hc
    by_cases hi : i = s.sched.current
    · subst hi
      rw [Function.update_self] at hc
      refine ⟨t₀, ht₀, ?_⟩
      rw [if_pos rfl, hticks]
      exact hcall c t₀ hc
    · rw [Function.update_of_ne hi] at hc
      obtain ⟨t, ht, hshown⟩ := h.waiting i c hc
      refine ⟨t, ht, ?_⟩
      rwa [if_neg hi, hticks]
  · by_cases hi : i = s.sched.current
    · rw [hi, ht₀] at ht
      obtain rfl := Option.some.inj ht
      rw [hstate] at hstate₀
      cases hstate₀
    · rwa [if_neg hi]

/-- A tick wakes only tasks whose wake time has come. -/
theorem Ok.tick (h : s.Ok log) (hticks : s.ticks + 1 < u64Max)
    (hp : s.prepare .tick = some p) : p.Halfway log := by
  have hnow : (s.ticks + 1) % 2 ^ 64 = s.ticks + 1 := by
    rw [u64Max] at hticks
    exact Nat.mod_eq_of_lt (by omega)
  rw [prepare, hnow] at hp
  obtain rfl := Option.some.inj hp
  refine h.halfway (f := fun _ t ↦ if t.state = .blocked ∧ t.wakeAt ≤ s.ticks + 1 then
    { t with state := .runnable } else t) (fun i t ht ↦ ?_) (fun t ht ↦ ?_) hticks (fun i c hc ↦ ?_)
    (fun i t _ hstate ↦ ?_) ⟨rfl, rfl⟩
  · rw [Scheduler.wakeSleepers, List.getElem?_map, ht, Option.map_some]
  · rw [if_neg (by simp [ht]), ht]
  · obtain ⟨t, ht, hshown⟩ := h.waiting i c hc
    exact ⟨t, ht, hshown.tick hticks⟩
  · rw [if_neg (by simp [hstate]), hstate]

/-- A wakeup ends the call of the task. -/
theorem Ok.wake (h : s.Ok log) {task : Nat} (hp : s.prepare (.wake task) = some p) :
    p.Halfway { log with call := Function.update log.call task ((log.call task).map .wake) } := by
  rw [prepare, Option.ite_none_right_eq_some] at hp
  obtain rfl := Option.some.inj hp.2
  refine h.halfway (f := fun i t ↦ if task = i then (if t.state = .blocked then
    { t with state := .runnable } else t) else t) (fun i t ht ↦ ?_) (fun t ht ↦ ?_) h.ticks
    (fun i c hc ↦ ?_) (fun i t _ hstate ↦ ?_) ⟨rfl, rfl⟩
  · rw [Scheduler.wake, List.getElem?_modify, ht]
    rfl
  · rw [if_neg (show ¬ t.state = .blocked by simp [ht]), ite_self, ht]
  · dsimp only at hc
    by_cases hi : task = i
    · subst hi
      rw [Function.update_self, Option.map_eq_some_iff] at hc
      obtain ⟨c₀, hc₀, rfl⟩ := hc
      obtain ⟨t, ht, hshown⟩ := h.waiting task c₀ hc₀
      refine ⟨t, ht, ?_⟩
      rw [if_pos rfl]
      exact hshown.wake
    · rw [Function.update_of_ne (Ne.symm hi)] at hc
      obtain ⟨t, ht, hshown⟩ := h.waiting i c hc
      refine ⟨t, ht, ?_⟩
      rwa [if_neg hi]
  · rw [if_neg (show ¬ t.state = .blocked by simp [hstate]), ite_self, hstate]

theorem spawnInner_getElem? {process ttbr0 : Option Nat} {i : Nat} {t : Task}
    (ht : s.sched.tasks[i]? = some t) :
    (s.sched.spawnInner process ttbr0).tasks[i]? = some t := by
  rwa [Scheduler.spawnInner, List.getElem?_append_left (List.getElem?_eq_some_iff.mp ht).1]

/-- The first half of any operation. -/
theorem Ok.prepare (h : s.Ok log) (ha : KmainYields (s, log) a) (hp : s.prepare a = some p) :
    p.Halfway (log.begin s a) := by
  cases a with
  | spawn process ttbr0 =>
    obtain rfl := Option.some.inj hp
    exact h.halfway (f := fun _ t ↦ t) (fun i t ht ↦ spawnInner_getElem? ht) (fun _ ht ↦ ht)
      h.ticks h.waiting (fun _ _ _ hstate ↦ hstate) ⟨rfl, rfl⟩
  | yieldNow =>
    obtain rfl := Option.some.inj hp
    exact h.toHalfway
  | tick => exact h.tick ha hp
  | blockCurrent =>
    obtain rfl := Option.some.inj hp
    refine h.mark (p := { s with sched := s.sched.markBlocked }) ha rfl rfl fun c t hc ↦ ?_
    obtain rfl := Option.some.inj hc
    exact ⟨rfl, trivial, .inl ⟨rfl, by rintro ⟨⟩⟩⟩
  | sleepTicks n =>
    rw [Tasking.prepare, Option.ite_none_right_eq_some] at hp
    obtain rfl := Option.some.inj hp.2
    refine h.mark (p := { s with sched := s.sched.markSleeping (s.ticks + n) }) ha rfl rfl
      fun c t hc ↦ ?_
    obtain rfl := Option.some.inj hc
    refine ⟨rfl, le_rfl, .inl ⟨rfl, ?_⟩⟩
    rintro (hwoken | ⟨hlt, -⟩)
    · cases hwoken
    · exact absurd hlt (Nat.lt_irrefl _)
  | wake task => exact h.wake hp
  | taskExit =>
    obtain rfl := Option.some.inj hp
    have hmark := h.mark (p := { s with sched := s.sched.markExited }) ha rfl rfl
      fun c t (hc : none = some c) ↦ nomatch hc
    rwa [← h.idle, Function.update_eq_self] at hmark

/-- An operation that does not schedule leaves the running task as it is. -/
theorem Ok.of_halfway (h : s.Ok log) (ha : a.schedules = false) (hp : s.prepare a = some p)
    (hhalf : p.Halfway (log.begin s a)) : p.Ok (log.begin s a) := by
  cases a with
  | spawn process ttbr0 =>
    obtain rfl := Option.some.inj hp
    obtain ⟨t, ht, hstate⟩ := Scheduler.runnable_iff.mp h.running
    exact ⟨hhalf, Scheduler.runnable_iff.mpr ⟨t, spawnInner_getElem? ht, hstate⟩, h.idle⟩
  | wake task =>
    rw [Tasking.prepare, Option.ite_none_right_eq_some] at hp
    obtain rfl := Option.some.inj hp.2
    refine ⟨hhalf, (s.sched.wake_woken task).runnable h.running, ?_⟩
    show Function.update log.call task _ s.sched.current = none
    by_cases hi : s.sched.current = task
    · rw [← hi, Function.update_self, h.idle, Option.map_none]
    · rw [Function.update_of_ne hi, h.idle]
  | _ => cases ha

/-- The record may take in the tasks that are exited now. -/
theorem Ok.addExited (h : s.Ok log) : s.Ok { log with
    exited := log.exited ∪ { i | ∃ t, s.sched.tasks[i]? = some t ∧ t.state = .exited } } :=
  ⟨⟨h.kmain, h.ticks, h.waiting, fun i hi ↦ hi.elim (h.exited i) id, h.returned⟩, h.running, h.idle⟩

/-- Every operation keeps the invariant. -/
theorem Ok.step (h : s.Ok log) (ha : KmainYields (s, log) a) {s' : Tasking}
    (hs : s.step a = some s') : s'.Ok (log.note s a s') := by
  obtain ⟨p, hp, rfl⟩ := Option.map_eq_some_iff.mp hs
  have hhalf := h.prepare ha hp
  rw [TaskLog.note]
  by_cases hsched : a.schedules = true
  · rw [if_pos hsched, if_pos hsched]
    exact hhalf.schedule.addExited
  · rw [if_neg hsched, if_neg hsched]
    exact (h.of_halfway (Bool.eq_false_iff.mpr hsched) hp hhalf).addExited

end Tasking

/-- The invariant of every run. -/
theorem tasking_ok {x : Tasking × TaskLog} (h : tasking.Reach KmainYields x) : x.1.Ok x.2 := by
  refine h.invariant (I := fun x ↦ x.1.Ok x.2) ?_ ?_
  · rintro ⟨s, log⟩ ⟨⟨hsched, hticks⟩, rfl⟩
    have hrun : s.sched.runnable 0 = true := by
      rw [hsched]
      rfl
    refine ⟨⟨hrun, hticks, fun i c hc ↦ (nomatch hc), fun i hi ↦ hi.elim,
      fun r hr ↦ absurd hr List.not_mem_nil⟩, ?_, rfl⟩
    rwa [hsched] at hrun ⊢
  · intro x a x' hx ha hs
    obtain ⟨hstep, hnote⟩ := System.track_step hs
    rw [hnote]
    exact hx.step ha hstep

/-- **Tasks run when they may, and go on when what they wait for has happened.**  As long as `kmain`
only yields and spawns, the task that runs is runnable, no task that was seen exited ever runs, and
every `block_current` that has returned was woken, every `sleep_ticks` was woken or had slept as
long as it asked for. -/
theorem tasks_return_when_woken {x : Tasking × TaskLog} (h : tasking.Reach KmainYields x) :
    (x.1.sched.current < x.1.sched.tasks.length ∧ x.1.sched.runnable x.1.sched.current = true) ∧
      x.1.sched.current ∉ x.2.exited ∧ ∀ r ∈ x.2.returned, r.2.1.Due r.2.2 := by
  have hok := tasking_ok h
  refine ⟨⟨Scheduler.runnable_lt hok.running, hok.running⟩, fun hexited ↦ ?_, hok.returned⟩
  obtain ⟨t, ht, hrun⟩ := Scheduler.runnable_iff.mp hok.running
  obtain ⟨t', ht', hstate⟩ := hok.exited _ hexited
  obtain rfl : t' = t := Option.some.inj (ht'.symm.trans ht)
  rw [hrun] at hstate
  cases hstate

/-- A task blocks, is woken by `kmain`, and goes on. -/
theorem blocked_task_returns : ∃ x, tasking.Reach KmainYields x ∧
    x.2.returned = [(1, .block true, 0)] ∧ ∀ r ∈ x.2.returned, r.2.1.Due r.2.2 := by
  have h₀ : tasking.Reach KmainYields (⟨⟨[.kernel], 0⟩, 0⟩, ⟨fun _ ↦ none, ∅, []⟩) :=
    .init ⟨⟨rfl, by decide⟩, rfl⟩
  have h₁ := h₀.step (show KmainYields _ (.spawn none none) from trivial) rfl
  have h₂ := h₁.step (show KmainYields _ .yieldNow from trivial) rfl
  have h₃ := h₂.step (show KmainYields _ .blockCurrent from Nat.one_ne_zero) rfl
  have h₄ := h₃.step (show KmainYields _ (.wake 1) from trivial) rfl
  have h₅ := h₄.step (show KmainYields _ .yieldNow from trivial) rfl
  exact ⟨_, h₅, rfl, (tasks_return_when_woken h₅).2.2⟩

/-- **A waiting task is runnable exactly when its call is over.**  As long as `kmain` only yields
and spawns, a task in `block_current` is runnable once it has been woken and not before, and a task
in `sleep_ticks` once it has been woken, or the timer has ticked and the ticks it asked for have
passed. -/
theorem waiting_runnable_iff {x : Tasking × TaskLog} (h : tasking.Reach KmainYields x) {i : Nat}
    {c : WaitCall} (hc : x.2.call i = some c) :
    x.1.sched.runnable i = true ↔ c.Over x.1.ticks := by
  obtain ⟨t, ht, hshown⟩ := (tasking_ok h).waiting i c hc
  rw [Scheduler.runnable, ht, Option.any_some, decide_eq_true_iff]
  rcases hshown.state with ⟨hblocked, hnot⟩ | ⟨hrunnable, hover⟩
  · exact iff_of_false (by rw [hblocked]; rintro ⟨⟩) hnot
  · exact iff_of_true hrunnable hover

/-- A task sleeps for two ticks; after the first it is not runnable. -/
theorem waiting_runnable_iff_sleeper : ∃ x, tasking.Reach KmainYields x ∧
    x.2.call 1 = some (.sleep 0 2 false) ∧ x.1.ticks = 1 ∧ x.1.sched.runnable 1 = false := by
  have h₀ : tasking.Reach KmainYields (⟨⟨[.kernel], 0⟩, 0⟩, ⟨fun _ ↦ none, ∅, []⟩) :=
    .init ⟨⟨rfl, by decide⟩, rfl⟩
  have h₁ := h₀.step (show KmainYields _ (.spawn none none) from trivial) rfl
  have h₂ := h₁.step (show KmainYields _ .yieldNow from trivial) rfl
  have h₃ := h₂.step (show KmainYields _ (.sleepTicks 2) from Nat.one_ne_zero) rfl
  have h₄ := h₃.step (show KmainYields _ .tick from (by decide : 0 + 1 < u64Max)) rfl
  refine ⟨_, h₄, rfl, rfl, Bool.eq_false_iff.mpr fun hrun ↦ ?_⟩
  rcases (waiting_runnable_iff h₄ (i := 1) (c := .sleep 0 2 false) rfl).mp hrun with
    hwoken | ⟨-, hslept⟩
  · cases hwoken
  · exact absurd hslept (by decide)

end Jatuli

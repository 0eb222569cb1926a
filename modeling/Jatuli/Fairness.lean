import Jatuli.Driving
import Jatuli.Roots
import Jatuli.SchedRuns

/-!
# Every task gets its turn

`SchedRuns` says that the scheduler passes no runnable task by, and which tasks are runnable.  Here
is how long they wait.

* A task that is runnable gets the processor before long (`task_gets_turn`): of `n` tasks, after at
  most `n - 1` calls of `schedule`, whatever the other tasks do and however many of them are new.
  Nobody but the task itself can make it unrunnable again in the meantime.
* In the machine the timer sees to these calls.  So whatever the processes, the poller and the
  devices do, a runnable task runs again within `n - 1` ticks (`task_runs_within_ticks`).

Both are instances of `comes_round`.  It is about any system whose steps treat the task table in the
way of `Scheduler.Turn`, and its proof counts down the way the processor has still to go.
-/

set_option autoImplicit false

namespace Jatuli

/-! ## Turns -/

namespace Scheduler

variable {s p q : Scheduler}

/-- From `s` to `p` the processor stays where it is, no task is removed, and no task but the running
one ceases to be runnable. -/
structure Spares (s p : Scheduler) : Prop where
  current : p.current = s.current
  length : s.tasks.length ≤ p.tasks.length
  others : ∀ {u : Nat}, u ≠ s.current → s.runnable u = true → p.runnable u = true

namespace Spares

theorem refl (s : Scheduler) : Spares s s := ⟨rfl, le_rfl, fun _ h ↦ h⟩

theorem trans (h : Spares s p) (h' : Spares p q) : Spares s q :=
  ⟨h'.current.trans h.current, h.length.trans h'.length,
    fun hu hrun ↦ h'.others (h.current ▸ hu) (h.others hu hrun)⟩

theorem of_woken (h : Woken s p) : Spares s p := ⟨h.current, h.length.ge, fun _ ↦ h.runnable⟩

/-- Tasks are added. -/
theorem of_old (hcur : p.current = s.current)
    (hold : ∀ {t : Nat}, t < s.tasks.length → p.tasks[t]? = s.tasks[t]?) : Spares s p := by
  refine ⟨hcur, ?_, fun {u} _ hu ↦ ?_⟩
  · by_contra hlt
    have hcut := hold (Nat.lt_of_not_ge hlt)
    rw [List.getElem?_eq_none le_rfl, eq_comm, List.getElem?_eq_none_iff] at hcut
    omega
  · rwa [runnable, hold (runnable_lt hu)]

/-- The running task changes its own entry. -/
theorem mark (s : Scheduler) (f : Task → Task) :
    Spares s { s with tasks := s.tasks.modify s.current f } := by
  refine ⟨rfl, (List.length_modify ..).ge, fun {u} hu hrun ↦ ?_⟩
  rwa [runnable, List.getElem?_modify_ne f s.tasks (Ne.symm hu)]

end Spares

/-- What a step does to the table, and whether it ends with a call of `schedule`. -/
inductive Turn (s : Scheduler) : Bool → Scheduler → Prop
  | stay {p : Scheduler} (h : s.Spares p) : Turn s false p
  | pass {p : Scheduler} (h : s.Spares p) : Turn s true p.schedule

theorem next_lt (hc : s.current < s.tasks.length) : s.next < s.tasks.length := by
  rw [next]
  cases hfind : ((List.range s.tasks.length).map fun i ↦
    (s.current + (i + 1)) % s.tasks.length).find? s.runnable with
  | none => exact hc
  | some x =>
    obtain ⟨i, -, rfl⟩ := List.mem_map.mp (List.mem_of_find?_eq_some hfind)
    exact Nat.mod_lt _ (Nat.zero_lt_of_lt hc)

namespace Turn

variable {b : Bool}

theorem length (h : s.Turn b p) : s.tasks.length ≤ p.tasks.length := by
  cases h with
  | stay h => exact h.length
  | pass h => exact h.length

theorem current_lt (h : s.Turn b p) (hc : s.current < s.tasks.length) :
    p.current < p.tasks.length := by
  cases h with
  | stay h => exact h.current ▸ hc.trans_le h.length
  | pass h => exact next_lt (h.current ▸ hc.trans_le h.length)

theorem runnable {u : Nat} (h : s.Turn b p) (hu : u ≠ s.current) (hrun : s.runnable u = true) :
    p.runnable u = true := by
  cases h with
  | stay h => exact h.others hu hrun
  | pass h => exact h.others hu hrun

/-- The way to a runnable task gets no longer, and shorter with a call of `schedule`. -/
theorem ahead {n u : Nat} (h : s.Turn b p) (hc : s.current < s.tasks.length)
    (hn : p.tasks.length ≤ n) (hu : u ≠ s.current) (hrun : s.runnable u = true)
    (hne : p.current ≠ u) :
    Cyclic.ahead n p.current u + (if b then 1 else 0) ≤ Cyclic.ahead n s.current u := by
  have hlt := h.current_lt hc
  cases h with
  | stay h =>
    rw [h.current]
    exact le_rfl
  | @pass p' h =>
    have hc' : p'.current < p'.tasks.length := h.current ▸ hc.trans_le h.length
    have hup := next_upTo hc' (h.others hu hrun)
    rw [← h.current]
    exact hup.ahead_lt (hc'.trans_le hn) (hlt.trans_le hn) hne

end Turn

end Scheduler

section Rounds

variable {σ α : Type} {S : System σ α} {I : σ → Prop} {sched : σ → Scheduler} {calls : α → Bool}

/-- The steps of the system keep the invariant, and do to the task table what a turn does; an action
in `calls` ends with a call of `schedule`. -/
structure TakesTurns (S : System σ α) (I : σ → Prop) (sched : σ → Scheduler) (calls : α → Bool) :
    Prop where
  keep : ∀ {s s' : σ} {a : α}, I s → S.step s a = some s' → I s'
  turn : ∀ {s s' : σ} {a : α}, I s → S.step s a = some s' →
    ∃ b, (calls a = true → b = true) ∧ (sched s).Turn b (sched s')
  current : ∀ {s : σ}, I s → (sched s).current < (sched s).tasks.length

theorem TakesTurns.length (h : TakesTurns S I sched calls) :
    ∀ (as : List α) {s s' : σ}, I s → as.foldlM S.step s = some s' →
      (sched s).tasks.length ≤ (sched s').tasks.length
  | [], _, _, _, hrun => (Option.some.inj hrun) ▸ le_rfl
  | a :: as, _, _, hs, hrun => by
    rw [List.foldlM_cons] at hrun
    obtain ⟨s₁, hs₁, hrun⟩ := Option.bind_eq_some_iff.mp hrun
    obtain ⟨b, -, hturn⟩ := h.turn hs hs₁
    exact hturn.length.trans (h.length as (h.keep hs hs₁) hrun)

/-- **The processor comes round** to a runnable task, once `schedule` has been called as often as it
has places to go. -/
theorem TakesTurns.comes_round (h : TakesTurns S I sched calls) {u : Nat} :
    ∀ (as : List α) {s s' : σ}, I s → as.foldlM S.step s = some s' →
      (sched s).runnable u = true →
      ((sched s).current ≠ u →
        Cyclic.ahead (sched s').tasks.length (sched s).current u ≤ as.countP calls) →
      ∃ bs t, bs <+: as ∧ bs.foldlM S.step s = some t ∧ (sched t).current = u := by
  intro as
  induction as with
  | nil =>
    intro s s' hs hrun hu hcalls
    obtain rfl := Option.some.inj hrun
    by_cases hcur : (sched s).current = u
    · exact ⟨[], s, List.prefix_rfl, rfl, hcur⟩
    · exact absurd (hcalls hcur) (Nat.not_le.mpr (Cyclic.ahead_pos (h.current hs) u))
  | cons a as ih =>
    intro s s' hs hrun hu hcalls
    by_cases hcur : (sched s).current = u
    · exact ⟨[], s, List.nil_prefix, rfl, hcur⟩
    rw [List.foldlM_cons] at hrun
    obtain ⟨s₁, hs₁, hrun⟩ := Option.bind_eq_some_iff.mp hrun
    have hs' := h.keep hs hs₁
    obtain ⟨b, hb, hturn⟩ := h.turn hs hs₁
    obtain ⟨bs, t, hpre, hbs, ht⟩ := ih hs' hrun (hturn.runnable (Ne.symm hcur) hu) fun hne ↦ by
      have hahead := hturn.ahead (h.current hs) (h.length as hs' hrun) (Ne.symm hcur) hu hne
      have hle := hcalls hcur
      rw [List.countP_cons] at hle
      cases b with
      | true =>
        rw [if_pos rfl] at hahead
        split_ifs at hle <;> omega
      | false =>
        rw [if_neg fun ha ↦ Bool.noConfusion (hb ha)] at hle
        exact (Nat.le_add_right _ _).trans (hahead.trans hle)
    refine ⟨a :: bs, t, List.cons_prefix_cons.mpr ⟨rfl, hpre⟩, ?_, ht⟩
    rw [List.foldlM_cons, hs₁]
    exact hbs

end Rounds

/-! ## The scheduler on its own -/

namespace Tasking

variable {s s' : Tasking} {a : SchedAct}

theorem prepare_spares (h : s.prepare a = some s') : s.sched.Spares s'.sched := by
  cases a with
  | spawn process ttbr0 =>
    obtain rfl := Option.some.inj h
    exact .of_old rfl fun ht ↦ List.getElem?_append_left ht
  | yieldNow =>
    obtain rfl := Option.some.inj h
    exact .refl _
  | tick =>
    obtain rfl := Option.some.inj h
    exact .of_woken (s.sched.wakeSleepers_woken _)
  | blockCurrent =>
    obtain rfl := Option.some.inj h
    exact .mark s.sched _
  | sleepTicks n =>
    rw [prepare, Option.ite_none_right_eq_some] at h
    obtain rfl := Option.some.inj h.2
    exact .mark s.sched _
  | wake task =>
    rw [prepare, Option.ite_none_right_eq_some] at h
    obtain rfl := Option.some.inj h.2
    exact .of_woken (s.sched.wake_woken task)
  | taskExit =>
    obtain rfl := Option.some.inj h
    exact .mark s.sched _

theorem step_turn (h : s.step a = some s') : s.sched.Turn a.schedules s'.sched := by
  rcases step_cases h with ⟨ha, hp⟩ | ⟨ha, p, hp, rfl⟩
  · rw [ha]
    exact .stay (prepare_spares hp)
  · rw [ha]
    exact .pass (prepare_spares hp)

theorem takesTurns : TakesTurns ⟨fun _ ↦ True, step⟩
    (fun s ↦ s.sched.current < s.sched.tasks.length) (·.sched) SchedAct.schedules where
  keep hc h := (step_turn h).current_lt hc
  turn _ h := ⟨_, id, step_turn h⟩
  current hc := hc

end Tasking

/-- **No task starves.**  In any run of the scheduler, a task that is runnable at the beginning has
the processor before `schedule` has been called as often as there are other tasks at the end. -/
theorem task_gets_turn {s s' : Tasking} {as : List SchedAct} {u : Nat}
    (hrun : as.foldlM Tasking.step s = some s') (hcur : s.sched.current < s.sched.tasks.length)
    (hu : s.sched.runnable u = true)
    (hcalls : s'.sched.tasks.length ≤ as.countP SchedAct.schedules + 1) :
    ∃ bs t, bs <+: as ∧ bs.foldlM Tasking.step s = some t ∧ t.sched.current = u := by
  refine Tasking.takesTurns.comes_round as hcur hrun hu fun hne ↦ ?_
  have hlen := Tasking.takesTurns.length as hcur hrun
  have hlt := Cyclic.ahead_lt (hcur.trans_le hlen)
    ((Scheduler.runnable_lt hu).trans_le hlen) hne
  omega

/-- Of three tasks, one of which sleeps and is joined by a fourth, the last has its turn within
three calls. -/
theorem task_gets_turn_of_three : ∃ bs t,
    bs <+: [SchedAct.yieldNow, .spawn none none, .sleepTicks 5, .tick] ∧
      bs.foldlM Tasking.step ⟨⟨[.kernel, .kernel, .kernel], 0⟩, 0⟩ = some t ∧
      t.sched.current = 2 :=
  task_gets_turn rfl (by decide) rfl (by decide)

/-! ## The machine -/

namespace Scheduler.Turn

variable {s : Scheduler} {k k' : Kernel} {pid : Nat} {p : Process} {m m' : Machine} {a : Act}

theorem schedule (k' : Kernel) (h : s.Spares k'.sched) : s.Turn true k'.schedule.sched := by
  rw [k'.schedule_sched]
  exact .pass h

theorem blockCurrent (k' : Kernel) (h : s.Spares k'.sched) :
    s.Turn true k'.blockCurrent.sched :=
  schedule { k' with sched := k'.sched.markBlocked } (h.trans (.mark k'.sched _))

theorem taskExit (k' : Kernel) (h : s.Spares k'.sched) : s.Turn true k'.taskExit.sched :=
  schedule { k' with sched := k'.sched.markExited } (h.trans (.mark k'.sched _))

theorem enterWait (h : m.k.sched.Spares k.sched) (hu : AtUser k pid p) (ringPa minComplete : Nat) :
    ∃ b, m.k.sched.Turn b ({ m with k := k }.enterWait pid ringPa minComplete).k.sched := by
  rcases enterWait_cases (m := { m with k := k }) hu ringPa minComplete with ⟨-, he⟩ | ⟨-, he⟩
  · rw [he]
    exact ⟨_, .stay h⟩
  · rw [he]
    exact ⟨_, blockCurrent
      { k with processes := Processes.setWaiter k.processes pid (taskOf pid) } h⟩

theorem poller {l l' : Poller} (hmove : PollerMove k l k' l') : ∃ b, k.sched.Turn b k'.sched := by
  cases hmove with
  | record hpc => exact ⟨_, .stay (.refl _)⟩
  | @scanActivate n i root hpc =>
    rw [show (k.activate root).sched = k.sched by rw [Kernel.activate_eq]]
    exact ⟨_, .stay (.refl _)⟩
  | scanDrain hpc hd =>
    obtain ⟨p, hp⟩ := drain_entry hd
    have hrec := (Kernel.drain_served hp hd).recruited
    exact ⟨_, .stay (.of_old hrec.current hrec.old)⟩
  | worked hpc hk =>
    rcases hk with rfl | rfl
    · exact ⟨_, .stay (.refl _)⟩
    · exact ⟨_, .stay (.refl _)⟩
  | flagsStore hpc => exact ⟨_, .stay (.refl _)⟩
  | block hpc => exact ⟨_, blockCurrent k (.refl _)⟩
  | yield hpc => exact ⟨_, schedule k (.refl _)⟩
  | _ => exact ⟨_, .stay (.refl _)⟩

theorem uart (hctl : Ctl m) {bytes : List UInt8} (hs : Machine.uartIrq m.k bytes = some k') :
    m.k.sched.Spares k'.sched := by
  rcases hctl.uart_move hs with ⟨input, uart⟩ |
    @⟨input, uart, pid, i₁, i₃, p, k₂, completed, -, -, -, hloop⟩
  · exact .refl _
  have hq := Kernel.pollPendingFrom_quiet hloop
  rw [← show k₂.sched = m.k.sched from hq.sched]
  cases completed with
  | false => exact .refl _
  | true => exact .of_woken (k₂.sched.wakeWaiter_woken _)

/-- **What a step of the machine does to the task table.** -/
theorem of_move (hctl : Ctl m) (hm : Move m a m') :
    ∃ b, ((a == .tick) = true → b = true) ∧ m.k.sched.Turn b m'.k.sched := by
  have ho := hctl.orderly
  -- all steps but the timer's
  have hother : ∀ {a : Act}, a ≠ .tick → (∃ b, m.k.sched.Turn b m'.k.sched) →
      ∃ b, ((a == .tick) = true → b = true) ∧ m.k.sched.Turn b m'.k.sched := by
    rintro a ha ⟨b, hb⟩
    exact ⟨b, fun h ↦ absurd (eq_of_beq h) ha, hb⟩
  cases hm with
  | create hcur hpc himage hroot hspace => exact hother (by rintro ⟨⟩) ⟨_, .stay (.refl _)⟩
  | foreground hcur hpc => exact hother (by rintro ⟨⟩) ⟨_, .stay (.refl _)⟩
  | spawnJsh hcur hpc hp =>
    exact hother (by rintro ⟨⟩) ⟨_, .stay (.of_old rfl fun ht ↦ List.getElem?_append_left ht)⟩
  | idle hcur hpc => exact hother (by rintro ⟨⟩) ⟨_, schedule m.k (.refl _)⟩
  | poller hcur hmove => exact hother (by rintro ⟨⟩) (poller hmove)
  | start hu hpc => exact hother (by rintro ⟨⟩) ⟨_, .stay (.refl _)⟩
  | retest hu hpc => exact hother (by rintro ⟨⟩) (enterWait (m := m) (.refl _) hu _ _)
  | store hu hpc hs =>
    obtain ⟨pa, rfl⟩ := Machine.userStore_cases hs
    exact hother (by rintro ⟨⟩) ⟨_, .stay (.refl _)⟩
  | setup hu hpc hs =>
    refine hother (by rintro ⟨⟩) ⟨_, .stay ?_⟩
    obtain ⟨-, -, ⟨-, rfl⟩ | ⟨-, -, -, -, -, -, rfl⟩⟩ := Kernel.setupRing_cases hs
    · exact .refl _
    · exact .refl _
  | enterNothing hu hpc hring => exact hother (by rintro ⟨⟩) ⟨_, .stay (.refl _)⟩
  | enter hu hpc hring hs =>
    obtain ⟨k₁, -, -, hserved, hw, -⟩ := ho.enterSubmit (hctl.idle hu).2 hu.entry hs
    obtain ⟨-, p', hu', -⟩ := Proceeds.enterSubmit ho hctl.running (hctl.idle hu).2 hu hs
    have hrec := hserved.recruited
    have hspares := (Spares.of_woken hw).trans (.of_old hrec.current hrec.old)
    exact hother (by rintro ⟨⟩) (enterWait hspares hu' _ _)
  | @exit u pid code p report k' hact hu hpc ht =>
    obtain ⟨-, -, -, hw⟩ := (ho.kprintln report).markExited hu.current (hu.kprintln report).entry ht
    exact hother (by rintro ⟨⟩) ⟨_, taskExit k' (.of_woken hw)⟩
  | tick hmask =>
    exact ⟨true, fun _ ↦ rfl, schedule { m.k with
        ticks := (m.k.ticks + 1) % 2 ^ 64
        sched := m.k.sched.wakeSleepers ((m.k.ticks + 1) % 2 ^ 64) }
      (.of_woken (m.k.sched.wakeSleepers_woken _))⟩
  | uart hmask hs => exact hother (by rintro ⟨⟩) ⟨_, .stay (uart hctl hs)⟩

end Scheduler.Turn

theorem machine_takesTurns (programs : List (String × List UInt8)) :
    TakesTurns (machine programs) ((machine programs).Reach System.Free) (·.k.sched)
      (· == .tick) where
  keep h hs := h.step trivial hs
  turn h hs :=
    have hctl := ctl_of_reach h
    Scheduler.Turn.of_move hctl (step_cases hctl.orderly hctl.running hs)
  current h := Scheduler.runnable_lt (ctl_of_reach h).running.runnable

/-- **No task starves in the machine.**  From any state, whatever the processes, the poller, `kmain`
and the devices do, a task that is runnable has the processor before the timer has ticked as often
as there are other tasks at the end. -/
theorem task_runs_within_ticks {programs : List (String × List UInt8)} {m m' : Machine}
    {as : List Act} {u : Nat} (h : (machine programs).Reach System.Free m)
    (hrun : as.foldlM Machine.step m = some m') (hu : m.k.sched.runnable u = true)
    (hticks : m'.k.sched.tasks.length ≤ as.count .tick + 1) :
    ∃ bs t, bs <+: as ∧ bs.foldlM Machine.step m = some t ∧ t.k.sched.current = u := by
  refine (machine_takesTurns programs).comes_round as h hrun hu fun hne ↦ ?_
  have hlen := (machine_takesTurns programs).length as h hrun
  have hcur := (machine_takesTurns programs).current h
  have hlt := Cyclic.ahead_lt (hcur.trans_le hlen)
    ((Scheduler.runnable_lt hu).trans_le hlen) hne
  rw [List.count] at hticks
  omega

/-- While the shell runs, the poller's task has the processor within four ticks. -/
theorem task_runs_within_ticks_shell : ∃ m m', (machine shellOnly).Reach System.Free m ∧
    [Act.tick, .tick, .tick, .tick].foldlM Machine.step m = some m' ∧
    ∃ bs t, bs <+: [Act.tick, .tick, .tick, .tick] ∧ bs.foldlM Machine.step m = some t ∧
      t.k.sched.current = pollerTask := by
  obtain ⟨m₀, p, h₀, hel0, -⟩ := exists_ringed System.Free fun _ _ _ _ ↦ trivial
  obtain ⟨m₁, hs₁, h₁, huser₁, -⟩ :=
    h₀.ticks (next_last _ _) (h₀.unmasked_user (.inl hel0)) trivial
  obtain ⟨m₂, hs₂, h₂, huser₂, -⟩ := h₁.ticks (next_kmain _) (h₁.unmasked (by decide)) trivial
  obtain ⟨m₃, hs₃, h₃, huser₃, -⟩ := h₂.ticks (next_poller _ _) (h₂.unmasked le_rfl) trivial
  have hel0₃ : m₃.user (taskOf 0) = .el0 := by rw [huser₃, huser₂, huser₁, hel0]
  obtain ⟨m₄, hs₄, h₄, -⟩ := h₃.ticks (next_last _ _) (h₃.unmasked_user (.inl hel0₃)) trivial
  have hrun : [Act.tick, .tick, .tick, .tick].foldlM Machine.step m₀ = some m₄ := by
    simp only [List.foldlM_cons, List.foldlM_nil, hs₁, hs₂, hs₃, hs₄, Option.bind_eq_bind,
      Option.bind_some, Option.pure_def]
  refine ⟨m₀, m₄, h₀.reach, hrun, task_runs_within_ticks h₀.reach hrun ?_ ?_⟩
  · rw [h₀.sched]
    rfl
  · rw [h₄.sched]
    exact le_rfl

end Jatuli

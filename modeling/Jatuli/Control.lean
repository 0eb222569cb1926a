import Jatuli.Moves

/-!
# The machine keeps its tables in order

In every run, whatever the programs are and whatever the poller is preempted by, the tables of
tasks and processes are in order, what runs is runnable in its own space, and the positions of
`kmain`, the poller and the user tasks fit the tables.  Nothing about memory enters.
-/

set_option autoImplicit false

namespace Jatuli

/-- What a step does to the tables; `retired` is the task that ends in it, if one does. -/
structure Proceeds (retired : Option Nat) (k k' : Kernel) : Prop where
  orderly : Orderly k'
  running : k'.Running
  evolves : k.Evolves k'
  /-- New processes come with their tasks. -/
  staff : k'.sched.tasks.length + k.processes.length = k.sched.tasks.length + k'.processes.length
  /-- No other task ends. -/
  tasks : ∀ {t : Nat} {x : Task}, some t ≠ retired → k.sched.tasks[t]? = some x →
    x.state ≠ .exited → ∃ x', k'.sched.tasks[t]? = some x' ∧ x'.state ≠ .exited

namespace Proceeds

variable {k k' k'' : Kernel} {retired : Option Nat}

theorem refl (ho : Orderly k) (hrun : k.Running) : Proceeds none k k :=
  ⟨ho, hrun, .refl k, rfl, fun _ ht hx ↦ ⟨_, ht, hx⟩⟩

theorem trans (h : Proceeds none k k') (h' : Proceeds retired k' k'') : Proceeds retired k k'' where
  orderly := h'.orderly
  running := h'.running
  evolves := h.evolves.trans h'.evolves
  staff := by
    have := h.staff
    have := h'.staff
    omega
  tasks hr ht hx := by
    obtain ⟨x', ht', hx'⟩ := h.tasks (by simp) ht hx
    exact h'.tasks hr ht' hx'

/-- Tasks are woken at most. -/
theorem of_woken (ho : Orderly k') (hrun : k.Running) (hev : k.Evolves k')
    (hlen : k'.processes.length = k.processes.length) (hw : k.sched.Woken k'.sched)
    (hroot : k'.ttbr0 = k.ttbr0) : Proceeds none k k' := by
  refine ⟨ho, hrun.of_woken hw hroot, hev, by rw [hw.length, hlen], fun _ ht hx ↦ ?_⟩
  obtain ⟨x', ht', -, -, hs | ⟨-, hs⟩⟩ := hw.getElem? ht
  · exact ⟨x', ht', by rwa [hs]⟩
  · exact ⟨x', ht', hs ▸ nofun⟩

theorem quiet (ho : Orderly k) (hrun : k.Running) (hq : Quiet k k') : Proceeds none k k' :=
  of_woken (ho.quiet hq) hrun (.of_eq hq.processes hq.kernelTtbr0) (by rw [hq.processes])
    (hq.sched ▸ .refl _) hq.ttbr0

theorem schedule (ho : Orderly k) (hrun : k.Running) : Proceeds none k k.schedule :=
  ⟨ho.schedule, ho.reschedule hrun, .of_eq k.schedule_processes k.schedule_kernelTtbr0,
    by rw [k.schedule_tasks, k.schedule_processes], fun _ ht hx ↦
      ⟨_, by rwa [k.schedule_tasks], hx⟩⟩

theorem tick (ho : Orderly k) (hrun : k.Running) : Proceeds none k k.tick := by
  obtain ⟨ho', hrun'⟩ := ho.tick hrun
  have hw := k.sched.wakeSleepers_woken ((k.ticks + 1) % 2 ^ 64)
  have hps : k.tick.processes = k.processes := Kernel.schedule_processes _
  have htasks : k.tick.sched.tasks = (k.sched.wakeSleepers ((k.ticks + 1) % 2 ^ 64)).tasks :=
    Kernel.schedule_tasks _
  refine ⟨ho', hrun', .of_eq hps (Kernel.schedule_kernelTtbr0 _), by rw [htasks, hw.length, hps],
    fun _ ht hx ↦ ?_⟩
  rw [htasks]
  obtain ⟨x', ht', -, -, hs | ⟨-, hs⟩⟩ := hw.getElem? ht
  · exact ⟨x', ht', by rwa [hs]⟩
  · exact ⟨x', ht', hs ▸ nofun⟩

theorem block (ho : Orderly k) (hrun : k.Running) (hc : pollerTask ≤ k.sched.current) :
    Proceeds none k k.blockCurrent := by
  obtain ⟨ho', hrun'⟩ := ho.block hrun hc
  have hps : k.blockCurrent.processes = k.processes := Kernel.schedule_processes _
  have htasks : k.blockCurrent.sched.tasks = k.sched.markBlocked.tasks := Kernel.schedule_tasks _
  refine ⟨ho', hrun', .of_eq hps (Kernel.schedule_kernelTtbr0 _), ?_, fun {t x} _ ht hx ↦ ?_⟩
  · rw [htasks, hps]
    exact congrArg (· + _) (List.length_modify ..)
  · rw [htasks, Scheduler.markBlocked, List.getElem?_modify, ht]
    refine ⟨_, rfl, ?_⟩
    simp only
    split_ifs
    · exact fun hc ↦ by cases hc
    · exact hx

theorem served {pid : Nat} {p : Process} (ho : Orderly k) (hrun : k.Running) (hstaff : Staffed k)
    (hp : k.processes[pid]? = some p) (hs : Served pid k k') : Proceeds none k k' := by
  refine ⟨(ho.served hstaff hp hs).1, hrun.of_recruited hs.recruited hs.ttbr0, hs.evolves,
    hs.recruited.length hs.length_le, fun {t x} _ ht hx ↦ ⟨x, ?_, hx⟩⟩
  rw [hs.recruited.old (List.getElem?_eq_some_iff.mp ht).1, ht]

theorem exit {pid : Nat} {p : Process} (ho : Orderly k) (hu : AtUser k pid p) {code : Int}
    (ht : k.teardown pid code = some k') :
    Proceeds (some (taskOf pid)) k k'.taskExit := by
  obtain ⟨ho', hrun', hev, hps, hw⟩ := ho.exit hu.current hu.entry ht
  have htasks : k'.taskExit.sched.tasks = k'.sched.markExited.tasks := Kernel.schedule_tasks _
  refine ⟨ho', hrun', hev, ?_, fun {t x} hne htask hx ↦ ?_⟩
  · rw [hps, htasks, ← hw.length]
    exact congrArg (· + _) (List.length_modify ..)
  · have hcur : k'.sched.current ≠ t := fun he ↦ hne <| by
      rw [← he, hw.current, hu.current]
    rw [htasks, Scheduler.markExited, List.getElem?_modify_ne _ _ hcur]
    obtain ⟨x', hx', -, -, hs | ⟨-, hs⟩⟩ := hw.getElem? htask
    · exact ⟨x', hx', by rwa [hs]⟩
    · exact ⟨x', hx', by rw [hs]; rintro ⟨⟩⟩

/-- The exit is announced first. -/
theorem reportedExit {pid : Nat} {p : Process} (ho : Orderly k) (hrun : k.Running)
    (hu : AtUser k pid p) {code : Int} {report : String}
    (ht : (k.kprintln report).teardown pid code = some k') :
    Proceeds (some (taskOf pid)) k k'.taskExit :=
  have hq := k.kprintln_quiet report
  (quiet ho hrun hq).trans (.exit (ho.quiet hq) (hu.kprintln report) ht)

end Proceeds

/-! ## Positions -/

/-- What the tables look like while `kmain` stands at a point: before the shell has its task there
is no task of a process, and no ring. -/
def KmainOk (k : Kernel) : KmainPc → Prop
  | .createJsh => k.sched.tasks.length = taskOf 0 ∧ k.processes = []
  | .setForeground p0 | .spawnJsh p0 => k.sched.tasks.length = taskOf 0 ∧ p0 = 0 ∧
      ∃ p, k.processes = [p] ∧ p.ringPa = 0 ∧ p.live = true
  | .idle => Staffed k

/-- The root the poller is about to install is that of the process it has come to. -/
def PollerOk (k : Kernel) : PollerPc → Prop
  | .scanActivate _ i root => ∃ p, k.processes[i]? = some p ∧ p.ttbr0 = root
  | _ => True

/-- A task in `enter` is that of a live process, and is about that process's ring. -/
def UserOk (k : Kernel) (pid : Nat) : UserPc → Prop
  | .inEnter ringPa _ => ∃ t p, k.sched.tasks[taskOf pid]? = some t ∧ t.state ≠ .exited ∧
      k.processes[pid]? = some p ∧ p.live = true ∧ p.ringPa = ringPa ∧ ringPa ≠ 0
  | _ => True

/-- **The control invariant.** -/
structure Ctl (m : Machine) : Prop where
  orderly : Orderly m.k
  running : m.k.Running
  kmain : KmainOk m.k m.kmain
  poller : PollerOk m.k m.poller.pc
  user : ∀ pid, UserOk m.k pid (m.user (taskOf pid))

section Positions

variable {k k' : Kernel}

theorem KmainOk.of_same {pc : KmainPc} (h : KmainOk k pc) (hps : k'.processes = k.processes)
    (hts : k'.sched.tasks.length = k.sched.tasks.length) : KmainOk k' pc := by
  cases pc <;> simpa only [KmainOk, Staffed, hps, hts] using h

/-- Until `kmain` idles there is no user task and no ring. -/
theorem KmainOk.early {pc : KmainPc} (h : KmainOk k pc) : pc = .idle ∧ Staffed k ∨
    k.sched.tasks.length = taskOf 0 ∧
      ∀ {i : Nat} {p : Process}, k.processes[i]? = some p → p.ringPa = 0 := by
  have hone : ∀ {p₀ : Process}, k.processes = [p₀] → p₀.ringPa = 0 →
      ∀ {i : Nat} {p : Process}, k.processes[i]? = some p → p.ringPa = 0 := by
    intro p₀ hps hring i p hp
    rw [hps, List.getElem?_singleton] at hp
    split at hp
    · cases hp
      exact hring
    · cases hp
  cases pc with
  | createJsh => exact .inr ⟨h.1, fun hp ↦ by rw [h.2] at hp; cases hp⟩
  | setForeground p0 =>
    obtain ⟨hlen, -, p₀, hps, hring, -⟩ := h
    exact .inr ⟨hlen, hone hps hring⟩
  | spawnJsh p0 =>
    obtain ⟨hlen, -, p₀, hps, hring, -⟩ := h
    exact .inr ⟨hlen, hone hps hring⟩
  | idle => exact .inl ⟨rfl, h⟩

theorem PollerOk.evolves {pc : PollerPc} (h : PollerOk k pc) (hev : k.Evolves k') :
    PollerOk k' pc := by
  cases pc with
  | scanActivate n i root =>
    obtain ⟨p, hp, rfl⟩ := h
    obtain ⟨p', hp', he⟩ := hev.entries hp
    exact ⟨p', hp', he.ttbr0⟩
  | _ => trivial

theorem UserOk.proceeds {pid : Nat} {pc : UserPc} {retired : Option Nat} (h : UserOk k pid pc)
    (hp : Proceeds retired k k') (hne : some (taskOf pid) ≠ retired) : UserOk k' pid pc := by
  cases pc with
  | inEnter ringPa minComplete =>
    obtain ⟨t, p, ht, hst, hentry, hl, hring, hzero⟩ := h
    obtain ⟨t', ht', hst'⟩ := hp.tasks hne ht hst
    obtain ⟨p', hp', he⟩ := hp.evolves.entries hentry
    have hl' := hp.orderly.alive ht' hp' hst'
    exact ⟨t', p', ht', hst', hp', hl', by rw [he.ring hl' (by rwa [hring]), hring], hzero⟩
  | _ => trivial

theorem input_quiet (k : Kernel) (input : InputBuf) (uart : Uart) :
    Quiet k { k with input, uart } := ⟨rfl, rfl, rfl, rfl, rfl, rfl, rfl, rfl, rfl, rfl⟩

theorem drain_of_no_ring {i : Nat}
    (hring : ∀ {p : Process}, k.processes[i]? = some p → p.ringPa = 0)
    (hd : k.drain i = some k') : k' = k := by
  rw [Kernel.drain] at hd
  obtain ⟨pa, hpa, hd⟩ := Option.bind_eq_some_iff.mp hd
  obtain ⟨p, hp, rfl⟩ := ringPa_eq_some hpa
  rw [if_pos (hring hp)] at hd
  cases hd
  rfl

end Positions

/-! ## One step -/

namespace Ctl

variable {m m' : Machine} {a : Act}

/-- When a process runs, `kmain` is through with its start. -/
theorem idle (h : Ctl m) {pid : Nat} {p : Process} (hu : AtUser m.k pid p) :
    m.kmain = .idle ∧ Staffed m.k := by
  rcases h.kmain.early with hidle | ⟨hlen, -⟩
  · exact hidle
  · obtain ⟨t, ht, -⟩ := Scheduler.runnable_iff.mp h.running.runnable
    have hlt := (List.getElem?_eq_some_iff.mp ht).1
    rw [hu.current, hlen, taskOf, taskOf] at hlt
    omega

theorem of_proceeds {retired : Option Nat} (h : Ctl m) (hp : Proceeds retired m.k m'.k)
    (hkmain : KmainOk m'.k m'.kmain) (hpoller : PollerOk m'.k m'.poller.pc)
    (huser : ∀ pid, some (taskOf pid) ≠ retired ∧ m'.user (taskOf pid) = m.user (taskOf pid) ∨
      UserOk m'.k pid (m'.user (taskOf pid))) : Ctl m' := by
  refine ⟨hp.orderly, hp.running, hkmain, hpoller, fun pid ↦ ?_⟩
  rcases huser pid with ⟨hne, he⟩ | hok
  · rw [he]
    exact (h.user pid).proceeds hp hne
  · exact hok

/-- The poller's steps. -/
theorem poller_proceeds (h : Ctl m) (hcur : m.atPoller) {k' : Kernel} {l' : Poller}
    (hmove : PollerMove m.k m.poller k' l') :
    Proceeds none m.k k' ∧ KmainOk k' m.kmain ∧ PollerOk k' l'.pc := by
  have ho := h.orderly
  have hrun := h.running
  have hsame : Proceeds none m.k m.k := .refl ho hrun
  cases hmove with
  | record hpc =>
    refine ⟨.of_woken (ho.of_woken rfl (.refl _) ho.synced (fun he ↦ by cases he; rfl) rfl) hrun
      (.of_eq rfl rfl) rfl (.refl _) rfl, h.kmain.of_same rfl rfl, trivial⟩
  | scanTtbr0 hpc hp => exact ⟨hsame, h.kmain, _, hp, rfl⟩
  | @scanActivate n i root hpc =>
    have hk := h.poller
    rw [hpc] at hk
    obtain ⟨p, hp, rfl⟩ := hk
    have hrun' : (m.k.activate p.ttbr0).Running := by
      refine ⟨by rw [Kernel.activate_sched]; exact hrun.runnable, fun t r ht hr ↦ ?_⟩
      -- the poller has no space of its own
      rw [Kernel.activate_sched, hcur] at ht
      have hb := ho.kernel pollerTask le_rfl
      rw [ht, Option.map_some, Option.some.injEq] at hb
      rw [(Prod.mk.inj hb).2] at hr
      cases hr
    refine ⟨⟨ho.activate _, hrun', .of_eq ?_ ?_, ?_, fun _ ht hx ↦ ⟨_, ?_, hx⟩⟩,
      h.kmain.of_same ?_ ?_, trivial⟩
    · exact m.k.activate_processes _
    · exact m.k.activate_kernelTtbr0 _
    · rw [Kernel.activate_sched, Kernel.activate_processes]
    · rwa [Kernel.activate_sched]
    · exact m.k.activate_processes _
    · rw [Kernel.activate_sched]
  | @scanDrain n i k' hpc hd =>
    rcases h.kmain.early with ⟨hidle, hstaff⟩ | ⟨-, hring⟩
    · obtain ⟨pa, hpa, -⟩ := Option.bind_eq_some_iff.mp hd
      obtain ⟨p, hp, -⟩ := ringPa_eq_some hpa
      have hs := Kernel.drain_served hp hd
      refine ⟨.served ho hrun hstaff hp hs, ?_, trivial⟩
      rw [hidle]
      exact (ho.served hstaff hp hs).2
    · cases drain_of_no_ring hring hd
      exact ⟨hsame, h.kmain, trivial⟩
  | @worked k' hpc hk =>
    rcases hk with rfl | rfl
    · exact ⟨hsame, h.kmain, trivial⟩
    · exact ⟨.quiet ho hrun (m.k.kprintln_quiet _), h.kmain.of_same rfl rfl, trivial⟩
  | flagsStore hpc =>
    exact ⟨.quiet ho hrun (m.k.ringStore_quiet ..), h.kmain.of_same rfl rfl, trivial⟩
  | block hpc =>
    refine ⟨.block ho hrun hcur.ge, h.kmain.of_same (Kernel.schedule_processes _) ?_, trivial⟩
    rw [Kernel.blockCurrent, Kernel.schedule_tasks]
    exact List.length_modify ..
  | yield hpc =>
    exact ⟨.schedule ho hrun, h.kmain.of_same m.k.schedule_processes (by rw [m.k.schedule_tasks]),
      trivial⟩
  | _ => exact ⟨hsame, h.kmain, trivial⟩

end Ctl

/-! ## Steps of a process -/

section User

variable {m : Machine} {k k' : Kernel} {pid : Nat} {p : Process}

theorem AtUser.of_woken (hu : AtUser k pid p) (hps : k'.processes = k.processes)
    (hw : k.sched.Woken k'.sched) (ht : k'.ttbr0 = k.ttbr0) : AtUser k' pid p := by
  refine ⟨hw.current.trans hu.current, ?_, by rw [hps, hu.entry], hu.live, ht.trans hu.root⟩
  rw [hw.currentProcess, hu.process]

theorem AtUser.served (hu : AtUser k pid p) (hs : Served pid k k') :
    ∃ p', AtUser k' pid p' ∧ Touched pid pid p p' := by
  obtain ⟨p', hp', ht⟩ := hs.entries hu.entry
  refine ⟨p', ⟨hs.recruited.current.trans hu.current, ?_, hp', ?_, ?_⟩, ht⟩
  · obtain ⟨t, htask, -⟩ := Option.bind_eq_some_iff.mp hu.process
    rw [hs.recruited.currentProcess htask, hu.process]
  · rw [ht.rest]
    exact hu.live
  · rw [hs.ttbr0, hu.root, ht.evolves.ttbr0]

theorem userGoto_self (hu : AtUser m.k pid p) (pc : UserPc) :
    (m.userGoto pc).user (taskOf pid) = pc := by
  rw [Machine.userGoto, hu.current]
  exact Function.update_self ..

theorem userGoto_of_ne (hu : AtUser m.k pid p) (pc : UserPc) {i : Nat} (hi : i ≠ pid) :
    (m.userGoto pc).user (taskOf i) = m.user (taskOf i) := by
  rw [Machine.userGoto, hu.current]
  refine Function.update_of_ne ?_ ..
  rw [taskOf, taskOf]
  omega

theorem userTask_self (hu : AtUser m.k pid p) : m.userTask.user (taskOf pid) = .el0 :=
  userGoto_self (m := { m with k := m.k.kprintln _ }) (hu.kprintln _) .el0

theorem userTask_of_ne (hu : AtUser m.k pid p) {i : Nat} (hi : i ≠ pid) :
    m.userTask.user (taskOf i) = m.user (taskOf i) :=
  userGoto_of_ne (m := { m with k := m.k.kprintln _ }) (hu.kprintln _) .el0 hi

/-- `enter`, from the test of its loop on: the process goes back to user code, or is recorded as
waiting and blocks. -/
theorem enterWait_cases (hu : AtUser m.k pid p) (ringPa minComplete : Nat) :
    (minComplete ≤ m.k.unreaped ringPa ∧
      m.enterWait pid ringPa minComplete = m.userGoto .el0) ∨
    (m.k.unreaped ringPa < minComplete ∧
      m.enterWait pid ringPa minComplete =
        { m.userGoto (.inEnter ringPa minComplete) with
          k := { m.k with
            processes := Processes.setWaiter m.k.processes pid (taskOf pid) }.blockCurrent }) := by
  rw [Machine.enterWait, hu.current]
  split_ifs with hmin
  · exact .inl ⟨hmin, rfl⟩
  · exact .inr ⟨Nat.lt_of_not_le hmin, rfl⟩

theorem taskOf_ge (pid : Nat) : pollerTask ≤ taskOf pid := by
  rw [taskOf]
  omega

/-- Recording the waiter and blocking. -/
theorem Proceeds.wait (ho : Orderly k) (hrun : k.Running) (hu : AtUser k pid p) :
    Proceeds none k
      { k with processes := Processes.setWaiter k.processes pid (taskOf pid) }.blockCurrent := by
  obtain ⟨ho₁, hev₁⟩ := ho.setWaiter hu.entry
  have h₁ : Proceeds none k
      { k with processes := Processes.setWaiter k.processes pid (taskOf pid) } :=
    .of_woken ho₁ hrun hev₁ (List.length_modify ..) (.refl _) rfl
  exact h₁.trans (.block ho₁ h₁.running (hu.current ▸ taskOf_ge pid))

/-- The wait loop keeps the tables in order, and leaves the process where it should be. -/
theorem enterWait_proceeds (ho : Orderly m.k) (hrun : m.k.Running) (hu : AtUser m.k pid p)
    (hring : p.ringPa ≠ 0) (minComplete : Nat) :
    Proceeds none m.k (m.enterWait pid p.ringPa minComplete).k ∧
      UserOk (m.enterWait pid p.ringPa minComplete).k pid
        ((m.enterWait pid p.ringPa minComplete).user (taskOf pid)) ∧
      ∀ i ≠ pid, (m.enterWait pid p.ringPa minComplete).user (taskOf i) = m.user (taskOf i) := by
  rcases enterWait_cases hu p.ringPa minComplete with ⟨-, he⟩ | ⟨-, he⟩
  · rw [he]
    refine ⟨.refl ho hrun, ?_, fun i hi ↦ userGoto_of_ne hu _ hi⟩
    rw [userGoto_self hu]
    trivial
  · rw [he]
    have hp := Proceeds.wait ho hrun hu
    refine ⟨hp, ?_, fun i hi ↦ userGoto_of_ne hu _ hi⟩
    obtain ⟨t, ht, hst⟩ := Scheduler.runnable_iff.mp hrun.runnable
    rw [hu.current] at ht
    have hok : UserOk m.k pid (.inEnter p.ringPa minComplete) :=
      ⟨t, p, ht, hst ▸ nofun, hu.entry, hu.live, rfl, hring⟩
    show UserOk _ pid ((m.userGoto (.inEnter p.ringPa minComplete)).user (taskOf pid))
    rw [userGoto_self hu]
    exact hok.proceeds hp (by simp)

/-- The first half of `enter`. -/
theorem Proceeds.enterSubmit (ho : Orderly k) (hrun : k.Running) (hstaff : Staffed k)
    (hu : AtUser k pid p) {ringPa : Nat} (hs : k.enterSubmit pid ringPa = some k') :
    Proceeds none k k' ∧ ∃ p', AtUser k' pid p' ∧ Touched pid pid p p' := by
  obtain ⟨k₁, hk₁, -, hserved, hw, ho₁, -, -⟩ := ho.enterSubmit hstaff hu.entry hs
  have hps : k₁.processes = k.processes := by rcases hk₁ with rfl | rfl | rfl <;> rfl
  have hkt : k₁.kernelTtbr0 = k.kernelTtbr0 := by rcases hk₁ with rfl | rfl | rfl <;> rfl
  have hroot : k₁.ttbr0 = k.ttbr0 := by rcases hk₁ with rfl | rfl | rfl <;> rfl
  have h₁ : Proceeds none k k₁ := .of_woken ho₁ hrun (.of_eq hps hkt) (by rw [hps]) hw hroot
  have hu₁ := hu.of_woken hps hw hroot
  have hstaff₁ : Staffed k₁ := by
    rw [Staffed, hw.length, hps]
    exact hstaff
  exact ⟨h₁.trans (.served ho₁ h₁.running hstaff₁ hu₁.entry hserved), hu₁.served hserved⟩

end User

/-- What the UART interrupt can do. -/
inductive UartMove (k : Kernel) : Kernel → Prop
  /-- Input is taken in, and nobody waits for it. -/
  | input (input : InputBuf) (uart : Uart) : UartMove k { k with input, uart }
  /-- The reads of the foreground process are looked through in its space; when one of them is
  answered, the task that waits in `enter` is woken. -/
  | polled {input : InputBuf} {uart : Uart} {pid i₁ i₃ : Nat} {p : Process} {k₂ : Kernel}
      {completed : Bool} (hfg : Processes.foregroundPid k.processes = some pid)
      (hp : k.processes[pid]? = some p) (hring : p.ringPa ≠ 0)
      (hloop : Kernel.pollPendingFrom pid p.ringPa p.pending maxPending
        { k with input, uart, installed := i₁, ttbr0 := p.ttbr0 } false = some (completed, k₂)) :
      UartMove k { k₂ with
        installed := i₃
        ttbr0 := k.ttbr0
        processes := if completed then (Processes.takeWaiter k₂.processes pid).2 else k₂.processes
        sched := if completed
          then k₂.sched.wakeWaiter (Processes.takeWaiter k₂.processes pid).1 else k₂.sched }

namespace Ctl

variable {m m' : Machine} {a : Act}

/-- Before `kmain` has started the shell, its process is all there is. -/
theorem no_user_task {k : Kernel} (hlen : k.sched.tasks.length = taskOf 0) {pid : Nat} {t : Task} :
    k.sched.tasks[taskOf pid]? ≠ some t := by
  rw [List.getElem?_eq_none (by rw [hlen, taskOf, taskOf]; omega)]
  rintro ⟨⟩

/-- `kmain` creates the shell's process, without a task yet. -/
theorem create (h : Ctl m) (hpc : m.kmain = .createJsh) {root : Nat} (hroot : root ≠ 0)
    {phys : Phys} {loaded : Loaded} {frames : List (Nat × Nat)} :
    Ctl { m with
      k := { m.k with phys, processes := m.k.processes ++ [Process.fresh root loaded frames] }
      kmain := .setForeground m.k.processes.length } := by
  obtain ⟨hlen, hps⟩ : m.k.sched.tasks.length = taskOf 0 ∧ m.k.processes = [] := by
    have hk := h.kmain
    rwa [hpc] at hk
  rw [hps]
  have ho := h.orderly
  refine ⟨⟨⟨ho.kernel, fun ht ↦ absurd ht (no_user_task hlen), ho.states, fun {i p} hp ↦ ?_,
    ho.synced,
    ho.recorded, ho.kernelRoot⟩, fun ht ↦ absurd ht (no_user_task hlen)⟩,
    ⟨h.running.runnable, h.running.space⟩,
    ⟨hlen, rfl, _, rfl, rfl, rfl⟩, ?_, fun pid ↦ ?_⟩
  · rw [List.nil_append, List.getElem?_singleton] at hp
    split at hp
    · cases hp
      exact ⟨hroot, nofun, nofun, nofun⟩
    · cases hp
  · refine h.poller.evolves ⟨fun hp ↦ ?_, rfl⟩
    rw [hps] at hp
    cases hp
  · have hu := h.user pid
    cases hpcu : m.user (taskOf pid) with
    | inEnter ringPa minComplete =>
      rw [hpcu] at hu
      obtain ⟨t, -, ht, -⟩ := hu
      exact absurd ht (no_user_task hlen)
    | _ => trivial

/-- `kmain` gives the shell the keyboard. -/
theorem foreground (h : Ctl m) {p0 : Nat} (hpc : m.kmain = .setForeground p0) :
    Ctl { m with
      k := { m.k with processes := Processes.setForeground m.k.processes p0 true }
      kmain := .spawnJsh p0 } ∧
    Proceeds none m.k { m.k with processes := Processes.setForeground m.k.processes p0 true } := by
  obtain ⟨hlen, rfl, p, hps, hring, hl⟩ : m.k.sched.tasks.length = taskOf 0 ∧ p0 = 0 ∧
      ∃ p, m.k.processes = [p] ∧ p.ringPa = 0 ∧ p.live = true := by
    have hk := h.kmain
    rwa [hpc] at hk
  have hp : m.k.processes[0]? = some p := by rw [hps]; rfl
  have he : p.Evolves { p with foreground := true } := .of_eq rfl rfl rfl rfl rfl
  have hset : Processes.setForeground m.k.processes 0 true = _ := modify_eq_set hp _
  have hok : EntryOk 0 { p with foreground := true } :=
    have hentry := h.orderly.entry hp
    ⟨hentry.root, hentry.parent, fun hd ↦ absurd (hl.symm.trans hd) nofun, hentry.waiter⟩
  have hproc : Proceeds none m.k
      { m.k with processes := Processes.setForeground m.k.processes 0 true } :=
    .of_woken (h.orderly.set hp he rfl hok hset (.refl _) h.orderly.synced rfl rfl) h.running
      (.of_set hp he hset rfl) (List.length_modify ..) (.refl _) rfl
  refine ⟨h.of_proceeds hproc ⟨hlen, rfl, { p with foreground := true }, ?_, hring, hl⟩
    (h.poller.evolves hproc.evolves) fun pid ↦ .inl ⟨nofun, rfl⟩, hproc⟩
  show Processes.setForeground m.k.processes 0 true = _
  rw [hset, hps]
  rfl

/-- `kmain` spawns the shell's task. -/
theorem spawnJsh (h : Ctl m) {p0 : Nat} {p : Process} (hpc : m.kmain = .spawnJsh p0)
    (hp : m.k.processes[p0]? = some p) :
    Ctl { m with k := m.k.spawnUser p0 p.ttbr0, kmain := .idle } := by
  obtain ⟨hlen, rfl, p₀, hps, hring, hl⟩ : m.k.sched.tasks.length = taskOf 0 ∧ p0 = 0 ∧
      ∃ p, m.k.processes = [p] ∧ p.ringPa = 0 ∧ p.live = true := by
    have hk := h.kmain
    rwa [hpc] at hk
  rw [hps] at hp
  cases hp
  have ho := h.orderly
  have hold : ∀ {t : Nat}, t < taskOf 0 →
      (m.k.spawnUser 0 p.ttbr0).sched.tasks[t]? = m.k.sched.tasks[t]? := fun ht ↦
    List.getElem?_append_left (by rw [hlen]; exact ht)
  have hnew : ∀ {pid : Nat} {t : Task}, (m.k.spawnUser 0 p.ttbr0).sched.tasks[taskOf pid]? =
      some t → pid = 0 ∧ t = Task.user 0 p.ttbr0 := by
    intro pid t ht
    rw [Kernel.spawnUser, Scheduler.spawnInner,
      List.getElem?_append_right (by rw [hlen, taskOf, taskOf]; omega),
      List.getElem?_singleton] at ht
    split at ht
    · rename_i hz
      cases ht
      refine ⟨?_, rfl⟩
      rw [hlen, taskOf, taskOf] at hz
      omega
    · cases ht
  have hkernel : ∀ i ≤ pollerTask,
      (m.k.spawnUser 0 p.ttbr0).sched.tasks[i]? = m.k.sched.tasks[i]? := fun i hi ↦
    hold (by rw [taskOf]; omega)
  have hp : m.k.processes[0]? = some p := by rw [hps]; rfl
  refine ⟨⟨⟨fun i hi ↦ ?_, fun ht ↦ ?_, ho.states.congr hkernel, ho.entry, ho.synced, ho.recorded,
    ho.kernelRoot⟩, fun ht hq _ ↦ ?_⟩, ?_, ?_, h.poller.evolves (.of_eq rfl rfl), fun pid ↦ ?_⟩
  · show Option.map _ ((m.k.spawnUser 0 p.ttbr0).sched.tasks[i]?) = _
    rw [hkernel i hi]
    exact ho.kernel i hi
  · obtain ⟨rfl, rfl⟩ := hnew ht
    exact ⟨p, hp, rfl⟩
  · obtain ⟨rfl, rfl⟩ := hnew ht
    rw [show (m.k.spawnUser 0 p.ttbr0).processes[0]? = some p from hp] at hq
    cases hq
    exact hl
  · obtain ⟨t, ht, hst⟩ := Scheduler.runnable_iff.mp h.running.runnable
    have hlt := (List.getElem?_eq_some_iff.mp ht).1
    rw [hlen] at hlt
    refine ⟨Scheduler.runnable_iff.mpr ⟨t, (hold hlt).trans ht, hst⟩, fun t' r ht' hr ↦ ?_⟩
    exact h.running.space t' r ((hold hlt).symm.trans ht') hr
  · show (m.k.sched.tasks ++ _).length = taskOf m.k.processes.length
    rw [List.length_append, hlen, hps, taskOf, taskOf]
    rfl
  · have hu := h.user pid
    cases hpcu : m.user (taskOf pid) with
    | inEnter ringPa minComplete =>
      rw [hpcu] at hu
      obtain ⟨t, -, ht, -⟩ := hu
      exact absurd ht (no_user_task hlen)
    | _ => trivial

/-- The UART interrupt: input is taken in, and parked reads are looked at once there are tasks of
processes; before that there is no ring. -/
theorem uart_cases (h : Ctl m) {bytes : List UInt8} {k' : Kernel}
    (hs : Machine.uartIrq m.k bytes = some k') :
    ∃ io : InputBuf × Uart,
      drainUart m.k.input { m.k.uart with rx := m.k.uart.rx ++ bytes } = io ∧
      (k' = { m.k with input := io.1, uart := io.2 } ∨
        m.kmain = .idle ∧ Staffed m.k ∧
          { m.k with input := io.1, uart := io.2 }.pollPending = some k') := by
  rw [Machine.uartIrq] at hs
  refine ⟨_, rfl, ?_⟩
  rcases h.kmain.early with ⟨hidle, hstaff⟩ | ⟨-, hring⟩
  · exact .inr ⟨hidle, hstaff, hs⟩
  · have ho := h.orderly
    rcases Kernel.pollPending_cases (k := { m.k with
        input := (drainUart m.k.input { m.k.uart with rx := m.k.uart.rx ++ bytes }).1
        uart := (drainUart m.k.input { m.k.uart with rx := m.k.uart.rx ++ bytes }).2 }) ho.synced
      (fun hp _ ↦ (ho.entry hp).root) hs with rfl | ⟨pid, p, i₁, k₂, completed, i₃, -, hp, hne, -⟩
    · exact .inl rfl
    · exact absurd (hring hp) hne

/-- **What the UART interrupt does.** -/
theorem uart_move (h : Ctl m) {bytes : List UInt8} {k' : Kernel}
    (hs : Machine.uartIrq m.k bytes = some k') : UartMove m.k k' := by
  obtain ⟨⟨input, uart⟩, -, rfl | ⟨-, -, hs⟩⟩ := h.uart_cases hs
  · exact .input input uart
  have ho := h.orderly.quiet (input_quiet m.k input uart)
  rcases Kernel.pollPending_cases ho.synced (fun hp _ ↦ (ho.entry hp).root) hs with
    rfl | ⟨pid, p, i₁, k₂, completed, i₃, hfg, hp, hring, -, hloop, -, rfl⟩
  · exact .input input uart
  · exact .polled hfg hp hring hloop

theorem uart (h : Ctl m) {bytes : List UInt8} {k' : Kernel}
    (hs : Machine.uartIrq m.k bytes = some k') :
    Proceeds none m.k k' ∧ KmainOk k' m.kmain := by
  obtain ⟨⟨input, uart⟩, -, rfl | ⟨hidle, hstaff, hs⟩⟩ := h.uart_cases hs
  · exact ⟨.quiet h.orderly h.running (input_quiet m.k input uart), h.kmain.of_same rfl rfl⟩
  · have hread : Proceeds none m.k { m.k with input, uart } :=
      .quiet h.orderly h.running (input_quiet m.k input uart)
    obtain ⟨ho', hstaff', hev, hw, ht⟩ := hread.orderly.pollPending hstaff hs
    have hlen : k'.processes.length = m.k.processes.length := by
      have hts := hw.length
      rw [Staffed, taskOf] at hstaff hstaff'
      have : k'.sched.tasks.length = m.k.sched.tasks.length := hts
      omega
    refine ⟨hread.trans (.of_woken ho' hread.running hev hlen hw ht), ?_⟩
    rw [hidle]
    exact hstaff'

/-- A step taken by a running process. -/
theorem of_user (h : Ctl m) {pid : Nat} {p : Process} (hu : AtUser m.k pid p) {k' : Kernel}
    {user : Nat → UserPc} {retired : Option Nat} (hp : Proceeds retired m.k k')
    (hret : ∀ i ≠ pid, some (taskOf i) ≠ retired)
    (hself : UserOk k' pid (user (taskOf pid)))
    (hother : ∀ i ≠ pid, user (taskOf i) = m.user (taskOf i))
    (hm : m' = { m with k := k', user }) : Ctl m' := by
  subst hm
  obtain ⟨hidle, hstaff⟩ := h.idle hu
  refine h.of_proceeds hp ?_ (h.poller.evolves hp.evolves) fun i ↦ ?_
  · show KmainOk k' m.kmain
    rw [hidle]
    have hlen := hp.staff
    rw [Staffed, taskOf] at hstaff
    show k'.sched.tasks.length = _
    rw [taskOf]
    omega
  · by_cases hi : i = pid
    · subst hi
      exact .inr hself
    · exact .inl ⟨hret i hi, hother i hi⟩

theorem of_move (h : Ctl m) (hm : Move m a m') : Ctl m' := by
  have ho := h.orderly
  have hrun := h.running
  have hkeep : ∀ {k' : Kernel}, Proceeds none m.k k' → KmainOk k' m.kmain →
      Ctl { m with k := k' } := fun hp hk ↦
    h.of_proceeds hp hk (h.poller.evolves hp.evolves) fun _ ↦ .inl ⟨nofun, rfl⟩
  cases hm with
  | create hcur hpc himage hroot hspace => exact h.create hpc (newAddressSpace_ne_zero hroot)
  | foreground hcur hpc => exact (h.foreground hpc).1
  | spawnJsh hcur hpc hp => exact h.spawnJsh hpc hp
  | idle hcur hpc =>
    exact hkeep (.schedule ho hrun)
      (h.kmain.of_same m.k.schedule_processes (by rw [m.k.schedule_tasks]))
  | poller hcur hmove =>
    obtain ⟨hp, hk, hpoll⟩ := h.poller_proceeds hcur hmove
    exact h.of_proceeds hp hk hpoll fun _ ↦ .inl ⟨nofun, rfl⟩
  | start hu hpc =>
    have hnext : m.userTask = { m with k := m.userTask.k, user := m.userTask.user } := rfl
    refine h.of_user hu (.quiet ho hrun (m.k.kprintln_quiet _)) nofun ?_
      (fun i hi ↦ userTask_of_ne hu hi) hnext
    rw [userTask_self hu]
    trivial
  | @retest pid ringPa minComplete p hu hpc =>
    have huser := h.user pid
    rw [hpc] at huser
    obtain ⟨t, q, -, -, hq, -, rfl, hring⟩ := huser
    rw [hu.entry] at hq
    cases hq
    obtain ⟨hp, hself, hother⟩ := enterWait_proceeds ho hrun hu hring minComplete
    refine h.of_user hu hp nofun hself hother ?_
    rcases enterWait_cases hu p.ringPa minComplete with ⟨-, he⟩ | ⟨-, he⟩ <;> rw [he] <;> rfl
  | @store pid va n v p k' hu hpc hs =>
    have hq : Quiet m.k k' := by
      obtain ⟨pa, rfl⟩ := Machine.userStore_cases hs
      exact m.k.setMem_quiet _
    exact hkeep (.quiet ho hrun hq) (h.kmain.of_same hq.processes (by rw [hq.sched]))
  | setup hu hpc hs =>
    obtain ⟨ho', hev, hsched, hroot, hlen⟩ := ho.setupRing hu.entry hu.live hs
    have hp := Proceeds.of_woken ho' hrun hev hlen (hsched ▸ .refl _) hroot
    exact h.of_user hu hp nofun (((h.user _).proceeds hp nofun)) (fun _ _ ↦ rfl) rfl
  | enterNothing hu hpc hring => exact h
  | @enter pid minComplete p k' hu hpc hring hs =>
    obtain ⟨hp, p', hu', ht⟩ := Proceeds.enterSubmit ho hrun (h.idle hu).2 hu hs
    have hring' : p'.ringPa = p.ringPa := by rw [ht.rest]
    rw [← hring'] at hring ⊢
    have hwait := enterWait_proceeds (m := { m with k := k' }) hp.orderly hp.running hu' hring
      minComplete
    refine h.of_user hu (hp.trans hwait.1) nofun hwait.2.1 hwait.2.2 ?_
    rcases enterWait_cases (m := { m with k := k' }) hu' p'.ringPa minComplete with
      ⟨-, he⟩ | ⟨-, he⟩ <;> rw [he] <;> rfl
  | @exit u pid code p report k' hact hu hpc ht =>
    refine h.of_user hu (.reportedExit ho hrun hu ht) (fun i hi he ↦ hi ?_) ?_
      (fun i hi ↦ userGoto_of_ne hu _ hi) rfl
    · simp only [taskOf, Option.some.injEq] at he
      omega
    · rw [userGoto_self hu]
      trivial
  | tick hmask =>
    refine hkeep (.tick ho hrun) (h.kmain.of_same (Kernel.schedule_processes _) ?_)
    rw [Kernel.tick, Kernel.schedule_tasks]
    exact (m.k.sched.wakeSleepers_woken _).length
  | uart hmask hs =>
    obtain ⟨hp, hk⟩ := h.uart hs
    exact hkeep hp hk

theorem step (h : Ctl m) (hs : m.step a = some m') : Ctl m' :=
  h.of_move (step_cases h.orderly h.running hs)

/-- A process whose task is current is running. -/
theorem atUser (h : Ctl m) {pid : Nat} (hproc : m.k.sched.currentProcess = some pid) :
    ∃ p, AtUser m.k pid p := by
  have hkernel : pollerTask < m.k.sched.current := by
    by_contra hle
    have hb := h.orderly.kernel _ (Nat.le_of_not_lt hle)
    obtain ⟨t, ht, hp⟩ := Option.bind_eq_some_iff.mp hproc
    rw [show m.k.sched.tasks[m.k.sched.current]? = some t from ht, Option.map_some,
      Option.some.injEq] at hb
    rw [(Prod.mk.inj hb).1] at hp
    cases hp
  obtain ⟨j, p, hcur, hproc', hp, hl, hroot⟩ := h.orderly.current_live h.running
    (Nat.ne_of_gt (Nat.lt_of_le_of_lt (Nat.zero_le _) hkernel)) (Nat.ne_of_gt hkernel)
  rw [hproc] at hproc'
  cases hproc'
  exact ⟨p, hcur, hproc, hp, hl, hroot⟩

/-- No step takes an entry away or gives it another root. -/
theorem evolves (h : Ctl m) (hm : Move m a m') : m.k.Evolves m'.k := by
  have ho := h.orderly
  have hrun := h.running
  cases hm with
  | create hcur hpc himage hroot hspace =>
    refine ⟨fun {i p} hp ↦ ⟨p, ?_, .refl p⟩, rfl⟩
    exact (List.getElem?_append_left (List.getElem?_eq_some_iff.mp hp).1).trans hp
  | foreground hcur hpc => exact (h.foreground hpc).2.evolves
  | spawnJsh hcur hpc hp => exact .of_eq rfl rfl
  | idle hcur hpc => exact (Proceeds.schedule ho hrun).evolves
  | poller hcur hmove => exact (h.poller_proceeds hcur hmove).1.evolves
  | start hu hpc => exact .of_eq rfl rfl
  | @retest pid ringPa minComplete p hu hpc =>
    have huser := h.user pid
    rw [hpc] at huser
    obtain ⟨t, q, -, -, hq, -, rfl, hring⟩ := huser
    rw [hu.entry] at hq
    cases hq
    exact (enterWait_proceeds ho hrun hu hring minComplete).1.evolves
  | store hu hpc hs =>
    obtain ⟨pa, rfl⟩ := Machine.userStore_cases hs
    exact .of_eq rfl rfl
  | setup hu hpc hs => exact (ho.setupRing hu.entry hu.live hs).2.1
  | enterNothing hu hpc hring => exact .refl _
  | @enter pid minComplete p k' hu hpc hring hs =>
    obtain ⟨hp, p', hu', ht⟩ := Proceeds.enterSubmit ho hrun (h.idle hu).2 hu hs
    have hring' : p'.ringPa = p.ringPa := by rw [ht.rest]
    rw [← hring'] at hring ⊢
    exact hp.evolves.trans (enterWait_proceeds (m := { m with k := k' }) hp.orderly hp.running hu'
      hring minComplete).1.evolves
  | exit hact hu hpc ht => exact (Proceeds.reportedExit ho hrun hu ht).evolves
  | tick hmask => exact (Proceeds.tick ho hrun).evolves
  | uart hmask hs => exact (h.uart hs).1.evolves

end Ctl

/-! ## All runs -/

/-- What the kernel looks like at the end of boot. -/
structure Fresh (k : Kernel) : Prop where
  processes : k.processes = []
  sched : k.sched = { tasks := [.kernel, .exited, .exited, .kernel], current := 0 }
  poller : k.poller = none
  input : k.input = .empty
  uart : k.uart = { rx := [], rxIrq := true, tx := [] }
  installed : k.installed = 0
  root : k.ttbr0 = k.kernelTtbr0
  kernelRoot : k.kernelTtbr0 ≠ 0
  trace : k.trace = []

theorem bootKernel_fresh {mem : Mem} {kernelEnd ticks : Nat}
    {programs : List (String × List UInt8)} {k : Kernel}
    (hb : bootKernel mem kernelEnd ticks programs = some k) : Fresh k := by
  rw [bootKernel] at hb
  obtain ⟨⟨⟨l0, l1⟩, s₁⟩, hmmu, hb⟩ := Option.bind_eq_some_iff.mp hb
  obtain ⟨s₂, -, hb⟩ := Option.bind_eq_some_iff.mp hb
  cases hb
  rw [initMmu] at hmmu
  obtain ⟨⟨table, s₃⟩, hl0, hmmu⟩ := Option.bind_eq_some_iff.mp hmmu
  obtain ⟨x, -, hmmu⟩ := Option.bind_eq_some_iff.mp hmmu
  obtain ⟨y, -, hmmu⟩ := Option.bind_eq_some_iff.mp hmmu
  cases hmmu
  exact ⟨rfl, rfl, rfl, rfl, rfl, rfl, rfl, allocTable_ne_zero hl0, rfl⟩

theorem Fresh.ctl {k : Kernel} (h : Fresh k) : Ctl (bootMachine k) := by
  have htasks : k.sched.tasks = [.kernel, .exited, .exited, .kernel] := by rw [h.sched]
  have hcur : k.sched.current = 0 := by rw [h.sched]
  have hfour : ∀ i ≤ pollerTask, i = 0 ∨ i = 1 ∨ i = 2 ∨ i = 3 := by
    intro i hi
    rw [pollerTask] at hi
    omega
  have hnone : ∀ {pid : Nat} {t : Task}, k.sched.tasks[taskOf pid]? = some t → False :=
    fun ht ↦ Ctl.no_user_task (by rw [htasks]; rfl) ht
  refine ⟨⟨⟨fun i hi ↦ ?_, fun ht ↦ (hnone ht).elim, ⟨?_, ?_, ?_⟩, fun {i p} hp ↦ ?_,
    .inl h.installed,
    fun {t} ht ↦ ?_, h.kernelRoot⟩, fun ht ↦ (hnone ht).elim⟩, ⟨?_, ?_⟩, ⟨?_, h.processes⟩, trivial,
    fun _ ↦ trivial⟩
  · show Option.map _ k.sched.tasks[i]? = _
    rw [htasks]
    rcases hfour i hi with rfl | rfl | rfl | rfl <;> rfl
  · show k.sched.runnable 0 = true
    rw [h.sched]
    rfl
  · intro i t hi ht
    rw [show (bootMachine k).k.sched.tasks = _ from htasks] at ht
    rcases hi with rfl | rfl <;> cases ht <;> rfl
  · intro t ht
    rw [show (bootMachine k).k.sched.tasks = _ from htasks] at ht
    cases ht
    rintro ⟨⟩
  · rw [show (bootMachine k).k.processes = _ from h.processes] at hp
    cases hp
  · rw [show (bootMachine k).k.poller = _ from h.poller] at ht
    cases ht
  · show k.sched.runnable k.sched.current = true
    rw [h.sched]
    rfl
  · intro t r ht hr
    rw [show (bootMachine k).k.sched = _ from h.sched] at ht
    cases ht
    cases hr
  · show k.sched.tasks.length = _
    rw [htasks]
    rfl

section Runs

variable {programs : List (String × List UInt8)} {ok : Machine → Act → Prop} {m : Machine}

/-- **In every run the control invariant holds.** -/
theorem ctl_of_reach (h : (machine programs).Reach ok m) : Ctl m := by
  refine h.invariant (fun m hm ↦ ?_) fun m a m' hI _ hs ↦ hI.step hs
  obtain ⟨mem, kernelEnd, ticks, k, -, hb, rfl⟩ := hm
  exact (bootKernel_fresh hb).ctl

/-- The invariant rule of the machine: tables are in order before and after each step, and the step
is one of the moves. -/
theorem reach_invariant {I : Machine → Prop} (hinit : ∀ k, Fresh k → I (bootMachine k))
    (hstep : ∀ m a m', Ctl m → Ctl m' → I m → ok m a → Move m a m' → I m')
    (h : (machine programs).Reach ok m) : I m := by
  refine h.invariant_of (fun _ h ↦ ctl_of_reach h) (fun m hm ↦ ?_) fun m a m' hctl hI hok hs ↦ ?_
  · obtain ⟨mem, kernelEnd, ticks, k, -, hb, rfl⟩ := hm
    exact hinit k (bootKernel_fresh hb)
  · exact hstep m a m' hctl (hctl.step hs) hI hok (step_cases hctl.orderly hctl.running hs)

end Runs

end Jatuli

import Jatuli.Control
import Jatuli.Reading
import Jatuli.Submitting

/-!
# Driving the machine

`step_cases` says what a step that was taken can have been; here is the other direction: when an
action is possible, and where it leads.  A `Scene` is a reachable state in which all tasks of
processes are runnable; timer ticks pass the processor round in it (`Scene.tick`), the poller makes
its rounds (`Scene.poll`, `Scene.finds`), and user code stores to its ring, asks for one or exits.

Boot succeeds when there is memory, and `kmain` then starts the shell (`exists_shell_running`), so
scenes exist.
-/

set_option autoImplicit false

namespace Jatuli

/-! ## Whose step it is -/

namespace Machine

variable {m : Machine} {pid : Nat} {p : Process}

theorem step_kmain (h : m.atKmain) : m.step .run = m.kmainStep := if_pos h

theorem step_poller (h : m.atPoller) : m.step .run = m.pollerStep := by
  have hne : ¬ m.atKmain := by
    intro h0
    rw [atKmain, show m.k.sched.current = pollerTask from h] at h0
    cases h0
  rw [step, if_neg hne, if_pos h]

theorem step_userRun (h : AtUser m.k pid p) : m.step .run = m.userRun := by
  have h0 : ¬ m.atKmain := by
    rw [atKmain, h.current, taskOf]
    omega
  have h3 : ¬ m.atPoller := by
    rw [atPoller, h.current, taskOf]
    omega
  rw [step, if_neg h0, if_neg h3]

theorem step_user (h : AtUser m.k pid p) (hpc : m.user (taskOf pid) = .el0) (u : UserAct) :
    m.step (.user u) = m.userStep pid u := by
  have hno : ¬ (m.atKmain ∨ m.atPoller ∨ m.userPc ≠ .el0) := by
    rw [atKmain, atPoller, userPc, h.current, taskOf]
    rintro (h0 | h3 | hne)
    · omega
    · omega
    · exact hne hpc
  rw [step, if_neg hno, h.process]
  rfl

theorem step_tick (h : m.masked = false) : m.step .tick = some { m with k := m.k.tick } := by
  rw [step, h]
  rfl

end Machine

theorem reach_next {programs : List (String × List UInt8)} {ok : Machine → Act → Prop}
    {m m' : Machine} (a : Act) (h : (machine programs).Reach ok m) (hok : ok m a)
    (hs : m.step a = some m') : (machine programs).Reach ok m' := h.step hok hs

/-! ## The scheduler -/

/-- What the scheduler leaves alone. -/
structure Idled (k k' : Kernel) : Prop where
  phys : k'.phys = k.phys
  processes : k'.processes = k.processes
  poller : k'.poller = k.poller
  input : k'.input = k.input
  uart : k'.uart = k.uart
  kernelL1 : k'.kernelL1 = k.kernelL1
  kernelTtbr0 : k'.kernelTtbr0 = k.kernelTtbr0
  programs : k'.programs = k.programs
  trace : k'.trace = k.trace

theorem Idled.trans {k k' k'' : Kernel} (h : Idled k k') (h' : Idled k' k'') : Idled k k'' :=
  ⟨h'.phys.trans h.phys, h'.processes.trans h.processes, h'.poller.trans h.poller,
    h'.input.trans h.input, h'.uart.trans h.uart, h'.kernelL1.trans h.kernelL1,
    h'.kernelTtbr0.trans h.kernelTtbr0, h'.programs.trans h.programs, h'.trace.trans h.trace⟩

theorem Kernel.schedule_idled (k : Kernel) : Idled k k.schedule := by
  rw [Kernel.schedule_eq]
  exact ⟨rfl, rfl, rfl, rfl, rfl, rfl, rfl, rfl, rfl⟩

theorem Idled.inv {strict : Prop} {L : Layout} {own : Nat → Owner} {k k' : Kernel}
    (h : Idled k k') (hinv : Inv strict L own k) : Inv strict L own k' :=
  hinv.of_mem_eq ⟨congrArg Phys.frames h.phys, fun _ ↦ by rw [h.processes], h.kernelL1,
    h.kernelTtbr0, h.programs⟩ (congrArg Phys.mem h.phys)

theorem Idled.granting {k k' : Kernel} (h : Idled k k') (hg : k.Granting) : k'.Granting :=
  hg.of_same ⟨congrArg Phys.frames h.phys, fun _ ↦ by rw [h.processes], h.kernelL1,
    h.kernelTtbr0, h.programs⟩ (congrArg Phys.mem h.phys)

/-- The first runnable task in cyclic order is `d` places further on. -/
theorem Scheduler.next_eq {s : Scheduler} {d : Nat} (hd : d < s.tasks.length)
    (hrun : s.runnable ((s.current + (d + 1)) % s.tasks.length) = true)
    (hnot : ∀ e < d, s.runnable ((s.current + (e + 1)) % s.tasks.length) = false) :
    s.next = (s.current + (d + 1)) % s.tasks.length := by
  have hfind : (List.range s.tasks.length).find? (s.runnable ∘
      fun i ↦ (s.current + (i + 1)) % s.tasks.length) = some d :=
    List.find?_range_eq_some.mpr ⟨hrun, List.mem_range.mpr hd, fun e he ↦ by
      rw [Function.comp_apply, hnot e he]
      rfl⟩
  rw [next, List.find?_map, hfind]
  rfl

/-- When nobody is blocked the timer wakes nobody. -/
theorem Scheduler.wakeSleepers_of_runnable {s : Scheduler} (h : ∀ t ∈ s.tasks, t.state ≠ .blocked)
    (now : Nat) : s.wakeSleepers now = s := by
  have hmap : s.tasks.map (fun t ↦ if t.state = .blocked ∧ t.wakeAt ≤ now
      then { t with state := .runnable } else t) = s.tasks.map id :=
    List.map_congr_left fun t ht ↦ if_neg fun hx ↦ h t ht hx.1
  rw [wakeSleepers, hmap, List.map_id]

/-- A switch to a task without a space of its own leaves the live root in place. -/
theorem Kernel.schedule_rootless {k : Kernel}
    (h : k.sched.tasks[k.sched.next]?.bind (·.ttbr0) = none) : k.schedule.ttbr0 = k.ttbr0 := by
  rw [Kernel.schedule]
  split_ifs
  · rfl
  · dsimp only
    rw [h]

theorem Kernel.tick_next {k : Kernel} {ts : List Task} {cur nxt : Nat}
    (hs : k.sched = { tasks := ts, current := cur }) (h : ∀ t ∈ ts, t.state ≠ .blocked)
    (hnext : Scheduler.next { tasks := ts, current := cur } = nxt) :
    k.tick.sched = { tasks := ts, current := nxt } ∧ Idled k k.tick ∧
      k.tick.ticks = (k.ticks + 1) % 2 ^ 64 ∧
      (ts[nxt]?.bind (·.ttbr0) = none → k.tick.ttbr0 = k.ttbr0) := by
  have hwake : k.sched.wakeSleepers ((k.ticks + 1) % 2 ^ 64) = k.sched :=
    Scheduler.wakeSleepers_of_runnable (by rw [hs]; exact h) _
  have hk : k.tick = { k with ticks := (k.ticks + 1) % 2 ^ 64 }.schedule := by
    rw [Kernel.tick, hwake]
  obtain ⟨k₁, hk₁⟩ : ∃ k₁ : Kernel, k₁ = { k with ticks := (k.ticks + 1) % 2 ^ 64 } := ⟨_, rfl⟩
  have hidle : Idled k k₁ := by
    rw [hk₁]
    exact ⟨rfl, rfl, rfl, rfl, rfl, rfl, rfl, rfl, rfl⟩
  rw [hk, ← hk₁]
  refine ⟨?_, hidle.trans k₁.schedule_idled, ?_, fun hroot ↦ ?_⟩
  · rw [Kernel.schedule_eq, hk₁, hs, hnext]
  · rw [Kernel.schedule_eq, hk₁]
  · rw [Kernel.schedule_rootless (by rw [hk₁, hs, hnext]; exact hroot), hk₁]

/-! ## Scenes -/

/-- The tasks of the processes, the first of which has number `i`. -/
def userTasks : Nat → List Process → List Task
  | _, [] => []
  | i, p :: ps => .user i p.ttbr0 :: userTasks (i + 1) ps

/-- All tasks, as they were spawned. -/
def allTasks (ps : List Process) : List Task :=
  [.kernel, .exited, .exited, .kernel] ++ userTasks 0 ps

theorem userTasks_getElem? {p : Process} : ∀ {i j : Nat} {ps : List Process}, ps[j]? = some p →
    (userTasks i ps)[j]? = some (.user (i + j) p.ttbr0)
  | _, 0, _ :: _, h => by
    obtain rfl := Option.some.inj h
    rfl
  | i, j + 1, _ :: ps, h => by
    have hps : ps[j]? = some p := h
    rw [userTasks, List.getElem?_cons_succ, userTasks_getElem? hps, Nat.add_right_comm,
      Nat.add_assoc]

/-- The task of a process. -/
theorem allTasks_user {ps : List Process} {p : Process} {i : Nat} (h : ps[i]? = some p) :
    (allTasks ps)[taskOf i]? = some (.user i p.ttbr0) := by
  have hi : (allTasks ps)[4 + i]? = (userTasks 0 ps)[i]? := by
    rw [allTasks, List.getElem?_append_right (Nat.le_add_right 4 i)]
    exact congrArg _ (Nat.add_sub_cancel_left 4 i)
  rw [show taskOf i = 4 + i from rfl, hi, userTasks_getElem? h, Nat.zero_add]

theorem userTasks_runnable {t : Task} : ∀ {i : Nat} {ps : List Process}, t ∈ userTasks i ps →
    t.state = .runnable
  | _, [], h => by cases h
  | _, _ :: _, h => by
    rcases List.mem_cons.mp h with rfl | h
    · rfl
    · exact userTasks_runnable h

theorem allTasks_not_blocked {ps : List Process} {t : Task} (h : t ∈ allTasks ps) :
    t.state ≠ .blocked := by
  rcases List.mem_append.mp h with h | h
  · simp only [List.mem_cons, List.not_mem_nil, or_false] at h
    rcases h with rfl | rfl | rfl | rfl <;> nofun
  · rw [userTasks_runnable h]
    nofun

theorem allTasks_kernel (ps : List Process) {i : Nat} (h : i ≤ pollerTask) :
    (allTasks ps)[i]?.bind (·.ttbr0) = none := by
  rw [pollerTask] at h
  obtain rfl | rfl | rfl | rfl : i = 0 ∨ i = 1 ∨ i = 2 ∨ i = 3 := by omega
  all_goals rfl

/-- The poller comes after `kmain`. -/
theorem next_kmain (ps : List Process) :
    Scheduler.next { tasks := allTasks ps, current := 0 } = pollerTask := by
  have hlen : (allTasks ps).length = (userTasks 0 ps).length + 4 := by
    rw [allTasks, List.length_append, Nat.add_comm]
    rfl
  have hmod : ∀ {j : Nat}, j < 4 → j % (allTasks ps).length = j :=
    fun hj ↦ Nat.mod_eq_of_lt (by omega)
  refine (Scheduler.next_eq (d := 2) (by dsimp only; omega) ?_ fun e he ↦ ?_).trans
    (hmod (show 3 < 4 by decide))
  · dsimp only
    rw [hmod (show 3 < 4 by decide)]
    rfl
  · dsimp only
    rw [hmod (by omega)]
    obtain rfl | rfl : e = 0 ∨ e = 1 := by omega
    · rfl
    · rfl

/-- The first process comes after the poller. -/
theorem next_poller (p : Process) (rest : List Process) :
    Scheduler.next { tasks := allTasks (p :: rest), current := pollerTask } = taskOf 0 := by
  have hlen : (allTasks (p :: rest)).length = (userTasks 1 rest).length + 1 + 4 := by
    rw [allTasks, List.length_append, Nat.add_comm]
    rfl
  have hmod : (pollerTask + (0 + 1)) % (allTasks (p :: rest)).length = taskOf 0 :=
    Nat.mod_eq_of_lt (by rw [hlen, pollerTask]; omega)
  refine (Scheduler.next_eq (d := 0) (by dsimp only; omega) ?_
    fun j hj ↦ absurd hj (Nat.not_lt_zero j)).trans hmod
  dsimp only
  rw [hmod]
  rfl

/-- The next process comes after a process. -/
theorem next_user {ps : List Process} {p : Process} {i : Nat} (h : ps[i + 1]? = some p) :
    Scheduler.next { tasks := allTasks ps, current := taskOf i } = taskOf (i + 1) := by
  have htask := allTasks_user h
  have hlt : taskOf (i + 1) < (allTasks ps).length := (List.getElem?_eq_some_iff.mp htask).1
  have hmod : (taskOf i + (0 + 1)) % (allTasks ps).length = taskOf (i + 1) := by
    rw [← Nat.mod_eq_of_lt hlt, taskOf, taskOf]
    congr 1
  refine (Scheduler.next_eq (d := 0) (Nat.zero_lt_of_lt hlt) ?_
    fun j hj ↦ absurd hj (Nat.not_lt_zero j)).trans hmod
  dsimp only
  rw [hmod, Scheduler.runnable, htask]
  rfl

/-- `kmain` comes after the last task. -/
theorem next_last (ts : List Task) (t : Task) :
    Scheduler.next { tasks := .kernel :: ts ++ [t], current := ts.length + 1 } = 0 := by
  have hlen : (Task.kernel :: ts ++ [t]).length = ts.length + 1 + (0 + 1) := by
    rw [List.length_append, List.length_cons, List.length_singleton]
  have hmod : (ts.length + 1 + (0 + 1)) % (Task.kernel :: ts ++ [t]).length = 0 := by
    rw [hlen, Nat.mod_self]
  refine (Scheduler.next_eq (d := 0) (by dsimp only; omega) ?_ nofun).trans hmod
  dsimp only
  rw [hmod]
  rfl

/-- Whether the poller stands right before a `drain`. -/
def PollerPc.drains : PollerPc → Bool
  | .scanDrain _ _ => true
  | _ => false

/-- The poller is not about to drain a ring. -/
def Poller.OffDrain (l : Poller) : Prop := l.pc.drains = false

theorem Poller.OffDrain.of_pc {l : Poller} {pc : PollerPc} (hpc : l.pc = pc)
    (h : pc.drains = false) : l.OffDrain := by rw [OffDrain, hpc, h]

/-- A reachable state in which the processes are `ps`, their tasks all runnable, task `cur` runs,
and nothing has come in from the console. -/
structure Scene (programs : List (String × List UInt8)) (ok : Machine → Act → Prop) (m : Machine)
    (ps : List Process) (cur : Nat) : Prop where
  reach : (machine programs).Reach ok m
  inv : ∃ L own, Inv True L own m.k
  processes : m.k.processes = ps
  sched : m.k.sched = { tasks := allTasks ps, current := cur }
  kmain : m.kmain = .idle
  kernelTasks : ∀ i ≤ pollerTask, m.user i = .start
  input : m.k.input.contents = []

/-- The space of the running process is live. -/
theorem AtUser.rooted {k : Kernel} {pid : Nat} {p : Process} (h : AtUser k pid p) :
    k.roots (some pid) = some k.ttbr0 := by
  rw [h.root]
  exact Inv.root_of_live h.entry h.live

namespace Scene

variable {programs : List (String × List UInt8)} {ok : Machine → Act → Prop} {m : Machine}
  {ps : List Process} {p : Process} {cur nxt : Nat}

theorem ctl (h : Scene programs ok m ps cur) : Ctl m := ctl_of_reach h.reach

theorem unmasked (h : Scene programs ok m ps cur) (hcur : cur ≤ pollerTask) : m.masked = false := by
  rw [Machine.masked, Machine.userPc, h.sched]
  dsimp only
  rw [h.kernelTasks cur hcur]

theorem unmasked_user (h : Scene programs ok m ps cur)
    (hpc : m.user cur = .el0 ∨ m.user cur = .start) :
    m.masked = false := by
  rw [Machine.masked, Machine.userPc, h.sched]
  dsimp only
  rcases hpc with hpc | hpc <;> rw [hpc]

/-- The timer interrupts, and the next task runs. -/
theorem ticks (h : Scene programs ok m ps cur)
    (hnext : Scheduler.next { tasks := allTasks ps, current := cur } = nxt)
    (hmask : m.masked = false) (hok : ok m .tick) :
    ∃ m', m.step .tick = some m' ∧ Scene programs ok m' ps nxt ∧ m'.user = m.user ∧
      m'.poller = m.poller ∧ Idled m.k m'.k ∧ m'.k.ticks = (m.k.ticks + 1) % 2 ^ 64 ∧
      (nxt ≤ pollerTask → m'.k.ttbr0 = m.k.ttbr0) := by
  obtain ⟨hsched, hidle, hticks, hroot⟩ := Kernel.tick_next h.sched (fun t ↦ allTasks_not_blocked)
    hnext
  obtain ⟨L, own, hinv⟩ := h.inv
  exact ⟨_, Machine.step_tick hmask, ⟨h.reach.step hok (Machine.step_tick hmask),
    ⟨L, own, hidle.inv hinv⟩, hidle.processes.trans h.processes, hsched, h.kmain,
    h.kernelTasks, by rw [hidle.input]; exact h.input⟩, rfl, rfl, hidle, hticks, fun hle ↦
      hroot (allTasks_kernel ps hle)⟩

theorem tick (h : Scene programs ok m ps cur)
    (hnext : Scheduler.next { tasks := allTasks ps, current := cur } = nxt)
    (hmask : m.masked = false) (hok : ok m .tick) :
    ∃ m', Scene programs ok m' ps nxt ∧ m'.user = m.user ∧ m'.poller = m.poller ∧
      Idled m.k m'.k ∧ m'.k.ticks = (m.k.ticks + 1) % 2 ^ 64 ∧
      (nxt ≤ pollerTask → m'.k.ttbr0 = m.k.ttbr0) := by
  obtain ⟨m', -, h'⟩ := h.ticks hnext hmask hok
  exact ⟨m', h'⟩

/-- A step of the poller that leaves the tables alone. -/
theorem polls (h : Scene programs ok m ps pollerTask) {k' : Kernel} {l : Poller}
    (hstep : m.pollerStep = some { m with k := k', poller := l }) (hok : ok m .run)
    (hinv : ∃ L own, Inv True L own k') (hps : k'.processes = m.k.processes)
    (hs : k'.sched = m.k.sched) (hin : k'.input.contents = m.k.input.contents) :
    Scene programs ok { m with k := k', poller := l } ps pollerTask := by
  have hcur : m.atPoller := by rw [Machine.atPoller, h.sched]
  exact ⟨h.reach.step hok ((Machine.step_poller hcur).trans hstep), hinv, hps.trans h.processes,
    hs.trans h.sched, h.kmain, h.kernelTasks, hin.trans h.input⟩

/-- A step of the poller that does not touch the kernel's data. -/
theorem poll (h : Scene programs ok m ps pollerTask) {l : Poller}
    (hstep : m.pollerStep = some { m with poller := l }) (hok : ok m .run) :
    Scene programs ok { m with poller := l } ps pollerTask := h.polls hstep hok h.inv rfl rfl rfl

/-- The running process. -/
theorem atUser {pid : Nat} (h : Scene programs ok m ps (taskOf pid)) (hp : ps[pid]? = some p) :
    AtUser m.k pid p := by
  have hproc : m.k.sched.currentProcess = some pid := by
    rw [h.sched, Scheduler.currentProcess, Scheduler.currentTask, allTasks_user hp]
    rfl
  obtain ⟨p', hu⟩ := h.ctl.atUser hproc
  have he := hu.entry
  rw [h.processes, hp] at he
  obtain rfl := Option.some.inj he
  exact hu

/-- A run may be looked at without its condition. -/
theorem free (h : Scene programs ok m ps cur) : Scene programs System.Free m ps cur :=
  ⟨h.reach.mono fun _ _ _ ↦ trivial, h.inv, h.processes, h.sched, h.kmain, h.kernelTasks, h.input⟩

/-! ### The poller -/

section Poll

variable (hok : ∀ l : Poller, l.OffDrain → ok { m with poller := l } .run)
include hok

/-- The loop of the scan stops at a process with submissions, and is about to install its space. -/
theorem finds {n i : Nat} {w : Bool} (h : Scene programs ok m ps pollerTask)
    (hpc : m.poller.pc = .scan n i w) (hi : i < n) (hp : ps[i]? = some p) (hring : p.ringPa ≠ 0)
    (hne : sqHead m.k.mem p.ringPa ≠ sqTail m.k.mem p.ringPa) :
    Scene programs ok { m with poller := { m.poller with pc := .scanActivate n i p.ttbr0 } } ps
      pollerTask := by
  have hpa : Processes.ringPa m.k.processes i = some p.ringPa := by
    rw [Processes.ringPa, h.processes, hp, Option.map_some]
  have hroot : Processes.ttbr0 m.k.processes i = some p.ttbr0 := by
    rw [Processes.ttbr0, h.processes, hp, Option.map_some]
  have h₁ : Scene programs ok
      { m with poller := { m.poller with pc := .scanHead n i p.ringPa w } } ps pollerTask := by
    refine h.poll ?_ (hok m.poller (.of_pc hpc rfl))
    simp only [Machine.pollerStep, hpc, if_neg (Nat.not_le.mpr hi), hpa, Option.bind_eq_bind,
      Option.bind_some, if_neg hring, Machine.goto]
  have h₂ := h₁.poll (l := { m.poller with
    pc := .scanTail n i p.ringPa (sqHead m.k.mem p.ringPa) w }) rfl (hok _ (.of_pc rfl rfl))
  have h₃ : Scene programs ok { m with poller := { m.poller with pc := .scanTtbr0 n i } } ps
      pollerTask := by
    refine h₂.poll ?_ (hok _ (.of_pc rfl rfl))
    simp only [Machine.pollerStep, ne_eq, hne, not_false_eq_true, if_true, Machine.goto]
  refine h₃.poll (l := { m.poller with pc := .scanActivate n i p.ttbr0 }) ?_
    (hok _ (.of_pc rfl rfl))
  simp only [Machine.pollerStep, hroot, Option.bind_eq_bind, Option.bind_some, Machine.goto]

end Poll

/-- It installs the space. -/
theorem activates {n i root : Nat} (h : Scene programs ok m ps pollerTask) (hok : ok m .run)
    (hpc : m.poller.pc = .scanActivate n i root) :
    Scene programs ok { m with
      k := m.k.activate root, poller := { m.poller with pc := .scanDrain n i } } ps pollerTask := by
  obtain ⟨L, own, hinv⟩ := h.inv
  refine h.polls ?_ hok ⟨L, own, ?_⟩ (m.k.activate_processes root) (m.k.activate_sched root)
    (by rw [Kernel.activate_eq])
  · rw [Machine.pollerStep, hpc]
    rfl
  · refine hinv.of_mem_eq ⟨?_, fun _ ↦ ?_, ?_, ?_, ?_⟩ ?_ <;> rw [Kernel.activate_eq]

section Polls

variable (hok : ∀ k l, k.processes = ps → ok { m with k := k, poller := l } .run)
include hok

/-- It installs the space of the process and carries out the no-op it has found. -/
theorem drains {n i : Nat} (h : Scene programs ok m ps pollerTask)
    (hpc : m.poller.pc = .scanActivate n i p.ttbr0) (hp : ps[i]? = some p) (hl : p.live = true)
    (hring : p.ringPa ≠ 0) (htail : sqTail m.k.mem p.ringPa = sqHead m.k.mem p.ringPa + 1)
    (hnop : m.k.mem.load (sqeAddr p.ringPa (slot (sqHead m.k.mem p.ringPa))) 8 = opNop) :
    ∃ k', Scene programs ok
      { m with k := k', poller := { m.poller with pc := .scan n (i + 1) true } } ps pollerTask := by
  have hp' : m.k.processes[i]? = some p := by rw [h.processes, hp]
  have hroot : (m.k.activate p.ttbr0).ttbr0 = p.ttbr0 :=
    Kernel.activate_ttbr0 h.ctl.orderly.synced (h.ctl.orderly.entry hp').root
  have h₁ := h.activates (hok m.k m.poller h.processes) hpc
  obtain ⟨L, own, hinv₁⟩ := h₁.inv
  obtain ⟨k₁, hk₁⟩ : ∃ k₁ : Kernel, k₁ = m.k.activate p.ttbr0 := ⟨_, rfl⟩
  rw [← hk₁] at h₁ hinv₁
  have hps₁ : k₁.processes = m.k.processes := by rw [hk₁, Kernel.activate_processes]
  have hmem₁ : k₁.mem = m.k.mem := by rw [hk₁, Kernel.mem, Kernel.activate_phys]
  have hp₁ : k₁.processes[i]? = some p := by rw [hps₁, hp']
  have hpa : Processes.ringPa k₁.processes i = some p.ringPa := by
    rw [Processes.ringPa, hp₁, Option.map_some]
  rw [← hmem₁] at htail hnop
  have hd := k₁.drain_nop hpa hring htail hnop
  obtain ⟨k₂, hk₂⟩ : ∃ k₂ : Kernel, k₁.drain i = some k₂ := ⟨_, hd⟩
  have hquiet : Quiet k₁ k₂ := by
    rw [hk₂] at hd
    rw [Option.some.inj hd]
    exact ((k₁.log_quiet _).trans (Kernel.complete_quiet ..)).trans (Kernel.ringStore_quiet ..)
  have hr : k₁.roots (some i) = some k₁.ttbr0 := by
    rw [hk₁, hroot, ← hk₁]
    exact Inv.root_of_live hp₁ hl
  obtain ⟨own', hinv₂, -⟩ := hinv₁.drain hp₁ hr hk₂
  refine ⟨k₂, h₁.polls (l := { m.poller with pc := .scan n (i + 1) true }) ?_
    (hok _ _ h₁.processes) ⟨L, own', hinv₂⟩ hquiet.processes hquiet.sched
    ((Kernel.drain_silent hp₁ hk₂ h₁.input).trans h₁.input.symm)⟩
  simp only [Machine.pollerStep, hk₂, Option.bind_eq_bind, Option.bind_some, Machine.goto]

/-- After a round with work it is about to clear the flags of the first process. -/
theorem clears {n i : Nat} {rest : List Process} (h : Scene programs ok m (p :: rest) pollerTask)
    (hps : ps = p :: rest) (hpc : m.poller.pc = .scan n i true) (hi : n ≤ i)
    (hring : p.ringPa ≠ 0) :
    ∃ k' l', Scene programs ok { m with k := k', poller := l' } ps pollerTask ∧
      l'.pc = .flagsStore false ps.length 0 p.ringPa .stamp ∧ k'.mem = m.k.mem := by
  subst hps
  obtain ⟨L, own, hinv⟩ := h.inv
  have h₁ : Scene programs ok { m with poller := { m.poller with pc := .scanned true } }
      (p :: rest) pollerTask := by
    refine h.poll ?_ (hok m.k m.poller h.processes)
    simp only [Machine.pollerStep, hpc, if_pos hi, Machine.goto]
  obtain ⟨k₁, hk₁⟩ : ∃ k₁ : Kernel, k₁ = if m.poller.announced then m.k
    else m.k.kprintln "[sqpoll] picked up work" := ⟨_, rfl⟩
  have hquiet : Quiet m.k k₁ := by
    rw [hk₁]
    split_ifs
    · exact .refl _
    · exact m.k.kprintln_quiet _
  have hmem : k₁.mem = m.k.mem := by
    rw [hk₁]
    split_ifs
    · rfl
    · rfl
  have h₂ : Scene programs ok { m with
      k := k₁, poller := { m.poller with pc := .flagsCount false .stamp, announced := true } }
      (p :: rest) pollerTask :=
    h₁.polls (by rw [hk₁]; rfl) (hok _ _ h₁.processes)
      ⟨L, own, hinv.of_mem_eq (.of_quiet hquiet) hmem⟩ hquiet.processes hquiet.sched
      (by rw [hk₁]; split_ifs <;> rfl)
  have h₃ := h₂.poll (l := { m.poller with
    pc := .flagsScan false k₁.processes.length 0 .stamp, announced := true }) rfl
    (hok _ _ h₂.processes)
  have hlen : k₁.processes.length = rest.length + 1 := by rw [h₃.processes, List.length_cons]
  have hpa : Processes.ringPa k₁.processes 0 = some p.ringPa := by
    rw [Processes.ringPa, h₃.processes]
    rfl
  refine ⟨k₁, { m.poller with
    pc := .flagsStore false k₁.processes.length 0 p.ringPa .stamp, announced := true },
    h₃.poll ?_ (hok _ _ h₃.processes), by rw [h₃.processes], hmem⟩
  have hlt : ¬ k₁.processes.length ≤ 0 := by omega
  simp only [Machine.pollerStep, if_neg hlt, hpa, Option.bind_eq_bind, Option.bind_some,
    if_neg hring, Machine.goto]

end Polls

/-! ### User code -/

theorem userGoto_kernel {pid i : Nat} (hu : AtUser m.k pid p) (pc : UserPc) (hi : i ≤ pollerTask) :
    (m.userGoto pc).user i = m.user i := by
  rw [Machine.userGoto, hu.current]
  exact Function.update_of_ne (by rw [taskOf]; omega) _ _

/-- The task of a process reaches user code. -/
theorem start {pid : Nat} (h : Scene programs ok m ps (taskOf pid)) (hp : ps[pid]? = some p)
    (hpc : m.user (taskOf pid) = .start) (hok : ok m .run) :
    Scene programs ok m.userTask ps (taskOf pid) := by
  have hu := h.atUser hp
  obtain ⟨L, own, hinv⟩ := h.inv
  refine ⟨h.reach.step hok ?_, ⟨L, own, hinv.kprintln _⟩,
    h.processes, h.sched, h.kmain, fun i hi ↦ ?_, h.input⟩
  · refine (Machine.step_userRun hu).trans ?_
    rw [Machine.userRun, Machine.userPc, hu.current, hpc]
  · exact (userGoto_kernel (m := { m with k := m.k.kprintln _ }) (hu.kprintln _) .el0 hi).trans
      (h.kernelTasks i hi)

/-- User code stores where it may. -/
theorem stores {pid va n v : Nat} {k' : Kernel} (h : Scene programs ok m ps (taskOf pid))
    (hp : ps[pid]? = some p) (hpc : m.user (taskOf pid) = .el0)
    (hs : Machine.userStore m.k va n v = some k') (hok : ok m (.user (.store va n v))) :
    Scene programs ok { m with k := k' } ps (taskOf pid) := by
  have hu := h.atUser hp
  obtain ⟨L, own, hinv⟩ := h.inv
  obtain ⟨hquiet, hin⟩ : Quiet m.k k' ∧ k'.input = m.k.input := by
    obtain ⟨pa, rfl⟩ := Machine.userStore_cases hs
    exact ⟨m.k.setMem_quiet _, rfl⟩
  refine ⟨h.reach.step hok ?_, ⟨L, own, (hinv.userStore hu.rooted hs).1⟩,
    hquiet.processes.trans h.processes, hquiet.sched.trans h.sched, h.kmain, h.kernelTasks,
    by rw [hin]; exact h.input⟩
  refine (Machine.step_user hu hpc _).trans ?_
  rw [Machine.userStep, hs, Option.map_some]

/-- It stores to its ring page. -/
theorem store {pid : Nat} (h : Scene programs ok m ps (taskOf pid)) (hp : ps[pid]? = some p)
    (hpc : m.user (taskOf pid) = .el0) (hring : p.ringPa ≠ 0) (off n v : Nat)
    (hn : (n = 1 ∨ n = 2 ∨ n = 4 ∨ n = 8) ∧ (userRingVa + off) % n = 0) (hoff : off < 4096)
    (hok : ok m (.user (.store (userRingVa + off) n v))) :
    Scene programs ok { m with k := m.k.setMem (m.k.mem.store (p.ringPa + off) n v) } ps
      (taskOf pid) := by
  have hu := h.atUser hp
  obtain ⟨L, own, hinv⟩ := h.inv
  refine h.stores hp hpc ?_ hok
  rw [Machine.userStore, if_pos hn, hu.root, hinv.el0WritablePa_ring hu.entry hring off hoff,
    Option.map_some]

/-- It sets up its ring. -/
theorem setup {rest : List Process} (h : Scene programs ok m (p :: rest) (taskOf 0))
    (hpc : m.user (taskOf 0) = .el0) (hring : p.ringPa = 0)
    (hroom : 4 ≤ m.k.phys.frames.freeCount) (hok : ok m (.user .setup)) :
    ∃ k' frame, frame ≠ 0 ∧
      Scene programs ok { m with k := k' } ({ p with
        ringPa := frame, frames := p.frames ++ [(userRingVa, frame)] } :: rest) (taskOf 0) ∧
      (∀ x ∈ frameAt frame, k'.mem x = 0) ∧ k'.ticks = m.k.ticks ∧ k'.trace = m.k.trace ∧
      k'.poller = m.k.poller ∧ m.k.phys.frames.freeCount ≤ k'.phys.frames.freeCount + 4 ∧
      (m.k.Granting → k'.Granting) ∧ k'.programs = m.k.programs := by
  have hu := h.atUser (p := p) rfl
  obtain ⟨L, own, hinv⟩ := h.inv
  obtain ⟨k', hs⟩ := hinv.setupRing_isSome hu.entry hu.live hroom
  obtain ⟨hne, -⟩ | ⟨-, own', frame, phys, hk', hinv', -, ⟨hm, -⟩, hzero, -⟩ :=
    hinv.setupRing hu.entry hu.live hs
  · exact absurd hring hne
  have hpos : frame ≠ 0 := by
    have := hm.2.1
    have := hinv.owned.start_pos
    omega
  have hcount := hinv.setupRing_room hu.entry hu.live hs
  refine ⟨k', frame, hpos, ⟨h.reach.step hok ?_, ⟨L, own', hinv'⟩, ?_, ?_, h.kmain,
    h.kernelTasks, by rw [hk']; exact h.input⟩, hzero, by rw [hk'], by rw [hk'], by rw [hk'],
    hcount, fun hg ↦ hg.setupRing hinv hu.entry hu.live hs, by rw [hk']⟩
  · refine (Machine.step_user hu hpc _).trans ?_
    rw [Machine.userStep, hs, Option.map_some]
  · rw [hk', Processes.setRing, h.processes]
    rfl
  · rw [hk']
    exact h.sched

/-- It calls `enter` with nothing submitted and its flag down. -/
theorem enter (h : Scene programs ok m ps (taskOf 0)) (hp : ps[0]? = some p)
    (hpc : m.user (taskOf 0) = .el0) (hring : p.ringPa ≠ 0)
    (hflags : flags m.k.mem p.ringPa &&& needWakeup = 0)
    (hsq : sqHead m.k.mem p.ringPa = sqTail m.k.mem p.ringPa) (minComplete : Nat) :
    m.step (.user (.enter minComplete)) = some (m.enterWait 0 p.ringPa minComplete) := by
  have hu := h.atUser hp
  have hpa : Processes.ringPa m.k.processes 0 = some p.ringPa := by
    rw [Processes.ringPa, hu.entry, Option.map_some]
  have hdrain : m.k.drain 0 = some m.k := by
    rw [Kernel.drain, hpa]
    simp only [Option.bind_eq_bind, Option.bind_some, if_neg hring, hsq, BitVec.sub_self]
    rfl
  rw [Machine.step_user hu hpc, Machine.userStep, hpa]
  simp only [Option.bind_eq_bind, Option.bind_some, if_neg hring, Kernel.enterSubmit, hflags, ne_eq,
    not_true_eq_false, if_false, hdrain]

/-- The only process exits. -/
theorem exit (h : Scene programs ok m [p] (taskOf 0)) (hpc : m.user (taskOf 0) = .el0)
    (hpar : p.parent = none) (x0 : BitVec 64) (hok : ok m (.user (.exit x0))) :
    ∃ m', (machine programs).Reach ok m' ∧ m'.poller = m.poller ∧
      (∀ i ≤ pollerTask, m'.user i = .start) ∧ m'.k.processes = [p.husk x0.toInt] ∧
      m'.k.sched = { tasks := [.kernel, .exited, .exited, .kernel,
        { Task.user 0 p.ttbr0 with state := .exited }], current := 0 } ∧
      m'.k.kernelTtbr0 = m.k.kernelTtbr0 ∧ m'.k.trace = m.k.trace := by
  have hu := h.atUser (p := p) rfl
  have hne : p.parent ≠ some 0 := by rw [hpar]; nofun
  obtain ⟨k₀, hk₀⟩ : ∃ k₀, k₀ = m.k.kprintln (Machine.exitReport x0.toInt) := ⟨_, rfl⟩
  have hu₀ : AtUser k₀ 0 p := hk₀ ▸ hu.kprintln _
  have hq₀ : Quiet m.k k₀ := hk₀ ▸ m.k.kprintln_quiet _
  have hsched₀ : k₀.sched = m.k.sched := by rw [hk₀, Kernel.kprintln_sched]
  obtain ⟨k', ht⟩ :=
    Kernel.teardown_isSome hu₀.entry (fun i hi ↦ by rw [hpar] at hi; cases hi) x0.toInt
  obtain ⟨k₁, msg, hrep, hk'⟩ := Kernel.teardown_cases hu₀.entry hne ht
  have hk₁ : k₁ = { k₀ with processes := k₀.processes.set 0 (p.exited x0.toInt) } := by
    cases hrep with
    | silent hno => rfl
    | answered htag hparent hq hring => rw [hpar] at hparent; cases hparent
    | lost htag hparent hq hring => rw [hpar] at hparent; cases hparent
  have hps : k'.processes = [p.husk x0.toInt] := by
    rw [hk', Kernel.kprintln_processes, Kernel.activate_processes, hk₁]
    dsimp only
    rw [hq₀.processes, h.processes]
    rfl
  have hsched : k'.sched = m.k.sched := by
    rw [hk', Kernel.kprintln_sched, Kernel.activate_sched, hk₁]
    exact hsched₀
  have hkt : k'.kernelTtbr0 = m.k.kernelTtbr0 := by
    rw [hk', Kernel.kprintln_kernelTtbr0, Kernel.activate_kernelTtbr0, hk₁]
    exact hq₀.kernelTtbr0
  have htrace : k'.trace = m.k.trace := by
    rw [hk', Kernel.activate_eq, hk₁, hk₀]
    rfl
  refine ⟨{ m.userGoto .gone with k := k'.taskExit }, h.reach.step hok ?_, rfl,
    fun i hi ↦ (userGoto_kernel hu .gone hi).trans (h.kernelTasks i hi), ?_, ?_, ?_, ?_⟩
  · refine (Machine.step_user hu hpc _).trans ?_
    rw [Machine.userStep, Machine.exitStep, ← hk₀, ht]
    rfl
  · rw [Kernel.taskExit, Kernel.schedule_processes, hps]
  · have hmark : k'.sched.markExited = { tasks := [.kernel, .exited, .exited, .kernel,
        { Task.user 0 p.ttbr0 with state := .exited }], current := taskOf 0 } := by
      rw [hsched, h.sched]
      rfl
    rw [Kernel.taskExit, Kernel.schedule_eq, hmark]
    exact congrArg (Scheduler.mk _) (next_last [.exited, .exited, .kernel] _)
  · rw [Kernel.taskExit, Kernel.schedule_eq, hkt]
  · rw [Kernel.taskExit, Kernel.schedule_trace, htrace]

/-- While the poller is on its round, the only process gets its turn and exits; then the poller goes
on from where it was. -/
theorem ends (h : Scene programs System.Free m [p] pollerTask)
    (hpc : m.user (taskOf 0) = .el0) (hpar : p.parent = none) (x0 : BitVec 64) :
    ∃ m', (machine programs).Reach System.Free m' ∧ m'.atPoller ∧ m'.poller = m.poller ∧
      m'.k.processes = [p.husk x0.toInt] ∧ m'.k.kernelTtbr0 = m.k.kernelTtbr0 ∧
      m'.k.trace = m.k.trace := by
  obtain ⟨m₁, h₁, huser₁, hpoll₁, hidle₁, -⟩ :=
    h.tick (next_poller p []) (h.unmasked le_rfl) trivial
  obtain ⟨m₂, hreach₂, hpoll₂, huser₂, hps₂, hsched₂, hkt₂, htrace₂⟩ :=
    h₁.exit (huser₁ ▸ hpc) hpar x0 trivial
  have hnext : Scheduler.next { tasks := [.kernel, .exited, .exited, .kernel,
      { Task.user 0 p.ttbr0 with state := .exited }], current := 0 } = pollerTask := by
    refine Scheduler.next_eq (d := 2) (show 2 < 5 by decide) rfl fun e he ↦ ?_
    obtain rfl | rfl : e = 0 ∨ e = 1 := by omega
    · rfl
    · rfl
  obtain ⟨hsched₃, hidle₃, -⟩ := Kernel.tick_next hsched₂ (fun t ht ↦ by
    simp only [List.mem_cons, List.not_mem_nil, or_false] at ht
    rcases ht with rfl | rfl | rfl | rfl | rfl <;> nofun) hnext
  have hmask : m₂.masked = false := by
    rw [Machine.masked, Machine.userPc, hsched₂]
    dsimp only
    rw [huser₂ 0 (by decide)]
  refine ⟨{ m₂ with k := m₂.k.tick }, reach_next .tick hreach₂ trivial
    (Machine.step_tick hmask), ?_,
    hpoll₂.trans hpoll₁, hidle₃.processes.trans hps₂,
    (hidle₃.kernelTtbr0.trans hkt₂).trans hidle₁.kernelTtbr0,
    (hidle₃.trace.trans htrace₂).trans hidle₁.trace⟩
  rw [Machine.atPoller, hsched₃]

end Scene

/-! ## Scenes exist -/

/-- No process has been torn down. -/
def AllLive (m : Machine) : Prop := ∀ p ∈ m.k.processes, p.live = true

theorem Scene.allLive {programs : List (String × List UInt8)} {ok : Machine → Act → Prop}
    {m : Machine} {p : Process} {cur : Nat} (h : Scene programs ok m [p] cur) (hl : p.live = true) :
    AllLive m := by
  intro q hq
  rw [h.processes] at hq
  rw [List.mem_singleton.mp hq, hl]

/-- **`kmain` starts the shell** once boot has succeeded: its process has the keyboard, its task and
the poller have not run yet.  Up to there only `kmain` runs. -/
theorem exists_shell_running {programs : List (String × List UInt8)} {ok : Machine → Act → Prop}
    (hslot : ∀ q ∈ programs, Elf.InUserSlot q.2) {image : List UInt8} {loaded : Loaded}
    {pgs : List PageSpec} (hjsh : (programs.find? fun q ↦ q.1 == "jsh").map (·.2) = some image)
    (hplan : Elf.plan image = some (loaded, pgs)) (hpgs : processFrames pgs.length ≤ 500)
    (hok : ∀ m, m.poller.pc = .record → AllLive m → ok m .run) :
    ∃ m root frames, Scene programs ok m
        [{ Process.fresh root loaded frames with foreground := true }] 0 ∧
      m.poller = { pc := .record, announced := false, lastWork := 0 } ∧
      m.user = (fun _ ↦ .start) ∧ m.k.ticks = 0 ∧ m.k.poller = none ∧ m.k.trace = [] ∧
      400 ≤ m.k.phys.frames.freeCount ∧ m.k.Granting ∧ m.k.programs = programs := by
  obtain ⟨k, hb, hps, hc⟩ :=
    bootKernel_isSome ramBase 1000 (by decide) (by decide) (fun _ ↦ 0) 0 programs
  have hfresh := bootKernel_fresh hb
  obtain ⟨L, own, -, h⟩ := Inv.boot (by decide) hslot hb
  have himg : Elf.InUserSlot image := by
    obtain ⟨q, hq, rfl⟩ := Option.map_eq_some_iff.mp hjsh
    exact hslot q (List.mem_of_find?_eq_some hq)
  obtain ⟨root, s, frames, s', own', hroot, hspace, -, hc', h'⟩ :=
    h.newProcess himg hplan (by omega)
  obtain ⟨hprog, hticks⟩ : k.programs = programs ∧ k.ticks = 0 := by
    rw [bootKernel] at hb
    obtain ⟨x, -, hb⟩ := Option.bind_eq_some_iff.mp hb
    obtain ⟨y, -, hb⟩ := Option.bind_eq_some_iff.mp hb
    rw [← Option.some.inj hb]
    exact ⟨rfl, rfl⟩
  have hcur : k.sched.current = 0 := by rw [hfresh.sched]
  obtain ⟨p, hp⟩ : ∃ p, p = Process.fresh root loaded frames := ⟨_, rfl⟩
  -- the process is created
  obtain ⟨k₁, hk₁⟩ : ∃ k₁ : Kernel, k₁ = { k with phys := s', processes := [p] } := ⟨_, rfl⟩
  have hcreate : (bootMachine k).step .run =
      some { bootMachine k with k := k₁, kmain := .setForeground 0 } := by
    rw [Machine.step_kmain hcur]
    simp only [Machine.kmainStep, bootMachine, Kernel.getProgram, hprog, hjsh, hroot, Kernel.create,
      hspace, hps, hk₁, hp, Option.bind_eq_bind, Option.bind_some, List.nil_append, List.length_nil]
  have hreach₀ : (machine programs).Reach ok (bootMachine k) :=
    .init ⟨_, _, _, k, le_rfl, hb, rfl⟩
  have hnone : AllLive (bootMachine k) := fun q hq ↦ by
    rw [show (bootMachine k).k.processes = [] from hps] at hq
    cases hq
  have hreach₁ := reach_next .run hreach₀ (hok _ rfl hnone) hcreate
  have hlive : ∀ q ∈ [p], q.live = true := fun q hq ↦ by
    rw [List.mem_singleton.mp hq, hp]
    rfl
  have hlive₁ : AllLive { bootMachine k with k := k₁, kmain := .setForeground 0 } := by
    rw [AllLive, hk₁]
    exact hlive
  -- it gets the keyboard
  obtain ⟨k₂, hk₂⟩ : ∃ k₂ : Kernel, k₂ = { k₁ with processes := [{ p with foreground := true }] } :=
    ⟨_, rfl⟩
  have hfg : ({ bootMachine k with k := k₁, kmain := .setForeground 0 } : Machine).step .run =
      some { bootMachine k with k := k₂, kmain := .spawnJsh 0 } := by
    refine (Machine.step_kmain (by rw [Machine.atKmain, hk₁]; exact hcur)).trans ?_
    rw [Machine.kmainStep, hk₂, hk₁]
    rfl
  have hreach₂ := reach_next .run hreach₁ (hok _ rfl hlive₁) hfg
  have hlive₂ : AllLive { bootMachine k with k := k₂, kmain := .spawnJsh 0 } := by
    rw [AllLive, hk₂]
    intro q hq
    rw [List.mem_singleton.mp hq]
    exact hlive p List.mem_cons_self
  -- and its task
  have hspawn : ({ bootMachine k with k := k₂, kmain := .spawnJsh 0 } : Machine).step .run =
      some { bootMachine k with k := k₂.spawnUser 0 p.ttbr0, kmain := .idle } := by
    refine (Machine.step_kmain (by rw [Machine.atKmain, hk₂, hk₁]; exact hcur)).trans ?_
    have hroot₂ : Processes.ttbr0 k₂.processes 0 = some p.ttbr0 := by rw [hk₂]; rfl
    simp only [Machine.kmainStep, hroot₂, Option.bind_eq_bind, Option.bind_some]
  have hsame : SameSpaces k₁ (k₂.spawnUser 0 p.ttbr0) := by
    refine ⟨?_, fun i ↦ ?_, ?_, ?_, ?_⟩ <;> rw [Kernel.spawnUser, hk₂]
    -- the keyboard has no part in the space
    rw [hk₁]
    cases i with
    | zero => rfl
    | succ i => rfl
  have hmem : (k₂.spawnUser 0 p.ttbr0).mem = k₁.mem := by rw [Kernel.spawnUser, hk₂]
  have hgrant : k₁.Granting := by
    have hg : k.Granting := fun pid q hq ↦ by
      rw [hps] at hq
      cases hq
    have hg₁ := hg.create hroot hspace h himg (q := p) (by rw [hp]; rfl)
    rwa [hps, List.nil_append, ← hk₁] at hg₁
  rw [hps, List.nil_append, ← hp, ← hk₁] at h'
  refine ⟨_, root, frames, ⟨reach_next .run hreach₂ (hok _ rfl hlive₂) hspawn,
    ⟨L, own', h'.of_mem_eq hsame hmem⟩, ?_, ?_, rfl, fun _ _ ↦ rfl, ?_⟩, rfl, rfl, ?_, ?_, ?_, ?_,
    hgrant.of_same hsame hmem, ?_⟩
  · rw [Kernel.spawnUser, hk₂, hp]
  · rw [Kernel.spawnUser, hk₂, hk₁, hfresh.sched, hp]
    rfl
  · rw [Kernel.spawnUser, hk₂, hk₁]
    dsimp only
    rw [hfresh.input, InputBuf.contents_empty]
  · rw [Kernel.spawnUser, hk₂, hk₁]
    exact hticks
  · rw [Kernel.spawnUser, hk₂, hk₁]
    exact hfresh.poller
  · rw [Kernel.spawnUser, hk₂, hk₁]
    exact hfresh.trace
  · rw [Kernel.spawnUser, hk₂, hk₁]
    dsimp only
    omega
  · rw [Kernel.spawnUser, hk₂, hk₁]
    exact hprog

/-- The programs of the scenes below: a shell of one page. -/
def shellOnly : List (String × List UInt8) := [("jsh", pageImage userBase)]

theorem shellOnly_inUserSlot : ∀ q ∈ shellOnly, Elf.InUserSlot q.2 := by
  intro q hq
  rw [List.mem_singleton.mp hq]
  exact inUserSlot_pageImage_userBase

/-- The shell when it has its ring: it has the keyboard, and none of its reads is parked. -/
structure Shell (p : Process) : Prop where
  ring : p.ringPa ≠ 0
  loaded : p.loaded = pageLoaded userBase
  parent : p.parent = none
  foreground : p.foreground = true
  pending : p.pending = Vector.replicate maxPending none

/-- **The shell runs, with a ring**: it has reached user code and set up its ring, and the poller
has not run yet.  It has stored nothing so far. -/
theorem exists_ringed_storeless (ok : Machine → Act → Prop)
    (hok : ∀ m a, (∀ va n v, a ≠ .user (.store va n v)) → m.poller.pc = .record → AllLive m →
      ok m a) :
    ∃ m p, Scene shellOnly ok m [p] (taskOf 0) ∧ m.user (taskOf 0) = .el0 ∧
      m.poller = { pc := .record, announced := false, lastWork := 0 } ∧ Shell p ∧
      (∀ x ∈ frameAt p.ringPa, m.k.mem x = 0) ∧ m.k.trace = [] ∧
      300 ≤ m.k.phys.frames.freeCount ∧ m.k.Granting ∧ m.k.programs = shellOnly ∧
      ∀ i, i ≠ 0 → m.user (taskOf i) = .start := by
  obtain ⟨m, root, frames, h, hpoll, huser, -, -, htrace, hroom, hgrant, hprog⟩ :=
    exists_shell_running shellOnly_inUserSlot rfl plan_pageImage_userBase (by decide)
      fun m ↦ hok m .run (by rintro _ _ _ ⟨⟩)
  have hrec : m.poller.pc = .record := by rw [hpoll]
  obtain ⟨m₁, h₁, huser₁, hpoll₁, hidle₁, -⟩ :=
    h.tick (next_kmain _) (h.unmasked (by decide))
      (hok m _ (by rintro _ _ _ ⟨⟩) hrec (h.allLive rfl))
  have hrec₁ : m₁.poller.pc = .record := by rw [hpoll₁, hrec]
  obtain ⟨m₂, h₂, huser₂, hpoll₂, hidle₂, -⟩ :=
    h₁.tick (next_poller _ []) (h₁.unmasked le_rfl)
      (hok m₁ _ (by rintro _ _ _ ⟨⟩) hrec₁ (h₁.allLive rfl))
  have hrec₂ : m₂.poller.pc = .record := by rw [hpoll₂, hrec₁]
  have hphys : m₂.k.phys = m.k.phys := hidle₂.phys.trans hidle₁.phys
  have htrace₂ : m₂.k.trace = [] := (hidle₂.trace.trans hidle₁.trace).trans htrace
  have hgrant₂ : m₂.k.Granting := hidle₂.granting (hidle₁.granting hgrant)
  have h₃ := h₂.start rfl (by rw [huser₂, huser₁, huser])
    (hok m₂ _ (by rintro _ _ _ ⟨⟩) hrec₂ (h₂.allLive rfl))
  have hel0 : m₂.userTask.user (taskOf 0) = .el0 := userTask_self (h₂.atUser rfl)
  obtain ⟨k', frame, hpos, h₄, hzero, -, htrace₄, -, hcount, hgrant₄, hprog₄⟩ :=
    h₃.setup hel0 rfl (by show 4 ≤ m₂.k.phys.frames.freeCount; rw [hphys]; omega)
      (hok _ _ (by rintro _ _ _ ⟨⟩) hrec₂ (h₃.allLive rfl))
  refine ⟨_, _, h₄, hel0, ?_, ⟨hpos, rfl, rfl, rfl, rfl⟩, hzero, htrace₄.trans htrace₂, ?_,
    hgrant₄ hgrant₂,
    hprog₄.trans ((hidle₂.programs.trans hidle₁.programs).trans hprog), fun i hi ↦ ?_⟩
  · exact (hpoll₂.trans hpoll₁).trans hpoll
  · have hcount' : m₂.k.phys.frames.freeCount ≤ k'.phys.frames.freeCount + 4 := hcount
    rw [hphys] at hcount'
    show 300 ≤ k'.phys.frames.freeCount
    omega
  · show m₂.userTask.user (taskOf i) = .start
    rw [userTask_of_ne (h₂.atUser (p := _) rfl) hi, huser₂, huser₁, huser]

theorem exists_ringed (ok : Machine → Act → Prop)
    (hok : ∀ m a, m.poller.pc = .record → AllLive m → ok m a) :
    ∃ m p, Scene shellOnly ok m [p] (taskOf 0) ∧ m.user (taskOf 0) = .el0 ∧
      m.poller = { pc := .record, announced := false, lastWork := 0 } ∧ Shell p ∧
      (∀ x ∈ frameAt p.ringPa, m.k.mem x = 0) ∧ m.k.trace = [] ∧
      300 ≤ m.k.phys.frames.freeCount ∧ m.k.Granting ∧ m.k.programs = shellOnly ∧
      ∀ i, i ≠ 0 → m.user (taskOf i) = .start :=
  exists_ringed_storeless ok fun m a _ ↦ hok m a

/-- The poller starts its rounds. -/
theorem Scene.begins {programs : List (String × List UInt8)} {ok : Machine → Act → Prop}
    {m : Machine} {ps : List Process} (h : Scene programs ok m ps pollerTask)
    (hpc : m.poller.pc = .record)
    (hok : ∀ k (l : Poller), k.processes = ps → l.OffDrain →
      ok { m with k := k, poller := l } .run) :
    ∃ m', Scene programs ok m' ps pollerTask ∧ m'.user = m.user ∧
      m'.poller = { m.poller with pc := .scan ps.length 0 false, lastWork := m.k.ticks } ∧
      m'.k = { m.k with poller := some pollerTask } := by
  have hcur : m.atPoller := by rw [Machine.atPoller, h.sched]
  obtain ⟨L, own, hinv⟩ := h.inv
  obtain ⟨k₁, hk₁⟩ : ∃ k₁ : Kernel, k₁ = { m.k with poller := some pollerTask } := ⟨_, rfl⟩
  have hrecord : m.step .run =
      some { m with k := k₁, poller := { m.poller with pc := .clock } } := by
    rw [Machine.step_poller hcur, Machine.pollerStep, hpc, hk₁,
      ← show m.k.sched.current = _ from hcur]
    rfl
  have hinv₁ : Inv True L own k₁ := by
    rw [hk₁]
    exact hinv.of_mem_eq ⟨rfl, fun _ ↦ rfl, rfl, rfl, rfl⟩ rfl
  have h₁ : Scene programs ok { m with k := k₁, poller := { m.poller with pc := .clock } } ps
      pollerTask :=
    ⟨reach_next .run h.reach (hok m.k m.poller h.processes (.of_pc hpc rfl)) hrecord,
      ⟨L, own, hinv₁⟩,
      by rw [hk₁]; exact h.processes, by rw [hk₁]; exact h.sched, h.kmain, h.kernelTasks,
      by rw [hk₁]; exact h.input⟩
  have hticks : k₁.ticks = m.k.ticks := by rw [hk₁]
  have hlen : k₁.processes.length = ps.length := by rw [hk₁]; exact congrArg List.length h.processes
  have h₂ := h₁.poll (l := { m.poller with pc := .top, lastWork := m.k.ticks })
    (by rw [← hticks]; rfl) (hok _ _ h₁.processes (.of_pc rfl rfl))
  have h₃ := h₂.poll (l := { m.poller with pc := .scan ps.length 0 false, lastWork := m.k.ticks })
    (by rw [← hlen]; rfl) (hok _ _ h₂.processes (.of_pc rfl rfl))
  exact ⟨_, h₃, rfl, rfl, hk₁⟩

/-- **The poller has found a submission** of the shell, a no-op, and is about to install its space;
the shell is in user code. -/
theorem exists_found (ok : Machine → Act → Prop)
    (hok : ∀ m a, AllLive m → ok m a) :
    ∃ m p, Scene shellOnly ok m [p] pollerTask ∧ m.user (taskOf 0) = .el0 ∧
      m.poller.pc = .scanActivate 1 0 p.ttbr0 ∧ m.k.poller = some pollerTask ∧
      p.live = true ∧ p.ringPa ≠ 0 ∧ p.parent = none ∧ sqHead m.k.mem p.ringPa = 0 ∧
      sqTail m.k.mem p.ringPa = 1 ∧ Nops m.k.mem p.ringPa ∧ m.k.trace = [] := by
  obtain ⟨m, p, h, hel0, hpoll, hshell, hzero, htrace, -⟩ :=
    exists_ringed ok fun m a _ hl ↦ hok m a hl
  have hring := hshell.ring
  have hl : p.live = true := (h.atUser rfl).live
  -- the entries are zero, so moving the tail publishes a no-op
  obtain ⟨hhead, htail, hnops, -⟩ := publish_nops hzero 1
  have h₁ := h.store rfl hel0 hring offSqTail 4 (1 : BitVec 32).toNat (by decide) (by decide)
    (hok _ _ (h.allLive hl))
  obtain ⟨m₁, hm₁⟩ : ∃ m₁ : Machine, m₁ = { m with
    k := m.k.setMem (m.k.mem.store (p.ringPa + offSqTail) 4 (1 : BitVec 32).toNat) } := ⟨_, rfl⟩
  rw [← hm₁] at h₁
  have hmem₁ : m₁.k.mem = m.k.mem.store (p.ringPa + offSqTail) 4 (1 : BitVec 32).toNat := by
    rw [hm₁]
    rfl
  obtain ⟨huser₁, hpoll₁, htrace₁⟩ : m₁.user = m.user ∧ m₁.poller = m.poller ∧
      m₁.k.trace = m.k.trace := by
    rw [hm₁]
    exact ⟨rfl, rfl, rfl⟩
  -- the poller gets its turn
  obtain ⟨m₂, h₂, huser₂, hpoll₂, hidle₂, -⟩ := h₁.tick (next_last [.exited, .exited, .kernel] _)
    (h₁.unmasked_user (.inl (huser₁ ▸ hel0))) (hok _ _ (h₁.allLive hl))
  obtain ⟨m₃, h₃, huser₃, hpoll₃, hidle₃, -⟩ :=
    h₂.tick (next_kmain _) (h₂.unmasked (by decide)) (hok _ _ (h₂.allLive hl))
  have hrec : m₃.poller.pc = .record := by rw [hpoll₃, hpoll₂, hpoll₁, hpoll]
  have hall : ∀ k l, k.processes = [p] → ok { m₃ with k := k, poller := l } .run := by
    intro k l hk
    refine hok _ _ fun q hq ↦ ?_
    rw [show k.processes = [p] from hk] at hq
    rw [List.mem_singleton.mp hq, hl]
  obtain ⟨m₄, h₄, huser₄, hpoll₄, hk₄⟩ := h₃.begins hrec fun k l hk _ ↦ hall k l hk
  have hmem₄ : m₄.k.mem = m₁.k.mem := by
    rw [hk₄]
    exact congrArg Phys.mem (hidle₃.phys.trans hidle₂.phys)
  have htrace₄ : m₄.k.trace = [] := by
    rw [hk₄]
    exact ((hidle₃.trace.trans hidle₂.trace).trans htrace₁).trans htrace
  rw [← hmem₁, ← hmem₄] at hhead htail hnops
  have hpc₄ : m₄.poller.pc = .scan 1 0 false := by rw [hpoll₄]; rfl
  have hlive₄ : AllLive m₄ := h₄.allLive hl
  have h₅ := h₄.finds (fun l _ ↦ hok _ _ hlive₄) hpc₄ (by decide) rfl hring
    (by rw [hhead, htail]; decide)
  exact ⟨_, p, h₅, by rw [← hel0, ← huser₁, ← huser₂, ← huser₃, ← huser₄], rfl, by rw [hk₄], hl,
    hring, hshell.parent, hhead, htail, hnops, htrace₄⟩

end Jatuli

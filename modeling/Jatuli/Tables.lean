import Jatuli.Machine
import Jatuli.Scheduling
import Jatuli.Service

/-!
# The tables of tasks and processes

Each process has one task, and the tasks of processes stand in the task table in the order of the
processes, after the four tasks of the kernel.  `TableOk` says so, along with what holds of every
entry of the process table.  It is kept by each of the kernel's functions, most of which only change
a single entry or wake a task; how entries may change at all is the relation `Evolves`.
-/

set_option autoImplicit false

namespace Jatuli

/-- The task of process `pid`. -/
def taskOf (pid : Nat) : Nat := pollerTask + 1 + pid

/-- What of a task never changes. -/
def Task.binding (t : Task) : Option Nat × Option Nat := (t.process, t.ttbr0)

/-- The states the tasks of the kernel are in: `kmain` never stops, the workers of the self-check
are gone, and the poller may only block. -/
structure KernelStates (s : Scheduler) : Prop where
  kmain : s.runnable 0 = true
  worker : ∀ {i : Nat} {t : Task}, i = 1 ∨ i = 2 → s.tasks[i]? = some t → t.state = .exited
  poller : ∀ {t : Task}, s.tasks[pollerTask]? = some t → t.state ≠ .exited

/-- What holds of the entry of process `pid`. -/
structure EntryOk (pid : Nat) (p : Process) : Prop where
  root : p.ttbr0 ≠ 0
  parent : ∀ {j : Nat}, p.parent = some j → j < pid
  dead : p.live = false → p.ringPa = 0 ∧ p.foreground = false
  waiter : ∀ {w : Nat}, p.ringWaiter = some w → w = taskOf pid

/-- How the entry of a process may change in the course of time. -/
structure Process.Evolves (p p' : Process) : Prop where
  ttbr0 : p'.ttbr0 = p.ttbr0
  loaded : p'.loaded = p.loaded
  parent : p'.parent = p.parent
  live : p'.live = true → p.live = true
  ring : p'.live = true → p.ringPa ≠ 0 → p'.ringPa = p.ringPa

/-- How the process table may change: entries stay, and evolve. -/
structure Kernel.Evolves (k k' : Kernel) : Prop where
  entries : ∀ {i : Nat} {p : Process}, k.processes[i]? = some p →
    ∃ p', k'.processes[i]? = some p' ∧ p.Evolves p'
  kernelTtbr0 : k'.kernelTtbr0 = k.kernelTtbr0

/-- What holds of the two tables together. -/
structure TableOk (k : Kernel) : Prop where
  kernel : ∀ i ≤ pollerTask, k.sched.tasks[i]?.map Task.binding = some (none, none)
  user : ∀ {pid : Nat} {t : Task}, k.sched.tasks[taskOf pid]? = some t →
    ∃ p, k.processes[pid]? = some p ∧ t.binding = (some pid, some p.ttbr0)
  states : KernelStates k.sched
  entry : ∀ {pid : Nat} {p : Process}, k.processes[pid]? = some p → EntryOk pid p
  synced : k.Synced
  recorded : ∀ {t : Nat}, k.poller = some t → t = pollerTask
  kernelRoot : k.kernelTtbr0 ≠ 0

/-- A process whose task has not been retired has not been torn down. -/
def Alive (k : Kernel) : Prop :=
  ∀ {pid : Nat} {t : Task} {p : Process}, k.sched.tasks[taskOf pid]? = some t →
    k.processes[pid]? = some p → t.state ≠ .exited → p.live = true

/-! ## Evolution -/

theorem Process.Evolves.refl (p : Process) : p.Evolves p :=
  ⟨rfl, rfl, rfl, id, fun _ _ ↦ rfl⟩

theorem Process.Evolves.trans {p p' p'' : Process} (h : p.Evolves p') (h' : p'.Evolves p'') :
    p.Evolves p'' where
  ttbr0 := h'.ttbr0.trans h.ttbr0
  loaded := h'.loaded.trans h.loaded
  parent := h'.parent.trans h.parent
  live hl := h.live (h'.live hl)
  ring hl hne := by
    have he := h.ring (h'.live hl) hne
    rw [← he]
    exact h'.ring hl (by rwa [he])

/-- A change outside the fields that matter. -/
theorem Process.Evolves.of_eq {p p' : Process} (ht : p'.ttbr0 = p.ttbr0) (hl : p'.loaded = p.loaded)
    (hpar : p'.parent = p.parent) (hc : p'.exitCode = p.exitCode) (hr : p'.ringPa = p.ringPa) :
    p.Evolves p' :=
  ⟨ht, hl, hpar, fun h ↦ by rwa [Process.live, hc] at h, fun _ _ ↦ hr⟩

theorem Touched.evolves {pid i : Nat} {p p' : Process} (h : Touched pid i p p') : p.Evolves p' :=
  .of_eq (by rw [h.rest]) (by rw [h.rest]) (by rw [h.rest]) (by rw [h.rest]) (by rw [h.rest])

namespace Kernel.Evolves

variable {k k' k'' : Kernel}

theorem of_eq (hps : k'.processes = k.processes) (hkt : k'.kernelTtbr0 = k.kernelTtbr0) :
    k.Evolves k' :=
  ⟨fun {_ p} hp ↦ ⟨p, by rw [hps, hp], .refl p⟩, hkt⟩

theorem refl (k : Kernel) : k.Evolves k := of_eq rfl rfl

theorem trans (h : k.Evolves k') (h' : k'.Evolves k'') : k.Evolves k'' where
  entries hp := by
    obtain ⟨p', hp', he⟩ := h.entries hp
    obtain ⟨p'', hp'', he'⟩ := h'.entries hp'
    exact ⟨p'', hp'', he.trans he'⟩
  kernelTtbr0 := h'.kernelTtbr0.trans h.kernelTtbr0

/-- A change of one entry. -/
theorem of_set {pid : Nat} {p p' : Process} (hp : k.processes[pid]? = some p) (he : p.Evolves p')
    (hps : k'.processes = k.processes.set pid p') (hkt : k'.kernelTtbr0 = k.kernelTtbr0) :
    k.Evolves k' := by
  refine ⟨fun {i q} hq ↦ ?_, hkt⟩
  rw [hps]
  by_cases hi : pid = i
  · subst hi
    rw [hp] at hq
    cases hq
    exact ⟨p', List.getElem?_set_self (List.getElem?_eq_some_iff.mp hp).1, he⟩
  · exact ⟨q, by rw [List.getElem?_set_ne hi, hq], .refl q⟩

end Kernel.Evolves

theorem EntryOk.touched {pid i : Nat} {p p' : Process} (h : EntryOk i p)
    (ht : Touched pid i p p') : EntryOk i p' := by
  rw [ht.rest]
  exact ⟨h.root, h.parent, h.dead, h.waiter⟩

theorem Served.evolves {pid : Nat} {k k' : Kernel} (h : Served pid k k') : k.Evolves k' :=
  ⟨fun hp ↦ (h.entries hp).imp fun _ h ↦ ⟨h.1, h.2.evolves⟩, h.kernelTtbr0⟩

/-! ## States -/

namespace KernelStates

variable {s s' : Scheduler}

/-- Only the states of the four tasks matter. -/
theorem congr (h : KernelStates s) (hs : ∀ i ≤ pollerTask, s'.tasks[i]? = s.tasks[i]?) :
    KernelStates s' where
  kmain := by
    rw [Scheduler.runnable, hs 0 (by decide)]
    exact h.kmain
  worker {i t} hi ht := h.worker hi (hs i (by rcases hi with rfl | rfl <;> decide) ▸ ht)
  poller ht := h.poller (hs pollerTask le_rfl ▸ ht)

theorem woken (h : KernelStates s) (hw : s.Woken s') : KernelStates s' where
  kmain := hw.runnable h.kmain
  worker hi ht := by
    obtain ⟨t₀, ht₀, -, -, hs | ⟨hs, -⟩⟩ := hw.getElem?' ht
    · rw [hs, h.worker hi ht₀]
    · rw [h.worker hi ht₀] at hs
      cases hs
  poller ht := by
    obtain ⟨t₀, ht₀, -, -, hs | ⟨-, hs⟩⟩ := hw.getElem?' ht
    · rw [hs]
      exact h.poller ht₀
    · rw [hs]
      exact fun hx ↦ by cases hx

/-- A task of a process changes its state. -/
theorem modify (h : KernelStates s) {f : Task → Task} {c : Nat} (hc : pollerTask < c) :
    KernelStates { s with tasks := s.tasks.modify c f } :=
  h.congr fun i hi ↦ List.getElem?_modify_ne f s.tasks (by omega)

/-- The poller blocks. -/
theorem block (h : KernelStates s) (hc : s.current = pollerTask) : KernelStates s.markBlocked where
  kmain := by
    rw [Scheduler.runnable, Scheduler.markBlocked, hc, List.getElem?_modify_ne _ _ (by decide)]
    exact h.kmain
  worker {i t} hi ht := by
    rw [Scheduler.markBlocked, hc,
      List.getElem?_modify_ne _ _ (by rcases hi with rfl | rfl <;> decide)] at ht
    exact h.worker hi ht
  poller ht := by
    rw [Scheduler.markBlocked, hc, List.getElem?_modify_eq] at ht
    obtain ⟨t₀, -, rfl⟩ := Option.map_eq_some_iff.mp ht
    exact fun hx ↦ by cases hx

end KernelStates

theorem binding_woken {s s' : Scheduler} (h : s.Woken s') (i : Nat) :
    s'.tasks[i]?.map Task.binding = s.tasks[i]?.map Task.binding := by
  rcases h.task i with he | ⟨t, ht, -, he⟩
  · rw [he]
  · rw [ht, he]
    rfl

theorem binding_modify {s : Scheduler} {f : Task → Task} (hf : ∀ t, (f t).binding = t.binding)
    (c i : Nat) : (s.tasks.modify c f)[i]?.map Task.binding = s.tasks[i]?.map Task.binding := by
  rw [List.getElem?_modify, Option.map_eq_map, Option.map_map]
  refine congrArg (Option.map · _) (funext fun t ↦ ?_)
  simp only [Function.comp_apply]
  split_ifs
  · exact hf t
  · rfl

/-! ## What follows for the running task -/

namespace TableOk

variable {k k' : Kernel}

theorem parentsBelow (h : TableOk k) : k.ParentsBelow := fun _ _ _ hp hj ↦ (h.entry hp).parent hj

/-- A task with a space is the task of a process, and the space is that of the process. -/
theorem of_ttbr0 (h : TableOk k) {i r : Nat} {t : Task} (ht : k.sched.tasks[i]? = some t)
    (hr : t.ttbr0 = some r) :
    ∃ pid p, i = taskOf pid ∧ t.process = some pid ∧ k.processes[pid]? = some p ∧ r = p.ttbr0 := by
  rcases Nat.lt_or_ge pollerTask i with hlt | hle
  · obtain ⟨pid, rfl⟩ : ∃ pid, i = taskOf pid :=
      ⟨i - (pollerTask + 1), by rw [taskOf]; omega⟩
    obtain ⟨p, hp, hb⟩ := h.user ht
    obtain ⟨hproc, hroot⟩ := Prod.mk.inj hb
    exact ⟨pid, p, rfl, hproc, hp, Option.some.inj (hr.symm.trans hroot)⟩
  · have hb := h.kernel i hle
    rw [ht, Option.map_some, Option.some.injEq] at hb
    rw [(Prod.mk.inj hb).2] at hr
    cases hr

theorem schedule_running (h : TableOk k)
    (hcur : k.sched.runnable k.sched.current = true → k.LiveFor k.sched.current) :
    k.schedule.Running := by
  refine Kernel.schedule_running h.synced h.states.kmain (fun j t r ht hr ↦ ?_) hcur
  obtain ⟨pid, p, -, -, hp, rfl⟩ := h.of_ttbr0 ht hr
  exact (h.entry hp).root

/-- After a scheduler call the live root is the one there was or that of a process whose task is
runnable, and then that process runs. -/
theorem schedule_root (h : TableOk k)
    (hcur : k.sched.runnable k.sched.current = true → k.LiveFor k.sched.current) :
    (k.schedule.ttbr0 = k.ttbr0 ∧ k.schedule.sched.currentProcess = none) ∨
      ∃ pid p t, k.sched.tasks[taskOf pid]? = some t ∧ t.state = .runnable ∧
        k.processes[pid]? = some p ∧ k.schedule.ttbr0 = p.ttbr0 ∧
        k.schedule.sched.currentProcess = some pid := by
  have hrun := Scheduler.next_runnable h.states.kmain
  obtain ⟨t, ht, hst⟩ := Scheduler.runnable_iff.mp hrun
  have hroot := Kernel.schedule_ttbr0 h.synced h.states.kmain (fun j t r ht hr ↦ by
    obtain ⟨pid, p, -, -, hp, rfl⟩ := h.of_ttbr0 ht hr
    exact (h.entry hp).root) hcur
  rw [Scheduler.currentProcess, Scheduler.currentTask, Kernel.schedule_tasks,
    Kernel.schedule_current]
  rw [ht, Option.bind_some] at hroot ⊢
  cases hr : t.ttbr0 with
  | none =>
    refine .inl ⟨by rw [hroot, hr]; rfl, ?_⟩
    rcases Nat.lt_or_ge pollerTask k.sched.next with hlt | hle
    · have hn : k.sched.next = taskOf (k.sched.next - (pollerTask + 1)) := by rw [taskOf]; omega
      rw [hn] at ht
      obtain ⟨p, -, hb⟩ := h.user ht
      rw [(Prod.mk.inj hb).2] at hr
      cases hr
    · have hb := h.kernel _ hle
      rw [ht, Option.map_some, Option.some.injEq] at hb
      exact (Prod.mk.inj hb).1
  | some r =>
    obtain ⟨pid, p, hn, hproc, hp, rfl⟩ := h.of_ttbr0 ht hr
    rw [hn] at ht
    exact .inr ⟨pid, p, t, ht, hst, hp, by rw [hroot, hr]; rfl, hproc⟩

/-- The task that runs is `kmain`, the poller, or that of a process. -/
theorem current_user (h : TableOk k) (hrun : k.sched.runnable k.sched.current = true)
    (h0 : k.sched.current ≠ 0) (h3 : k.sched.current ≠ pollerTask) :
    ∃ pid t p, k.sched.current = taskOf pid ∧ k.sched.tasks[taskOf pid]? = some t ∧
      t.state = .runnable ∧ k.processes[pid]? = some p ∧ t.ttbr0 = some p.ttbr0 ∧
      k.sched.currentProcess = some pid := by
  obtain ⟨t, ht, hst⟩ := Scheduler.runnable_iff.mp hrun
  have hlt : pollerTask < k.sched.current := by
    by_contra hle
    have hi : k.sched.current = 1 ∨ k.sched.current = 2 := by
      rw [pollerTask] at h3 hle
      omega
    rw [h.states.worker hi ht] at hst
    cases hst
  obtain ⟨pid, hpid⟩ : ∃ pid, k.sched.current = taskOf pid :=
    ⟨k.sched.current - (pollerTask + 1), by rw [taskOf]; omega⟩
  rw [hpid] at ht
  obtain ⟨p, hp, hb⟩ := h.user ht
  obtain ⟨hproc, hroot⟩ := Prod.mk.inj hb
  refine ⟨pid, t, p, hpid, ht, hst, hp, hroot, ?_⟩
  rw [Scheduler.currentProcess, Scheduler.currentTask, hpid, ht, Option.bind_some, hproc]

/-! ## Keeping the tables in order -/

theorem update (h : TableOk k) (hev : k.Evolves k')
    (hentry : ∀ {pid : Nat} {p : Process}, k'.processes[pid]? = some p → EntryOk pid p)
    (hbind : ∀ i : Nat, k'.sched.tasks[i]?.map Task.binding = k.sched.tasks[i]?.map Task.binding)
    (hstates : KernelStates k'.sched) (hsync : k'.Synced)
    (hrec : ∀ {t : Nat}, k'.poller = some t → t = pollerTask) : TableOk k' where
  kernel i hi := (hbind i).trans (h.kernel i hi)
  user {pid t} ht := by
    have hb := hbind (taskOf pid)
    rw [ht, Option.map_some] at hb
    obtain ⟨t₀, ht₀, hb₀⟩ := Option.map_eq_some_iff.mp hb.symm
    obtain ⟨p, hp, hbp⟩ := h.user ht₀
    obtain ⟨p', hp', he⟩ := hev.entries hp
    exact ⟨p', hp', by rw [← hb₀, hbp, he.ttbr0]⟩
  states := hstates
  entry := hentry
  synced := hsync
  recorded := hrec
  kernelRoot := by
    rw [hev.kernelTtbr0]
    exact h.kernelRoot

/-- A change of one entry, and wakeups. -/
theorem set (h : TableOk k) {pid : Nat} {p p' : Process} (hp : k.processes[pid]? = some p)
    (he : p.Evolves p') (hok : EntryOk pid p') (hps : k'.processes = k.processes.set pid p')
    (hw : k.sched.Woken k'.sched) (hsync : k'.Synced) (hrec : k'.poller = k.poller)
    (hkt : k'.kernelTtbr0 = k.kernelTtbr0) : TableOk k' := by
  refine h.update (.of_set hp he hps hkt) (fun {i q} hq ↦ ?_) (binding_woken hw) (h.states.woken hw)
    hsync fun ht ↦ h.recorded (hrec ▸ ht)
  rw [hps] at hq
  by_cases hi : pid = i
  · subst hi
    rw [List.getElem?_set_self (List.getElem?_eq_some_iff.mp hp).1] at hq
    cases hq
    exact hok
  · rw [List.getElem?_set_ne hi] at hq
    exact h.entry hq

/-- No change of entries, but wakeups. -/
theorem of_woken (h : TableOk k) (hps : k'.processes = k.processes) (hw : k.sched.Woken k'.sched)
    (hsync : k'.Synced) (hrec : ∀ {t : Nat}, k'.poller = some t → t = pollerTask)
    (hkt : k'.kernelTtbr0 = k.kernelTtbr0) : TableOk k' :=
  h.update (.of_eq hps hkt) (fun hq ↦ h.entry (hps ▸ hq)) (binding_woken hw) (h.states.woken hw)
    hsync hrec

theorem quiet (h : TableOk k) (hq : Quiet k k') : TableOk k' := by
  refine h.of_woken hq.processes (hq.sched ▸ .refl _) ?_ (fun ht ↦ h.recorded (hq.poller ▸ ht))
    hq.kernelTtbr0
  rw [Kernel.Synced, hq.installed, hq.ttbr0]
  exact h.synced

/-- The running task changes its state. -/
theorem mark (h : TableOk k) {f : Task → Task} (hf : ∀ t, (f t).binding = t.binding)
    (hstates : KernelStates { k.sched with tasks := k.sched.tasks.modify k.sched.current f }) :
    TableOk { k with sched := { k.sched with tasks := k.sched.tasks.modify k.sched.current f } } :=
  h.update (.of_eq rfl rfl) h.entry (binding_modify hf _) hstates h.synced h.recorded

theorem schedule (h : TableOk k) : TableOk k.schedule := by
  have hbind : ∀ i : Nat, k.schedule.sched.tasks[i]?.map Task.binding =
      k.sched.tasks[i]?.map Task.binding := fun i ↦ by rw [k.schedule_tasks]
  refine h.update (.of_eq k.schedule_processes k.schedule_kernelTtbr0) (fun hq ↦ ?_) hbind
    (h.states.congr fun i _ ↦ by rw [k.schedule_tasks]) h.synced.schedule fun ht ↦ ?_
  · rw [k.schedule_processes] at hq
    exact h.entry hq
  · rw [k.schedule_poller] at ht
    exact h.recorded ht

end TableOk

/-! ## The kernel between two steps -/

/-- The tables are in order and no task outlives its process. -/
structure Orderly (k : Kernel) : Prop extends TableOk k where
  alive : Alive k

/-- Each process has got its task. -/
def Staffed (k : Kernel) : Prop := k.sched.tasks.length = taskOf k.processes.length

namespace Kernel.Running

variable {k k' : Kernel}

/-- The running task goes on, whatever else is woken. -/
theorem of_woken (h : k.Running) (hw : k.sched.Woken k'.sched) (ht : k'.ttbr0 = k.ttbr0) :
    k'.Running where
  runnable := by
    rw [hw.current]
    exact hw.runnable h.runnable
  space t r htask hr := by
    rw [hw.current] at htask
    obtain ⟨t₀, ht₀, -, hroot, -⟩ := hw.getElem?' htask
    rw [ht]
    exact h.space t₀ r ht₀ (hroot ▸ hr)

/-- New tasks do not disturb the running one. -/
theorem of_recruited (h : k.Running) (hr : Recruited k k') (ht : k'.ttbr0 = k.ttbr0) :
    k'.Running := by
  obtain ⟨t, htask, hst⟩ := Scheduler.runnable_iff.mp h.runnable
  have hold : k'.sched.tasks[k.sched.current]? = some t :=
    (hr.old (List.getElem?_eq_some_iff.mp htask).1).trans htask
  refine ⟨?_, fun t' r ht' hroot ↦ ?_⟩
  · rw [hr.current]
    exact Scheduler.runnable_iff.mpr ⟨t, hold, hst⟩
  · rw [hr.current, hold] at ht'
    cases ht'
    rw [ht]
    exact h.space t r htask hroot

end Kernel.Running

namespace Orderly

variable {k k' : Kernel} {pid : Nat} {p : Process}

/-- The process of a task that may still run is live. -/
theorem current_live (h : Orderly k) (hrun : k.Running) (h0 : k.sched.current ≠ 0)
    (h3 : k.sched.current ≠ pollerTask) :
    ∃ pid p, k.sched.current = taskOf pid ∧ k.sched.currentProcess = some pid ∧
      k.processes[pid]? = some p ∧ p.live = true ∧ k.ttbr0 = p.ttbr0 := by
  obtain ⟨pid, t, p, hcur, ht, hst, hp, hroot, hproc⟩ := h.current_user hrun.runnable h0 h3
  refine ⟨pid, p, hcur, hproc, hp, h.alive ht hp (by rw [hst]; exact fun hx ↦ by cases hx), ?_⟩
  exact hrun.space t _ (by rw [hcur, ht]) hroot

/-- A process with a ring is live. -/
theorem live_of_ring (h : Orderly k) (hp : k.processes[pid]? = some p) (hne : p.ringPa ≠ 0) :
    p.live = true := by
  by_contra hd
  exact hne ((h.entry hp).dead (by simpa using hd)).1

/-- No process is its own parent. -/
theorem parent_ne (h : Orderly k) (hp : k.processes[pid]? = some p) : p.parent ≠ some pid :=
  fun he ↦ Nat.lt_irrefl _ ((h.entry hp).parent he)

theorem of_woken (h : Orderly k) (hps : k'.processes = k.processes)
    (hw : k.sched.Woken k'.sched) (hsync : k'.Synced)
    (hrec : ∀ {t : Nat}, k'.poller = some t → t = pollerTask)
    (hkt : k'.kernelTtbr0 = k.kernelTtbr0) : Orderly k' := by
  refine ⟨h.toTableOk.of_woken hps hw hsync hrec hkt, fun ht hp hst ↦ ?_⟩
  obtain ⟨t₀, ht₀, -, -, hs⟩ := hw.getElem?' ht
  refine h.alive ht₀ (hps ▸ hp) fun hx ↦ hst ?_
  rcases hs with hs | ⟨hs, -⟩
  · rw [hs, hx]
  · rw [hx] at hs
    cases hs

theorem quiet (h : Orderly k) (hq : Quiet k k') : Orderly k' :=
  ⟨h.toTableOk.quiet hq, fun ht hp ↦ h.alive (hq.sched ▸ ht) (hq.processes ▸ hp)⟩

theorem kprintln (h : Orderly k) (s : String) : Orderly (k.kprintln s) :=
  h.quiet (k.kprintln_quiet s)

/-- A change of one entry that does not end the process, and wakeups. -/
theorem set (h : Orderly k) {p' : Process} (hp : k.processes[pid]? = some p)
    (he : p.Evolves p') (hl : p'.live = p.live) (hok : EntryOk pid p')
    (hps : k'.processes = k.processes.set pid p')
    (hw : k.sched.Woken k'.sched) (hsync : k'.Synced) (hrec : k'.poller = k.poller)
    (hkt : k'.kernelTtbr0 = k.kernelTtbr0) : Orderly k' := by
  refine ⟨h.toTableOk.set hp he hok hps hw hsync hrec hkt, fun {i t q} ht hq hst ↦ ?_⟩
  obtain ⟨t₀, ht₀, -, -, hs⟩ := hw.getElem?' ht
  have hst₀ : t₀.state ≠ .exited := fun hx ↦ hst <| by
    rcases hs with hs | ⟨hs, -⟩
    · rw [hs, hx]
    · rw [hx] at hs
      cases hs
  rw [hps] at hq
  by_cases hi : pid = i
  · subst hi
    rw [List.getElem?_set_self (List.getElem?_eq_some_iff.mp hp).1] at hq
    cases hq
    rw [hl]
    exact h.alive ht₀ hp hst₀
  · rw [List.getElem?_set_ne hi] at hq
    exact h.alive ht₀ hq hst₀

theorem schedule (h : Orderly k) : Orderly k.schedule :=
  ⟨h.toTableOk.schedule, fun ht hp ↦ h.alive (k.schedule_tasks ▸ ht) (k.schedule_processes ▸ hp)⟩

theorem activate (h : Orderly k) (root : Nat) : Orderly (k.activate root) :=
  h.of_woken (k.activate_processes root) (by rw [k.activate_sched]; exact .refl _)
    (h.synced.activate root) (fun ht ↦ h.recorded (by rwa [Kernel.activate_eq] at ht))
    (k.activate_kernelTtbr0 root)

/-! ## Scheduler calls -/

/-- `yield_now` -/
theorem reschedule (h : Orderly k) (hrun : k.Running) : k.schedule.Running :=
  h.schedule_running fun _ ↦ hrun.space

theorem tick (h : Orderly k) (hrun : k.Running) : Orderly k.tick ∧ k.tick.Running := by
  have hw := k.sched.wakeSleepers_woken ((k.ticks + 1) % 2 ^ 64)
  have h₁ : Orderly { k with
      ticks := (k.ticks + 1) % 2 ^ 64
      sched := k.sched.wakeSleepers ((k.ticks + 1) % 2 ^ 64) } :=
    h.of_woken rfl hw h.synced h.recorded rfl
  exact ⟨h₁.schedule, h₁.reschedule (hrun.of_woken hw rfl)⟩

theorem not_runnable_mark {s : Scheduler} {f : Task → Task} (hf : ∀ t, (f t).state ≠ .runnable)
    (c : Nat) : ¬ Scheduler.runnable { s with tasks := s.tasks.modify c f } c = true := by
  rw [Scheduler.runnable_iff]
  rintro ⟨t, ht, hst⟩
  rw [List.getElem?_modify_eq] at ht
  obtain ⟨t₀, -, rfl⟩ := Option.map_eq_some_iff.mp ht
  exact hf t₀ hst

/-- The running task is marked as blocked. -/
theorem markBlocked (h : Orderly k) (hrun : k.Running) (hc : pollerTask ≤ k.sched.current) :
    Orderly { k with sched := k.sched.markBlocked } := by
  obtain ⟨t₁, ht₁, hst₁⟩ := Scheduler.runnable_iff.mp hrun.runnable
  refine ⟨h.toTableOk.mark (fun _ ↦ rfl) ?_, fun ht hp hst ↦ ?_⟩
  · rcases Nat.eq_or_lt_of_le hc with he | hlt
    · exact h.states.block he.symm
    · exact h.states.modify hlt
  · -- the task that blocks was running
    simp only [Scheduler.markBlocked, List.getElem?_modify] at ht
    obtain ⟨t₀, ht₀, rfl⟩ := Option.map_eq_some_iff.mp ht
    refine h.alive ht₀ hp ?_
    split_ifs at hst with hcur
    · rw [← hcur, ht₁] at ht₀
      cases ht₀
      rw [hst₁]
      exact fun hx ↦ by cases hx
    · exact hst

/-- The running task blocks, and another one runs. -/
theorem block (h : Orderly k) (hrun : k.Running) (hc : pollerTask ≤ k.sched.current) :
    Orderly k.blockCurrent ∧ k.blockCurrent.Running := by
  have h₁ := h.markBlocked hrun hc
  refine ⟨h₁.schedule, h₁.schedule_running fun hrun' ↦ ?_⟩
  exact absurd hrun' (not_runnable_mark (fun _ hx ↦ by cases hx) _)

/-! ## Service -/

/-- What is done on behalf of a process keeps the tables in order. -/
theorem served (h : Orderly k) (hstaff : Staffed k) (hp : k.processes[pid]? = some p)
    (hs : Served pid k k') : Orderly k' ∧ Staffed k' := by
  have hlen := hs.recruited.length hs.length_le
  rw [Staffed, taskOf] at hstaff
  have hpid := (List.getElem?_eq_some_iff.mp hp).1
  have hsplit : ∀ {i : Nat} {t : Task}, k'.sched.tasks[taskOf i]? = some t →
      k.sched.tasks[taskOf i]? = some t ∨
        k.processes.length ≤ i ∧ ∃ q, k'.processes[i]? = some q ∧ t = Task.user i q.ttbr0 := by
    intro i t ht
    rcases Nat.lt_or_ge i k.processes.length with hlt | hge
    · exact .inl ((hs.recruited.old (by rw [taskOf]; omega)).symm.trans ht)
    · have hnew := hs.recruited.new (i - k.processes.length)
      rw [show k.sched.tasks.length + (i - k.processes.length) = taskOf i by rw [taskOf]; omega,
        show k.processes.length + (i - k.processes.length) = i by omega, ht] at hnew
      obtain ⟨q, hq, he⟩ := Option.map_eq_some_iff.mp hnew.symm
      exact .inr ⟨hge, q, hq, he.symm⟩
  have hkernel : ∀ i ≤ pollerTask, k'.sched.tasks[i]? = k.sched.tasks[i]? := fun i hi ↦
    hs.recruited.old (by omega)
  refine ⟨⟨⟨fun i hi ↦ ?_, fun {i t} ht ↦ ?_, h.states.congr hkernel, fun {i q} hq ↦ ?_, ?_,
    fun ht ↦ h.recorded (hs.poller ▸ ht), ?_⟩, fun {i t q} ht hq hst ↦ ?_⟩, ?_⟩
  · rw [hkernel i hi]
    exact h.kernel i hi
  · rcases hsplit ht with ht | ⟨-, q, hq, rfl⟩
    · obtain ⟨q, hq, hb⟩ := h.user ht
      obtain ⟨q', hq', htouch⟩ := hs.entries hq
      exact ⟨q', hq', by rw [hb, htouch.evolves.ttbr0]⟩
    · exact ⟨q, hq, rfl⟩
  · rcases Nat.lt_or_ge i k.processes.length with hlt | hge
    · obtain ⟨q', hq', htouch⟩ := hs.entries (List.getElem?_eq_getElem hlt)
      rw [hq] at hq'
      cases hq'
      exact (h.entry (List.getElem?_eq_getElem hlt)).touched htouch
    · have hnew := hs.fresh hge hq
      refine ⟨hnew.root, fun hj ↦ ?_, fun hd ↦ ?_, fun hw ↦ ?_⟩
      · rw [hnew.fresh] at hj
        cases hj
        omega
      · rw [hnew.fresh] at hd
        cases hd
      · rw [hnew.fresh] at hw
        cases hw
  · rw [Kernel.Synced, hs.installed, hs.ttbr0]
    exact h.synced
  · rw [hs.kernelTtbr0]
    exact h.kernelRoot
  · rcases hsplit ht with ht | ⟨hge, -⟩
    · obtain ⟨p₀, hp₀, -⟩ := h.user ht
      obtain ⟨q', hq', htouch⟩ := hs.entries hp₀
      rw [hq] at hq'
      cases hq'
      have hl := h.alive ht hp₀ hst
      rw [htouch.rest]
      exact hl
    · rw [(hs.fresh hge hq).fresh]
      rfl
  · rw [Staffed, taskOf]
    omega

/-- A process, if it is live, gets a ring. -/
theorem setupRing (h : Orderly k) (hp : k.processes[pid]? = some p) (hl : p.live = true)
    (hs : k.setupRing pid = some k') : Orderly k' ∧ k.Evolves k' ∧ k'.sched = k.sched ∧
      k'.ttbr0 = k.ttbr0 ∧ k'.processes.length = k.processes.length := by
  obtain ⟨q, hq, hcases⟩ := Kernel.setupRing_cases hs
  obtain rfl := Option.some.inj (hp.symm.trans hq)
  rcases hcases with ⟨-, rfl⟩ | ⟨hzero, frame, -, -, -, -, rfl⟩
  · exact ⟨h, .refl _, rfl, rfl, rfl⟩
  · have he : p.Evolves { p with ringPa := frame, frames := p.frames ++ [(userRingVa, frame)] } :=
      ⟨rfl, rfl, rfl, id, fun _ hne ↦ absurd hzero hne⟩
    have hok : EntryOk pid { p with
        ringPa := frame, frames := p.frames ++ [(userRingVa, frame)] } :=
      ⟨(h.entry hp).root, (h.entry hp).parent, fun hd ↦ absurd (hl.symm.trans hd) (by decide),
        (h.entry hp).waiter⟩
    have hps : Processes.setRing k.processes pid frame = _ := modify_eq_set hp _
    exact ⟨h.set hp he rfl hok hps (.refl _) h.synced rfl rfl, .of_set hp he hps rfl, rfl, rfl,
      by rw [hps, List.length_set]⟩

/-- The running process is recorded as waiting, and blocks. -/
theorem setWaiter (h : Orderly k) (hp : k.processes[pid]? = some p) :
    Orderly { k with processes := Processes.setWaiter k.processes pid (taskOf pid) } ∧
      k.Evolves { k with processes := Processes.setWaiter k.processes pid (taskOf pid) } := by
  have hps : Processes.setWaiter k.processes pid (taskOf pid) = _ := modify_eq_set hp _
  have he : p.Evolves { p with ringWaiter := some (taskOf pid) } := .of_eq rfl rfl rfl rfl rfl
  have hok : EntryOk pid { p with ringWaiter := some (taskOf pid) } :=
    ⟨(h.entry hp).root, (h.entry hp).parent, (h.entry hp).dead, fun hw ↦ by cases hw; rfl⟩
  exact ⟨h.set hp he rfl hok hps (.refl _) h.synced rfl rfl, .of_set hp he hps rfl⟩

/-- The waiter of a process is taken, and woken. -/
theorem takeWaiter (h : Orderly k) (hp : k.processes[pid]? = some p) (w : Option Nat) :
    Orderly { k with
        processes := (Processes.takeWaiter k.processes pid).2, sched := k.sched.wakeWaiter w } ∧
      k.Evolves { k with
        processes := (Processes.takeWaiter k.processes pid).2, sched := k.sched.wakeWaiter w } := by
  have hps : (Processes.takeWaiter k.processes pid).2 = _ := modify_eq_set hp _
  have he : p.Evolves { p with ringWaiter := none } := .of_eq rfl rfl rfl rfl rfl
  have hok : EntryOk pid { p with ringWaiter := none } :=
    ⟨(h.entry hp).root, (h.entry hp).parent, (h.entry hp).dead, fun hw ↦ by cases hw⟩
  exact ⟨h.set hp he rfl hok hps (k.sched.wakeWaiter_woken w) h.synced rfl rfl,
    .of_set hp he hps rfl⟩

/-- The UART interrupt completes parked reads and may wake their process; the live root is what it
was. -/
theorem pollPending (h : Orderly k) (hstaff : Staffed k) (hk : k.pollPending = some k') :
    Orderly k' ∧ Staffed k' ∧ k.Evolves k' ∧ k.sched.Woken k'.sched ∧ k'.ttbr0 = k.ttbr0 := by
  rcases Kernel.pollPending_cases h.synced (fun hp _ ↦ (h.entry hp).root) hk with
    rfl | ⟨pid, p, i₁, k₂, completed, i₃, hfg, hp, -, hi₁, hloop, hi₃, rfl⟩
  · exact ⟨h, hstaff, .refl k', .refl _, rfl⟩
  · have h₁ : Orderly { k with installed := i₁, ttbr0 := p.ttbr0 } :=
      h.of_woken rfl (.refl _) hi₁ h.recorded rfl
    have hserved := Kernel.pollPendingFrom_served
      (k := { k with installed := i₁, ttbr0 := p.ttbr0 })
      hp hfg hloop
    obtain ⟨h₂, hstaff₂⟩ := h₁.served hstaff hp hserved
    obtain ⟨p₂, hp₂, -⟩ := hserved.entries hp
    have hsched : k₂.sched = k.sched := (Kernel.pollPendingFrom_quiet hloop).sched
    have h₃ : Orderly { k₂ with installed := i₃, ttbr0 := k.ttbr0 } :=
      h₂.of_woken rfl (.refl _) (hi₃.elim (· ▸ h.synced) .inr) h₂.recorded rfl
    have hev : k.Evolves { k₂ with installed := i₃, ttbr0 := k.ttbr0 } :=
      ⟨hserved.evolves.entries, hserved.evolves.kernelTtbr0⟩
    cases completed with
    | false => exact ⟨h₃, hstaff₂, hev, hsched ▸ .refl _, rfl⟩
    | true =>
      obtain ⟨h₄, hev₄⟩ := h₃.takeWaiter hp₂ (Processes.takeWaiter k₂.processes pid).1
      refine ⟨h₄, ?_, hev.trans hev₄, ?_, rfl⟩
      · have hw := (k₂.sched.wakeWaiter_woken (Processes.takeWaiter k₂.processes pid).1).length
        show (k₂.sched.wakeWaiter _).tasks.length = taskOf (List.modify ..).length
        rw [hw, List.length_modify]
        exact hstaff₂
      · rw [← hsched]
        exact k₂.sched.wakeWaiter_woken _

/-- The poller is woken if its flag is up, then the process is served. -/
theorem enterSubmit (h : Orderly k) (hstaff : Staffed k) (hp : k.processes[pid]? = some p)
    {ringPa : Nat} (hk : k.enterSubmit pid ringPa = some k') :
    ∃ k₁, (k₁ = k ∨ k₁ = k.ringStore ringPa offFlags 4 0 ∨
        k₁ = (k.ringStore ringPa offFlags 4 0).wake pollerTask) ∧
      k₁.drain pid = some k' ∧ Served pid k₁ k' ∧ k.sched.Woken k₁.sched ∧ Orderly k₁ ∧
      Orderly k' ∧ Staffed k' := by
  rw [Kernel.enterSubmit] at hk
  have hcases : ∀ k₁ : Kernel, k₁ = k ∨ k₁ = k.ringStore ringPa offFlags 4 0 ∨
      k₁ = (k.ringStore ringPa offFlags 4 0).wake pollerTask → k₁.drain pid = some k' →
      Served pid k₁ k' ∧ k.sched.Woken k₁.sched ∧ Orderly k₁ ∧ Orderly k' ∧ Staffed k' := by
    intro k₁ hk₁ hd
    have hq := k.ringStore_quiet ringPa offFlags 4 0
    have hwoken : k.sched.Woken k₁.sched := by
      rcases hk₁ with rfl | rfl | rfl
      · exact .refl _
      · exact .refl _
      · exact k.sched.wake_woken pollerTask
    have hps : k₁.processes = k.processes := by rcases hk₁ with rfl | rfl | rfl <;> rfl
    have h₁ : Orderly k₁ := by
      rcases hk₁ with rfl | rfl | rfl
      · exact h
      · exact h.quiet hq
      · exact (h.quiet hq).of_woken rfl (k.sched.wake_woken pollerTask) h.synced h.recorded rfl
    have hstaff₁ : Staffed k₁ := by
      rw [Staffed, hwoken.length, hps]
      exact hstaff
    have hs := Kernel.drain_served (by rw [hps, hp]) hd
    obtain ⟨h₂, hstaff₂⟩ := h₁.served hstaff₁ (by rw [hps, hp]) hs
    exact ⟨hs, hwoken, h₁, h₂, hstaff₂⟩
  split_ifs at hk with hflag
  · simp only at hk
    split at hk
    · rename_i t ht
      cases h.recorded ht
      exact ⟨_, .inr (.inr rfl), hk, hcases _ (.inr (.inr rfl)) hk⟩
    · exact ⟨_, .inr (.inl rfl), hk, hcases _ (.inr (.inl rfl)) hk⟩
  · exact ⟨k, .inl rfl, hk, hcases k (.inl rfl) hk⟩

/-- The entry of a process that is torn down. -/
theorem husk_ok (h : Orderly k) (hp : k.processes[pid]? = some p) (code : Int) :
    p.Evolves (p.husk code) ∧ EntryOk pid (p.husk code) :=
  have hdead : ¬ (p.husk code).live = true := Bool.false_ne_true
  ⟨⟨rfl, rfl, rfl, fun hl ↦ absurd hl hdead, fun hl ↦ absurd hl hdead⟩, (h.entry hp).root,
    (h.entry hp).parent, fun _ ↦ ⟨rfl, rfl⟩, fun hw ↦ by cases hw⟩

/-- Losing the waiter changes nothing of importance. -/
theorem unwaited_ok {i : Nat} {q q' : Process} (h : Orderly k) (hq : k.processes[i]? = some q)
    (hq' : q' = q ∨ q' = { q with ringWaiter := none }) :
    q.Evolves q' ∧ EntryOk i q' ∧ q'.live = q.live := by
  have hok := h.entry hq
  rcases hq' with rfl | rfl
  · exact ⟨.refl q', hok, rfl⟩
  · exact ⟨.of_eq rfl rfl rfl rfl rfl, ⟨hok.root, hok.parent, hok.dead, fun hw ↦ by cases hw⟩, rfl⟩

/-- The end of the running process: its entry becomes a husk, its task is marked, its parent may
be woken. -/
theorem markExited (h : Orderly k) (hcur : k.sched.current = taskOf pid)
    (hp : k.processes[pid]? = some p) {code : Int} (hk : k.teardown pid code = some k') :
    Orderly { k' with sched := k'.sched.markExited } ∧ k.Evolves k' ∧
      k'.processes.length = k.processes.length ∧ k.sched.Woken k'.sched := by
  have hne := h.parent_ne hp
  obtain ⟨k₁, msg, hrep, hk'⟩ := Kernel.teardown_cases hp hne hk
  have hps : k'.processes = k₁.processes.set pid (p.husk code) := by
    rw [hk', Kernel.kprintln_processes, Kernel.activate_processes]
  have hw : k.sched.Woken k'.sched := by
    obtain ⟨w, hw⟩ := hrep.sched_eq
    rw [hk', Kernel.kprintln_sched, Kernel.activate_sched]
    show k.sched.Woken k₁.sched
    rw [hw]
    exact k.sched.wakeWaiter_woken w
  have hkt : k'.kernelTtbr0 = k.kernelTtbr0 := by
    rw [hk', Kernel.kprintln_kernelTtbr0, Kernel.activate_kernelTtbr0]
    exact hrep.quiet.kernelTtbr0
  have hsync : k'.Synced := by
    have hq := hrep.quiet
    rw [hk']
    refine Kernel.Synced.activate ?_ _
    exact h.synced.imp (hq.installed.trans ·) fun he ↦ (hq.installed.trans he).trans hq.ttbr0.symm
  have hrec : k'.poller = k.poller := by
    rw [hk', Kernel.activate_eq]
    exact hrep.quiet.poller
  -- the entries afterwards, in terms of those before
  have hhusk : k'.processes[pid]? = some (p.husk code) := by
    rw [hps]
    exact ExitReport.getElem?_husk hp hne hrep
  have hother : ∀ {i : Nat} {q' : Process}, i ≠ pid → k'.processes[i]? = some q' →
      ∃ q, k.processes[i]? = some q ∧ (q' = q ∨ q' = { q with ringWaiter := none }) := by
    intro i q' hi hq'
    rw [hps] at hq'
    have hmap := ExitReport.map_of_ne hrep Process.ttbr0 (fun _ ↦ rfl) hi
    rw [hq', Option.map_some] at hmap
    obtain ⟨q, hq, -⟩ := Option.map_eq_some_iff.mp hmap.symm
    obtain ⟨q₁, hq₁, hcase⟩ := ExitReport.entry_of_ne hrep hi hq
    rw [hq'] at hq₁
    cases hq₁
    exact ⟨q, hq, hcase⟩
  have hev : k.Evolves k' := by
    refine ⟨fun {i q} hq ↦ ?_, hkt⟩
    by_cases hi : i = pid
    · subst hi
      rw [hp] at hq
      cases hq
      exact ⟨_, hhusk, (h.husk_ok hp code).1⟩
    · obtain ⟨q', hq', hcase⟩ := ExitReport.entry_of_ne hrep hi hq
      exact ⟨q', by rw [hps, hq'], (h.unwaited_ok hq hcase).1⟩
  have htable : TableOk k' := by
    refine h.update hev (fun {i q'} hq' ↦ ?_) (binding_woken hw) (h.states.woken hw) hsync
      fun ht ↦ h.recorded (hrec ▸ ht)
    by_cases hi : i = pid
    · subst hi
      rw [hhusk] at hq'
      cases hq'
      exact (h.husk_ok hp code).2
    · obtain ⟨q, hq, hcase⟩ := hother hi hq'
      exact (h.unwaited_ok hq hcase).2.1
  have hcur' : k'.sched.current = taskOf pid := hw.current.trans hcur
  refine ⟨?_, hev, by rw [hps, List.length_set, hrep.length, List.length_set], hw⟩
  refine ⟨htable.mark (fun _ ↦ rfl) (htable.states.modify ?_), fun {i t q'} ht hq' hst ↦ ?_⟩
  · rw [hcur', taskOf]
    omega
  · simp only [Scheduler.markExited, List.getElem?_modify] at ht
    obtain ⟨t₀, ht₀, rfl⟩ := Option.map_eq_some_iff.mp ht
    split_ifs at hst with hc
    · exact absurd rfl hst
    · have hi : i ≠ pid := fun he ↦ hc (by rw [hcur', he])
      obtain ⟨q, hq, hcase⟩ := hother hi hq'
      obtain ⟨t₁, ht₁, -, -, hs⟩ := hw.getElem?' ht₀
      rw [(h.unwaited_ok hq hcase).2.2]
      refine h.alive ht₁ hq fun hx ↦ hst ?_
      rcases hs with hs | ⟨hs, -⟩
      · rw [hs, hx]
      · rw [hx] at hs
        cases hs

/-- After the end of the running process something else runs. -/
theorem exit (h : Orderly k) (hcur : k.sched.current = taskOf pid)
    (hp : k.processes[pid]? = some p) {code : Int} (hk : k.teardown pid code = some k') :
    Orderly k'.taskExit ∧ k'.taskExit.Running ∧ k.Evolves k'.taskExit ∧
      k'.taskExit.processes.length = k.processes.length ∧ k.sched.Woken k'.sched := by
  obtain ⟨h₁, hev, hlen, hw⟩ := h.markExited hcur hp hk
  refine ⟨h₁.schedule, h₁.schedule_running fun hrun ↦ ?_, hev.trans (.of_eq ?_ ?_), ?_, hw⟩
  · exact absurd hrun (not_runnable_mark (fun _ hx ↦ by cases hx) _)
  · exact Kernel.schedule_processes _
  · exact Kernel.schedule_kernelTtbr0 _
  · rw [Kernel.taskExit, Kernel.schedule_processes]
    exact hlen

end Orderly
end Jatuli

import Jatuli.Driving
import Jatuli.Trace

/-!
# Which address space is live

What one step does to the live root (`RootChange`): it leaves it alone, it installs that of the
process it switches to, the poller installs the one it has read, or the running process ends and
the kernel's own is left behind.  The results about the live root along whole runs are in the
second half.  None of them needs anything to be known about memory.
-/

set_option autoImplicit false

namespace Jatuli

/-- The entry of process `i` is still there, with its root, and lives on if it did. -/
def Lasts (k k' : Kernel) (i : Nat) : Prop :=
  ∀ p : Process, k.processes[i]? = some p →
    ∃ p', k'.processes[i]? = some p' ∧ p'.ttbr0 = p.ttbr0 ∧ p'.exitCode = p.exitCode

namespace Lasts

variable {k k' k'' : Kernel} {i : Nat}

theorem of_eq (h : k'.processes = k.processes) (i : Nat) : Lasts k k' i := fun _ hp ↦
  ⟨_, by rw [h, hp], rfl, rfl⟩

theorem trans (h : Lasts k k' i) (h' : Lasts k' k'' i) : Lasts k k'' i := by
  intro p hp
  obtain ⟨p', hp', ht, he⟩ := h p hp
  obtain ⟨p'', hp'', ht', he'⟩ := h' p' hp'
  exact ⟨p'', hp'', ht'.trans ht, he'.trans he⟩

theorem served {pid : Nat} (h : Served pid k k') (i : Nat) : Lasts k k' i := by
  intro p hp
  obtain ⟨p', hp', ht⟩ := h.entries hp
  refine ⟨p', hp', ht.evolves.ttbr0, ?_⟩
  rw [ht.rest]

/-- One entry is modified, neither in its root nor in its exit code. -/
theorem modify {f : Process → Process} (ht : ∀ p, (f p).ttbr0 = p.ttbr0)
    (he : ∀ p, (f p).exitCode = p.exitCode) {pid : Nat}
    (hps : k'.processes = k.processes.modify pid f) (i : Nat) : Lasts k k' i := by
  intro p hp
  refine ⟨if pid = i then f p else p, ?_, ?_, ?_⟩
  · rw [hps, List.getElem?_modify, hp]
    rfl
  · split_ifs
    · exact ht p
    · rfl
  · split_ifs
    · exact he p
    · rfl

theorem live (h : Lasts k k' i) {p : Process} (hp : k.processes[i]? = some p)
    (hl : p.live = true) :
    ∃ p', k'.processes[i]? = some p' ∧ p'.ttbr0 = p.ttbr0 ∧ p'.live = true := by
  obtain ⟨p', hp', ht, he⟩ := h p hp
  exact ⟨p', hp', ht, by rw [Process.live, he]; exact hl⟩

end Lasts

section Functions

variable {k k' : Kernel} {pid : Nat} {p : Process}

theorem drain_entry (h : k.drain pid = some k') : ∃ p, k.processes[pid]? = some p := by
  rw [Kernel.drain] at h
  obtain ⟨pa, hpa, -⟩ := Option.bind_eq_some_iff.mp h
  obtain ⟨p, hp, -⟩ := ringPa_eq_some hpa
  exact ⟨p, hp⟩

theorem setupRing_lasts (h : k.setupRing pid = some k') (i : Nat) : Lasts k k' i := by
  obtain ⟨-, -, ⟨-, rfl⟩ | ⟨-, frame, -, -, -, -, rfl⟩⟩ := Kernel.setupRing_cases h
  · exact .of_eq rfl i
  · exact .modify (f := fun p ↦
      { p with ringPa := frame, frames := p.frames ++ [(userRingVa, frame)] })
      (fun _ ↦ rfl) (fun _ ↦ rfl) rfl i

theorem enterSubmit_lasts (ho : Orderly k) (hstaff : Staffed k) (hp : k.processes[pid]? = some p)
    {ringPa : Nat} (h : k.enterSubmit pid ringPa = some k') (i : Nat) : Lasts k k' i := by
  obtain ⟨k₁, hk₁, -, hs, -⟩ := ho.enterSubmit hstaff hp h
  have hps : k₁.processes = k.processes := by rcases hk₁ with rfl | rfl | rfl <;> rfl
  exact (Lasts.of_eq hps i).trans (.served hs i)

theorem pollPending_lasts (ho : Orderly k) (h : k.pollPending = some k') (i : Nat) :
    Lasts k k' i := by
  rcases Kernel.pollPending_cases ho.synced (fun hp _ ↦ (ho.entry hp).root) h with
    rfl | ⟨pid, p, i₁, k₂, completed, i₃, hfg, hp, -, -, hloop, -, rfl⟩
  · exact .of_eq rfl i
  · have hserved := Kernel.pollPendingFrom_served
      (k := { k with installed := i₁, ttbr0 := p.ttbr0 })
      hp hfg hloop
    have h₂ : Lasts k k₂ i := .served hserved i
    refine h₂.trans ?_
    cases completed with
    | false => exact .of_eq rfl i
    | true =>
      exact .modify (f := fun p ↦ { p with ringWaiter := none }) (fun _ ↦ rfl) (fun _ ↦ rfl) rfl i

/-- After a teardown the entry is that of a dead process, and the kernel's space is live. -/
theorem teardown_dead (ho : Orderly k) (hp : k.processes[pid]? = some p) {code : Int}
    (h : k.teardown pid code = some k') :
    k'.ttbr0 = k.kernelTtbr0 ∧ k'.processes[pid]? = some (p.husk code) := by
  have hne := ho.parent_ne hp
  obtain ⟨k₁, msg, hrep, rfl⟩ := Kernel.teardown_cases hp hne h
  have hq := hrep.quiet
  have hkt : k₁.kernelTtbr0 = k.kernelTtbr0 := hq.kernelTtbr0
  refine ⟨?_, ?_⟩
  · rw [← hkt]
    refine Kernel.activate_ttbr0 ?_ (by rw [hkt]; exact ho.kernelRoot)
    exact ho.synced.imp (hq.installed.trans ·) fun he ↦ (hq.installed.trans he).trans hq.ttbr0.symm
  · rw [Kernel.kprintln_processes, Kernel.activate_processes]
    exact ExitReport.getElem?_husk hp hne hrep

end Functions

/-! ## One step -/

/-- What becomes of the live root in a step. -/
inductive RootChange (m : Machine) (a : Act) (m' : Machine) : Prop
  | kept (hlast : ∀ i, Lasts m.k m'.k i) (ht : m'.k.ttbr0 = m.k.ttbr0)
      (hc : m'.k.sched.currentProcess = m.k.sched.currentProcess ∨
        m'.k.sched.currentProcess = none)
  /-- A process is switched to. -/
  | switched {pid : Nat} {p : Process} (hp : m'.k.processes[pid]? = some p) (hl : p.live = true)
      (ht : m'.k.ttbr0 = p.ttbr0) (hc : m'.k.sched.currentProcess = some pid)
  /-- The poller installs a space. -/
  | activated {n i root : Nat} (hat : m.atPoller) (ha : a = .run)
      (hpc : m.poller.pc = .scanActivate n i root) (hpc' : m'.poller.pc = .scanDrain n i)
      (hk : m'.k = m.k.activate root) (ht : m'.k.ttbr0 = root)
  /-- The running process ends, and no process runs next. -/
  | left {pid : Nat} {p : Process} {code : Int} (hu : AtUser m.k pid p)
      (hp : m'.k.processes[pid]? = some (p.husk code)) (ht : m'.k.ttbr0 = m'.k.kernelTtbr0)
      (hc : m'.k.sched.currentProcess = none)

/-- A scheduler call: no process runs next, or a live one in its space. -/
theorem Orderly.schedule_root {k : Kernel} (h : Orderly k)
    (hcur : k.sched.runnable k.sched.current = true → k.LiveFor k.sched.current) :
    (k.schedule.ttbr0 = k.ttbr0 ∧ k.schedule.sched.currentProcess = none) ∨
      ∃ pid p, k.schedule.processes[pid]? = some p ∧ p.live = true ∧
        k.schedule.ttbr0 = p.ttbr0 ∧ k.schedule.sched.currentProcess = some pid := by
  rcases h.toTableOk.schedule_root hcur with hnone | ⟨pid, p, t, ht, hst, hp, hroot, hproc⟩
  · exact .inl hnone
  · refine .inr ⟨pid, p, by rw [Kernel.schedule_processes, hp], ?_, hroot, hproc⟩
    exact h.alive ht hp (hst ▸ nofun)

namespace RootChange

variable {m m' : Machine} {a : Act} {k k₁ : Kernel}

/-- A step that ends with a scheduler call. -/
theorem of_schedule (h : Orderly k₁)
    (hcur : k₁.sched.runnable k₁.sched.current = true → k₁.LiveFor k₁.sched.current)
    (hk : m'.k = k₁.schedule) (hlast : ∀ i, Lasts m.k k₁ i) (ht : k₁.ttbr0 = m.k.ttbr0) :
    RootChange m a m' := by
  rcases h.schedule_root hcur with ⟨hroot, hproc⟩ | ⟨pid, p, hp, hl, hroot, hproc⟩
  · refine .kept (fun i ↦ (hlast i).trans (.of_eq ?_ i)) ?_ (.inr ?_)
    · rw [hk, Kernel.schedule_processes]
    · rw [hk, hroot, ht]
    · rw [hk, hproc]
  · rw [← hk] at hp hroot hproc
    exact .switched hp hl hroot hproc

/-- The running task blocks. -/
theorem of_block (h : Orderly k₁) (hrun : k₁.Running) (hc : pollerTask ≤ k₁.sched.current)
    (hk : m'.k = k₁.blockCurrent) (hlast : ∀ i, Lasts m.k k₁ i) (ht : k₁.ttbr0 = m.k.ttbr0) :
    RootChange m a m' :=
  of_schedule (h.markBlocked hrun hc)
    (fun hr ↦ absurd hr (Orderly.not_runnable_mark (fun _ hx ↦ by cases hx) _)) hk hlast ht

/-- Tasks are woken at most. -/
theorem of_woken (hlast : ∀ i, Lasts m.k m'.k i) (ht : m'.k.ttbr0 = m.k.ttbr0)
    (hproc : m'.k.sched.currentProcess = m.k.sched.currentProcess) : RootChange m a m' :=
  .kept hlast ht (.inl hproc)

theorem of_same (hps : m'.k.processes = m.k.processes) (ht : m'.k.ttbr0 = m.k.ttbr0)
    (hs : m'.k.sched = m.k.sched) : RootChange m a m' :=
  .kept (fun i ↦ .of_eq hps i) ht (.inl (by rw [hs]))

/-- The poller's step. -/
theorem of_poller {k' : Kernel} {l' : Poller} (h : Ctl m) (hcur : m.atPoller)
    (hmove : PollerMove m.k m.poller k' l') :
    RootChange m .run { m with k := k', poller := l' } := by
  have ho := h.orderly
  cases hmove with
  | scanActivate hpc =>
    have hok := h.poller
    rw [hpc] at hok
    obtain ⟨p, hp, rfl⟩ := hok
    exact .activated hcur rfl hpc rfl rfl (Kernel.activate_ttbr0 ho.synced (ho.entry hp).root)
  | @scanDrain n i k' hpc hd =>
    obtain ⟨p, hp⟩ := drain_entry hd
    have hs := Kernel.drain_served hp hd
    refine .of_woken (.served hs) hs.ttbr0 ?_
    obtain ⟨t, ht, -⟩ := Scheduler.runnable_iff.mp h.running.runnable
    exact hs.recruited.currentProcess ht
  | worked hpc hk =>
    rcases hk with rfl | rfl
    · exact .of_same rfl rfl rfl
    · exact .of_same rfl rfl rfl
  | flagsStore hpc => exact .of_same rfl rfl rfl
  | block hpc => exact .of_block ho h.running (hcur ▸ le_rfl) rfl (fun i ↦ .of_eq rfl i) rfl
  | yield hpc => exact .of_schedule ho (fun _ ↦ h.running.space) rfl (fun i ↦ .of_eq rfl i) rfl
  | _ => exact .of_same rfl rfl rfl

/-- `enter`, from the test of its loop on. -/
theorem of_enterWait {pid ringPa minComplete : Nat} {p : Process} {k' : Kernel}
    (ho : Orderly k') (hrun : k'.Running) (hu : AtUser k' pid p)
    (hlast : ∀ i, Lasts m.k k' i) (ht : k'.ttbr0 = m.k.ttbr0)
    (hproc : k'.sched.currentProcess = m.k.sched.currentProcess) :
    RootChange m a ({ m with k := k' }.enterWait pid ringPa minComplete) := by
  rcases enterWait_cases (m := { m with k := k' }) hu ringPa minComplete with ⟨-, he⟩ | ⟨-, he⟩
  · rw [he]
    exact .of_woken hlast ht hproc
  · rw [he]
    obtain ⟨ho₁, hev₁⟩ := ho.setWaiter hu.entry
    have hrun₁ : Kernel.Running
        { k' with processes := Processes.setWaiter k'.processes pid (taskOf pid) } :=
      ⟨hrun.runnable, hrun.space⟩
    refine .of_block ho₁ hrun₁ (hu.current ▸ taskOf_ge pid) rfl (fun i ↦ (hlast i).trans ?_) ht
    exact .modify (f := fun p ↦ { p with ringWaiter := some (taskOf pid) }) (fun _ ↦ rfl)
      (fun _ ↦ rfl) rfl i

/-- The end of a process. -/
theorem of_exit {pid : Nat} {p : Process} {code : Int} {report : String} {k' : Kernel} (h : Ctl m)
    (hu : AtUser m.k pid p) (ht : (m.k.kprintln report).teardown pid code = some k') :
    RootChange m a { m.userGoto .gone with k := k'.taskExit } := by
  have ho : Orderly (m.k.kprintln report) := h.orderly.kprintln report
  obtain ⟨ho₁, hev, -⟩ := ho.markExited hu.current hu.entry ht
  obtain ⟨hroot, hhusk⟩ := teardown_dead ho hu.entry ht
  rcases ho₁.schedule_root
      (fun hr ↦ absurd hr (Orderly.not_runnable_mark (fun _ hx ↦ by cases hx) _)) with
    ⟨hroot', hproc⟩ | ⟨j, q, hq, hl, hroot', hproc⟩
  · have hdead : k'.taskExit.processes[pid]? = some (p.husk code) :=
      (congrArg (·[pid]?) (Kernel.schedule_processes _)).trans hhusk
    have hkt : k'.taskExit.kernelTtbr0 = m.k.kernelTtbr0 :=
      (Kernel.schedule_kernelTtbr0 _).trans hev.kernelTtbr0
    exact .left hu hdead ((hroot'.trans hroot).trans hkt.symm) hproc
  · exact .switched hq hl hroot' hproc

/-- **What a step does to the live root.** -/
theorem of_move (h : Ctl m) (hm : Move m a m') : RootChange m a m' := by
  have ho := h.orderly
  have hrun := h.running
  cases hm with
  | @create image root s₁ s₂ loaded frames hcur hpc himage hroot hspace =>
    refine .of_woken (fun i p hp ↦ ⟨p, ?_, rfl, rfl⟩) rfl rfl
    exact (List.getElem?_append_left (List.getElem?_eq_some_iff.mp hp).1).trans hp
  | foreground hcur hpc =>
    exact .of_woken (fun i ↦ .modify (f := fun p ↦ { p with foreground := true }) (fun _ ↦ rfl)
      (fun _ ↦ rfl) rfl i) rfl rfl
  | @spawnJsh p0 p hcur hpc hp =>
    refine .of_woken (fun i ↦ .of_eq rfl i) rfl ?_
    obtain ⟨t, ht, -⟩ := Scheduler.runnable_iff.mp hrun.runnable
    rw [Scheduler.currentProcess, Scheduler.currentProcess, Scheduler.currentTask,
      Scheduler.currentTask]
    exact congrArg (Option.bind · _) (List.getElem?_append_left (List.getElem?_eq_some_iff.mp ht).1)
  | idle hcur hpc => exact .of_schedule ho (fun _ ↦ hrun.space) rfl (fun i ↦ .of_eq rfl i) rfl
  | poller hcur hmove => exact of_poller h hcur hmove
  | start hu hpc => exact .of_same rfl rfl rfl
  | retest hu hpc => exact of_enterWait ho hrun hu (fun i ↦ .of_eq rfl i) rfl rfl
  | store hu hpc hs =>
    obtain ⟨pa, rfl⟩ := Machine.userStore_cases hs
    exact .of_same rfl rfl rfl
  | setup hu hpc hs =>
    obtain ⟨-, -, hsched, hroot, -⟩ := ho.setupRing hu.entry hu.live hs
    exact .of_woken (setupRing_lasts hs) hroot (by rw [hsched])
  | enterNothing hu hpc hring => exact .of_same rfl rfl rfl
  | @enter pid minComplete p k' hu hpc hring hs =>
    obtain ⟨hp, p', hu', ht⟩ := Proceeds.enterSubmit ho hrun (h.idle hu).2 hu hs
    refine of_enterWait hp.orderly hp.running hu'
      (enterSubmit_lasts ho (h.idle hu).2 hu.entry hs) ?_ (hu'.process.trans hu.process.symm)
    rw [hu'.root, hu.root, ht.evolves.ttbr0]
  | exit hact hu hpc ht => exact of_exit h hu ht
  | tick hmask =>
    have hw := m.k.sched.wakeSleepers_woken ((m.k.ticks + 1) % 2 ^ 64)
    have h₁ : Orderly { m.k with
        ticks := (m.k.ticks + 1) % 2 ^ 64
        sched := m.k.sched.wakeSleepers ((m.k.ticks + 1) % 2 ^ 64) } :=
      ho.of_woken rfl hw ho.synced ho.recorded rfl
    refine .of_schedule h₁ (fun _ ↦ ?_) rfl (fun i ↦ .of_eq rfl i) rfl
    exact Kernel.Running.space (hrun.of_woken hw rfl)
  | @uart bytes k' hmask hs =>
    obtain ⟨⟨input, uart⟩, -, rfl | ⟨-, hstaff, hs⟩⟩ := h.uart_cases hs
    · exact .of_same rfl rfl rfl
    · have ho₁ : Orderly { m.k with input, uart } := ho.quiet (input_quiet m.k input uart)
      obtain ⟨-, -, -, hw, ht⟩ := ho₁.pollPending hstaff hs
      have hlast : ∀ i, Lasts { m.k with input, uart } k' i := pollPending_lasts ho₁ hs
      exact .of_woken hlast ht hw.currentProcess

end RootChange

/-! ## `INSTALLED` -/

/-- A step after which nothing has been activated yet has not touched the live root. -/
def Installs (k k' : Kernel) : Prop :=
  k'.installed = 0 → k.installed = 0 ∧ k'.ttbr0 = k.ttbr0

theorem Installs.of_eq {k k' : Kernel} (hi : k'.installed = k.installed)
    (ht : k'.ttbr0 = k.ttbr0) : Installs k k' := fun hz ↦ ⟨hi ▸ hz, ht⟩

theorem Installs.trans {k k' k'' : Kernel} (h : Installs k k') (h' : Installs k' k'') :
    Installs k k'' := fun hz ↦
  have hz' := h' hz
  ⟨(h hz'.1).1, hz'.2.trans (h hz'.1).2⟩

theorem Installs.activate (k : Kernel) {root : Nat} (hr : root ≠ 0) :
    Installs k (k.activate root) := fun hz ↦
  absurd ((k.activate_installed root).symm.trans hz) hr

theorem Installs.schedule {k : Kernel} (h : TableOk k) : Installs k k.schedule := by
  rw [Kernel.schedule]
  split_ifs with hsame
  · exact .of_eq rfl rfl
  · split
    · rename_i r hr
      obtain ⟨t, ht, hr⟩ := Option.bind_eq_some_iff.mp hr
      obtain ⟨pid, p, -, -, hp, rfl⟩ := h.of_ttbr0 ht hr
      exact .activate { k with sched := { k.sched with current := k.sched.next } } (h.entry hp).root
    · exact .of_eq rfl rfl

theorem Installs.setupRing {k k' : Kernel} {pid : Nat} (h : k.setupRing pid = some k') :
    k'.installed = k.installed ∧ k'.ttbr0 = k.ttbr0 ∧
      k'.processes.length = k.processes.length := by
  obtain ⟨-, -, ⟨-, rfl⟩ | ⟨-, -, -, -, -, -, rfl⟩⟩ := Kernel.setupRing_cases h
  · exact ⟨rfl, rfl, rfl⟩
  · exact ⟨rfl, rfl, List.length_modify ..⟩

/-- **`INSTALLED` is never reset.** -/
theorem Installs.of_move {m m' : Machine} {a : Act} (h : Ctl m) (hz : m.k.ttbr0 ≠ 0)
    (hm : Move m a m') : Installs m.k m'.k := by
  have ho := h.orderly
  have hblock : ∀ {k : Kernel}, Orderly k → k.Running → pollerTask ≤ k.sched.current →
      Installs k k.blockCurrent := by
    intro k ho hrun hc
    have h₁ : Installs k { k with sched := k.sched.markBlocked } := .of_eq rfl rfl
    exact h₁.trans (.schedule (ho.markBlocked hrun hc).toTableOk)
  have hwait : ∀ {k : Kernel} {pid ringPa minComplete : Nat} {p : Process}, Orderly k →
      k.Running → AtUser k pid p →
      Installs k ({ m with k := k }.enterWait pid ringPa minComplete).k := by
    intro k pid ringPa minComplete p ho hrun hu
    rcases enterWait_cases (m := { m with k := k }) hu ringPa minComplete with
      ⟨-, he⟩ | ⟨-, he⟩
    · rw [he]
      exact .of_eq rfl rfl
    · rw [he]
      have h₁ : Installs k
          { k with processes := Processes.setWaiter k.processes pid (taskOf pid) } := .of_eq rfl rfl
      refine h₁.trans (hblock (ho.setWaiter hu.entry).1 ⟨hrun.runnable, hrun.space⟩ ?_)
      exact hu.current ▸ taskOf_ge pid
  cases hm with
  | create hcur hpc himage hroot hspace => exact .of_eq rfl rfl
  | foreground hcur hpc => exact .of_eq rfl rfl
  | spawnJsh hcur hpc hp => exact .of_eq rfl rfl
  | idle hcur hpc => exact .schedule ho.toTableOk
  | poller hcur hmove =>
    cases hmove with
    | scanActivate hpc =>
      have hok := h.poller
      rw [hpc] at hok
      obtain ⟨p, hp, rfl⟩ := hok
      exact .activate m.k (ho.entry hp).root
    | scanDrain hpc hd =>
      obtain ⟨p, hp⟩ := drain_entry hd
      have hs := Kernel.drain_served hp hd
      exact .of_eq hs.installed hs.ttbr0
    | worked hpc hk =>
      rcases hk with rfl | rfl
      · exact .of_eq rfl rfl
      · exact .of_eq rfl rfl
    | block hpc => exact hblock ho h.running (hcur ▸ le_rfl)
    | yield hpc => exact .schedule ho.toTableOk
    | _ => exact .of_eq rfl rfl
  | start hu hpc => exact .of_eq rfl rfl
  | retest hu hpc => exact hwait ho h.running hu
  | store hu hpc hs =>
    obtain ⟨pa, rfl⟩ := Machine.userStore_cases hs
    exact .of_eq rfl rfl
  | setup hu hpc hs => exact .of_eq (Installs.setupRing hs).1 (Installs.setupRing hs).2.1
  | enterNothing hu hpc hring => exact .of_eq rfl rfl
  | @enter pid minComplete p k' hu hpc hring hs =>
    obtain ⟨hp, p', hu', -⟩ := Proceeds.enterSubmit ho h.running (h.idle hu).2 hu hs
    obtain ⟨k₁, hk₁, -, hserved, -⟩ := ho.enterSubmit (h.idle hu).2 hu.entry hs
    have h₁ : Installs m.k k₁ := by rcases hk₁ with rfl | rfl | rfl <;> exact .of_eq rfl rfl
    exact (h₁.trans (.of_eq hserved.installed hserved.ttbr0)).trans
      (hwait hp.orderly hp.running hu')
  | @exit u pid code p report k' hact hu hpc ht =>
    obtain ⟨ho₁, -⟩ := (ho.kprintln report).markExited hu.current hu.entry ht
    have hne := ho.parent_ne hu.entry
    obtain ⟨k₁, msg, hrep, rfl⟩ := Kernel.teardown_cases (hu.kprintln report).entry hne ht
    have hkt : k₁.kernelTtbr0 ≠ 0 := by
      rw [show k₁.kernelTtbr0 = _ from hrep.quiet.kernelTtbr0]
      exact ho.kernelRoot
    intro hi
    have hi₁ := (Installs.schedule ho₁.toTableOk hi).1
    exact absurd ((Kernel.activate_installed _ _).symm.trans hi₁) hkt
  | tick hmask =>
    have hw := m.k.sched.wakeSleepers_woken ((m.k.ticks + 1) % 2 ^ 64)
    have h₁ : Orderly { m.k with
        ticks := (m.k.ticks + 1) % 2 ^ 64
        sched := m.k.sched.wakeSleepers ((m.k.ticks + 1) % 2 ^ 64) } :=
      ho.of_woken rfl hw ho.synced ho.recorded rfl
    exact Installs.schedule h₁.toTableOk
  | uart hmask hs =>
    obtain ⟨⟨input, uart⟩, -, rfl | ⟨-, hstaff, hs⟩⟩ := h.uart_cases hs
    · exact .of_eq rfl rfl
    · have ho₁ : Orderly { m.k with input, uart } := ho.quiet (input_quiet m.k input uart)
      rcases Kernel.pollPending_cases ho₁.synced (fun hp _ ↦ (ho₁.entry hp).root) hs with
        rfl | ⟨pid, p, i₁, k₂, completed, i₃, hfg, hp, -, -, -, hi₃, rfl⟩
      · exact .of_eq rfl rfl
      · intro hi
        rcases hi₃ with he | he
        · exact ⟨he.symm.trans hi, rfl⟩
        · exact absurd (he.symm.trans hi) hz

/-- As long as nothing has been activated the kernel's own root is live. -/
def Booted (k : Kernel) : Prop := k.installed = 0 → k.ttbr0 = k.kernelTtbr0

theorem Booted.ttbr0_ne_zero {k : Kernel} (h : Booted k) (ho : Orderly k) : k.ttbr0 ≠ 0 := by
  by_cases hi : k.installed = 0
  · rw [h hi]
    exact ho.kernelRoot
  · rcases ho.synced with hz | he
    · exact absurd hz hi
    · rwa [← he]

theorem booted_of_reach {programs : List (String × List UInt8)} {ok : Machine → Act → Prop}
    {m : Machine} (h : (machine programs).Reach ok m) : Booted m.k := by
  refine reach_invariant (I := fun m ↦ Booted m.k) (fun k hk _ ↦ hk.root)
    (fun m a m' hctl _ hI _ hm ↦ ?_) h
  intro hi
  obtain ⟨hi₀, ht⟩ := Installs.of_move hctl (hI.ttbr0_ne_zero hctl.orderly) hm hi
  rw [ht, hI hi₀, (hctl.evolves hm).kernelTtbr0]

/-! ## The kernel's own code runs in the space of the process it works for -/

/-- The states inside a system call of process `pid` that was entered in `k`, up to the point where
`teardown` leaves its space: whatever of the kernel's operations on behalf of `pid` have been
carried out so far. -/
inductive InSyscall (pid : Nat) (k : Kernel) : Kernel → Prop
  | entered : InSyscall pid k k
  | setup {k₁ k₂ : Kernel} (h : InSyscall pid k k₁) (hs : k₁.setupRing pid = some k₂) :
      InSyscall pid k k₂
  /-- A store to a ring header: the flags, or the head `drain` has come to. -/
  | ringStore {k₁ : Kernel} (h : InSyscall pid k k₁) (ringPa off n v : Nat) :
      InSyscall pid k (k₁.ringStore ringPa off n v)
  | wake {k₁ : Kernel} (h : InSyscall pid k k₁) (t : Nat) : InSyscall pid k (k₁.wake t)
  | sqe {k₁ k₂ : Kernel} {addr : Nat} (h : InSyscall pid k k₁)
      (hs : k₁.processSqe pid addr = some k₂) : InSyscall pid k k₂
  | setWaiter {k₁ : Kernel} (h : InSyscall pid k k₁) (t : Nat) :
      InSyscall pid k { k₁ with processes := Processes.setWaiter k₁.processes pid t }
  | abortUser {k₁ : Kernel} (h : InSyscall pid k k₁) : InSyscall pid k (k₁.abortUser pid)
  | notifyExit {k₁ k₂ : Kernel} {code : Int} (h : InSyscall pid k k₁)
      (hs : k₁.notifyExit pid code = some k₂) : InSyscall pid k k₂
  | takeFrames {k₁ : Kernel} (h : InSyscall pid k k₁) :
      InSyscall pid k { k₁ with processes := (Processes.takeFrames k₁.processes pid).2 }
  /-- One round of the loop over the frames: the page is unmapped through the live root. -/
  | unmap {k₁ : Kernel} (h : InSyscall pid k k₁) (va frame : Nat) :
      InSyscall pid k { k₁ with phys := Kernel.reclaim k₁.ttbr0 [(va, frame)] k₁.phys }

namespace InSyscall

variable {pid : Nat} {k k' k'' : Kernel}

theorem trans (h : InSyscall pid k k') (h' : InSyscall pid k' k'') : InSyscall pid k k'' := by
  induction h' with
  | entered => exact h
  | setup _ hs ih => exact ih.setup hs
  | ringStore _ ringPa off n v ih => exact ih.ringStore ringPa off n v
  | wake _ t ih => exact ih.wake t
  | sqe _ hs ih => exact ih.sqe hs
  | setWaiter _ t ih => exact ih.setWaiter t
  | abortUser _ ih => exact ih.abortUser
  | notifyExit _ hs ih => exact ih.notifyExit hs
  | takeFrames _ ih => exact ih.takeFrames
  | unmap _ va frame ih => exact ih.unmap va frame

/-- `drain` goes through such states only. -/
theorem drainFrom {ringPa : Nat} {tail : BitVec 32} {n : Nat} {head : BitVec 32}
    (h : InSyscall pid k k') (hd : Kernel.drainFrom pid ringPa tail n k' head = some k'') :
    InSyscall pid k k'' := by
  induction n generalizing k' head with
  | zero =>
    cases hd
    exact h
  | succ n ih =>
    rw [Kernel.drainFrom] at hd
    split_ifs at hd
    · cases hd
      exact h
    · obtain ⟨k₁, hk₁, hd⟩ := Option.bind_eq_some_iff.mp hd
      exact ih ((h.sqe hk₁).ringStore ..) hd

theorem drain (h : InSyscall pid k k') (hd : k'.drain pid = some k'') : InSyscall pid k k'' := by
  rw [Kernel.drain] at hd
  obtain ⟨pa, -, hd⟩ := Option.bind_eq_some_iff.mp hd
  split_ifs at hd
  · cases hd
    exact h
  · exact h.drainFrom hd

/-- So does the first half of `enter`. -/
theorem enterSubmit {ringPa : Nat} (hs : k.enterSubmit pid ringPa = some k') :
    InSyscall pid k k' := by
  rw [Kernel.enterSubmit] at hs
  split_ifs at hs
  · simp only at hs
    split at hs
    · exact ((entered.ringStore ..).wake _).drain hs
    · exact (entered.ringStore ..).drain hs
  · exact entered.drain hs

/-- The loop over the frames of a dying process. -/
theorem reclaim (h : InSyscall pid k k') (owned : List (Nat × Nat)) :
    InSyscall pid k { k' with phys := Kernel.reclaim k'.ttbr0 owned k'.phys } := by
  induction owned generalizing k' with
  | nil => exact h
  | cons page owned ih =>
    obtain ⟨va, frame⟩ := page
    exact ih (h.unmap va frame)

/-- And `teardown`, up to where it leaves the space. -/
theorem teardown {code : Int} (hs : k.teardown pid code = some k') :
    ∃ (k₁ : Kernel) (deadTtbr0 : Nat) (owned : List (Nat × Nat)), InSyscall pid k k₁ ∧
      Processes.ttbr0 k₁.processes pid = some deadTtbr0 ∧
      let k₂ := k₁.activate k₁.kernelTtbr0
      k' = { k₂ with
        phys := freeAddressSpace k₂.phys deadTtbr0
        processes := Processes.markExited k₂.processes pid }.kprintln
          ("[user] freed " ++ toString owned.length ++ " frames") := by
  rw [Kernel.teardown] at hs
  obtain ⟨k₁, hk₁, hs⟩ := Option.bind_eq_some_iff.mp hs
  obtain ⟨dead, hdead, hs⟩ := Option.bind_eq_some_iff.mp hs
  cases hs
  have h₁ : InSyscall pid k k₁ := entered.abortUser.notifyExit hk₁
  refine ⟨_, dead, _, h₁.takeFrames.reclaim (Processes.takeFrames k₁.processes pid).1, ?_, rfl⟩
  obtain ⟨p, hp, rfl⟩ := Option.map_eq_some_iff.mp hdead
  show Option.map _ (List.modify ..)[pid]? = _
  rw [List.getElem?_modify_eq, hp]
  rfl

/-- Throughout, the root stays. -/
theorem root {p : Process} (hp : k.processes[pid]? = some p) (h : InSyscall pid k k') :
    k'.ttbr0 = k.ttbr0 ∧ k'.installed = k.installed ∧
      ∃ p', k'.processes[pid]? = some p' ∧ p'.ttbr0 = p.ttbr0 := by
  have hmod : ∀ {ps : List Process} {p' : Process} (f : Process → Process),
      (∀ p, (f p).ttbr0 = p.ttbr0) → ps[pid]? = some p' → p'.ttbr0 = p.ttbr0 →
      ∃ p'', (ps.modify pid f)[pid]? = some p'' ∧ p''.ttbr0 = p.ttbr0 := by
    intro ps p' f hf hp' ht
    exact ⟨f p', by rw [List.getElem?_modify_eq, hp']; rfl, (hf p').trans ht⟩
  induction h with
  | entered => exact ⟨rfl, rfl, p, hp, rfl⟩
  | setup _ hs ih =>
    obtain ⟨hroot, hi, p', hp', ht⟩ := ih
    obtain ⟨hi', hroot', -⟩ := Installs.setupRing hs
    obtain ⟨p'', hp'', ht', -⟩ := setupRing_lasts hs pid p' hp'
    exact ⟨hroot'.trans hroot, hi'.trans hi, p'', hp'', ht'.trans ht⟩
  | ringStore _ ringPa off n v ih => exact ih
  | wake _ t ih => exact ih
  | sqe _ hs ih =>
    obtain ⟨hroot, hi, p', hp', ht⟩ := ih
    have hserved := Kernel.processSqe_served hp' hs
    obtain ⟨p'', hp'', ht', -⟩ := Lasts.served hserved pid p' hp'
    exact ⟨hserved.ttbr0.trans hroot, hserved.installed.trans hi, p'', hp'', ht'.trans ht⟩
  | setWaiter _ t ih =>
    obtain ⟨hroot, hi, p', hp', ht⟩ := ih
    exact ⟨hroot, hi, hmod _ (fun _ ↦ rfl) hp' ht⟩
  | abortUser _ ih =>
    obtain ⟨hroot, hi, p', hp', ht⟩ := ih
    exact ⟨hroot, hi, hmod _ (fun _ ↦ rfl) hp' ht⟩
  | notifyExit _ hs ih =>
    obtain ⟨hroot, hi, p', hp', ht⟩ := ih
    have hrep := Kernel.notifyExit_report hp' hs
    have hq := hrep.quiet
    refine ⟨hq.ttbr0.trans hroot, hq.installed.trans hi, ?_⟩
    have hmap := hrep.map_eq Process.ttbr0 (fun _ ↦ rfl) pid
    rw [List.getElem?_set_self (List.getElem?_eq_some_iff.mp hp').1, Option.map_some] at hmap
    obtain ⟨p'', hp'', ht'⟩ := Option.map_eq_some_iff.mp hmap
    exact ⟨p'', hp'', ht'.trans ht⟩
  | takeFrames _ ih =>
    obtain ⟨hroot, hi, p', hp', ht⟩ := ih
    exact ⟨hroot, hi, hmod _ (fun _ ↦ rfl) hp' ht⟩
  | unmap _ va frame ih => exact ih

end InSyscall

/-- **A process runs in its own space**, user code as well as the kernel's on its behalf, down to
the loop in which `teardown` unmaps its pages; and `INSTALLED` is the live root from the first
activation on.  There is no record of activations: before the first one `INSTALLED` is `0`, which no
root is, and the live root is the kernel's, as boot has left it. -/
theorem user_in_own_space {programs : List (String × List UInt8)} {m : Machine}
    (h : (machine programs).Reach System.Free m) :
    (m.k.installed = m.k.ttbr0 ∨ m.k.installed = 0 ∧ m.k.ttbr0 = m.k.kernelTtbr0) ∧
    ∀ pid, m.k.sched.currentProcess = some pid → ∀ k, InSyscall pid m.k k →
      Processes.ttbr0 k.processes pid = some k.ttbr0 ∧ k.ttbr0 = m.k.ttbr0 ∧
        k.installed = m.k.installed := by
  have hctl := ctl_of_reach h
  refine ⟨?_, fun pid hproc k hk ↦ ?_⟩
  · rcases hctl.orderly.synced with hz | he
    · exact .inr ⟨hz, booted_of_reach h hz⟩
    · exact .inl he
  · obtain ⟨p, hu⟩ := hctl.atUser hproc
    obtain ⟨hroot, hi, p', hp', ht⟩ := hk.root hu.entry
    refine ⟨?_, hroot, hi⟩
    rw [Processes.ttbr0, hp', Option.map_some, ht, hroot, hu.root]

theorem user_in_own_space_shell : ∃ m, (machine shellOnly).Reach System.Free m ∧
    m.k.sched.currentProcess = some 0 ∧ m.user (taskOf 0) = .el0 ∧
    Processes.ttbr0 m.k.processes 0 = some m.k.ttbr0 := by
  obtain ⟨m, p, h, hel0, -⟩ := exists_ringed System.Free fun _ _ _ _ ↦ trivial
  have hproc := (h.atUser rfl).process
  exact ⟨m, h.reach, hproc, hel0, ((user_in_own_space h.reach).2 0 hproc m.k .entered).1⟩

/-! ## No freed space is live -/

/-- The live root is the kernel's or that of a process that has not been torn down. -/
def RootLive (k : Kernel) : Prop :=
  k.ttbr0 = k.kernelTtbr0 ∨
    ∃ (i : Nat) (p : Process), k.processes[i]? = some p ∧ p.live = true ∧ k.ttbr0 = p.ttbr0

/-- When the poller installs the space of the process it has come to, that process still lives. -/
def ScannedLives (m : Machine) (a : Act) : Prop :=
  ∀ n i root, m.poller.pc = .scanActivate n i root → m.atPoller → a = .run →
    ∃ p, m.k.processes[i]? = some p ∧ p.live = true

theorem RootLive.of_change {m m' : Machine} {a : Act} (hctl : Ctl m) (hm : Move m a m')
    (h : RootLive m.k) (hok : ScannedLives m a) : RootLive m'.k := by
  have hkt := (hctl.evolves hm).kernelTtbr0
  cases RootChange.of_move hctl hm with
  | kept hlast ht hc =>
    rcases h with hk | ⟨i, p, hp, hl, hroot⟩
    · exact .inl (by rw [ht, hk, hkt])
    · obtain ⟨p', hp', ht', hl'⟩ := (hlast i).live hp hl
      exact .inr ⟨i, p', hp', hl', by rw [ht, hroot, ht']⟩
  | switched hp hl ht hc => exact .inr ⟨_, _, hp, hl, ht⟩
  | @activated n i root hat ha hpc hpc' hk ht =>
    obtain ⟨p, hp, hl⟩ := hok n i root hpc hat ha
    have hpoll := hctl.poller
    rw [hpc] at hpoll
    obtain ⟨q, hq, rfl⟩ := hpoll
    rw [hp] at hq
    cases hq
    exact .inr ⟨i, p, by rw [hk, Kernel.activate_processes, hp], hl, ht⟩
  | left hu hp ht hc => exact .inl ht

/-- **The live root is never that of a torn down process** in a run in which the poller never
installs the space of a process that has ended since it was scanned. -/
theorem live_root_not_freed {programs : List (String × List UInt8)} {m : Machine}
    (h : (machine programs).Reach ScannedLives m) : RootLive m.k :=
  reach_invariant (I := fun m ↦ RootLive m.k) (fun _ hk ↦ .inl hk.root)
    (fun _ _ _ hctl _ hI hok hm ↦ hI.of_change hctl hm hok) h

/-- The poller installs the space of the shell, which runs. -/
theorem live_root_not_freed_shell : ∃ m p, (machine shellOnly).Reach ScannedLives m ∧
    m.k.processes = [p] ∧ m.poller.pc = .scanDrain 1 0 ∧ m.k.ttbr0 = p.ttbr0 ∧ RootLive m.k := by
  obtain ⟨m, p, h, -, hpc, -, hl, -⟩ := exists_found (fun m _ ↦ AllLive m) fun _ _ h ↦ h
  have hp : m.k.processes[0]? = some p := by rw [h.processes]; rfl
  have hcur : m.atPoller := by rw [Machine.atPoller, h.sched]
  -- the process whose root the poller has read is there, and it lives
  have hscan : ∀ m a, Ctl m → AllLive m → ScannedLives m a := by
    intro m a hctl hlive n i root hpc _ _
    have hpoll := hctl.poller
    rw [hpc] at hpoll
    obtain ⟨q, hq, -⟩ := hpoll
    exact ⟨q, hq, hlive q (List.mem_of_getElem? hq)⟩
  have hreach := h.reach.mono_of (J := Ctl) (fun _ hs ↦ ctl_of_reach hs) hscan
  have hstep : m.step .run = some { m with
      k := m.k.activate p.ttbr0, poller := { m.poller with pc := .scanDrain 1 0 } } := by
    rw [Machine.step_poller hcur, Machine.pollerStep, hpc]
    rfl
  have hreach' := reach_next .run hreach (hscan m _ h.ctl (h.allLive hl)) hstep
  refine ⟨_, p, hreach', ?_, rfl, ?_, live_root_not_freed hreach'⟩
  · exact (Kernel.activate_processes ..).trans h.processes
  · exact Kernel.activate_ttbr0 h.ctl.orderly.synced (h.ctl.orderly.entry hp).root

/-- **A freed space becomes live.**  The poller reads the root of the shell, which then gets its
turn and exits; when the poller goes on it installs the root that has been given back. -/
theorem freed_root_installed : ∃ m, (machine shellOnly).Reach System.Free m ∧ ¬ RootLive m.k := by
  obtain ⟨m, p, h, hel0, hpc, -, hl, -, hpar, -⟩ :=
    exists_found System.Free fun _ _ _ ↦ trivial
  obtain ⟨m', hreach, hcur, hpoll, hps, hkt, -⟩ := h.ends hel0 hpar 0
  have hctl := ctl_of_reach hreach
  have hstep : m'.step .run = some { m' with
      k := m'.k.activate p.ttbr0, poller := { m'.poller with pc := .scanDrain 1 0 } } := by
    have hpc' : m'.poller.pc = .scanActivate 1 0 p.ttbr0 := by rw [hpoll, hpc]
    rw [Machine.step_poller hcur, Machine.pollerStep, hpc']
    rfl
  refine ⟨_, reach_next .run hreach trivial hstep, ?_⟩
  have hp : m.k.processes[0]? = some p := by rw [h.processes]; rfl
  obtain ⟨L, own, hinv⟩ := h.inv
  have hne : p.ttbr0 ≠ m.k.kernelTtbr0 := by
    intro he
    have hroots := hinv.roots_inj (Inv.root_of_live hp hl)
      (show m.k.roots none = _ from congrArg some he.symm)
    cases hroots
  have hroot : (m'.k.activate p.ttbr0).ttbr0 = p.ttbr0 :=
    Kernel.activate_ttbr0 hctl.orderly.synced (h.ctl.orderly.entry hp).root
  rintro (hk | ⟨i, q, hq, hlq, -⟩)
  · rw [Kernel.activate_kernelTtbr0, hkt] at hk
    exact hne (hroot.symm.trans hk)
  · rw [Kernel.activate_processes, hps] at hq
    obtain rfl := List.mem_singleton.mp (List.mem_of_getElem? hq)
    cases hlq

end Jatuli

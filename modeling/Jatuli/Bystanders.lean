import Jatuli.Headers
import Jatuli.MemoryRuns

/-!
# Who has a part in a step

Most steps have nothing to do with a given process: its ring page, its parked reads and the task it
has recorded as waiting stay as they are, and its task does not block (`Bystander`).  The others are
listed in `Concerns`: what the process does itself, what the poller does with its ring, the UART
interrupt when it has the keyboard, and the exits of its children.  `bystander_or_concerns` is the
case distinction that results about one process along the runs of the machine are proved with.

The poller may drain another process while this one's space is live.  That the other process then
cannot have this one's ring page written is because no image has a segment there, which is assumed
of all embedded programs.
-/

set_option autoImplicit false

namespace Jatuli

/-! ## Processes and programs -/

/-- Every process runs one of the embedded programs. -/
structure Imaged (k : Kernel) : Prop where
  program : ∀ {i : Nat} {p : Process}, k.processes[i]? = some p →
    ∃ q ∈ k.programs, ∃ pgs, Elf.plan q.2 = some (p.loaded, pgs)

/-- No segment of the image covers the ring page. -/
def Elf.OffRing (image : List UInt8) : Prop :=
  ∀ loaded pgs, Elf.plan image = some (loaded, pgs) → loaded.OffRing

theorem bootKernel_programs {mem : Mem} {kernelEnd ticks : Nat}
    {programs : List (String × List UInt8)} {k : Kernel}
    (hb : bootKernel mem kernelEnd ticks programs = some k) : k.programs = programs := by
  rw [bootKernel] at hb
  obtain ⟨⟨⟨l0, l1⟩, s₁⟩, -, hb⟩ := Option.bind_eq_some_iff.mp hb
  obtain ⟨s₂, -, hb⟩ := Option.bind_eq_some_iff.mp hb
  rw [← Option.some.inj hb]

theorem Kernel.setupRing_programs {k k' : Kernel} {pid : Nat} (hs : k.setupRing pid = some k') :
    k'.programs = k.programs := by
  obtain ⟨-, -, ⟨-, rfl⟩ | ⟨-, -, -, -, -, -, rfl⟩⟩ := Kernel.setupRing_cases hs
  · rfl
  · rfl

namespace Imaged

variable {k k' : Kernel} {pid : Nat}

/-- The table keeps its length, and its entries their images. -/
theorem of_evolves (h : Imaged k) (hev : k.Evolves k')
    (hlen : k'.processes.length = k.processes.length) (hprog : k'.programs = k.programs) :
    Imaged k' := by
  refine ⟨fun {i p'} hp' ↦ ?_⟩
  obtain ⟨p, hp⟩ : ∃ p, k.processes[i]? = some p := by
    rw [← Option.isSome_iff_exists, isSome_getElem?, ← hlen]
    exact (List.getElem?_eq_some_iff.mp hp').1
  obtain ⟨p'', hp'', he⟩ := hev.entries hp
  obtain rfl := Option.some.inj (hp'.symm.trans hp'')
  rw [hprog, he.loaded]
  exact h.program hp

theorem of_eq (h : Imaged k) (hps : k'.processes = k.processes) (hprog : k'.programs = k.programs) :
    Imaged k' := by
  refine ⟨fun {i p} hp ↦ ?_⟩
  rw [hprog]
  exact h.program (hps ▸ hp)

/-- A new process runs the program it was created from. -/
theorem create (h : Imaged k) {name : String} {image : List UInt8}
    (himage : k.getProgram name = some image) {root : Nat} {s₁ s₂ : Phys} {loaded : Loaded}
    {frames : List (Nat × Nat)} (hspace : createSpace s₁ image root = some (loaded, frames, s₂))
    {p : Process} (hp : p.loaded = loaded) (hps : k'.processes = k.processes ++ [p])
    (hprog : k'.programs = k.programs) : Imaged k' := by
  obtain ⟨q, hq, rfl⟩ := Option.map_eq_some_iff.mp himage
  rw [createSpace_eq] at hspace
  obtain ⟨⟨l, pgs⟩, hplan, hspace⟩ := Option.bind_eq_some_iff.mp hspace
  obtain ⟨x, -, hx⟩ := Option.map_eq_some_iff.mp hspace
  obtain ⟨rfl, -⟩ := Prod.mk.inj hx
  refine ⟨fun {i p'} hp' ↦ ?_⟩
  rw [hprog]
  rcases Nat.lt_or_ge i k.processes.length with hlt | hge
  · rw [hps, List.getElem?_append_left hlt] at hp'
    exact h.program hp'
  · rw [hps, List.getElem?_append_right hge, List.getElem?_singleton] at hp'
    split_ifs at hp'
    obtain rfl := Option.some.inj hp'
    exact ⟨q, List.mem_of_find?_eq_some hq, pgs, by rw [hp]; exact hplan⟩

/-- The images stay when an entry is touched. -/
theorem set (h : Imaged k) {i : Nat} {q : Process} (q' : Process) (hq : k.processes[i]? = some q)
    (hl : q'.loaded = q.loaded) (hps : k'.processes = k.processes.set i q')
    (hprog : k'.programs = k.programs) : Imaged k' := by
  refine ⟨fun {j p} hp ↦ ?_⟩
  rw [hprog]
  by_cases hij : i = j
  · subst hij
    rw [hps, List.getElem?_set_self (List.getElem?_eq_some_iff.mp hq).1] at hp
    obtain rfl := Option.some.inj hp
    rw [hl]
    exact h.program hq
  · rw [hps, List.getElem?_set_ne hij] at hp
    exact h.program hp

theorem complete (h : Imaged k) (ringPa tag : Nat) (result : Int) (child : Option Nat) :
    Imaged (k.complete ringPa tag result child) :=
  h.of_eq (k.complete_quiet ..).processes (k.complete_quiet ..).programs

theorem outcome (h : Imaged k) {ringPa tag : Nat} {child : Option Nat}
    (ho : SqeOutcome pid ringPa tag child k k') : Imaged k' ∧ k'.programs = k.programs := by
  cases ho with
  | @completed k₁ result hchild hd hin =>
    have h₁ : Imaged k₁ := h.of_eq hd.quiet.processes hd.quiet.programs
    exact ⟨h₁.complete .., (k₁.complete_quiet ..).programs.trans hd.quiet.programs⟩
  | @parked k₁ p i r hchild hd hin hp hi htag =>
    exact ⟨h.set { p with pending := p.pending.set i (some r) } hp rfl rfl hd.quiet.programs,
      hd.quiet.programs⟩
  | answered hchild hp hparent hexit => exact ⟨h.complete .., (k.complete_quiet ..).programs⟩
  | @waiting c p hchild hp hparent hexit =>
    exact ⟨h.set { p with exitWaiter := some tag } hp rfl (modify_eq_set hp _) rfl, rfl⟩
  | @spawned name image root s₁ s₂ loaded frames uart hchild himage hroot hspace =>
    refine ⟨Imaged.complete ?_ .., (Kernel.complete_quiet ..).programs⟩
    exact h.create himage hspace (p := { Process.fresh root loaded frames with parent := some pid })
      rfl rfl rfl

theorem drain (h : Imaged k) (hd : k.drain pid = some k') :
    Imaged k' ∧ k'.programs = k.programs := by
  rw [Kernel.drain] at hd
  obtain ⟨ringPa, -, hd⟩ := Option.bind_eq_some_iff.mp hd
  split_ifs at hd
  · obtain rfl := Option.some.inj hd
    exact ⟨h, rfl⟩
  · refine Kernel.drainFrom_invariant (I := fun k₁ ↦ Imaged k₁ ∧ k₁.programs = k.programs)
      ?_ (fun k₁ v h₁ ↦ ⟨h₁.1.of_eq rfl rfl, h₁.2⟩) _ ⟨h, rfl⟩ hd
    rintro k₁ k₂ addr ⟨h₁, hprog₁⟩ hs
    obtain ⟨pa, child, -, ho⟩ := Kernel.processSqe_cases hs
    have hlog : Imaged (k₁.log (.sqe pid (k₁.mem.load (addr + 24) 8) k₁.ttbr0 child)) :=
      h₁.of_eq rfl rfl
    obtain ⟨h₂, hprog₂⟩ := hlog.outcome ho
    exact ⟨h₂, hprog₂.trans hprog₁⟩

theorem schedule (h : Imaged k) : Imaged k.schedule :=
  h.of_eq k.schedule_processes (by rw [Kernel.schedule_eq])

theorem enterWait {m : Machine} {p : Process} (h : Imaged k) (hu : AtUser k pid p)
    (ringPa minComplete : Nat) :
    Imaged ({ m with k := k }.enterWait pid ringPa minComplete).k ∧
      ({ m with k := k }.enterWait pid ringPa minComplete).k.programs = k.programs := by
  rcases enterWait_cases (m := { m with k := k }) hu ringPa minComplete with ⟨-, he⟩ | ⟨-, he⟩
  · rw [he]
    exact ⟨h, rfl⟩
  · rw [he]
    refine ⟨Imaged.schedule ?_, ?_⟩
    · exact h.set { p with ringWaiter := some (taskOf pid) } hu.entry rfl (modify_eq_set hu.entry _)
        rfl
    · show (Kernel.schedule _).programs = _
      rw [Kernel.schedule_eq]

section Steps

variable {m m' : Machine} {a : Act}

/-- The UART interrupt. -/
theorem uart (h : Imaged m.k) (hctl : Ctl m) {bytes : List UInt8}
    (hs : Machine.uartIrq m.k bytes = some k') (hev : m.k.Evolves k') :
    Imaged k' ∧ k'.programs = m.k.programs := by
  rcases hctl.uart_move hs with ⟨input, uart⟩ |
    @⟨input, uart, pid, i₁, i₃, p, k₂, completed, -, -, -, hloop⟩
  · exact ⟨h.of_eq rfl rfl, rfl⟩
  obtain ⟨hprog, hlen⟩ : k₂.programs = m.k.programs ∧
      k₂.processes.length = m.k.processes.length := by
    have hq := Kernel.pollPendingFrom_quiet hloop
    have hlen := Kernel.pollPendingFrom_length hloop
    exact ⟨hq.programs, hlen⟩
  cases completed with
  | false => exact ⟨h.of_evolves hev hlen hprog, hprog⟩
  | true => exact ⟨h.of_evolves hev ((List.length_modify ..).trans hlen) hprog, hprog⟩

theorem poller (h : Imaged m.k) {l' : Poller} (hmove : PollerMove m.k m.poller k' l') :
    Imaged k' ∧ k'.programs = m.k.programs := by
  cases hmove with
  | record hpc => exact ⟨h.of_eq rfl rfl, rfl⟩
  | scanActivate hpc =>
    rw [Kernel.activate_eq]
    exact ⟨h.of_eq rfl rfl, rfl⟩
  | scanDrain hpc hd => exact h.drain hd
  | worked hpc hk =>
    rcases hk with rfl | rfl
    · exact ⟨h, rfl⟩
    · exact ⟨h.of_eq rfl rfl, rfl⟩
  | flagsStore hpc => exact ⟨h.of_eq rfl rfl, rfl⟩
  | block hpc =>
    refine ⟨Imaged.schedule (h.of_eq rfl rfl), ?_⟩
    rw [Kernel.blockCurrent, Kernel.schedule_eq]
  | yield hpc => exact ⟨h.schedule, by rw [Kernel.schedule_eq]⟩
  | _ => exact ⟨h, rfl⟩

/-- **One step**: the programs stay what they are, and every process runs one of them. -/
theorem move (h : Imaged m.k) (hctl : Ctl m) (hm : Move m a m') :
    Imaged m'.k ∧ m'.k.programs = m.k.programs := by
  have hev := hctl.evolves hm
  have ho := hctl.orderly
  cases hm with
  | @create image root s₁ s₂ loaded frames hcur hpc himage hroot hspace =>
    exact ⟨h.create himage hspace (p := .fresh root loaded frames) rfl rfl rfl, rfl⟩
  | foreground hcur hpc => exact ⟨h.of_evolves hev (List.length_modify ..) rfl, rfl⟩
  | spawnJsh hcur hpc hp => exact ⟨h.of_eq rfl rfl, rfl⟩
  | idle hcur hpc => exact ⟨h.schedule, by rw [Kernel.schedule_eq]⟩
  | poller hcur hmove => exact h.poller hmove
  | start hu hpc => exact ⟨h.of_eq rfl rfl, rfl⟩
  | retest hu hpc => exact h.enterWait hu _ _
  | store hu hpc hs =>
    obtain ⟨pa, rfl⟩ := Machine.userStore_cases hs
    exact ⟨h.of_eq rfl rfl, rfl⟩
  | @setup pid p k' hu hpc hs =>
    obtain ⟨-, -, -, -, hlen⟩ := ho.setupRing hu.entry hu.live hs
    have hprog := Kernel.setupRing_programs hs
    exact ⟨h.of_evolves hev hlen hprog, hprog⟩
  | enterNothing hu hpc hring => exact ⟨h, rfl⟩
  | @enter pid minComplete p k' hu hpc hring hs =>
    obtain ⟨-, p', hu', -⟩ := Proceeds.enterSubmit ho hctl.running (hctl.idle hu).2 hu hs
    obtain ⟨k₁, hk₁, hd, -⟩ := ho.enterSubmit (hctl.idle hu).2 hu.entry hs
    have h₁ : Imaged k₁ ∧ k₁.programs = m.k.programs := by
      rcases hk₁ with rfl | rfl | rfl
      · exact ⟨h, rfl⟩
      · exact ⟨h.of_eq rfl rfl, rfl⟩
      · exact ⟨h.of_eq rfl rfl, rfl⟩
    obtain ⟨h₂, hprog₂⟩ := h₁.1.drain hd
    obtain ⟨h₃, hprog₃⟩ := h₂.enterWait (m := m) hu' p.ringPa minComplete
    exact ⟨h₃, hprog₃.trans (hprog₂.trans h₁.2)⟩
  | @exit u pid code p report k' hact hu hpc ht =>
    have hu₀ := hu.kprintln report
    obtain ⟨-, hev', hlen, -⟩ := (ho.kprintln report).markExited hu₀.current hu₀.entry ht
    have hne := ho.parent_ne hu.entry
    have hprog : k'.programs = m.k.programs := by
      obtain ⟨k₁, msg, hrep, rfl⟩ := Kernel.teardown_cases hu₀.entry hne ht
      rw [Kernel.activate_eq]
      exact hrep.quiet.programs
    have h₀ : Imaged (m.k.kprintln report) := h.of_eq rfl rfl
    have h₁ : Imaged { k' with sched := k'.sched.markExited } :=
      (h₀.of_evolves hev' hlen hprog).of_eq rfl rfl
    refine ⟨h₁.schedule, ?_⟩
    rw [Kernel.taskExit, Kernel.schedule_eq]
    exact hprog
  | tick hmask =>
    refine ⟨Imaged.schedule (h.of_eq rfl rfl), ?_⟩
    show (Kernel.schedule _).programs = _
    rw [Kernel.schedule_eq]
  | uart hmask hs => exact h.uart hctl hs hev

end Steps

end Imaged

/-- **Every process runs one of the embedded programs**, in every run; so what holds of all images
holds of all processes. -/
theorem imaged_of_reach {programs : List (String × List UInt8)} {ok : Machine → Act → Prop}
    {m : Machine} (h : (machine programs).Reach ok m) :
    Imaged m.k ∧ m.k.programs = programs := by
  refine h.invariant_of (J := Ctl) (I := fun m ↦ Imaged m.k ∧ m.k.programs = programs)
    (fun _ h ↦ ctl_of_reach h) ?_ ?_
  · rintro m ⟨mem, kernelEnd, ticks, k, hend, hb, rfl⟩
    have hfresh := bootKernel_fresh hb
    refine ⟨⟨fun {i p} hp ↦ ?_⟩, ?_⟩
    · rw [show (bootMachine k).k.processes = [] from hfresh.processes] at hp
      cases hp
    · exact bootKernel_programs hb
  · rintro m a m' hctl ⟨hI, hprog⟩ - hs
    obtain ⟨hI', hprog'⟩ := hI.move hctl (step_cases hctl.orderly hctl.running hs)
    exact ⟨hI', hprog'.trans hprog⟩

theorem offRing_of_reach {programs : List (String × List UInt8)} {ok : Machine → Act → Prop}
    {m : Machine} (hoff : ∀ q ∈ programs, Elf.OffRing q.2) (h : (machine programs).Reach ok m)
    {i : Nat} {p : Process} (hp : m.k.processes[i]? = some p) : p.loaded.OffRing := by
  obtain ⟨himg, hprog⟩ := imaged_of_reach h
  obtain ⟨q, hq, pgs, hplan⟩ := himg.program hp
  exact hoff q (hprog ▸ hq) _ _ hplan

/-! ## Blocked tasks -/

/-- The task is blocked. -/
def Scheduler.Blocked (s : Scheduler) (i : Nat) : Prop :=
  ∃ t, s.tasks[i]? = some t ∧ t.state = .blocked

namespace Scheduler

variable {s s' : Scheduler} {i : Nat}

theorem Woken.blocked (h : s.Woken s') (hb : s'.Blocked i) : s.Blocked i := by
  obtain ⟨t', ht', hb⟩ := hb
  obtain ⟨t, ht, -, -, hs | ⟨hs, -⟩⟩ := h.getElem?' ht'
  · exact ⟨t, ht, hs.symm.trans hb⟩
  · exact ⟨t, ht, hs⟩

theorem Blocked.of_markBlocked (h : s.markBlocked.Blocked i) (hi : s.current ≠ i) :
    s.Blocked i := by
  rwa [Blocked, markBlocked, List.getElem?_modify_ne _ _ hi] at h

theorem Blocked.of_markExited (h : s.markExited.Blocked i) : s.Blocked i := by
  by_cases hi : s.current = i
  · obtain ⟨t', ht', hb⟩ := h
    rw [markExited, hi, List.getElem?_modify_eq] at ht'
    obtain ⟨t, -, rfl⟩ := Option.map_eq_some_iff.mp ht'
    cases hb
  · rwa [Blocked, markExited, List.getElem?_modify_ne _ _ hi] at h

/-- A waiter that is woken is not blocked any more. -/
theorem Blocked.of_wakeWaiter {w : Option Nat} (h : (s.wakeWaiter w).Blocked i) :
    s.Blocked i ∧ w ≠ some i := by
  refine ⟨(s.wakeWaiter_woken w).blocked h, ?_⟩
  rintro rfl
  obtain ⟨t', ht', hb⟩ := h
  rw [wakeWaiter, wake, List.getElem?_modify_eq] at ht'
  obtain ⟨t, -, rfl⟩ := Option.map_eq_some_iff.mp ht'
  by_cases hne : t.state = .blocked
  · rw [if_pos hne] at hb
    cases hb
  · rw [if_neg hne] at hb
    exact hne hb

end Scheduler

/-- New tasks are runnable. -/
theorem Recruited.blocked {k k' : Kernel} (h : Recruited k k') {i : Nat}
    (hb : k'.sched.Blocked i) : k.sched.Blocked i := by
  obtain ⟨t, ht, hb⟩ := hb
  rcases Nat.lt_or_ge i k.sched.tasks.length with hlt | hge
  · exact ⟨t, h.old hlt ▸ ht, hb⟩
  · have hnew := h.new (i - k.sched.tasks.length)
    rw [Nat.add_sub_cancel' hge, ht] at hnew
    obtain ⟨q, -, rfl⟩ := Option.map_eq_some_iff.mp hnew.symm
    cases hb

/-! ## Not having a part -/

/-- A step in which process `pid` has no part: its ring page stays as it is, the task recorded as
waiting too, and its task does not block. -/
structure Bystander (pid : Nat) (k k' : Kernel) : Prop where
  entry : ∀ {p : Process}, k.processes[pid]? = some p →
    ∃ p', k'.processes[pid]? = some p' ∧ p'.ringPa = p.ringPa ∧ p'.ringWaiter = p.ringWaiter
  page : ∀ {p : Process}, k.processes[pid]? = some p → p.ringPa ≠ 0 →
    Set.EqOn k'.mem k.mem (frameAt p.ringPa)
  blocked : k'.sched.Blocked (taskOf pid) → k.sched.Blocked (taskOf pid)

namespace Bystander

variable {pid : Nat} {k k' k'' : Kernel}

/-- Neither processes nor memory change. -/
theorem of_eq (hps : k'.processes = k.processes) (hm : k'.mem = k.mem)
    (hb : k'.sched.Blocked (taskOf pid) → k.sched.Blocked (taskOf pid)) : Bystander pid k k' :=
  ⟨fun {p} hp ↦ ⟨p, hps ▸ hp, rfl, rfl⟩, fun _ _ ↦ hm ▸ Set.eqOn_refl _ _, hb⟩

theorem refl (pid : Nat) (k : Kernel) : Bystander pid k k := of_eq rfl rfl id

theorem trans (h : Bystander pid k k') (h' : Bystander pid k' k'') : Bystander pid k k'' where
  entry hp := by
    obtain ⟨p', hp', hring, hw⟩ := h.entry hp
    obtain ⟨p'', hp'', hring', hw'⟩ := h'.entry hp'
    exact ⟨p'', hp'', hring'.trans hring, hw'.trans hw⟩
  page hp hne := by
    obtain ⟨p', hp', hring, -⟩ := h.entry hp
    have hpage := h'.page hp' (hring ▸ hne)
    rw [hring] at hpage
    exact hpage.trans (h.page hp hne)
  blocked hb := h.blocked (h'.blocked hb)

theorem schedule (pid : Nat) (k : Kernel) : Bystander pid k k.schedule :=
  of_eq k.schedule_processes (by rw [Kernel.schedule_eq])
    fun ⟨t, ht, hb⟩ ↦ ⟨t, k.schedule_tasks ▸ ht, hb⟩

/-- Another task blocks. -/
theorem blockCurrent (hcur : k.sched.current ≠ taskOf pid) : Bystander pid k k.blockCurrent := by
  have h : Bystander pid k { k with sched := k.sched.markBlocked } :=
    of_eq rfl rfl fun hb ↦ hb.of_markBlocked hcur
  exact h.trans (schedule ..)

theorem taskExit (pid : Nat) (k : Kernel) : Bystander pid k k.taskExit := by
  have h : Bystander pid k { k with sched := k.sched.markExited } :=
    of_eq rfl rfl fun hb ↦ hb.of_markExited
  exact h.trans (schedule ..)

/-- The entry of another process changes. -/
theorem modify {i : Nat} (f : Process → Process) (hi : i ≠ pid) :
    Bystander pid k { k with processes := k.processes.modify i f } :=
  ⟨fun {p} hp ↦ ⟨p, (List.getElem?_modify_ne f k.processes hi).trans hp, rfl, rfl⟩,
    fun _ _ ↦ Set.eqOn_refl _ _, id⟩

end Bystander

section Memory

variable {strict : Prop} {L : Layout} {own own' : Nat → Owner} {k k' : Kernel} {pid i : Nat}
  {rid : Option Nat} {p q : Process}

/-- The ring page of a process is no page of another one. -/
theorem Inv.ring_ne_frame (h : Inv strict L own k) (hp : k.processes[pid]? = some p)
    (hne : p.ringPa ≠ 0) (hq : k.processes[i]? = some q) (hi : i ≠ pid) {va f : Nat}
    (hf : (va, f) ∈ q.frames) : f ≠ p.ringPa := by
  rintro rfl
  have ho := (h.ofRing hp hne).2
  rw [(h.ofFrames hq hf).2] at ho
  cases ho
  exact hi rfl

/-- A change within the ring page of another process. -/
theorem Inv.bystander_ring (h : Inv strict L own k) (hi : i ≠ pid) (hq : k.processes[i]? = some q)
    (hne : q.ringPa ≠ 0) (hps : k'.processes = k.processes)
    (hm : Set.EqOn k'.mem k.mem (frameAt q.ringPa)ᶜ) (hw : k.sched.Woken k'.sched) :
    Bystander pid k k' where
  entry {p} hp := ⟨p, hps ▸ hp, rfl, rfl⟩
  page hp hne' :=
    eqOn_frameAt (h.ofRing hq hne).1.aligned (h.ofRing hp hne').1.aligned
      (h.ring_ne_frame hp hne' hq hi ((h.proc hq).ring hne).1) hm
  blocked := hw.blocked

/-- A store by another process. -/
theorem Inv.bystander_store (h : Inv strict L own k) (hi : i ≠ pid)
    (hr : k.roots (some i) = some k.ttbr0) {va n v : Nat}
    (hs : Machine.userStore k va n v = some k') : Bystander pid k k' := by
  obtain ⟨-, j, q, va', f, hj, hq, hf, -, hfit, rfl⟩ := h.userStore hr hs
  obtain rfl := Option.some.inj hj
  refine ⟨fun {p} hp ↦ ⟨p, hp, rfl, rfl⟩, fun {p} hp hne ↦ ?_, id⟩
  refine eqOn_frameAt (h.ofFrames hq hf).1.aligned (h.ofRing hp hne).1.aligned
    (h.ring_ne_frame hp hne hq hi hf) (Mem.store_eqOn (Nat.le_add_right ..) ?_)
  rw [frameSize]
  omega

/-- Another process sets up its ring. -/
theorem Inv.bystander_setup (h : Inv strict L own k) (hi : i ≠ pid) (hq : k.processes[i]? = some q)
    (hl : q.live = true) (hs : k.setupRing i = some k') : Bystander pid k k' := by
  rcases h.setupRing hq hl hs with ⟨-, rfl⟩ | ⟨-, own', frame, phys, rfl, -, hkept, -⟩
  · exact .refl ..
  · refine ⟨fun {p} hp ↦ ⟨p, (List.getElem?_modify_ne _ k.processes hi).trans hp, rfl, rfl⟩,
      fun {p} hp hne ↦ ?_, id⟩
    obtain ⟨hm, ho⟩ := h.ofRing hp hne
    exact (hkept p.ringPa hm (by rw [ho]; nofun) fun _ ↦ by rw [ho]; nofun).2

/-- Something is done on behalf of another process, whatever space is live. -/
theorem Inv.bystander_confined (h : Inv strict L own k) (hi : i ≠ pid)
    (hq : k.processes[i]? = some q) (hne : q.ringPa ≠ 0) (hoff : q.loaded.OffRing)
    (hc : Confined L i rid q.ringPa own k own' k') : Bystander pid k k' where
  entry {p} hp := by
    obtain ⟨p', hp', ht⟩ := hc.entries hp
    exact ⟨p', hp', by rw [ht.rest], by rw [ht.rest]⟩
  page {p} hp hne' := by
    obtain ⟨hm, ho⟩ := h.ofRing hp hne'
    refine fun x hx ↦ (hc.kept p.ringPa hm (by rw [ho]; nofun)).2 x hx ⟨fun hx' ↦ ?_,
      h.ring_not_written hp hne' hq hoff hx⟩
    have hal := hm.aligned
    have hal' := (h.ofRing hq hne).1.aligned
    have hdiff := h.ring_ne_frame hp hne' hq hi ((h.proc hq).ring hne).1
    rw [mem_frameAt] at hx hx'
    omega
  blocked := hc.recruited.blocked

/-! ## Completions from outside -/

/-- Completions are posted to process `pid`, with entry `p`, and the task recorded as waiting is
woken. -/
structure Notified (pid : Nat) (p : Process) (k k' : Kernel) : Prop where
  entry : ∃ p', k'.processes[pid]? = some p' ∧ p'.ringPa = p.ringPa
  header : HeaderAt p.ringPa (sqHead k.mem p.ringPa) k.mem k'.mem
  woken : k'.sched.Blocked (taskOf pid) →
    k.sched.Blocked (taskOf pid) ∧ p.ringWaiter ≠ some (taskOf pid)

theorem Notified.trans {k'' : Kernel} (hne : p.ringPa ≠ 0) (h : Notified pid p k k')
    (h' : Bystander pid k' k'') : Notified pid p k k'' := by
  obtain ⟨p', hp', hring⟩ := h.entry
  obtain ⟨p'', hp'', hring', -⟩ := h'.entry hp'
  have hpage := h'.page hp' (hring ▸ hne)
  rw [hring] at hpage
  refine ⟨⟨p'', hp'', hring'.trans hring⟩, ?_, fun hb ↦ h.woken (h'.blocked hb)⟩
  have hheader := h.header.trans (.of_eqOn hpage)
  rwa [h.header.sqHead] at hheader

/-- Another process tells its parent that it exits. -/
theorem Inv.report_cases {code : Int} (h : Inv strict L own k) (hi : i ≠ pid)
    (hne : q.parent ≠ some i) (hp : k.processes[pid]? = some p) (hring : p.ringPa ≠ 0)
    (hrep : ExitReport i q code { k with processes := k.processes.set i (q.exited code) } k') :
    Bystander pid k k' ∨ Notified pid p k k' := by
  have hset : ∀ j, j ≠ i → (k.processes.set i (q.exited code))[j]? = k.processes[j]? :=
    fun j hj ↦ List.getElem?_set_ne (Ne.symm hj)
  obtain ⟨k₀, hk₀⟩ : ∃ k₀ : Kernel,
    k₀ = { k with processes := k.processes.set i (q.exited code) } :=
    ⟨_, rfl⟩
  have hm₀ : k₀.mem = k.mem := by rw [hk₀]
  have hs₀ : k₀.sched = k.sched := by rw [hk₀]
  have hps₀ : k₀.processes = k.processes.set i (q.exited code) := by rw [hk₀]
  have hp₀ : k₀.processes[pid]? = some p := by rw [hps₀, hset pid (Ne.symm hi), hp]
  rw [← hk₀] at hrep
  -- the entry of another process loses its waiter
  have hother : ∀ {parent : Nat} {r : Process}, parent ≠ pid → ∀ {p : Process},
      k.processes[pid]? = some p →
      ∃ p', (k₀.processes.set parent { r with ringWaiter := none })[pid]? = some p' ∧
        p'.ringPa = p.ringPa ∧ p'.ringWaiter = p.ringWaiter := by
    intro parent r hpar p hp
    exact ⟨p, by rw [List.getElem?_set_ne hpar, hps₀, hset pid (Ne.symm hi), hp], rfl, rfl⟩
  have hwoken : ∀ {w : Option Nat}, (k₀.sched.wakeWaiter w).Blocked (taskOf pid) →
      k.sched.Blocked (taskOf pid) ∧ w ≠ some (taskOf pid) := by
    rw [hs₀]
    exact fun hb ↦ hb.of_wakeWaiter
  cases hrep with
  | silent hno =>
    refine .inl ⟨fun {p} hp ↦ ⟨p, ?_, rfl, rfl⟩, fun _ _ ↦ hm₀ ▸ Set.eqOn_refl _ _, hs₀ ▸ id⟩
    rw [hps₀, hset pid (Ne.symm hi), hp]
  | @answered parent tag r htag hparent hr hrr =>
    by_cases hpar : parent = pid
    · subst hpar
      obtain rfl := Option.some.inj (hp₀.symm.trans hr)
      exact .inr ⟨⟨_, List.getElem?_set_self (List.getElem?_eq_some_iff.mp hr).1, rfl⟩,
        HeaderAt.complete hm₀ p.ringPa tag code (some i), hwoken⟩
    · have hr₀ : k.processes[parent]? = some r := by
        rwa [hps₀, hset parent fun e ↦ hne (by rw [hparent, e])] at hr
      refine .inl ⟨hother hpar, fun {p} hp hne' ↦ ?_, fun hb ↦ (hwoken hb).1⟩
      have hout := k₀.complete_eqOn r.ringPa tag code (some i)
      rw [hm₀] at hout
      exact eqOn_frameAt (h.ofRing hr₀ hrr).1.aligned (h.ofRing hp hne').1.aligned
        (h.ring_ne_frame hp hne' hr₀ hpar ((h.proc hr₀).ring hrr).1) hout
  | @lost parent tag r htag hparent hr hrr =>
    have hpar : parent ≠ pid := by
      rintro rfl
      obtain rfl := Option.some.inj (hp₀.symm.trans hr)
      exact hring hrr
    exact .inl ⟨hother hpar, fun _ _ ↦ hm₀ ▸ Set.eqOn_refl _ _, fun hb ↦ (hwoken hb).1⟩

/-- Another process ends. -/
theorem Inv.exit_cases {code : Int} (h : Inv strict L own k) (hi : i ≠ pid)
    (hq : k.processes[i]? = some q) (hl : q.live = true) (hne : q.parent ≠ some i)
    (hroot : k.ttbr0 = q.ttbr0) (hp : k.processes[pid]? = some p) (hring : p.ringPa ≠ 0)
    (ht : k.teardown i code = some k') :
    Bystander pid k k'.taskExit ∨ Notified pid p k k'.taskExit := by
  obtain ⟨k₁, msg, hrep, rfl⟩ := Kernel.teardown_cases hq hne ht
  obtain ⟨hm, ho⟩ := h.ofRing hp hring
  have hback := h.giveBack_page hq hl hne hroot hrep hm ho (Ne.symm hi)
  -- after the report only frames of the process that ends are touched
  have hafter : ∀ {p₁ : Process}, k₁.processes[pid]? = some p₁ → p₁.ringPa = p.ringPa →
      Bystander pid k₁ (Kernel.kprintln (Kernel.activate { k₁ with
        phys := freeAddressSpace (Kernel.reclaim k₁.ttbr0 q.frames k₁.phys) q.ttbr0
        processes := k₁.processes.set i (q.husk code) } k₁.kernelTtbr0) msg).taskExit := by
    intro p₁ hp₁ hring₁
    refine Bystander.trans ?_ (.taskExit ..)
    rw [Kernel.activate_eq]
    refine ⟨fun {p₂} hp₂ ↦ ⟨p₂, (List.getElem?_set_ne hi).trans hp₂, rfl, rfl⟩,
      fun {p₂} hp₂ _ ↦ ?_, id⟩
    obtain rfl := Option.some.inj (hp₁.symm.trans hp₂)
    rw [hring₁]
    exact hback
  rcases h.report_cases hi hne hp hring hrep with hb | hn
  · obtain ⟨p₁, hp₁, hring₁, -⟩ := hb.entry hp
    exact .inl (hb.trans (hafter hp₁ hring₁))
  · obtain ⟨p₁, hp₁, hring₁⟩ := hn.entry
    exact .inr (hn.trans hring (hafter hp₁ hring₁))

end Memory

/-! ## Having a part -/

/-- The steps that process `pid`, with entry `p` and a ring, has a part in. -/
inductive Concerns (m : Machine) (pid : Nat) (p : Process) : Act → Machine → Prop
  | start (hu : AtUser m.k pid p) (hpc : m.user (taskOf pid) = .start) :
      Concerns m pid p .run m.userTask
  | retest {minComplete : Nat} (hu : AtUser m.k pid p)
      (hpc : m.user (taskOf pid) = .inEnter p.ringPa minComplete) :
      Concerns m pid p .run (m.enterWait pid p.ringPa minComplete)
  | store {va n v : Nat} {k' : Kernel} (hu : AtUser m.k pid p)
      (hpc : m.user (taskOf pid) = .el0) (hs : Machine.userStore m.k va n v = some k') :
      Concerns m pid p (.user (.store va n v)) { m with k := k' }
  | enter {minComplete : Nat} {k' : Kernel} (hu : AtUser m.k pid p)
      (hpc : m.user (taskOf pid) = .el0) (hs : m.k.enterSubmit pid p.ringPa = some k') :
      Concerns m pid p (.user (.enter minComplete))
        ({ m with k := k' }.enterWait pid p.ringPa minComplete)
  | exit {u : UserAct} {code : Int} {report : String} {k' : Kernel} (hu : AtUser m.k pid p)
      (hpc : m.user (taskOf pid) = .el0)
      (ht : (m.k.kprintln report).teardown pid code = some k') :
      Concerns m pid p (.user u) { m.userGoto .gone with k := k'.taskExit }
  /-- The poller consumes its submissions. -/
  | drained {n : Nat} {k' : Kernel} (hcur : m.atPoller) (hpc : m.poller.pc = .scanDrain n pid)
      (hd : m.k.drain pid = some k') :
      Concerns m pid p .run
        { m with k := k', poller := { m.poller with pc := .scan n (pid + 1) true } }
  /-- The poller writes its flag. -/
  | flagged {on : Bool} {n i : Nat} {after : AfterFlags} (hcur : m.atPoller)
      (hpc : m.poller.pc = .flagsStore on n i p.ringPa after) :
      Concerns m pid p .run { m with
        k := m.k.ringStore p.ringPa offFlags 4 (Machine.flagValue on)
        poller := { m.poller with pc := .flagsScan on n (i + 1) after } }
  /-- A UART interrupt, or the exit of a child. -/
  | notified {a : Act} {m' : Machine} (hn : Notified pid p m.k m'.k)
      (huser : m'.user (taskOf pid) = m.user (taskOf pid)) : Concerns m pid p a m'

section Parts

variable {L : Layout} {own : Nat → Owner} {m m' : Machine} {a : Act} {pid : Nat} {p : Process}

/-- The UART interrupt. -/
theorem Ctl.uart_parts (hctl : Ctl m) (hinv : Inv False L own m.k)
    (hoff : ∀ {i : Nat} {q : Process}, m.k.processes[i]? = some q → q.loaded.OffRing)
    (hp : m.k.processes[pid]? = some p) {bytes : List UInt8} {k' : Kernel}
    (hs : Machine.uartIrq m.k bytes = some k') :
    Bystander pid m.k k' ∨ Notified pid p m.k k' := by
  rcases hctl.uart_move hs with ⟨input, uart⟩ |
    @⟨input, uart, i, i₁, i₃, q, k₂, completed, hfg, hq, hne, hloop⟩
  · exact .inl (.of_eq rfl rfl id)
  have hr := Inv.root_of_live hq (hctl.orderly.live_of_ring hq hne)
  have h₂ : Inv False L own { m.k with input, uart, installed := i₁, ttbr0 := q.ttbr0 } :=
    hinv.of_mem_eq ⟨rfl, fun _ ↦ rfl, rfl, rfl, rfl⟩ rfl
  obtain ⟨-, hc⟩ := h₂.pollPendingFrom hq hne hr hfg hloop
  have hw : ∀ w, k₂.sched.Woken (if completed then k₂.sched.wakeWaiter w else k₂.sched) := by
    intro w
    cases completed with
    | false => exact .refl _
    | true => exact k₂.sched.wakeWaiter_woken w
  by_cases hi : i = pid
  · subst hi
    obtain rfl := Option.some.inj (hp.symm.trans hq)
    obtain ⟨hat, hpage⟩ := h₂.pollPendingFrom_header hq hne (hoff hp) hr hfg hloop
    obtain ⟨p₂, hp₂, ht₂⟩ := hc.entries hp
    cases completed with
    | false =>
      refine .inl ⟨fun {p'} hp' ↦ ?_, fun {p'} hp' _ ↦ ?_, fun hb ↦ hc.recruited.blocked hb⟩
      · obtain rfl := Option.some.inj (hp.symm.trans hp')
        exact ⟨p₂, hp₂, by rw [ht₂.rest], by rw [ht₂.rest]⟩
      · obtain rfl := Option.some.inj (hp.symm.trans hp')
        exact hpage rfl
    | true =>
      refine .inr ⟨⟨{ p₂ with ringWaiter := none }, ?_, by rw [ht₂.rest]⟩, hat, fun hb ↦ ?_⟩
      · show (Processes.takeWaiter k₂.processes i).2[i]? = _
        rw [Processes.takeWaiter, List.getElem?_modify_eq, hp₂]
        rfl
      · obtain ⟨hb₂, hne₂⟩ := Scheduler.Blocked.of_wakeWaiter hb
        refine ⟨hc.recruited.blocked hb₂, fun hw₂ ↦ hne₂ ?_⟩
        rw [Processes.takeWaiter, hp₂, Option.bind_some, ht₂.rest, hw₂]
  · have hb : Bystander pid { m.k with input, uart, installed := i₁, ttbr0 := q.ttbr0 } k₂ :=
      h₂.bystander_confined hi hq hne (hoff hq) hc
    have hio : Bystander pid m.k { m.k with input, uart, installed := i₁, ttbr0 := q.ttbr0 } :=
      .of_eq rfl rfl id
    refine .inl ((hio.trans hb).trans ⟨fun {p'} hp' ↦ ⟨p', ?_, rfl, rfl⟩,
      fun _ _ ↦ Set.eqOn_refl _ _, fun hb ↦ (hw _).blocked hb⟩)
    cases completed with
    | false => exact hp'
    | true => exact (List.getElem?_modify_ne _ k₂.processes hi).trans hp'

/-- The poller's steps. -/
theorem MemOk.poller_parts (hmem : MemOk L m) (hctl : Ctl m)
    (hoff : ∀ {i : Nat} {q : Process}, m.k.processes[i]? = some q → q.loaded.OffRing)
    (hp : m.k.processes[pid]? = some p) (hring : p.ringPa ≠ 0) (hcur : m.atPoller) {k' : Kernel}
    {l' : Poller} (hmove : PollerMove m.k m.poller k' l') :
    Bystander pid m.k k' ∨ Concerns m pid p .run { m with k := k', poller := l' } := by
  obtain ⟨own, hinv⟩ := hmem.inv
  cases hmove with
  | record hpc => exact .inl (.of_eq rfl rfl id)
  | scanActivate hpc =>
    exact .inl (.of_eq (Kernel.activate_processes ..) (by rw [Kernel.activate_eq])
      (by rw [Kernel.activate_sched]; exact id))
  | @scanDrain n i k' hpc hd =>
    by_cases hi : i = pid
    · subst hi
      exact .inr (.drained hcur hpc hd)
    · obtain ⟨q, hq⟩ := drain_entry hd
      by_cases hne : q.ringPa = 0
      · obtain rfl := drain_of_no_ring (fun hq' ↦ by rw [hq] at hq'; cases hq'; exact hne) hd
        exact .inl (.refl ..)
      · obtain ⟨rid, hr⟩ := hmem.root.drain hpc hq (hctl.orderly.live_of_ring hq hne)
        obtain ⟨own', -, hc⟩ := hinv.drain hq hr hd
        exact .inl (hinv.bystander_confined hi hq hne (hoff hq) hc)
  | worked hpc hk =>
    rcases hk with rfl | rfl
    · exact .inl (.refl ..)
    · exact .inl (.of_eq rfl rfl id)
  | @flagsStore on n i ringPa after hpc =>
    by_cases hpa : ringPa = p.ringPa
    · subst hpa
      exact .inr (.flagged hcur hpc)
    · refine .inl ⟨fun {p'} hp' ↦ ⟨p', hp', rfl, rfl⟩, fun {p'} hp' hne' ↦ ?_, id⟩
      obtain rfl := Option.some.inj (hp.symm.trans hp')
      obtain ⟨hm, -⟩ := hmem.target ringPa (by rw [hpc]; rfl)
      exact eqOn_frameAt hm.aligned (hinv.ofRing hp hring).1.aligned hpa
        (m.k.ringStore_eqOn (by decide))
  | block hpc =>
    refine .inl (.blockCurrent fun he ↦ ?_)
    have htask : pollerTask < taskOf pid := by rw [taskOf]; omega
    exact Nat.ne_of_lt htask (hcur.symm.trans he)
  | yield hpc => exact .inl (.schedule ..)
  | _ => exact .inl (.refl ..)

/-- Another process's wait loop. -/
theorem bystander_enterWait {k : Kernel} {i : Nat} {q : Process} (hu : AtUser k i q)
    (hi : i ≠ pid) (ringPa minComplete : Nat) :
    Bystander pid k ({ m with k := k }.enterWait i ringPa minComplete).k ∧
      ({ m with k := k }.enterWait i ringPa minComplete).user (taskOf pid) =
        m.user (taskOf pid) := by
  rcases enterWait_cases (m := { m with k := k }) hu ringPa minComplete with ⟨-, he⟩ | ⟨-, he⟩
  · rw [he]
    exact ⟨.refl .., userGoto_of_ne (m := { m with k := k }) hu _ (Ne.symm hi)⟩
  · rw [he]
    refine ⟨?_, userGoto_of_ne (m := { m with k := k }) hu _ (Ne.symm hi)⟩
    have hset : Bystander pid k
        { k with processes := Processes.setWaiter k.processes i (taskOf i) } := .modify _ hi
    refine hset.trans (.blockCurrent fun he ↦ hi ?_)
    have hcur : taskOf i = taskOf pid := hu.current.symm.trans he
    rw [taskOf, taskOf] at hcur
    omega

/-- Another process submits. -/
theorem MemOk.bystander_enterSubmit (hmem : MemOk L m) (hctl : Ctl m) {i : Nat} {q : Process}
    (hu : AtUser m.k i q) (hring : q.ringPa ≠ 0) (hoff : q.loaded.OffRing) (hi : i ≠ pid)
    {k' : Kernel} (hs : m.k.enterSubmit i q.ringPa = some k') : Bystander pid m.k k' := by
  obtain ⟨own, hinv⟩ := hmem.inv
  obtain ⟨k₁, hk₁, hd, -, hw, -⟩ := hctl.orderly.enterSubmit (hctl.idle hu).2 hu.entry hs
  obtain ⟨h₁, hps₁, hr₁, hm₁⟩ := MemOk.lowered hinv hu hring hk₁
  have hb₁ : Bystander pid m.k k₁ := hinv.bystander_ring hi hu.entry hring hps₁ hm₁ hw
  have hp₁ : k₁.processes[i]? = some q := hps₁ ▸ hu.entry
  obtain ⟨own', -, hc⟩ := h₁.drain hp₁ hr₁ hd
  exact hb₁.trans (h₁.bystander_confined hi hp₁ hring hoff hc)

/-- **A process with a ring has a part in a step, or the step passes it by.** -/
theorem bystander_or_concerns (hctl : Ctl m) (hmem : MemOk L m)
    (hoff : ∀ {i : Nat} {q : Process}, m.k.processes[i]? = some q → q.loaded.OffRing)
    (hp : m.k.processes[pid]? = some p) (hring : p.ringPa ≠ 0) (hm : Move m a m') :
    Bystander pid m.k m'.k ∧ m'.user (taskOf pid) = m.user (taskOf pid) ∨
      Concerns m pid p a m' := by
  obtain ⟨own, hinv⟩ := hmem.inv
  have ho := hctl.orderly
  -- before the shell has its task there is no ring
  have hearly : m.kmain ≠ .idle → False := by
    rcases hctl.kmain.early with ⟨hidle, -⟩ | ⟨-, hno⟩
    · exact fun hx ↦ hx hidle
    · exact fun _ ↦ hring (hno hp)
  have hsame : ∀ {i : Nat} {q : Process}, AtUser m.k i q → i = pid → q = p :=
    fun hu he ↦ Option.some.inj (hu.entry.symm.trans (he ▸ hp))
  cases hm with
  | create hcur hpc himage hroot hspace => exact absurd (hpc ▸ nofun) hearly
  | foreground hcur hpc => exact absurd (hpc ▸ nofun) hearly
  | spawnJsh hcur hpc hq => exact absurd (hpc ▸ nofun) hearly
  | idle hcur hpc => exact .inl ⟨.schedule .., rfl⟩
  | poller hcur hmove =>
    exact (hmem.poller_parts hctl hoff hp hring hcur hmove).imp (fun hb ↦ ⟨hb, rfl⟩) id
  | @start i q hu hpc =>
    by_cases hi : i = pid
    · obtain rfl := hsame hu hi
      subst hi
      exact .inr (.start hu hpc)
    · exact .inl ⟨.of_eq rfl rfl id, userTask_of_ne hu (Ne.symm hi)⟩
  | @retest i ringPa minComplete q hu hpc =>
    by_cases hi : i = pid
    · obtain rfl := hsame hu hi
      subst hi
      have huser := hctl.user i
      rw [hpc] at huser
      obtain ⟨t, q', -, -, hq', -, rfl, -⟩ := huser
      obtain rfl := Option.some.inj (hu.entry.symm.trans hq')
      exact .inr (.retest hu hpc)
    · exact .inl (bystander_enterWait hu hi ringPa minComplete)
  | @store i va n v q k' hu hpc hs =>
    by_cases hi : i = pid
    · obtain rfl := hsame hu hi
      subst hi
      exact .inr (.store hu hpc hs)
    · exact .inl ⟨hinv.bystander_store hi hu.rooted hs, rfl⟩
  | @setup i q k' hu hpc hs =>
    by_cases hi : i = pid
    · obtain rfl := hsame hu hi
      rcases hinv.setupRing hu.entry hu.live hs with ⟨-, rfl⟩ | ⟨hzero, -⟩
      · exact .inl ⟨.refl .., rfl⟩
      · exact absurd hzero hring
    · exact .inl ⟨hinv.bystander_setup hi hu.entry hu.live hs, rfl⟩
  | enterNothing hu hpc hno => exact .inl ⟨.refl .., rfl⟩
  | @enter i minComplete q k' hu hpc hne hs =>
    by_cases hi : i = pid
    · obtain rfl := hsame hu hi
      subst hi
      exact .inr (.enter hu hpc hs)
    · obtain ⟨-, q', hu', -⟩ := Proceeds.enterSubmit ho hctl.running (hctl.idle hu).2 hu hs
      obtain ⟨hb, huser⟩ := bystander_enterWait (m := m) hu' hi q.ringPa minComplete
      exact .inl ⟨(hmem.bystander_enterSubmit hctl hu hne (hoff hu.entry) hi hs).trans hb, huser⟩
  | @exit u i code q report k' hact hu hpc ht =>
    by_cases hi : i = pid
    · obtain rfl := hsame hu hi
      subst hi
      exact .inr (.exit hu hpc ht)
    · have hne := ho.parent_ne hu.entry
      have huser : (m.userGoto .gone).user (taskOf pid) = m.user (taskOf pid) :=
        userGoto_of_ne hu _ (Ne.symm hi)
      have hprint : Bystander pid m.k (m.k.kprintln report) := .of_eq rfl rfl id
      have hu₀ := hu.kprintln report
      rcases (hinv.kprintln report).exit_cases hi hu₀.entry hu.live hne hu₀.root hp hring ht with
        hb | hn
      · exact .inl ⟨hprint.trans hb, huser⟩
      · exact .inr (.notified ⟨hn.entry, hn.header, hn.woken⟩ huser)
  | tick hmask =>
    have hw : Bystander pid m.k { m.k with
        ticks := (m.k.ticks + 1) % 2 ^ 64
        sched := m.k.sched.wakeSleepers ((m.k.ticks + 1) % 2 ^ 64) } :=
      .of_eq rfl rfl fun hb ↦ (m.k.sched.wakeSleepers_woken _).blocked hb
    exact .inl ⟨hw.trans (.schedule ..), rfl⟩
  | uart hmask hs =>
    exact (hctl.uart_parts hinv hoff hp hs).imp (fun hb ↦ ⟨hb, rfl⟩) fun hn ↦ .notified hn rfl

end Parts

end Jatuli

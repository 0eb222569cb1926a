import Jatuli.Accounts

/-!
# What a step is in the books of a process

A step of the machine either leaves the accounts of process `pid` and the header of its ring alone,
or it is one of a few: the process stores or sets up its ring, its submissions are drained, its
parked reads are completed, another process ends, or it ends itself.  `booking_of_move` is that
distinction.  What is to hold of the accounts, and of the counts in the header, along the runs of
the machine is proved with it.

The first such result is `booked_of_reach`: the accounts of a process that has not exited are in
order in every run.
-/

set_option autoImplicit false

namespace Jatuli

/-! ## The header of a ring -/

/-- The four counters of a ring are as they were. -/
structure SameCounters (ringPa : Nat) (m m' : Mem) : Prop where
  sqHead : sqHead m' ringPa = sqHead m ringPa
  sqTail : sqTail m' ringPa = sqTail m ringPa
  cqHead : cqHead m' ringPa = cqHead m ringPa
  cqTail : cqTail m' ringPa = cqTail m ringPa

namespace SameCounters

variable {ringPa : Nat} {m m' : Mem}

theorem of_load
    (h : ∀ off, off + 4 ≤ offFlags → m'.load (ringPa + off) 4 = m.load (ringPa + off) 4) :
    SameCounters ringPa m m' where
  sqHead := congrArg (BitVec.ofNat 32) (h _ (by decide))
  sqTail := congrArg (BitVec.ofNat 32) (h _ (by decide))
  cqHead := congrArg (BitVec.ofNat 32) (h _ (by decide))
  cqTail := congrArg (BitVec.ofNat 32) (h _ (by decide))

theorem refl (ringPa : Nat) (m : Mem) : SameCounters ringPa m m := of_load fun _ _ ↦ rfl

/-- The whole page is kept. -/
theorem of_eqOn (h : Set.EqOn m' m (frameAt ringPa)) : SameCounters ringPa m m' := by
  refine of_load fun off hoff ↦ Mem.load_eqOn h (Nat.le_add_right ..) ?_
  have hsize : offFlags ≤ frameSize := by decide
  omega

/-- The flags are none of the counters. -/
theorem flags (ringPa : Nat) (m : Mem) (v : Nat) :
    SameCounters ringPa m (m.store (ringPa + offFlags) 4 v) :=
  of_load fun off hoff ↦ Mem.load_store_disjoint (by omega)

end SameCounters

/-- The counters of the ring of `pid`, if it has one, are as they were. -/
def CountersKept (pid : Nat) (k k' : Kernel) : Prop :=
  ∀ {p : Process}, k.processes[pid]? = some p → p.ringPa ≠ 0 →
    SameCounters p.ringPa k.mem k'.mem

/-- No image has a segment on the ring page. -/
def Kernel.OffRings (k : Kernel) : Prop :=
  ∀ {i : Nat} {q : Process}, k.processes[i]? = some q → q.loaded.OffRing

theorem Bystander.counters {pid : Nat} {k k' : Kernel} (h : Bystander pid k k') :
    CountersKept pid k k' := fun hp hne ↦ .of_eqOn (h.page hp hne)

/-! ## The distinction -/

/-- What a step is in the books of process `pid`. -/
inductive Booking (pid : Nat) (m : Machine) : Act → Machine → Prop
  /-- Nothing. -/
  | aside {a : Act} {m' : Machine} (hu : Unbooked pid m.k m'.k)
      (hc : m.k.OffRings → CountersKept pid m.k m'.k) : Booking pid m a m'
  /-- A store by the process. -/
  | store {va n v : Nat} {p : Process} {k' : Kernel} (hu : AtUser m.k pid p)
      (hs : Machine.userStore m.k va n v = some k') :
      Booking pid m (.user (.store va n v)) { m with k := k' }
  /-- The process sets up its ring. -/
  | setup {a : Act} {p : Process} {k' : Kernel} (hu : AtUser m.k pid p) (hzero : p.ringPa = 0)
      (hs : m.k.setupRing pid = some k') : Booking pid m a { m with k := k' }
  /-- The poller drains the ring. -/
  | drained {a : Act} {n : Nat} {m' : Machine} (hpc : m.poller.pc = .scanDrain n pid)
      (hd : m.k.drain pid = some m'.k) : Booking pid m a m'
  /-- The process enters, and its ring is drained. -/
  | entered {a : Act} {minComplete : Nat} {p : Process} {k' : Kernel} (hu : AtUser m.k pid p)
      (hring : p.ringPa ≠ 0) (hs : m.k.enterSubmit pid p.ringPa = some k') :
      Booking pid m a ({ m with k := k' }.enterWait pid p.ringPa minComplete)
  /-- Its parked reads are completed. -/
  | polled {a : Act} {p : Process} {input : InputBuf} {uart : Uart} {i₁ : Nat} {completed : Bool}
      {k₂ : Kernel} {m' : Machine} (hfg : Processes.foregroundPid m.k.processes = some pid)
      (hp : m.k.processes[pid]? = some p) (hne : p.ringPa ≠ 0)
      (hloop : Kernel.pollPendingFrom pid p.ringPa p.pending maxPending
        { m.k with input, uart, installed := i₁, ttbr0 := p.ttbr0 } false = some (completed, k₂))
      (hafter : Unbooked pid k₂ m'.k) (hmem : m'.k.mem = k₂.mem) : Booking pid m a m'
  /-- Another process ends. -/
  | exitSeen {a : Act} {i : Nat} {code : Int} {m' : Machine}
      (hs : ExitSeen pid i code m.k m'.k) : Booking pid m a m'
  /-- The process ends. -/
  | ended {a : Act} {p' : Process} {m' : Machine} (hp' : m'.k.processes[pid]? = some p')
      (hdead : p'.live = false) : Booking pid m a m'

section Steps

variable {L : Layout} {own : Nat → Owner} {m m' : Machine} {a : Act} {pid i : Nat} {p q : Process}
  {k k' : Kernel}

/-- A change of the tables that parks nothing. -/
theorem Unbooked.modify {f : Process → Process} (hf : ∀ p : Process, (f p).parking = p.parking)
    (htrace : k'.trace = k.trace) (hps : k'.processes = k.processes.modify i f) :
    Unbooked pid k k' := by
  refine .of_trace htrace (parkedFor_congr fun j ↦ ?_)
  rw [hps]
  by_cases hj : i = j
  · subst hj
    rw [List.getElem?_modify_eq]
    cases k.processes[i]? with
    | none => rfl
    | some p => exact congrArg some (hf p)
  · rw [List.getElem?_modify_ne f k.processes hj]

theorem Unbooked.schedule (pid : Nat) (k : Kernel) : Unbooked pid k k.schedule :=
  .of_eq k.schedule_trace k.schedule_processes

/-- The wait loop of `enter`, of whatever process. -/
theorem Unbooked.enterWait (pid : Nat) (hu : AtUser k i q) (ringPa minComplete : Nat) :
    Unbooked pid k ({ m with k := k }.enterWait i ringPa minComplete).k ∧
      ({ m with k := k }.enterWait i ringPa minComplete).k.mem = k.mem := by
  rcases enterWait_cases (m := { m with k := k }) hu ringPa minComplete with ⟨-, he⟩ | ⟨-, he⟩
  · rw [he]
    exact ⟨.refl pid k, rfl⟩
  · rw [he]
    have hset : Unbooked pid k { k with
        processes := Processes.setWaiter k.processes i (taskOf i)
        sched := k.sched.markBlocked } :=
      .modify (f := fun p ↦ { p with ringWaiter := some (taskOf i) }) (fun _ ↦ rfl) rfl rfl
    refine ⟨hset.trans (.schedule ..), ?_⟩
    show (Kernel.schedule _).mem = _
    rw [Kernel.schedule_eq]

/-- Going to sleep, or on. -/
theorem Booking.scheduled (hu : Unbooked pid m.k k) (hmem : k.mem = m.k.mem)
    (hk : m'.k = k.schedule) : Booking pid m a m' := by
  refine .aside (by rw [hk]; exact hu.trans (.schedule ..)) fun _ p _ _ ↦ ?_
  rw [hk, Kernel.schedule_eq]
  show SameCounters p.ringPa m.k.mem k.mem
  rw [hmem]
  exact .refl ..

/-- Neither tables nor memory nor history change. -/
theorem Booking.of_eq (hps : m'.k.processes = m.k.processes) (htrace : m'.k.trace = m.k.trace)
    (hmem : m'.k.mem = m.k.mem) : Booking pid m a m' :=
  .aside (.of_eq htrace hps) fun _ p _ _ ↦ hmem ▸ .refl p.ringPa m.k.mem

/-- The poller's steps. -/
theorem MemOk.booking_poller (hmem : MemOk L m) (hctl : Ctl m) {l' : Poller}
    (hmove : PollerMove m.k m.poller k' l') :
    Booking pid m .run { m with k := k', poller := l' } := by
  obtain ⟨own, hinv⟩ := hmem.inv
  have hrings := Rings.of_inv hinv
  cases hmove with
  | record hpc => exact .of_eq rfl rfl rfl
  | scanActivate hpc =>
    exact .of_eq (Kernel.activate_processes ..) (Kernel.activate_trace ..)
      (by rw [Kernel.activate_eq])
  | @scanDrain n i k' hpc hd =>
    by_cases hi : i = pid
    · subst hi
      exact .drained hpc hd
    · refine .aside (.drain hi hrings hd) fun hoff ↦ ?_
      obtain ⟨q, hq⟩ := drain_entry hd
      by_cases hne : q.ringPa = 0
      · obtain rfl := drain_of_no_ring (fun hq' ↦ by rw [hq] at hq'; cases hq'; exact hne) hd
        exact (Bystander.refl pid m.k).counters
      · obtain ⟨rid, hr⟩ := hmem.root.drain hpc hq (hctl.orderly.live_of_ring hq hne)
        obtain ⟨own', -, hc⟩ := hinv.drain hq hr hd
        exact (hinv.bystander_confined hi hq hne (hoff hq) hc).counters
  | worked hpc hk =>
    rcases hk with rfl | rfl
    · exact .of_eq rfl rfl rfl
    · exact .of_eq rfl rfl rfl
  | @flagsStore on n i ringPa after hpc =>
    refine .aside (.ringStore ..) fun _ p hp hring ↦ ?_
    by_cases hpa : ringPa = p.ringPa
    · subst hpa
      exact .flags p.ringPa m.k.mem (Machine.flagValue on)
    · obtain ⟨hm, -⟩ := hmem.target ringPa (by rw [hpc]; rfl)
      exact .of_eqOn (eqOn_frameAt hm.aligned (hinv.ofRing hp hring).1.aligned hpa
        (m.k.ringStore_eqOn (by decide)))
  | block hpc =>
    exact .scheduled (k := { m.k with sched := m.k.sched.markBlocked }) (.of_eq rfl rfl) rfl rfl
  | yield hpc => exact .scheduled (.refl pid m.k) rfl rfl
  | _ => exact .of_eq rfl rfl rfl

/-- `enter` may lower the flag and wake the poller. -/
theorem Unbooked.lowered {k k₁ : Kernel} {ringPa : Nat}
    (hk₁ : k₁ = k ∨ k₁ = k.ringStore ringPa offFlags 4 0 ∨
      k₁ = (k.ringStore ringPa offFlags 4 0).wake pollerTask) : Unbooked pid k k₁ := by
  rcases hk₁ with rfl | rfl | rfl
  · exact .refl ..
  · exact .ringStore ..
  · exact (Unbooked.ringStore ..).trans (.of_eq rfl rfl)

/-- Another process submits. -/
theorem MemOk.unbooked_enterSubmit (hmem : MemOk L m) (hctl : Ctl m) (hu : AtUser m.k i q)
    (hi : i ≠ pid) (hs : m.k.enterSubmit i q.ringPa = some k') : Unbooked pid m.k k' := by
  obtain ⟨own, hinv⟩ := hmem.inv
  obtain ⟨k₁, hk₁, hd, -⟩ := hctl.orderly.enterSubmit (hctl.idle hu).2 hu.entry hs
  have hrings := Rings.of_inv hinv
  have hps₁ : k₁.processes = m.k.processes := by rcases hk₁ with rfl | rfl | rfl <;> rfl
  exact (Unbooked.lowered hk₁).trans (.drain hi (hrings.of_eq hps₁) hd)

/-- The UART interrupt. -/
theorem Ctl.booking_uart (hctl : Ctl m) (hinv : Inv False L own m.k) {bytes : List UInt8}
    (hs : Machine.uartIrq m.k bytes = some k') :
    Booking pid m (.uart bytes) { m with k := k' } := by
  rcases hctl.uart_move hs with ⟨input, uart⟩ |
    @⟨input, uart, i, i₁, i₃, q, k₂, completed, hfg, hq, hne, hloop⟩
  · exact .of_eq rfl rfl rfl
  have hafter : Unbooked pid k₂ { k₂ with
      installed := i₃
      ttbr0 := m.k.ttbr0
      processes := if completed then (Processes.takeWaiter k₂.processes i).2 else k₂.processes
      sched := if completed
        then k₂.sched.wakeWaiter (Processes.takeWaiter k₂.processes i).1 else k₂.sched } := by
    cases completed with
    | false => exact .of_eq rfl rfl
    | true => exact .modify (f := fun p ↦ { p with ringWaiter := none }) (fun _ ↦ rfl) rfl rfl
  by_cases hi : i = pid
  · subst hi
    exact .polled hfg hq hne hloop hafter rfl
  · have hrings : Rings { m.k with input, uart, installed := i₁, ttbr0 := q.ttbr0 } :=
      (Rings.of_inv hinv).of_eq rfl
    have hio : Unbooked pid m.k { m.k with input, uart, installed := i₁, ttbr0 := q.ttbr0 } :=
      .of_eq rfl rfl
    refine .aside ((hio.trans (.pollPendingFrom hi hrings hq hne hloop)).trans hafter) fun hoff ↦ ?_
    have h₂ : Inv False L own { m.k with input, uart, installed := i₁, ttbr0 := q.ttbr0 } :=
      hinv.of_mem_eq ⟨rfl, fun _ ↦ rfl, rfl, rfl, rfl⟩ rfl
    obtain ⟨-, hc⟩ := h₂.pollPendingFrom hq hne
      (Inv.root_of_live hq (hctl.orderly.live_of_ring hq hne)) hfg hloop
    have hb : Bystander pid { m.k with input, uart, installed := i₁, ttbr0 := q.ttbr0 } k₂ :=
      h₂.bystander_confined hi hq hne (hoff hq) hc
    exact fun _ hp hring ↦ hb.counters hp hring

/-- **What a step is in the books of a process.** -/
theorem booking_of_move (hctl : Ctl m) (hmem : MemOk L m) (pid : Nat) (hm : Move m a m') :
    Booking pid m a m' := by
  obtain ⟨own, hinv⟩ := hmem.inv
  have ho := hctl.orderly
  have hrings := Rings.of_inv hinv
  have hroot : ∀ {i : Nat} {q : Process}, AtUser m.k i q →
      m.k.roots (some i) = some m.k.ttbr0 := by
    intro i q hu
    exact hu.rooted
  cases hm with
  | @create image root s₁ s₂ loaded frames hcur hpc himage hroot hspace =>
    -- before the shell has its task there is no ring
    refine .aside (.of_trace rfl (parkedFor_concat _ (parked_fresh rfl) rfl)) fun _ p hp hring ↦ ?_
    rcases hctl.kmain.early with ⟨hidle, -⟩ | ⟨-, hno⟩
    · rw [hpc] at hidle
      cases hidle
    · exact absurd (hno hp) hring
  | @foreground p0 hcur hpc =>
    exact .aside (.modify (f := fun p ↦ { p with foreground := true }) (fun _ ↦ rfl) rfl rfl)
      fun _ p _ _ ↦ .refl p.ringPa m.k.mem
  | spawnJsh hcur hpc hp => exact .of_eq rfl rfl rfl
  | idle hcur hpc => exact .scheduled (.refl pid m.k) rfl rfl
  | poller hcur hmove => exact hmem.booking_poller hctl hmove
  | start hu hpc => exact .of_eq rfl rfl rfl
  | @retest i ringPa minComplete q hu hpc =>
    obtain ⟨hb, hmem'⟩ := Unbooked.enterWait (m := m) pid hu ringPa minComplete
    exact .aside hb fun _ p _ _ ↦ hmem' ▸ .refl p.ringPa m.k.mem
  | @store i va n v q k' hu hpc hs =>
    by_cases hi : i = pid
    · subst hi
      exact .store hu hs
    · refine .aside ?_ fun _ ↦ (hinv.bystander_store hi (hroot hu) hs).counters
      obtain ⟨pa, rfl⟩ := Machine.userStore_cases hs
      exact .of_eq rfl rfl
  | @setup i q k' hu hpc hs =>
    rcases hinv.setupRing hu.entry hu.live hs with ⟨-, rfl⟩ | ⟨hzero, own', frame, phys, hk', -⟩
    · exact .of_eq rfl rfl rfl
    · by_cases hi : i = pid
      · subst hi
        exact .setup hu hzero hs
      · refine .aside (.modify (i := i) (f := fun p ↦
            { p with ringPa := frame, frames := p.frames ++ [(userRingVa, frame)] })
          (fun _ ↦ rfl) (by rw [hk']) (by rw [hk']; rfl)) fun _ ↦ ?_
        exact (hinv.bystander_setup hi hu.entry hu.live hs).counters
  | enterNothing hu hpc hno => exact .of_eq rfl rfl rfl
  | @enter i minComplete q k' hu hpc hne hs =>
    by_cases hi : i = pid
    · subst hi
      exact .entered hu hne hs
    · obtain ⟨-, q', hu', -⟩ := Proceeds.enterSubmit ho hctl.running (hctl.idle hu).2 hu hs
      obtain ⟨hb, hmem'⟩ := Unbooked.enterWait (m := m) pid hu' q.ringPa minComplete
      refine .aside ((hmem.unbooked_enterSubmit hctl hu hi hs).trans hb) fun hoff p hp hring ↦ ?_
      rw [hmem']
      exact (hmem.bystander_enterSubmit hctl hu hne (hoff hu.entry) hi hs).counters hp hring
  | @exit u i code q report k' hact hu hpc ht =>
    have hu₀ := hu.kprintln report
    have hne := ho.parent_ne hu.entry
    by_cases hi : i = pid
    · subst hi
      have hhusk : k'.taskExit.processes[i]? = some (q.husk code) := by
        obtain ⟨k₁, msg, hrep, rfl⟩ := Kernel.teardown_cases hu₀.entry hne ht
        rw [Kernel.taskExit, Kernel.schedule_processes]
        show (Kernel.activate _ _).processes[i]? = _
        rw [Kernel.activate_processes]
        exact hrep.getElem?_husk hu₀.entry hne
      exact .ended hhusk rfl
    · have hseen := (hinv.kprintln report).exitSeen (.of_inv (hinv.kprintln report)) hi hu₀.entry
        hu.live hne hu₀.root ht
      exact .exitSeen hseen.of_kprintln
  | tick hmask =>
    exact .scheduled (k := { m.k with
      ticks := (m.k.ticks + 1) % 2 ^ 64
      sched := m.k.sched.wakeSleepers ((m.k.ticks + 1) % 2 ^ 64) }) (.of_eq rfl rfl) rfl rfl
  | uart hmask hs => exact hctl.booking_uart hinv hs

end Steps

/-! ## Where a ring comes from -/

/-- If `pid` has a ring afterwards, it had it before. -/
structure RingBefore (pid : Nat) (k k' : Kernel) : Prop where
  entry : ∀ {p' : Process}, k'.processes[pid]? = some p' → p'.ringPa ≠ 0 →
    ∃ p, k.processes[pid]? = some p ∧ p.ringPa = p'.ringPa

namespace RingBefore

variable {pid i : Nat} {k k' k'' : Kernel}

theorem trans (h : RingBefore pid k k') (h' : RingBefore pid k' k'') : RingBefore pid k k'' := by
  refine ⟨fun hp'' hne ↦ ?_⟩
  obtain ⟨p', hp', hring'⟩ := h'.entry hp'' hne
  obtain ⟨p, hp, hring⟩ := h.entry hp' (hring' ▸ hne)
  exact ⟨p, hp, hring.trans hring'⟩

theorem of_eq (hps : k'.processes = k.processes) : RingBefore pid k k' :=
  ⟨fun {p'} hp' _ ↦ ⟨p', hps ▸ hp', rfl⟩⟩

theorem modify {f : Process → Process} (hf : ∀ p : Process, (f p).ringPa = p.ringPa)
    (hps : k'.processes = k.processes.modify i f) : RingBefore pid k k' := by
  refine ⟨fun {p'} hp' _ ↦ ?_⟩
  rw [hps] at hp'
  by_cases hi : i = pid
  · subst hi
    rw [List.getElem?_modify_eq] at hp'
    obtain ⟨p, hp, rfl⟩ := Option.map_eq_some_iff.mp hp'
    exact ⟨p, hp, (hf p).symm⟩
  · rw [List.getElem?_modify_ne f k.processes hi] at hp'
    exact ⟨p', hp', rfl⟩

theorem served (h : Served i k k') : RingBefore pid k k' := by
  refine ⟨fun {p'} hp' hne ↦ ?_⟩
  rcases Nat.lt_or_ge pid k.processes.length with hlt | hge
  · obtain ⟨q, hq, ht⟩ := h.entries (List.getElem?_eq_getElem hlt)
    obtain rfl := Option.some.inj (hp'.symm.trans hq)
    exact ⟨_, List.getElem?_eq_getElem hlt, by rw [ht.rest]⟩
  · rw [(h.fresh hge hp').fresh] at hne
    exact absurd rfl hne

theorem enterWait {m : Machine} {q : Process} (hu : AtUser k i q) (ringPa minComplete : Nat) :
    RingBefore pid k ({ m with k := k }.enterWait i ringPa minComplete).k := by
  rcases enterWait_cases (m := { m with k := k }) hu ringPa minComplete with ⟨-, he⟩ | ⟨-, he⟩
  · rw [he]
    exact of_eq rfl
  · rw [he]
    exact modify (f := fun p ↦ { p with ringWaiter := some (taskOf i) }) (fun _ ↦ rfl)
      (Kernel.schedule_processes _)

/-- Process `i` ends; it has no ring any more. -/
theorem exit {q : Process} {code : Int} (hq : k.processes[i]? = some q) (hne : q.parent ≠ some i)
    (ht : k.teardown i code = some k') : RingBefore pid k k' := by
  obtain ⟨k₁, msg, hrep, rfl⟩ := Kernel.teardown_cases hq hne ht
  rw [Kernel.activate_eq]
  refine ⟨fun {p'} hp' hring ↦ ?_⟩
  have hp'' : (k₁.processes.set i (q.husk code))[pid]? = some p' := hp'
  by_cases hi : pid = i
  · subst hi
    rw [hrep.getElem?_husk hq hne] at hp''
    obtain rfl := Option.some.inj hp''
    exact absurd rfl hring
  · have hmap := hrep.map_of_ne Process.ringPa (fun _ ↦ rfl) hi
    rw [hp'', Option.map_some] at hmap
    exact Option.map_eq_some_iff.mp hmap.symm

end RingBefore

/-- **A process that has a ring had it before the step**, or has just set it up. -/
theorem ring_of_move {L : Layout} {m m' : Machine} {a : Act} (pid : Nat) (hctl : Ctl m)
    (hmem : MemOk L m) (hm : Move m a m') : RingBefore pid m.k m'.k ∨
      ∃ p k', a = .user .setup ∧ AtUser m.k pid p ∧ p.ringPa = 0 ∧
        m.k.setupRing pid = some k' ∧ m' = { m with k := k' } := by
  obtain ⟨own, hinv⟩ := hmem.inv
  have ho := hctl.orderly
  cases hm with
  | @create image root s₁ s₂ loaded frames hcur hpc himage hroot hspace =>
    refine .inl ⟨fun {p'} hp' hne ↦ ?_⟩
    rcases Nat.lt_or_ge pid m.k.processes.length with hlt | hge
    · exact ⟨p', (List.getElem?_append_left hlt).symm.trans hp', rfl⟩
    · have hp' : (m.k.processes ++ [Process.fresh root loaded frames])[pid]? = some p' := hp'
      rw [List.getElem?_append_right hge, List.getElem?_singleton] at hp'
      split_ifs at hp'
      obtain rfl := Option.some.inj hp'
      exact absurd rfl hne
  | foreground hcur hpc =>
    exact .inl (.modify (f := fun p ↦ { p with foreground := true }) (fun _ ↦ rfl) rfl)
  | idle hcur hpc => exact .inl (.of_eq (Kernel.schedule_processes _))
  | poller hcur hmove =>
    cases hmove with
    | scanActivate hpc => exact .inl (.of_eq (Kernel.activate_processes ..))
    | scanDrain hpc hd =>
      obtain ⟨q, hq⟩ := drain_entry hd
      exact .inl (.served (Kernel.drain_served hq hd))
    | worked hpc hk =>
      rcases hk with rfl | rfl
      · exact .inl (.of_eq rfl)
      · exact .inl (.of_eq rfl)
    | block hpc => exact .inl (.of_eq (Kernel.schedule_processes _))
    | yield hpc => exact .inl (.of_eq (Kernel.schedule_processes _))
    | _ => exact .inl (.of_eq rfl)
  | retest hu hpc => exact .inl (.enterWait hu _ _)
  | store hu hpc hs =>
    obtain ⟨pa, rfl⟩ := Machine.userStore_cases hs
    exact .inl (.of_eq rfl)
  | @setup i q k' hu hpc hs =>
    rcases hinv.setupRing hu.entry hu.live hs with ⟨-, rfl⟩ | ⟨hzero, own', frame, phys, hk', -⟩
    · exact .inl (.of_eq rfl)
    · by_cases hi : i = pid
      · subst hi
        exact .inr ⟨q, k', rfl, hu, hzero, hs, rfl⟩
      · refine .inl ⟨fun {p'} hp' _ ↦ ⟨p', ?_, rfl⟩⟩
        rw [hk'] at hp'
        exact (List.getElem?_modify_ne _ m.k.processes hi).symm.trans hp'
  | @enter i minComplete q k' hu hpc hne hs =>
    obtain ⟨-, q', hu', -⟩ := Proceeds.enterSubmit ho hctl.running (hctl.idle hu).2 hu hs
    obtain ⟨k₁, hk₁, -, hserved, -⟩ := ho.enterSubmit (hctl.idle hu).2 hu.entry hs
    have hfirst : RingBefore pid m.k k₁ := by rcases hk₁ with rfl | rfl | rfl <;> exact .of_eq rfl
    exact .inl ((hfirst.trans (.served hserved)).trans (.enterWait hu' _ _))
  | @exit u i code q report k' hact hu hpc ht =>
    have hne := ho.parent_ne hu.entry
    have hprint : RingBefore pid m.k (m.k.kprintln report) := .of_eq rfl
    exact .inl ((hprint.trans (.exit (hu.kprintln report).entry hne ht)).trans
      (.of_eq (Kernel.schedule_processes _)))
  | tick hmask => exact .inl (.of_eq (Kernel.schedule_processes _))
  | uart hmask hs =>
    rcases hctl.uart_move hs with ⟨input, uart⟩ |
      @⟨input, uart, i, i₁, i₃, q, k₂, completed, hfg, hq, hne, hloop⟩
    · exact .inl (.of_eq rfl)
    have hserved := Kernel.pollPendingFrom_served
      (k := { m.k with input, uart, installed := i₁, ttbr0 := q.ttbr0 }) hq hfg hloop
    have hio : RingBefore pid m.k { m.k with input, uart, installed := i₁, ttbr0 := q.ttbr0 } :=
      .of_eq rfl
    have hbefore := hio.trans (.served hserved)
    cases completed with
    | false => exact .inl (hbefore.trans (.of_eq rfl))
    | true =>
      exact .inl (hbefore.trans
        (.modify (f := fun p ↦ { p with ringWaiter := none }) (fun _ ↦ rfl) rfl))
  | _ => exact .inl (.of_eq rfl)

/-! ## The accounts in every run -/

/-- Process `pid` has not exited; there may be none yet. -/
def Kernel.NotExited (k : Kernel) (pid : Nat) : Prop :=
  ∀ p, k.processes[pid]? = some p → p.live = true

theorem Kernel.NotExited.of_evolves {k k' : Kernel} {pid : Nat} (h : k'.NotExited pid)
    (hev : k.Evolves k') : k.NotExited pid := by
  intro p hp
  obtain ⟨p', hp', he⟩ := hev.entries hp
  exact he.live (h p' hp')

/-- **The books of `pid`**: its accounts, and that they are empty as long as it has no ring. -/
structure Booked (k : Kernel) (pid : Nat) : Prop where
  balanced : k.Balanced pid 0
  unused : (∀ p, k.processes[pid]? = some p → p.ringPa = 0) → consumed pid k.trace = 0

namespace Booked

variable {L : Layout} {m m' : Machine} {a : Act} {pid : Nat} {k : Kernel} {p : Process}

/-- Nothing is parked for a process without a ring. -/
theorem parked_eq_zero (h : Booked k pid) (hp : k.processes[pid]? = some p)
    (hring : p.ringPa = 0) : parkedFor pid k.processes = 0 := by
  have hcard := h.balanced.card_le
  rw [h.unused fun q hq ↦ Option.some.inj (hp.symm.trans hq) ▸ hring, Multiset.card_zero] at hcard
  exact Multiset.card_eq_zero.mp (by omega)

/-- **One step keeps the books** of a process that does not exit in it. -/
theorem move (h : Booked m.k pid) (hctl : Ctl m) (hmem : MemOk L m) (hm : Move m a m')
    (hx : m'.k.NotExited pid) : Booked m'.k pid := by
  have hev := hctl.evolves hm
  obtain ⟨own, hinv⟩ := hmem.inv
  have hrings := Rings.of_inv hinv
  -- a process does not lose its ring
  have hback : (∀ p', m'.k.processes[pid]? = some p' → p'.ringPa = 0) →
      ∀ p, m.k.processes[pid]? = some p → p.ringPa = 0 := by
    intro hno p hp
    by_contra hring
    obtain ⟨p', hp', he⟩ := hev.entries hp
    exact hring (he.ring (hx p' hp') hring ▸ hno p' hp')
  have hquiet : Unbooked pid m.k m'.k → Booked m'.k pid := fun hu ↦
    ⟨h.balanced.unbooked hu, fun hno ↦ hu.consumed.trans (h.unused (hback hno))⟩
  have hused : ∀ {p : Process}, m.k.processes[pid]? = some p → p.ringPa ≠ 0 →
      m'.k.Balanced pid 0 → Booked m'.k pid := fun hp hring hb ↦
    ⟨hb, fun hno ↦ absurd (hback hno _ hp) hring⟩
  cases booking_of_move hctl hmem pid hm with
  | aside hu hc => exact hquiet hu
  | store hu hs =>
    obtain ⟨pa, rfl⟩ := Machine.userStore_cases hs
    exact hquiet (.of_eq rfl rfl)
  | setup hu hzero hs =>
    rcases hinv.setupRing hu.entry hu.live hs with ⟨hne, -⟩ | ⟨-, own', frame, phys, rfl, -⟩
    · exact absurd hzero hne
    · exact hquiet (.modify (i := pid) (f := fun p ↦
        { p with ringPa := frame, frames := p.frames ++ [(userRingVa, frame)] })
        (fun _ ↦ rfl) rfl rfl)
  | drained hpc hd =>
    refine ⟨h.balanced.drain hrings hd, fun hno ↦ ?_⟩
    rw [drain_of_no_ring (fun hp ↦ hback hno _ hp) hd]
    exact h.unused (hback hno)
  | @entered _ minComplete p k' hu hring hs =>
    obtain ⟨k₁, hk₁, hd, -⟩ := hctl.orderly.enterSubmit (hctl.idle hu).2 hu.entry hs
    obtain ⟨-, p', hu', -⟩ :=
      Proceeds.enterSubmit hctl.orderly hctl.running (hctl.idle hu).2 hu hs
    have hps₁ : k₁.processes = m.k.processes := by rcases hk₁ with rfl | rfl | rfl <;> rfl
    have hb := (h.balanced.unbooked (.lowered hk₁)).drain (hrings.of_eq hps₁) hd
    exact hused hu.entry hring (hb.unbooked (Unbooked.enterWait pid hu' p.ringPa minComplete).1)
  | @polled _ p input uart i₁ completed k₂ _ hfg hp hne hloop hafter hmem' =>
    have hio : Unbooked pid m.k { m.k with input, uart, installed := i₁, ttbr0 := p.ttbr0 } :=
      .of_eq rfl rfl
    have hb := (h.balanced.unbooked hio).pollPendingFrom (hrings.of_eq rfl) hp hne hloop
    exact hused hp hne (hb.unbooked hafter)
  | exitSeen hs =>
    cases hs with
    | aside hu hpage => exact hquiet hu
    | answered hp hparked hring htrace₀ hmem₀ howner htrace hpage =>
      refine hused hp hring (h.balanced.settle _ htrace₀ howner htrace ?_)
      rw [add_zero, add_zero, hparked]
    | lost hp hparked hring =>
      rw [h.parked_eq_zero hp hring] at hparked
      have hcard := congrArg Multiset.card hparked
      rw [Multiset.card_add, Multiset.card_singleton, Multiset.card_zero] at hcard
      omega
  | ended hp' hdead =>
    rw [hx _ hp'] at hdead
    cases hdead

end Booked

/-- **The accounts are in order in every run**, for every process that has not exited: what has been
taken up for it is answered or parked, or is lost to a second wait for the same child. -/
theorem booked_of_reach {programs : List (String × List UInt8)} {ok : Machine → Act → Prop}
    {m : Machine} (hprog : ∀ q ∈ programs, Elf.InUserSlot q.2)
    (h : (machine programs).Reach ok m) {pid : Nat} (hx : m.k.NotExited pid) : Booked m.k pid := by
  refine h.invariant_of (J := fun m ↦ Ctl m ∧ ∃ L, MemOk L m)
    (I := fun m ↦ m.k.NotExited pid → Booked m.k pid)
    (fun _ h ↦ ⟨ctl_of_reach h, memOk_of_reach hprog h⟩) ?_ ?_ hx
  · rintro m ⟨mem, kernelEnd, ticks, k, -, hb, rfl⟩ -
    have hfresh := bootKernel_fresh hb
    have htrace : (bootMachine k).k.trace = [] := hfresh.trace
    have hps : (bootMachine k).k.processes = [] := hfresh.processes
    refine ⟨⟨⟨0, ?_, fun _ ↦ rfl⟩, fun x hx ↦ ?_⟩, fun _ ↦ by rw [htrace]; rfl⟩
    · rw [htrace, hps]
      rfl
    · rw [htrace] at hx
      exact absurd hx (Multiset.notMem_zero x)
  · rintro m a m' ⟨hctl, L, hmem⟩ hI - hs hx
    have hm := step_cases hctl.orderly hctl.running hs
    exact (hI (hx.of_evolves (hctl.evolves hm))).move hctl hmem hm hx

end Jatuli

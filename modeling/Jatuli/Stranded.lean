import Jatuli.MemoryRuns
import Jatuli.Stream

/-!
# No input is stranded behind a parked read

While the foreground process has a read parked there is nothing in the input ring
(`parked_ring_empty`): a read is parked only when the ring has run empty under it, and what comes in
later is offered to the parked reads in the same interrupt.

This does not depend on the space a ring is drained in.  The poller may be preempted between
installing the space of a process and draining its ring, and the entries are then carried out in
another one (`sqe_in_foreign_space`); the bytes may go to the wrong place, but they leave the ring.
So the result is proved for the runs of the machine as well as for the kernel at work, from what
their steps do with reads (`ReadMove`).
-/

set_option autoImplicit false

namespace Jatuli

/-! ## The invariant -/

section Calm

variable {k k' : Kernel} {q : Process}

/-- Nothing is in the input ring while the foreground process has a read parked. -/
def Kernel.CalmReader (k : Kernel) : Prop :=
  ∀ q, k.processes[0]? = some q → q.loaded.NoOverlap → (k.reader 0 q).Calm

/-- A process whose parked reads have gone, or that is not in the foreground, is calm. -/
theorem calm_of_not_parked (hnone : ∀ j : Fin maxPending, getElem q.pending j j.isLt = none) :
    (k.reader 0 q).Calm := .inr hnone

theorem calm_of_background (hq : k.processes[0]? = some q) (hfg : q.foreground = false) :
    (k.reader 0 q).Calm := by
  rw [reader_zero hq, hfg]
  exact .inl rfl

/-- Reads that are accepted take the first byte. -/
theorem Loaded.NoOverlap.first {l : Loaded} (h : l.NoOverlap) {r : Pending}
    (hr : (readRules l).accepts r) : (readRules l).first r :=
  (readRules l).first_of_all r hr (h.all hr)

theorem Kernel.CalmReader.move (h : k.CalmReader) (hread : ReadInv k) (hs : ReadMove k k') :
    k'.CalmReader := by
  intro q' hq' hseg
  cases hs with
  | unread hu =>
    rcases hu.cases hq' with ⟨q, hq, hl, ⟨hpend, hfg, -⟩ | ⟨-, hfg, -⟩⟩ | ⟨-, hnew⟩
    · have hcalm := h q hq (hl ▸ hseg)
      rwa [reader_zero hq, ← hpend, ← hfg, ← hu.input, ← reader_zero hq'] at hcalm
    · exact calm_of_background hq' hfg
    · exact calm_of_not_parked hnew.not_parked
  | @foreground p hp hl hring hp' =>
    rw [hp'] at hq'
    obtain rfl := Option.some.inj hq'
    have hp₀ : k.processes[0]? = some p := by rw [hp]; rfl
    exact .inr (hread.not_parked hp₀ hring)
  | @drain pid p p' es hp hp' ht hring hin hsteps =>
    rcases ht.cases hq' with ⟨q, hq, hl, hfg, -, -, hpend⟩ | ⟨-, hnew⟩
    · by_cases hpid : pid = 0
      · subst hpid
        obtain rfl := Option.some.inj (hp.symm.trans hq)
        obtain rfl := Option.some.inj (hp'.symm.trans hq')
        rw [hl] at hseg
        exact hsteps.calm (h p hp hseg) fun j r t ht ↦ hseg.first (hsteps.flow.accepts j r t ht)
      · rw [reader_of_other hq hq' hfg (hpend (Ne.symm hpid)) hpid hin]
        exact h q hq (hl ▸ hseg)
    · exact calm_of_not_parked hnew.not_parked
  | receive hps hno =>
    rw [hps] at hq'
    by_cases hfg : q'.foreground = true
    · -- a foreground process without a ring has nothing parked
      exact calm_of_not_parked
        (hread.not_parked hq' (hno ((foregroundPid_zero hq').mpr hfg) hq'))
    · exact calm_of_background (hps ▸ hq') (Bool.not_eq_true _ ▸ hfg)
  | @poll pid p p' bytes es hfg hp hring hp' ht hscan =>
    obtain rfl := hread.foregroundPid hfg
    obtain rfl := Option.some.inj (hp'.symm.trans hq')
    rcases ht.cases hq' with ⟨q, hq, hl, hfg', -⟩ | ⟨-, hnew⟩
    · obtain rfl := Option.some.inj (hp.symm.trans hq)
      rw [hl] at hseg
      have hcalm := hscan.calmBelow fun j r hr ↦ hseg.first (hread.parked hp j r hr).2
      rw [reader_zero hq', hfg', (foregroundPid_zero hp).mp hfg]
      exact Parked.State.calm_iff.mpr hcalm
    · exact calm_of_not_parked hnew.not_parked

end Calm

/-! ## The steps of the machine -/

section Machine

variable {L : Layout} {k k' : Kernel} {m m' : Machine} {a : Act} {pid : Nat} {p : Process}

theorem Idled.unread (h : Idled k k') : AllUnread k k' :=
  .of_processes h.input (by rw [h.trace]) h.processes

/-- Draining a ring, in whatever space. -/
theorem Kernel.drain_reads (hd : k.drain pid = some k') : ReadMove k k' := by
  obtain ⟨p, hp⟩ := drain_entry hd
  obtain ⟨p', es, hp', -, hsteps⟩ := drain_steps hp hd
  have hserved := drain_served hp hd
  by_cases hring : p.ringPa = 0
  · obtain rfl := drain_of_no_ring (fun hq ↦ Option.some.inj (hp.symm.trans hq) ▸ hring) hd
    exact .unread (.of_processes rfl List.suffix_rfl rfl)
  · exact .drain hp hp' hserved.reread (fun h ↦ absurd h hring)
      (fun hfg ↦ of_not_not fun hne ↦ hfg (hserved.input hne)) hsteps

theorem PollerMove.reads {l l' : Poller} (h : PollerMove k l k' l') : ReadMove k k' := by
  cases h with
  | scanDrain hpc hd => exact Kernel.drain_reads hd
  | record hpc => exact .unread (.of_processes rfl List.suffix_rfl rfl)
  | scanActivate hpc => exact .unread (.activate ..)
  | worked hpc hk =>
    rcases hk with rfl | rfl
    · exact .unread (.of_processes rfl List.suffix_rfl rfl)
    · exact .unread (.of_processes rfl List.suffix_rfl rfl)
  | flagsStore hpc => exact .unread (.of_processes rfl (List.suffix_cons _ _) rfl)
  | block hpc =>
    have hidle := ({ k with sched := k.sched.markBlocked } : Kernel).schedule_idled
    exact .unread (.of_processes hidle.input (by rw [Kernel.blockCurrent, hidle.trace])
      hidle.processes)
  | yield hpc => exact .unread k.schedule_idled.unread
  | _ => exact .unread (.of_processes rfl List.suffix_rfl rfl)

/-- The wait loop of `enter` reads nothing. -/
theorem AllUnread.enterWait (hu : AtUser m.k pid p) (ringPa minComplete : Nat) :
    AllUnread m.k (m.enterWait pid ringPa minComplete).k := by
  rcases enterWait_cases hu ringPa minComplete with ⟨-, he⟩ | ⟨-, he⟩
  · rw [he]
    exact .of_processes rfl List.suffix_rfl rfl
  · rw [he]
    have hidle := Kernel.schedule_idled { m.k with
      processes := Processes.setWaiter m.k.processes pid (taskOf pid)
      sched := m.k.sched.markBlocked }
    exact .modify (f := fun q ↦ { q with ringWaiter := some (taskOf pid) })
      (fun q (_ : m.k.processes[pid]? = some q) ↦ ⟨rfl, .inl ⟨rfl, rfl, rfl, fun _ ↦ rfl⟩⟩)
      hidle.input (by rw [Kernel.blockCurrent, hidle.trace]) hidle.processes

/-- The UART interrupt. -/
theorem MemOk.uart_reads (h : MemOk L m) (hctl : Ctl m) (hread : ReadInv m.k) {bytes : List UInt8}
    (hs : Machine.uartIrq m.k bytes = some k') : ReadMove m.k k' := by
  rw [uartIrq_eq] at hs
  obtain ⟨own, hinv⟩ := h.inv
  have hq := received_quiet m.k bytes
  have hinv₁ : Inv False L own (m.k.received bytes) := hinv.of_mem_eq (.of_quiet hq) rfl
  rcases hinv₁.poll_reads (hctl.orderly.quiet hq).synced ⟨hread.first, hread.parked⟩ hs with
    ⟨rfl, -, hno⟩ | ⟨pid, p, p', hfg, hp, hring, hp', ht, hscan, -⟩
  · exact .receive rfl hno
  · exact .poll hfg hp hring hp' ⟨ht.old, ht.new⟩ hscan

/-- **What a step of the machine does with reads** is one or a few of the moves. -/
theorem MemOk.reads (h : MemOk L m) (hctl : Ctl m) (hread : ReadInv m.k) (hm : Move m a m') :
    Relation.ReflTransGen ReadMove m.k m'.k := by
  have hone : ∀ {k' : Kernel}, AllUnread m.k k' → Relation.ReflTransGen ReadMove m.k k' :=
    fun hu ↦ .single (.unread hu)
  cases hm with
  | @create image root s₁ s₂ loaded frames hcur hpc himage hroot hspace =>
    exact hone (.append (q := .fresh root loaded frames) ⟨rfl, rfl⟩ rfl List.suffix_rfl rfl)
  | foreground hcur hpc =>
    have hk := hctl.kmain
    rw [hpc] at hk
    obtain ⟨-, rfl, p, hps, hring, hl⟩ := hk
    refine .single (.foreground hps hl hring ?_)
    show Processes.setForeground m.k.processes 0 true = _
    rw [hps]
    rfl
  | spawnJsh hcur hpc hp => exact hone (.of_processes rfl List.suffix_rfl rfl)
  | idle hcur hpc => exact hone m.k.schedule_idled.unread
  | poller hcur hmove => exact .single hmove.reads
  | start hu hpc => exact hone (.of_processes rfl List.suffix_rfl rfl)
  | retest hu hpc => exact hone (.enterWait hu _ _)
  | store hu hpc hs =>
    rw [Machine.userStore, Option.ite_none_right_eq_some] at hs
    obtain ⟨pa, -, rfl⟩ := Option.map_eq_some_iff.mp hs.2
    exact hone (.of_processes rfl List.suffix_rfl rfl)
  | @setup pid p k' hu hpc hs =>
    obtain ⟨own, hinv⟩ := h.inv
    rcases hinv.setupRing hu.entry hu.live hs with ⟨-, rfl⟩ | ⟨hring, own', frame, phys, rfl, -⟩
    · exact .refl
    · refine hone (.modify
        (f := fun q ↦ { q with ringPa := frame, frames := q.frames ++ [(userRingVa, frame)] })
        (fun q (hq : m.k.processes[pid]? = some q) ↦ ?_) rfl List.suffix_rfl rfl)
      obtain rfl := Option.some.inj (hu.entry.symm.trans hq)
      exact ⟨rfl, .inl ⟨rfl, rfl, rfl, fun hne ↦ absurd hring hne⟩⟩
  | enterNothing hu hpc hring => exact .refl
  | @enter pid minComplete p k' hu hpc hring hs =>
    have hstaff := (hctl.idle hu).2
    obtain ⟨-, p', hu', -⟩ := Proceeds.enterSubmit hctl.orderly hctl.running hstaff hu hs
    obtain ⟨k₁, hk₁, hd, -⟩ := hctl.orderly.enterSubmit hstaff hu.entry hs
    have hflags : AllUnread m.k k₁ := by
      rcases hk₁ with rfl | rfl | rfl
      · exact .of_processes rfl List.suffix_rfl rfl
      · exact .of_processes rfl (List.suffix_cons _ _) rfl
      · exact .of_processes rfl (List.suffix_cons _ _) rfl
    have hwait : AllUnread k' ({ m with k := k' }.enterWait pid p.ringPa minComplete).k :=
      .enterWait (m := { m with k := k' }) hu' _ _
    exact ((hone hflags).tail (Kernel.drain_reads hd)).tail (.unread hwait)
  | @exit u pid code p report k' hact hu hpc ht =>
    have hne := hctl.orderly.parent_ne hu.entry
    have hreport : AllUnread m.k (m.k.kprintln report) := .of_processes rfl List.suffix_rfl rfl
    have hleave := ({ k' with sched := k'.sched.markExited } : Kernel).schedule_idled
    have hend : AllUnread k' k'.taskExit :=
      .of_processes hleave.input (by rw [Kernel.taskExit, hleave.trace]) hleave.processes
    exact ((hone hreport).tail
      (.unread (Kernel.teardown_unread (hu.kprintln report).entry hne ht))).tail
      (.unread hend)
  | tick hmask =>
    obtain ⟨k₁, hk₁⟩ : ∃ k₁ : Kernel, k₁ = { m.k with
      ticks := (m.k.ticks + 1) % 2 ^ 64
      sched := m.k.sched.wakeSleepers ((m.k.ticks + 1) % 2 ^ 64) } := ⟨_, rfl⟩
    have hcount : AllUnread m.k k₁ := by
      rw [hk₁]
      exact .of_processes rfl List.suffix_rfl rfl
    have hnext : m.k.tick = k₁.schedule := by rw [hk₁]; rfl
    exact (hone hcount).tail (.unread (hnext ▸ k₁.schedule_idled.unread))
  | uart hmask hs => exact .single (h.uart_reads hctl hread hs)

end Machine

/-! ## All runs -/

section Runs

variable {programs : List (String × List UInt8)} {k k' : Kernel}

theorem calm_of_moves (hs : Relation.ReflTransGen ReadMove k k') (h : ReadInv k ∧ k.CalmReader) :
    ReadInv k' ∧ k'.CalmReader := by
  induction hs with
  | refl => exact h
  | tail _ hmove ih => exact ⟨ih.1.move hmove, ih.2.move ih.1 hmove⟩

theorem calm_of_none (h : k.processes = []) : ReadInv k ∧ k.CalmReader :=
  ⟨⟨by simp [h], by simp [h]⟩, fun q hq ↦ by rw [h] at hq; cases hq⟩

theorem calm_of_serve (hprog : ∀ q ∈ programs, Elf.InUserSlot q.2)
    (h : (serve programs).Reach ServeOp.Linked k) : ReadInv k ∧ k.CalmReader := by
  refine h.invariant_of (fun s hs ↦ lifeInv_of_serve hprog hs)
    (fun k hinit ↦ calm_of_none (serve_init hinit).1) ?_
  rintro k op k' ⟨L, hlife⟩ hcalm - hs
  exact calm_of_moves (.single (hlife.readStep hcalm.1 hs).move) hcalm

theorem calm_of_machine (hprog : ∀ q ∈ programs, Elf.InUserSlot q.2) {ok : Machine → Act → Prop}
    {m : Machine} (h : (machine programs).Reach ok m) : ReadInv m.k ∧ m.k.CalmReader := by
  refine h.invariant_of (I := fun m ↦ ReadInv m.k ∧ m.k.CalmReader)
    (fun m hm ↦ And.intro (ctl_of_reach hm) (memOk_of_reach hprog hm)) ?_ ?_
  · rintro m ⟨mem, kernelEnd, ticks, k, -, hb, rfl⟩
    exact calm_of_none (bootKernel_fresh hb).processes
  · rintro m a m' ⟨hctl, L, hmem⟩ hcalm - hs
    exact calm_of_moves (hmem.reads hctl hcalm.1 (step_cases hctl.orderly hctl.running hs)) hcalm

/-- The first process has submitted a read of 16 bytes, and nothing has come in. -/
theorem exists_parked_serve : ∃ k p, (serve []).Reach ServeOp.Linked k ∧
    Processes.foregroundPid k.processes = some 0 ∧ k.processes[0]? = some p ∧
    p.loaded.NoOverlap ∧ p.pending[(0 : Fin maxPending)] = some ⟨userStackVa, 16, 7⟩ := by
  have hlinked : ∀ (x : Kernel × ReadLog) (op : ServeOp), op.Linked x.1 → op.Linked x.1 :=
    fun _ _ hop ↦ hop
  obtain ⟨k₀, p₀, h₀, hpend₀, -⟩ :=
    exists_readScene (fun x op ↦ op.Linked x.1) fun _ _ hop ↦ hop.linked
  obtain ⟨k, p, h, hpend, -⟩ := h₀.park hlinked 16 7 (by decide) (by decide) (by decide) (i := 0)
    (by rw [hpend₀]; rfl) (by rw [hpend₀]; decide) trivial fun _ ↦ trivial
  refine ⟨k, p, h.serve hlinked, h.attended.foregroundPid, h.attended.getElem?,
    h.attended.placed.noOverlap, ?_⟩
  rw [hpend]
  exact Vector.getElem_set_self _

/-- With one read submitted and nothing come in, a drain parks it, in whatever space. -/
theorem Kernel.drain_parks {pid len tag : Nat} {p : Process} (hp : k.processes[pid]? = some p)
    (hring : p.ringPa ≠ 0) (hfg : Processes.foregroundPid k.processes = some pid)
    (hempty : k.input.contents = [])
    (hentry : OneEntry k.mem p.ringPa opRead userStackVa len tag) (hpos : 0 < len)
    (hlen : len ≤ 4096) {i : Fin maxPending}
    (hi : p.pending.findFinIdx? Option.isNone = some i) :
    ∃ k', k.drain pid = some k' ∧ Event.sqe pid tag k.ttbr0 none ∈ k'.trace ∧
      k'.processes = k.processes.set pid
        { p with pending := p.pending.set i (some ⟨userStackVa, len, tag⟩) i.isLt } := by
  have hpa : Processes.ringPa k.processes pid = some p.ringPa := by
    rw [Processes.ringPa, hp, Option.map_some]
  obtain ⟨k₁, hk₁⟩ : ∃ k₁ : Kernel, k₁ = k.log (.sqe pid tag k.ttbr0 none) := ⟨_, rfl⟩
  obtain ⟨hps₁, hin₁⟩ : k₁.processes = k.processes ∧ k₁.input = k.input := by
    rw [hk₁]
    exact ⟨rfl, rfl⟩
  obtain ⟨k₂, hk₂⟩ : ∃ k₂ : Kernel, k₂ = { k₁ with processes := k₁.processes.set pid {
    p with pending := p.pending.set i (some ⟨userStackVa, len, tag⟩) i.isLt } } := ⟨_, rfl⟩
  have hread : k₁.read pid p.ringPa userStackVa len tag = some k₂ := by
    rw [read_parks (by rw [hps₁, hp]) (by rw [hps₁, hfg]) (by rw [hin₁, hempty]) hpos hlen hi, hk₂]
  have hsqe : k.processSqe pid (sqeAddr p.ringPa (slot (sqHead k.mem p.ringPa))) = some k₂ := by
    rw [processSqe, hpa]
    simp only [Option.bind_eq_bind, Option.bind_some, hentry.opcode, hentry.arg0, hentry.arg1,
      hentry.tag]
    rw [waitsFor_of_ne (by decide), if_neg (by decide), if_neg (by decide), if_pos trivial, ← hk₁,
      hread]
  have hd := drain_one hpa hring hentry.tail
  rw [hsqe, Option.map_some] at hd
  refine ⟨_, hd, List.mem_cons_of_mem _ ?_, ?_⟩
  · rw [hk₂, hk₁]
    exact List.mem_cons_self
  · rw [(ringStore_quiet ..).processes, hk₂, hps₁]

/-- The shell has submitted a read; before the poller takes it up, its child has a turn, and the
read is parked in the space of the child. -/
theorem exists_parked_foreign : ∃ m p q, (machine shellOnly).Reach System.Free m ∧
    m.k.processes = [p, q] ∧ p.live = true ∧ q.live = true ∧ p.ttbr0 ≠ q.ttbr0 ∧
    Event.sqe 0 7 q.ttbr0 none ∈ m.k.trace ∧
    Processes.foregroundPid m.k.processes = some 0 ∧ p.loaded.NoOverlap ∧
    p.pending[(0 : Fin maxPending)] = some ⟨userStackVa, 16, 7⟩ := by
  obtain ⟨m, p, q, h, hel0, hstart, hpc, hlq, hshell, hentry⟩ :=
    exists_submitted opRead userStackVa 16 7 (by decide) (by decide) (by decide) (by decide)
  have hmem : (m.k.activate p.ttbr0).mem = m.k.mem := by rw [Kernel.mem, Kernel.activate_phys]
  obtain ⟨m', h', hpoll', hidle, hroot⟩ := (h.free.activates trivial hpc).lap hel0 hstart
  have hmem' : m'.k.mem = m.k.mem := (congrArg Phys.mem hidle.phys).trans hmem
  rw [← hmem'] at hentry
  have hp : m'.k.processes[0]? = some p := by rw [h'.processes]; rfl
  have hq : m'.k.processes[1]? = some q := by rw [h'.processes]; rfl
  have hfg : Processes.foregroundPid m'.k.processes = some 0 :=
    (foregroundPid_zero hp).mpr hshell.foreground
  have hfree : p.pending.findFinIdx? Option.isNone = some 0 :=
    findFinIdx?_isNone (by rw [hshell.pending]; rfl) (by rw [hshell.pending]; decide)
  obtain ⟨k', hd, hevent, hps⟩ := Kernel.drain_parks hp hshell.ring hfg h'.input hentry (by decide)
    (by decide) hfree
  rw [h'.processes] at hps
  have hcur : m'.atPoller := by rw [Machine.atPoller, h'.sched]
  have hpc' : m'.poller.pc = .scanDrain 2 0 := by rw [hpoll']
  have hstep : m'.step .run = some { m' with
      k := k', poller := { m'.poller with pc := .scan 2 1 true } } := by
    rw [Machine.step_poller hcur, Machine.pollerStep, hpc']
    simp only [hd, Option.bind_eq_bind, Option.bind_some, Machine.goto]
  have hlp := h'.ctl.orderly.live_of_ring hp hshell.ring
  have hroots : p.ttbr0 ≠ q.ttbr0 := by
    intro hsame
    obtain ⟨L, own, hinv⟩ := h'.inv
    have hids := hinv.roots_inj (Inv.root_of_live hp hlp) (hsame ▸ Inv.root_of_live hq hlq)
    cases hids
  refine ⟨_, { p with pending := p.pending.set 0 (some ⟨userStackVa, 16, 7⟩) }, q,
    reach_next .run h'.reach trivial hstep, hps, hlp, hlq, hroots, hroot ▸ hevent, ?_, ?_, ?_⟩
  · refine (congrArg Processes.foregroundPid hps).trans ((foregroundPid_zero (q := {
      p with pending := p.pending.set 0 (some ⟨userStackVa, 16, 7⟩) }) rfl).mpr hshell.foreground)
  · exact hshell.loaded ▸ placed_pageLoaded.noOverlap
  · exact Vector.getElem_set_self _

/-- **No input is stranded behind a parked read**: between any two operations of the kernel at work,
and between any two steps of the machine, the input ring is empty if the foreground process has a
read parked. -/
theorem parked_ring_empty (hprog : ∀ q ∈ programs, Elf.InUserSlot q.2)
    (hk : (serve programs).Reach ServeOp.Linked k ∨
      ∃ m, (machine programs).Reach System.Free m ∧ m.k = k) {pid : Nat} {p : Process}
    (hfg : Processes.foregroundPid k.processes = some pid) (hp : k.processes[pid]? = some p)
    (hseg : p.loaded.NoOverlap)
    (hparked : ∃ i : Fin maxPending, getElem p.pending i i.isLt ≠ none) :
    k.input.isEmpty = true := by
  obtain ⟨hread, hcalm⟩ : ReadInv k ∧ k.CalmReader := by
    rcases hk with hk | ⟨m, hm, rfl⟩
    · exact calm_of_serve hprog hk
    · exact calm_of_machine hprog hm
  obtain rfl := hread.foregroundPid hfg
  obtain ⟨i, hi⟩ := hparked
  have hempty := (hcalm p hp hseg).resolve_right fun hnone ↦ hi (hnone i)
  rw [reader_zero hp, (foregroundPid_zero hp).mp hfg] at hempty
  exact InputBuf.isEmpty_iff.mpr hempty

/-- Such states: a read that was parked in the space of its owner, and one that was not. -/
theorem parked_ring_empty_both :
    (∃ k p, (serve []).Reach ServeOp.Linked k ∧ k.processes[0]? = some p ∧
      p.pending[(0 : Fin maxPending)] = some ⟨userStackVa, 16, 7⟩ ∧ k.input.isEmpty = true) ∧
    ∃ m p q, (machine shellOnly).Reach System.Free m ∧ m.k.processes = [p, q] ∧
      p.live = true ∧ q.live = true ∧ p.ttbr0 ≠ q.ttbr0 ∧
      Event.sqe 0 7 q.ttbr0 none ∈ m.k.trace ∧
      p.pending[(0 : Fin maxPending)] = some ⟨userStackVa, 16, 7⟩ ∧ m.k.input.isEmpty = true := by
  refine ⟨?_, ?_⟩
  · obtain ⟨k, p, hk, hfg, hp, hseg, hpend⟩ := exists_parked_serve
    exact ⟨k, p, hk, hp, hpend, parked_ring_empty (by simp) (.inl hk) hfg hp hseg
      ⟨0, by rw [hpend]; exact Option.some_ne_none _⟩⟩
  · obtain ⟨m, p, q, hm, hps, hlp, hlq, hne, hevent, hfg, hseg, hpend⟩ := exists_parked_foreign
    exact ⟨m, p, q, hm, hps, hlp, hlq, hne, hevent, hpend, parked_ring_empty shellOnly_inUserSlot
      (.inr ⟨m, hm, rfl⟩) hfg (by rw [hps]; rfl) hseg
      ⟨0, by rw [hpend]; exact Option.some_ne_none _⟩⟩

end Runs

end Jatuli

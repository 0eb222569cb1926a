import Jatuli.Bookings
import Jatuli.RingStores
import Jatuli.Wakeup

/-!
# Going to sleep while somebody submits

Before it blocks, the poller raises `NEED_WAKEUP` in every ring and looks through all of them once
more; a process that has published entries looks at its flag and calls `enter` if it is up.  This
file adds the process's half to the machine: `submit` is a load of the flag, possible whenever the
process runs, and a record beside the machine says for how many of the published entries a call of
`submit` has returned (`Submitter`).

The two halves do not fit together in every run.  `enter` lowers the flag and wakes the poller, and
waking does nothing to a task that is not blocked yet; a poller that has looked through the rings
and is preempted right before `block_current` then goes to sleep with the flag down, and what the
process submits next stays where it is (`submission_stranded`).  In the same way a ring that is set
up while the poller sleeps starts with its flag down.  In runs where neither happens, no submission
is left behind (`submissions_served`).
-/

set_option autoImplicit false

namespace Jatuli

/-! ## The process's half -/

/-- The ring page of process `pid`, `0` when it has none. -/
def Kernel.ringOf (k : Kernel) (pid : Nat) : Nat := (Processes.ringPa k.processes pid).getD 0

/-- How many entries process `pid` has published that nobody has taken up. -/
def Kernel.backlog (k : Kernel) (pid : Nat) : Nat :=
  if k.ringOf pid = 0 then 0
  else (sqTail k.mem (k.ringOf pid) - sqHead k.mem (k.ringOf pid)).toNat

/-- The flag of process `pid` is up. -/
def Kernel.Flagged (k : Kernel) (pid : Nat) : Prop :=
  flags k.mem (k.ringOf pid) &&& needWakeup ≠ 0

/-- Where a process stands with `submit`. -/
structure Submitter where
  /-- `submit` has found the flag up, and calls `enter(0)` next. -/
  trapping : Bool
  /-- How many entries, from `sq_head` on, a call of `submit` has returned for. -/
  due : Nat
deriving DecidableEq, Repr

/-- What can happen when a process is watched that submits. -/
inductive SubmitAct
  /-- The machine takes a step. -/
  | act (a : Act)
  /-- `submit` loads the flag. -/
  | test
deriving DecidableEq, Repr

namespace Submitter

/-- What is due after a step of the machine: `sq_head` has passed some of the entries. -/
def passed (s : Submitter) (pid : Nat) (k k' : Kernel) : Submitter :=
  { s with due :=
      if k'.ringOf pid = 0 then 0
      else s.due - (sqHead k'.mem (k'.ringOf pid) - sqHead k.mem (k'.ringOf pid)).toNat }

/-- Whether a step is the call `enter(0)` with which `submit` ends. -/
def traps (s : Submitter) (pid : Nat) (m : Machine) (a : Act) : Prop :=
  s.trapping = true ∧ a = .user (.enter 0) ∧ m.k.sched.currentProcess = some pid

instance (s : Submitter) (pid : Nat) (m : Machine) (a : Act) : Decidable (s.traps pid m a) :=
  inferInstanceAs (Decidable (_ ∧ _ ∧ _))

/-- A step of the machine and the process that is watched.  `submit` loads the flag from the page
at `USER_RING_VA`; when the flag is down it returns, else it returns once `enter(0)` has. -/
def step (pid : Nat) (x : Machine × Submitter) : SubmitAct → Option (Machine × Submitter)
  | .act a => do
    let m' ← x.1.step a
    if x.2.traps pid x.1 a then some (m', { trapping := false, due := m'.k.backlog pid })
    else some (m', x.2.passed pid x.1.k m'.k)
  | .test =>
    if x.1.k.sched.currentProcess = some pid ∧ x.1.userPc = .el0 ∧ x.2.trapping = false then do
      let pa ← el0WritablePa x.1.k.mem x.1.k.ttbr0 (userRingVa + offFlags)
      if x.1.k.mem.load pa 4 &&& needWakeup ≠ 0 then some (x.1, { x.2 with trapping := true })
      else some (x.1, { x.2 with due := x.1.k.backlog pid })
    else none

end Submitter

/-- The machine with process `pid` watched. -/
def submitting (programs : List (String × List UInt8)) (pid : Nat) :
    System (Machine × Submitter) SubmitAct where
  init x := (machine programs).init x.1 ∧ x.2 = { trapping := false, due := 0 }
  step := Submitter.step pid

/-- Process `pid` uses its ring the way the library does: it leaves `sq_head` and `flags` alone and
moves `sq_tail` by one at a time, not onto `sq_head`; and when `submit` has found the flag up, the
call of `enter(0)` is next. -/
def KeepsToLibrary (pid : Nat) (x : Machine × Submitter) (b : SubmitAct) : Prop :=
  ∀ u, b = .act (.user u) → x.1.k.sched.currentProcess = some pid →
    (x.2.trapping = true → u = .enter 0) ∧
    ∀ va n v m', u = .store va n v → x.1.step (.user u) = some m' → x.1.k.ringOf pid ≠ 0 →
      sqHead m'.k.mem (x.1.k.ringOf pid) = sqHead x.1.k.mem (x.1.k.ringOf pid) ∧
      flags m'.k.mem (x.1.k.ringOf pid) = flags x.1.k.mem (x.1.k.ringOf pid) ∧
      (sqTail m'.k.mem (x.1.k.ringOf pid) = sqTail x.1.k.mem (x.1.k.ringOf pid) ∨
        sqTail m'.k.mem (x.1.k.ringOf pid) = sqTail x.1.k.mem (x.1.k.ringOf pid) + 1 ∧
        sqTail x.1.k.mem (x.1.k.ringOf pid) + 1 ≠ sqHead x.1.k.mem (x.1.k.ringOf pid))

/-- Whether the poller is on its way to sleep: it has begun to raise the flags, and has not blocked
yet. -/
def PollerPc.dozes : PollerPc → Bool
  | .flagsScan on _ _ _ => on
  | .flagsStore on _ _ _ _ => on
  | .rescanCount => true
  | .rescan _ _ => true
  | .rescanHead _ _ _ => true
  | .rescanTail _ _ _ _ => true
  | .block => true
  | _ => false

/-- Process `pid` does not set up its ring while the poller is on its way to sleep or asleep, and
does not call `enter` with its flag up while the poller is on its way. -/
def MeetsPollerAwake (pid : Nat) (x : Machine × Submitter) (b : SubmitAct) : Prop :=
  x.1.k.sched.currentProcess = some pid →
    (b = .act (.user .setup) → x.1.k.ringOf pid = 0 →
      x.1.poller.pc.dozes = false ∧ ¬ x.1.k.sched.Blocked pollerTask) ∧
    ∀ minComplete, b = .act (.user (.enter minComplete)) → x.1.k.Flagged pid →
      x.1.poller.pc.dozes = false

/-! ## Queues -/

theorem Kernel.ringOf_eq {k : Kernel} {pid : Nat} {p : Process} (hp : k.processes[pid]? = some p) :
    k.ringOf pid = p.ringPa := by
  rw [ringOf, Processes.ringPa, hp, Option.map_some, Option.getD_some]

theorem Kernel.ringOf_ne {k : Kernel} {pid : Nat} (h : k.ringOf pid ≠ 0) :
    ∃ p, k.processes[pid]? = some p ∧ p.ringPa ≠ 0 ∧ k.ringOf pid = p.ringPa := by
  cases hp : k.processes[pid]? with
  | none =>
    rw [ringOf, Processes.ringPa, hp] at h
    exact absurd rfl h
  | some p =>
    rw [ringOf_eq hp] at h ⊢
    exact ⟨p, rfl, h, rfl⟩

/-- The ring of process `pid`, its submission queue and its flag are what they were. -/
structure SameQueue (pid : Nat) (k k' : Kernel) : Prop where
  ring : k'.ringOf pid = k.ringOf pid
  head : sqHead k'.mem (k.ringOf pid) = sqHead k.mem (k.ringOf pid)
  tail : sqTail k'.mem (k.ringOf pid) = sqTail k.mem (k.ringOf pid)
  flags : flags k'.mem (k.ringOf pid) = flags k.mem (k.ringOf pid)

namespace SameQueue

variable {pid : Nat} {k k' : Kernel} {p : Process}

theorem of_eq (hps : k'.processes = k.processes) (hm : k'.mem = k.mem) : SameQueue pid k k' := by
  refine ⟨by rw [Kernel.ringOf, hps, ← Kernel.ringOf], ?_, ?_, ?_⟩ <;> rw [hm]

theorem of_header (hp : k.processes[pid]? = some p)
    (hp' : ∃ p', k'.processes[pid]? = some p' ∧ p'.ringPa = p.ringPa)
    (h : HeaderAt p.ringPa (sqHead k.mem p.ringPa) k.mem k'.mem) : SameQueue pid k k' := by
  obtain ⟨p', hp', hring⟩ := hp'
  refine ⟨by rw [Kernel.ringOf_eq hp', Kernel.ringOf_eq hp, hring], ?_, ?_, ?_⟩ <;>
    rw [Kernel.ringOf_eq hp]
  · exact h.sqHead
  · exact h.sqTail
  · exact h.flags

theorem of_bystander (hp : k.processes[pid]? = some p) (hring : p.ringPa ≠ 0)
    (h : Bystander pid k k') : SameQueue pid k k' := by
  obtain ⟨p', hp', hring', -⟩ := h.entry hp
  exact of_header hp ⟨p', hp', hring'⟩ (.of_eqOn (h.page hp hring))

/-- The wait loop of `enter` does nothing to the queue. -/
theorem enterWait {m : Machine} (hu : AtUser k pid p) (ringPa minComplete : Nat) :
    SameQueue pid k ({ m with k := k }.enterWait pid ringPa minComplete).k := by
  rcases enterWait_cases (m := { m with k := k }) hu ringPa minComplete with ⟨-, he⟩ | ⟨-, he⟩
  · rw [he]
    exact of_eq rfl rfl
  · rw [he]
    have hmem : ∀ k₁ : Kernel, k₁.blockCurrent.mem = k₁.mem := by
      intro k₁
      rw [Kernel.blockCurrent, Kernel.schedule_eq]
    refine of_header hu.entry ⟨{ p with ringWaiter := some (taskOf pid) }, ?_, rfl⟩ ?_
    · show (Kernel.schedule _).processes[pid]? = _
      rw [Kernel.schedule_processes]
      show (Processes.setWaiter k.processes pid (taskOf pid))[pid]? = _
      rw [Processes.setWaiter, List.getElem?_modify_eq, hu.entry]
      rfl
    · show HeaderAt _ _ _ (Kernel.mem _)
      rw [hmem]
      exact .refl ..

theorem backlog (h : SameQueue pid k k') : k'.backlog pid = k.backlog pid := by
  rw [Kernel.backlog, Kernel.backlog, h.ring, h.head, h.tail]

theorem flagged (h : SameQueue pid k k') (hf : k.Flagged pid) : k'.Flagged pid := by
  rw [Kernel.Flagged, h.ring, h.flags]
  exact hf

theorem passed (h : SameQueue pid k k') (hring : k.ringOf pid ≠ 0) (s : Submitter) :
    s.passed pid k k' = s := by
  rw [Submitter.passed, h.ring, if_neg hring, h.head, BitVec.sub_self]
  rfl

end SameQueue

/-! ## The poller's task -/

/-- A change that leaves the poller's record in place and does not put its task to sleep. -/
structure PollerLeft (k k' : Kernel) : Prop where
  recorded : k'.poller = k.poller
  blocked : k'.sched.Blocked pollerTask → k.sched.Blocked pollerTask

namespace PollerLeft

variable {k k' k'' : Kernel} {m m' : Machine} {a : Act} {pid : Nat} {p : Process}

theorem trans (h : PollerLeft k k') (h' : PollerLeft k' k'') : PollerLeft k k'' :=
  ⟨h'.recorded.trans h.recorded, fun hb ↦ h.blocked (h'.blocked hb)⟩

theorem of_woken (hrec : k'.poller = k.poller) (hw : k.sched.Woken k'.sched) : PollerLeft k k' :=
  ⟨hrec, hw.blocked⟩

theorem refl (k : Kernel) : PollerLeft k k := of_woken rfl (.refl _)

theorem schedule (k : Kernel) : PollerLeft k k.schedule := by
  refine ⟨k.schedule_poller, fun hb ↦ ?_⟩
  rwa [Scheduler.Blocked, k.schedule_tasks] at hb

/-- Another task blocks. -/
theorem blockCurrent (hcur : k.sched.current ≠ pollerTask) : PollerLeft k k.blockCurrent := by
  have h : PollerLeft k { k with sched := k.sched.markBlocked } :=
    ⟨rfl, fun hb ↦ hb.of_markBlocked hcur⟩
  exact h.trans (schedule _)

theorem taskExit (k : Kernel) : PollerLeft k k.taskExit := by
  have h : PollerLeft k { k with sched := k.sched.markExited } := ⟨rfl, fun hb ↦ hb.of_markExited⟩
  exact h.trans (schedule _)

theorem served (h : Served pid k k') : PollerLeft k k' := ⟨h.poller, h.recruited.blocked⟩

theorem enterWait (hu : AtUser k pid p) (ringPa minComplete : Nat) :
    PollerLeft k ({ m with k := k }.enterWait pid ringPa minComplete).k := by
  rcases enterWait_cases (m := { m with k := k }) hu ringPa minComplete with ⟨-, he⟩ | ⟨-, he⟩
  · rw [he]
    exact refl k
  · rw [he]
    have hset : PollerLeft k
        { k with processes := Processes.setWaiter k.processes pid (taskOf pid) } := ⟨rfl, id⟩
    refine hset.trans (blockCurrent ?_)
    rw [hu.current, taskOf]
    omega

theorem teardown (ho : Orderly k) (hu : AtUser k pid p) {code : Int}
    (ht : k.teardown pid code = some k') : PollerLeft k k' := by
  obtain ⟨-, -, -, hw⟩ := ho.markExited hu.current hu.entry ht
  have hne := ho.parent_ne hu.entry
  obtain ⟨k₁, msg, hrep, hk'⟩ := Kernel.teardown_cases hu.entry hne ht
  refine of_woken ?_ hw
  rw [hk', Kernel.activate_eq]
  exact hrep.quiet.poller

theorem uart (hctl : Ctl m) {bytes : List UInt8} (hs : Machine.uartIrq m.k bytes = some k') :
    PollerLeft m.k k' := by
  rcases hctl.uart_move hs with ⟨input, uart⟩ |
    @⟨input, uart, pid, i₁, i₃, p, k₂, completed, -, -, -, hloop⟩
  · exact ⟨rfl, id⟩
  have hq := Kernel.pollPendingFrom_quiet hloop
  refine ⟨hq.poller, fun hb ↦ ?_⟩
  rw [← show k₂.sched = m.k.sched from hq.sched]
  cases completed with
  | false => exact hb
  | true => exact (k₂.sched.wakeWaiter_woken _).blocked hb

/-- **Only the poller itself** changes its position, its record, or goes to sleep. -/
theorem of_move (hctl : Ctl m) (hm : Move m a m') :
    (∃ k' l', m.atPoller ∧ PollerMove m.k m.poller k' l' ∧
      m' = { m with k := k', poller := l' }) ∨
    m'.poller = m.poller ∧ PollerLeft m.k m'.k := by
  have ho := hctl.orderly
  cases hm with
  | poller hcur hmove => exact .inl ⟨_, _, hcur, hmove, rfl⟩
  | create hcur hpc himage hroot hspace => exact .inr ⟨rfl, rfl, id⟩
  | foreground hcur hpc => exact .inr ⟨rfl, rfl, id⟩
  | @spawnJsh p0 p hcur hpc hp =>
    refine .inr ⟨rfl, rfl, ?_⟩
    rintro ⟨t, ht, hb⟩
    -- the new task comes after the poller's
    have hk := hctl.kmain
    rw [hpc] at hk
    have hlen : pollerTask < m.k.sched.tasks.length := by
      rw [hk.1]
      decide
    exact ⟨t, (List.getElem?_append_left hlen).symm.trans ht, hb⟩
  | idle hcur hpc => exact .inr ⟨rfl, schedule _⟩
  | start hu hpc => exact .inr ⟨rfl, rfl, id⟩
  | retest hu hpc => exact .inr ⟨enterWait_poller .., enterWait (m := m) hu _ _⟩
  | store hu hpc hs =>
    obtain ⟨pa, rfl⟩ := Machine.userStore_cases hs
    exact .inr ⟨rfl, rfl, id⟩
  | setup hu hpc hs =>
    obtain ⟨-, -, ⟨-, rfl⟩ | ⟨-, -, -, -, -, -, rfl⟩⟩ := Kernel.setupRing_cases hs
    · exact .inr ⟨rfl, refl _⟩
    · exact .inr ⟨rfl, rfl, id⟩
  | enterNothing hu hpc hring => exact .inr ⟨rfl, refl _⟩
  | @enter pid minComplete p k' hu hpc hring hs =>
    obtain ⟨k₁, hk₁, hd, hserved, hw, -⟩ := ho.enterSubmit (hctl.idle hu).2 hu.entry hs
    obtain ⟨-, p', hu', -⟩ := Proceeds.enterSubmit ho hctl.running (hctl.idle hu).2 hu hs
    have h₁ : PollerLeft m.k k₁ :=
      of_woken (by rcases hk₁ with rfl | rfl | rfl <;> rfl) hw
    exact .inr ⟨enterWait_poller .., (h₁.trans (served hserved)).trans (enterWait (m := m) hu' _ _)⟩
  | @exit u pid code p report k' hact hu hpc ht =>
    have hprint : PollerLeft m.k (m.k.kprintln report) := ⟨rfl, id⟩
    exact .inr ⟨rfl, (hprint.trans (teardown (ho.kprintln report) (hu.kprintln report) ht)).trans
      (taskExit k')⟩
  | tick hmask =>
    have hw : PollerLeft m.k { m.k with
        ticks := (m.k.ticks + 1) % 2 ^ 64
        sched := m.k.sched.wakeSleepers ((m.k.ticks + 1) % 2 ^ 64) } :=
      of_woken rfl (m.k.sched.wakeSleepers_woken _)
    exact .inr ⟨rfl, hw.trans (schedule _)⟩
  | uart hmask hs => exact .inr ⟨rfl, uart hctl hs⟩

end PollerLeft

/-- The pass over the flags that raises them is the one before the re-scan. -/
def PollerPc.Paired : PollerPc → Prop
  | .flagsCount on after => on = true ↔ after = .rescan
  | .flagsScan on _ _ after => on = true ↔ after = .rescan
  | .flagsStore on _ _ _ after => on = true ↔ after = .rescan
  | _ => True

theorem PollerMove.paired {k k' : Kernel} {l l' : Poller} (hmove : PollerMove k l k' l')
    (h : l.pc.Paired) : l'.pc.Paired := by
  cases hmove with
  | worked hpc hk => exact ⟨by rintro ⟨⟩, by rintro ⟨⟩⟩
  | sleepy hpc => exact ⟨fun _ ↦ rfl, fun _ ↦ rfl⟩
  | flagsCount hpc =>
    rw [hpc] at h
    exact h
  | flagsSkip hpc hi hp hring =>
    rw [hpc] at h
    exact h
  | flagsRing hpc hi hp hring =>
    rw [hpc] at h
    exact h
  | flagsStore hpc =>
    rw [hpc] at h
    exact h
  | rescanFound hpc hne => exact ⟨by rintro ⟨⟩, by rintro ⟨⟩⟩
  | block hpc => exact ⟨by rintro ⟨⟩, by rintro ⟨⟩⟩
  | _ => trivial

/-- Once the poller has passed its first point, it is recorded. -/
theorem PollerMove.recorded {k k' : Kernel} {l l' : Poller} (hmove : PollerMove k l k' l')
    (h : l.pc ≠ .record → k.poller = some pollerTask) : k'.poller = some pollerTask := by
  cases hmove with
  | record hpc => rfl
  | scanActivate hpc =>
    rw [Kernel.activate_eq]
    exact h (by rw [hpc]; rintro ⟨⟩)
  | scanDrain hpc hd =>
    obtain ⟨p, hp⟩ := drain_entry hd
    rw [(Kernel.drain_served hp hd).poller]
    exact h (by rw [hpc]; rintro ⟨⟩)
  | worked hpc hk =>
    rcases hk with rfl | rfl
    · exact h (by rw [hpc]; rintro ⟨⟩)
    · exact h (by rw [hpc]; rintro ⟨⟩)
  | block hpc =>
    rw [Kernel.blockCurrent, Kernel.schedule_poller]
    exact h (by rw [hpc]; rintro ⟨⟩)
  | yield hpc =>
    rw [Kernel.schedule_poller]
    exact h (by rw [hpc]; rintro ⟨⟩)
  | _ hpc => exact h (by rw [hpc]; rintro ⟨⟩)

/-- The poller falls asleep by `block_current` only. -/
theorem PollerMove.asleep {k k' : Kernel} {l l' : Poller} (hmove : PollerMove k l k' l')
    (hawake : ¬ k.sched.Blocked pollerTask) (hb : k'.sched.Blocked pollerTask) :
    l.pc = .block ∧ l'.pc = .flagsCount false .stamp := by
  cases hmove with
  | block hpc => exact ⟨hpc, rfl⟩
  | scanActivate hpc =>
    rw [Kernel.activate_sched] at hb
    exact absurd hb hawake
  | scanDrain hpc hd =>
    obtain ⟨p, hp⟩ := drain_entry hd
    exact absurd ((Kernel.drain_served hp hd).recruited.blocked hb) hawake
  | worked hpc hk =>
    rcases hk with rfl | rfl
    · exact absurd hb hawake
    · exact absurd hb hawake
  | yield hpc => exact absurd ((PollerLeft.schedule k).blocked hb) hawake
  | _ => exact absurd hb hawake

/-- The running task is not blocked. -/
theorem Kernel.Running.not_blocked {k : Kernel} (h : k.Running) :
    ¬ k.sched.Blocked k.sched.current := by
  rintro ⟨t, ht, hb⟩
  obtain ⟨t', ht', hr⟩ := Scheduler.runnable_iff.mp h.runnable
  obtain rfl := Option.some.inj (ht.symm.trans ht')
  rw [hb] at hr
  cases hr

theorem Ctl.poller_awake {m : Machine} (hctl : Ctl m) (hcur : m.atPoller) :
    ¬ m.k.sched.Blocked pollerTask := by
  rw [← show m.k.sched.current = pollerTask from hcur]
  exact hctl.running.not_blocked

/-- What holds of the poller in every run; asleep, it stands right after `block_current`. -/
structure PollerSettled (m : Machine) : Prop where
  recorded : m.poller.pc ≠ .record → m.k.poller = some pollerTask
  paired : m.poller.pc.Paired
  asleep : m.k.sched.Blocked pollerTask → m.poller.pc = .flagsCount false .stamp

theorem PollerSettled.move {m m' : Machine} {a : Act} (h : PollerSettled m) (hctl : Ctl m)
    (hm : Move m a m') : PollerSettled m' := by
  rcases PollerLeft.of_move hctl hm with ⟨k', l', hcur, hmove, rfl⟩ | ⟨hl, hleft⟩
  · exact ⟨fun _ ↦ hmove.recorded h.recorded, hmove.paired h.paired,
      fun hb ↦ (hmove.asleep (hctl.poller_awake hcur) hb).2⟩
  · refine ⟨?_, ?_, fun hb ↦ ?_⟩ <;> rw [hl]
    · rw [hleft.recorded]
      exact h.recorded
    · exact h.paired
    · exact h.asleep (hleft.blocked hb)

theorem pollerSettled_of_reach {programs : List (String × List UInt8)}
    {ok : Machine → Act → Prop} {m : Machine} (h : (machine programs).Reach ok m) :
    PollerSettled m := by
  refine reach_invariant (I := PollerSettled) (fun k hfresh ↦ ?_) ?_ h
  · refine ⟨absurd rfl, trivial, ?_⟩
    rintro ⟨t, ht, hb⟩
    rw [show (bootMachine k).k.sched = _ from hfresh.sched] at ht
    obtain rfl := Option.some.inj ht
    cases hb
  · exact fun m a m' hctl _ hI _ hm ↦ hI.move hctl hm

/-! ## The invariant -/

/-- What holds of a process with a ring, of which `due` entries are due, while the poller is on its
way to sleep: the flag is up once the poller has come past it, and nothing is due once the re-scan
has. -/
def Dozing (k : Kernel) (pid due : Nat) : PollerPc → Prop
  | .flagsScan true n i _ => pid < n ∧ (pid < i → k.Flagged pid)
  | .flagsStore true n i _ _ => pid < n ∧ (pid < i → k.Flagged pid)
  | .rescanCount => k.Flagged pid
  | .rescan n i => k.Flagged pid ∧ pid < n ∧ (pid < i → due = 0)
  | .rescanHead n i _ => k.Flagged pid ∧ pid < n ∧ (pid < i → due = 0)
  | .rescanTail n i _ head => k.Flagged pid ∧ pid < n ∧ (pid < i → due = 0) ∧
      (i = pid → head = sqHead k.mem (k.ringOf pid))
  | .block => k.Flagged pid ∧ due = 0
  | _ => True

namespace Dozing

variable {k k' : Kernel} {l l' : Poller} {pc : PollerPc} {pid due : Nat}

/-- Elsewhere there is nothing to say. -/
theorem of_awake (h : pc.dozes = false) : Dozing k pid due pc := by
  cases pc with
  | flagsScan on n i after =>
    cases on with
    | true => cases h
    | false => trivial
  | flagsStore on n i ringPa after =>
    cases on with
    | true => cases h
    | false => trivial
  | rescanCount => cases h
  | rescan n i => cases h
  | rescanHead n i ringPa => cases h
  | rescanTail n i ringPa head => cases h
  | block => cases h
  | _ => trivial

/-- It is about the flag and `sq_head` only. -/
theorem congr (h : Dozing k pid due pc) (hf : k.Flagged pid → k'.Flagged pid)
    (hhead : sqHead k'.mem (k'.ringOf pid) = sqHead k.mem (k.ringOf pid)) :
    Dozing k' pid due pc := by
  cases pc with
  | flagsScan on n i after =>
    cases on with
    | true => exact ⟨h.1, fun hi ↦ hf (h.2 hi)⟩
    | false => trivial
  | flagsStore on n i ringPa after =>
    cases on with
    | true => exact ⟨h.1, fun hi ↦ hf (h.2 hi)⟩
    | false => trivial
  | rescanCount => exact hf h
  | rescan n i => exact ⟨hf h.1, h.2⟩
  | rescanHead n i ringPa => exact ⟨hf h.1, h.2⟩
  | rescanTail n i ringPa head =>
    exact ⟨hf h.1, h.2.1, h.2.2.1, fun hi ↦ (h.2.2.2 hi).trans hhead.symm⟩
  | block => exact ⟨hf h.1, h.2⟩
  | _ => trivial

/-- While the flag is down, the poller has not come past the process. -/
theorem unflagged {due' : Nat} (h : Dozing k pid due pc) (hf : ¬ k.Flagged pid) :
    Dozing k' pid due' pc := by
  cases pc with
  | flagsScan on n i after =>
    cases on with
    | true => exact ⟨h.1, fun hi ↦ absurd (h.2 hi) hf⟩
    | false => trivial
  | flagsStore on n i ringPa after =>
    cases on with
    | true => exact ⟨h.1, fun hi ↦ absurd (h.2 hi) hf⟩
    | false => trivial
  | rescanCount => exact absurd h hf
  | rescan n i => exact absurd h.1 hf
  | rescanHead n i ringPa => exact absurd h.1 hf
  | rescanTail n i ringPa head => exact absurd h.1 hf
  | block => exact absurd h.1 hf
  | _ => trivial

end Dozing

/-- What `set_all_wakeup` has stored is there. -/
theorem Kernel.flagged_ringStore {k : Kernel} {pid : Nat} {v : Nat} (hv : v < 2 ^ 32) :
    (k.ringStore (k.ringOf pid) offFlags 4 v).Flagged pid ↔ v &&& needWakeup ≠ 0 := by
  have hload : flags (k.ringStore (k.ringOf pid) offFlags 4 v).mem (k.ringOf pid) = v :=
    Mem.load_store_of_lt _ hv
  rw [Flagged, show (k.ringStore (k.ringOf pid) offFlags 4 v).ringOf pid = k.ringOf pid from rfl,
    hload]

namespace Dozing

variable {k k' : Kernel} {l l' : Poller} {pid due : Nat} {p : Process}

/-- **A step of the poller** that leaves the queue of the process alone. -/
theorem poller (h : Dozing k pid due l.pc) (hpair : l.pc.Paired)
    (hp : k.processes[pid]? = some p) (hring : p.ringPa ≠ 0)
    (hread : ∀ ringPa, l.pc.ringRead = some (pid, ringPa) → ringPa = p.ringPa)
    (hdue : due ≤ k.backlog pid) (hq : SameQueue pid k k') (hmove : PollerMove k l k' l') :
    Dozing k' pid due l'.pc := by
  have hlen : pid < k.processes.length := (List.getElem?_eq_some_iff.mp hp).1
  -- a process that is passed over has no ring
  have hskip : ∀ {i : Nat} {q : Process}, k.processes[i]? = some q → q.ringPa = 0 →
      pid < i + 1 → pid < i := by
    intro i q hi hzero hlt
    rcases Nat.lt_or_eq_of_le (Nat.le_of_lt_succ hlt) with hlt | rfl
    · exact hlt
    · rw [Option.some.inj (hp.symm.trans hi)] at hring
      exact absurd hzero hring
  cases hmove with
  | @flagsCount on after hpc =>
    cases on with
    | true => exact ⟨hlen, fun hi ↦ absurd hi (Nat.not_lt_zero pid)⟩
    | false => trivial
  | @flagsRescan on n i hpc hi =>
    rw [hpc] at h hpair
    obtain rfl : on = true := hpair.mpr rfl
    exact h.2 (Nat.lt_of_lt_of_le h.1 hi)
  | @flagsSkip on n i after q hpc hi he hzero =>
    rw [hpc] at h
    cases on with
    | true => exact ⟨h.1, fun hlt ↦ h.2 (hskip he hzero hlt)⟩
    | false => trivial
  | @flagsRing on n i after q hpc hi he hne =>
    rw [hpc] at h
    cases on with
    | true => exact h
    | false => trivial
  | @flagsStore on n i ringPa after hpc =>
    rw [hpc] at h hread
    cases on with
    | false => trivial
    | true =>
      refine ⟨h.1, fun hlt ↦ ?_⟩
      rcases Nat.lt_or_eq_of_le (Nat.le_of_lt_succ hlt) with hlt | rfl
      · exact hq.flagged (h.2 hlt)
      · -- the poller has come to this process, and its flag goes up
        obtain rfl := (hread ringPa rfl).trans (Kernel.ringOf_eq hp).symm
        exact (Kernel.flagged_ringStore (by decide)).mpr (by decide)
  | rescanCount hpc =>
    rw [hpc] at h
    exact ⟨h, hlen, fun hi ↦ absurd hi (Nat.not_lt_zero pid)⟩
  | @rescanEnd n i hpc hi =>
    rw [hpc] at h
    exact ⟨h.1, h.2.2 (Nat.lt_of_lt_of_le h.2.1 hi)⟩
  | rescanSkip hpc hi he hzero =>
    rw [hpc] at h
    exact ⟨h.1, h.2.1, fun hlt ↦ h.2.2 (hskip he hzero hlt)⟩
  | rescanRing hpc hi he hne =>
    rw [hpc] at h
    exact h
  | @rescanHead n i ringPa hpc =>
    rw [hpc] at h hread
    refine ⟨h.1, h.2.1, h.2.2, ?_⟩
    rintro rfl
    rw [hread ringPa rfl, Kernel.ringOf_eq hp]
  | @rescanEmpty n i ringPa head hpc heq =>
    rw [hpc] at h hread
    refine ⟨h.1, h.2.1, fun hlt ↦ ?_⟩
    rcases Nat.lt_or_eq_of_le (Nat.le_of_lt_succ hlt) with hlt | rfl
    · exact h.2.2.1 hlt
    · -- the queue is found empty
      have hhead := h.2.2.2 rfl
      rw [Kernel.ringOf_eq hp] at hhead
      rw [hhead, hread ringPa rfl] at heq
      rw [Kernel.backlog, Kernel.ringOf_eq hp, if_neg hring, heq, BitVec.sub_self] at hdue
      exact Nat.le_zero.mp hdue
  | _ => trivial

end Dozing

/-- **The two halves agree**: what is due is in the queue; while the poller is on its way to sleep
it has seen to the process as far as it has come; and when it sleeps, the flag of the process is up
and nothing is due. -/
structure Agreed (pid : Nat) (m : Machine) (s : Submitter) : Prop where
  due : s.due ≤ m.k.backlog pid
  dozing : m.k.ringOf pid ≠ 0 → Dozing m.k pid s.due m.poller.pc
  asleep : m.k.sched.Blocked pollerTask → m.k.ringOf pid ≠ 0 → m.k.Flagged pid ∧ s.due = 0

section Steps

variable {L : Layout} {m m' : Machine} {a : Act} {pid : Nat} {p : Process} {s s' : Submitter}
  {k k' : Kernel} {l' : Poller}

theorem Kernel.ringOf_of_before (h : RingBefore pid k k') (hz : k.ringOf pid = 0) :
    k'.ringOf pid = 0 := by
  by_contra hne
  obtain ⟨p', hp', hne', -⟩ := Kernel.ringOf_ne hne
  obtain ⟨p, hp, he⟩ := h.entry hp' hne'
  rw [Kernel.ringOf_eq hp, he] at hz
  exact hne' hz

theorem Kernel.backlog_of_no_ring (hz : k.ringOf pid = 0) : k.backlog pid = 0 := if_pos hz

theorem Kernel.backlog_of_ring (hp : k.processes[pid]? = some p) (hring : p.ringPa ≠ 0) :
    k.backlog pid = (sqTail k.mem p.ringPa - sqHead k.mem p.ringPa).toNat := by
  rw [Kernel.backlog, Kernel.ringOf_eq hp, if_neg hring]

namespace Agreed

/-- Somebody else takes a step that leaves the queue alone. -/
theorem same (h : Agreed pid m s) (hl : m'.poller = m.poller) (hleft : PollerLeft m.k m'.k)
    (hq : SameQueue pid m.k m'.k) : Agreed pid m' s := by
  refine ⟨by rw [hq.backlog]; exact h.due, fun hring ↦ ?_, fun hb hring ↦ ?_⟩
  · rw [hl]
    exact (h.dozing (hq.ring ▸ hring)).congr hq.flagged (by rw [hq.ring, hq.head])
  · obtain ⟨hf, hz⟩ := h.asleep (hleft.blocked hb) (hq.ring ▸ hring)
    exact ⟨hq.flagged hf, hz⟩

/-- A process without a ring. -/
theorem ringless (hz : m.k.ringOf pid = 0) (hdue : s.due = 0) : Agreed pid m s :=
  ⟨hdue ▸ Nat.zero_le _, fun hne ↦ absurd hz hne, fun _ hne ↦ absurd hz hne⟩

/-- The process sets up its ring while the poller is awake. -/
theorem setup (hs : m.k.setupRing pid = some k')
    (hawake : m.poller.pc.dozes = false ∧ ¬ m.k.sched.Blocked pollerTask) (hdue : s'.due = 0) :
    Agreed pid { m with k := k' } s' := by
  have hleft : PollerLeft m.k k' := by
    obtain ⟨-, -, ⟨-, rfl⟩ | ⟨-, -, -, -, -, -, rfl⟩⟩ := Kernel.setupRing_cases hs
    · exact .refl _
    · exact ⟨rfl, id⟩
  exact ⟨hdue ▸ Nat.zero_le _, fun _ ↦ .of_awake hawake.1,
    fun hb ↦ absurd (hleft.blocked hb) hawake.2⟩

/-- The process calls `enter`: its queue is emptied, and if its flag was up the poller is awake
afterwards. -/
theorem enter (h : Agreed pid m s) (hctl : Ctl m) (hset : PollerSettled m)
    (hu : AtUser m.k pid p) (hring : p.ringPa ≠ 0) {minComplete : Nat}
    (hs : m.k.enterSubmit pid p.ringPa = some k')
    (hawake : m.k.Flagged pid → m.poller.pc.dozes = false)
    (hm : Move m (.user (.enter minComplete))
      ({ m with k := k' }.enterWait pid p.ringPa minComplete)) (hdue : s'.due = 0) :
    Agreed pid ({ m with k := k' }.enterWait pid p.ringPa minComplete) s' := by
  obtain ⟨-, p', hu', -⟩ := Proceeds.enterSubmit hctl.orderly hctl.running (hctl.idle hu).2 hu hs
  have hwait := PollerLeft.enterWait (m := m) hu' p.ringPa minComplete
  rcases PollerLeft.of_move hctl hm with ⟨-, -, hcur, -⟩ | ⟨hl, hleft⟩
  · have hcur' : m.k.sched.current = pollerTask := hcur
    rw [hu.current, taskOf] at hcur'
    omega
  have hne : m.k.ringOf pid ≠ 0 := by rwa [Kernel.ringOf_eq hu.entry]
  refine ⟨hdue ▸ Nat.zero_le _, fun _ ↦ ?_, fun hb _ ↦ ?_⟩
  · rw [hl]
    by_cases hf : m.k.Flagged pid
    · exact .of_awake (hawake hf)
    · exact (h.dozing hne).unflagged hf
  · -- it was asleep with the flag up, and has been woken
    have hpc := hset.asleep (hleft.blocked hb)
    obtain ⟨hf, -⟩ := h.asleep (hleft.blocked hb) hne
    rw [Kernel.Flagged, Kernel.ringOf_eq hu.entry] at hf
    rw [Kernel.enterSubmit, if_pos hf] at hs
    dsimp only at hs
    rw [(m.k.ringStore_quiet p.ringPa offFlags 4 0).poller,
      hset.recorded (by rw [hpc]; rintro ⟨⟩)] at hs
    have hd : ((m.k.ringStore p.ringPa offFlags 4 0).wake pollerTask).drain pid = some k' := hs
    have hp₁ : ((m.k.ringStore p.ringPa offFlags 4 0).wake pollerTask).processes[pid]? = some p :=
      hu.entry
    have hserved := Kernel.drain_served hp₁ hd
    exact absurd rfl (Scheduler.Blocked.of_wakeWaiter (w := some pollerTask)
      (hserved.recruited.blocked (hwait.blocked hb))).2

/-- The process stores. -/
theorem store (h : Agreed pid m s) (hp : m.k.processes[pid]? = some p) (hring : p.ringPa ≠ 0)
    (hl : m'.poller = m.poller) (hleft : PollerLeft m.k m'.k)
    (hps : m'.k.processes = m.k.processes)
    (hhead : sqHead m'.k.mem p.ringPa = sqHead m.k.mem p.ringPa)
    (hflags : flags m'.k.mem p.ringPa = flags m.k.mem p.ringPa)
    (htail : sqTail m'.k.mem p.ringPa = sqTail m.k.mem p.ringPa ∨
      sqTail m'.k.mem p.ringPa = sqTail m.k.mem p.ringPa + 1 ∧
        sqTail m.k.mem p.ringPa + 1 ≠ sqHead m.k.mem p.ringPa) : Agreed pid m' s := by
  have hp' : m'.k.processes[pid]? = some p := by rw [hps, hp]
  have hflagged : m.k.Flagged pid → m'.k.Flagged pid := by
    rw [Kernel.Flagged, Kernel.Flagged, Kernel.ringOf_eq hp, Kernel.ringOf_eq hp', hflags]
    exact id
  have hne : m.k.ringOf pid ≠ 0 := by rwa [Kernel.ringOf_eq hp]
  have hdue := h.due
  rw [Kernel.backlog_of_ring hp hring] at hdue
  refine ⟨?_, fun _ ↦ hl ▸ (h.dozing hne).congr hflagged ?_, fun hb _ ↦ ?_⟩
  · rw [Kernel.backlog_of_ring hp' hring, hhead]
    rcases htail with htail | ⟨htail, hroom⟩
    · rw [htail]
      exact hdue
    · rw [htail]
      bv_omega
  · rw [Kernel.ringOf_eq hp, Kernel.ringOf_eq hp', hhead]
  · obtain ⟨hf, hz⟩ := h.asleep (hleft.blocked hb) hne
    exact ⟨hflagged hf, hz⟩

/-- The poller takes a step. -/
theorem poller (h : Agreed pid m s) (hctl : Ctl m) (hset : PollerSettled m) (hmem : MemOk L m)
    (hread : ReadOk m)
    (hoff : ∀ {i : Nat} {q : Process}, m.k.processes[i]? = some q → q.loaded.OffRing)
    (hp : m.k.processes[pid]? = some p) (hring : p.ringPa ≠ 0) (hcur : m.atPoller)
    (hmove : PollerMove m.k m.poller k' l') :
    Agreed pid { m with k := k', poller := l' } (s.passed pid m.k k') := by
  have hne : m.k.ringOf pid ≠ 0 := by rwa [Kernel.ringOf_eq hp]
  have hawake := hctl.poller_awake hcur
  have hlive := hctl.orderly.live_of_ring hp hring
  have hown : ∀ ringPa, m.poller.pc.ringRead = some (pid, ringPa) → ringPa = p.ringPa := by
    intro ringPa hr
    obtain ⟨q, hq, -, he⟩ := hread pid ringPa hr
    obtain rfl := Option.some.inj (hp.symm.trans hq)
    exact (he hlive).symm
  -- a step that leaves the queue alone
  have hsame : SameQueue pid m.k k' →
      Agreed pid { m with k := k', poller := l' } (s.passed pid m.k k') := by
    intro hq
    rw [hq.passed hne]
    have hdoze := (h.dozing hne).poller hset.paired hp hring hown h.due hq hmove
    refine ⟨by rw [hq.backlog]; exact h.due, fun _ ↦ hdoze, fun hb _ ↦ ?_⟩
    have hblock := h.dozing hne
    rw [(hmove.asleep hawake hb).1] at hblock
    exact ⟨hq.flagged hblock.1, hblock.2⟩
  rcases hmem.poller_parts hctl hoff hp hring hcur hmove with hb | hc
  · exact hsame (.of_bystander hp hring hb)
  have huser : ∀ {q : Process}, ¬ AtUser m.k pid q := by
    intro q hu
    have hcur' := hu.current
    rw [show m.k.sched.current = pollerTask from hcur, taskOf] at hcur'
    omega
  obtain ⟨m', hm'⟩ : ∃ m' : Machine, m' = { m with k := k', poller := l' } := ⟨_, rfl⟩
  have hk' : m'.k = k' := by rw [hm']
  have hl' : m'.poller = l' := by rw [hm']
  rw [← hm'] at hc
  cases hc with
  | start hu hpc => exact absurd hu huser
  | retest hu hpc => exact absurd hu huser
  | @drained n k₁ _ hpc hd =>
    obtain rfl : k₁ = k' := hk'
    -- the queue is empty now
    obtain ⟨own, hinv⟩ := hmem.inv
    obtain ⟨rid, hr⟩ := hmem.root.drain hpc hp hlive
    have hat := hinv.drain_header hp hring (hoff hp) hr hd
    obtain ⟨p', hp', ht⟩ := (Kernel.drain_served hp hd).entries hp
    have hring' : p'.ringPa = p.ringPa := by rw [ht.rest]
    have hz : (s.passed pid m.k k₁).due = 0 := by
      have hdue := h.due
      rw [Kernel.backlog_of_ring hp hring] at hdue
      rw [Submitter.passed, Kernel.ringOf_eq hp', hring', if_neg hring, hat.sqHead]
      exact Nat.sub_eq_zero_of_le hdue
    refine ⟨hz ▸ Nat.zero_le _, fun _ ↦ ?_, fun hb ↦ ?_⟩
    · rw [← hl']
      trivial
    · rw [(hmove.asleep hawake hb).1] at hpc
      cases hpc
  | @flagged on n i after _ hpc =>
    obtain rfl : m.k.ringStore p.ringPa offFlags 4 (Machine.flagValue on) = k' := hk'
    have hhead : sqHead (m.k.ringStore p.ringPa offFlags 4 (Machine.flagValue on)).mem p.ringPa =
        sqHead m.k.mem p.ringPa := sqHead_store_flags ..
    have htail : sqTail (m.k.ringStore p.ringPa offFlags 4 (Machine.flagValue on)).mem p.ringPa =
        sqTail m.k.mem p.ringPa := sqTail_store_flags ..
    have hdoze := h.dozing hne
    rw [hpc] at hdoze
    obtain ⟨k₁, hk₁⟩ : ∃ k₁ : Kernel,
      k₁ = m.k.ringStore p.ringPa offFlags 4 (Machine.flagValue on) := ⟨_, rfl⟩
    have hp₁ : k₁.processes[pid]? = some p := by rw [hk₁]; exact hp
    have hup : on = true → k₁.Flagged pid := by
      rintro rfl
      rw [hk₁, ← Kernel.ringOf_eq hp]
      exact (Kernel.flagged_ringStore (by decide)).mpr (by decide)
    rw [← hk₁] at hhead htail ⊢
    have hpassed : s.passed pid m.k k₁ = s := by
      rw [Submitter.passed, Kernel.ringOf_eq hp₁, if_neg hring, hhead, BitVec.sub_self]
      rfl
    rw [hpassed, ← hl']
    refine ⟨?_, fun _ ↦ ?_, fun hb ↦ ?_⟩
    · have hdue := h.due
      rw [Kernel.backlog_of_ring hp hring] at hdue
      rw [Kernel.backlog_of_ring hp₁ hring, hhead, htail]
      exact hdue
    · cases on with
      | true => exact ⟨hdoze.1, fun _ ↦ hup rfl⟩
      | false => trivial
    · rw [(hmove.asleep hawake (hk₁ ▸ hb)).1] at hpc
      cases hpc
  | notified hn huser' => exact hsame (.of_header hp (hk' ▸ hn.entry) (hk' ▸ hn.header))

/-- **One step of the machine.** -/
theorem move (h : Agreed pid m s) (hctl : Ctl m) (hset : PollerSettled m) (hmem : MemOk L m)
    (hread : ReadOk m)
    (hoff : ∀ {i : Nat} {q : Process}, m.k.processes[i]? = some q → q.loaded.OffRing)
    (hkeep : KeepsToLibrary pid (m, s) (.act a)) (hmeet : MeetsPollerAwake pid (m, s) (.act a))
    (hs : m.step a = some m') :
    Agreed pid m' (if s.traps pid m a then { trapping := false, due := m'.k.backlog pid }
      else s.passed pid m.k m'.k) := by
  have hm := step_cases hctl.orderly hctl.running hs
  by_cases hz : m.k.ringOf pid = 0
  · rcases ring_of_move pid hctl hmem hm with hback | ⟨p, k', rfl, hu, -, hs', rfl⟩
    · have hz' := Kernel.ringOf_of_before hback hz
      refine ringless hz' ?_
      split_ifs
      · exact Kernel.backlog_of_no_ring hz'
      · rw [Submitter.passed, if_pos hz']
    · rw [if_neg fun ht ↦ by cases ht.2.1]
      refine setup hs' ((hmeet hu.process).1 rfl hz) ?_
      have hdue := h.due
      rw [Kernel.backlog_of_no_ring hz] at hdue
      rw [Submitter.passed, Nat.le_zero.mp hdue, Nat.zero_sub, ite_self]
  · obtain ⟨p, hp, hring, -⟩ := Kernel.ringOf_ne hz
    by_cases henter : ∃ minComplete, a = .user (.enter minComplete) ∧
        m.k.sched.currentProcess = some pid
    · obtain ⟨minComplete, rfl, hcur⟩ := henter
      obtain ⟨k', hu, hs', rfl⟩ : ∃ k', AtUser m.k pid p ∧
          m.k.enterSubmit pid p.ringPa = some k' ∧
          m' = { m with k := k' }.enterWait pid p.ringPa minComplete := by
        cases hm with
        | enterNothing hu hpc hno =>
          obtain rfl := Option.some.inj (hu.process.symm.trans hcur)
          obtain rfl := Option.some.inj (hu.entry.symm.trans hp)
          exact absurd hno hring
        | enter hu hpc hne hs' =>
          obtain rfl := Option.some.inj (hu.process.symm.trans hcur)
          obtain rfl := Option.some.inj (hu.entry.symm.trans hp)
          exact ⟨_, hu, hs', rfl⟩
        | exit hact hu hpc ht => cases hact
      refine h.enter hctl hset hu hring hs' ((hmeet hcur).2 minComplete rfl) hm ?_
      obtain ⟨-, p', hu', ht⟩ :=
        Proceeds.enterSubmit hctl.orderly hctl.running (hctl.idle hu).2 hu hs'
      obtain ⟨hhead, htail⟩ := hmem.enterSubmit_empty hctl hu hring (hoff hp) hs'
      have hq := SameQueue.enterWait (m := m) hu' p.ringPa minComplete
      have hk' : k'.ringOf pid = p.ringPa := by rw [Kernel.ringOf_eq hu'.entry, ht.rest]
      split_ifs
      · rw [hq.backlog, Kernel.backlog, hk', if_neg hring, hhead, htail, BitVec.sub_self]
        rfl
      · have hdue := h.due
        have hhead' := hq.head
        rw [Kernel.backlog_of_ring hp hring] at hdue
        rw [hk', hhead] at hhead'
        rw [Submitter.passed, hq.ring, hk', if_neg hring, hhead']
        exact Nat.sub_eq_zero_of_le hdue
    · rw [if_neg fun ht ↦ henter ⟨0, ht.2⟩]
      rcases PollerLeft.of_move hctl hm with ⟨k', l', hcur, hmove, rfl⟩ | ⟨hl, hleft⟩
      · exact h.poller hctl hset hmem hread hoff hp hring hcur hmove
      have hsame : SameQueue pid m.k m'.k → Agreed pid m' (s.passed pid m.k m'.k) := by
        intro hq
        rw [hq.passed hz]
        exact h.same hl hleft hq
      rcases bystander_or_concerns hctl hmem hoff hp hring hm with ⟨hb, -⟩ | hc
      · exact hsame (.of_bystander hp hring hb)
      cases hc with
      | start hu hpc => exact hsame (.of_eq rfl rfl)
      | retest hu hpc => exact hsame (.enterWait (m := m) hu _ _)
      | @store va n v k' hu hpc hst =>
        obtain ⟨hhead, hflags, htail⟩ := (hkeep _ rfl hu.process).2 va n v _ rfl hs hz
        rw [show (m, s).1.k.ringOf pid = p.ringPa from Kernel.ringOf_eq hp] at hhead hflags htail
        have hps : k'.processes = m.k.processes := by
          obtain ⟨pa, rfl⟩ := Machine.userStore_cases hst
          rfl
        have hpassed : s.passed pid m.k k' = s := by
          rw [Submitter.passed, Kernel.ringOf_eq (hps ▸ hp), if_neg hring, hhead, BitVec.sub_self]
          rfl
        rw [hpassed]
        exact h.store hp hring hl hleft hps hhead hflags htail
      | enter hu hpc hs' => exact absurd ⟨_, rfl, hu.process⟩ henter
      | @exit u code report k' hu hpc ht =>
        have hpar := hctl.orderly.parent_ne hu.entry
        obtain ⟨k₁, msg, hrep, rfl⟩ := Kernel.teardown_cases (hu.kprintln report).entry hpar ht
        have hz' : (Kernel.taskExit (Kernel.kprintln (Kernel.activate { k₁ with
            phys := freeAddressSpace (Kernel.reclaim k₁.ttbr0 p.frames k₁.phys) p.ttbr0
            processes := k₁.processes.set pid (p.husk code) } k₁.kernelTtbr0) msg)).ringOf pid =
            0 := by
          refine Kernel.ringOf_eq (p := p.husk code) ?_
          rw [Kernel.taskExit, Kernel.schedule_processes, Kernel.activate_eq]
          exact hrep.getElem?_husk (hu.kprintln report).entry hpar
        exact ringless hz' (if_pos hz')
      | drained hcur hpc hd =>
        rw [← hl] at hpc
        cases hpc
      | flagged hcur hpc =>
        rw [← hl] at hpc
        cases hpc
      | notified hn huser => exact hsame (.of_header hp hn.entry hn.header)

/-- `submit` finds the flag down and returns. -/
theorem returns (h : Agreed pid m s) (hf : m.k.ringOf pid ≠ 0 → ¬ m.k.Flagged pid)
    (hdue : s'.due ≤ m.k.backlog pid) : Agreed pid m s' :=
  ⟨hdue, fun hne ↦ (h.dozing hne).unflagged (hf hne),
    fun hb hne ↦ absurd (h.asleep hb hne).1 (hf hne)⟩

/-- **`submit` loads the flag.** -/
theorem test (h : Agreed pid m s) (hctl : Ctl m) (hmem : MemOk L m) {x' : Machine × Submitter}
    (hs : Submitter.step pid (m, s) .test = some x') : Agreed pid x'.1 x'.2 ∧ x'.1 = m := by
  rw [Submitter.step] at hs
  split_ifs at hs with hrun
  obtain ⟨pa, hpa, hs⟩ := Option.bind_eq_some_iff.mp hs
  obtain ⟨p, hu⟩ := hctl.atUser hrun.1
  obtain ⟨own, hinv⟩ := hmem.inv
  split_ifs at hs with hflag
  · obtain rfl := Option.some.inj hs
    exact ⟨⟨h.due, h.dozing, h.asleep⟩, rfl⟩
  · obtain rfl := Option.some.inj hs
    refine ⟨h.returns (fun hne hf ↦ hflag ?_) le_rfl, rfl⟩
    rw [Kernel.ringOf_eq hu.entry] at hne
    -- the page at `USER_RING_VA` is the ring page
    rw [hu.root, hinv.el0WritablePa_ring hu.entry hne offFlags (by decide)] at hpa
    obtain rfl := Option.some.inj hpa
    rwa [Kernel.Flagged, Kernel.ringOf_eq hu.entry] at hf

end Agreed

end Steps

/-! ## Runs -/

section Runs

variable {programs : List (String × List UInt8)} {pid : Nat} {x x' : Machine × Submitter}
  {b : SubmitAct} {ok : Machine × Submitter → SubmitAct → Prop}

/-- What a step of the watched machine is. -/
theorem submitting_step (hs : (submitting programs pid).step x b = some x') :
    (∃ a, b = .act a ∧ x.1.step a = some x'.1 ∧
      x'.2 = if x.2.traps pid x.1 a then { trapping := false, due := x'.1.k.backlog pid }
        else x.2.passed pid x.1.k x'.1.k) ∨
    b = .test ∧ Submitter.step pid x .test = some x' := by
  cases b with
  | act a =>
    obtain ⟨m', hm', hs⟩ := Option.bind_eq_some_iff.mp hs
    refine .inl ⟨a, rfl, ?_⟩
    split_ifs at hs with ht
    · obtain rfl := Option.some.inj hs
      exact ⟨hm', (if_pos ht).symm⟩
    · obtain rfl := Option.some.inj hs
      exact ⟨hm', (if_neg ht).symm⟩
  | test => exact .inr ⟨rfl, hs⟩

/-- Without the process's record it is a run of the machine. -/
theorem machine_of_submitting (h : (submitting programs pid).Reach ok x) :
    (machine programs).Reach System.Free x.1 := by
  induction h with
  | init h => exact .init h.1
  | @step x x' b _ _ hs ih =>
    rcases submitting_step hs with ⟨a, -, hs, -⟩ | ⟨-, hs⟩
    · exact ih.step trivial hs
    · rw [Submitter.step] at hs
      split_ifs at hs
      obtain ⟨pa, -, hs⟩ := Option.bind_eq_some_iff.mp hs
      split_ifs at hs
      · obtain rfl := Option.some.inj hs
        exact ih
      · obtain rfl := Option.some.inj hs
        exact ih

/-- **The halves agree in every run** in which the process keeps to the library and meets the poller
awake. -/
theorem agreed_of_reach (hslot : ∀ q ∈ programs, Elf.InUserSlot q.2)
    (hoff : ∀ q ∈ programs, Elf.OffRing q.2)
    (h : (submitting programs pid).Reach
      (fun x b ↦ KeepsToLibrary pid x b ∧ MeetsPollerAwake pid x b) x) :
    Agreed pid x.1 x.2 := by
  refine h.invariant_of (J := fun x ↦ (machine programs).Reach System.Free x.1)
    (I := fun x ↦ Agreed pid x.1 x.2) (fun _ h ↦ machine_of_submitting h) ?_ ?_
  · rintro ⟨m, s⟩ ⟨⟨mem, kernelEnd, ticks, k, -, hb, hm⟩, hs⟩
    obtain rfl : m = bootMachine k := hm
    obtain rfl : s = ⟨false, 0⟩ := hs
    have hfresh := bootKernel_fresh hb
    have hz : (bootMachine k).k.ringOf pid = 0 := by
      rw [Kernel.ringOf, Processes.ringPa, show (bootMachine k).k.processes = [] from
        hfresh.processes]
      rfl
    exact .ringless hz rfl
  · rintro ⟨m, s⟩ b ⟨m', s'⟩ hreach hI ⟨hkeep, hmeet⟩ hs
    have hctl := ctl_of_reach hreach
    obtain ⟨L, hmem⟩ := memOk_of_reach hslot hreach
    rcases submitting_step hs with ⟨a, rfl, hs, hs'⟩ | ⟨-, hs⟩
    · have hmove := hI.move hctl (pollerSettled_of_reach hreach) hmem (readOk_of_reach hreach)
        (fun hp ↦ offRing_of_reach hoff hreach hp) hkeep hmeet hs
      rwa [← show s' = _ from hs'] at hmove
    · exact (hI.test hctl hmem hs).1

end Runs

/-! ## Runs of the shell -/

/-- A store into the submission entries leaves the header alone. -/
theorem entry_store_header (mem : Mem) (ringPa : Nat) {off n v : Nat} (hoff : offSq ≤ off) :
    HeaderAt ringPa (sqHead mem ringPa) mem (mem.store (ringPa + off) n v) := by
  have hload : ∀ {off' : Nat}, off' + 4 ≤ offSq →
      (mem.store (ringPa + off) n v).load (ringPa + off') 4 = mem.load (ringPa + off') 4 :=
    fun h ↦ Mem.load_store_disjoint (by omega)
  exact ⟨congrArg (BitVec.ofNat 32) (hload (by decide)),
    congrArg (BitVec.ofNat 32) (hload (by decide)),
    congrArg (BitVec.ofNat 32) (hload (by decide)), hload (by decide)⟩

namespace Scene

variable {programs : List (String × List UInt8)} {ok : Machine → Act → Prop} {m : Machine}
  {p : Process}

/-- All tasks have a turn, and the poller is where it was. -/
theorem round (h : Scene programs ok m [p] pollerTask) (hok : ∀ m, ok m .tick)
    (hel0 : m.user (taskOf 0) = .el0) :
    ∃ m', Scene programs ok m' [p] pollerTask ∧ m'.user = m.user ∧ m'.poller = m.poller ∧
      Idled m.k m'.k ∧ m'.k.ticks = (m.k.ticks + 3) % 2 ^ 64 := by
  obtain ⟨m₁, h₁, huser₁, hpoll₁, hidle₁, hticks₁, -⟩ :=
    h.tick (next_poller p []) (h.unmasked le_rfl) (hok _)
  obtain ⟨m₂, h₂, huser₂, hpoll₂, hidle₂, hticks₂, -⟩ :=
    h₁.tick (next_last [.exited, .exited, .kernel] _) (h₁.unmasked_user (.inl (huser₁ ▸ hel0)))
      (hok _)
  obtain ⟨m₃, h₃, huser₃, hpoll₃, hidle₃, hticks₃, -⟩ :=
    h₂.tick (next_kmain _) (h₂.unmasked (by decide)) (hok _)
  exact ⟨m₃, h₃, by rw [huser₃, huser₂, huser₁], by rw [hpoll₃, hpoll₂, hpoll₁],
    (hidle₁.trans hidle₂).trans hidle₃, by omega⟩

/-- **The poller is about to sleep**: nothing was submitted for some time, the flag is up, and the
re-scan has found nothing. -/
theorem dozes (h : Scene programs ok m [p] pollerTask)
    (hok : ∀ k l, ok { m with k := k, poller := l } .run)
    (hpc : m.poller.pc = .scan 1 0 false) (hidle : m.idleLongEnough = true) (hring : p.ringPa ≠ 0)
    (hempty : sqHead m.k.mem p.ringPa = sqTail m.k.mem p.ringPa) :
    Scene programs ok { m with
      k := m.k.ringStore p.ringPa offFlags 4 needWakeup
      poller := { m.poller with pc := .block } } [p] pollerTask := by
  have hpa : Processes.ringPa m.k.processes 0 = some p.ringPa := by
    rw [Processes.ringPa, h.processes]
    rfl
  have hlen : m.k.processes.length = 1 := by rw [h.processes]; rfl
  have hp : m.k.processes[0]? = some p := by rw [h.processes]; rfl
  -- the scan finds nothing
  have h₁ : Scene programs ok
      { m with poller := { m.poller with pc := .scanHead 1 0 p.ringPa false } } [p] pollerTask := by
    refine h.poll ?_ (hok m.k m.poller)
    simp only [Machine.pollerStep, hpc, hpa, Option.bind_eq_bind, Option.bind_some, if_neg hring,
      Machine.goto]
    rfl
  have h₂ := h₁.poll (l := { m.poller with
    pc := .scanTail 1 0 p.ringPa (sqHead m.k.mem p.ringPa) false }) rfl (hok _ _)
  have h₃ : Scene programs ok { m with poller := { m.poller with pc := .scan 1 1 false } } [p]
      pollerTask := by
    refine h₂.poll ?_ (hok _ _)
    simp only [Machine.pollerStep, hempty, ne_eq, not_true_eq_false, if_false, Machine.goto]
  have h₄ := h₃.poll (l := { m.poller with pc := .scanned false }) rfl (hok _ _)
  have h₅ : Scene programs ok { m with poller := { m.poller with pc := .flagsCount true .rescan } }
      [p] pollerTask := by
    refine h₄.poll ?_ (hok _ _)
    have hidle' : Machine.idleLongEnough
        { m with poller := { m.poller with pc := .scanned false } } = true := hidle
    simp only [Machine.pollerStep, hidle', Bool.false_eq_true, if_false, if_true, Machine.goto]
  -- the flag goes up
  have h₆ := h₅.poll (l := { m.poller with pc := .flagsScan true 1 0 .rescan })
    (by rw [← hlen]; rfl) (hok _ _)
  have h₇ : Scene programs ok
      { m with poller := { m.poller with pc := .flagsStore true 1 0 p.ringPa .rescan } } [p]
      pollerTask := by
    refine h₆.poll ?_ (hok _ _)
    simp only [Machine.pollerStep, hpa, Option.bind_eq_bind, Option.bind_some, if_neg hring,
      Machine.goto]
    rfl
  obtain ⟨k₁, hk₁⟩ : ∃ k₁ : Kernel, k₁ = m.k.ringStore p.ringPa offFlags 4 needWakeup := ⟨_, rfl⟩
  have hq := m.k.ringStore_quiet p.ringPa offFlags 4 needWakeup
  rw [← hk₁] at hq ⊢
  have h₈ : Scene programs ok
      { m with k := k₁, poller := { m.poller with pc := .flagsScan true 1 1 .rescan } } [p]
      pollerTask := by
    obtain ⟨L, own, hinv⟩ := h.inv
    refine h₇.polls (by rw [hk₁]; rfl) (hok _ _) ⟨L, own, ?_⟩ hq.processes hq.sched
      (by rw [hk₁]; rfl)
    exact hinv.write_page (.of_quiet hq) hp ((hinv.proc hp).ring hring).1
      (hk₁ ▸ m.k.ringStore_eqOn (by decide))
  -- the re-scan finds nothing
  have hpa₁ : Processes.ringPa k₁.processes 0 = some p.ringPa := by rw [hq.processes, hpa]
  have hlen₁ : k₁.processes.length = 1 := by rw [hq.processes, hlen]
  have hempty₁ : sqHead k₁.mem p.ringPa = sqTail k₁.mem p.ringPa := by
    rw [hk₁, Kernel.ringStore_mem, sqHead_store_flags, sqTail_store_flags, hempty]
  have h₉ := h₈.poll (l := { m.poller with pc := .rescanCount }) rfl (hok _ _)
  have h₁₀ := h₉.poll (l := { m.poller with pc := .rescan 1 0 }) (by rw [← hlen₁]; rfl) (hok _ _)
  have h₁₁ : Scene programs ok
      { m with k := k₁, poller := { m.poller with pc := .rescanHead 1 0 p.ringPa } } [p]
      pollerTask := by
    refine h₁₀.poll ?_ (hok _ _)
    simp only [Machine.pollerStep, hpa₁, Option.bind_eq_bind, Option.bind_some, if_neg hring,
      Machine.goto]
    rfl
  have h₁₂ := h₁₁.poll (l := { m.poller with
    pc := .rescanTail 1 0 p.ringPa (sqHead k₁.mem p.ringPa) }) rfl (hok _ _)
  have h₁₃ : Scene programs ok { m with k := k₁, poller := { m.poller with pc := .rescan 1 1 } } [p]
      pollerTask := by
    refine h₁₂.poll ?_ (hok _ _)
    simp only [Machine.pollerStep, hempty₁, ne_eq, not_true_eq_false, if_false, Machine.goto]
  exact h₁₃.poll (l := { m.poller with pc := .block }) rfl (hok _ _)

/-- The process enters with its flag up and nothing submitted while the poller is not asleep yet:
the flag goes down, and nobody is woken. -/
theorem lowers (h : Scene programs ok m [p] (taskOf 0)) (hok : ok m (.user (.enter 0)))
    (hel0 : m.user (taskOf 0) = .el0) (hring : p.ringPa ≠ 0) (hrec : m.k.poller = some pollerTask)
    (hflag : flags m.k.mem p.ringPa &&& needWakeup ≠ 0)
    (hempty : sqHead m.k.mem p.ringPa = sqTail m.k.mem p.ringPa) :
    Scene programs ok { m with k := m.k.ringStore p.ringPa offFlags 4 0 } [p] (taskOf 0) := by
  have hu := h.atUser (p := p) rfl
  obtain ⟨L, own, hinv⟩ := h.inv
  obtain ⟨k₁, hk₁⟩ : ∃ k₁ : Kernel, k₁ = m.k.ringStore p.ringPa offFlags 4 0 := ⟨_, rfl⟩
  have hq := m.k.ringStore_quiet p.ringPa offFlags 4 0
  have hsched : k₁.sched = { tasks := allTasks [p], current := taskOf 0 } := by
    rw [hk₁, hq.sched, h.sched]
  have hwake : k₁.wake pollerTask = k₁ := by
    rw [Kernel.wake, show k₁.sched.wake pollerTask = k₁.sched by rw [hsched]; rfl]
  have hpa : Processes.ringPa m.k.processes 0 = some p.ringPa := by
    rw [Processes.ringPa, hu.entry, Option.map_some]
  have hempty₁ : sqHead k₁.mem p.ringPa = sqTail k₁.mem p.ringPa := by
    rw [hk₁, Kernel.ringStore_mem, sqHead_store_flags, sqTail_store_flags, hempty]
  have hdrain : k₁.drain 0 = some k₁ := by
    rw [Kernel.drain, show Processes.ringPa k₁.processes 0 = some p.ringPa by
      rw [hk₁, hq.processes, hpa]]
    simp only [Option.bind_eq_bind, Option.bind_some, if_neg hring, hempty₁, BitVec.sub_self]
    rfl
  have hsubmit : m.k.enterSubmit 0 p.ringPa = some k₁ := by
    rw [Kernel.enterSubmit, if_pos hflag]
    dsimp only
    rw [hq.poller, hrec, ← hk₁]
    dsimp only
    rw [hwake, hdrain]
  have hwait : Machine.enterWait { m with k := k₁ } 0 p.ringPa 0 = { m with k := k₁ } := by
    rw [Machine.enterWait, if_pos (Nat.zero_le _), Machine.userGoto, hsched]
    dsimp only
    rw [← hel0, Function.update_eq_self]
  rw [← hk₁]
  refine ⟨h.reach.step hok ?_, ⟨L, own, ?_⟩, ?_, hsched, h.kmain, h.kernelTasks, ?_⟩
  · refine (Machine.step_user hu hel0 _).trans ?_
    rw [Machine.userStep, hpa]
    simp only [Option.bind_eq_bind, Option.bind_some, if_neg hring, hsubmit, hwait]
  · rw [hk₁]
    exact hinv.write_page (.of_quiet hq) hu.entry ((hinv.proc hu.entry).ring hring).1
      (m.k.ringStore_eqOn (by decide))
  · rw [hk₁, hq.processes, h.processes]
  · rw [hk₁]
    exact h.input

end Scene

/-- What the shell does keeps to the library, with no call of `submit` under way. -/
def LibraryStep (m : Machine) (a : Act) : Prop :=
  ∀ due, KeepsToLibrary 0 (m, { trapping := false, due }) (.act a)

theorem LibraryStep.of_storeless {m : Machine} {a : Act}
    (h : ∀ va n v, a ≠ .user (.store va n v)) : LibraryStep m a := by
  rintro due u hu -
  refine ⟨by rintro ⟨⟩, fun va n v m' he ↦ ?_⟩
  cases hu
  cases he
  exact absurd rfl (h va n v)

namespace Scene

variable {programs : List (String × List UInt8)} {ok : Machine → Act → Prop} {m : Machine}
  {p : Process}

/-- A store of the shell to its ring. -/
theorem libraryStep (h : Scene programs ok m [p] (taskOf 0)) (hel0 : m.user (taskOf 0) = .el0)
    (hring : p.ringPa ≠ 0) {off n v : Nat}
    (hn : (n = 1 ∨ n = 2 ∨ n = 4 ∨ n = 8) ∧ (userRingVa + off) % n = 0) (hoff : off < 4096)
    (hhead : sqHead (m.k.mem.store (p.ringPa + off) n v) p.ringPa = sqHead m.k.mem p.ringPa)
    (hflags : flags (m.k.mem.store (p.ringPa + off) n v) p.ringPa = flags m.k.mem p.ringPa)
    (htail : sqTail (m.k.mem.store (p.ringPa + off) n v) p.ringPa = sqTail m.k.mem p.ringPa ∨
      sqTail (m.k.mem.store (p.ringPa + off) n v) p.ringPa = sqTail m.k.mem p.ringPa + 1 ∧
        sqTail m.k.mem p.ringPa + 1 ≠ sqHead m.k.mem p.ringPa) :
    LibraryStep m (.user (.store (userRingVa + off) n v)) := by
  have hu := h.atUser (p := p) rfl
  obtain ⟨L, own, hinv⟩ := h.inv
  have hstep : m.step (.user (.store (userRingVa + off) n v)) =
      some { m with k := m.k.setMem (m.k.mem.store (p.ringPa + off) n v) } := by
    rw [Machine.step_user hu hel0, Machine.userStep, Machine.userStore, if_pos hn, hu.root,
      hinv.el0WritablePa_ring hu.entry hring off hoff]
    rfl
  rintro due u hu' -
  cases hu'
  refine ⟨by rintro ⟨⟩, fun va n v m' he hs _ ↦ ?_⟩
  cases he
  obtain rfl := Option.some.inj (hstep.symm.trans hs)
  show sqHead _ (m.k.ringOf 0) = sqHead _ (m.k.ringOf 0) ∧ _
  rw [Kernel.ringOf_eq hu.entry]
  exact ⟨hhead, hflags, htail⟩

/-- `sqe()`: the shell writes an entry and moves the tail. -/
theorem publishes (h : Scene programs ok m [p] (taskOf 0))
    (hok : ∀ k a, LibraryStep { m with k := k } a → ok { m with k := k } a)
    (hel0 : m.user (taskOf 0) = .el0) (hring : p.ringPa ≠ 0)
    (hroom : sqTail m.k.mem p.ringPa + 1 ≠ sqHead m.k.mem p.ringPa) (op arg0 arg1 tag : Nat) :
    Scene programs ok
      { m with k := m.k.setMem (submitted m.k.mem p.ringPa op arg0 arg1 tag) } [p] (taskOf 0) := by
  have hslot := slot_lt (sqTail m.k.mem p.ringPa)
  obtain ⟨a, ha⟩ : ∃ a, a = offSq + 32 * slot (sqTail m.k.mem p.ringPa) := ⟨_, rfl⟩
  have hadd : sqeAddr p.ringPa (slot (sqTail m.k.mem p.ringPa)) = p.ringPa + a := by
    rw [sqeAddr, ha, Nat.add_assoc]
  have hbase : userRingVa = 0x80_0030_0000 := rfl
  have hsq : offSq = 0x40 := rfl
  -- a word of the entry
  have hword : ∀ {mem : Mem} (off v : Nat),
      Scene programs ok { m with k := m.k.setMem mem } [p] (taskOf 0) → off % 8 = 0 → offSq ≤ off →
      off + 8 ≤ 4096 →
      Scene programs ok { m with k := m.k.setMem (mem.store (p.ringPa + off) 8 v) } [p]
        (taskOf 0) := by
    intro mem off v h hal hlow hhigh
    have hat := entry_store_header mem p.ringPa (n := 8) (v := v) hlow
    have hn : (8 = 1 ∨ 8 = 2 ∨ 8 = 4 ∨ 8 = 8) ∧ (userRingVa + off) % 8 = 0 := by omega
    exact h.store rfl hel0 hring off 8 v hn (by omega)
      (hok _ _ (h.libraryStep hel0 hring hn (by omega) hat.sqHead hat.flags (.inl hat.sqTail)))
  have h₁ := hword a op h (by omega) (by omega) (by omega)
  have h₂ := hword (a + 8) arg0 h₁ (by omega) (by omega) (by omega)
  have h₃ := hword (a + 16) arg1 h₂ (by omega) (by omega) (by omega)
  have h₄ := hword (a + 24) tag h₃ (by omega) (by omega) (by omega)
  obtain ⟨mem, hmem⟩ : ∃ mem, mem = writeSqe m.k.mem (p.ringPa + a) op arg0 arg1 tag := ⟨_, rfl⟩
  have hload : ∀ {off : Nat}, off + 4 ≤ offSq →
      mem.load (p.ringPa + off) 4 = m.k.mem.load (p.ringPa + off) 4 := by
    intro off hoff
    rw [hmem]
    exact writeSqe_load _ _ _ _ _ (.inl (by omega))
  rw [submitted, hadd, ← hmem]
  rw [writeSqe, Nat.add_assoc, Nat.add_assoc, Nat.add_assoc] at hmem
  rw [← hmem] at h₄
  -- the tail
  have hhead : sqHead mem p.ringPa = sqHead m.k.mem p.ringPa :=
    congrArg (BitVec.ofNat 32) (hload (by decide))
  have htail : sqTail mem p.ringPa = sqTail m.k.mem p.ringPa :=
    congrArg (BitVec.ofNat 32) (hload (by decide))
  rw [← htail, ← hhead] at hroom
  rw [← htail]
  have hkeep : ∀ {off v : Nat}, off + 4 ≤ offSqTail ∨ offSqTail + 4 ≤ off →
      (mem.store (p.ringPa + offSqTail) 4 v).load (p.ringPa + off) 4 =
        mem.load (p.ringPa + off) 4 := by
    intro off v hoff
    exact Mem.load_store_disjoint (by omega)
  exact h₄.store rfl hel0 hring offSqTail 4 _ (by decide) (by decide) <| hok _ _ <|
    h₄.libraryStep hel0 hring (by decide) (by decide)
      (congrArg (BitVec.ofNat 32) (hkeep (by decide))) (hkeep (by decide))
      (.inr ⟨sqTail_store .., hroom⟩)

end Scene

/-- **The poller is about to block, and the shell runs** with its flag up. -/
theorem exists_dozing (ok : Machine → Act → Prop)
    (hok : ∀ m a, (∀ va n v, a ≠ .user (.store va n v)) → ok m a) :
    ∃ m p, Scene shellOnly ok m [p] (taskOf 0) ∧ m.user (taskOf 0) = .el0 ∧
      m.poller.pc = .block ∧ p.ringPa ≠ 0 ∧ m.k.poller = some pollerTask ∧
      flags m.k.mem p.ringPa = needWakeup ∧ sqHead m.k.mem p.ringPa = 0 ∧
      sqTail m.k.mem p.ringPa = 0 := by
  obtain ⟨m, p, h, hel0, hpoll, hshell, hzero, -⟩ :=
    exists_ringed_storeless ok fun m a hs _ _ ↦ hok m a hs
  have htick : ∀ m, ok m .tick := fun m ↦ hok m .tick (by rintro _ _ _ ⟨⟩)
  have hrun : ∀ m, ok m .run := fun m ↦ hok m .run (by rintro _ _ _ ⟨⟩)
  obtain ⟨m₁, h₁, huser₁, hpoll₁, hidle₁, -⟩ := h.tick (next_last [.exited, .exited, .kernel] _)
    (h.unmasked_user (.inl hel0)) (htick _)
  obtain ⟨m₂, h₂, huser₂, hpoll₂, hidle₂, hticks₂, -⟩ :=
    h₁.tick (next_kmain _) (h₁.unmasked (by decide)) (htick _)
  -- the poller begins its first round, and is preempted for a while
  obtain ⟨m₃, h₃, huser₃, hpoll₃, hk₃⟩ := h₂.begins (by rw [hpoll₂, hpoll₁, hpoll])
    fun _ _ _ _ ↦ hrun _
  have hel₃ : m₃.user (taskOf 0) = .el0 := by rw [huser₃, huser₂, huser₁, hel0]
  obtain ⟨m₄, h₄, huser₄, hpoll₄, hidle₄, hticks₄⟩ := h₃.round htick hel₃
  obtain ⟨m₅, h₅, huser₅, hpoll₅, hidle₅, hticks₅⟩ := h₄.round htick (huser₄ ▸ hel₃)
  have hmem : m₅.k.mem = m.k.mem := by
    have hphys : m₃.k.phys = m₂.k.phys := by rw [hk₃]
    exact congrArg Phys.mem ((((hidle₅.phys.trans hidle₄.phys).trans hphys).trans
      hidle₂.phys).trans hidle₁.phys)
  have hhead : sqHead m₅.k.mem p.ringPa = 0 := by rw [hmem]; exact sqHead_of_zero hzero
  have htail : sqTail m₅.k.mem p.ringPa = 0 := by rw [hmem]; exact sqTail_of_zero hzero
  have hidle : m₅.idleLongEnough = true := by
    have hlast : m₅.poller.lastWork = m₂.k.ticks := by rw [hpoll₅, hpoll₄, hpoll₃]
    have hticks₃ : m₃.k.ticks = m₂.k.ticks := by rw [hk₃]
    rw [Machine.idleLongEnough, hlast, decide_eq_true_iff, Machine.sqIdleTicks]
    omega
  -- it goes to sleep, but for the last step
  have h₆ := h₅.dozes (fun _ _ ↦ hrun _) (by rw [hpoll₅, hpoll₄, hpoll₃]; rfl) hidle hshell.ring
    (hhead.trans htail.symm)
  obtain ⟨m₇, h₇, huser₇, hpoll₇, hidle₇, -⟩ :=
    h₆.tick (next_poller p []) (h₆.unmasked le_rfl) (htick _)
  have hmem₇ : m₇.k.mem = (m₅.k.ringStore p.ringPa offFlags 4 needWakeup).mem :=
    congrArg Phys.mem hidle₇.phys
  refine ⟨m₇, p, h₇, ?_, by rw [hpoll₇], hshell.ring, ?_, ?_, ?_, ?_⟩
  · rw [huser₇]
    show m₅.user (taskOf 0) = .el0
    rw [huser₅, huser₄, hel₃]
  · rw [hidle₇.poller]
    show m₅.k.poller = some pollerTask
    rw [hidle₅.poller, hidle₄.poller, hk₃]
  · rw [flags, hmem₇]
    exact Mem.load_store_of_lt _ (by decide)
  · rw [hmem₇, Kernel.ringStore_mem, sqHead_store_flags, hhead]
  · rw [hmem₇, Kernel.ringStore_mem, sqTail_store_flags, htail]

section Watched

variable {programs : List (String × List UInt8)} {pid : Nat} {m m' : Machine} {a : Act}
  {s : Submitter} {p : Process}

/-- A step of the machine, with no call of `submit` under way. -/
theorem submitting_act (hs : m.step a = some m') (ht : s.trapping = false) :
    (submitting programs pid).step (m, s) (.act a) = some (m', s.passed pid m.k m'.k) := by
  have hno : ¬ s.traps pid m a := by
    rintro ⟨h, -⟩
    rw [ht] at h
    cases h
  show Submitter.step pid (m, s) (.act a) = _
  rw [Submitter.step]
  simp only [hs, Option.bind_eq_bind, Option.bind_some, if_neg hno]

/-- A step that leaves the queue alone leaves due what is due. -/
theorem submitting_same {ok : Machine × Submitter → SubmitAct → Prop}
    (h : (submitting programs pid).Reach ok (m, s)) (hok : ok (m, s) (.act a))
    (hs : m.step a = some m') (ht : s.trapping = false) (hring : m.k.ringOf pid ≠ 0)
    (hq : SameQueue pid m.k m'.k) : (submitting programs pid).Reach ok (m', s) := by
  have hnext := h.step hok (submitting_act hs ht)
  rwa [hq.passed hring] at hnext

/-- A run of the machine is one with the process watched, as long as it does not submit. -/
theorem submitting_of_machine (pid : Nat) {ok : Machine → Act → Prop}
    (ok' : Machine × Submitter → SubmitAct → Prop)
    (hok : ∀ m a due, ok m a → ok' (m, { trapping := false, due }) (.act a))
    (h : (machine programs).Reach ok m) :
    ∃ due, (submitting programs pid).Reach ok' (m, { trapping := false, due }) := by
  induction h with
  | init h => exact ⟨0, .init ⟨h, rfl⟩⟩
  | step _ hs hstep ih =>
    obtain ⟨due, ih⟩ := ih
    exact ⟨_, ih.step (hok _ _ due hs) (submitting_act hstep rfl)⟩

/-- `submit` of the running process finds its flag down. -/
theorem submitting_test {L : Layout} {own : Nat → Owner} {strict : Prop}
    (hinv : Inv strict L own m.k) (hu : AtUser m.k pid p) (hel0 : m.user (taskOf pid) = .el0)
    (hring : p.ringPa ≠ 0) (hflag : flags m.k.mem p.ringPa &&& needWakeup = 0)
    (ht : s.trapping = false) :
    (submitting programs pid).step (m, s) .test =
      some (m, { s with due := m.k.backlog pid }) := by
  have hpa := hinv.el0WritablePa_ring hu.entry hring offFlags (by decide)
  have hdown : ¬ m.k.mem.load (p.ringPa + offFlags) 4 &&& needWakeup ≠ 0 := not_not.mpr hflag
  show Submitter.step pid (m, s) .test = _
  rw [Submitter.step, if_pos ⟨hu.process, by rw [Machine.userPc, hu.current]; exact hel0, ht⟩,
    hu.root, hpa]
  simp only [Option.bind_eq_bind, Option.bind_some, if_neg hdown]

/-- One entry more. -/
theorem Kernel.backlog_submitted {k : Kernel} (hp : k.processes[pid]? = some p)
    (hring : p.ringPa ≠ 0) (hempty : sqHead k.mem p.ringPa = sqTail k.mem p.ringPa)
    (op arg0 arg1 tag : Nat) :
    (k.setMem (submitted k.mem p.ringPa op arg0 arg1 tag)).backlog pid = 1 := by
  have hp' : (k.setMem (submitted k.mem p.ringPa op arg0 arg1 tag)).processes[pid]? = some p := hp
  have htail := submitted_sqTail k.mem p.ringPa op arg0 arg1 tag
  have hhead := submitted_sqHead k.mem p.ringPa op arg0 arg1 tag
  rw [Kernel.backlog_of_ring hp' hring,
    show sqTail (k.setMem (submitted k.mem p.ringPa op arg0 arg1 tag)).mem _ = _ from htail,
    show sqHead (k.setMem (submitted k.mem p.ringPa op arg0 arg1 tag)).mem _ = _ from hhead,
    hempty, BitVec.add_comm, BitVec.add_sub_cancel]
  rfl

end Watched

/-! ## What is left behind, and when -/

/-- **No submission is left behind.**  In every run in which the process keeps to the library, does
not set up its ring while the poller is on its way to sleep or asleep, and does not call `enter`
with its flag up while the poller is on its way: in every state, all entries for which a call of
`submit` has returned have been consumed, or the poller is not blocked. -/
theorem submissions_served {programs : List (String × List UInt8)} {pid : Nat}
    {x : Machine × Submitter} (hslot : ∀ q ∈ programs, Elf.InUserSlot q.2)
    (hoff : ∀ q ∈ programs, Elf.OffRing q.2)
    (h : (submitting programs pid).Reach
      (fun x b ↦ KeepsToLibrary pid x b ∧ MeetsPollerAwake pid x b) x) :
    x.2.due = 0 ∨ ¬ x.1.k.sched.Blocked pollerTask := by
  have hagreed := agreed_of_reach hslot hoff h
  by_cases hz : x.1.k.ringOf pid = 0
  · have hdue := hagreed.due
    rw [Kernel.backlog_of_no_ring hz] at hdue
    exact .inl (Nat.le_zero.mp hdue)
  · rw [or_iff_not_imp_right, not_not]
    exact fun hb ↦ (hagreed.asleep hb hz).2

/-- The shell has published an entry and returned from `submit`; so the poller is not blocked. -/
theorem submissions_served_shell : ∃ x, (submitting shellOnly 0).Reach
      (fun x b ↦ KeepsToLibrary 0 x b ∧ MeetsPollerAwake 0 x b) x ∧
    x.2.due = 1 ∧ ¬ x.1.k.sched.Blocked pollerTask := by
  obtain ⟨m, p, h, hel0, hpoll, hshell, hzero, -⟩ := exists_ringed_storeless
    (fun m a ↦ LibraryStep m a ∧ m.poller.pc = .record) fun m a hs hpc _ ↦ ⟨.of_storeless hs, hpc⟩
  have hhead := sqHead_of_zero hzero
  have htail := sqTail_of_zero hzero
  have h₁ := h.publishes (fun _ _ hl ↦ ⟨hl, by rw [hpoll]⟩) hel0 hshell.ring
    (by rw [hhead, htail]; decide) opNop 0 0 0
  obtain ⟨m₁, hm₁⟩ : ∃ m₁ : Machine, m₁ = { m with
    k := m.k.setMem (submitted m.k.mem p.ringPa opNop 0 0 0) } := ⟨_, rfl⟩
  rw [← hm₁] at h₁
  -- the poller has not begun, so it is not on its way to sleep
  have hawake : (machine shellOnly).Reach (fun m a ↦
      LibraryStep m a ∧ m.poller.pc = .record ∧ ¬ m.k.sched.Blocked pollerTask) m₁ := by
    refine h₁.reach.mono_of (fun _ h ↦ pollerSettled_of_reach h) fun m a hset ha ↦
      ⟨ha.1, ha.2, fun hb ↦ ?_⟩
    rw [hset.asleep hb] at ha
    cases ha.2
  obtain ⟨due, hreach⟩ := submitting_of_machine 0
    (fun x b ↦ KeepsToLibrary 0 x b ∧ MeetsPollerAwake 0 x b)
    (fun m a due ha ↦ ⟨ha.1 due, fun _ ↦ ⟨fun _ _ ↦ ⟨by rw [ha.2.1]; rfl, ha.2.2⟩,
      fun _ _ _ ↦ by rw [ha.2.1]; rfl⟩⟩) hawake
  obtain ⟨L, own, hinv⟩ := h₁.inv
  have hflag : flags m₁.k.mem p.ringPa &&& needWakeup = 0 := by
    rw [hm₁, flags]
    refine (congrArg (· &&& needWakeup) ((submitted_load m.k.mem p.ringPa opNop 0 0 0
      (by decide)).trans (load_of_zero_frame hzero (by decide)))).trans rfl
  have hone : m₁.k.backlog 0 = 1 := by
    rw [hm₁]
    exact m.k.backlog_submitted (h.atUser (p := p) rfl).entry hshell.ring
      (hhead.trans htail.symm) opNop 0 0 0
  have hreach₁ := hreach.step ⟨by rintro _ ⟨⟩, fun _ ↦ ⟨by rintro ⟨⟩, by rintro _ ⟨⟩⟩⟩
    (submitting_test hinv (h₁.atUser rfl) (by rw [hm₁]; exact hel0) hshell.ring hflag rfl)
  refine ⟨_, hreach₁, hone, ?_⟩
  rcases submissions_served shellOnly_inUserSlot shellOnly_offRing hreach₁ with hz | hb
  · rw [show m₁.k.backlog 0 = 0 from hz] at hone
    cases hone
  · exact hb

/-- The shell enters with its flag up while the poller is about to block, publishes an entry and
returns from `submit`, having found the flag down; then the poller blocks. -/
theorem submission_stranded : ∃ x, (submitting shellOnly 0).Reach (KeepsToLibrary 0) x ∧
    0 < x.2.due ∧ x.1.k.sched.Blocked pollerTask := by
  obtain ⟨m, p, h, hel0, hpc, hring, hrec, hflags, hhead, htail⟩ :=
    exists_dozing LibraryStep fun _ _ ↦ .of_storeless
  -- `enter` lowers the flag, then the shell publishes
  have h₁ := h.lowers (.of_storeless (by rintro _ _ _ ⟨⟩)) hel0 hring hrec
    (by rw [hflags]; decide) (hhead.trans htail.symm)
  obtain ⟨k₁, hk₁⟩ : ∃ k₁ : Kernel, k₁ = m.k.ringStore p.ringPa offFlags 4 0 := ⟨_, rfl⟩
  have hhead₁ : sqHead k₁.mem p.ringPa = 0 := by
    rw [hk₁, Kernel.ringStore_mem, sqHead_store_flags, hhead]
  have htail₁ : sqTail k₁.mem p.ringPa = 0 := by
    rw [hk₁, Kernel.ringStore_mem, sqTail_store_flags, htail]
  have hflag₁ : flags k₁.mem p.ringPa = 0 := by rw [hk₁]; exact Mem.load_store_of_lt _ (by decide)
  rw [← hk₁] at h₁
  have h₂ := h₁.publishes (fun _ _ hl ↦ hl) hel0 hring
    (by show sqTail k₁.mem _ + 1 ≠ sqHead k₁.mem _; rw [hhead₁, htail₁]; decide) opNop 0 0 0
  obtain ⟨m₂, hm₂⟩ : ∃ m₂ : Machine, m₂ = { m with
    k := k₁.setMem (submitted k₁.mem p.ringPa opNop 0 0 0) } := ⟨_, rfl⟩
  have hone : m₂.k.backlog 0 = 1 := by
    rw [hm₂]
    exact k₁.backlog_submitted (h₁.atUser (p := p) rfl).entry hring (hhead₁.trans htail₁.symm)
      opNop 0 0 0
  have hflag₂ : flags m₂.k.mem p.ringPa &&& needWakeup = 0 := by
    rw [hm₂, flags]
    exact (congrArg (· &&& needWakeup) ((submitted_load k₁.mem p.ringPa opNop 0 0 0
      (by decide)).trans hflag₁)).trans rfl
  obtain ⟨hel₂, hpc₂⟩ : m₂.user (taskOf 0) = .el0 ∧ m₂.poller.pc = .block := by
    rw [hm₂]
    exact ⟨hel0, hpc⟩
  rw [show ({ m with k := k₁.setMem (submitted k₁.mem p.ringPa opNop 0 0 0) } : Machine) = m₂
    from hm₂.symm] at h₂
  -- `submit` returns
  obtain ⟨due, hreach₂⟩ := submitting_of_machine 0 (KeepsToLibrary 0)
    (fun m a due ha ↦ ha due) h₂.reach
  obtain ⟨L, own, hinv⟩ := h₂.inv
  have hreach := hreach₂.step (by rintro _ ⟨⟩)
    (submitting_test hinv (h₂.atUser rfl) hel₂ hring hflag₂ rfl)
  -- the poller has its turn, and blocks
  have hring₂ : m₂.k.ringOf 0 ≠ 0 := by rwa [Kernel.ringOf_eq (h₂.atUser (p := p) rfl).entry]
  obtain ⟨m₃, hs₃, h₃, -, hpoll₃, hidle₃, -⟩ := h₂.ticks
    (next_last [.exited, .exited, .kernel] _) (h₂.unmasked_user (.inl hel₂))
    (.of_storeless (by rintro _ _ _ ⟨⟩))
  have hq₃ : SameQueue 0 m₂.k m₃.k := .of_eq hidle₃.processes (congrArg Phys.mem hidle₃.phys)
  have hreach₃ := submitting_same hreach (by rintro _ ⟨⟩) hs₃ rfl hring₂ hq₃
  obtain ⟨m₄, hs₄, h₄, -, hpoll₄, hidle₄, -⟩ := h₃.ticks (next_kmain _) (h₃.unmasked (by decide))
    (.of_storeless (by rintro _ _ _ ⟨⟩))
  have hq₄ : SameQueue 0 m₃.k m₄.k := .of_eq hidle₄.processes (congrArg Phys.mem hidle₄.phys)
  have hreach₄ := submitting_same hreach₃ (by rintro _ ⟨⟩) hs₄ rfl (hq₃.ring ▸ hring₂) hq₄
  have hblock : m₄.step .run =
      some { m₄.goto (.flagsCount false .stamp) with k := m₄.k.blockCurrent } := by
    rw [Machine.step_poller (by rw [Machine.atPoller, h₄.sched]), Machine.pollerStep, hpoll₄,
      hpoll₃, hpc₂]
  have hq₅ : SameQueue 0 m₄.k m₄.k.blockCurrent :=
    .of_eq (Kernel.schedule_processes _) (by rw [Kernel.blockCurrent, Kernel.schedule_eq])
  have hreach₅ := submitting_same hreach₄ (by rintro _ ⟨⟩) hblock rfl
    (by rw [hq₄.ring, hq₃.ring]; exact hring₂) hq₅
  refine ⟨_, hreach₅, by show 0 < m₂.k.backlog 0; rw [hone]; exact Nat.one_pos,
    { Task.kernel with wakeAt := u64Max, state := .blocked }, ?_, rfl⟩
  show m₄.k.blockCurrent.sched.tasks[pollerTask]? = _
  rw [Kernel.blockCurrent, Kernel.schedule_tasks]
  dsimp only
  rw [h₄.sched]
  rfl

end Jatuli

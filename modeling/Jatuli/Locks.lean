import Jatuli.Driving
import Jatuli.Lib.Spinlock

/-!
# The locks

The machine takes a section under masked interrupts, and an access of unmasked code to shared
state, as one step.  Here is what it leaves out: for every function of the kernel that takes a lock,
or calls one that does, the locks it takes, in their order, and where it masks interrupts
(`Skeleton`).  What a branch depends on is not looked at, so a skeleton has more ways through it
than the function.

An action of the machine has a point in its skeleton at which it happens: the access under a guard,
the context switch, the end of a system call.  `locking` is the machine with its locks.  A timer or
UART interrupt may come at every point where interrupts are not masked, so also while `count`,
`ring_pa` and the like hold `PROCESSES` for the poller.

That is what goes wrong: the poller is preempted there, and the next process that makes a system
call spins on `PROCESSES` for ever, with interrupts masked (`enter_deadlocks`).  If no interrupt
comes while the code it interrupts holds a lock, no context ever finds a lock taken
(`lock_never_spins`).

What the locks are for does not fail: in every run each of them is held by one context at a time
(`lock_exclusive`).  And the machine without them leaves nothing out but the deadlocks: it gets to
the same states as the machine with its locks does (`locking_reach_iff`).
-/

set_option autoImplicit false

namespace Jatuli

/-- The statics of type `Locked<_>`. -/
inductive Lock
  /-- `PROCESSES` -/
  | processes
  /-- `SCHEDULER` -/
  | scheduler
  /-- `RING` -/
  | ring
  /-- `INPUT` -/
  | input
  /-- `FRAME_ALLOCATOR` -/
  | frameAllocator
  /-- `ALLOCATOR` -/
  | allocator
deriving DecidableEq, Repr

/-- What a function does to the locks. -/
abbrev Skeleton := Spinlock.Code Act Lock

namespace Skeleton

open Spinlock.Code

/-- A guard that is dropped at the end of its statement or of the function. -/
def guarded (l : Lock) (a : Option Act) : Skeleton := locked l skip a

/-- Perhaps. -/
def optionally (c : Skeleton) : Skeleton := either skip c

/-- The action happens, if there is one. -/
def happens : Option Act → Skeleton
  | none => skip
  | some a => act a

/-! ## Memory -/

/-- `GlobalAlloc::alloc` -/
def alloc : Skeleton := guarded .allocator none

/-- `GlobalAlloc::dealloc` -/
def dealloc : Skeleton := guarded .allocator none

/-- `Vec::push`: a full vector moves to a new buffer. -/
def push : Skeleton := optionally (alloc ++ optionally dealloc)

/-- `alloc_frame` -/
def allocFrame : Skeleton := guarded .frameAllocator none

/-- `free_frame` -/
def freeFrame : Skeleton := guarded .frameAllocator none

/-- `free_frame_at` -/
def freeFrameAt : Skeleton := guarded .frameAllocator none

/-- `alloc_table` -/
def allocTable : Skeleton := allocFrame

/-- `get_or_create` -/
def getOrCreate : Skeleton := optionally allocTable

/-- `map_page_in` -/
def mapPageIn : Skeleton := getOrCreate ++ getOrCreate ++ getOrCreate

/-- `new_address_space` -/
def newAddressSpace : Skeleton := allocTable

/-- `activate` -/
def activate (a : Option Act) : Skeleton := masked (happens a)

/-- `free_subtree`: the tables below, then the table. -/
def freeSubtree : Skeleton := loop freeFrameAt ++ freeFrameAt

/-- `free_address_space` -/
def freeAddressSpace : Skeleton := optionally freeSubtree ++ freeFrameAt

/-- `elf::load`: page by page. -/
def load : Skeleton := loop (allocFrame ++ mapPageIn ++ push)

/-! ## `process.rs` -/

/-- `process::create` -/
def create (a : Option Act) : Skeleton :=
  load ++ allocFrame ++ mapPageIn ++ push ++ locked .processes push a

/-- `process::set_parent` -/
def setParent : Skeleton := guarded .processes none

/-- `process::parent` -/
def parent : Skeleton := guarded .processes none

/-- `process::exit_code` -/
def exitCode : Skeleton := guarded .processes none

/-- `process::register_wait` -/
def registerWait : Skeleton := guarded .processes none

/-- `process::on_exit` -/
def onExit : Skeleton := guarded .processes none

/-- `process::count` -/
def count (a : Option Act) : Skeleton := guarded .processes a

/-- `process::ttbr0` -/
def ttbr0 (a : Option Act) : Skeleton := guarded .processes a

/-- `process::entry` -/
def entry (a : Option Act) : Skeleton := guarded .processes a

/-- `process::ring_pa` -/
def ringPa (a : Option Act) : Skeleton := guarded .processes a

/-- `process::set_ring` -/
def setRing : Skeleton := locked .processes push none

/-- `process::set_foreground` -/
def setForeground (a : Option Act) : Skeleton := guarded .processes a

/-- `process::foreground_pid` -/
def foregroundPid : Skeleton := guarded .processes none

/-- `process::park_read` -/
def parkRead : Skeleton := guarded .processes none

/-- `process::pending_snapshot` -/
def pendingSnapshot : Skeleton := guarded .processes none

/-- `process::clear_pending` -/
def clearPending : Skeleton := guarded .processes none

/-- `process::set_waiter` -/
def setWaiter : Skeleton := guarded .processes none

/-- `process::take_waiter` -/
def takeWaiter : Skeleton := guarded .processes none

/-- `process::clear_ring` -/
def clearRing : Skeleton := guarded .processes none

/-- `process::take_frames` -/
def takeFrames : Skeleton := guarded .processes none

/-- `process::mark_exited` -/
def markExited : Skeleton := guarded .processes none

/-- `process::is_user_range`: the stack is tested without the lock. -/
def isUserRange : Skeleton := optionally (guarded .processes none)

/-! ## `sched.rs` -/

/-- `schedule`: the next task is chosen under the lock, the switch comes after it. -/
def schedule (a : Option Act) : Skeleton :=
  guarded .scheduler none ++ optionally (activate none) ++ happens a

/-- `spawn_inner`: the stack comes from the heap. -/
def spawnInner (a : Option Act) : Skeleton := alloc ++ masked (locked .scheduler push a)

/-- `spawn_user` -/
def spawnUser (a : Option Act) : Skeleton := spawnInner a

/-- `yield_now` -/
def yieldNow (a : Option Act) : Skeleton := masked (schedule a)

/-- `sched::current` -/
def current : Skeleton := masked (guarded .scheduler none)

/-- `current_process` -/
def currentProcess : Skeleton := masked (guarded .scheduler none)

/-- `block_current` -/
def blockCurrent (a : Option Act) : Skeleton := masked (guarded .scheduler none ++ schedule a)

/-- `wake` -/
def wake : Skeleton := masked (guarded .scheduler none)

/-- `wake_sleepers` -/
def wakeSleepers : Skeleton := guarded .scheduler none

/-- `sched::tick` -/
def tick (a : Option Act) : Skeleton := wakeSleepers ++ schedule a

/-- `task_exit` -/
def taskExit (a : Option Act) : Skeleton := masked (guarded .scheduler none ++ schedule a)

/-! ## Input, and what goes to user memory -/

/-- `drain_uart` -/
def drainUart : Skeleton := guarded .input none

/-- `input::pop` -/
def pop : Skeleton := masked (guarded .input none)

/-- `copy_to_user` -/
def copyToUser : Skeleton := isUserRange

/-- `drain_input` -/
def drainInput : Skeleton := loop (pop ++ optionally copyToUser)

/-! ## `ring.rs` -/

/-- `ring::setup` -/
def setup (a : Option Act) : Skeleton :=
  currentProcess ++ ringPa none ++
    optionally (allocFrame ++ ttbr0 none ++ mapPageIn ++ setRing) ++ happens a

/-- `OP_PRINT` -/
def print : Skeleton := isUserRange

/-- `OP_READ` -/
def read : Skeleton :=
  isUserRange ++ optionally (foregroundPid ++ optionally drainInput ++ optionally parkRead)

/-- `ring::spawn` -/
def spawn : Skeleton :=
  ringPa none ++ isUserRange ++
    optionally (newAddressSpace ++ create none ++ setParent ++ ttbr0 none ++ spawnUser none)

/-- `ring::wait` -/
def wait : Skeleton :=
  ringPa none ++ count none ++ optionally parent ++
    optionally (exitCode ++ optionally registerWait)

/-- `process_sqe` -/
def processSqe : Skeleton :=
  ringPa none ++ optionally (either (either print read) (either spawn wait))

/-- `drain` -/
def drain (a : Option Act) : Skeleton :=
  masked (ringPa none ++ optionally (loop processSqe) ++ happens a)

/-- A round of the wait loop of `enter`: it returns, or records the waiter and blocks. -/
def enterWait (a : Act) : Skeleton :=
  either (happens (some a)) (current ++ setWaiter ++ blockCurrent (some a))

/-- `ring::enter`, up to the first time it blocks. -/
def enter (a : Act) : Skeleton :=
  currentProcess ++ ringPa none ++
    either (happens (some a))
      (optionally (guarded .ring none ++ optionally wake) ++ drain none ++ enterWait a)

/-- `notify_exit` -/
def notifyExit : Skeleton :=
  onExit ++ optionally (ringPa none ++ takeWaiter ++ optionally wake)

/-- `abort_user` -/
def abortUser : Skeleton := masked clearRing

/-- `poll_pending` -/
def pollPending : Skeleton :=
  foregroundPid ++ optionally (ringPa none ++ optionally (ttbr0 none ++
    optionally (activate none) ++ pendingSnapshot ++
    loop (drainInput ++ optionally clearPending) ++ optionally (activate none) ++
    optionally (takeWaiter ++ optionally wake)))

/-- `sqpoll_main`, from one point to the next. -/
def sqpollMain : PollerPc → Skeleton
  | .record => current ++ guarded .ring (some .run)
  | .clock => act .run
  | .top => count (some .run)
  | .scan n i _ => if n ≤ i then act .run else ringPa (some .run)
  | .scanHead _ _ _ _ => act .run
  | .scanTail _ _ _ _ _ => act .run
  | .scanTtbr0 _ _ => ttbr0 (some .run)
  | .scanActivate _ _ _ => activate (some .run)
  | .scanDrain _ _ => drain (some .run)
  | .scanned _ => act .run
  | .flagsCount _ _ => count (some .run)
  | .flagsScan _ n i _ => if n ≤ i then act .run else ringPa (some .run)
  | .flagsStore _ _ _ _ _ => act .run
  | .rescanCount => count (some .run)
  | .rescan n i => if n ≤ i then act .run else ringPa (some .run)
  | .rescanHead _ _ _ => act .run
  | .rescanTail _ _ _ _ => act .run
  | .block => blockCurrent (some .run)
  | .stamp => act .run
  | .yield => yieldNow (some .run)

/-! ## The other contexts -/

/-- `kmain`, from one point to the next. -/
def kmain : KmainPc → Skeleton
  | .createJsh => newAddressSpace ++ create (some .run)
  | .setForeground _ => setForeground (some .run)
  | .spawnJsh _ => ttbr0 none ++ spawnUser (some .run)
  | .idle => yieldNow (some .run)

/-- `enter_user` -/
def enterUser (a : Option Act) : Skeleton := currentProcess ++ entry a

/-- A step of a user task's kernel code: `user_task`, or the wait loop after a wakeup. -/
def userRun : UserPc → Option Skeleton
  | .start => some (enterUser (some .run))
  | .inEnter _ _ => some (enterWait .run)
  | .el0 => none
  | .gone => none

/-- `teardown`: the list of frames is dropped after the loop over it. -/
def teardown : Skeleton :=
  currentProcess ++ abortUser ++ notifyExit ++ ttbr0 none ++ takeFrames ++ loop freeFrame ++
    optionally dealloc ++ activate none ++ freeAddressSpace ++ markExited

/-- What user code does; a store does not enter the kernel. -/
def user : UserAct → Skeleton
  | .store va n v => act (.user (.store va n v))
  | .setup => setup (some (.user .setup))
  | .enter minComplete => enter (.user (.enter minComplete))
  | .exit x0 => teardown ++ taskExit (some (.user (.exit x0)))
  | .fault esr elr far => teardown ++ taskExit (some (.user (.fault esr elr far)))

end Skeleton

/-! ## The machine with its locks -/

/-- The skeleton of the running task's next action. -/
def Machine.skeleton (m : Machine) : Act → Option Skeleton
  | .run =>
    if m.atKmain then some (.kmain m.kmain)
    else if m.atPoller then some (.sqpollMain m.poller.pc)
    else Skeleton.userRun m.userPc
  | .user u => if m.atKmain ∨ m.atPoller ∨ m.userPc ≠ .el0 then none else some (.user u)
  | .tick => none
  | .uart _ => none

/-- The skeleton of `handle_irq`. -/
def Machine.handleIrq (m : Machine) : Act → Option Skeleton
  | .tick => some (.tick (some .tick))
  | .uart bytes =>
    if m.k.uart.rxIrq then
      some (.drainUart ++ Skeleton.pollPending ++ .happens (some (.uart bytes)))
    else none
  | .run => none
  | .user _ => none

/-- Whether a user task is inside `enter`. -/
def UserPc.waits : UserPc → Bool
  | .inEnter _ _ => true
  | _ => false

/-- Whether an action begins with an exception taken from user code. -/
def Act.isCall : Act → Bool
  | .user (.store _ _ _) => false
  | .user _ => true
  | _ => false

/-- The machine, with the skeletons of its actions. -/
def lockHost (programs : List (String × List UInt8)) : Spinlock.Host Machine Act Lock where
  sys := machine programs
  current m := m.k.sched.current
  inCall m t := (m.user t).waits
  code := Machine.skeleton
  isCall := Act.isCall
  handler := Machine.handleIrq

/-- **The machine with its locks.** -/
def locking (programs : List (String × List UInt8)) :
    System (Spinlock.State Machine Act Lock) (Spinlock.Move Act) := (lockHost programs).system

section Laws

variable {programs : List (String × List UInt8)} {m m' : Machine} {a : Act}

/-! ### No lock is taken twice, and no task lets go of the core under one -/

theorem Skeleton.clear_sqpollMain (pc : PollerPc) : (sqpollMain pc).clear = true := by
  cases pc with
  | scan n i w => rw [sqpollMain]; split_ifs <;> rfl
  | flagsScan on n i after => rw [sqpollMain]; split_ifs <;> rfl
  | rescan n i => rw [sqpollMain]; split_ifs <;> rfl
  | _ => rfl

theorem Skeleton.clear_kmain (pc : KmainPc) : (kmain pc).clear = true := by cases pc <;> rfl

theorem Skeleton.clear_user (u : UserAct) : (user u).clear = true := by cases u <;> rfl

theorem lockHost_isClear : (lockHost programs).IsClear := by
  rintro m a c (h | h)
  · have h' : m.skeleton a = some c := h
    cases a with
    | run =>
      rw [Machine.skeleton] at h'
      split_ifs at h'
      · cases h'
        exact Skeleton.clear_kmain _
      · cases h'
        exact Skeleton.clear_sqpollMain _
      · cases hpc : m.userPc with
        | el0 => rw [hpc] at h'; cases h'
        | gone => rw [hpc] at h'; cases h'
        | start => rw [hpc] at h'; cases h'; rfl
        | inEnter r n => rw [hpc] at h'; cases h'; rfl
    | user u =>
      rw [Machine.skeleton] at h'
      split_ifs at h'
      cases h'
      exact Skeleton.clear_user u
    | tick => cases h'
    | uart bytes => cases h'
  · have h' : m.handleIrq a = some c := h
    cases a with
    | tick => cases h'; rfl
    | uart bytes =>
      rw [Machine.handleIrq] at h'
      split_ifs at h'
      cases h'
      rfl
    | run => cases h'
    | user u => cases h'

/-! ### Each step of the machine has its skeleton -/

theorem Skeleton.commits_sqpollMain (pc : PollerPc) : (sqpollMain pc).commits .run := by
  cases pc with
  | record => exact .inl ⟨rfl, rfl, rfl⟩
  | scan n i w =>
    rw [sqpollMain]
    split_ifs
    · rfl
    · exact ⟨rfl, rfl⟩
  | flagsScan on n i after =>
    rw [sqpollMain]
    split_ifs
    · rfl
    · exact ⟨rfl, rfl⟩
  | rescan n i =>
    rw [sqpollMain]
    split_ifs
    · rfl
    · exact ⟨rfl, rfl⟩
  | top => exact ⟨rfl, rfl⟩
  | scanTtbr0 n i => exact ⟨rfl, rfl⟩
  | flagsCount on after => exact ⟨rfl, rfl⟩
  | rescanCount => exact ⟨rfl, rfl⟩
  | scanDrain n i => exact .inl ⟨rfl, rfl⟩
  | block => exact .inl ⟨rfl, .inl ⟨rfl, rfl⟩⟩
  | yield => exact .inl ⟨rfl, rfl⟩
  | _ => rfl

theorem Skeleton.commits_kmain (pc : KmainPc) : (kmain pc).commits .run := by
  cases pc with
  | createJsh => exact .inl ⟨rfl, .inl ⟨rfl, rfl, rfl⟩⟩
  | setForeground p0 => exact ⟨rfl, rfl⟩
  | spawnJsh p0 => exact .inl ⟨rfl, .inl ⟨rfl, rfl, rfl⟩⟩
  | idle => exact .inl ⟨rfl, rfl⟩

theorem Skeleton.commits_userRun (pc : UserPc) {c : Skeleton} (h : userRun pc = some c) :
    c.commits .run := by
  cases pc with
  | start =>
    cases h
    exact .inl ⟨rfl, rfl, rfl⟩
  | inEnter ringPa minComplete =>
    cases h
    exact .inl rfl
  | el0 => cases h
  | gone => cases h

theorem Skeleton.commits_user (u : UserAct) : (user u).commits (.user u) := by
  cases u with
  | store va n v => rfl
  | setup => exact .inl ⟨rfl, rfl⟩
  | enter minComplete => exact .inl ⟨rfl, .inl rfl⟩
  | exit x0 => exact .inl ⟨rfl, .inl ⟨rfl, .inl ⟨rfl, rfl⟩⟩⟩
  | fault esr elr far => exact .inl ⟨rfl, .inl ⟨rfl, .inl ⟨rfl, rfl⟩⟩⟩

theorem Skeleton.commits_tick : (tick (some .tick)).commits .tick :=
  .inl ⟨rfl, .inl ⟨rfl, rfl⟩⟩

theorem Machine.masked_eq (m : Machine) : m.masked = (m.user m.k.sched.current).waits := by
  rw [Machine.masked, Machine.userPc]
  cases m.user m.k.sched.current <;> rfl

theorem skeleton_user {pid : Nat} {p : Process} (hu : AtUser m.k pid p)
    (hpc : m.user (taskOf pid) = .el0) (u : UserAct) : m.skeleton (.user u) = some (.user u) := by
  have hcur : m.k.sched.current = pollerTask + 1 + pid := hu.current
  rw [Machine.skeleton, if_neg]
  rw [not_or, not_or, not_not, Machine.userPc, hu.current]
  refine ⟨?_, ?_, hpc⟩
  · rw [Machine.atKmain, hcur]
    omega
  · rw [Machine.atPoller, hcur]
    omega

theorem skeleton_userRun {pid : Nat} {p : Process} (hu : AtUser m.k pid p) :
    m.skeleton .run = Skeleton.userRun (m.user (taskOf pid)) := by
  have hcur : m.k.sched.current = pollerTask + 1 + pid := hu.current
  rw [Machine.skeleton, if_neg, if_neg, Machine.userPc, hu.current]
  · rw [Machine.atPoller, hcur]
    omega
  · rw [Machine.atKmain, hcur]
    omega

/-- A user task is inside `enter` because of what it did itself. -/
theorem waits_of_move (hctl : Ctl m) (h : Move m a m') {t : Nat} (ht : (m'.user t).waits = true) :
    (m.user t).waits = true ∨ t = m.k.sched.current ∧ a.isCall = true := by
  have hgoto : ∀ {cur : Nat} {pc : UserPc}, (Function.update m.user cur pc t).waits = true →
      (m.user t).waits = true ∨ t = cur ∧ pc.waits = true := by
    intro cur pc h
    by_cases he : t = cur
    · rw [he, Function.update_self] at h
      exact .inr ⟨he, h⟩
    · rw [Function.update_of_ne he] at h
      exact .inl h
  have hwait : ∀ {k : Kernel} {pid : Nat} {p : Process} {ringPa minComplete : Nat},
      AtUser k pid p → (({ m with k := k }.enterWait pid ringPa minComplete).user t).waits = true →
      (m.user t).waits = true ∨ t = taskOf pid := by
    intro k pid p ringPa minComplete hu h
    rw [← hu.current]
    rcases enterWait_cases (m := { m with k := k }) hu ringPa minComplete with ⟨-, he⟩ | ⟨-, he⟩
    · rw [he] at h
      exact (hgoto h).imp_right And.left
    · rw [he] at h
      exact (hgoto h).imp_right And.left
  cases h with
  | start hu hpc =>
    rcases hgoto ht with h | ⟨-, h⟩
    · exact .inl h
    · cases h
  | retest hu hpc =>
    rcases hwait (k := m.k) hu ht with h | rfl
    · exact .inl h
    · rw [hpc]
      exact .inl rfl
  | enter hu hpc hring hs =>
    obtain ⟨-, p', hu', -⟩ := Proceeds.enterSubmit hctl.orderly hctl.running (hctl.idle hu).2 hu hs
    exact (hwait hu' ht).imp_right fun h ↦ ⟨h.trans hu.current.symm, rfl⟩
  | exit hact hu hpc ht' =>
    rcases hgoto ht with h | ⟨-, h⟩
    · exact .inl h
    · cases h
  | _ => exact .inl ht

theorem lockHost_covers : (lockHost programs).Covers where
  init m hm t := by
    obtain ⟨mem, kernelEnd, ticks, k, -, -, rfl⟩ := hm
    rfl
  call m a m' t hreach hs ht := by
    have hctl := ctl_of_reach hreach
    exact waits_of_move hctl (step_cases hctl.orderly hctl.running hs) ht
  commits m a m' hreach hs := by
    have hctl := ctl_of_reach hreach
    have hskel : ∀ {c : Skeleton}, m.skeleton a = some c → c.commits a →
        (∃ c, m.skeleton a = some c ∧ c.commits a) ∨ (m.user m.k.sched.current).waits = false ∧
          ∃ c, m.handleIrq a = some c ∧ c.commits a := fun hc hcommits ↦ .inl ⟨_, hc, hcommits⟩
    show (∃ c, m.skeleton a = some c ∧ c.commits a) ∨ (m.user m.k.sched.current).waits = false ∧
      ∃ c, m.handleIrq a = some c ∧ c.commits a
    cases step_cases hctl.orderly hctl.running hs with
    | create hcur => exact hskel (if_pos hcur) (Skeleton.commits_kmain _)
    | foreground hcur => exact hskel (if_pos hcur) (Skeleton.commits_kmain _)
    | spawnJsh hcur => exact hskel (if_pos hcur) (Skeleton.commits_kmain _)
    | idle hcur => exact hskel (if_pos hcur) (Skeleton.commits_kmain _)
    | poller hcur hmove =>
      refine hskel ?_ (Skeleton.commits_sqpollMain m.poller.pc)
      rw [Machine.skeleton, if_neg, if_pos hcur]
      rw [Machine.atKmain, show m.k.sched.current = pollerTask from hcur]
      decide
    | start hu hpc =>
      have hc := skeleton_userRun hu
      rw [hpc] at hc
      exact hskel hc (Skeleton.commits_userRun .start rfl)
    | @retest pid ringPa minComplete p hu hpc =>
      have hc := skeleton_userRun hu
      rw [hpc] at hc
      exact hskel hc (Skeleton.commits_userRun (.inEnter ringPa minComplete) rfl)
    | store hu hpc => exact hskel (skeleton_user hu hpc _) (Skeleton.commits_user _)
    | setup hu hpc => exact hskel (skeleton_user hu hpc _) (Skeleton.commits_user _)
    | enterNothing hu hpc => exact hskel (skeleton_user hu hpc _) (Skeleton.commits_user _)
    | enter hu hpc => exact hskel (skeleton_user hu hpc _) (Skeleton.commits_user _)
    | exit hact hu hpc => exact hskel (skeleton_user hu hpc _) (Skeleton.commits_user _)
    | tick hmask =>
      rw [Machine.masked_eq] at hmask
      exact .inr ⟨hmask, _, rfl, Skeleton.commits_tick⟩
    | @uart bytes k' hmask hk' =>
      have hrx : m.k.uart.rxIrq = true := by
        by_contra hrx
        have hs' : m.step (.uart bytes) = some { m with k := k' } := hs
        rw [Machine.step, if_pos (.inr (Bool.not_eq_true _ ▸ hrx))] at hs'
        cases hs'
      rw [Machine.masked_eq] at hmask
      exact .inr ⟨hmask, _, if_pos hrx, .inl ⟨rfl, rfl⟩⟩

end Laws

/-! ## Spinning -/

section Spinning

open Spinlock

variable {programs : List (String × List UInt8)} {s : State Machine Act Lock}

theorem inCall_of_unmasked (programs : List (String × List UInt8)) {m : Machine}
    (h : m.masked = false) :
    (lockHost programs).inCall m ((lockHost programs).current m) = false :=
  m.masked_eq.symm.trans h

/-- The running task, which is not inside `enter`, begins an action. -/
theorem starts_unmasked {ok : State Machine Act Lock → Spinlock.Move Act → Prop} {a : Act}
    {c : Skeleton} (h : (locking programs).Reach ok s) (hok : ok s (.start a))
    (hrun : (lockHost programs).running s = []) (hmask : s.host.masked = false)
    (hc : s.host.skeleton a = some c) :
    (locking programs).Reach ok ((lockHost programs).setRunning s
      (.run c :: if a.isCall then [.eret] else [])) := by
  have hout := inCall_of_unmasked programs hmask
  have h₁ := Host.starts h hok (by rw [hrun, hout, if_neg Bool.false_ne_true]) hc
  rwa [hrun, List.append_nil] at h₁

/-- A process that runs calls `enter`, and gets to `process::ring_pa`. -/
theorem exists_enter {ok : State Machine Act Lock → Spinlock.Move Act → Prop}
    (hexec : ∀ s b, ok s (.exec b)) (hstart : ∀ s a, ok s (.start a))
    (h : (locking programs).Reach ok s) (hrun : (lockHost programs).running s = [])
    {pid : Nat} {p : Process} (hu : AtUser s.host.k pid p)
    (hpc : s.host.user (taskOf pid) = .el0)
    (hfree : ∀ l, s.taken l = true → Skeleton.currentProcess.avoids l = true)
    (minComplete : Nat) :
    ∃ c, (locking programs).Reach ok ((lockHost programs).setRunning s
      [.run (Skeleton.ringPa none), .run c, .eret]) := by
  have hmask : s.host.masked = false := by
    rw [Machine.masked_eq, hu.current, hpc]
    rfl
  have h₀ := starts_unmasked h (hstart _ _) hrun hmask (skeleton_user hu hpc (.enter minComplete))
  have h₁ := Host.unfolds hexec h₀ Host.running_setRunning (.seq _ _) (by rintro ⟨⟩)
  have h₂ := Host.unfolds hexec h₁ Host.running_setRunning (.seq _ _) (by rintro ⟨⟩)
  rw [Host.setRunning_setRunning, Host.setRunning_setRunning] at h₂
  have h₃ := Host.passing hexec (c := Skeleton.currentProcess) rfl h₂ Host.running_setRunning hfree
  rw [Host.setRunning_setRunning] at h₃
  exact ⟨_, h₃⟩

/-- **No context finds a lock taken**, in every run in which no interrupt comes while the code it
interrupts holds a lock; nor does a context that does not run ever hold one. -/
theorem lock_never_spins
    (h : (locking programs).Reach (lockHost programs).Undisturbed s) (l : Lock) :
    ¬ (lockHost programs).Spins s l ∧ ¬ (lockHost programs).HeldBySuspended s l := by
  have halone := Host.alone_of_reach lockHost_isClear h
  exact ⟨halone.not_spins l, halone.not_heldBySuspended l⟩

/-- The shell is in a system call, with interrupts masked, and about to take `PROCESSES`; the lock
is free. -/
theorem lock_never_spins_shell :
    ∃ s K, (locking shellOnly).Reach (lockHost shellOnly).Undisturbed s ∧
      (lockHost shellOnly).masked s = true ∧
      (lockHost shellOnly).running s = .run (Skeleton.ringPa none) :: K ∧
      s.taken .processes = false := by
  obtain ⟨m, p, h, hel0, -⟩ := exists_ringed_storeless System.Free fun _ _ _ _ _ ↦ trivial
  have hexec : ∀ s b, (lockHost shellOnly).Undisturbed s (.exec b) := by rintro s b a ⟨⟩
  have hstart : ∀ s a, (lockHost shellOnly).Undisturbed s (.start a) := by rintro s a a' ⟨⟩
  obtain ⟨s, hreach, rfl, hq⟩ := Host.lift hexec lockHost_covers hstart
    (fun s a hs ↦ by rintro a' - f hf; rw [hs] at hf; cases hf) h.reach
  have h₁ := hq.settles hexec hreach
  rw [inCall_of_unmasked shellOnly (h.unmasked_user (.inl hel0)), if_neg Bool.false_ne_true] at h₁
  obtain ⟨c, h₂⟩ := exists_enter hexec hstart h₁ Host.running_setRunning (h.atUser (p := p) rfl)
    hel0 (fun l hl ↦ absurd hl (Bool.not_eq_true _ ▸ hq.free l)) 0
  rw [Host.setRunning_setRunning] at h₂
  refine ⟨_, _, h₂, by rw [Host.masked, Host.running_setRunning]; rfl, Host.running_setRunning, ?_⟩
  exact Bool.not_eq_true _ ▸ fun hl ↦
    (lock_never_spins h₂ .processes).1 ⟨hl, _, _, _, Host.running_setRunning⟩

/-- The poller has begun its rounds and holds `PROCESSES`, to look up the ring of the shell; no
other lock is taken.  A tick would let the shell run. -/
theorem exists_holding : ∃ s m p, (locking shellOnly).Reach System.Free s ∧
    s.host.k.sched.current = pollerTask ∧
    (lockHost shellOnly).running s = [.run .skip, .release .processes (some .run)] ∧
    s.taken .processes = true ∧ (∀ l, s.taken l = true → l = .processes) ∧
    (∀ t, t ≠ pollerTask → ∀ f ∈ s.stack t, f.quiet = true) ∧
    s.host.step .tick = some m ∧ Scene shellOnly System.Free m [p] (taskOf 0) ∧
    m.user (taskOf 0) = .el0 ∧ m.k.poller = some pollerTask := by
  obtain ⟨m, p, h, hel0, hpoll, -⟩ := exists_ringed_storeless System.Free fun _ _ _ _ _ ↦ trivial
  obtain ⟨m₁, h₁, huser₁, hpoll₁, -⟩ := h.tick (next_last [.exited, .exited, .kernel] _)
    (h.unmasked_user (.inl hel0)) trivial
  obtain ⟨m₂, h₂, huser₂, hpoll₂, -⟩ := h₁.tick (next_kmain _) (h₁.unmasked (by decide)) trivial
  obtain ⟨m₃, h₃, huser₃, hpoll₃, hk₃⟩ := h₂.begins (by rw [hpoll₂, hpoll₁, hpoll])
    fun _ _ _ _ ↦ trivial
  obtain ⟨m₄, hs₄, h₄, huser₄, -, hidle₄, -⟩ := h₃.ticks (next_poller p []) (h₃.unmasked le_rfl)
    trivial
  have hexec : ∀ (s : State Machine Act Lock) (b : Bool),
      System.Free s (.exec b : Spinlock.Move Act) := fun _ _ ↦ trivial
  have hpc₃ : m₃.poller.pc = .scan 1 0 false := by rw [hpoll₃]; rfl
  have hel₄ : m₄.user (taskOf 0) = .el0 := by rw [huser₄, huser₃, huser₂, huser₁, hel0]
  have hrec₄ : m₄.k.poller = some pollerTask := by rw [hidle₄.poller, hk₃]
  obtain ⟨s, hreach, rfl, hq⟩ := Host.lift hexec lockHost_covers (fun _ _ ↦ trivial)
    (fun _ _ _ ↦ trivial) h₃.reach
  have hcur : s.host.k.sched.current = pollerTask := by rw [h₃.sched]
  have hcode : s.host.skeleton .run = some (Skeleton.ringPa (some .run)) := by
    rw [Machine.skeleton, if_neg, if_pos hcur, hpc₃]
    · rfl
    · rw [Machine.atKmain, hcur]
      decide
  have hr₁ := hq.settles hexec hreach
  rw [inCall_of_unmasked shellOnly (h₃.unmasked le_rfl), if_neg Bool.false_ne_true] at hr₁
  have hr₂ := starts_unmasked hr₁ trivial Host.running_setRunning (h₃.unmasked le_rfl) hcode
  have hr₃ := Host.takes hexec hr₂ Host.running_setRunning (hq.free _)
  rw [Host.setRunning_setRunning, Host.setRunning_setRunning] at hr₃
  refine ⟨_, m₄, p, hr₃, hcur, (Host.running_setTaken ..).trans Host.running_setRunning,
    State.taken_setTaken_self .., fun l hl ↦ ?_, fun t ht ↦ ?_, hs₄, h₄, hel₄, hrec₄⟩
  · by_contra hne
    rw [State.taken_setTaken_of_ne _ hne, Host.taken_setRunning, hq.free l] at hl
    cases hl
  · show ∀ f ∈ (Host.setRunning _ s _).stack t, _
    rw [← show (lockHost shellOnly).current s.host = pollerTask from hcur] at ht
    rw [Host.stack_setRunning_of_ne ht]
    exact hq.rest t

/-- The poller has `PROCESSES` to look up the shell's ring when the timer preempts it.  The shell
calls `enter`, spins on the lock with interrupts masked, and nothing happens any more. -/
theorem enter_deadlocks :
    ∃ s, (locking shellOnly).Reach System.Free s ∧
      s.host.kmain = .idle ∧ s.host.k.poller = some pollerTask ∧
      s.host.user (taskOf 0) = .el0 ∧ (lockHost shellOnly).masked s = true ∧
      (lockHost shellOnly).Spins s .processes ∧
      (lockHost shellOnly).HeldBySuspended s .processes ∧
      ∀ a, (locking shellOnly).step s a = none := by
  obtain ⟨s, m, p, hr, hcur, hrun, hl, honly, hquiet, hs, hm, hel0, hrec⟩ := exists_holding
  have hexec : ∀ (s : State Machine Act Lock) (b : Bool),
      System.Free s (.exec b : Spinlock.Move Act) := fun _ _ ↦ trivial
  -- the timer interrupts, and its handler switches to the shell
  have hr₁ := Host.interrupts (a := .tick) hr trivial (by rw [Host.masked, hrun]; rfl) rfl
  rw [hrun] at hr₁
  obtain ⟨K, -, hr₂⟩ := Host.committing hexec Skeleton.commits_tick hr₁ Host.running_setRunning
    (fun l hl ↦ honly l hl ▸ rfl) hs
  rw [Host.setRunning_setRunning] at hr₂
  obtain ⟨s₁, hs₁⟩ : ∃ s₁, s₁ = ((lockHost shellOnly).setRunning s
    (K ++ [.eret, .run .skip, .release .processes (some .run)])).setHost m := ⟨_, rfl⟩
  rw [← hs₁] at hr₂
  have hne : taskOf 0 ≠ (lockHost shellOnly).current s.host := by
    rw [show (lockHost shellOnly).current s.host = _ from hcur]
    decide
  have hhost : s₁.host = m := by rw [hs₁]; rfl
  have htaken : s₁.taken = s.taken := by rw [hs₁]; rfl
  have hpoller : s₁.stack pollerTask =
      K ++ [.eret, .run .skip, .release .processes (some .run)] := by
    rw [hs₁, ← hcur]
    exact Function.update_self ..
  have hrun₁ : (lockHost shellOnly).running s₁ = s.stack (taskOf 0) ++ [] := by
    rw [List.append_nil, Host.running, show (lockHost shellOnly).current s₁.host = taskOf 0 by
      rw [hhost]; exact congrArg Scheduler.current hm.sched, hs₁]
    exact Host.stack_setRunning_of_ne hne
  subst hhost
  -- the shell calls `enter`
  have hout := inCall_of_unmasked shellOnly (hm.unmasked_user (.inl hel0))
  have hr₃ := Host.flushes hexec (hquiet (taskOf 0) (by decide)) hr₂ hrun₁ fun hin ↦ by
    rw [hout] at hin
    cases hin
  obtain ⟨c, hr₄⟩ := exists_enter hexec (fun _ _ ↦ trivial) hr₃ Host.running_setRunning
    (hm.atUser (p := p) rfl) hel0 (fun l hl ↦ honly l (htaken ▸ hl) ▸ rfl) 0
  rw [Host.setRunning_setRunning] at hr₄
  have hmask : (lockHost shellOnly).masked ((lockHost shellOnly).setRunning s₁
      [.run (Skeleton.ringPa none), .run c, .eret]) = true := by
    rw [Host.masked, Host.running_setRunning]
    rfl
  have hspins : (lockHost shellOnly).Spins ((lockHost shellOnly).setRunning s₁
      [.run (Skeleton.ringPa none), .run c, .eret]) .processes :=
    ⟨by rw [Host.taken_setRunning, htaken, hl], _, _, _, Host.running_setRunning⟩
  have hother : pollerTask ≠ (lockHost shellOnly).current s₁.host := by
    rw [show (lockHost shellOnly).current s₁.host = taskOf 0 from
      congrArg Scheduler.current hm.sched]
    decide
  refine ⟨_, hr₄, hm.kmain, hrec, hel0, hmask, hspins,
    .inl ⟨pollerTask, .release .processes (some .run), hother, ?_, _, rfl⟩, hspins.stuck hmask⟩
  rw [Host.stack_setRunning_of_ne hother, hpoller]
  exact List.mem_append_right K (by simp)

/-! ## One at a time -/

/-- **A lock is held by one context at a time.**  In every run, wherever interrupts come: if the
flag of a lock is up there is one guard of it, in the frames of one task, and if it is down there is
none. -/
theorem lock_exclusive (h : (locking programs).Reach System.Free s) (l : Lock) :
    if s.taken l then ∃ t, s.guards l t = 1 ∧ ∀ t', t' ≠ t → s.guards l t' = 0
    else ∀ t, s.guards l t = 0 :=
  Host.exclusive_of_reach h l

/-- The poller holds `PROCESSES`, and nobody else does. -/
theorem lock_exclusive_poller : ∃ s, (locking shellOnly).Reach System.Free s ∧
    s.taken .processes = true ∧ s.guards .processes pollerTask = 1 ∧
    ∀ t, t ≠ pollerTask → s.guards .processes t = 0 := by
  obtain ⟨s, -, -, h, hcur, hrun, hl, -⟩ := exists_holding
  have hone : s.guards .processes pollerTask = 1 := by
    rw [State.guards, ← hcur]
    exact (congrArg _ hrun).trans rfl
  have hexcl := lock_exclusive h .processes
  rw [hl, if_pos rfl] at hexcl
  obtain ⟨t, -, hother⟩ := hexcl
  obtain rfl : pollerTask = t := by
    by_contra hne
    rw [hother _ hne] at hone
    cases hone
  exact ⟨s, h, hl, hone, hother⟩

end Spinning

end Jatuli

import Jatuli.Lib.Transition
import Jatuli.Teardown

/-!
# The machine: who runs when

One core, any number of tasks.  A section under masked interrupts (a system call, an interrupt
handler, a `drain`, an `activate`, a scheduler call) runs to its end undisturbed, so it is one
step.  Code that runs unmasked may be interrupted between any two of its accesses to shared state:
that is `kmain`, the poller, a user task on its way to EL0, and user code itself.  The poller's
position therefore has a value for every point between two such accesses.

Locks are not part of the machine.  Each of them is held within one step, so no step ever finds one
taken.  The code has sections that hold a lock with interrupts unmasked (`has_submissions` and
`set_all_wakeup` look a ring up under the `PROCESSES` lock), and an interrupt that comes just there
hangs the real kernel when what runs next takes the lock too; the machine has no such runs.  The
locks are put over it in `Locks.lean`.

An action is the running task's next step (`run`), something user code does (`user`), a timer tick
or a UART interrupt.  The step function says what an action does, `none` when it is not possible
or when the kernel panics or halts.
-/

set_option autoImplicit false

namespace Jatuli

/-! ## Where each task stands -/

/-- Where the poller goes once it has written the flags of all rings. -/
inductive AfterFlags
  /-- `last_work = ticks()`, then `yield_now`. -/
  | stamp
  /-- The re-scan before going to sleep. -/
  | rescan
deriving DecidableEq, Repr

/-- A point of `sqpoll_main` at which it can be interrupted.  In a loop over `0..process::count()`,
`n` is the count read at its start and `i` the process it has come to. -/
inductive PollerPc
  /-- Before `RING.lock().poller = Some(current())`. -/
  | record
  /-- Before `last_work = ticks()` at the top. -/
  | clock
  /-- At the head of the loop, before `process::count()`. -/
  | top
  /-- In the scan, before `has_submissions(i)` reads `ring_pa(i)`. -/
  | scan (n i : Nat) (worked : Bool)
  /-- Before it loads `sq_head` of the ring at `ringPa`. -/
  | scanHead (n i ringPa : Nat) (worked : Bool)
  /-- Before it loads `sq_tail`, with the head it has. -/
  | scanTail (n i ringPa : Nat) (head : BitVec 32) (worked : Bool)
  /-- The test succeeded; before `process::ttbr0(i)`. -/
  | scanTtbr0 (n i : Nat)
  /-- Before `mmu::activate(root)`. -/
  | scanActivate (n i root : Nat)
  /-- Before `drain(i)`. -/
  | scanDrain (n i : Nat)
  /-- After the scan. -/
  | scanned (worked : Bool)
  /-- `set_all_wakeup(on)`, before `process::count()`. -/
  | flagsCount (on : Bool) (after : AfterFlags)
  /-- `set_all_wakeup(on)`, before `ring_pa(i)`. -/
  | flagsScan (on : Bool) (n i : Nat) (after : AfterFlags)
  /-- `set_all_wakeup(on)`, before the store to the ring at `ringPa`. -/
  | flagsStore (on : Bool) (n i ringPa : Nat) (after : AfterFlags)
  /-- The re-scan, before `process::count()`. -/
  | rescanCount
  /-- The re-scan, before `ring_pa(i)`. -/
  | rescan (n i : Nat)
  /-- The re-scan, before the load of `sq_head`. -/
  | rescanHead (n i ringPa : Nat)
  /-- The re-scan, before the load of `sq_tail`. -/
  | rescanTail (n i ringPa : Nat) (head : BitVec 32)
  /-- Before `block_current`. -/
  | block
  /-- Before `last_work = ticks()` after a flags pass. -/
  | stamp
  /-- Before `yield_now`. -/
  | yield
deriving DecidableEq, Repr

/-- The poller: where it is, and its local variables that outlive a round. -/
structure Poller where
  /-- The point it has come to. -/
  pc : PollerPc
  /-- Whether it has announced its first work. -/
  announced : Bool
  /-- `last_work` -/
  lastWork : Nat
deriving DecidableEq, Repr

/-- Where `kmain` stands, from the creation of the first process on. -/
inductive KmainPc
  | createJsh
  | setForeground (p0 : Nat)
  | spawnJsh (p0 : Nat)
  | idle
deriving DecidableEq, Repr

/-- Where the task of a user process stands. -/
inductive UserPc
  /-- In `user_task`, on its way to EL0. -/
  | start
  /-- User code. -/
  | el0
  /-- In the wait loop of `enter(minComplete)`, inside `block_current`. -/
  | inEnter (ringPa minComplete : Nat)
  /-- Past `teardown`. -/
  | gone
deriving DecidableEq, Repr

/-- The state of the machine. -/
structure Machine where
  /-- The kernel's data. -/
  k : Kernel
  /-- Task 0. -/
  kmain : KmainPc
  /-- The SQPOLL task. -/
  poller : Poller
  /-- The user tasks, by task index; one that has not run yet stands at its start. -/
  user : Nat → UserPc

/-! ## What can happen -/

/-- What user code can do to the rest of the machine. -/
inductive UserAct
  /-- A naturally aligned store of `n` bytes. -/
  | store (va n v : Nat)
  /-- `SYS_RING_SETUP` -/
  | setup
  /-- `SYS_RING_ENTER` -/
  | enter (minComplete : Nat)
  /-- `SYS_EXIT`, with its argument in `x0`. -/
  | exit (x0 : BitVec 64)
  /-- A fault at EL0, with what is in `ESR_EL1`, `ELR_EL1` and `FAR_EL1`: the kernel kills the
  process. -/
  | fault (esr elr far : BitVec 64)
deriving DecidableEq, Repr

/-- An action of the machine. -/
inductive Act
  /-- The running task takes its next step. -/
  | run
  /-- The running task's user code does something. -/
  | user (u : UserAct)
  /-- The timer interrupts. -/
  | tick
  /-- The UART interrupts, having received these bytes. -/
  | uart (bytes : List UInt8)
deriving DecidableEq, Repr

namespace Machine

/-- Whether the running task is `kmain`. -/
abbrev atKmain (m : Machine) : Prop := m.k.sched.current = 0

/-- Whether the running task is the poller. -/
abbrev atPoller (m : Machine) : Prop := m.k.sched.current = pollerTask

/-- Where the running user task stands. -/
def userPc (m : Machine) : UserPc := m.user m.k.sched.current

/-- Whether interrupts are masked: the running task is in the kernel's wait loop. -/
def masked (m : Machine) : Bool :=
  match m.userPc with
  | .inEnter _ _ => true
  | _ => false

/-- Move the poller. -/
def goto (m : Machine) (pc : PollerPc) : Machine := { m with poller := { m.poller with pc } }

/-- Move the running user task. -/
def userGoto (m : Machine) (pc : UserPc) : Machine :=
  { m with user := Function.update m.user m.k.sched.current pc }

/-! ## `kmain` -/

/-- The rest of `kmain`: create and start the shell, then yield for ever. -/
def kmainStep (m : Machine) : Option Machine :=
  match m.kmain with
  | .createJsh => do
    let jsh ← m.k.getProgram "jsh"
    let (root, phys) ← newAddressSpace m.k.phys m.k.kernelL1
    let (p0, k) ← { m.k with phys }.create jsh root
    some { m with k, kmain := .setForeground p0 }
  | .setForeground p0 =>
    some { m with
      k := { m.k with processes := Processes.setForeground m.k.processes p0 true }
      kmain := .spawnJsh p0 }
  | .spawnJsh p0 => do
    let root ← Processes.ttbr0 m.k.processes p0
    some { m with k := m.k.spawnUser p0 root, kmain := .idle }
  | .idle => some { m with k := m.k.schedule }

/-! ## The poller -/

/-- `SQ_IDLE_TICKS` -/
def sqIdleTicks : Nat := 5

/-- `ticks().wrapping_sub(last_work) >= SQ_IDLE_TICKS` -/
def idleLongEnough (m : Machine) : Bool :=
  sqIdleTicks ≤ (m.k.ticks + 2 ^ 64 - m.poller.lastWork) % 2 ^ 64

/-- What `set_all_wakeup(on)` stores. -/
def flagValue (on : Bool) : Nat := if on then needWakeup else 0

/-- One step of `sqpoll_main`. -/
def pollerStep (m : Machine) : Option Machine :=
  match m.poller.pc with
  | .record => some { m.goto .clock with k := { m.k with poller := some m.k.sched.current } }
  | .clock => some { m with poller := { m.poller with pc := .top, lastWork := m.k.ticks } }
  | .top => some (m.goto (.scan m.k.processes.length 0 false))
  | .scan n i worked =>
    if n ≤ i then some (m.goto (.scanned worked))
    else do
      let ringPa ← Processes.ringPa m.k.processes i
      if ringPa = 0 then some (m.goto (.scan n (i + 1) worked))
      else some (m.goto (.scanHead n i ringPa worked))
  | .scanHead n i ringPa worked =>
    some (m.goto (.scanTail n i ringPa (sqHead m.k.mem ringPa) worked))
  | .scanTail n i ringPa head worked =>
    if head ≠ sqTail m.k.mem ringPa then some (m.goto (.scanTtbr0 n i))
    else some (m.goto (.scan n (i + 1) worked))
  | .scanTtbr0 n i => do
    let root ← Processes.ttbr0 m.k.processes i
    some (m.goto (.scanActivate n i root))
  | .scanActivate n i root => some { m.goto (.scanDrain n i) with k := m.k.activate root }
  | .scanDrain n i => do
    let k ← m.k.drain i
    some { m.goto (.scan n (i + 1) true) with k }
  | .scanned worked =>
    if worked then
      some { m with
        k := if m.poller.announced then m.k else m.k.kprintln "[sqpoll] picked up work"
        poller := { m.poller with pc := .flagsCount false .stamp, announced := true } }
    else if m.idleLongEnough then some (m.goto (.flagsCount true .rescan))
    else some (m.goto .yield)
  | .flagsCount on after => some (m.goto (.flagsScan on m.k.processes.length 0 after))
  | .flagsScan on n i after =>
    if n ≤ i then
      match after with
      | .stamp => some (m.goto .stamp)
      | .rescan => some (m.goto .rescanCount)
    else do
      let ringPa ← Processes.ringPa m.k.processes i
      if ringPa = 0 then some (m.goto (.flagsScan on n (i + 1) after))
      else some (m.goto (.flagsStore on n i ringPa after))
  | .flagsStore on n i ringPa after =>
    some { m.goto (.flagsScan on n (i + 1) after) with
      k := m.k.ringStore ringPa offFlags 4 (flagValue on) }
  | .rescanCount => some (m.goto (.rescan m.k.processes.length 0))
  | .rescan n i =>
    if n ≤ i then some (m.goto .block)
    else do
      let ringPa ← Processes.ringPa m.k.processes i
      if ringPa = 0 then some (m.goto (.rescan n (i + 1)))
      else some (m.goto (.rescanHead n i ringPa))
  | .rescanHead n i ringPa => some (m.goto (.rescanTail n i ringPa (sqHead m.k.mem ringPa)))
  | .rescanTail n i ringPa head =>
    if head ≠ sqTail m.k.mem ringPa then some (m.goto (.flagsCount false .stamp))
    else some (m.goto (.rescan n (i + 1)))
  -- when the poller runs again it clears the flags
  | .block => some { m.goto (.flagsCount false .stamp) with k := m.k.blockCurrent }
  | .stamp => some { m with poller := { m.poller with pc := .yield, lastWork := m.k.ticks } }
  | .yield => some { m.goto .top with k := m.k.schedule }

/-! ## User tasks -/

/-- The wait loop of `enter`, from its test on: return to user code, or record the waiter and
block. -/
def enterWait (m : Machine) (pid ringPa minComplete : Nat) : Machine :=
  if minComplete ≤ m.k.unreaped ringPa then m.userGoto .el0
  else
    { m.userGoto (.inEnter ringPa minComplete) with
      k := { m.k with processes :=
        Processes.setWaiter m.k.processes pid m.k.sched.current }.blockCurrent }

/-- `user_task`: announce it, and go to user code. -/
def userTask (m : Machine) : Machine :=
  { m with k := m.k.kprintln "entering user mode (EL0)..." }.userGoto .el0

/-- A step of a user task's kernel code: `user_task`, or the wait loop after a wakeup. -/
def userRun (m : Machine) : Option Machine :=
  match m.userPc with
  | .start => some m.userTask
  | .inEnter ringPa minComplete => do
    let pid ← m.k.sched.currentProcess
    some (m.enterWait pid ringPa minComplete)
  | .el0 => none
  | .gone => none

/-- `ec_name` -/
def ecName (ec : Nat) : String :=
  match ec with
  | 0x00 => "unknown"
  | 0x07 => "SIMD/FP access trapped"
  | 0x15 => "SVC (AArch64 syscall)"
  | 0x20 => "instruction abort (lower EL)"
  | 0x21 => "instruction abort (same EL)"
  | 0x24 => "data abort (lower EL)"
  | 0x25 => "data abort (same EL)"
  | 0x3C => "BRK (AArch64 breakpoint)"
  | _ => "other"

/-- A number as `{:#0wx}` prints it, `w` being the width with the `0x`. -/
def hex (w n : Nat) : String :=
  "0x" ++ String.ofList ((Nat.toDigits 16 n).leftpad (w - 2) '0')

/-- What `SYS_EXIT` prints. -/
def exitReport (code : Int) : String := "[user] exited with code " ++ toString code

/-- What `kill_user` prints. -/
def killReport (esr elr far : BitVec 64) : String :=
  let ec := (esr >>> 26 &&& 0x3F).toNat
  "[user] killed: " ++ ecName ec ++ " (EC " ++ hex 4 ec ++ "), ELR=" ++ hex 0 elr.toNat ++
    ", FAR=" ++ hex 0 far.toNat

/-- `SYS_EXIT` and the kill of a faulting process: report it, tear down and retire the task. -/
def exitStep (m : Machine) (pid : Nat) (report : String) (code : Int) : Option Machine := do
  let k ← (m.k.kprintln report).teardown pid code
  some { m.userGoto .gone with k := k.taskExit }

/-- A user store; it faults, and is then no step of this kind, unless EL0 may write there. -/
def userStore (k : Kernel) (va n v : Nat) : Option Kernel :=
  if (n = 1 ∨ n = 2 ∨ n = 4 ∨ n = 8) ∧ va % n = 0 then
    (el0WritablePa k.mem k.ttbr0 va).map fun pa ↦ k.setMem (k.mem.store pa n v)
  else none

/-- What user code of the running process `pid` does. -/
def userStep (m : Machine) (pid : Nat) : UserAct → Option Machine
  | .store va n v => (userStore m.k va n v).map fun k ↦ { m with k }
  | .setup => (m.k.setupRing pid).map fun k ↦ { m with k }
  | .enter minComplete => do
    let ringPa ← Processes.ringPa m.k.processes pid
    if ringPa = 0 then some m
    else
      let k ← m.k.enterSubmit pid ringPa
      some ({ m with k }.enterWait pid ringPa minComplete)
  | .exit x0 => m.exitStep pid (exitReport x0.toInt) x0.toInt
  | .fault esr elr far => m.exitStep pid (killReport esr elr far) (-1)

/-! ## The step function -/

/-- The UART handler: drain the device, then complete parked reads. -/
def uartIrq (k : Kernel) (bytes : List UInt8) : Option Kernel :=
  let (input, uart) := drainUart k.input { k.uart with rx := k.uart.rx ++ bytes }
  { k with input, uart }.pollPending

/-- What an action does. -/
def step (m : Machine) : Act → Option Machine
  | .run =>
    if m.atKmain then m.kmainStep
    else if m.atPoller then m.pollerStep
    else m.userRun
  | .user u =>
    if m.atKmain ∨ m.atPoller ∨ m.userPc ≠ .el0 then none
    else do m.userStep (← m.k.sched.currentProcess) u
  | .tick => if m.masked then none else some { m with k := m.k.tick }
  | .uart bytes =>
    if m.masked ∨ m.k.uart.rxIrq = false then none
    else (uartIrq m.k bytes).map fun k ↦ { m with k }

end Machine

/-- The machine as it leaves the self-checks: `kmain` is about to create the shell, the poller is
spawned and has not run. -/
def bootMachine (k : Kernel) : Machine where
  k := k
  kmain := .createJsh
  poller := { pc := .record, announced := false, lastWork := 0 }
  user := fun _ ↦ .start

/-- The machine with the given embedded programs, over any memory contents at power-on and any
size of the kernel image. -/
def machine (programs : List (String × List UInt8)) : System Machine Act where
  init m := ∃ mem kernelEnd ticks k, ramBase ≤ kernelEnd ∧
    bootKernel mem kernelEnd ticks programs = some k ∧ m = bootMachine k
  step := Machine.step

end Jatuli

import Jatuli.Process
import Jatuli.Sched
import Jatuli.Input

/-!
# The kernel's state

Everything the kernel's functions read and write, in one record: physical memory with its frame
allocator, the process and task tables, the input ring and the UART, the tick count, and the
address space that is installed.  Memory that holds kernel data structures (the heap behind the
tables) is not part of `phys`; the tables are values of their own here.

`trace` is a record the kernel does not keep.  It grows by one event at each point a statement
about runs may want to refer to *at the moment it happens*: an SQE taken up, a completion posted
or dropped, a store through a ring's physical address.  No function reads it.
-/

set_option autoImplicit false

namespace Jatuli

/-- What the trace records.  `child` connects an `OP_WAIT` with its answer: it is the child waited
for, in the entry and in the completion, and `none` for all other requests. -/
inductive Event
  /-- `process_sqe` is called for process `pid` on an entry with this tag while `root` is the live
  address space. -/
  | sqe (pid userData root : Nat) (child : Option Nat)
  /-- `complete` posted a completion to the ring of process `owner`. -/
  | cqe (owner : Option Nat) (userData : Nat) (result : Int) (child : Option Nat)
  /-- `complete` found the queue of process `owner` full and dropped the completion. -/
  | overflow (owner : Option Nat) (userData : Nat) (child : Option Nat)
  /-- A store through `ring(ring_pa)`, with the process that has its ring there. -/
  | ringStore (ringPa : Nat) (owner : Option Nat)
deriving DecidableEq, Repr

/-- The state of the kernel. -/
structure Kernel where
  /-- Physical memory and the frame allocator. -/
  phys : Phys
  /-- `PROCESSES` -/
  processes : List Process
  /-- `SCHEDULER` -/
  sched : Scheduler
  /-- `RING.poller`: the task of the SQPOLL poller. -/
  poller : Option Nat
  /-- `INPUT` -/
  input : InputBuf
  /-- The console device. -/
  uart : Uart
  /-- `TICKS` -/
  ticks : Nat
  /-- `INSTALLED`: the root `activate` believes to be live, `0` before the first activation. -/
  installed : Nat
  /-- `TTBR0_EL1` -/
  ttbr0 : Nat
  /-- `KERNEL_L1` -/
  kernelL1 : Nat
  /-- `KERNEL_TTBR0` -/
  kernelTtbr0 : Nat
  /-- `PROGRAMS`: the embedded programs by name. -/
  programs : List (String × List UInt8)
  /-- What happened so far, the latest first. -/
  trace : List Event

namespace Kernel

/-- The bytes of physical memory. -/
abbrev mem (k : Kernel) : Mem := k.phys.mem

/-- Replace the bytes of physical memory. -/
def setMem (k : Kernel) (m : Mem) : Kernel := { k with phys := { k.phys with mem := m } }

/-- Record an event. -/
def log (k : Kernel) (e : Event) : Kernel := { k with trace := e :: k.trace }

/-- `kprintln!` -/
def kprintln (k : Kernel) (s : String) : Kernel :=
  { k with uart := k.uart.writeStr (s.toUTF8.toList ++ [0x0a]) }

/-- The process, not torn down, that has its ring page at `pa`.  At address 0 nobody has one: there
the entry of a process says that it has no ring. -/
def ringOwner (k : Kernel) (pa : Nat) : Option Nat :=
  if pa = 0 then none else k.processes.findIdx? fun p ↦ p.live && p.ringPa == pa

/-! ## Address spaces -/

/-- `activate`: install a root unless it is the one installed last. -/
def activate (k : Kernel) (root : Nat) : Kernel :=
  if k.installed ≠ root then { k with installed := root, ttbr0 := root } else k

/-! ## Scheduling -/

/-- `schedule`: pass the processor to the next runnable task and install its address space, if it
has one.  Nothing happens when no other task is runnable. -/
def schedule (k : Kernel) : Kernel :=
  let next := k.sched.next
  if next = k.sched.current then k
  else
    let k' := { k with sched := { k.sched with current := next } }
    match k.sched.tasks[next]?.bind (·.ttbr0) with
    | some root => k'.activate root
    | none => k'

/-- `block_current` up to the switch; the caller goes on when it is scheduled again. -/
def blockCurrent (k : Kernel) : Kernel := { k with sched := k.sched.markBlocked }.schedule

/-- `task_exit` -/
def taskExit (k : Kernel) : Kernel := { k with sched := k.sched.markExited }.schedule

/-- `wake` -/
def wake (k : Kernel) (task : Nat) : Kernel := { k with sched := k.sched.wake task }

/-- `spawn_user`: a task bound to a process and its address space. -/
def spawnUser (k : Kernel) (process ttbr0 : Nat) : Kernel :=
  { k with sched := k.sched.spawnInner (some process) (some ttbr0) }

/-- `tick`, after `on_tick` has counted: wake due sleepers and preempt. -/
def tick (k : Kernel) : Kernel :=
  let now := (k.ticks + 1) % 2 ^ 64
  { k with ticks := now, sched := k.sched.wakeSleepers now }.schedule

/-! ## Processes -/

/-- `create`: build the process's memory and push its entry. -/
def create (k : Kernel) (image : List UInt8) (ttbr0 : Nat) : Option (Nat × Kernel) := do
  let (loaded, frames, phys) ← createSpace k.phys image ttbr0
  some (k.processes.length,
    { k with phys, processes := k.processes ++ [Process.fresh ttbr0 loaded frames] })

/-- `programs::get` -/
def getProgram (k : Kernel) (name : String) : Option (List UInt8) :=
  (k.programs.find? fun p ↦ p.1 == name).map (·.2)

/-! ## User memory, through the live address space -/

/-- The bytes at `[ptr, ptr + len)` as the kernel reads them; `none` where a load faults, which
halts the machine. -/
def readUser (k : Kernel) (ptr len : Nat) : Option (List UInt8) :=
  (List.range len).mapM fun i ↦ (readablePa k.mem k.ttbr0 (ptr + i)).map k.mem

/-- One `STTRB`: a store with EL0 permissions.  A fault halts the machine. -/
def sttrb (k : Kernel) (va : Nat) (b : UInt8) : Option Kernel :=
  (el0WritablePa k.mem k.ttbr0 va).map fun pa ↦ k.setMem (k.mem.fill pa [b])

/-- The copy loop of `copy_to_user`. -/
def sttrbs (k : Kernel) (dst : Nat) : List UInt8 → Option Kernel
  | [] => some k
  | b :: bs => do (← k.sttrb dst b).sttrbs (dst + 1) bs

/-- `copy_to_user`: `false` in the result when the destination is not writable user memory. -/
def copyToUser (k : Kernel) (pid dst : Nat) (src : List UInt8) : Option (Bool × Kernel) := do
  if ← Processes.isUserRange k.processes pid dst src.length true then
    some (true, ← k.sttrbs dst src)
  else
    some (false, k)

end Kernel
end Jatuli

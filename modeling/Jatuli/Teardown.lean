import Jatuli.Ring

/-!
# Boot and teardown

The two ends of the life of an address space: `bootKernel` builds the kernel's own, and `teardown`
reclaims a process's.
-/

set_option autoImplicit false

namespace Jatuli
namespace Kernel

/-- The loop of `teardown` over the pages a process owned: unmap each in the live space and free
its frame. -/
def reclaim (ttbr0 : Nat) : List (Nat × Nat) → Phys → Phys
  | [], s => s
  | (va, frame) :: owned, s =>
    reclaim ttbr0 owned
      ({ s with mem := unmapPageIn s.mem (l0Ptr ttbr0) va }.freeFrame frame)

/-- `teardown` of the current process `pid`: drop its parked reads, report its exit, free its
pages, move to the kernel's space, free its tables. -/
def teardown (k : Kernel) (pid : Nat) (code : Int) : Option Kernel := do
  let k ← (k.abortUser pid).notifyExit pid code
  let deadTtbr0 ← Processes.ttbr0 k.processes pid
  let (owned, processes) := Processes.takeFrames k.processes pid
  let k := { k with processes, phys := reclaim k.ttbr0 owned k.phys }
  let k := k.activate k.kernelTtbr0
  let k := { k with phys := freeAddressSpace k.phys deadTtbr0 }
  let k := { k with processes := Processes.markExited k.processes pid }
  some (k.kprintln ("[user] freed " ++ toString owned.length ++ " frames"))

end Kernel

/-- An exited task, such as the two workers `sched_self_check` leaves in the table. -/
def Task.exited : Task := { state := .exited, wakeAt := 0, process := none, ttbr0 := none }

/-- A kernel task as `spawn` pushes it. -/
def Task.kernel : Task := { state := .runnable, wakeAt := 0, process := none, ttbr0 := none }

/-- The index of the SQPOLL task: spawned after `kmain` itself and the two self-check workers. -/
def pollerTask : Nat := 3

/-- The kernel once `kmain` has initialised frames, MMU and heap, run its self-checks and spawned
the poller: no process exists and the boot space is live. -/
def bootKernel (mem : Mem) (kernelEnd ticks : Nat) (programs : List (String × List UInt8)) :
    Option Kernel := do
  let ((l0, l1), phys) ← initMmu (initFrames mem kernelEnd)
  let phys ← initHeap phys l0
  some {
    phys
    processes := []
    sched := { tasks := [.kernel, .exited, .exited, .kernel], current := 0 }
    poller := none
    input := .empty
    uart := { rx := [], rxIrq := true, tx := [] }
    ticks
    installed := 0
    ttbr0 := l0
    kernelL1 := l1
    kernelTtbr0 := l0
    programs
    trace := []
  }

end Jatuli

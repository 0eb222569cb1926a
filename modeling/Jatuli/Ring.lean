import Jatuli.Kernel

/-!
# The rings

The kernel reaches a process's ring page at its physical address, under any address space; the
payloads of submissions are user addresses and go through the live one.  Everything here runs with
interrupts masked, from a system call, from an interrupt or inside `drain`; the poller's own
unmasked code is in `Jatuli.Machine`.
-/

set_option autoImplicit false

namespace Jatuli

/-- `ERR`: the result for an invalid pointer, an unknown opcode or a full table. -/
def err : Int := -1

/-- The two's-complement bits of an `i64`. -/
def i64Bits (r : Int) : Nat := (r % 2 ^ 64).toNat

/-- The `i64` with these bits. -/
def i64OfBits (v : Nat) : Int := (BitVec.ofNat 64 v).toInt

/-- `slot` -/
def slot (index : BitVec 32) : Nat := (index &&& ringMask).toNat

/-! ## The ring page -/

/-- `sq_head` -/
def sqHead (m : Mem) (ringPa : Nat) : BitVec 32 := .ofNat 32 (m.load (ringPa + offSqHead) 4)
/-- `sq_tail` -/
def sqTail (m : Mem) (ringPa : Nat) : BitVec 32 := .ofNat 32 (m.load (ringPa + offSqTail) 4)
/-- `cq_head` -/
def cqHead (m : Mem) (ringPa : Nat) : BitVec 32 := .ofNat 32 (m.load (ringPa + offCqHead) 4)
/-- `cq_tail` -/
def cqTail (m : Mem) (ringPa : Nat) : BitVec 32 := .ofNat 32 (m.load (ringPa + offCqTail) 4)
/-- `flags` -/
def flags (m : Mem) (ringPa : Nat) : Nat := m.load (ringPa + offFlags) 4
/-- Address of the submission entry in a slot. -/
def sqeAddr (ringPa i : Nat) : Nat := ringPa + offSq + 32 * i
/-- Address of the completion entry in a slot. -/
def cqeAddr (ringPa i : Nat) : Nat := ringPa + offCq + 16 * i

namespace Kernel

/-- A store of `n` bytes at offset `off` of the ring page at `ringPa`. -/
def ringStore (k : Kernel) (ringPa off n v : Nat) : Kernel :=
  (k.setMem (k.mem.store (ringPa + off) n v)).log (.ringStore ringPa (k.ringOwner ringPa))

/-- Record a completion as it is found in a slot of the ring page.  (`child` is only for the
trace.) -/
def logCqe (k : Kernel) (ringPa slot : Nat) (child : Option Nat) : Kernel :=
  k.log (.cqe (k.ringOwner ringPa) (k.mem.load (cqeAddr ringPa slot) 8)
    (i64OfBits (k.mem.load (cqeAddr ringPa slot + 8) 8)) child)

/-- `complete`: write the entry, then publish it by moving the tail; drop it when the queue is
full.  The trace has what is in the slot then. -/
def complete (k : Kernel) (ringPa userData : Nat) (result : Int) (child : Option Nat) : Kernel :=
  let tail := cqTail k.mem ringPa
  let head := cqHead k.mem ringPa
  if ringEntries ≤ tail - head then
    (k.kprintln "jring: completion queue overflow, dropping CQE").log
      (.overflow (k.ringOwner ringPa) userData child)
  else
    (((k.ringStore ringPa (offCq + 16 * slot tail) 8 userData).ringStore
        ringPa (offCq + 16 * slot tail + 8) 8 (i64Bits result)).ringStore
        ringPa offCqTail 4 (tail + 1).toNat).logCqe ringPa (slot tail) child

/-- `setup` for the calling process `pid`: a fresh zeroed page, mapped and recorded.  Nothing when
the ring exists already. -/
def setupRing (k : Kernel) (pid : Nat) : Option Kernel := do
  if (← Processes.ringPa k.processes pid) ≠ 0 then
    some k
  else
    let (frame, phys) ← k.phys.allocFrame
    let phys := { phys with mem := phys.mem.fill frame (List.replicate 4096 0) }
    let root ← Processes.ttbr0 k.processes pid
    let phys ← mapPageIn phys (l0Ptr root) userRingVa frame pageUserRw
    some { k with phys, processes := Processes.setRing k.processes pid frame }

/-- `drain_input`: deliver buffered bytes into `[buf, buf + len)`, from offset `count` on with `n`
bytes of room left.  Returns how many were delivered in all. -/
def drainInputFrom (pid buf : Nat) : Nat → Kernel → Nat → Option (Nat × Kernel)
  | 0, k, count => some (count, k)
  | n + 1, k, count =>
    match popInput k.input k.uart with
    | none => some (count, k)
    | some (b, input, uart) => do
      let (ok, k) ← { k with input, uart }.copyToUser pid (buf + count) [b]
      -- a refused byte has been popped already and is lost
      if ok then drainInputFrom pid buf n k (count + 1) else some (count, k)

/-- `drain_input` -/
def drainInput (k : Kernel) (pid buf len : Nat) : Option (Nat × Kernel) :=
  drainInputFrom pid buf len k 0

/-- `spawn`: create a process running the named program, as a background task. -/
def spawn (k : Kernel) (pid namePtr nameLen userData : Nat) : Option Kernel := do
  let ringPa ← Processes.ringPa k.processes pid
  if !(← Processes.isUserRange k.processes pid namePtr nameLen false) then
    some (k.complete ringPa userData err none)
  else
    let bytes ← k.readUser namePtr nameLen
    let name := String.fromUTF8? ⟨bytes.toArray⟩
    match name.bind k.getProgram with
    | none => some (k.complete ringPa userData err none)
    | some image =>
      let (ttbr0, phys) ← newAddressSpace k.phys k.kernelL1
      let (child, k) ← { k with phys }.create image ttbr0
      let k := { k with processes := Processes.setParent k.processes child pid }
      -- the debug assertion that parent and child do not share the page at `USER_BASE`
      guard (translate k.mem ttbr0 userBase ≠
        translate k.mem (← Processes.ttbr0 k.processes pid) userBase)
      let k := k.kprintln ("[spawn] " ++ name.getD "?" ++ " -> pid " ++ toString child)
      some ((k.spawnUser child ttbr0).complete ringPa userData child none)

/-- `wait`: answer with the exit code of a child that has exited, else park the tag on it. -/
def wait (k : Kernel) (pid handle userData : Nat) : Option Kernel := do
  let ringPa ← Processes.ringPa k.processes pid
  match k.processes[handle]? with
  | none => some (k.complete ringPa userData err none)
  | some c =>
    if c.parent ≠ some pid then some (k.complete ringPa userData err none)
    else match c.exitCode with
      | some code => some (k.complete ringPa userData code (some handle))
      | none =>
        some { k with processes := Processes.registerWait k.processes handle userData }

/-- The `OP_PRINT` arm of `process_sqe`. -/
def print (k : Kernel) (pid ringPa ptr len userData : Nat) : Option Kernel := do
  if !(← Processes.isUserRange k.processes pid ptr len false) then
    some (k.complete ringPa userData err none)
  else
    let bytes ← k.readUser ptr len
    let k := if (String.fromUTF8? ⟨bytes.toArray⟩).isSome
      then { k with uart := k.uart.writeStr bytes } else k
    some (k.complete ringPa userData 0 none)

/-- The `OP_READ` arm of `process_sqe`. -/
def read (k : Kernel) (pid ringPa buf len userData : Nat) : Option Kernel := do
  if !(← Processes.isUserRange k.processes pid buf len true) then
    some (k.complete ringPa userData err none)
  else if len = 0 then
    some (k.complete ringPa userData 0 none)
  else
    -- only the foreground process may take bytes now; any other one parks
    let (count, k) ← if Processes.foregroundPid k.processes = some pid
      then k.drainInput pid buf len else some (0, k)
    if 0 < count then
      some (k.complete ringPa userData count none)
    else
      match ← Processes.parkRead k.processes pid { buf, len, userData } with
      | some processes => some { k with processes }
      | none => some (k.complete ringPa userData err none)

/-- The child an entry waits for: `OP_WAIT` with the handle of a child of `pid`. -/
def waitsFor (k : Kernel) (pid opcode arg0 : Nat) : Option Nat :=
  if opcode = opWait ∧ (k.processes[arg0]?).any (·.parent = some pid) then some arg0 else none

/-- `process_sqe`: carry out the submission entry at `addr` for process `pid`. -/
def processSqe (k : Kernel) (pid addr : Nat) : Option Kernel := do
  let opcode := k.mem.load addr 8
  let arg0 := k.mem.load (addr + 8) 8
  let arg1 := k.mem.load (addr + 16) 8
  let userData := k.mem.load (addr + 24) 8
  let ringPa ← Processes.ringPa k.processes pid
  let k := k.log (.sqe pid userData k.ttbr0 (k.waitsFor pid opcode arg0))
  if opcode = opNop then some (k.complete ringPa userData 0 none)
  else if opcode = opPrint then k.print pid ringPa arg0 arg1 userData
  else if opcode = opRead then k.read pid ringPa arg0 arg1 userData
  else if opcode = opSpawn then k.spawn pid arg0 arg1 userData
  else if opcode = opWait then k.wait pid arg0 userData
  else some (k.complete ringPa userData err none)

/-- The loop of `drain`: while `head` differs from the `tail` read at its start, process an entry
and publish the new head.  `n` is the modular distance, the number of rounds the loop makes. -/
def drainFrom (pid ringPa : Nat) (tail : BitVec 32) : Nat → Kernel → BitVec 32 → Option Kernel
  | 0, k, _ => some k
  | n + 1, k, head =>
    if head = tail then some k
    else do
      let k ← k.processSqe pid (sqeAddr ringPa (slot head))
      drainFrom pid ringPa tail n (k.ringStore ringPa offSqHead 4 (head + 1).toNat) (head + 1)

/-- `drain`: consume all submissions process `pid` has published. -/
def drain (k : Kernel) (pid : Nat) : Option Kernel := do
  let ringPa ← Processes.ringPa k.processes pid
  if ringPa = 0 then some k
  else
    let head := sqHead k.mem ringPa
    let tail := sqTail k.mem ringPa
    drainFrom pid ringPa tail (tail - head).toNat k head

/-- The first half of `enter` for process `pid`: revive the poller if its flag is up, then
consume what is published. -/
def enterSubmit (k : Kernel) (pid ringPa : Nat) : Option Kernel :=
  let k := if flags k.mem ringPa &&& needWakeup ≠ 0 then
      let k := k.ringStore ringPa offFlags 4 0
      match k.poller with
      | some p => k.wake p
      | none => k
    else k
  k.drain pid

/-- The number of completions not reaped yet. -/
def unreaped (k : Kernel) (ringPa : Nat) : Nat := (cqTail k.mem ringPa - cqHead k.mem ringPa).toNat

/-- `notify_exit`: record the exit and, if the parent has a wait parked on `pid`, complete it on
the parent's ring and wake the parent. -/
def notifyExit (k : Kernel) (pid : Nat) (code : Int) : Option Kernel :=
  match Processes.onExit k.processes pid code with
  | (none, processes) => some { k with processes }
  | (some (parent, tag), processes) => do
    let k := { k with processes }
    let parentRing ← Processes.ringPa k.processes parent
    let k := if parentRing ≠ 0 then k.complete parentRing tag code (some pid) else k
    match Processes.takeWaiter k.processes parent with
    | (some waiter, processes) => some ({ k with processes }.wake waiter)
    | (none, processes) => some { k with processes }

/-- The loop of `poll_pending` over the parked reads from slot `8 - n` on, in the snapshot
`pending`; says whether anything was completed. -/
def pollPendingFrom (pid ringPa : Nat) (pending : Vector (Option Pending) maxPending) :
    Nat → Kernel → Bool → Option (Bool × Kernel)
  | 0, k, completed => some (completed, k)
  | n + 1, k, completed =>
    if h : maxPending - (n + 1) < maxPending then
      match pending[maxPending - (n + 1)] with
      | none => pollPendingFrom pid ringPa pending n k completed
      | some p => do
        let (count, k) ← k.drainInput pid p.buf p.len
        if 0 < count then
          let k := k.complete ringPa p.userData count none
          let k := { k with processes := Processes.clearPending k.processes pid ⟨_, h⟩ }
          pollPendingFrom pid ringPa pending n k true
        else pollPendingFrom pid ringPa pending n k completed
    else none

/-- `poll_pending`: complete the foreground process's parked reads, under its address space, and
wake it. -/
def pollPending (k : Kernel) : Option Kernel :=
  match Processes.foregroundPid k.processes with
  | none => some k
  | some pid => do
    let p ← k.processes[pid]?
    if p.ringPa = 0 then some k
    else
      let prev := k.ttbr0
      let k := if prev ≠ p.ttbr0 then k.activate p.ttbr0 else k
      let (completed, k) ← pollPendingFrom pid p.ringPa p.pending maxPending k false
      let k := if prev ≠ p.ttbr0 then k.activate prev else k
      if completed then
        match Processes.takeWaiter k.processes pid with
        | (some waiter, processes) => some ({ k with processes }.wake waiter)
        | (none, processes) => some { k with processes }
      else some k

/-- `abort_user` -/
def abortUser (k : Kernel) (pid : Nat) : Kernel :=
  { k with processes := Processes.clearRing k.processes pid }

end Kernel
end Jatuli

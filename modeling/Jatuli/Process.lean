import Jatuli.Elf

/-!
# The process table

A process is an entry of a table that never shrinks: teardown leaves a husk whose address-space
root, parent and exit code stay readable.  Every accessor of the source takes the table's lock for
one read or one update; each is one function here, on the list behind the lock.
-/

set_option autoImplicit false

namespace Jatuli

/-- `USER_STACK_VA` -/
def userStackVa : Nat := userBase + 0x10_0000
/-- `USER_STACK_SIZE` -/
def userStackSize : Nat := frameSize
/-- `MAX_PENDING` -/
def maxPending : Nat := 8

/-- A parked `READ`. -/
structure Pending where
  /-- The user buffer, validated when the request was accepted. -/
  buf : Nat
  /-- Its length. -/
  len : Nat
  /-- The completion tag. -/
  userData : Nat
deriving DecidableEq, Repr

/-- One user program's kernel-side state. -/
structure Process where
  /-- Address-space root. -/
  ttbr0 : Nat
  /-- The loaded image's ranges. -/
  loaded : Loaded
  /-- Every `(va, frame)` the program owns. -/
  frames : List (Nat × Nat)
  /-- Physical address of the ring page, `0` until it is set up. -/
  ringPa : Nat
  /-- Parked reads. -/
  pending : Vector (Option Pending) maxPending
  /-- Task blocked in `enter`. -/
  ringWaiter : Option Nat
  /-- Whether this process owns the keyboard. -/
  foreground : Bool
  /-- The process that spawned this one. -/
  parent : Option Nat
  /-- Exit code, set at teardown. -/
  exitCode : Option Int
  /-- Tag of the parent's parked `OP_WAIT`. -/
  exitWaiter : Option Nat
deriving DecidableEq

namespace Process

/-- A process that has not been torn down. -/
def live (p : Process) : Bool := p.exitCode.isNone

end Process

/-! ## The accessors -/

namespace Processes

/-- `set_parent` -/
def setParent (ps : List Process) (pid parent : Nat) : List Process :=
  ps.modify pid fun p ↦ { p with parent := some parent }

/-- `register_wait`: remember the tag to fire when `pid` exits. -/
def registerWait (ps : List Process) (pid tag : Nat) : List Process :=
  ps.modify pid fun p ↦ { p with exitWaiter := some tag }

/-- `on_exit`: record the code and take the parked waiter.  The waiter is gone even when there is
no parent to complete it for. -/
def onExit (ps : List Process) (pid : Nat) (code : Int) : Option (Nat × Nat) × List Process :=
  (do let p ← ps[pid]?
      let tag ← p.exitWaiter
      let parent ← p.parent
      some (parent, tag),
   ps.modify pid fun p ↦ { p with exitCode := some code, exitWaiter := none })

/-- `ring_pa` -/
def ringPa (ps : List Process) (pid : Nat) : Option Nat := ps[pid]?.map (·.ringPa)

/-- `ttbr0` -/
def ttbr0 (ps : List Process) (pid : Nat) : Option Nat := ps[pid]?.map (·.ttbr0)

/-- `set_ring` -/
def setRing (ps : List Process) (pid frame : Nat) : List Process :=
  ps.modify pid fun p ↦
    { p with ringPa := frame, frames := p.frames ++ [(userRingVa, frame)] }

/-- `set_foreground` -/
def setForeground (ps : List Process) (pid : Nat) (on : Bool) : List Process :=
  ps.modify pid fun p ↦ { p with foreground := on }

/-- `foreground_pid` -/
def foregroundPid (ps : List Process) : Option Nat := ps.findIdx? (·.foreground)

/-- `park_read`: the first free slot takes the request; `none` when there is no free slot. -/
def parkRead (ps : List Process) (pid : Nat) (r : Pending) : Option (Option (List Process)) := do
  let p ← ps[pid]?
  match p.pending.findFinIdx? Option.isNone with
  | some i => some (some (ps.set pid { p with pending := p.pending.set i (some r) i.isLt }))
  | none => some none

/-- `clear_pending` -/
def clearPending (ps : List Process) (pid : Nat) (idx : Fin maxPending) : List Process :=
  ps.modify pid fun p ↦ { p with pending := p.pending.set idx none idx.isLt }

/-- `set_waiter` -/
def setWaiter (ps : List Process) (pid task : Nat) : List Process :=
  ps.modify pid fun p ↦ { p with ringWaiter := some task }

/-- `take_waiter` -/
def takeWaiter (ps : List Process) (pid : Nat) : Option Nat × List Process :=
  (ps[pid]?.bind (·.ringWaiter), ps.modify pid fun p ↦ { p with ringWaiter := none })

/-- `clear_ring` -/
def clearRing (ps : List Process) (pid : Nat) : List Process :=
  ps.modify pid fun p ↦
    { p with pending := Vector.replicate maxPending none, ringWaiter := none }

/-- `take_frames` -/
def takeFrames (ps : List Process) (pid : Nat) : List (Nat × Nat) × List Process :=
  ((ps[pid]?.map (·.frames)).getD [], ps.modify pid fun p ↦ { p with frames := [] })

/-- `mark_exited` -/
def markExited (ps : List Process) (pid : Nat) : List Process :=
  ps.modify pid fun p ↦ { p with ringPa := 0, foreground := false }

/-- Whether the first segment that contains `[ptr, stop)` may be used; `false` if none does. -/
def rangeOk (needWrite : Bool) (ptr stop : Nat) (ranges : List Range) : Bool :=
  match ranges.find? fun r ↦ r.start ≤ ptr ∧ stop ≤ r.stop with
  | some r => !needWrite || r.writable
  | none => false

/-- `is_user_range`: the stack window, or inside one segment, the first containing one deciding
about writability. -/
def isUserRange (ps : List Process) (pid ptr len : Nat) (needWrite : Bool) : Option Bool :=
  if 2 ^ 64 ≤ ptr + len then some false
  else if userStackVa ≤ ptr ∧ ptr + len ≤ userStackVa + userStackSize then some true
  else ps[pid]?.map fun p ↦ rangeOk needWrite ptr (ptr + len) p.loaded.ranges

end Processes

/-- `create`: load the image into the space at `ttbr0`, map a stack, and push the new entry.
Returns the pages and ranges the entry is made of. -/
def createSpace (s : Phys) (image : List UInt8) (ttbr0 : Nat) :
    Option (Loaded × List (Nat × Nat) × Phys) := do
  let (loaded, frames, s) ← Elf.load s image ttbr0
  let (stack, s) ← s.allocFrame
  let s ← mapPageIn s (l0Ptr ttbr0) userStackVa stack pageUserRw
  some (loaded, frames ++ [(userStackVa, stack)], s)

/-- The table entry of a process just created. -/
def Process.fresh (ttbr0 : Nat) (loaded : Loaded) (frames : List (Nat × Nat)) : Process where
  ttbr0 := ttbr0
  loaded := loaded
  frames := frames
  ringPa := 0
  pending := Vector.replicate maxPending none
  ringWaiter := none
  foreground := false
  parent := none
  exitCode := none
  exitWaiter := none

end Jatuli

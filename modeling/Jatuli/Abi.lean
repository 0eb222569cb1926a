import Mathlib.Tactic.Common

/-!
# The contract between kernel and userspace

The constants of the `abi` crate: the user window, the opcodes and flags of the ring, and the byte
offsets of the shared ring page.  The ring page is `#[repr(C)]` and its layout is pinned by
compile-time assertions in the source, so the offsets here *are* the layout.
-/

set_option autoImplicit false

namespace Jatuli

/-! ## The user window -/

/-- `USER_BASE`: the base of the EL0 window, L0 slot 1. -/
def userBase : Nat := 0x80_0000_0000

/-- `USER_L0_IDX`: the L0 index of the user window. -/
def userL0Idx : Nat := userBase >>> 39

/-- `USER_RING_VA`: where the ring page is mapped in every process that has one. -/
def userRingVa : Nat := userBase + 0x30_0000

/-! ## The ring -/

/-- `RING_ENTRIES`: entries in each of the two rings. -/
def ringEntries : BitVec 32 := 16

/-- `RING_MASK`: turns a free-running index into a slot. -/
def ringMask : BitVec 32 := ringEntries - 1

/-- `NEED_WAKEUP`: the poller sleeps, so a submitter has to trap. -/
def needWakeup : Nat := 1

/-- `OP_NOP` -/
def opNop : Nat := 0
/-- `OP_PRINT` -/
def opPrint : Nat := 1
/-- `OP_READ` -/
def opRead : Nat := 2
/-- `OP_SPAWN` -/
def opSpawn : Nat := 3
/-- `OP_WAIT` -/
def opWait : Nat := 4

/-! ## The layout of the ring page -/

/-- Offset of `sq_head`, the kernel's position in the submission queue. -/
def offSqHead : Nat := 0x00
/-- Offset of `sq_tail`, the user's position in the submission queue. -/
def offSqTail : Nat := 0x04
/-- Offset of `cq_head`, the user's position in the completion queue. -/
def offCqHead : Nat := 0x08
/-- Offset of `cq_tail`, the kernel's position in the completion queue. -/
def offCqTail : Nat := 0x0c
/-- Offset of `flags`. -/
def offFlags : Nat := 0x10
/-- Offset of the submission entries, 32 bytes each. -/
def offSq : Nat := 0x40
/-- Offset of the completion entries, 16 bytes each. -/
def offCq : Nat := 0x280

end Jatuli

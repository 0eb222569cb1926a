import Mathlib.Algebra.GroupWithZero.Nat
import Mathlib.Tactic.Common

/-!
# Console input and the UART

The device holds the bytes that have arrived and not been read yet (`rx`), whether its receive
interrupt is unmasked (`rxIrq`), and everything ever written to it (`tx`).  The kernel's input
ring has one slot fewer than its size in use; its positions are `Fin 256`, so that `+ 1` is the
source's `% INPUT_BUF_SIZE`.
-/

set_option autoImplicit false

namespace Jatuli

/-- `INPUT_BUF_SIZE` -/
def inputBufSize : Nat := 256

instance neZeroInputBufSize : NeZero 256 := ⟨Nat.succ_ne_zero _⟩

/-- The kernel's input ring. -/
structure InputBuf where
  /-- The bytes. -/
  buf : Vector UInt8 inputBufSize
  /-- Read position; equal to `tail` when empty. -/
  head : Fin 256
  /-- Write position. -/
  tail : Fin 256

/-- The PL011 as the kernel uses it. -/
structure Uart where
  /-- Bytes received and not read yet, the oldest first. -/
  rx : List UInt8
  /-- Whether the receive interrupt is unmasked. -/
  rxIrq : Bool
  /-- Bytes written, the oldest first. -/
  tx : List UInt8

namespace InputBuf

/-- The ring at boot. -/
def empty : InputBuf := { buf := Vector.replicate _ 0, head := 0, tail := 0 }

/-- `is_empty` -/
def isEmpty (b : InputBuf) : Bool := b.head = b.tail

/-- `is_full` -/
def isFull (b : InputBuf) : Bool := b.tail + 1 = b.head

end InputBuf

namespace Uart

/-- `set_rx_irq` -/
def setRxIrq (u : Uart) (on : Bool) : Uart := { u with rxIrq := on }

/-- `try_getc` -/
def tryGetc (u : Uart) : Option (UInt8 × Uart) :=
  match u.rx with
  | [] => none
  | b :: rest => some (b, { u with rx := rest })

/-- `write_str`, on the bytes of the string: a line feed goes out as carriage return and line
feed. -/
def writeStr (u : Uart) (s : List UInt8) : Uart :=
  { u with tx := u.tx ++ s.flatMap fun b ↦ if b = 0x0a then [0x0d, 0x0a] else [b] }

end Uart

/-- The loop of `drain_uart`: while there is room, move a byte from the device into the ring; mask
the interrupt when the ring is full.  Every round but the last takes a byte off the device, so as
many rounds as it holds bytes, and one more, are enough. -/
def drainUartFrom : Nat → InputBuf → Uart → InputBuf × Uart
  | 0, b, u => (b, u)
  | fuel + 1, b, u =>
    if b.isFull then (b, u.setRxIrq false)
    else match u.tryGetc with
      | some (c, u) =>
        drainUartFrom fuel { b with buf := b.buf.set b.tail c, tail := b.tail + 1 } u
      | none => (b, u)

/-- `drain_uart` -/
def drainUart (b : InputBuf) (u : Uart) : InputBuf × Uart := drainUartFrom (u.rx.length + 1) b u

/-- `pop`: take one byte, unmasking the receive interrupt when the ring was full. -/
def popInput (b : InputBuf) (u : Uart) : Option (UInt8 × InputBuf × Uart) :=
  if b.isEmpty then none
  else some (b.buf[b.head], { b with head := b.head + 1 }, if b.isFull then u.setRxIrq true else u)

end Jatuli

import Jatuli.Lib.RingBuffer
import Jatuli.Lib.Transition
import Jatuli.Input

/-!
# Console input between the device and its readers

The input ring stands for a queue of at most 255 bytes.  `drain_uart` moves bytes from the device to
the end of that queue until the queue is full or the device is empty, and `pop` takes the first one;
the receive interrupt is masked while the queue is full and only then.  So no byte is lost between
the device and the readers, and none is left in the device with the interrupt masked while there is
room for it.
-/

set_option autoImplicit false

namespace Jatuli

/-! ## The ring as a queue -/

namespace InputBuf

/-- The bytes in the ring, the oldest first. -/
def contents (b : InputBuf) : List UInt8 := RingBuffer.contents (n := 256) b.buf b.head b.tail

theorem length_contents (b : InputBuf) : b.contents.length = RingBuffer.size b.head b.tail :=
  RingBuffer.length_contents (n := 256) _ _ _

theorem contents_empty : empty.contents = [] := RingBuffer.contents_self _ _

theorem contents_length_lt (b : InputBuf) : b.contents.length < inputBufSize := by
  rw [length_contents]
  exact RingBuffer.size_lt _ _

theorem isFull_iff {b : InputBuf} : b.isFull = true ↔ b.contents.length = inputBufSize - 1 := by
  have hsize : inputBufSize = 256 := rfl
  rw [length_contents, isFull, decide_eq_true_iff, RingBuffer.full_iff]
  omega

theorem isEmpty_iff {b : InputBuf} : b.isEmpty = true ↔ b.contents = [] := by
  rw [isEmpty, decide_eq_true_iff, RingBuffer.empty_iff, ← List.length_eq_zero_iff,
    length_contents]

/-- Storing a byte at the tail appends it. -/
theorem contents_store {b : InputBuf} (h : b.isFull = false) (c : UInt8) :
    contents { b with buf := b.buf.set b.tail c, tail := b.tail + 1 } = b.contents ++ [c] :=
  RingBuffer.contents_push (n := 256) b.buf (of_decide_eq_false h) c

end InputBuf

/-! ## The two operations -/

/-- What one call of `drain_uart` does: it appends a first part of what the device holds, stops for
no other reason than a full ring or an empty device, and masks the interrupt if the ring is full. -/
structure Drained (b : InputBuf) (u : Uart) (b' : InputBuf) (u' : Uart) : Prop where
  moved : ∃ taken, u.rx = taken ++ u'.rx ∧ b'.contents = b.contents ++ taken
  stops : b'.isFull = true ∨ u'.rx = []
  rxIrq : u'.rxIrq = (u.rxIrq && !b'.isFull)
  tx : u'.tx = u.tx

/-- A full ring stays full. -/
theorem Drained.full {b b' : InputBuf} {u u' : Uart} (h : Drained b u b' u')
    (hfull : b.isFull = true) : b'.isFull = true := by
  obtain ⟨taken, -, hcontents⟩ := h.moved
  have hlt := b'.contents_length_lt
  rw [InputBuf.isFull_iff] at hfull ⊢
  rw [hcontents, List.length_append] at hlt ⊢
  omega

theorem drainUartFrom_drained : ∀ (fuel : Nat) (b : InputBuf) (u : Uart), u.rx.length < fuel →
    Drained b u (drainUartFrom fuel b u).1 (drainUartFrom fuel b u).2
  | 0, _, _, h => absurd h (Nat.not_lt_zero _)
  | fuel + 1, b, u, h => by
    rw [drainUartFrom]
    by_cases hfull : b.isFull = true
    · rw [if_pos hfull]
      exact ⟨⟨[], rfl, (List.append_nil _).symm⟩, .inl hfull, by simp [hfull, Uart.setRxIrq], rfl⟩
    · rw [if_neg hfull, Uart.tryGetc]
      rw [Bool.not_eq_true] at hfull
      cases hrx : u.rx with
      | nil => exact ⟨⟨[], by simp [hrx], (List.append_nil _).symm⟩, .inr hrx, by simp [hfull], rfl⟩
      | cons c rest =>
        have hlen : rest.length < fuel := by rw [hrx, List.length_cons] at h; omega
        obtain ⟨⟨taken, hrest, hcontents⟩, hstops, hirq, htx⟩ := drainUartFrom_drained fuel
          { b with buf := b.buf.set b.tail c, tail := b.tail + 1 } { u with rx := rest } hlen
        refine ⟨⟨c :: taken, ?_, ?_⟩, hstops, hirq, htx⟩
        · rw [hrx, List.cons_append, ← hrest]
        · rw [hcontents, InputBuf.contents_store hfull, List.append_assoc, List.singleton_append]

theorem drainUart_drained (b : InputBuf) (u : Uart) :
    Drained b u (drainUart b u).1 (drainUart b u).2 :=
  drainUartFrom_drained _ b u (Nat.lt_succ_self _)

/-- `pop` takes the first byte of the queue, and unmasks the interrupt when the ring was full. -/
theorem popInput_eq_some {b b' : InputBuf} {u u' : Uart} {c : UInt8}
    (h : popInput b u = some (c, b', u')) : b.contents = c :: b'.contents ∧ u'.rx = u.rx ∧
      u'.tx = u.tx ∧ u'.rxIrq = (u.rxIrq || b.isFull) := by
  rw [popInput] at h
  split at h
  · cases h
  next hempty =>
    have hne : b.head ≠ b.tail := fun he ↦ hempty (decide_eq_true he)
    obtain ⟨rfl, rfl, rfl⟩ : b.buf[b.head] = c ∧ _ = b' ∧ _ = u' := by simpa using h
    refine ⟨RingBuffer.contents_pop (n := 256) b.buf hne, ?_⟩
    by_cases hfull : b.isFull = true
    · rw [if_pos hfull]
      exact ⟨rfl, rfl, by simp [Uart.setRxIrq, hfull]⟩
    · rw [if_neg hfull]
      exact ⟨rfl, rfl, by simp [hfull]⟩

theorem popInput_eq_none {b : InputBuf} {u : Uart} : popInput b u = none ↔ b.contents = [] := by
  rw [popInput, ← InputBuf.isEmpty_iff]
  split_ifs with h <;> simp [h]

/-! ## Any sequence of calls -/

/-- The input ring and the device, with a record of the bytes that ever arrived at the device and of
those that `pop` has handed out. -/
structure Console where
  input : InputBuf
  uart : Uart
  received : List UInt8
  popped : List UInt8

/-- What can happen to console input. -/
inductive ConsoleAct
  /-- Bytes arrive at the device. -/
  | receive (bytes : List UInt8)
  /-- `drain_uart` -/
  | drain
  /-- `pop` -/
  | pop

namespace Console

/-- What an action does. -/
def step (c : Console) : ConsoleAct → Console
  | .receive bytes =>
    { c with
      uart := { c.uart with rx := c.uart.rx ++ bytes }
      received := c.received ++ bytes }
  | .drain =>
    { c with input := (drainUart c.input c.uart).1, uart := (drainUart c.input c.uart).2 }
  | .pop =>
    match popInput c.input c.uart with
    | none => c
    | some (b, input, uart) => { c with input, uart, popped := c.popped ++ [b] }

end Console

/-- Console input from boot on: an empty ring, the receive interrupt unmasked. -/
def console : System Console ConsoleAct where
  init c := c.input = .empty ∧ c.uart.rxIrq = true ∧ c.received = c.uart.rx ∧ c.popped = []
  step c a := some (c.step a)

namespace Console

/-- Every byte is in its place, and the interrupt is masked while the ring is full. -/
structure Flowing (c : Console) : Prop where
  rxIrq : c.uart.rxIrq = !c.input.isFull
  stream : c.received = c.popped ++ c.input.contents ++ c.uart.rx

theorem Flowing.step {c : Console} (h : c.Flowing) (a : ConsoleAct) : (c.step a).Flowing := by
  cases a with
  | receive bytes =>
    refine ⟨h.rxIrq, ?_⟩
    show c.received ++ bytes = c.popped ++ c.input.contents ++ (c.uart.rx ++ bytes)
    rw [h.stream, List.append_assoc _ c.uart.rx]
  | drain =>
    obtain ⟨⟨taken, hrx, hcontents⟩, -, hirq, -⟩ := drainUart_drained c.input c.uart
    refine ⟨?_, ?_⟩
    · show (drainUart c.input c.uart).2.rxIrq = !(drainUart c.input c.uart).1.isFull
      rw [hirq, h.rxIrq]
      cases hfull : c.input.isFull with
      | false => rfl
      | true =>
        rw [(drainUart_drained c.input c.uart).full hfull]
        rfl
    · show c.received =
        c.popped ++ (drainUart c.input c.uart).1.contents ++ (drainUart c.input c.uart).2.rx
      rw [h.stream, hcontents, hrx]
      simp only [List.append_assoc]
  | pop =>
    rw [Console.step]
    cases hpop : popInput c.input c.uart with
    | none => exact h
    | some r =>
      obtain ⟨b, input, uart⟩ := r
      obtain ⟨hcontents, hrx, -, hirq⟩ := popInput_eq_some hpop
      refine ⟨?_, ?_⟩
      · show uart.rxIrq = !input.isFull
        have hroom : input.isFull = false := by
          rw [← Bool.not_eq_true, InputBuf.isFull_iff]
          have hlt := c.input.contents_length_lt
          rw [hcontents, List.length_cons] at hlt
          omega
        rw [hirq, h.rxIrq, hroom, Bool.not_or_self]
        rfl
      · show c.received = c.popped ++ [b] ++ input.contents ++ uart.rx
        rw [h.stream, hcontents, hrx]
        simp only [List.append_assoc, List.cons_append, List.nil_append]

end Console

theorem flowing_of_reach {c : Console} (h : console.Reach System.Free c) : c.Flowing := by
  refine h.invariant ?_ ?_
  · rintro c ⟨hinput, hirq, hreceived, hpopped⟩
    refine ⟨?_, ?_⟩
    · rw [hirq, hinput]
      rfl
    · rw [hreceived, hpopped, hinput, InputBuf.contents_empty]
      rfl
  · rintro c a c' hc - hs
    obtain rfl := Option.some.inj hs
    exact hc.step a

/-- **The receive interrupt is masked exactly while the input ring is full**, and no byte gets lost:
whatever arrived has been handed out, is in the ring or is in the device, in this order.  A call of
`drain_uart` stores every byte it reads, and stops only at a full ring or an empty device. -/
theorem rx_masked_iff_full {c : Console} (h : console.Reach System.Free c) :
    (c.uart.rxIrq = false ↔ c.input.contents.length = inputBufSize - 1) ∧
      c.received = c.popped ++ c.input.contents ++ c.uart.rx ∧
      Drained c.input c.uart (c.step .drain).input (c.step .drain).uart := by
  have hflow := flowing_of_reach h
  refine ⟨?_, hflow.stream, drainUart_drained c.input c.uart⟩
  rw [hflow.rxIrq, ← InputBuf.isFull_iff]
  cases c.input.isFull <;> simp

/-- A paste of 300 bytes fills the ring and masks the interrupt. -/
theorem rx_masked_after_paste : ∃ c, console.Reach System.Free c ∧ c.uart.rxIrq = false ∧
    c.input.contents.length = inputBufSize - 1 := by
  obtain ⟨c, hc⟩ : ∃ c : Console, c = ⟨.empty, ⟨List.replicate 300 7, true, []⟩,
    List.replicate 300 7, []⟩ := ⟨_, rfl⟩
  have hreach : console.Reach System.Free c := by
    rw [hc]
    exact .init ⟨rfl, rfl, rfl, rfl⟩
  obtain ⟨⟨taken, hrx, hcontents⟩, hstops, -⟩ := (rx_masked_iff_full hreach).2.2
  have hreach' : console.Reach System.Free (c.step .drain) := hreach.step trivial rfl
  have hfull : (c.step .drain).input.contents.length = inputBufSize - 1 := by
    rcases hstops with hfull | hnil
    · exact InputBuf.isFull_iff.mp hfull
    · -- the ring cannot have taken all of them
      have hlt := (c.step .drain).input.contents_length_lt
      have hlen : taken.length = 300 := by
        rw [hnil, List.append_nil, hc] at hrx
        rw [← hrx, List.length_replicate]
      rw [hcontents, List.length_append, hlen] at hlt
      have hsize : inputBufSize = 256 := rfl
      omega
  exact ⟨_, hreach', (rx_masked_iff_full hreach').1.mpr hfull, hfull⟩

end Jatuli

import Mathlib.Data.Nat.Bitwise
import Mathlib.Tactic.Common
import Jatuli.Lib.Transition

/-!
# The kernel heap

A bump allocator: an allocation rounds `next` up and moves it past the block, and memory comes back
only when the number of live blocks drops to zero.  So that two live blocks never overlap depends
on that number being exact over the whole history; the system below keeps the live blocks beside
the allocator and says what holds of the two after any sequence of calls.

Addresses are `usize`.  A null pointer is the address `0`; where the arithmetic of the source
overflows, it panics, and that is `none`.
-/

set_option autoImplicit false

namespace Jatuli

/-- A request: a size that is not zero, and an alignment that is a power of two. -/
structure Heap.Layout where
  size : Nat
  align : Nat
  size_pos : 0 < size
  size_lt : size < 2 ^ 64
  align_pow : ∃ i < 64, align = 2 ^ i

/-- The fields of the allocator. -/
structure BumpAllocator where
  heapStart : Nat
  heapEnd : Nat
  next : Nat
  /-- Number of live blocks. -/
  allocations : Nat
deriving DecidableEq, Repr

namespace BumpAllocator

/-- `align_up`; the complement is that of a 64-bit word. -/
def alignUp (addr align : Nat) : Option Nat :=
  if addr + align < 2 ^ 64 then some ((addr + align - 1) &&& (2 ^ 64 - 1 - (align - 1)))
  else none

/-- `init` -/
def init (start size : Nat) : BumpAllocator where
  heapStart := start
  heapEnd := start + size
  next := start
  allocations := 0

/-- `alloc`: the address of the block, `0` when there is no room. -/
def alloc (b : BumpAllocator) (layout : Heap.Layout) : Option (Nat × BumpAllocator) := do
  let allocStart ← alignUp b.next layout.align
  -- `checked_add`
  if 2 ^ 64 ≤ allocStart + layout.size then some (0, b)
  else
    let allocEnd := allocStart + layout.size
    if b.heapEnd < allocEnd then some (0, b)
    else if b.allocations + 1 < 2 ^ 64 then
      some (allocStart, { b with next := allocEnd, allocations := b.allocations + 1 })
    else none

/-- `dealloc`: which block it is makes no difference. -/
def dealloc (b : BumpAllocator) : Option BumpAllocator :=
  if b.allocations = 0 then none
  else
    some { b with
      next := if b.allocations - 1 = 0 then b.heapStart else b.next
      allocations := b.allocations - 1 }

end BumpAllocator

/-- A live block: its address and the request it answers. -/
structure Heap.Block where
  ptr : Nat
  layout : Heap.Layout

/-- One past the last address of a block. -/
def Heap.Block.stop (blk : Heap.Block) : Nat := blk.ptr + blk.layout.size

/-- No address is in both blocks. -/
def Heap.Block.Apart (a b : Heap.Block) : Prop := a.stop ≤ b.ptr ∨ b.stop ≤ a.ptr

/-- The allocator and the blocks its callers hold. -/
structure Heap where
  bump : BumpAllocator
  live : List Heap.Block

/-- What the callers can do. -/
inductive HeapAct
  | alloc (layout : Heap.Layout)
  /-- Give back the live block with this number. -/
  | dealloc (i : Nat)

namespace Heap

/-- What an action does; a caller that gets a null pointer has no block. -/
def step (h : Heap) : HeapAct → Option Heap
  | .alloc layout => do
    let (ptr, bump) ← h.bump.alloc layout
    some { bump, live := if ptr = 0 then h.live else ⟨ptr, layout⟩ :: h.live }
  | .dealloc i =>
    if i < h.live.length then do
      let bump ← h.bump.dealloc
      some { bump, live := h.live.eraseIdx i }
    else none

end Heap

/-- The heap over `[start, start + size)`. -/
def heap (start size : Nat) : System Heap HeapAct where
  init h := h = { bump := .init start size, live := [] }
  step := Heap.step

/-! ## The two calls -/

namespace BumpAllocator

/-- Clearing the low bits rounds down. -/
theorem and_complement {x i : Nat} (hx : x < 2 ^ 64) (hi : i < 64) :
    x &&& (2 ^ 64 - 1 - (2 ^ i - 1)) = x / 2 ^ i * 2 ^ i := by
  have hpow : 2 ^ 64 = 2 ^ (64 - i) * 2 ^ i := by rw [← pow_add, Nat.sub_add_cancel hi.le]
  have hmask : 2 ^ 64 - 1 - (2 ^ i - 1) = (2 ^ (64 - i) - 1) <<< i := by
    have hpos : 0 < 2 ^ i := Nat.two_pow_pos i
    rw [Nat.shiftLeft_eq, Nat.sub_mul, one_mul, ← hpow]
    omega
  have hdiv : x / 2 ^ i < 2 ^ (64 - i) := by
    rw [Nat.div_lt_iff_lt_mul (Nat.two_pow_pos i), ← hpow]
    exact hx
  refine Nat.eq_of_testBit_eq fun j ↦ ?_
  rw [hmask, ← Nat.mod_eq_of_lt hdiv, ← Nat.and_two_pow_sub_one_eq_mod,
    ← Nat.shiftRight_eq_div_pow, ← Nat.shiftLeft_eq, Nat.testBit_and, Nat.testBit_shiftLeft,
    Nat.testBit_shiftLeft, Nat.testBit_and, Nat.testBit_shiftRight]
  by_cases hj : i ≤ j
  · rw [Nat.add_sub_cancel' hj]
    simp [hj]
  · simp [hj]

/-- `align_up` gives the first aligned address from `addr` on. -/
theorem alignUp_eq_some {addr a : Nat} {layout : Heap.Layout}
    (h : alignUp addr layout.align = some a) :
    layout.align ∣ a ∧ addr ≤ a ∧ ∀ x, addr ≤ x → layout.align ∣ x → a ≤ x := by
  obtain ⟨i, hi, halign⟩ := layout.align_pow
  have hpos : 0 < 2 ^ i := Nat.two_pow_pos i
  rw [halign, alignUp, Option.ite_none_right_eq_some] at h
  obtain ⟨hlt, h⟩ := h
  obtain rfl := Option.some.inj h
  rw [halign, and_complement (by omega) hi]
  have hdiv := Nat.div_add_mod (addr + 2 ^ i - 1) (2 ^ i)
  have hmod := Nat.mod_lt (addr + 2 ^ i - 1) hpos
  rw [Nat.mul_comm] at hdiv
  refine ⟨Nat.dvd_mul_left _ _, by omega, fun x hx hdvd ↦ ?_⟩
  obtain ⟨q, rfl⟩ := hdvd
  rw [Nat.mul_comm (2 ^ i)]
  refine Nat.mul_le_mul_right _ (Nat.lt_succ_iff.mp ?_)
  rw [Nat.div_lt_iff_lt_mul hpos, Nat.succ_mul, Nat.mul_comm q]
  omega

/-- What an allocation can be: refused for want of room, or placed at the first aligned address. -/
theorem alloc_cases {b b' : BumpAllocator} {layout : Heap.Layout} {ptr : Nat}
    (hend : b.heapEnd < 2 ^ 64) (h : b.alloc layout = some (ptr, b')) :
    (ptr = 0 ∧ b' = b ∧ ∀ x, b.next ≤ x → layout.align ∣ x → b.heapEnd < x + layout.size) ∨
    (layout.align ∣ ptr ∧ b.next ≤ ptr ∧ ptr + layout.size ≤ b.heapEnd ∧
      b' = { b with next := ptr + layout.size, allocations := b.allocations + 1 }) := by
  obtain ⟨a, ha, h⟩ := Option.bind_eq_some_iff.mp h
  obtain ⟨hdvd, hle, hfirst⟩ := alignUp_eq_some ha
  dsimp only at h
  split_ifs at h with hover hfull
  · obtain ⟨rfl, rfl⟩ := Prod.mk.inj (Option.some.inj h)
    exact .inl ⟨rfl, rfl, fun x hx hdvd ↦ by have := hfirst x hx hdvd; omega⟩
  · obtain ⟨rfl, rfl⟩ := Prod.mk.inj (Option.some.inj h)
    exact .inl ⟨rfl, rfl, fun x hx hdvd ↦ by have := hfirst x hx hdvd; omega⟩
  · obtain ⟨rfl, rfl⟩ := Prod.mk.inj (Option.some.inj h)
    exact .inr ⟨hdvd, hle, by omega, rfl⟩

theorem alloc_isSome {b : BumpAllocator} {layout : Heap.Layout}
    (hnext : b.next + layout.align < 2 ^ 64) (hcount : b.allocations + 1 < 2 ^ 64) :
    (b.alloc layout).isSome := by
  rw [alloc, alignUp, if_pos hnext]
  show (if _ then _ else if _ then _ else if _ then _ else _ : Option _).isSome
  split_ifs <;> rfl

end BumpAllocator

/-! ## Any sequence of calls -/

namespace Heap

/-- What holds between the allocator and the live blocks. -/
structure Tidy (start size : Nat) (h : Heap) : Prop where
  heapStart : h.bump.heapStart = start
  heapEnd : h.bump.heapEnd = start + size
  next_le : h.bump.next ≤ start + size
  count : h.bump.allocations = h.live.length
  /-- Every block has moved `next` on by at least one. -/
  room : start + h.live.length ≤ h.bump.next
  block : ∀ blk ∈ h.live, blk.layout.align ∣ blk.ptr ∧ start ≤ blk.ptr ∧ blk.stop ≤ h.bump.next
  apart : h.live.Pairwise Heap.Block.Apart

variable {start size : Nat} {h h' : Heap}

theorem Tidy.alloc (ht : h.Tidy start size) (hpos : 0 < start) (hfit : start + size ≤ 2 ^ 63)
    {layout : Heap.Layout} (hs : h.step (.alloc layout) = some h') : h'.Tidy start size := by
  obtain ⟨⟨ptr, bump⟩, halloc, hs⟩ := Option.bind_eq_some_iff.mp hs
  obtain rfl := Option.some.inj hs
  rcases BumpAllocator.alloc_cases (by rw [ht.heapEnd]; omega) halloc with
    ⟨rfl, rfl, -⟩ | ⟨hdvd, hnext, hend, rfl⟩
  · rw [if_pos rfl]
    exact ht
  · have hroom := ht.room
    have hsize := layout.size_pos
    rw [if_neg (by omega : ptr ≠ 0)]
    rw [ht.heapEnd] at hend
    refine ⟨ht.heapStart, ht.heapEnd, hend, ?_, ?_, ?_, ?_⟩
    · rw [List.length_cons]
      exact congrArg (· + 1) ht.count
    · rw [List.length_cons]
      show _ ≤ ptr + layout.size
      omega
    · intro blk hblk
      rcases List.mem_cons.mp hblk with rfl | hblk
      · exact ⟨hdvd, by show start ≤ ptr; omega, le_refl _⟩
      · obtain ⟨hdvd', hstart, hstop⟩ := ht.block blk hblk
        refine ⟨hdvd', hstart, ?_⟩
        show blk.stop ≤ ptr + layout.size
        omega
    · refine List.pairwise_cons.mpr ⟨fun blk hblk ↦ .inr ?_, ht.apart⟩
      exact (ht.block blk hblk).2.2.trans hnext

theorem Tidy.dealloc (ht : h.Tidy start size) {i : Nat} (hs : h.step (.dealloc i) = some h') :
    h'.Tidy start size := by
  rw [step, Option.ite_none_right_eq_some] at hs
  obtain ⟨hi, hs⟩ := hs
  obtain ⟨bump, hdealloc, hs⟩ := Option.bind_eq_some_iff.mp hs
  obtain rfl := Option.some.inj hs
  rw [BumpAllocator.dealloc, Option.ite_none_left_eq_some] at hdealloc
  obtain rfl := Option.some.inj hdealloc.2
  have hlen := List.length_eraseIdx_of_lt hi
  have hroom := ht.room
  have hnext := ht.next_le
  have hsub := List.eraseIdx_sublist h.live i
  by_cases hlast : h.bump.allocations - 1 = 0
  · -- the last block is gone, so that the memory may be used again
    have hnil : h.live.eraseIdx i = [] := by
      rw [ht.count, ← hlen] at hlast
      exact List.length_eq_zero_iff.mp hlast
    simp only [if_pos hlast, hnil]
    refine ⟨ht.heapStart, ht.heapEnd, ?_, hlast, ?_, ?_, .nil⟩
    · show h.bump.heapStart ≤ start + size
      rw [ht.heapStart]
      omega
    · exact ht.heapStart.ge
    · intro blk hblk
      cases hblk
  · simp only [if_neg hlast]
    refine ⟨ht.heapStart, ht.heapEnd, hnext, ?_, ?_, ?_, ht.apart.sublist hsub⟩
    · show h.bump.allocations - 1 = _
      rw [hlen, ht.count]
    · show start + (h.live.eraseIdx i).length ≤ h.bump.next
      omega
    · exact fun blk hblk ↦ ht.block blk (hsub.mem hblk)

theorem Tidy.step (ht : h.Tidy start size) (hpos : 0 < start) (hfit : start + size ≤ 2 ^ 63)
    {a : HeapAct} (hs : h.step a = some h') : h'.Tidy start size := by
  cases a with
  | alloc layout => exact ht.alloc hpos hfit hs
  | dealloc i => exact ht.dealloc hs

theorem tidy_of_reach (hpos : 0 < start) (hfit : start + size ≤ 2 ^ 63)
    (hr : (heap start size).Reach System.Free h) : h.Tidy start size := by
  refine hr.invariant ?_ fun _ _ _ ht _ hs ↦ ht.step hpos hfit hs
  rintro h rfl
  refine ⟨rfl, rfl, Nat.le_add_right _ _, rfl, le_refl _, fun blk hblk ↦ ?_, .nil⟩
  cases hblk

end Heap

/-- **Live blocks never overlap.**  After any sequence of calls over a heap that does not start at
address zero, the count is the number of live blocks; each of them is aligned and inside the heap;
no two share an address; and a request is refused only where no aligned block of its size fits
above `next`, with nothing changed. -/
theorem heap_blocks_disjoint {start size : Nat} (hpos : 0 < start) (hfit : start + size ≤ 2 ^ 63)
    {h : Heap} (hr : (heap start size).Reach System.Free h) :
    h.bump.allocations = h.live.length ∧
      (∀ blk ∈ h.live, blk.layout.align ∣ blk.ptr ∧ start ≤ blk.ptr ∧ blk.stop ≤ start + size) ∧
      h.live.Pairwise Heap.Block.Apart ∧
      ∀ layout, (h.bump.next + layout.align < 2 ^ 64 → (h.bump.alloc layout).isSome) ∧
        ∀ bump, h.bump.alloc layout = some (0, bump) → bump = h.bump ∧
          ∀ ptr, h.bump.next ≤ ptr → layout.align ∣ ptr → ¬ ptr + layout.size ≤ start + size := by
  have ht := Heap.tidy_of_reach hpos hfit hr
  have hroom := ht.room
  have hnext := ht.next_le
  refine ⟨ht.count, fun blk hblk ↦ ?_, ht.apart, fun layout ↦ ⟨fun hlt ↦ ?_, fun bump halloc ↦ ?_⟩⟩
  · obtain ⟨hdvd, hstart, hstop⟩ := ht.block blk hblk
    exact ⟨hdvd, hstart, hstop.trans hnext⟩
  · refine BumpAllocator.alloc_isSome hlt ?_
    rw [ht.count]
    omega
  · have hend : h.bump.heapEnd < 2 ^ 64 := by rw [ht.heapEnd]; omega
    rcases BumpAllocator.alloc_cases hend halloc with ⟨-, rfl, hnone⟩ | ⟨-, hle, -⟩
    · refine ⟨rfl, fun ptr hptr hdvd ↦ ?_⟩
      rw [← ht.heapEnd]
      exact Nat.not_le.mpr (hnone ptr hptr hdvd)
    · omega

/-- A request for `8 * n` bytes, aligned to `8`. -/
def Heap.Layout.words (n : Nat) (hpos : 0 < n) (hlt : n < 2 ^ 61) : Heap.Layout where
  size := 8 * n
  align := 8
  size_pos := by omega
  size_lt := by omega
  align_pow := ⟨3, by decide, rfl⟩

/-- Two blocks on the kernel's heap, the first given back. -/
theorem kernel_heap_blocks_disjoint : ∃ h, (heap 0x1_0000_0000 0x20_0000).Reach System.Free h ∧
    h.bump.allocations = 1 ∧ h.live.Pairwise Heap.Block.Apart ∧
    ∃ blk ∈ h.live, blk.ptr = 0x1_0000_0010 ∧ blk.stop ≤ 0x1_0020_0000 := by
  have hreach : (heap 0x1_0000_0000 0x20_0000).Reach System.Free
      { bump := ⟨0x1_0000_0000, 0x1_0020_0000, 0x1_0000_0018, 1⟩
        live := [⟨0x1_0000_0010, .words 1 (by decide) (by decide)⟩] } :=
    System.Reach.run (.init rfl) [.alloc (.words 2 (by decide) (by decide)),
      .alloc (.words 1 (by decide) (by decide)), .dealloc 1] rfl
  obtain ⟨hcount, hinside, hapart, -⟩ := heap_blocks_disjoint (by decide) (by decide) hreach
  exact ⟨_, hreach, hcount, hapart, _, List.mem_singleton_self _, rfl,
    (hinside _ (List.mem_singleton_self _)).2.2⟩

/-- **A heap that starts at address zero hands out a null pointer**: the first block lies there, so
its caller takes the request to be refused, and the allocator has changed. -/
theorem null_block_counted : (heap 0 16).init { bump := .init 0 16, live := [] } ∧
    (BumpAllocator.init 0 16).alloc (.words 1 (by decide) (by decide)) =
      some (0, { BumpAllocator.init 0 16 with next := 8, allocations := 1 }) ∧
    { BumpAllocator.init 0 16 with next := 8, allocations := 1 } ≠ BumpAllocator.init 0 16 :=
  ⟨rfl, rfl, by decide⟩

end Jatuli

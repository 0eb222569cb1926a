import Jatuli.Abi
import Jatuli.Frames

/-!
# Page tables

Four levels of 512-entry tables in physical memory, reached through the identity map.  A table is
its physical address and an entry the eight bytes at `table + 8 * index`; there is no typed tree
behind it, so a table that is overwritten by anything else reads as whatever was written there.

Functions that allocate work on `Phys` and return `none` where the source panics (out of frames,
or a block descriptor where a table is expected); the others only touch the memory.
-/

set_option autoImplicit false

namespace Jatuli

/-! ## Descriptors -/

/-- `ENTRIES`: entries per table. -/
def entries : Nat := 512

/-- `DESC_BLOCK` -/
def descBlock : Nat := 0b01
/-- `DESC_TABLE` -/
def descTable : Nat := 0b11
/-- `DESC_VALID` -/
def descValid : Nat := 0b01
/-- `DESC_PAGE`: at L3 the table pattern means a page. -/
def descPage : Nat := 0b11

/-- `ATTR_IDX_DEVICE` -/
def attrIdxDevice : Nat := 1 <<< 2
/-- `SH_INNER` -/
def shInner : Nat := 0b11 <<< 8
/-- `AF` -/
def af : Nat := 1 <<< 10
/-- `PXN` -/
def pxn : Nat := 1 <<< 53
/-- `UXN` -/
def uxn : Nat := 1 <<< 54
/-- `AP_EL0_RW` -/
def apEl0Rw : Nat := 0b01 <<< 6
/-- `AP_EL0_RO` -/
def apEl0Ro : Nat := 0b11 <<< 6

/-- `NORMAL_BLOCK` -/
def normalBlock : Nat := descBlock ||| shInner ||| af ||| uxn
/-- `DEVICE_BLOCK` -/
def deviceBlock : Nat := descBlock ||| attrIdxDevice ||| af ||| pxn ||| uxn

/-- `ADDR_MASK`: the output-address bits of a descriptor. -/
def addrMask : Nat := 0x0000_FFFF_FFFF_F000

/-- `PAGE_KERNEL_RW` -/
def pageKernelRw : Nat := descPage ||| shInner ||| af ||| uxn ||| pxn
/-- `PAGE_USER_RW` -/
def pageUserRw : Nat := descPage ||| apEl0Rw ||| shInner ||| af ||| uxn ||| pxn
/-- `PAGE_USER_RX` -/
def pageUserRx : Nat := descPage ||| apEl0Ro ||| shInner ||| af ||| pxn

/-- The access-permission bits of a descriptor. -/
def apMask : Nat := 0b11 <<< 6

/-- `BLOCK_2MIB` -/
def block2mib : Nat := 2 * 1024 * 1024
/-- `RAM_BLOCKS` -/
def ramBlocks : Nat := ramSize / block2mib

/-! ## Reading and writing tables -/

/-- `table.add(index).read_volatile()` -/
def entry (m : Mem) (table index : Nat) : Nat := m.load (table + 8 * index) 8

/-- `table.add(index).write_volatile(v)` -/
def setEntry (m : Mem) (table index v : Nat) : Mem := m.store (table + 8 * index) 8 v

/-- The index of `va` at the level that starts at bit `shift`. -/
def tableIndex (va shift : Nat) : Nat := (va >>> shift) &&& 0x1FF

/-- `l0_ptr` -/
def l0Ptr (ttbr0 : Nat) : Nat := ttbr0 &&& addrMask

/-- The zeroing loop of `alloc_table`, after its first `n` rounds. -/
def zeroTable (m : Mem) (table : Nat) : Nat → Mem
  | 0 => m
  | n + 1 => setEntry (zeroTable m table n) table n 0

/-- `alloc_table`: a fresh frame, zeroed. -/
def allocTable (s : Phys) : Option (Nat × Phys) := do
  let (table, s) ← s.allocFrame
  some (table, { s with mem := zeroTable s.mem table entries })

/-- `get_or_create`: the next-level table behind `table[index]`, created if the entry is empty. -/
def getOrCreate (s : Phys) (table index : Nat) : Option (Nat × Phys) :=
  let e := entry s.mem table index
  if e &&& descValid ≠ 0 then
    -- the source asserts that a valid entry is a table and not a block
    if e &&& descTable = descTable then some (e &&& addrMask, s) else none
  else do
    let (next, s) ← allocTable s
    some (next, { s with mem := setEntry s.mem table index (next ||| descTable) })

/-- `map_page_in` -/
def mapPageIn (s : Phys) (l0 va pa flags : Nat) : Option Phys := do
  let (l1, s) ← getOrCreate s l0 (tableIndex va 39)
  let (l2, s) ← getOrCreate s l1 (tableIndex va 30)
  let (l3, s) ← getOrCreate s l2 (tableIndex va 21)
  some { s with mem := setEntry s.mem l3 (tableIndex va 12) ((pa &&& addrMask) ||| flags) }

/-- The read-only walk shared by `unmap_page_in` and `translate`: follow table descriptors for
`va` through the levels that start at the given bits. -/
def walkVa (m : Mem) (va : Nat) : List Nat → Nat → Option Nat
  | [], table => some table
  | shift :: shifts, table =>
    let e := entry m table (tableIndex va shift)
    if e &&& descTable ≠ descTable then none else walkVa m va shifts (e &&& addrMask)

/-- `unmap_page_in`: clear the L3 descriptor of `va`; nothing if a level is absent. -/
def unmapPageIn (m : Mem) (l0 va : Nat) : Mem :=
  match walkVa m va [39, 30, 21] l0 with
  | none => m
  | some table => setEntry m table (tableIndex va 12) 0

/-- `translate` -/
def translate (m : Mem) (ttbr0 va : Nat) : Option Nat := do
  let table ← walkVa m va [39, 30, 21] (l0Ptr ttbr0)
  let e := entry m table (tableIndex va 12)
  if e &&& descValid = 0 then none else some ((e &&& addrMask) ||| (va &&& 0xFFF))

/-- `new_address_space`: an L0 whose slot 0 aliases the kernel's L1. -/
def newAddressSpace (s : Phys) (kernelL1 : Nat) : Option (Nat × Phys) := do
  let (l0, s) ← allocTable s
  some (l0, { s with mem := setEntry s.mem l0 0 (kernelL1 ||| descTable) })

/-- `free_subtree`: free the table and, while there are levels below it, every table its entries
point at. -/
def freeSubtree : Nat → Phys → Nat → Phys
  | 0, s, table => s.freeFrame table
  | n + 1, s, table =>
    ((List.range entries).foldl (fun s i ↦
      let e := entry s.mem table i
      if e &&& descTable = descTable then freeSubtree n s (e &&& addrMask) else s) s).freeFrame
        table

/-- `free_address_space`: the slot-1 subtree, then the L0 itself. -/
def freeAddressSpace (s : Phys) (root : Nat) : Phys :=
  let l0 := root &&& addrMask
  let e1 := entry s.mem l0 userL0Idx
  let s := if e1 &&& descTable = descTable then freeSubtree 2 s (e1 &&& addrMask) else s
  s.freeFrame l0

/-! ## What the hardware does with a table

A data access at EL1 or EL0 walks the live tables.  `descriptorAt` is the L3 descriptor the walk
ends at, `none` where the access would fault: an address outside the 48-bit TTBR0 range, or a
level without a valid descriptor.  (The kernel never accesses user memory through a block.) -/

/-- The L3 page descriptor that translates `va` under the root `ttbr0`. -/
def descriptorAt (m : Mem) (ttbr0 va : Nat) : Option Nat :=
  if va < 2 ^ 48 then do
    let table ← walkVa m va [39, 30, 21] (l0Ptr ttbr0)
    let e := entry m table (tableIndex va 12)
    if e &&& descPage = descPage then some e else none
  else none

/-- The descriptor a walk through the given levels ends at: a page at the last one, or a block
before. -/
def leafAt (m : Mem) (va : Nat) : List Nat → Nat → Option Nat
  | [], _ => none
  | [shift], table =>
    let e := entry m table (tableIndex va shift)
    if e &&& descPage = descPage then some e else none
  | shift :: shifts, table =>
    let e := entry m table (tableIndex va shift)
    if e &&& descTable = descTable then leafAt m va shifts (e &&& addrMask)
    else if e &&& descTable = descBlock then some e
    else none

/-- The page or block descriptor that maps `va` under the root `ttbr0`; there are no blocks at the
top level. -/
def leafDescriptor (m : Mem) (ttbr0 va : Nat) : Option Nat :=
  if va < 2 ^ 48 then do leafAt m va [30, 21, 12] (← walkVa m va [39] (l0Ptr ttbr0)) else none

/-- The physical address an EL1 load from `va` reads. -/
def readablePa (m : Mem) (ttbr0 va : Nat) : Option Nat :=
  (descriptorAt m ttbr0 va).map fun e ↦ (e &&& addrMask) ||| (va &&& 0xFFF)

/-- The physical address a store to `va` with EL0 permissions writes: an `STTRB`, or user code. -/
def el0WritablePa (m : Mem) (ttbr0 va : Nat) : Option Nat :=
  (descriptorAt m ttbr0 va).bind fun e ↦
    if e &&& apMask = apEl0Rw then some ((e &&& addrMask) ||| (va &&& 0xFFF)) else none

/-! ## Boot -/

/-- `init_mmu`: the three tables of the identity map.  Returns the kernel's L0 and L1. -/
def initMmu (s : Phys) : Option ((Nat × Nat) × Phys) := do
  let (l0, s) ← allocTable s
  let (l1, s) ← allocTable s
  let (l2, s) ← allocTable s
  let mem := (List.range ramBlocks).foldl
    (fun m i ↦ setEntry m l2 i ((ramBase + i * block2mib) ||| normalBlock)) s.mem
  let mem := setEntry mem l1 0 deviceBlock
  let mem := setEntry mem l1 1 (l2 ||| descTable)
  let mem := setEntry mem l0 0 (l1 ||| descTable)
  some ((l0, l1), { s with mem })

/-- `HEAP_VBASE` -/
def heapVbase : Nat := 0x1_0000_0000
/-- `HEAP_SIZE` -/
def heapSize : Nat := 2 * 1024 * 1024

/-- The loop of `init_heap`: back the heap window with frames, from `off` on. -/
def initHeapFrom : Nat → Phys → Nat → Nat → Option Phys
  | 0, s, _, _ => some s
  | n + 1, s, l0, off => do
    let (frame, s) ← s.allocFrame
    let s ← mapPageIn s l0 (heapVbase + off) frame pageKernelRw
    initHeapFrom n s l0 (off + frameSize)

/-- `init_heap`, as far as frames and tables are concerned: map every page of the window in the
live space, which at boot is the kernel's own. -/
def initHeap (s : Phys) (ttbr0 : Nat) : Option Phys :=
  initHeapFrom (heapSize / frameSize) s (l0Ptr ttbr0) 0

end Jatuli

import Jatuli.Mmu

/-!
# The ELF loader

`load` maps every `PT_LOAD` segment of an image into the address space at `ttbr0`, page by page,
and records what it mapped.  All arithmetic is on `usize` in the source; where a sum could leave
the 64-bit range the source panics, and so does every read past the end of the image.  Both are
`none` here.
-/

set_option autoImplicit false

namespace Jatuli

/-- A virtual-address range occupied by a loaded segment. -/
structure Range where
  /-- First address. -/
  start : Nat
  /-- One past the last address. -/
  stop : Nat
  /-- Whether the segment was mapped `PAGE_USER_RW`. -/
  writable : Bool
deriving DecidableEq, Repr

/-- The result of loading an image: the entry point and the mapped ranges, at most `MAX_SEGMENTS`
of them. -/
structure Loaded where
  /-- The entry virtual address. -/
  entry : Nat
  /-- The loaded segments, in program-header order. -/
  ranges : List Range
deriving DecidableEq, Repr

namespace Elf

/-! ## Reading the image -/

/-- `E_TYPE` -/
def eType : Nat := 16
/-- `E_MACHINE` -/
def eMachine : Nat := 18
/-- `E_ENTRY` -/
def eEntry : Nat := 24
/-- `E_PHOFF` -/
def ePhoff : Nat := 32
/-- `E_PHENTSIZE` -/
def ePhentsize : Nat := 54
/-- `E_PHNUM` -/
def ePhnum : Nat := 56

/-- `P_TYPE` -/
def pType : Nat := 0
/-- `P_FLAGS` -/
def pFlags : Nat := 4
/-- `P_OFFSET` -/
def pOffset : Nat := 8
/-- `P_VADDR` -/
def pVaddr : Nat := 16
/-- `P_FILESZ` -/
def pFilesz : Nat := 32
/-- `P_MEMSZ` -/
def pMemsz : Nat := 40

/-- `PT_LOAD` -/
def ptLoad : Nat := 1
/-- `PF_X` -/
def pfX : Nat := 1
/-- `PF_W` -/
def pfW : Nat := 2
/-- `MAX_SEGMENTS` -/
def maxSegments : Nat := 8

/-- The little-endian value of `n` bytes of the image, if they are all inside it.  `read_u16`,
`read_u32` and `read_u64` are this at two, four and eight bytes. -/
def readLe (b : List UInt8) (off : Nat) : Nat → Option Nat
  | 0 => some 0
  | n + 1 => do
    let lo ← b[off]?
    let hi ← readLe b (off + 1) n
    some (lo.toNat + 256 * hi)

/-- `read_u16` -/
def readU16 (b : List UInt8) (off : Nat) : Option Nat := readLe b off 2
/-- `read_u32` -/
def readU32 (b : List UInt8) (off : Nat) : Option Nat := readLe b off 4
/-- `read_u64` -/
def readU64 (b : List UInt8) (off : Nat) : Option Nat := readLe b off 8

/-- `validate`: the entry address of a 64-bit AArch64 `ET_EXEC` image. -/
def validate (image : List UInt8) : Option Nat := do
  guard (64 ≤ image.length)
  guard (image.take 4 = [0x7f, 0x45, 0x4c, 0x46])
  guard (image[4]? = some 2)
  guard ((← readU16 image eType) = 2)
  guard ((← readU16 image eMachine) = 0xB7)
  readU64 image eEntry

/-- `align_up`: to a page, panicking when the sum overflows. -/
def alignUp (x : Nat) : Option Nat :=
  if x + frameSize < 2 ^ 64 then some ((x + frameSize - 1) / frameSize * frameSize) else none

/-! ## Loading segments -/

/-- The byte of a segment at offset `segOff`: file contents, then zeros. -/
def segByte (image : List UInt8) (offset filesz segOff : Nat) : Option UInt8 :=
  if segOff < filesz then image[offset + segOff]? else some 0

/-- The 4096 bytes of the segment's page at offset `page`. -/
def segPage (image : List UInt8) (offset filesz page : Nat) : Option (List UInt8) :=
  (List.range frameSize).mapM fun b ↦ segByte image offset filesz (page + b)

/-- What the loader reads off one loadable program header. -/
structure Segment where
  /-- `p_memsz` -/
  memsz : Nat
  /-- `p_filesz` -/
  filesz : Nat
  /-- `p_vaddr` -/
  vaddr : Nat
  /-- `p_offset` -/
  offset : Nat
  /-- `p_flags` -/
  flags : Nat
deriving DecidableEq, Repr

/-- Whether the segment is executable (`PF_X`). -/
def Segment.executable (seg : Segment) : Bool := seg.flags &&& pfX ≠ 0

/-- The page flags of a segment: read-execute or read-write. -/
def Segment.perms (seg : Segment) : Nat := if seg.executable then pageUserRx else pageUserRw

/-- The program header at `ph`: `none` inside the option when the loader skips it. -/
def readSegment (image : List UInt8) (ph : Nat) : Option (Option Segment) := do
  if (← readU32 image (ph + pType)) ≠ ptLoad then
    some none
  else
    let memsz ← readU64 image (ph + pMemsz)
    if memsz = 0 then
      some none
    else
      let filesz ← readU64 image (ph + pFilesz)
      let vaddr ← readU64 image (ph + pVaddr)
      let offset ← readU64 image (ph + pOffset)
      let flags ← readU32 image (ph + pFlags)
      some (some { memsz, filesz, vaddr, offset, flags })

/-- The pages of one segment, from offset `page` on, `n` of them left: fill a fresh frame through
its physical address, map it, record it. -/
def loadPages (image : List UInt8) (l0 : Nat) (seg : Segment) :
    Nat → Phys → List (Nat × Nat) → Nat → Option (List (Nat × Nat) × Phys)
  | 0, s, owned, _ => some (owned, s)
  | n + 1, s, owned, page => do
    let (frame, s) ← s.allocFrame
    let bytes ← segPage image seg.offset seg.filesz page
    let s := { s with mem := s.mem.fill frame bytes }
    let s ← mapPageIn s l0 (seg.vaddr + page) frame seg.perms
    loadPages image l0 seg n s (owned ++ [(seg.vaddr + page, frame)]) (page + frameSize)

/-- The assertions `load` makes about a segment before mapping it. -/
def Segment.accepted (seg : Segment) : Bool :=
  seg.vaddr % frameSize = 0 ∧ (seg.executable → seg.flags &&& pfW = 0)

/-- One round of the program-header loop. -/
def loadSegment (image : List UInt8) (l0 : Nat) (seg : Segment) (s : Phys)
    (owned : List (Nat × Nat)) (ranges : List Range) :
    Option (List Range × List (Nat × Nat) × Phys) := do
  guard seg.accepted
  let size ← alignUp seg.memsz
  let (owned, s) ← loadPages image l0 seg (size / frameSize) s owned 0
  guard (ranges.length < maxSegments)
  guard (seg.vaddr + seg.memsz < 2 ^ 64)
  some (ranges ++ [{ start := seg.vaddr, stop := seg.vaddr + seg.memsz,
                     writable := !seg.executable }], owned, s)

/-- The program-header loop, with `n` headers left, the next one at `ph`. -/
def loadHeaders (image : List UInt8) (l0 phentsize : Nat) :
    Nat → Nat → Phys → List (Nat × Nat) → List Range →
      Option (List Range × List (Nat × Nat) × Phys)
  | 0, _, s, owned, ranges => some (ranges, owned, s)
  | n + 1, ph, s, owned, ranges => do
    match ← readSegment image ph with
    | none => loadHeaders image l0 phentsize n (ph + phentsize) s owned ranges
    | some seg =>
      let (ranges, owned, s) ← loadSegment image l0 seg s owned ranges
      loadHeaders image l0 phentsize n (ph + phentsize) s owned ranges

/-- `load`: map the image into the space at `ttbr0`.  Returns where to start, the pages mapped in
order, and the memory afterwards. -/
def load (s : Phys) (image : List UInt8) (ttbr0 : Nat) :
    Option (Loaded × List (Nat × Nat) × Phys) := do
  let entry ← validate image
  let phoff ← readU64 image ePhoff
  let phentsize ← readU16 image ePhentsize
  let phnum ← readU16 image ePhnum
  let (ranges, owned, s) ← loadHeaders image (l0Ptr ttbr0) phentsize phnum phoff s [] []
  some ({ entry, ranges }, owned, s)

end Elf
end Jatuli

import Jatuli.Lib.ByteMem

/-!
# The physical frame allocator

Free frames form a stack that is threaded through the frames themselves: the first eight bytes of
a free frame hold the address of the next one, and `head` the address of the first (`0` when there
is none).  So the allocator's state is the pair of `head` and `free_count` *and* the memory, and
`Phys` keeps the two together.
-/

set_option autoImplicit false

namespace Jatuli

/-- `FRAME_SIZE`: the 4 KiB translation granule. -/
def frameSize : Nat := 4096

/-- `RAM_BASE` -/
def ramBase : Nat := 0x4000_0000
/-- `RAM_SIZE` -/
def ramSize : Nat := 128 * 1024 * 1024
/-- `RAM_TOP`: one past the last usable address. -/
def ramTop : Nat := ramBase + ramSize

/-- The fields of the allocator. -/
structure FrameAllocator where
  /-- Physical address of the first free frame, `0` when the pool is empty. -/
  head : Nat
  /-- Number of frames currently free. -/
  freeCount : Nat

/-- Physical memory together with the allocator that threads its free list through it. -/
structure Phys where
  /-- The bytes of memory. -/
  mem : Mem
  /-- The allocator's own fields. -/
  frames : FrameAllocator

/-- Round `addr` up to a multiple of `FRAME_SIZE`; clearing the low twelve bits is rounding
down. -/
def frameAlignUp (addr : Nat) : Nat := (addr + frameSize - 1) / frameSize * frameSize

namespace Phys

/-- Push a frame onto the free list, storing the old head inside it. -/
def push (s : Phys) (frame : Nat) : Phys where
  mem := s.mem.store frame 8 s.frames.head
  frames := { head := frame, freeCount := s.frames.freeCount + 1 }

/-- Pop a frame from the free list, reading the next head out of it. -/
def pop (s : Phys) : Option (Nat × Phys) :=
  if s.frames.head = 0 then none
  else
    some (s.frames.head,
      { s with frames :=
          { head := s.mem.load s.frames.head 8, freeCount := s.frames.freeCount - 1 } })

/-- The loop of `add_region`; `fuel` bounds the number of frames that fit. -/
def addRegionFrom : Nat → Phys → Nat → Nat → Phys
  | 0, s, _, _ => s
  | fuel + 1, s, frame, stop =>
    if frame + frameSize ≤ stop then addRegionFrom fuel (s.push frame) (frame + frameSize) stop
    else s

/-- Push every whole frame of `[start, stop)`. -/
def addRegion (s : Phys) (start stop : Nat) : Phys :=
  addRegionFrom (stop / frameSize + 1) s (frameAlignUp start) stop

/-- `alloc_frame` -/
def allocFrame (s : Phys) : Option (Nat × Phys) := s.pop

/-- `free_frame`, and `free_frame_at` for a caller that has only the address. -/
def freeFrame (s : Phys) (frame : Nat) : Phys := s.push frame

end Phys

/-- `init_frames`: give the allocator everything above the kernel image. -/
def initFrames (mem : Mem) (kernelEnd : Nat) : Phys :=
  Phys.addRegion { mem, frames := { head := 0, freeCount := 0 } } (frameAlignUp kernelEnd) ramTop

end Jatuli

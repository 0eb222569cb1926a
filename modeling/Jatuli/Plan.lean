import Jatuli.Ring
import Mathlib.Data.Option.Basic

/-!
# A process is built page by page

`create` reads the image while it maps, but what it maps does not depend on the memory it finds: the
image alone says which pages are to be built, in which order, where and with which contents.  This
is the *plan* of the image, and `create` is the same as carrying out the plan page by page and then
adding the stack (`createSpace_eq`).  Setting up the ring adds one more page.
-/

set_option autoImplicit false

namespace Jatuli

/-- A page to be built: its address, the bytes its frame is filled with, and its flags. -/
structure PageSpec where
  /-- Where it is mapped. -/
  va : Nat
  /-- What is written to the frame; nothing for the stack. -/
  bytes : List UInt8
  /-- The flags of the descriptor. -/
  flags : Nat
deriving DecidableEq, Repr

/-- Take a frame, fill it, map it. -/
def addPage (l0 : Nat) (s : Phys) (pg : PageSpec) : Option (Nat × Phys) := do
  let (frame, s) ← s.allocFrame
  let s ← mapPageIn { s with mem := s.mem.fill frame pg.bytes } l0 pg.va frame pg.flags
  some (frame, s)

/-- Build pages one after the other; returns their addresses and frames. -/
def addPages (l0 : Nat) : List PageSpec → Phys → Option (List (Nat × Nat) × Phys)
  | [], s => some ([], s)
  | pg :: pgs, s => do
    let (frame, s) ← addPage l0 s pg
    let (rest, s) ← addPages l0 pgs s
    some ((pg.va, frame) :: rest, s)

theorem addPages_append (l0 : Nat) (pgs pgs' : List PageSpec) (s : Phys) :
    addPages l0 (pgs ++ pgs') s = (addPages l0 pgs s).bind fun x ↦
      (addPages l0 pgs' x.2).map fun y ↦ (x.1 ++ y.1, y.2) := by
  induction pgs generalizing s with
  | nil =>
    rw [List.nil_append, addPages, Option.bind_some]
    cases addPages l0 pgs' s <;> rfl
  | cons pg pgs ih =>
    rw [List.cons_append, addPages, addPages]
    cases addPage l0 s pg with
    | none => rfl
    | some x =>
      simp only [Option.bind_eq_bind, Option.bind_some, ih]
      cases addPages l0 pgs x.2 with
      | none => rfl
      | some y =>
        simp only [Option.bind_some]
        cases addPages l0 pgs' y.2 <;> rfl

/-! ## The plan of an image -/

namespace Elf

/-- The pages of a segment from offset `page` on, `n` of them. -/
def Segment.pagesFrom (image : List UInt8) (seg : Segment) : Nat → Nat → Option (List PageSpec)
  | 0, _ => some []
  | n + 1, page => do
    let bytes ← segPage image seg.offset seg.filesz page
    let rest ← seg.pagesFrom image n (page + frameSize)
    some ({ va := seg.vaddr + page, bytes, flags := seg.perms } :: rest)

/-- The range recorded for a segment. -/
def Segment.range (seg : Segment) : Range :=
  { start := seg.vaddr, stop := seg.vaddr + seg.memsz, writable := !seg.executable }

/-- The pages of a segment, if the loader accepts it. -/
def Segment.plan (image : List UInt8) (seg : Segment) : Option (List PageSpec) := do
  guard seg.accepted
  let size ← alignUp seg.memsz
  let pgs ← seg.pagesFrom image (size / frameSize) 0
  guard (seg.vaddr + seg.memsz < 2 ^ 64)
  some pgs

/-- The pages of a list of segments, with the ranges recorded for those before them. -/
def planSegments (image : List UInt8) :
    List Segment → List Range → Option (List Range × List PageSpec)
  | [], ranges => some (ranges, [])
  | seg :: segs, ranges => do
    let pgs ← seg.plan image
    guard (ranges.length < maxSegments)
    let (ranges, rest) ← planSegments image segs (ranges ++ [seg.range])
    some (ranges, pgs ++ rest)

/-- The segments of the `n` program headers from `ph` on. -/
def segmentsFrom (image : List UInt8) (phentsize : Nat) : Nat → Nat → Option (List Segment)
  | 0, _ => some []
  | n + 1, ph => do
    let header ← readSegment image ph
    let rest ← segmentsFrom image phentsize n (ph + phentsize)
    some (header.toList ++ rest)

/-- The segments `load` maps. -/
def segments (image : List UInt8) : Option (List Segment) := do
  let phoff ← readU64 image ePhoff
  let phentsize ← readU16 image ePhentsize
  let phnum ← readU16 image ePhnum
  segmentsFrom image phentsize phnum phoff

/-- What `load` returns for an image, and the pages it builds. -/
def plan (image : List UInt8) : Option (Loaded × List PageSpec) := do
  let entry ← validate image
  let segs ← segments image
  let (ranges, pgs) ← planSegments image segs []
  some ({ entry, ranges }, pgs)

/-! ## `load` carries out the plan -/

theorem loadPages_eq (image : List UInt8) (l0 : Nat) (seg : Segment) (n : Nat) (s : Phys)
    (owned : List (Nat × Nat)) (page : Nat) :
    loadPages image l0 seg n s owned page = (seg.pagesFrom image n page).bind fun pgs ↦
      (addPages l0 pgs s).map fun x ↦ (owned ++ x.1, x.2) := by
  induction n generalizing s owned page with
  | zero => simp [loadPages, Segment.pagesFrom, addPages]
  | succ n ih =>
    rw [loadPages, Segment.pagesFrom]
    cases hb : segPage image seg.offset seg.filesz page with
    | none => simp
    | some bytes =>
      cases hrest : seg.pagesFrom image n (page + frameSize) with
      | none => simp [ih, hrest]
      | some rest =>
        simp only [Option.bind_eq_bind, Option.bind_some, addPages, addPage, ih, hrest]
        cases s.allocFrame with
        | none => rfl
        | some x =>
          simp only [Option.bind_some]
          cases mapPageIn { x.2 with mem := x.2.mem.fill x.1 bytes } l0 (seg.vaddr + page) x.1
              seg.perms with
          | none => rfl
          | some s' =>
            simp only [Option.bind_some]
            cases addPages l0 rest s' <;> simp

theorem loadSegment_eq (image : List UInt8) (l0 : Nat) (seg : Segment) (s : Phys)
    (owned : List (Nat × Nat)) (ranges : List Range) :
    loadSegment image l0 seg s owned ranges = (seg.plan image).bind fun pgs ↦
      (guard (ranges.length < maxSegments) : Option Unit).bind fun _ ↦
        (addPages l0 pgs s).map fun x ↦ (ranges ++ [seg.range], owned ++ x.1, x.2) := by
  rw [loadSegment, Segment.plan]
  cases (guard seg.accepted : Option Unit) with
  | none => rfl
  | some _ =>
    cases alignUp seg.memsz with
    | none => rfl
    | some size =>
      simp only [Option.bind_eq_bind, Option.bind_some, loadPages_eq]
      cases seg.pagesFrom image (size / frameSize) 0 with
      | none => rfl
      | some pgs =>
        simp only [Option.bind_some]
        -- in whichever order the rest is tested, one failure is enough
        cases (guard (ranges.length < maxSegments) : Option Unit) <;>
          cases (guard (seg.vaddr + seg.memsz < 2 ^ 64) : Option Unit) <;>
          simp only [Option.bind_some, Option.bind_none] <;>
          cases addPages l0 pgs s <;> rfl

theorem loadHeaders_eq (image : List UInt8) (l0 phentsize n ph : Nat) (s : Phys)
    (owned : List (Nat × Nat)) (ranges : List Range) :
    loadHeaders image l0 phentsize n ph s owned ranges =
      (segmentsFrom image phentsize n ph).bind fun segs ↦
        (planSegments image segs ranges).bind fun pl ↦
          (addPages l0 pl.2 s).map fun x ↦ (pl.1, owned ++ x.1, x.2) := by
  induction n generalizing ph s owned ranges with
  | zero => simp [loadHeaders, segmentsFrom, planSegments, addPages]
  | succ n ih =>
    rw [loadHeaders, segmentsFrom]
    cases readSegment image ph with
    | none => rfl
    | some header =>
      simp only [Option.bind_eq_bind, Option.bind_some]
      cases header with
      | none =>
        rw [ih]
        cases segmentsFrom image phentsize n (ph + phentsize) <;> rfl
      | some seg =>
        cases hsegs : segmentsFrom image phentsize n (ph + phentsize) with
        | none => simp [ih, hsegs]
        | some segs =>
          simp only [Option.toList_some, List.singleton_append, planSegments, loadSegment_eq, ih,
            hsegs, Option.bind_eq_bind, Option.bind_some]
          cases seg.plan image with
          | none => rfl
          | some pgs =>
            simp only [Option.bind_some]
            cases (guard (ranges.length < maxSegments) : Option Unit) with
            | none => rfl
            | some _ =>
              simp only [Option.bind_some]
              cases hadd : addPages l0 pgs s with
              | none =>
                cases planSegments image segs (ranges ++ [seg.range]) with
                | none => rfl
                | some pl => simp [addPages_append, hadd]
              | some x =>
                simp only [Option.map_some, Option.bind_some]
                cases planSegments image segs (ranges ++ [seg.range]) with
                | none => rfl
                | some pl =>
                  simp only [Option.bind_some, addPages_append, hadd]
                  cases addPages l0 pl.2 x.2 <;> simp

theorem load_eq (s : Phys) (image : List UInt8) (ttbr0 : Nat) :
    load s image ttbr0 = (plan image).bind fun pl ↦
      (addPages (l0Ptr ttbr0) pl.2 s).map fun x ↦ (pl.1, x.1, x.2) := by
  rw [load, plan, segments]
  cases validate image with
  | none => rfl
  | some entry =>
    cases readU64 image ePhoff with
    | none => rfl
    | some phoff =>
      cases readU16 image ePhentsize with
      | none => rfl
      | some phentsize =>
        cases readU16 image ePhnum with
        | none => rfl
        | some phnum =>
          simp only [Option.bind_eq_bind, Option.bind_some, loadHeaders_eq]
          cases segmentsFrom image phentsize phnum phoff with
          | none => rfl
          | some segs =>
            simp only [Option.bind_some]
            cases planSegments image segs [] with
            | none => rfl
            | some pl =>
              simp only [Option.bind_some, List.nil_append]
              cases addPages (l0Ptr ttbr0) pl.2 s <;> rfl

end Elf

/-- The stack page: what its frame holds is left as it is. -/
def stackPage : PageSpec := { va := userStackVa, bytes := [], flags := pageUserRw }

/-- The ring page. -/
def ringPage : PageSpec :=
  { va := userRingVa, bytes := List.replicate 4096 0, flags := pageUserRw }

/-- **`create` carries out the plan of the image and adds the stack.** -/
theorem createSpace_eq (s : Phys) (image : List UInt8) (ttbr0 : Nat) :
    createSpace s image ttbr0 = (Elf.plan image).bind fun pl ↦
      (addPages (l0Ptr ttbr0) (pl.2 ++ [stackPage]) s).map fun x ↦ (pl.1, x.1, x.2) := by
  rw [createSpace, Elf.load_eq]
  cases Elf.plan image with
  | none => rfl
  | some pl =>
    simp only [Option.bind_eq_bind, Option.bind_some, addPages_append]
    cases addPages (l0Ptr ttbr0) pl.2 s with
    | none => rfl
    | some x =>
      simp only [Option.map_some, Option.bind_some, addPages, addPage]
      cases x.2.allocFrame with
      | none => rfl
      | some y =>
        simp only [Option.bind_eq_bind, Option.bind_some, Mem.fill, stackPage]
        cases mapPageIn y.2 (l0Ptr ttbr0) userStackVa y.1 pageUserRw <;> rfl

/-- **`setup` adds the ring page.** -/
theorem setupRing_eq {k : Kernel} {pid : Nat} {p : Process} (hp : k.processes[pid]? = some p)
    (hring : p.ringPa = 0) :
    k.setupRing pid = (addPage (l0Ptr p.ttbr0) k.phys ringPage).map fun x ↦
      { k with phys := x.2, processes := Processes.setRing k.processes pid x.1 } := by
  rw [Kernel.setupRing, Processes.ringPa, Processes.ttbr0, hp]
  simp only [Option.map_some, Option.bind_eq_bind, Option.bind_some, hring, ne_eq, not_true,
    if_false, addPage]
  cases k.phys.allocFrame with
  | none => rfl
  | some x =>
    simp only [Option.bind_some, ringPage]
    cases mapPageIn { x.2 with mem := x.2.mem.fill x.1 (List.replicate 4096 0) } (l0Ptr p.ttbr0)
        userRingVa x.1 pageUserRw <;> rfl

end Jatuli

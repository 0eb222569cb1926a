import Jatuli.Entries
import Jatuli.Lifecycle

/-!
# Building does not fail while there are frames

What the other modules say of booting, creating a process and setting up its ring, they say of the
calls that return.  Here is why these calls return: the allocator runs dry only when the free
frames are used up, and four frames a page are enough.  The smallest image, one zeroed page, shows
that there are images the loader accepts.
-/

set_option autoImplicit false

namespace Jatuli

section Build

variable {start kernelL1 r : Nat} {roots : Option Nat → Option Nat} {id : Option Nat}
  {pages : Option Nat → List (Nat × Nat)} {own : Nat → Owner} {s : Phys} {pid : Nat}

/-- Four frames are enough for a page of a process. -/
theorem Owned.addPage_isSome (h : Owned True start kernelL1 roots pages own s)
    (hr : roots (some pid) = some r) {pg : PageSpec} (hok : pg.Ok (some pid))
    (hc : 4 ≤ s.frames.freeCount) : ∃ f s', Jatuli.addPage r s pg = some (f, s') := by
  obtain ⟨f, s₁, ha⟩ := h.allocFrame_isSome (by omega)
  obtain ⟨⟨hmf, -⟩, ⟨-, hc₁⟩, h₁⟩ := h.allocFrame ha
  have hfill : Set.EqOn (s₁.mem.fill f pg.bytes) s₁.mem (frameAt f)ᶜ :=
    Mem.fill_eqOn le_rfl (by have := hok.length; rw [frameSize]; omega)
  have h₂ := h₁.write_frame hmf (by simp) (by simp) hfill
  obtain ⟨s₂, hm⟩ := h₂.mapPageIn_isSome trivial hr hok.slot trivial (by simp only; omega) f
    pg.flags
  refine ⟨f, s₂, ?_⟩
  simp only [Jatuli.addPage, ha, Option.bind_eq_bind, Option.bind_some, hm]

/-- Four frames a page are enough. -/
theorem Owned.addPages_isSome (hr : roots (some pid) = some r) {pgs : List PageSpec}
    (h : Owned True start kernelL1 roots pages own s) (hok : ∀ pg ∈ pgs, pg.Ok (some pid))
    (hc : 4 * pgs.length ≤ s.frames.freeCount) :
    ∃ new s', Jatuli.addPages r pgs s = some (new, s') := by
  induction pgs generalizing pages own s with
  | nil => exact ⟨[], s, rfl⟩
  | cons pg pgs ih =>
    rw [List.length_cons] at hc
    obtain ⟨hpg, hok'⟩ := List.forall_mem_cons.mp hok
    obtain ⟨f, s₁, hone⟩ := h.addPage_isSome hr hpg (by omega)
    have hone' : Jatuli.addPages r [pg] s = some ([(pg.va, f)], s₁) := by
      rw [Jatuli.addPages, hone]
      rfl
    obtain ⟨⟨own₁, ho₁, -, hc₁⟩, -⟩ := h.addPages hr (List.forall_mem_singleton.mpr hpg) hone'
    rw [List.length_singleton] at hc₁
    obtain ⟨new, s₂, hrest⟩ := ih ho₁ hok' (by omega)
    refine ⟨(pg.va, f) :: new, s₂, ?_⟩
    rw [Jatuli.addPages, hone, Option.bind_eq_bind, Option.bind_some]
    simp only [hrest, Option.bind_eq_bind, Option.bind_some]

end Build

/-! ## Boot -/

/-- Frames that boot is certain not to need more of. -/
def bootFrames : Nat := 3 + 4 * (heapSize / frameSize)

/-- **Boot succeeds** when there is room above the kernel image, and leaves the rest free. -/
theorem bootKernel_isSome (kernelEnd n : Nat) (hend : 0 < kernelEnd)
    (hroom : bootFrames + n ≤ (ramTop - firstFrame kernelEnd) / 4096) (mem : Mem) (ticks : Nat)
    (programs : List (String × List UInt8)) :
    ∃ k, bootKernel mem kernelEnd ticks programs = some k ∧ k.processes = [] ∧
      n ≤ k.phys.frames.freeCount := by
  have hboot : bootFrames = 2051 := by decide
  obtain ⟨h₀, hc₀⟩ := Owned.initFrames True 0 mem hend
  obtain ⟨l0, l1, s₁, hmmu⟩ := h₀.initMmu_isSome (by omega)
  obtain ⟨own₁, ho₁, -, -, -, hc₁⟩ := (Owned.initFrames True l1 mem hend).1.initMmu hmmu
  have hr : Function.update (fun _ : Option Nat ↦ none) none (some l0) none = some l0 :=
    Function.update_self ..
  obtain ⟨hmr, -⟩ := ho₁.tree.node hr (.nil _) rfl
  obtain ⟨s₂, hheap, hc₂⟩ := Owned.initHeapFrom_isSome trivial hr (heapSize / frameSize) 0 ho₁
    (by decide) (by rw [show heapSize / frameSize = 512 by decide]; omega)
  have hheap' : initHeap s₁ l0 = some s₂ := by
    rwa [initHeap, l0Ptr, and_addrMask_of_aligned hmr.aligned hmr.lt]
  simp only [bootKernel, hmmu, hheap', Option.bind_eq_bind, Option.bind_some, Option.some.injEq,
    exists_eq_left', true_and]
  rw [show heapSize / frameSize = 512 by decide] at hc₂
  omega

/-! ## A process -/

/-- The number of frames that are certain to be enough for a process with `n` pages in its image,
and its ring. -/
def processFrames (n : Nat) : Nat := 1 + 4 * (n + 2)

/-- **Creating a process succeeds** when there are frames, for an image whose pages can be built. -/
theorem Inv.create_isSome {L : Layout} {own : Nat → Owner} {k : Kernel} (h : Inv True L own k)
    {image : List UInt8} {loaded : Loaded} {pgs : List PageSpec}
    (hplan : Elf.plan image = some (loaded, pgs))
    (hok : ∀ pg ∈ pgs, pg.Ok (some k.processes.length))
    (hc : processFrames pgs.length ≤ k.phys.frames.freeCount) :
    ∃ root s frames s', newAddressSpace k.phys k.kernelL1 = some (root, s) ∧
      createSpace s image root = some (loaded, frames, s') ∧
      frames.map Prod.fst = pgs.map PageSpec.va ++ [userStackVa] ∧
      k.phys.frames.freeCount + 4 ≤ s'.frames.freeCount + processFrames pgs.length := by
  rw [processFrames] at hc ⊢
  have hid : k.roots (some k.processes.length) = none := by simp [Kernel.roots]
  obtain ⟨root, s, hroot⟩ :=
    h.owned.newAddressSpace_isSome (by omega)
  obtain ⟨own₁, ho₁, -, hc₁, hmr⟩ := h.owned.newAddressSpace hid h.kernelL1_managed.lt hroot
  have hok' : ∀ pg ∈ pgs ++ [stackPage], pg.Ok (some k.processes.length) := by
    intro pg hpg
    rcases List.mem_append.mp hpg with hpg | hpg
    · exact hok pg hpg
    · rw [List.mem_singleton.mp hpg]
      exact stackPage_ok _
  obtain ⟨frames, s', hadd⟩ := ho₁.addPages_isSome (Function.update_self ..) hok'
    (by rw [List.length_append, List.length_singleton]; omega)
  obtain ⟨⟨own₂, ho₂, -, hc₂⟩, hvas⟩ := ho₁.addPages (Function.update_self ..) hok' hadd
  refine ⟨root, s, frames, s', hroot, ?_, ?_, ?_⟩
  · rw [createSpace_eq, hplan, l0Ptr, and_addrMask_of_aligned hmr.aligned hmr.lt, Option.bind_some,
      hadd]
    rfl
  · rw [hvas, List.map_append]
    rfl
  · have hlen := congrArg List.length hvas
    simp only [List.length_map, List.length_append, List.length_singleton] at hlen
    omega

/-- The same with the invariant for the new state: there is one more process. -/
theorem Inv.newProcess {L : Layout} {own : Nat → Owner} {k : Kernel} (h : Inv True L own k)
    {image : List UInt8} {loaded : Loaded} {pgs : List PageSpec} (himg : Elf.InUserSlot image)
    (hplan : Elf.plan image = some (loaded, pgs))
    (hc : processFrames pgs.length ≤ k.phys.frames.freeCount) :
    ∃ root s frames s' own', newAddressSpace k.phys k.kernelL1 = some (root, s) ∧
      createSpace s image root = some (loaded, frames, s') ∧
      frames.map Prod.fst = pgs.map PageSpec.va ++ [userStackVa] ∧
      k.phys.frames.freeCount + 4 ≤ s'.frames.freeCount + processFrames pgs.length ∧
      Inv True L own' { k with
        phys := s', processes := k.processes ++ [Process.fresh root loaded frames] } := by
  have hok : ∀ pg ∈ pgs, pg.Ok (some k.processes.length) := by
    intro pg hpg
    obtain ⟨segs, hsegs, hpages⟩ := Elf.mem_plan hplan
    obtain ⟨seg, hseg, hhas, -⟩ := hpages pg hpg
    exact hhas.ok (himg.segments hsegs hseg) _
  obtain ⟨root, s, frames, s', hroot, hspace, hvas, hc'⟩ := h.create_isSome hplan hok hc
  obtain ⟨own', hinv, -⟩ := h.create himg hroot hspace (p := Process.fresh root loaded frames) rfl
  exact ⟨root, s, frames, s', own', hroot, hspace, hvas, hc', hinv⟩

/-- What a process leaves is enough for its ring. -/
theorem processFrames_le {n m : Nat} {pgs : List PageSpec} (h : processFrames pgs.length ≤ n)
    (h' : n + 4 ≤ m + processFrames pgs.length) : 4 ≤ m := by
  omega

/-- **Setting up a ring succeeds** when there are frames. -/
theorem Inv.setupRing_isSome {L : Layout} {own : Nat → Owner} {k : Kernel} (h : Inv True L own k)
    {pid : Nat} {p : Process} (hp : k.processes[pid]? = some p) (hl : p.live = true)
    (hc : 4 ≤ k.phys.frames.freeCount) : ∃ k', k.setupRing pid = some k' := by
  by_cases hring : p.ringPa = 0
  · have hr := Inv.root_of_live hp hl
    obtain ⟨f, s', hadd⟩ := h.owned.addPage_isSome hr (ringPage_ok pid) hc
    rw [setupRing_eq hp hring, l0Ptr, h.root_mask hr, hadd]
    exact ⟨_, rfl⟩
  · refine ⟨k, ?_⟩
    rw [Kernel.setupRing, Processes.ringPa, hp]
    simp only [Option.map_some, Option.bind_eq_bind, Option.bind_some]
    rw [if_pos hring]

/-- Setting up a ring takes four frames at most. -/
theorem Inv.setupRing_room {strict : Prop} {L : Layout} {own : Nat → Owner} {k k' : Kernel}
    (h : Inv strict L own k) {pid : Nat} {p : Process} (hp : k.processes[pid]? = some p)
    (hl : p.live = true) (hs : k.setupRing pid = some k') :
    k.phys.frames.freeCount ≤ k'.phys.frames.freeCount + 4 := by
  rcases h.setupRing hp hl hs with ⟨-, rfl⟩ | ⟨hring, -⟩
  · omega
  have hr := Inv.root_of_live hp hl
  rw [setupRing_eq hp hring, l0Ptr, h.root_mask hr] at hs
  obtain ⟨⟨f, s⟩, hadd, rfl⟩ := Option.map_eq_some_iff.mp hs
  have hone : Jatuli.addPages p.ttbr0 [ringPage] k.phys = some ([(userRingVa, f)], s) := by
    rw [Jatuli.addPages, hadd]
    rfl
  obtain ⟨⟨own', -, -, hc⟩, -⟩ :=
    h.owned.addPages hr (List.forall_mem_singleton.mpr (ringPage_ok pid)) hone
  exact hc

/-- A process that has a ring can write all of it. -/
theorem Inv.el0WritablePa_ring {strict : Prop} {L : Layout} {own : Nat → Owner} {k : Kernel}
    (h : Inv strict L own k) {pid : Nat} {p : Process} (hp : k.processes[pid]? = some p)
    (hring : p.ringPa ≠ 0) (off : Nat) (hoff : off < 4096) :
    el0WritablePa k.mem p.ttbr0 (userRingVa + off) = some (p.ringPa + off) := by
  have hl := (h.proc hp).live hring
  have hm := (h.ofRing hp hring).1
  obtain ⟨-, t, ht, he⟩ := (h.proc hp).ring hring
  have hva : userRingVa + off < 2 ^ 48 := by
    have : userRingVa = 2 ^ 39 + 0x30_0000 := by decide
    omega
  have hidx : ∀ shift, 12 ≤ shift →
      tableIndex (userRingVa + off) shift = tableIndex userRingVa shift := by
    intro shift hshift
    rw [tableIndex_eq, tableIndex_eq, show shift = 12 + (shift - 12) by omega, Nat.pow_add,
      ← Nat.div_div_eq_div_mul, ← Nat.div_div_eq_div_mul]
    have : userRingVa = 4096 * (2 ^ 27 + 0x300) := by decide
    rw [show (userRingVa + off) / 2 ^ 12 = userRingVa / 2 ^ 12 by omega]
  have hpath : tablePath (userRingVa + off) = tablePath userRingVa := by
    rw [tablePath, tablePath, hidx 39 (by decide), hidx 30 (by decide), hidx 21 (by decide)]
  have hlow : (userRingVa + off) % 4096 = off := by
    have : userRingVa = 4096 * (2 ^ 27 + 0x300) := by decide
    omega
  have htype : (p.ringPa ||| pageUserRw) &&& descPage = descPage :=
    or_and_three hm.aligned (by decide)
  rw [el0WritablePa, descriptorAt, if_pos hva, l0Ptr, h.root_mask (root_of_live hp hl),
    walkVa_tablePath, hpath, ht]
  simp only [Option.bind_eq_bind, Option.bind_some]
  rw [hidx 12 le_rfl, he, if_pos htype, Option.bind_some, or_and_apMask hm.aligned,
    if_pos (by decide), or_and_addrMask hm.aligned hm.lt (by decide), or_and_low hm.aligned, hlow]

/-! ## The smallest image -/

/-- The `n` bytes of a field, little end first. -/
def bytesLe (n v : Nat) : List UInt8 := (List.range n).map fun i ↦ UInt8.ofNat (v / 256 ^ i)

/-- An image with one program header, that of `seg`, and `data` after it.  It starts at the first
byte of the segment. -/
def segmentImage (seg : Elf.Segment) (data : List UInt8) : List UInt8 :=
  [0x7f, 0x45, 0x4c, 0x46, 2] ++ List.replicate 11 0 ++ bytesLe 2 2 ++ bytesLe 2 0xB7 ++
  bytesLe 4 1 ++ bytesLe 8 seg.vaddr ++ bytesLe 8 64 ++ bytesLe 8 0 ++ bytesLe 4 0 ++
    bytesLe 2 64 ++
  bytesLe 2 56 ++ bytesLe 2 1 ++ List.replicate 6 0 ++
  bytesLe 4 Elf.ptLoad ++ bytesLe 4 seg.flags ++ bytesLe 8 seg.offset ++ bytesLe 8 seg.vaddr ++
  bytesLe 8 seg.vaddr ++ bytesLe 8 seg.filesz ++ bytesLe 8 seg.memsz ++ bytesLe 8 4096 ++ data

/-- A read-write page of zeros. -/
def pageSegment (vaddr : Nat) : Elf.Segment :=
  { memsz := 4096, filesz := 0, vaddr, offset := 0, flags := Elf.pfW }

/-- An image with one such page. -/
def pageImage (vaddr : Nat) : List UInt8 := segmentImage (pageSegment vaddr) []

/-- What loading it returns. -/
def pageLoaded (vaddr : Nat) : Loaded :=
  { entry := vaddr, ranges := [⟨vaddr, vaddr + 4096, true⟩] }

/-- Its page. -/
def zeroPage (vaddr : Nat) : PageSpec :=
  { va := vaddr, bytes := List.replicate 4096 0, flags := pageUserRw }

/-- Beyond the file's contents a segment is zero. -/
theorem Elf.segPage_zero (image : List UInt8) (offset page : Nat) :
    Elf.segPage image offset 0 page = some (List.replicate frameSize 0) := by
  have hbyte : (fun b ↦ Elf.segByte image offset 0 (page + b)) = fun _ ↦ some 0 := by
    funext b
    exact if_neg (Nat.not_lt_zero _)
  have hmapM : ∀ xs : List Nat, xs.mapM (fun _ ↦ some (0 : UInt8)) =
      some (List.replicate xs.length 0) := by
    intro xs
    induction xs with
    | nil => rfl
    | cons x xs ih =>
      rw [List.mapM_cons, ih]
      rfl
  rw [Elf.segPage, hbyte, hmapM, List.length_range]

/-- The plan of a segment of one page. -/
theorem Elf.Segment.plan_one {image bytes : List UInt8} {seg : Elf.Segment}
    (hsize : Elf.alignUp seg.memsz = some 4096)
    (hbytes : Elf.segPage image seg.offset seg.filesz 0 = some bytes) (hacc : seg.accepted = true)
    (hlt : seg.vaddr + seg.memsz < 2 ^ 64) :
    seg.plan image = some [{ va := seg.vaddr, bytes, flags := seg.perms }] := by
  have hone : seg.pagesFrom image 1 0 = some [{ va := seg.vaddr, bytes, flags := seg.perms }] := by
    simp only [Elf.Segment.pagesFrom, hbytes, Option.bind_eq_bind, Option.bind_some]
    rfl
  rw [Elf.Segment.plan, hacc, hsize]
  simp only [guard_true, Option.pure_def, Option.bind_eq_bind, Option.bind_some]
  rw [show 4096 / frameSize = 1 from rfl, hone, Option.bind_some, guard, if_pos hlt]
  rfl

/-- The plan of an image with one such segment. -/
theorem plan_of_segment {image bytes : List UInt8} (seg : Elf.Segment)
    (hvalid : Elf.validate image = some seg.vaddr) (hsegs : Elf.segments image = some [seg])
    (hsize : Elf.alignUp seg.memsz = some 4096)
    (hbytes : Elf.segPage image seg.offset seg.filesz 0 = some bytes) (hacc : seg.accepted = true)
    (hlt : seg.vaddr + seg.memsz < 2 ^ 64) :
    Elf.plan image = some ({ entry := seg.vaddr, ranges := [seg.range] },
      [{ va := seg.vaddr, bytes, flags := seg.perms }]) := by
  have hranges : Elf.planSegments image [seg] [] =
      some ([seg.range], [{ va := seg.vaddr, bytes, flags := seg.perms }]) := by
    simp only [Elf.planSegments, Elf.Segment.plan_one hsize hbytes hacc hlt, Option.bind_eq_bind,
      Option.bind_some, guard, List.length_nil]
    rfl
  simp only [Elf.plan, hvalid, hsegs, hranges, Option.bind_eq_bind, Option.bind_some]

/-- An image whose one program header is that of a segment in the user slot. -/
theorem inUserSlot_of_segment {image : List UInt8} (seg : Elf.Segment)
    (hoff : Elf.readU64 image Elf.ePhoff = some 64) (hnum : Elf.readU16 image Elf.ePhnum = some 1)
    (hseg : Elf.readSegment image 64 = some (some seg)) (hslot : seg.InUserSlot) :
    Elf.InUserSlot image := by
  intro phoff phentsize phnum h1 h2 h3 n hn seg' hs
  rw [hoff] at h1
  rw [hnum] at h3
  cases h1
  cases h3
  rw [Nat.lt_one_iff.mp hn, Nat.zero_mul, Nat.add_zero, hseg] at hs
  cases hs
  exact hslot

theorem plan_pageImage_userBase : Elf.plan (pageImage userBase) =
    some (pageLoaded userBase, [zeroPage userBase]) :=
  plan_of_segment (pageSegment userBase) (by decide) (by decide) (by decide)
    (Elf.segPage_zero ..) (by decide) (by decide)

theorem plan_pageImage_userStackVa : Elf.plan (pageImage userStackVa) =
    some (pageLoaded userStackVa, [zeroPage userStackVa]) :=
  plan_of_segment (pageSegment userStackVa) (by decide) (by decide) (by decide)
    (Elf.segPage_zero ..) (by decide) (by decide)

theorem inUserSlot_pageImage_userBase : Elf.InUserSlot (pageImage userBase) :=
  inUserSlot_of_segment (pageSegment userBase) (by decide) (by decide) (by decide)
    ⟨by decide, by decide⟩

theorem inUserSlot_pageImage_userStackVa : Elf.InUserSlot (pageImage userStackVa) :=
  inUserSlot_of_segment (pageSegment userStackVa) (by decide) (by decide) (by decide)
    ⟨by decide, by decide⟩

/-! ## A process with a ring -/

/-- From boot, two processes of one page each; the first has a ring, which is all zero, and its
space is live. -/
theorem exists_neighbours : ∃ L own k p q, Inv True L own k ∧ k.processes = [p, q] ∧
    p.live = true ∧ k.ttbr0 = p.ttbr0 ∧ p.loaded = pageLoaded userBase ∧ p.ringPa ≠ 0 ∧
    (∀ x ∈ frameAt p.ringPa, k.mem x = 0) ∧ q.live = true ∧
    q.frames.map Prod.fst = [userBase, userStackVa] := by
  obtain ⟨k, hb, hps, hc⟩ := bootKernel_isSome ramBase 26 (by decide) (by decide) (fun _ ↦ 0) 0 []
  obtain ⟨L, own, -, h⟩ := Inv.boot (by decide) (by simp) hb
  have hpages : processFrames [zeroPage userBase].length = 13 := rfl
  -- the first process
  obtain ⟨root, s, frames, s₁, own₁, -, -, -, hc₁, h₁⟩ :=
    h.newProcess inUserSlot_pageImage_userBase plan_pageImage_userBase (by omega)
  obtain ⟨k₁, hk₁⟩ : ∃ k₁ : Kernel, k₁ = { k with
    phys := s₁, processes := k.processes ++ [Process.fresh root (pageLoaded userBase) frames],
    ttbr0 := root } := ⟨_, rfl⟩
  have h₁' : Inv True L own₁ k₁ := by
    rw [hk₁]
    exact h₁.of_mem_eq ⟨rfl, fun _ ↦ rfl, rfl, rfl, rfl⟩ rfl
  have hc₁' : 17 ≤ k₁.phys.frames.freeCount := by
    rw [hk₁]
    show 17 ≤ s₁.frames.freeCount
    omega
  -- the second one
  obtain ⟨root', s', frames', s₂, own₂, -, -, hvas, hc₂, h₂⟩ :=
    h₁'.newProcess inUserSlot_pageImage_userBase plan_pageImage_userBase (by omega)
  obtain ⟨k₂, hk₂⟩ : ∃ k₂ : Kernel, k₂ = { k₁ with
    phys := s₂
    processes := k₁.processes ++ [Process.fresh root' (pageLoaded userBase) frames'] } := ⟨_, rfl⟩
  rw [← hk₂] at h₂
  have hps₂ : k₂.processes = [Process.fresh root (pageLoaded userBase) frames,
      Process.fresh root' (pageLoaded userBase) frames'] := by
    rw [hk₂, hk₁, hps]
    rfl
  have hp₂ : k₂.processes[0]? = some (Process.fresh root (pageLoaded userBase) frames) := by
    rw [hps₂]
    rfl
  have hc₂' : 4 ≤ k₂.phys.frames.freeCount := by
    rw [hk₂]
    show 4 ≤ s₂.frames.freeCount
    omega
  -- the ring of the first
  obtain ⟨k₃, hk₃⟩ := h₂.setupRing_isSome hp₂ rfl hc₂'
  obtain ⟨hne, -⟩ | ⟨-, own₃, frame, phys, hk₃', h₃, -, ⟨hmf, -⟩, hzero, -⟩ :=
    h₂.setupRing hp₂ rfl hk₃
  · exact absurd rfl hne
  have hpos : frame ≠ 0 := by
    have := hmf.2.1
    have := h.owned.start_pos
    omega
  refine ⟨L, own₃, k₃, { Process.fresh root (pageLoaded userBase) frames with
      ringPa := frame, frames := frames ++ [(userRingVa, frame)] },
    Process.fresh root' (pageLoaded userBase) frames', h₃, ?_, rfl, ?_, rfl, hpos, hzero, rfl, hvas⟩
  · rw [hk₃', Processes.setRing, hps₂]
    rfl
  · rw [hk₃', hk₂, hk₁]
    rfl

/-- From boot, a process of one page gets a ring, whose entries are zero and therefore no-ops, and
moves the tail to `n`. -/
theorem exists_published (n : BitVec 32) : ∃ L own k p, Inv True L own k ∧
    k.processes[0]? = some p ∧ p.live = true ∧ k.ttbr0 = p.ttbr0 ∧ p.ringPa ≠ 0 ∧
    sqHead k.mem p.ringPa = 0 ∧ sqTail k.mem p.ringPa = n ∧ Nops k.mem p.ringPa := by
  obtain ⟨L, own, k, p, q, h, hps, hl, hroot, -, hne, hzero, -⟩ := exists_neighbours
  have hp : k.processes[0]? = some p := by rw [hps]; rfl
  obtain ⟨hhead, htail, hnops, -⟩ := publish_nops hzero n
  refine ⟨L, own, k.setMem (k.mem.store (p.ringPa + offSqTail) 4 n.toNat), p, ?_, hp, hl, hroot,
    hne, hhead, htail, hnops⟩
  exact h.write_page (.of_quiet (k.setMem_quiet _)) hp ((h.proc hp).ring hne).1
    (Mem.store_eqOn (Nat.le_add_right _ _) (by rw [frameSize, offSqTail]; omega))

end Jatuli

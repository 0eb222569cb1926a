import Jatuli.Plan
import Jatuli.Spaces

/-!
# What the loader maps

`create` fills a new address space with the pages of an image and a stack.  For an image whose
loadable segments lie in the user slot, every page it maps is a page of the new process at an
address of one of the recorded ranges, or the stack.
-/

set_option autoImplicit false

namespace Jatuli

/-- A segment that lies in L0 slot 1. -/
def Elf.Segment.InUserSlot (seg : Elf.Segment) : Prop :=
  userBase ≤ seg.vaddr ∧ seg.vaddr + seg.memsz ≤ userBase + 2 ^ 39

/-- An image all of whose loadable segments lie in L0 slot 1, as the linker script of the user
programs has it. -/
def Elf.InUserSlot (image : List UInt8) : Prop :=
  ∀ phoff phentsize phnum, readU64 image ePhoff = some phoff →
    readU16 image ePhentsize = some phentsize → readU16 image ePhnum = some phnum →
    ∀ n < phnum, ∀ seg, readSegment image (phoff + n * phentsize) = some (some seg) →
      seg.InUserSlot

/-- An address of the user slot has index 1 at the top level. -/
theorem tableIndex_user {va : Nat} (h : userBase ≤ va) (h' : va < userBase + 2 ^ 39) (pid : Nat) :
    tableIndex va 39 = slotOf (some pid) := by
  have hb : userBase = 2 ^ 39 := by decide
  have hs : slotOf (some pid) = 1 := rfl
  rw [tableIndex_eq, hs]
  omega

theorem length_of_mapM {α β : Type} {f : α → Option β} : ∀ {xs : List α} {ys : List β},
    xs.mapM f = some ys → ys.length = xs.length
  | [], ys, h => by
    rw [List.mapM_nil] at h
    cases h
    rfl
  | x :: xs, ys, h => by
    rw [List.mapM_cons] at h
    obtain ⟨y, -, h⟩ := Option.bind_eq_some_iff.mp h
    obtain ⟨zs, hzs, h⟩ := Option.bind_eq_some_iff.mp h
    cases h
    rw [List.length_cons, List.length_cons, length_of_mapM hzs]

theorem Elf.segPage_length {image bytes : List UInt8} {offset filesz page : Nat}
    (h : segPage image offset filesz page = some bytes) : bytes.length = 4096 := by
  rw [length_of_mapM h, List.length_range]
  rfl

theorem Elf.Segment.pageFlags_perms (seg : Elf.Segment) : PageFlags seg.perms := by
  rw [Elf.Segment.perms]
  split
  · exact pageFlags_userRx
  · exact pageFlags_userRw

/-! ## What is in a plan -/

namespace Elf

theorem Segment.plan_cases {image : List UInt8} {seg : Segment} {pgs : List PageSpec}
    (h : seg.plan image = some pgs) : seg.accepted = true ∧
      seg.pagesFrom image ((seg.memsz + frameSize - 1) / frameSize) 0 = some pgs := by
  rw [Segment.plan] at h
  obtain ⟨_, hacc, h⟩ := Option.bind_eq_some_iff.mp h
  obtain ⟨size, hsize, h⟩ := Option.bind_eq_some_iff.mp h
  obtain ⟨pgs', hpgs, h⟩ := Option.bind_eq_some_iff.mp h
  obtain ⟨-, -, h⟩ := Option.bind_eq_some_iff.mp h
  obtain rfl := Option.some.inj h
  rw [alignUp, Option.ite_none_right_eq_some] at hsize
  obtain rfl := Option.some.inj hsize.2
  rw [Nat.mul_div_cancel _ (by decide)] at hpgs
  exact ⟨(Option.guard_eq_some' _).mp hacc, hpgs⟩

theorem planSegments_cons {image : List UInt8} {seg : Segment} {segs : List Segment}
    {ranges ranges' : List Range} {pgs : List PageSpec}
    (h : planSegments image (seg :: segs) ranges = some (ranges', pgs)) :
    ∃ pgs₁ rest, seg.plan image = some pgs₁ ∧
      planSegments image segs (ranges ++ [seg.range]) = some (ranges', rest) ∧
      pgs = pgs₁ ++ rest := by
  rw [planSegments] at h
  obtain ⟨pgs₁, hplan, h⟩ := Option.bind_eq_some_iff.mp h
  obtain ⟨-, -, h⟩ := Option.bind_eq_some_iff.mp h
  obtain ⟨⟨ranges₁, rest⟩, hrest, h⟩ := Option.bind_eq_some_iff.mp h
  obtain ⟨rfl, rfl⟩ := Prod.mk.inj (Option.some.inj h)
  exact ⟨pgs₁, rest, hplan, hrest, rfl⟩

theorem plan_cases {image : List UInt8} {loaded : Loaded} {pgs : List PageSpec}
    (h : plan image = some (loaded, pgs)) : ∃ segs, segments image = some segs ∧
      planSegments image segs [] = some (loaded.ranges, pgs) := by
  rw [plan] at h
  obtain ⟨entry, -, h⟩ := Option.bind_eq_some_iff.mp h
  obtain ⟨segs, hsegs, h⟩ := Option.bind_eq_some_iff.mp h
  obtain ⟨⟨ranges, pgs'⟩, hplan, h⟩ := Option.bind_eq_some_iff.mp h
  obtain ⟨rfl, rfl⟩ := Prod.mk.inj (Option.some.inj h)
  exact ⟨segs, hsegs, hplan⟩

theorem Segment.mem_pagesFrom {image : List UInt8} {seg : Segment} {n page : Nat}
    {pgs : List PageSpec} (h : seg.pagesFrom image n page = some pgs) {pg : PageSpec}
    (hpg : pg ∈ pgs) :
    pg.bytes.length = 4096 ∧ pg.flags = seg.perms ∧
      ∃ k < n, pg.va = seg.vaddr + (page + 4096 * k) := by
  induction n generalizing page pgs with
  | zero =>
    cases h
    cases hpg
  | succ n ih =>
    rw [Segment.pagesFrom] at h
    obtain ⟨bytes, hb, h⟩ := Option.bind_eq_some_iff.mp h
    obtain ⟨rest, hrest, h⟩ := Option.bind_eq_some_iff.mp h
    cases h
    rcases List.mem_cons.mp hpg with rfl | hpg
    · exact ⟨segPage_length hb, rfl, 0, by omega, rfl⟩
    · obtain ⟨hlen, hflags, k, hk, hva⟩ := ih hrest hpg
      refine ⟨hlen, hflags, k + 1, by omega, ?_⟩
      rw [hva, frameSize]
      omega

/-- A page of the segment `seg`. -/
structure Segment.HasPage (seg : Segment) (pg : PageSpec) : Prop where
  aligned : pg.va % 4096 = 0
  start : seg.vaddr ≤ pg.va
  stop : pg.va < seg.vaddr + seg.memsz
  length : pg.bytes.length = 4096
  flags : pg.flags = seg.perms

/-- The segments the loader accepts start at a page boundary. -/
theorem Segment.plan_aligned {image : List UInt8} {seg : Segment} {pgs : List PageSpec}
    (h : seg.plan image = some pgs) : seg.vaddr % 4096 = 0 := by
  have hacc := (plan_cases h).1
  simp only [Segment.accepted, decide_eq_true_eq] at hacc
  exact hacc.1

theorem Segment.mem_plan {image : List UInt8} {seg : Segment} {pgs : List PageSpec}
    (h : seg.plan image = some pgs) {pg : PageSpec} (hpg : pg ∈ pgs) : seg.HasPage pg := by
  have hal := plan_aligned h
  obtain ⟨hlen, hflags, k, hk, hva⟩ := mem_pagesFrom (plan_cases h).2 hpg
  rw [frameSize] at hk
  exact ⟨by omega, by omega, by omega, hlen, hflags⟩

theorem mem_planSegments {image : List UInt8} {segs : List Segment} {ranges ranges' : List Range}
    {pgs : List PageSpec} (h : planSegments image segs ranges = some (ranges', pgs)) :
    ranges ⊆ ranges' ∧
      ∀ pg ∈ pgs, ∃ seg ∈ segs, seg.HasPage pg ∧ seg.range ∈ ranges' := by
  induction segs generalizing ranges pgs with
  | nil =>
    cases h
    exact ⟨fun _ h ↦ h, fun _ hpg ↦ by cases hpg⟩
  | cons seg segs ih =>
    obtain ⟨pgs₁, rest, hplan, hrest, rfl⟩ := planSegments_cons h
    obtain ⟨hsub, hpages⟩ := ih hrest
    refine ⟨fun x hx ↦ hsub (List.mem_append_left _ hx), fun pg hpg ↦ ?_⟩
    rcases List.mem_append.mp hpg with hpg | hpg
    · exact ⟨seg, List.mem_cons_self, Segment.mem_plan hplan hpg,
        hsub (List.mem_append_right _ (List.mem_singleton.mpr rfl))⟩
    · obtain ⟨seg', hseg', hrest⟩ := hpages pg hpg
      exact ⟨seg', List.mem_cons_of_mem _ hseg', hrest⟩

theorem mem_segmentsFrom {image : List UInt8} {phentsize n ph : Nat} {segs : List Segment}
    (h : segmentsFrom image phentsize n ph = some segs) {seg : Segment} (hseg : seg ∈ segs) :
    ∃ k < n, readSegment image (ph + k * phentsize) = some (some seg) := by
  induction n generalizing ph segs with
  | zero =>
    cases h
    cases hseg
  | succ n ih =>
    rw [segmentsFrom] at h
    obtain ⟨header, hread, h⟩ := Option.bind_eq_some_iff.mp h
    obtain ⟨rest, hrest, h⟩ := Option.bind_eq_some_iff.mp h
    cases h
    rcases List.mem_append.mp hseg with hseg | hseg
    · refine ⟨0, by omega, ?_⟩
      rw [Option.mem_toList] at hseg
      rw [Nat.zero_mul, Nat.add_zero, hread, hseg]
    · obtain ⟨k, hk, hread'⟩ := ih hrest hseg
      refine ⟨k + 1, by omega, ?_⟩
      rwa [show ph + (k + 1) * phentsize = ph + phentsize + k * phentsize by ring]

/-- The segments of an image that is linked for the user slot lie there. -/
theorem InUserSlot.segments {image : List UInt8} (h : InUserSlot image) {segs : List Segment}
    (hs : Elf.segments image = some segs) {seg : Segment} (hseg : seg ∈ segs) : seg.InUserSlot := by
  rw [Elf.segments] at hs
  obtain ⟨phoff, hoff, hs⟩ := Option.bind_eq_some_iff.mp hs
  obtain ⟨phentsize, hsize, hs⟩ := Option.bind_eq_some_iff.mp hs
  obtain ⟨phnum, hnum, hs⟩ := Option.bind_eq_some_iff.mp hs
  obtain ⟨k, hk, hread⟩ := mem_segmentsFrom hs hseg
  exact h phoff phentsize phnum hoff hsize hnum k hk seg hread

/-- **The pages of a plan** belong to the segments of the image. -/
theorem mem_plan {image : List UInt8} {loaded : Loaded} {pgs : List PageSpec}
    (h : plan image = some (loaded, pgs)) : ∃ segs, segments image = some segs ∧
      ∀ pg ∈ pgs, ∃ seg ∈ segs, seg.HasPage pg ∧ seg.range ∈ loaded.ranges := by
  obtain ⟨segs, hsegs, hplan⟩ := plan_cases h
  exact ⟨segs, hsegs, (mem_planSegments hplan).2⟩

end Elf

/-! ## Building -/

/-- What is asked of a page that is to be built in the space `id`. -/
structure PageSpec.Ok (id : Option Nat) (pg : PageSpec) : Prop where
  lt : pg.va < 2 ^ 48
  slot : tableIndex pg.va 39 = slotOf id
  length : pg.bytes.length ≤ 4096
  flags : PageFlags pg.flags

theorem tableIndex_userStackVa (pid : Nat) : tableIndex userStackVa 39 = slotOf (some pid) :=
  tableIndex_user (by decide) (by decide) pid

theorem tableIndex_userRingVa (pid : Nat) : tableIndex userRingVa 39 = slotOf (some pid) :=
  tableIndex_user (by decide) (by decide) pid

theorem stackPage_ok (pid : Nat) : stackPage.Ok (some pid) :=
  ⟨by decide, tableIndex_userStackVa pid, Nat.zero_le _, pageFlags_userRw⟩

theorem ringPage_ok (pid : Nat) : ringPage.Ok (some pid) :=
  ⟨by decide, tableIndex_userRingVa pid, (List.length_replicate ..).le, pageFlags_userRw⟩

/-- The pages of a segment in the user slot can be built there. -/
theorem Elf.Segment.HasPage.ok {seg : Elf.Segment} {pg : PageSpec} (h : seg.HasPage pg)
    (hseg : seg.InUserSlot) (pid : Nat) : pg.Ok (some pid) := by
  have hbase : userBase = 2 ^ 39 := by decide
  have hstart := h.start
  have hstop := h.stop
  obtain ⟨hlo, hhi⟩ := hseg
  refine ⟨by omega, tableIndex_user (by omega) (by omega) pid, h.length.le, ?_⟩
  rw [h.flags]
  exact seg.pageFlags_perms

section Build

variable {strict : Prop} {start kernelL1 : Nat} {roots : Option Nat → Option Nat} {id : Option Nat}
  {r : Nat} {pages : Option Nat → List (Nat × Nat)} {own : Nat → Owner} {s s' : Phys}

/-- Building pages, one after the other. -/
theorem Owned.addPages (hr : roots id = some r) {pgs : List PageSpec} {new : List (Nat × Nat)}
    (h : Owned strict start kernelL1 roots pages own s) (hok : ∀ pg ∈ pgs, pg.Ok id)
    (ha : addPages r pgs s = some (new, s')) :
    Filled strict start kernelL1 roots pages id own s s' new ∧
      new.map Prod.fst = pgs.map PageSpec.va := by
  induction pgs generalizing pages own s new with
  | nil =>
    cases ha
    exact ⟨.nil h, rfl⟩
  | cons pg pgs ih =>
    rw [Jatuli.addPages] at ha
    obtain ⟨⟨frame, s₁⟩, hone, ha⟩ := Option.bind_eq_some_iff.mp ha
    obtain ⟨⟨rest, s₂⟩, hrest, ha⟩ := Option.bind_eq_some_iff.mp ha
    cases ha
    obtain ⟨⟨f, s₀⟩, halloc, hone⟩ := Option.bind_eq_some_iff.mp hone
    obtain ⟨s₁', hmap, hone⟩ := Option.bind_eq_some_iff.mp hone
    cases hone
    have hpg := hok pg List.mem_cons_self
    have hok' : ∀ pg ∈ pgs, pg.Ok id := fun pg hpg ↦ hok pg (List.mem_cons_of_mem _ hpg)
    obtain ⟨hfill, -⟩ := h.addPage hr hpg.lt hpg.slot halloc hpg.length hpg.flags hmap
    refine ⟨hfill.trans fun own' ho' ↦ (ih ho' hok' hrest).1, ?_⟩
    obtain ⟨own₁, ho₁, -⟩ := hfill
    rw [List.map_cons, List.map_cons, (ih ho₁ hok' hrest).2]

/-- The pages of a new process: those of its image, and its stack. -/
def PagesOfProcess (loaded : Loaded) (new : List (Nat × Nat)) : Prop :=
  ∀ va f, (va, f) ∈ new → va % 4096 = 0 ∧
    (va = userStackVa ∨ ∃ rg ∈ loaded.ranges, rg.start ≤ va ∧ va < rg.stop)

/-- `create`, as far as the address space is concerned. -/
theorem Owned.createSpace {pid : Nat} (h : Owned strict start kernelL1 roots pages own s)
    (hr : roots (some pid) = some r) {image : List UInt8} {loaded : Loaded}
    {frames : List (Nat × Nat)} (himg : Elf.InUserSlot image)
    (hc : createSpace s image r = some (loaded, frames, s')) :
    Filled strict start kernelL1 roots pages (some pid) own s s' frames ∧
      PagesOfProcess loaded frames := by
  obtain ⟨hmr, -⟩ := h.tree.node hr (.nil _) rfl
  rw [createSpace_eq, l0Ptr, and_addrMask_of_aligned hmr.aligned hmr.lt] at hc
  obtain ⟨⟨loaded', pgs⟩, hplan, hc⟩ := Option.bind_eq_some_iff.mp hc
  obtain ⟨⟨new, s₁⟩, hadd, hc⟩ := Option.map_eq_some_iff.mp hc
  cases hc
  obtain ⟨segs, hsegs, hpages⟩ := Elf.mem_plan hplan
  have hok : ∀ pg ∈ pgs ++ [stackPage], pg.Ok (some pid) := by
    intro pg hpg
    rcases List.mem_append.mp hpg with hpg | hpg
    · obtain ⟨seg, hseg, hhas, -⟩ := hpages pg hpg
      exact hhas.ok (himg.segments hsegs hseg) pid
    · rw [List.mem_singleton.mp hpg]
      exact stackPage_ok pid
  obtain ⟨hfill, hvas⟩ := h.addPages hr hok hadd
  refine ⟨hfill, fun va f hmem ↦ ?_⟩
  have hva : va ∈ (pgs ++ [stackPage]).map PageSpec.va :=
    hvas ▸ List.mem_map.mpr ⟨(va, f), hmem, rfl⟩
  obtain ⟨pg, hpg, rfl⟩ := List.mem_map.mp hva
  rcases List.mem_append.mp hpg with hpg | hpg
  · obtain ⟨seg, -, hhas, hrange⟩ := hpages pg hpg
    exact ⟨hhas.aligned, .inr ⟨seg.range, hrange, hhas.start, hhas.stop⟩⟩
  · rw [List.mem_singleton.mp hpg]
    exact ⟨by decide, .inl rfl⟩

end Build
end Jatuli

import Jatuli.Built
import Jatuli.Placement

/-!
# The memory image of a program

What a program finds in its address space is what the file describes: the bytes of each segment at
the segment's addresses, zeros behind them up to the end of the last page, read-execute or
read-write but never both, and nothing else in the user slot (`load_builds_image`).
-/

set_option autoImplicit false

namespace Jatuli

/-! ## The pages of a plan, one by one -/

theorem getElem?_of_mapM {α β : Type} {f : α → Option β} {xs : List α} {ys : List β}
    (h : xs.mapM f = some ys) (i : Nat) : ys[i]? = xs[i]?.bind f := by
  induction xs generalizing ys i with
  | nil =>
    rw [List.mapM_nil] at h
    obtain rfl := Option.some.inj h
    rfl
  | cons x xs ih =>
    rw [List.mapM_cons] at h
    obtain ⟨y, hy, h⟩ := Option.bind_eq_some_iff.mp h
    obtain ⟨zs, hzs, h⟩ := Option.bind_eq_some_iff.mp h
    obtain rfl := Option.some.inj h
    rcases i with - | i
    · exact hy.symm
    · exact ih hzs i

namespace Elf

/-- The bytes of a page of a segment. -/
theorem segPage_getElem? {image bytes : List UInt8} {offset filesz page i : Nat}
    (h : segPage image offset filesz page = some bytes) (hi : i < 4096) :
    bytes[i]? = segByte image offset filesz (page + i) := by
  rw [getElem?_of_mapM h, List.getElem?_range (show i < frameSize from hi), Option.bind_some]

theorem Segment.pagesFrom_getElem? {image : List UInt8} {seg : Segment} {n page k : Nat}
    {pgs : List PageSpec} (h : seg.pagesFrom image n page = some pgs) (hk : k < n) :
    ∃ bytes, segPage image seg.offset seg.filesz (page + 4096 * k) = some bytes ∧
      { va := seg.vaddr + (page + 4096 * k), bytes, flags := seg.perms } ∈ pgs := by
  induction n generalizing page pgs k with
  | zero => exact absurd hk (Nat.not_lt_zero k)
  | succ n ih =>
    rw [Segment.pagesFrom] at h
    obtain ⟨bytes, hbytes, h⟩ := Option.bind_eq_some_iff.mp h
    obtain ⟨rest, hrest, h⟩ := Option.bind_eq_some_iff.mp h
    obtain rfl := Option.some.inj h
    rcases k with - | k
    · exact ⟨bytes, hbytes, List.mem_cons_self⟩
    · obtain ⟨bytes', hbytes', hmem⟩ := ih hrest (Nat.lt_of_succ_lt_succ hk)
      have hpage : page + frameSize + 4096 * k = page + 4096 * (k + 1) := by
        rw [frameSize]
        omega
      rw [hpage] at hbytes' hmem
      exact ⟨bytes', hbytes', List.mem_cons_of_mem _ hmem⟩

/-- Page `k` of a segment. -/
theorem Segment.plan_page {image : List UInt8} {seg : Segment} {pgs : List PageSpec}
    (h : seg.plan image = some pgs) {k : Nat} (hk : 4096 * k < frameAlignUp seg.memsz) :
    ∃ bytes, segPage image seg.offset seg.filesz (4096 * k) = some bytes ∧
      { va := seg.vaddr + 4096 * k, bytes, flags := seg.perms } ∈ pgs := by
  rw [frameAlignUp, frameSize] at hk
  have hlt : k < (seg.memsz + frameSize - 1) / frameSize := by
    rw [frameSize]
    omega
  obtain ⟨bytes, hbytes, hmem⟩ := pagesFrom_getElem? (plan_cases h).2 hlt
  rw [Nat.zero_add] at hbytes hmem
  exact ⟨bytes, hbytes, hmem⟩

theorem planSegments_ranges {image : List UInt8} {segs : List Segment} {ranges ranges' : List Range}
    {pgs : List PageSpec} (h : planSegments image segs ranges = some (ranges', pgs)) :
    ranges' = ranges ++ segs.map Segment.range ∧
      ∀ seg ∈ segs, ∃ pgs', seg.plan image = some pgs' ∧ pgs' ⊆ pgs := by
  induction segs generalizing ranges pgs with
  | nil =>
    obtain ⟨rfl, rfl⟩ := Prod.mk.inj (Option.some.inj h)
    exact ⟨(List.append_nil _).symm, fun _ hseg ↦ absurd hseg List.not_mem_nil⟩
  | cons seg segs ih =>
    obtain ⟨pgs₁, rest, hplan, hrest, rfl⟩ := planSegments_cons h
    obtain ⟨hranges, hall⟩ := ih hrest
    refine ⟨by rw [hranges, List.append_assoc, List.map_cons, List.singleton_append], ?_⟩
    refine List.forall_mem_cons.mpr ⟨⟨pgs₁, hplan, List.subset_append_left _ _⟩,
      fun seg' hseg' ↦ ?_⟩
    obtain ⟨pgs', hplan', hsub⟩ := hall seg' hseg'
    exact ⟨pgs', hplan', List.Subset.trans hsub (List.subset_append_right _ _)⟩

/-- **What the plan of an image holds**: the ranges of its segments, and every page of them. -/
theorem plan_segments {image : List UInt8} {loaded : Loaded} {pgs : List PageSpec}
    (h : plan image = some (loaded, pgs)) : ∃ segs, segments image = some segs ∧
      loaded.ranges = segs.map Segment.range ∧ pgs.map PageSpec.va = segs.flatMap Segment.pageVas ∧
      ∀ seg ∈ segs, ∃ pgs', seg.plan image = some pgs' ∧ pgs' ⊆ pgs := by
  obtain ⟨segs, hsegs, hplan⟩ := plan_cases h
  obtain ⟨hranges, hall⟩ := planSegments_ranges hplan
  exact ⟨segs, hsegs, hranges, planSegments_vas hplan, hall⟩

end Elf

/-! ## The image in memory -/

/-- The pages of the loadable segments all lie in the user slot, and no two of them are the same. -/
def Elf.Apart (image : List UInt8) : Prop :=
  ∀ segs, segments image = some segs →
    (∀ seg ∈ segs, ∀ va ∈ seg.pageVas, va >>> 39 = userL0Idx) ∧
    (segs.flatMap Segment.pageVas).Nodup

/-- The descriptor lets EL0 read and execute, and not write. -/
def ReadExecute (e : Nat) : Prop := e &&& apMask = apEl0Ro ∧ e &&& uxn = 0

/-- The descriptor lets EL0 read and write, and not execute. -/
def ReadWrite (e : Nat) : Prop := e &&& apMask = apEl0Rw ∧ e &&& uxn ≠ 0

theorem and_uxn_of_lt {f : Nat} (hf : f < 2 ^ 48) : f &&& uxn = 0 := by
  refine Nat.eq_of_testBit_eq fun i ↦ ?_
  rw [Nat.testBit_and, Nat.zero_testBit, uxn, Nat.testBit_shiftLeft]
  by_cases hi : 54 ≤ i
  · rw [Nat.testBit_lt_two_pow (hf.trans (Nat.pow_lt_pow_right (by decide) (by omega))),
      Bool.false_and]
  · simp [hi]

/-- The permissions of a page of a segment are those of its flags. -/
theorem Elf.Segment.perms_cases {seg : Elf.Segment} {f : Nat} (hf : f % 4096 = 0)
    (hlt : f < 2 ^ 48) : if seg.flags &&& Elf.pfX ≠ 0 then ReadExecute (f ||| seg.perms)
      else ReadWrite (f ||| seg.perms) := by
  rw [Elf.Segment.perms, Elf.Segment.executable]
  split_ifs with hx hx' hx'
  · rw [ReadExecute, or_and_apMask hf, Nat.and_or_distrib_right, and_uxn_of_lt hlt, Nat.zero_or]
    decide
  · exact absurd (decide_eq_true hx) hx'
  · exact absurd (of_decide_eq_true hx') hx
  · rw [ReadWrite, or_and_apMask hf, Nat.and_or_distrib_right, and_uxn_of_lt hlt, Nat.zero_or]
    decide

/-- Aligned addresses that are different have different indices. -/
theorem nodup_pagePath {id : Option Nat} {pgs : List PageSpec}
    (hok : ∀ pg ∈ pgs, pg.va % 4096 = 0 ∧ pg.Ok id) (h : (pgs.map PageSpec.va).Nodup) :
    (pgs.map fun pg ↦ pagePath pg.va).Nodup := by
  rw [show (pgs.map fun pg ↦ pagePath pg.va) = (pgs.map PageSpec.va).map pagePath by
    rw [List.map_map]; rfl]
  refine List.Nodup.map_on (fun va hva va' hva' he ↦ ?_) h
  obtain ⟨pg, hpg, rfl⟩ := List.mem_map.mp hva
  obtain ⟨pg', hpg', rfl⟩ := List.mem_map.mp hva'
  obtain ⟨hal, hpgok⟩ := hok pg hpg
  obtain ⟨hal', hpgok'⟩ := hok pg' hpg'
  have := pagePath_inj hpgok.lt hpgok'.lt he
  omega

section Load

variable {L : Layout} {own : Nat → Owner} {k : Kernel} {image : List UInt8} {root : Nat}
  {s s' : Phys} {loaded : Loaded} {owned : List (Nat × Nat)}

/-- Loading into a new space builds the pages of the plan there. -/
theorem Inv.load_built (h : Inv True L own k)
    (hroot : newAddressSpace k.phys k.kernelL1 = some (root, s))
    (hload : Elf.load s image root = some (loaded, owned, s')) (hapart : Elf.Apart image) :
    ∃ (pgs : List PageSpec) (more : List (PageSpec × Nat)) (own' : Nat → Owner),
      Elf.plan image = some (loaded, pgs) ∧ more.map Prod.fst = pgs ∧
      owned = more.map (fun x ↦ (x.1.va, x.2)) ∧
      (∀ x ∈ more, (x.1.va % 4096 = 0 ∧ x.1.Ok (some k.processes.length)) ∧ Managed L.start x.2 ∧
        x.1.Built s'.mem root x.2) ∧
      Owned True L.start k.kernelL1
        (Function.update k.roots (some k.processes.length) (some root))
        (Function.update (k.pages L.heap) (some k.processes.length) owned) own' s' := by
  have hid : k.roots (some k.processes.length) = none := by simp [Kernel.roots]
  have hpages : k.pages L.heap (some k.processes.length) = [] := by simp [Kernel.pages]
  obtain ⟨own₁, ho₁, -, -, hmr⟩ := h.owned.newAddressSpace hid h.kernelL1_managed.lt hroot
  rw [Elf.load_eq, l0Ptr, and_addrMask_of_aligned hmr.aligned hmr.lt] at hload
  obtain ⟨⟨loaded', pgs⟩, hplan, hload⟩ := Option.bind_eq_some_iff.mp hload
  obtain ⟨⟨new, s₂⟩, hadd, hload⟩ := Option.map_eq_some_iff.mp hload
  simp only [Prod.mk.injEq] at hload
  obtain ⟨rfl, rfl, rfl⟩ := hload
  obtain ⟨segs, hsegs, -, hvas, -⟩ := Elf.plan_segments hplan
  obtain ⟨hslot, hnodup⟩ := hapart segs hsegs
  rw [← hvas] at hnodup
  have hok : ∀ pg ∈ pgs, pg.va % 4096 = 0 ∧ pg.Ok (some k.processes.length) := by
    refine fun pg hpg ↦ plan_ok hplan (fun pg hpg ↦ ?_) _ pg (List.mem_append_left _ hpg)
    have hva : pg.va ∈ segs.flatMap Elf.Segment.pageVas := hvas ▸ List.mem_map_of_mem hpg
    obtain ⟨seg, hseg, hva⟩ := List.mem_flatMap.mp hva
    exact hslot seg hseg _ hva
  have hok' : ∀ pg ∈ pgs, pg.Ok (some k.processes.length) := fun pg hpg ↦ (hok pg hpg).2
  obtain ⟨⟨own₂, ho₂, -⟩, -⟩ := ho₁.addPages (Function.update_self ..) hok' hadd
  obtain ⟨more, hmore, rfl, hbuilt⟩ := ho₁.addPages_built (Function.update_self ..) []
    (fun x hx ↦ absurd hx List.not_mem_nil) hok' (nodup_pagePath hok hnodup) hadd
  rw [hpages, List.nil_append] at ho₂
  refine ⟨pgs, more, own₂, hplan, hmore, rfl, fun x hx ↦ ⟨?_, ?_, hbuilt x hx⟩, ho₂⟩
  · exact hok x.1 (hmore ▸ List.mem_map_of_mem hx)
  · refine ((ho₂.page (some k.processes.length)).2 x.2).mp ?_ |>.1
    rw [Function.update_self]
    exact List.mem_map.mpr ⟨_, List.mem_map_of_mem hx, rfl⟩

/-- **The loader builds the memory image the file describes.**  For an image whose segments have
different pages in the user slot, loaded into a new address space: every byte of a segment, rounded
up to whole pages, is that of the file or zero, behind a descriptor that is read-execute or
read-write as the flags of the segment have it; nothing else of the user slot is mapped; the ranges
are those of the segments, in order; and each page is recorded once, with its frame. -/
theorem load_builds_image (h : Inv True L own k)
    (hroot : newAddressSpace k.phys k.kernelL1 = some (root, s))
    (hload : Elf.load s image root = some (loaded, owned, s')) (hapart : Elf.Apart image) :
    ∃ segs, Elf.segments image = some segs ∧
      (∀ seg ∈ segs, ∀ off < frameAlignUp seg.memsz, ∃ pa e,
        translate s'.mem root (seg.vaddr + off) = some pa ∧
        (if off < seg.filesz then image[seg.offset + off]? = some (s'.mem pa) else s'.mem pa = 0) ∧
        descriptorAt s'.mem root (seg.vaddr + off) = some e ∧
        if seg.flags &&& Elf.pfX ≠ 0 then ReadExecute e else ReadWrite e) ∧
      (∀ x, x >>> 39 = userL0Idx →
        (∀ seg ∈ segs, ¬ (seg.vaddr ≤ x ∧ x < seg.vaddr + frameAlignUp seg.memsz)) →
        translate s'.mem root x = none) ∧
      loaded.ranges = segs.map Elf.Segment.range ∧
      owned.map Prod.fst = segs.flatMap Elf.Segment.pageVas ∧
      ∀ va f, (va, f) ∈ owned → translate s'.mem root va = some f := by
  obtain ⟨pgs, more, own', hplan, hmore, rfl, hbuilt, ho⟩ := h.load_built hroot hload hapart
  obtain ⟨segs, hsegs, hranges, hvas, hall⟩ := Elf.plan_segments hplan
  have hr : Function.update k.roots (some k.processes.length) (some root)
      (some k.processes.length) = some root := Function.update_self ..
  have hmr := (ho.tree.node hr (.nil _) rfl).1
  have hmask : root &&& addrMask = root := and_addrMask_of_aligned hmr.aligned hmr.lt
  -- every address of a built page leads into its frame
  have hpage : ∀ {pg f x}, (pg, f) ∈ more → x / 4096 = pg.va / 4096 →
      descriptorAt s'.mem root x = some (f ||| pg.flags) ∧
        translate s'.mem root x = some (f + x % 4096) := by
    intro pg f x hmem hx
    obtain ⟨⟨-, hok⟩, hmf, ⟨t, ht, he⟩, -⟩ := hbuilt _ hmem
    have htype := or_and_three hmf.aligned hok.flags.type
    refine ⟨descriptorAt_of_entry hmask hx ht he htype hok.lt, ?_⟩
    rw [translate_of_entry hmask hx ht he htype, or_and_addrMask hmf.aligned hmf.lt hok.flags.addr,
      or_and_low hmf.aligned]
  refine ⟨segs, hsegs, fun seg hseg off hoff ↦ ?_, fun x hx hout ↦ ?_, hranges, ?_, ?_⟩
  · obtain ⟨pgs', hseg', hsub⟩ := hall seg hseg
    have hk : 4096 * (off / 4096) < frameAlignUp seg.memsz := by omega
    have hal := Elf.Segment.plan_aligned hseg'
    obtain ⟨bytes, hbytes, hmem⟩ := Elf.Segment.plan_page hseg' hk
    have hpg := hsub hmem
    rw [← hmore] at hpg
    obtain ⟨⟨pg, f⟩, hmem', hpgeq⟩ := List.mem_map.mp hpg
    dsimp only at hpgeq
    subst hpgeq
    obtain ⟨-, hmf, -, hcontents⟩ := hbuilt _ hmem'
    obtain ⟨hdesc, htrans⟩ := hpage (x := seg.vaddr + off) hmem' (by dsimp only; omega)
    rw [show (seg.vaddr + off) % 4096 = off % 4096 by omega] at htrans
    refine ⟨_, _, htrans, ?_, hdesc, Elf.Segment.perms_cases hmf.aligned hmf.lt⟩
    have hi : off % 4096 < bytes.length := by
      rw [Elf.segPage_length hbytes]
      exact Nat.mod_lt _ (by decide)
    have hbyte := Elf.segPage_getElem? hbytes (Nat.mod_lt off (by decide))
    rw [show 4096 * (off / 4096) + off % 4096 = off by omega, List.getElem?_eq_getElem hi,
      Elf.segByte] at hbyte
    rw [hcontents _ _ (List.getElem?_eq_getElem hi)]
    split_ifs at hbyte ⊢
    · exact hbyte.symm
    · exact Option.some.inj hbyte
  · obtain ⟨-, hidx⟩ := tableIndex_of_slot hx k.processes.length
    rw [ho.tree.translate_eq_none_iff hr hidx, Option.eq_none_iff_forall_ne_some]
    intro g hg
    obtain ⟨va, hmem, hpath⟩ := ho.leaf _ _ _ _ hr rfl (inside_pagePath hidx) hg
    rw [Function.update_self] at hmem
    obtain ⟨⟨pg, f⟩, hmem', he⟩ := List.mem_map.mp hmem
    obtain ⟨rfl, rfl⟩ := Prod.mk.inj he
    obtain ⟨⟨-, hok⟩, -⟩ := hbuilt _ hmem'
    have hsame := pagePath_inj hok.lt (tableIndex_of_slot hx 0).1 hpath
    have hva : pg.va ∈ segs.flatMap Elf.Segment.pageVas := by
      rw [← hvas, ← hmore, List.map_map]
      exact List.mem_map_of_mem (f := PageSpec.va ∘ Prod.fst) hmem'
    obtain ⟨seg, hseg, hva⟩ := List.mem_flatMap.mp hva
    obtain ⟨n, hn, hva⟩ := List.mem_map.mp hva
    rw [List.mem_range, frameSize] at hn
    refine hout seg hseg ?_
    rw [frameAlignUp]
    rw [frameSize] at hva ⊢
    have hal := (hbuilt _ hmem').1.1
    dsimp only at hal hsame
    omega
  · rw [← hvas, ← hmore, List.map_map, List.map_map]
    rfl
  · intro va f hmem
    obtain ⟨⟨pg, f'⟩, hmem', he⟩ := List.mem_map.mp hmem
    obtain ⟨rfl, rfl⟩ := Prod.mk.inj he
    rw [(hpage hmem' rfl).2, (hbuilt _ hmem').1.1, Nat.add_zero]

end Load

/-! ## An image with contents -/

/-- What the file covers can be read from it. -/
theorem Elf.segPage_isSome {image : List UInt8} {offset filesz : Nat}
    (h : offset + filesz ≤ image.length) (page : Nat) :
    ∃ bytes, Elf.segPage image offset filesz page = some bytes := by
  have hbyte : ∀ b, ∃ x, Elf.segByte image offset filesz (page + b) = some x := by
    intro b
    rw [Elf.segByte]
    split_ifs with hb
    · exact ⟨_, List.getElem?_eq_getElem (by omega)⟩
    · exact ⟨0, rfl⟩
  have hmapM : ∀ xs : List Nat, ∃ ys,
      xs.mapM (fun b ↦ Elf.segByte image offset filesz (page + b)) = some ys := by
    intro xs
    induction xs with
    | nil => exact ⟨[], rfl⟩
    | cons x xs ih =>
      obtain ⟨y, hy⟩ := hbyte x
      obtain ⟨ys, hys⟩ := ih
      rw [List.mapM_cons, hy, hys]
      exact ⟨_, rfl⟩
  exact hmapM _

/-- A segment of a hundred bytes, of which the file has four. -/
def bssSegment : Elf.Segment :=
  { memsz := 100, filesz := 4, vaddr := userBase, offset := 120, flags := Elf.pfW }

/-- Its image. -/
def bssImage : List UInt8 := segmentImage bssSegment [1, 2, 3, 4]

/-- Loaded after boot, the image has its four bytes at the start of a page, zeros to the end of the
page, and no page after that. -/
theorem load_builds_bss : ∃ (k : Kernel) (root : Nat) (s s' : Phys) (loaded : Loaded)
    (owned : List (Nat × Nat)), newAddressSpace k.phys k.kernelL1 = some (root, s) ∧
      Elf.load s bssImage root = some (loaded, owned, s') ∧
      (∃ pa, translate s'.mem root (userBase + 2) = some pa ∧ s'.mem pa = 3) ∧
      (∃ pa, translate s'.mem root (userBase + 5) = some pa ∧ s'.mem pa = 0) ∧
      (∃ pa, translate s'.mem root (userBase + 200) = some pa ∧ s'.mem pa = 0) ∧
      translate s'.mem root (userBase + 4096) = none ∧
      loaded.ranges = [⟨userBase, userBase + 100, true⟩] ∧ owned.map Prod.fst = [userBase] := by
  obtain ⟨k, hb, hps, hc⟩ := bootKernel_isSome ramBase 13 (by decide) (by decide) (fun _ ↦ 0) 0 []
  obtain ⟨L, own, -, h⟩ := Inv.boot (by decide) (by simp) hb
  have hsegments : Elf.segments bssImage = some [bssSegment] := by decide
  have hvalid : Elf.validate bssImage = some userBase := by decide +kernel
  have hlen : bssSegment.offset + bssSegment.filesz ≤ bssImage.length := by decide +kernel
  obtain ⟨bytes, hpage⟩ := Elf.segPage_isSome hlen 0
  have himg : Elf.InUserSlot bssImage := inUserSlot_of_segment bssSegment (by decide) (by decide)
    (by decide) ⟨by decide, by decide⟩
  obtain ⟨root, s, frames, s₁, own₁, hroot, hspace, -⟩ := h.newProcess himg
    (plan_of_segment bssSegment hvalid hsegments (by decide) hpage (by decide) (by decide)) hc
  rw [createSpace] at hspace
  obtain ⟨⟨loaded, owned, s'⟩, hload, -⟩ := Option.bind_eq_some_iff.mp hspace
  have hapart : Elf.Apart bssImage := by
    intro segs hsegs
    rw [hsegments] at hsegs
    obtain rfl := Option.some.inj hsegs
    exact ⟨by decide, by decide⟩
  obtain ⟨segs, hsegs, hbytes, hnone, hranges, howned, -⟩ := load_builds_image h hroot hload hapart
  obtain rfl := Option.some.inj (hsegments.symm.trans hsegs)
  have hsize : frameAlignUp bssSegment.memsz = 4096 := rfl
  have hbyte := hbytes bssSegment (List.mem_singleton.mpr rfl)
  rw [hsize] at hbyte
  refine ⟨k, root, s, s', loaded, owned, hroot, hload, ?_, ?_, ?_,
    hnone _ (by decide) fun seg hseg hx ↦ ?_, hranges, howned⟩
  · obtain ⟨pa, e, hpa, hdata, -⟩ := hbyte 2 (by decide)
    rw [if_pos (by decide)] at hdata
    exact ⟨pa, hpa, (Option.some.inj hdata).symm⟩
  · obtain ⟨pa, e, hpa, hzero, -⟩ := hbyte 5 (by decide)
    exact ⟨pa, hpa, by rwa [if_neg (by decide)] at hzero⟩
  · obtain ⟨pa, e, hpa, hzero, -⟩ := hbyte 200 (by decide)
    exact ⟨pa, hpa, by rwa [if_neg (by decide)] at hzero⟩
  · rw [List.mem_singleton.mp hseg, hsize] at hx
    exact Nat.lt_irrefl _ hx.2

end Jatuli

import Jatuli.FrameUse

/-!
# Which pages are mapped where

The loader takes a segment's address from the image and checks that it is aligned, but neither that
it lies in the user slot nor that nothing is mapped there yet; and the pages of the stack and the
ring have fixed addresses.  So each call of `map_page_in` that `create` and `setup` make is for a
fresh user page exactly when the image says so.
-/

set_option autoImplicit false

namespace Jatuli

/-! ## The addresses of an image -/

namespace Elf

/-- The addresses of the pages of a segment. -/
def Segment.pageVas (seg : Segment) : List Nat :=
  (List.range ((seg.memsz + frameSize - 1) / frameSize)).map fun k ↦ seg.vaddr + frameSize * k

/-- The pages of the loadable segments all lie in the user slot; no two of them are the same, and
none is that of the stack or of the ring. -/
def WellPlaced (image : List UInt8) : Prop :=
  ∀ segs, segments image = some segs →
    (∀ seg ∈ segs, ∀ va ∈ seg.pageVas, va >>> 39 = userL0Idx) ∧
    (segs.flatMap Segment.pageVas ++ [userStackVa, userRingVa]).Nodup

theorem Segment.pagesFrom_vas {image : List UInt8} {seg : Segment} {n page : Nat}
    {pgs : List PageSpec} (h : seg.pagesFrom image n page = some pgs) :
    pgs.map PageSpec.va = (List.range n).map fun k ↦ seg.vaddr + (page + frameSize * k) := by
  induction n generalizing page pgs with
  | zero =>
    cases h
    rfl
  | succ n ih =>
    rw [Segment.pagesFrom] at h
    obtain ⟨bytes, -, h⟩ := Option.bind_eq_some_iff.mp h
    obtain ⟨rest, hrest, h⟩ := Option.bind_eq_some_iff.mp h
    cases h
    rw [List.map_cons, ih hrest, List.range_succ_eq_map, List.map_cons, List.map_map]
    refine congrArg (_ :: ·) (List.map_congr_left fun k _ ↦ ?_)
    simp only [Function.comp_apply, Nat.succ_eq_add_one, Nat.mul_add]
    omega

theorem Segment.plan_vas {image : List UInt8} {seg : Segment} {pgs : List PageSpec}
    (h : seg.plan image = some pgs) : pgs.map PageSpec.va = seg.pageVas := by
  rw [pagesFrom_vas (plan_cases h).2, pageVas]
  simp only [Nat.zero_add]

theorem planSegments_vas {image : List UInt8} {segs : List Segment} {ranges ranges' : List Range}
    {pgs : List PageSpec} (h : planSegments image segs ranges = some (ranges', pgs)) :
    pgs.map PageSpec.va = segs.flatMap Segment.pageVas := by
  induction segs generalizing ranges pgs with
  | nil =>
    cases h
    rfl
  | cons seg segs ih =>
    obtain ⟨pgs₁, rest, hplan, hrest, rfl⟩ := planSegments_cons h
    rw [List.map_append, Segment.plan_vas hplan, ih hrest, List.flatMap_cons]

theorem plan_vas {image : List UInt8} {loaded : Loaded} {pgs : List PageSpec}
    (h : plan image = some (loaded, pgs)) :
    ∃ segs, segments image = some segs ∧ pgs.map PageSpec.va = segs.flatMap Segment.pageVas := by
  obtain ⟨segs, hsegs, hplan⟩ := plan_cases h
  exact ⟨segs, hsegs, planSegments_vas hplan⟩

/-- For an image with a plan, the condition in terms of the pages of the plan. -/
theorem wellPlaced_iff {image : List UInt8} {loaded : Loaded} {pgs : List PageSpec}
    (h : plan image = some (loaded, pgs)) :
    WellPlaced image ↔ (∀ pg ∈ pgs, pg.va >>> 39 = userL0Idx) ∧
      ((pgs ++ [stackPage, ringPage]).map PageSpec.va).Nodup := by
  obtain ⟨segs, hsegs, hvas⟩ := plan_vas h
  have hall : (∀ seg ∈ segs, ∀ va ∈ seg.pageVas, va >>> 39 = userL0Idx) ↔
      ∀ pg ∈ pgs, pg.va >>> 39 = userL0Idx := by
    rw [← List.forall_mem_flatMap, ← hvas, List.forall_mem_map]
  rw [List.map_append, hvas, ← hall]
  refine ⟨fun hw ↦ hw segs hsegs, fun hw segs' hsegs' ↦ ?_⟩
  rw [hsegs] at hsegs'
  cases hsegs'
  exact hw

end Elf

/-! ## The calls -/

/-- The calls of `map_page_in` made in building pages: the memory at each call, and the address the
call is for. -/
def mapCalls (l0 : Nat) : List PageSpec → Phys → List (Mem × Nat)
  | [], _ => []
  | pg :: pgs, s =>
    match s.allocFrame with
    | none => []
    | some (frame, s) =>
      let s := { s with mem := s.mem.fill frame pg.bytes }
      (s.mem, pg.va) ::
        match mapPageIn s l0 pg.va frame pg.flags with
        | none => []
        | some s => mapCalls l0 pgs s

/-- The calls made by `create` for the image, in the space at `ttbr0`, and by the `setup` that
follows. -/
def buildCalls (image : List UInt8) (ttbr0 : Nat) (s : Phys) : List (Mem × Nat) :=
  match Elf.plan image with
  | none => []
  | some (_, pgs) => mapCalls (l0Ptr ttbr0) (pgs ++ [stackPage, ringPage]) s

/-- A call for a page of the user slot that is not mapped yet. -/
def FreshUserPage (ttbr0 : Nat) (call : Mem × Nat) : Prop :=
  call.2 >>> 39 = userL0Idx ∧ translate call.1 ttbr0 call.2 = none

/-! ## Fresh calls -/

section Calls

variable {start kernelL1 pid r : Nat} {roots : Option Nat → Option Nat}
  {pages : Option Nat → List (Nat × Nat)} {own : Nat → Owner} {s s' : Phys}

theorem tableIndex_of_slot {va : Nat} (h : va >>> 39 = userL0Idx) (pid : Nat) :
    va < 2 ^ 48 ∧ tableIndex va 39 = slotOf (some pid) := by
  refine ⟨?_, by rw [tableIndex, h, slotOf]; rfl⟩
  have hidx : userL0Idx = 1 := by decide
  rw [Nat.shiftRight_eq_div_pow, hidx] at h
  omega

/-- Where there are no blocks, `translate` finds what a walk over all four levels finds. -/
theorem TreeOk.translate_eq_none_iff {m : Mem} (h : TreeOk True start kernelL1 roots own m)
    (hr : roots (some pid) = some r) {va : Nat} (hva : tableIndex va 39 = slotOf (some pid)) :
    translate m r va = none ↔ walk m r (pagePath va) = none := by
  have hmr := (h.node hr (.nil _) rfl).1
  have hin : Inside (some pid) (pagePath va) := inside_pagePath hva
  rw [translate, l0Ptr, and_addrMask_of_aligned hmr.aligned hmr.lt, walkVa_tablePath, pagePath,
    walk_concat]
  cases hw : walk m r (tablePath va) with
  | none => rfl
  | some t =>
    rw [Option.bind_some, Option.bind_eq_bind, Option.bind_some]
    by_cases hvalid : entry m t (tableIndex va 12) &&& descValid = 0
    · rw [if_pos hvalid, child_of_invalid hvalid]
    · have htype := h.typed trivial hr le_rfl hin trivial hw hvalid
      rw [if_neg hvalid, child_eq_some.mpr ⟨htype, rfl⟩]
      exact iff_of_false (by rintro ⟨⟩) (by rintro ⟨⟩)

/-- Every page on the list is mapped at its address. -/
def AllMapped (m : Mem) (r : Nat) (frames : List (Nat × Nat)) : Prop :=
  ∀ va ∈ frames.map Prod.fst, va % 4096 = 0 ∧ walk m r (pagePath va) ≠ none

/-- The call made for a page finds its address unmapped if no page is recorded there. -/
theorem Owned.call_fresh_iff (h : Owned True start kernelL1 roots pages own s)
    (hr : roots (some pid) = some r) (hmapped : AllMapped s.mem r (pages (some pid)))
    {pg : PageSpec} (hok : pg.Ok (some pid)) (halign : pg.va % 4096 = 0) {f : Nat} {s₁ : Phys}
    (ha : s.allocFrame = some (f, s₁)) :
    translate (s₁.mem.fill f pg.bytes) r pg.va = none ↔
      pg.va ∉ (pages (some pid)).map Prod.fst := by
  obtain ⟨⟨hmf, hof⟩, ⟨hmem, -⟩, h₁⟩ := h.allocFrame ha
  have hlen : f + pg.bytes.length ≤ f + frameSize := by
    have := hok.length
    rw [frameSize]
    omega
  have hfill : Set.EqOn (s₁.mem.fill f pg.bytes) s₁.mem (frameAt f)ᶜ := Mem.fill_eqOn le_rfl hlen
  have h₂ := h₁.write_frame hmf (by simp) (by simp) hfill
  have hwalk : walk (s₁.mem.fill f pg.bytes) r (pagePath pg.va) =
      walk s.mem r (pagePath pg.va) := by
    refine h.tree.walk_congr hr (fun g q hg hog ↦ ?_) le_rfl (inside_pagePath hok.slot)
    rw [← hmem]
    exact eqOn_frameAt hmf.aligned hg.aligned (fun e ↦ by simp [e, hog] at hof) hfill
  rw [h₂.tree.translate_eq_none_iff hr hok.slot, hwalk]
  constructor
  · intro hnone hva
    exact (hmapped _ hva).2 hnone
  · intro hva
    cases hw : walk s.mem r (pagePath pg.va) with
    | none => rfl
    | some g =>
      obtain ⟨va', hmem', hpath⟩ := h.leaf _ _ _ _ hr rfl (inside_pagePath hok.slot) hw
      have hva' := List.mem_map_of_mem (f := Prod.fst) hmem'
      have hsame := pagePath_inj (h.slot _ _ _ hmem').1 hok.lt hpath
      have halign' := (hmapped va' hva').1
      have heq : va' = pg.va := by omega
      exact absurd (heq ▸ hva') hva

/-- After the call its page is mapped as well. -/
theorem AllMapped.addPage (hmapped : AllMapped s.mem r (pages (some pid)))
    (h : Owned True start kernelL1 roots pages own s) {pg : PageSpec} (hok : pg.Ok (some pid))
    (halign : pg.va % 4096 = 0) (hva : pg.va ∉ (pages (some pid)).map Prod.fst)
    (hkept : LeavesKept (some pid) r (pagePath pg.va) s.mem s'.mem) {t f : Nat}
    (hf : f % 4096 = 0) (hw : walk s'.mem r (tablePath pg.va) = some t)
    (he : entry s'.mem t (tableIndex pg.va 12) = f ||| pg.flags) :
    AllMapped s'.mem r (pages (some pid) ++ [(pg.va, f)]) := by
  intro va hmem
  rw [List.map_append, List.mem_append] at hmem
  rcases hmem with hmem | hmem
  · obtain ⟨halign', hne⟩ := hmapped va hmem
    refine ⟨halign', ?_⟩
    obtain ⟨⟨va', f'⟩, hpage, rfl⟩ := List.mem_map.mp hmem
    obtain ⟨hlt, hslot⟩ := h.slot _ _ _ hpage
    have hpath : pagePath va' ≠ pagePath pg.va := by
      intro e
      have hsame := pagePath_inj hlt hok.lt e
      have heq : va' = pg.va := by omega
      exact hva (heq ▸ hmem)
    rw [pagePath, walk_concat] at hne ⊢
    cases hw' : walk s.mem r (tablePath va') with
    | none => exact absurd (by rw [hw']; rfl) hne
    | some t' =>
      obtain ⟨hwalk, hentry⟩ := hkept (tablePath va') t' (tableIndex va' 12) rfl
        (inside_pagePath hslot) hpath hw'
      rw [hw', Option.bind_some, child] at hne
      rwa [hwalk, Option.bind_some, child, hentry]
  · rw [List.map_singleton, List.mem_singleton] at hmem
    subst hmem
    refine ⟨halign, ?_⟩
    have htype : entry s'.mem t (tableIndex pg.va 12) &&& descTable = descTable := by
      rw [he]
      exact or_and_three hf hok.flags.type
    rw [pagePath, walk_concat, hw, Option.bind_some, child_eq_some.mpr ⟨htype, rfl⟩]
    rintro ⟨⟩

/-- **The calls that build pages are all fresh exactly when the pages lie in the user slot, at
different addresses, none of them taken.** -/
theorem Owned.mapCalls_fresh_iff (hr : roots (some pid) = some r) {pgs : List PageSpec}
    {new : List (Nat × Nat)} (h : Owned True start kernelL1 roots pages own s)
    (hmapped : AllMapped s.mem r (pages (some pid)))
    (hnodup : ((pages (some pid)).map Prod.fst).Nodup)
    (hpgs : ∀ pg ∈ pgs, pg.va % 4096 = 0 ∧ pg.bytes.length ≤ 4096 ∧ PageFlags pg.flags)
    (ha : Jatuli.addPages r pgs s = some (new, s')) :
    (∀ call ∈ mapCalls r pgs s, FreshUserPage r call) ↔
      (∀ pg ∈ pgs, pg.va >>> 39 = userL0Idx) ∧
      ((pages (some pid)).map Prod.fst ++ pgs.map PageSpec.va).Nodup := by
  induction pgs generalizing pages own s new s' with
  | nil => simpa [mapCalls] using hnodup
  | cons pg pgs ih =>
    rw [Jatuli.addPages] at ha
    obtain ⟨⟨frame, s₁⟩, hone, ha⟩ := Option.bind_eq_some_iff.mp ha
    obtain ⟨⟨rest, s₂⟩, hrest, -⟩ := Option.bind_eq_some_iff.mp ha
    obtain ⟨⟨f, s₀⟩, halloc, hone⟩ := Option.bind_eq_some_iff.mp hone
    obtain ⟨s₁', hmap, hone⟩ := Option.bind_eq_some_iff.mp hone
    cases hone
    simp only [mapCalls, halloc, hmap, List.forall_mem_cons, List.map_cons]
    obtain ⟨⟨halign, hlen, hflags⟩, hpgs'⟩ := List.forall_mem_cons.mp hpgs
    by_cases hslot : pg.va >>> 39 = userL0Idx
    swap
    · exact iff_of_false (fun hc ↦ hslot hc.1.1) (fun hc ↦ hslot hc.1.1)
    obtain ⟨hlt, hidx⟩ := tableIndex_of_slot hslot pid
    have hok : pg.Ok (some pid) := ⟨hlt, hidx, hlen, hflags⟩
    have hfresh := h.call_fresh_iff hr hmapped hok halign halloc
    by_cases hva : pg.va ∈ (pages (some pid)).map Prod.fst
    · -- the address is taken: the call is not fresh, and the list names the address twice
      refine iff_of_false (fun hc ↦ hfresh.mp hc.1.2 hva) (fun hc ↦ ?_)
      exact (List.disjoint_of_nodup_append hc.2 hva) List.mem_cons_self
    · obtain ⟨⟨own', ho', -⟩, ⟨hmf, -⟩, -, ⟨t, hw, he⟩, hkept⟩ :=
        h.addPage hr hok.lt hok.slot halloc hok.length hok.flags hmap
      have hmapped' := hmapped.addPage h hok halign hva hkept hmf.aligned hw he
      rw [and_iff_right ⟨hslot, hfresh.mpr hva⟩, and_iff_right hslot]
      have ih' := ih ho' (by rwa [Function.update_self]) ?_ hpgs' hrest
      · rw [ih', Function.update_self, List.map_append, List.map_singleton, List.append_assoc,
          List.singleton_append]
      · rw [Function.update_self, List.map_append, List.map_singleton]
        exact hnodup.append (List.nodup_singleton _) (by simpa using hva)

/-- If they are, all pages are mapped in the end. -/
theorem Owned.allMapped_addPages (hr : roots (some pid) = some r) {pgs : List PageSpec}
    {new : List (Nat × Nat)} (h : Owned True start kernelL1 roots pages own s)
    (hmapped : AllMapped s.mem r (pages (some pid)))
    (hpgs : ∀ pg ∈ pgs, pg.va % 4096 = 0 ∧ pg.Ok (some pid))
    (hnodup : ((pages (some pid)).map Prod.fst ++ pgs.map PageSpec.va).Nodup)
    (ha : Jatuli.addPages r pgs s = some (new, s')) :
    AllMapped s'.mem r (pages (some pid) ++ new) := by
  induction pgs generalizing pages own s new s' with
  | nil =>
    cases ha
    rwa [List.append_nil]
  | cons pg pgs ih =>
    rw [Jatuli.addPages] at ha
    obtain ⟨⟨frame, s₁⟩, hone, ha⟩ := Option.bind_eq_some_iff.mp ha
    obtain ⟨⟨rest, s₂⟩, hrest, ha⟩ := Option.bind_eq_some_iff.mp ha
    cases ha
    obtain ⟨⟨f, s₀⟩, halloc, hone⟩ := Option.bind_eq_some_iff.mp hone
    obtain ⟨s₁', hmap, hone⟩ := Option.bind_eq_some_iff.mp hone
    cases hone
    obtain ⟨⟨halign, hok⟩, hpgs'⟩ := List.forall_mem_cons.mp hpgs
    have hva : pg.va ∉ (pages (some pid)).map Prod.fst := fun hva ↦
      List.disjoint_of_nodup_append hnodup hva List.mem_cons_self
    obtain ⟨⟨own', ho', -⟩, ⟨hmf, -⟩, -, ⟨t, hw, he⟩, hkept⟩ :=
      h.addPage hr hok.lt hok.slot halloc hok.length hok.flags hmap
    have hmapped' := hmapped.addPage h hok halign hva hkept hmf.aligned hw he
    have ih' := ih ho' (by rwa [Function.update_self]) hpgs' ?_ hrest
    · rwa [Function.update_self, List.append_assoc, List.singleton_append] at ih'
    · rwa [Function.update_self, List.map_append, List.map_singleton, List.append_assoc,
        List.singleton_append]

end Calls

/-! ## Creating a process -/

/-- `create` and `setup` carry out the plan of the image, with the stack and the ring. -/
theorem addPages_of_create {k k₁ k₂ : Kernel} {image : List UInt8} {root pid : Nat}
    (hcreate : k.create image root = some (pid, k₁)) (hsetup : k₁.setupRing pid = some k₂) :
    ∃ loaded pgs p, Elf.plan image = some (loaded, pgs) ∧
      addPages (l0Ptr root) (pgs ++ [stackPage, ringPage]) k.phys = some (p.frames, k₂.phys) ∧
      k₂.processes[pid]? = some p ∧ p.ttbr0 = root := by
  rw [Kernel.create, createSpace_eq] at hcreate
  obtain ⟨⟨loaded, frames, phys⟩, hspace, hcreate⟩ := Option.bind_eq_some_iff.mp hcreate
  obtain ⟨⟨loaded', pgs⟩, hplan, hspace⟩ := Option.bind_eq_some_iff.mp hspace
  obtain ⟨⟨new, s₁⟩, hadd, hspace⟩ := Option.map_eq_some_iff.mp hspace
  simp only [Prod.mk.injEq] at hspace
  obtain ⟨rfl, rfl, rfl⟩ := hspace
  simp only [Option.some.injEq, Prod.mk.injEq] at hcreate
  obtain ⟨rfl, rfl⟩ := hcreate
  rw [setupRing_eq (p := Process.fresh root loaded' new) (by simp) rfl] at hsetup
  obtain ⟨⟨frame, s₂⟩, hone, hsetup⟩ := Option.map_eq_some_iff.mp hsetup
  cases hsetup
  refine ⟨loaded', pgs, { Process.fresh root loaded' new with
    ringPa := frame, frames := new ++ [(userRingVa, frame)] }, hplan, ?_, ?_, rfl⟩
  · have hone' : addPage (l0Ptr root) s₁ ringPage = some (frame, s₂) := hone
    rw [List.append_cons, addPages_append, hadd, Option.bind_some, addPages, hone']
    rfl
  · simp [Processes.setRing, Process.fresh]

theorem plan_pages {image : List UInt8} {loaded : Loaded} {pgs : List PageSpec}
    (h : Elf.plan image = some (loaded, pgs)) : ∀ pg ∈ pgs ++ [stackPage, ringPage],
      pg.va % 4096 = 0 ∧ pg.bytes.length ≤ 4096 ∧ PageFlags pg.flags := by
  obtain ⟨segs, -, hpages⟩ := Elf.mem_plan h
  intro pg hpg
  rcases List.mem_append.mp hpg with hpg | hpg
  · obtain ⟨seg, -, hhas, -⟩ := hpages pg hpg
    exact ⟨hhas.aligned, hhas.length.le, hhas.flags ▸ seg.pageFlags_perms⟩
  · simp only [List.mem_cons, List.not_mem_nil, or_false] at hpg
    rcases hpg with rfl | rfl
    · exact ⟨by decide, (stackPage_ok 0).length, (stackPage_ok 0).flags⟩
    · exact ⟨by decide, (ringPage_ok 0).length, (ringPage_ok 0).flags⟩

/-- In a space where the pages on the list are mapped, at different addresses, each address leads to
its own page. -/
theorem Owned.translate_page {start kernelL1 pid r va f : Nat} {roots : Option Nat → Option Nat}
    {pages : Option Nat → List (Nat × Nat)} {own : Nat → Owner} {s : Phys}
    (h : Owned True start kernelL1 roots pages own s) (hr : roots (some pid) = some r)
    (hmapped : AllMapped s.mem r (pages (some pid)))
    (hnodup : ((pages (some pid)).map Prod.fst).Nodup) (hmem : (va, f) ∈ pages (some pid)) :
    translate s.mem r va = some f := by
  have hmr := (h.tree.node hr (.nil _) rfl).1
  obtain ⟨hlt, hslot⟩ := h.slot _ _ _ hmem
  obtain ⟨halign, hne⟩ := hmapped va (List.mem_map_of_mem (f := Prod.fst) hmem)
  obtain ⟨g, hg⟩ := Option.ne_none_iff_exists'.mp hne
  obtain ⟨va', hmem', hpath⟩ := h.leaf _ _ _ _ hr rfl (inside_pagePath hslot) hg
  have halign' := (hmapped va' (List.mem_map_of_mem (f := Prod.fst) hmem')).1
  have hsame := pagePath_inj (h.slot _ _ _ hmem').1 hlt hpath
  have hva : va' = va := by omega
  have hfg : (va', g) = (va, f) := List.inj_on_of_nodup_map hnodup hmem' hmem hva
  cases hfg
  have hmf := ((h.page (some pid)).2 f |>.mp (List.mem_map_of_mem (f := Prod.snd) hmem)).1
  rw [pagePath, walk_concat] at hg
  obtain ⟨t, hw, hc⟩ := Option.bind_eq_some_iff.mp hg
  obtain ⟨htype, rfl⟩ := child_eq_some.mp hc
  rw [translate, l0Ptr, and_addrMask_of_aligned hmr.aligned hmr.lt, walkVa_tablePath, hw]
  simp only [Option.bind_eq_bind, Option.bind_some]
  rw [if_neg (valid_of_table htype), or_and_low hmf.aligned, halign, Nat.add_zero]

section Create

variable {L : Layout} {own : Nat → Owner} {k k₁ k₂ : Kernel} {image : List UInt8} {root pid : Nat}
  {s : Phys}

/-- The pages of a new process can be built if they lie in the user slot. -/
theorem plan_ok {loaded : Loaded} {pgs : List PageSpec}
    (hplan : Elf.plan image = some (loaded, pgs))
    (hslots : ∀ pg ∈ pgs, pg.va >>> 39 = userL0Idx) (pid : Nat) :
    ∀ pg ∈ pgs ++ [stackPage, ringPage], pg.va % 4096 = 0 ∧ pg.Ok (some pid) := by
  intro pg hpg
  obtain ⟨halign, hlen, hflags⟩ := plan_pages hplan pg hpg
  have hslot : pg.va >>> 39 = userL0Idx := by
    rcases List.mem_append.mp hpg with hpg | hpg
    · exact hslots pg hpg
    · simp only [List.mem_cons, List.not_mem_nil, or_false] at hpg
      rcases hpg with rfl | rfl <;> decide
  obtain ⟨hlt, hidx⟩ := tableIndex_of_slot hslot pid
  exact ⟨halign, hlt, hidx, hlen, hflags⟩

/-- Nothing is mapped in a new space. -/
theorem allMapped_new (L : Layout) (k : Kernel) (m : Mem) (root : Nat) :
    AllMapped m root (k.pages L.heap (some k.processes.length)) := by
  have hpages : k.pages L.heap (some k.processes.length) = [] := by simp [Kernel.pages]
  rw [hpages]
  exact fun va hva ↦ absurd hva List.not_mem_nil

/-- The calls that `create` and `setup` make, in terms of the image. -/
theorem Inv.buildCalls_fresh_iff (h : Inv True L own k)
    (hroot : newAddressSpace k.phys k.kernelL1 = some (root, s))
    (hcreate : { k with phys := s }.create image root = some (pid, k₁))
    (hsetup : k₁.setupRing pid = some k₂) :
    (∀ call ∈ buildCalls image root s, FreshUserPage root call) ↔ Elf.WellPlaced image := by
  have hid : k.roots (some k.processes.length) = none := by simp [Kernel.roots]
  have hpages : k.pages L.heap (some k.processes.length) = [] := by simp [Kernel.pages]
  obtain ⟨own₁, ho₁, -, -, hmr⟩ := h.owned.newAddressSpace hid h.kernelL1_managed.lt hroot
  obtain ⟨loaded, pgs, p, hplan, hadd, -, -⟩ := addPages_of_create hcreate hsetup
  have hmask : l0Ptr root = root := and_addrMask_of_aligned hmr.aligned hmr.lt
  rw [hmask] at hadd
  rw [buildCalls, hplan]
  simp only
  rw [hmask, ho₁.mapCalls_fresh_iff (Function.update_self ..) (allMapped_new L k _ _)
    (by simp [hpages]) (plan_pages hplan) hadd, Elf.wellPlaced_iff hplan, hpages,
    List.forall_mem_append]
  refine and_congr_left fun _ ↦ and_iff_left ?_
  simp only [List.mem_cons, List.not_mem_nil, or_false, forall_eq_or_imp, forall_eq]
  exact ⟨by decide, by decide⟩

/-- What a well placed image leads to. -/
theorem Inv.wellPlaced_create (h : Inv True L own k)
    (hroot : newAddressSpace k.phys k.kernelL1 = some (root, s))
    (hcreate : { k with phys := s }.create image root = some (pid, k₁))
    (hsetup : k₁.setupRing pid = some k₂) (hplaced : Elf.WellPlaced image) :
    (∀ f, Managed L.start f → k.HasUse f .kernel → Set.EqOn k₂.mem k.mem (frameAt f)) ∧
      ∃ p, k₂.processes[pid]? = some p ∧
        ∀ va f, (va, f) ∈ p.frames → translate k₂.mem p.ttbr0 va = some f := by
  have hid : k.roots (some k.processes.length) = none := by simp [Kernel.roots]
  have hpages : k.pages L.heap (some k.processes.length) = [] := by simp [Kernel.pages]
  obtain ⟨own₁, ho₁, hg₁, -, hmr⟩ := h.owned.newAddressSpace hid h.kernelL1_managed.lt hroot
  obtain ⟨loaded, pgs, p, hplan, hadd, hp, rfl⟩ := addPages_of_create hcreate hsetup
  rw [l0Ptr, and_addrMask_of_aligned hmr.aligned hmr.lt] at hadd
  obtain ⟨hslots, hnodup⟩ := (Elf.wellPlaced_iff hplan).mp hplaced
  have hok := plan_ok hplan hslots k.processes.length
  obtain ⟨⟨own₂, ho₂, hg₂, -⟩, hvas⟩ :=
    ho₁.addPages (Function.update_self ..) (fun pg hpg ↦ (hok pg hpg).2) hadd
  have hmapped := ho₁.allMapped_addPages (Function.update_self ..) (allMapped_new L k _ _) hok
    (by rwa [hpages]) hadd
  constructor
  · intro f hmf huse
    have hnames := h.names_of_hasUse huse
    refine (hg₁.trans hg₂).mem f hmf (fun e ↦ ?_) (fun q e ↦ ?_)
    · rw [e] at hnames
      exact hnames
    · rw [e] at hnames
      exact hnames
  · refine ⟨p, hp, fun va f hmem ↦ ?_⟩
    rw [hpages, List.nil_append] at hmapped ho₂
    refine ho₂.translate_page (Function.update_self ..) ?_ ?_ ?_
    · rwa [Function.update_self]
    · rw [Function.update_self, hvas]
      exact hnodup
    · rwa [Function.update_self]

end Create

/-! ## Two images of one page -/

/-- From boot, an image of one page in the user slot gets its process and its ring. -/
theorem boot_builds {image : List UInt8} {loaded : Loaded} {pg : PageSpec}
    (himg : Elf.InUserSlot image) (hplan : Elf.plan image = some (loaded, [pg])) :
    ∃ k root s pid k₁ k₂, (life ramBase []).Reach LifeOp.Linked k ∧
      newAddressSpace k.phys k.kernelL1 = some (root, s) ∧
      { k with phys := s }.create image root = some (pid, k₁) ∧ k₁.setupRing pid = some k₂ := by
  obtain ⟨k, hb, hps, hc⟩ := bootKernel_isSome ramBase 13 (by decide) (by decide) (fun _ ↦ 0) 0 []
  obtain ⟨L, own, -, h⟩ := Inv.boot (by decide) (by simp) hb
  obtain ⟨root, s, frames, s₁, own₁, hroot, hspace, -, hc₁, h₁⟩ := h.newProcess himg hplan hc
  have hp : (k.processes ++ [Process.fresh root loaded frames])[0]? =
      some (Process.fresh root loaded frames) := by
    rw [hps]
    rfl
  obtain ⟨k₂, hk₂⟩ := h₁.setupRing_isSome hp rfl (processFrames_le hc hc₁)
  refine ⟨k, root, s, 0, _, k₂, .init ⟨_, _, hb⟩, hroot, ?_, hk₂⟩
  simp only [Kernel.create, hspace, hps, Option.bind_eq_bind, Option.bind_some, List.length_nil]

theorem segments_pageImage_userBase :
    Elf.segments (pageImage userBase) = some [pageSegment userBase] := by decide

theorem segments_pageImage_userStackVa :
    Elf.segments (pageImage userStackVa) = some [pageSegment userStackVa] := by decide

/-- A page at the base of the user window is placed well. -/
theorem wellPlaced_pageImage_userBase : Elf.WellPlaced (pageImage userBase) := by
  intro segs hsegs
  rw [segments_pageImage_userBase] at hsegs
  cases hsegs
  exact ⟨by decide, by decide⟩

/-- A page where the stack goes is not. -/
theorem not_wellPlaced_pageImage_userStackVa : ¬ Elf.WellPlaced (pageImage userStackVa) := by
  intro h
  have hnodup := (h _ segments_pageImage_userStackVa).2
  exact absurd hnodup (by decide)

/-- **The loader and its callers map fresh user pages exactly when the image is placed well.**  Then
the kernel's own tables and pages are left alone, and in the end each page of the process is where
it was mapped. -/
theorem image_maps_fresh_pages {kernelEnd : Nat} {programs : List (String × List UInt8)}
    (hend : ramBase ≤ kernelEnd) (hprog : ∀ q ∈ programs, Elf.InUserSlot q.2)
    {k k₁ k₂ : Kernel} (hk : (life kernelEnd programs).Reach LifeOp.Linked k)
    {image : List UInt8} {root pid : Nat} {s : Phys}
    (hroot : newAddressSpace k.phys k.kernelL1 = some (root, s))
    (hcreate : { k with phys := s }.create image root = some (pid, k₁))
    (hsetup : k₁.setupRing pid = some k₂) :
    ((∀ call ∈ buildCalls image root s, FreshUserPage root call) ↔ Elf.WellPlaced image) ∧
    (Elf.WellPlaced image →
      (∀ f, Managed (firstFrame kernelEnd) f → k.HasUse f .kernel →
        Set.EqOn k₂.mem k.mem (frameAt f)) ∧
      ∃ p, k₂.processes[pid]? = some p ∧
        ∀ va f, (va, f) ∈ p.frames → translate k₂.mem p.ttbr0 va = some f) := by
  obtain ⟨L, hstart, hlife⟩ := lifeInv_of_reach hend hprog hk
  obtain ⟨own, h⟩ := hlife.inv
  rw [← hstart]
  exact ⟨h.buildCalls_fresh_iff hroot hcreate hsetup, h.wellPlaced_create hroot hcreate hsetup⟩

theorem userBase_image_maps_fresh_pages : ∃ k root s pid k₁ k₂,
    (life ramBase []).Reach LifeOp.Linked k ∧
    newAddressSpace k.phys k.kernelL1 = some (root, s) ∧
    { k with phys := s }.create (pageImage userBase) root = some (pid, k₁) ∧
    k₁.setupRing pid = some k₂ ∧
    ∀ call ∈ buildCalls (pageImage userBase) root s, FreshUserPage root call := by
  obtain ⟨k, root, s, pid, k₁, k₂, hk, hroot, hcreate, hsetup⟩ :=
    boot_builds inUserSlot_pageImage_userBase plan_pageImage_userBase
  exact ⟨k, root, s, pid, k₁, k₂, hk, hroot, hcreate, hsetup,
    (image_maps_fresh_pages le_rfl (by simp) hk hroot hcreate hsetup).1.mpr
      wellPlaced_pageImage_userBase⟩

/-- **An accepted image can have its page replaced by the stack**: the loader does not look at where
a segment lies. -/
theorem stack_image_remaps : ∃ k root s pid k₁ k₂, (life ramBase []).Reach LifeOp.Linked k ∧
    newAddressSpace k.phys k.kernelL1 = some (root, s) ∧
    { k with phys := s }.create (pageImage userStackVa) root = some (pid, k₁) ∧
    k₁.setupRing pid = some k₂ ∧
    ¬ ∀ call ∈ buildCalls (pageImage userStackVa) root s, FreshUserPage root call := by
  obtain ⟨k, root, s, pid, k₁, k₂, hk, hroot, hcreate, hsetup⟩ :=
    boot_builds inUserSlot_pageImage_userStackVa plan_pageImage_userStackVa
  obtain ⟨L, -, hlife⟩ := lifeInv_of_reach le_rfl (by simp) hk
  obtain ⟨own, h⟩ := hlife.inv
  refine ⟨k, root, s, pid, k₁, k₂, hk, hroot, hcreate, hsetup, ?_⟩
  rw [h.buildCalls_fresh_iff hroot hcreate hsetup]
  exact not_wellPlaced_pageImage_userStackVa

end Jatuli

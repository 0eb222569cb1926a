import Jatuli.Image
import Jatuli.Reclaim
import Jatuli.Serving
import Mathlib.Data.List.Pairwise

/-!
# What `is_user_range` lets through

`is_user_range` looks at the ranges of a process, not at its page tables.  Here is why that is
enough: in a process whose image does not overlap itself, its stack or its ring, every page of a
range is mapped with the permissions of the range, from the creation of the process to its end
(`Kernel.Granting`).  So an accepted pointer can be followed (`user_ranges_sound`).
-/

set_option autoImplicit false

namespace Jatuli

/-! ## Ranges and their pages -/

/-- The addresses of the pages a range reaches into. -/
def Range.pageVas (rg : Range) : List Nat :=
  (List.range ((rg.stop + 4095) / 4096 - rg.start / 4096)).map fun n ↦ (rg.start / 4096 + n) * 4096

/-- How the pages of a range are mapped. -/
def Range.perms (rg : Range) : Nat := if rg.writable then pageUserRw else pageUserRx

/-- The pages of the ranges are in the user slot; they are all different, and neither the stack nor
the ring is one of them. -/
structure Loaded.Placed (l : Loaded) : Prop where
  slot : ∀ rg ∈ l.ranges, ∀ va ∈ rg.pageVas, va >>> 39 = userL0Idx
  apart : (l.ranges.flatMap Range.pageVas ++ [userStackVa, userRingVa]).Nodup

theorem Range.mem_pageVas {rg : Range} {x : Nat} (h : rg.start ≤ x) (h' : x < rg.stop) :
    x / 4096 * 4096 ∈ rg.pageVas :=
  List.mem_map.mpr ⟨x / 4096 - rg.start / 4096, List.mem_range.mpr (by omega), by omega⟩

/-- The pages of a segment are those of its range. -/
theorem Elf.Segment.range_pageVas {seg : Elf.Segment} (h : seg.vaddr % 4096 = 0) :
    seg.range.pageVas = seg.pageVas := by
  rw [Range.pageVas, Elf.Segment.pageVas, Elf.Segment.range]
  simp only [frameSize]
  rw [show (seg.vaddr + seg.memsz + 4095) / 4096 - seg.vaddr / 4096 =
    (seg.memsz + 4096 - 1) / 4096 by omega]
  exact List.map_congr_left fun n _ ↦ by omega

theorem Elf.Segment.range_perms (seg : Elf.Segment) : seg.range.perms = seg.perms := by
  rw [Range.perms, Elf.Segment.perms, Elf.Segment.range]
  cases seg.executable <;> rfl

/-- No address is in two different ranges. -/
def Loaded.NoOverlap (l : Loaded) : Prop :=
  ∀ rg ∈ l.ranges, ∀ rg' ∈ l.ranges, ∀ x, rg.start ≤ x ∧ x < rg.stop →
    rg'.start ≤ x ∧ x < rg'.stop → rg = rg'

theorem Loaded.Placed.noOverlap {l : Loaded} (h : l.Placed) : l.NoOverlap := by
  intro rg hrg rg' hrg' x hx hx'
  have hdis := (List.nodup_flatMap.mp h.apart.of_append_left).2
  have : Std.Symm (Function.onFun List.Disjoint Range.pageVas) :=
    ⟨fun _ _ hd _ hx hx' ↦ hd hx' hx⟩
  by_contra hne
  exact hdis.forall hrg hrg' hne (Range.mem_pageVas hx.1 hx.2) (Range.mem_pageVas hx'.1 hx'.2)

/-- A part of what is accepted is accepted, if there is something in it. -/
theorem Loaded.NoOverlap.subrange {ps : List Process} {pid ptr len ptr' len' : Nat} {p : Process}
    {w : Bool} (h : p.loaded.NoOverlap) (hp : ps[pid]? = some p)
    (hacc : Processes.isUserRange ps pid ptr len w = some true) (hpos : 0 < len')
    (hlo : ptr ≤ ptr') (hhi : ptr' + len' ≤ ptr + len) :
    Processes.isUserRange ps pid ptr' len' w = some true := by
  obtain ⟨h64, hwhere⟩ := isUserRange_cases hp hacc
  rw [Processes.isUserRange, if_neg (by omega)]
  split_ifs with hstack
  · rfl
  · rcases hwhere with hin | ⟨rg, hrg, hw, hstart, hstop⟩
    · exact absurd ⟨by omega, by omega⟩ hstack
    · -- the first range that contains the part is the one that contains the whole
      have hsome : (p.loaded.ranges.find? fun r ↦
          decide (r.start ≤ ptr' ∧ ptr' + len' ≤ r.stop)).isSome :=
        List.find?_isSome.mpr ⟨rg, hrg, decide_eq_true ⟨by omega, by omega⟩⟩
      obtain ⟨rg', hfind⟩ := Option.isSome_iff_exists.mp hsome
      have hin := List.find?_some hfind
      rw [decide_eq_true_eq] at hin
      obtain rfl : rg' = rg := h rg' (List.mem_of_find?_eq_some hfind) rg hrg ptr'
        ⟨hin.1, by omega⟩ ⟨by omega, by omega⟩
      rw [hp, Option.map_some, Processes.rangeOk, hfind]
      cases w with
      | false => rfl
      | true => exact congrArg some (hw rfl)

/-! ## Pages that stay mapped -/

/-- The page at `va` is mapped in the space at `r`, with these flags. -/
def PageMapped (m : Mem) (r va flags : Nat) : Prop :=
  ∃ t f, f % 4096 = 0 ∧ walk m r (tablePath va) = some t ∧
    entry m t (tableIndex va 12) = f ||| flags

/-- The pages of the ranges and the stack, with the flags they are mapped with. -/
def Loaded.pageFlags (l : Loaded) : List (Nat × Nat) :=
  (l.ranges.flatMap fun rg ↦ rg.pageVas.map fun va ↦ (va, rg.perms)) ++ [(userStackVa, pageUserRw)]

/-- The ranges of every process that is placed well are mapped the way they say. -/
def Kernel.Granting (k : Kernel) : Prop :=
  ∀ (pid : Nat) (p : Process), k.processes[pid]? = some p → p.live = true → p.loaded.Placed →
    ∀ x ∈ p.loaded.pageFlags, PageMapped k.mem p.ttbr0 x.1 x.2

/-- What is mapped for the ranges is in the user slot, and is not the ring. -/
theorem Loaded.Placed.of_pageFlags {l : Loaded} (h : l.Placed) {x : Nat × Nat}
    (hx : x ∈ l.pageFlags) (pid : Nat) :
    x.1 < 2 ^ 48 ∧ tableIndex x.1 39 = slotOf (some pid) ∧ pagePath x.1 ≠ pagePath userRingVa := by
  have hva : x.1 >>> 39 = userL0Idx ∧ x.1 % 4096 = 0 ∧ x.1 ≠ userRingVa := by
    rcases List.mem_append.mp hx with hx | hx
    · obtain ⟨rg, hrg, hx⟩ := List.mem_flatMap.mp hx
      obtain ⟨va, hva, rfl⟩ := List.mem_map.mp hx
      refine ⟨h.slot rg hrg va hva, ?_, fun he ↦ ?_⟩
      · obtain ⟨n, -, rfl⟩ := List.mem_map.mp hva
        exact Nat.mul_mod_left _ _
      · refine List.disjoint_of_nodup_append h.apart (List.mem_flatMap.mpr ⟨rg, hrg, hva⟩) ?_
        rw [show va = userRingVa from he]
        exact List.mem_cons_of_mem _ List.mem_cons_self
    · rw [List.mem_singleton.mp hx]
      decide
  obtain ⟨hlt, hidx⟩ := tableIndex_of_slot hva.1 pid
  refine ⟨hlt, hidx, fun he ↦ hva.2.2 ?_⟩
  have := pagePath_inj hlt (by decide) he
  have : userRingVa % 4096 = 0 := by decide
  omega

/-- A change that leaves the tables of a space alone leaves its entries alone. -/
theorem TreeOk.leavesKept {strict : Prop} {start kernelL1 : Nat} {own : Nat → Owner} {m m' : Mem}
    {roots : Option Nat → Option Nat} {id : Option Nat} {r : Nat}
    (h : TreeOk strict start kernelL1 roots own m) (hr : roots id = some r)
    (hm : ∀ f q, Managed start f → own f = .node id q → Set.EqOn m' m (frameAt f)) :
    LeavesKept id r [] m m' := by
  intro q t j hlen hin _ hw
  have hnode := h.node hr ⟨by omega, hin.of_append⟩ hw
  refine ⟨?_, entry_congr (hm t _ hnode.1 hnode.2) (hin.1 j (by simp))⟩
  rw [h.walk_congr hr hm (by omega) hin.of_append, hw]

theorem PageMapped.kept {m m' : Mem} {r va flags : Nat} {id : Option Nat} {path : List Nat}
    (h : PageMapped m r va flags) (hslot : tableIndex va 39 = slotOf id) (hne : pagePath va ≠ path)
    (hkept : LeavesKept id r path m m') : PageMapped m' r va flags := by
  obtain ⟨t, f, hf, ht, he⟩ := h
  obtain ⟨ht', he'⟩ := hkept _ t _ rfl (inside_pagePath hslot) hne ht
  exact ⟨t, f, hf, ht', he'.trans he⟩

section Granting

variable {strict : Prop} {L : Layout} {own own' : Nat → Owner} {k k' : Kernel} {pid : Nat}
  {p : Process}

/-- **What keeps the ranges mapped**: the processes that are left were there before, and nothing of
their tables has changed but the entry for the ring. -/
theorem Kernel.Granting.of_kept (hg : k.Granting)
    (hkept : ∀ (pid : Nat) (p' : Process), k'.processes[pid]? = some p' → p'.live = true →
      ∃ (p : Process) (path : List Nat), k.processes[pid]? = some p ∧ p.live = true ∧
      p'.ttbr0 = p.ttbr0 ∧ p'.loaded = p.loaded ∧ (path = [] ∨ path = pagePath userRingVa) ∧
      LeavesKept (some pid) p.ttbr0 path k.mem k'.mem) : k'.Granting := by
  intro pid p' hp' hl' hplaced x hx
  obtain ⟨p, path, hp, hl, hroot, hloaded, hpath, hleaves⟩ := hkept pid p' hp' hl'
  rw [hloaded] at hplaced hx
  obtain ⟨-, hslot, hring⟩ := hplaced.of_pageFlags hx pid
  rw [hroot]
  refine (hg pid p hp hl hplaced x hx).kept hslot ?_ hleaves
  rcases hpath with rfl | rfl
  · simp [pagePath, tablePath]
  · exact hring

theorem Kernel.Granting.of_same (hg : k.Granting) (hs : SameSpaces k k') (hm : k'.mem = k.mem) :
    k'.Granting := by
  intro pid p' hp' hl' hplaced x hx
  obtain ⟨p, hp, he⟩ := hs.getElem? hp'
  simp only [Process.space, Prod.mk.injEq] at he
  obtain ⟨hroot, hexit, -, -, hloaded⟩ := he
  rw [hloaded] at hplaced hx
  rw [hroot, hm]
  exact hg pid p hp (by rwa [Process.live, ← hexit]) hplaced x hx

/-- Tables that are left alone. -/
theorem Inv.leavesKept (h : Inv strict L own k) (hp : k.processes[pid]? = some p)
    (hl : p.live = true) {m : Mem} (hm : ∀ g q, Managed L.start g → own g = .node (some pid) q →
      Set.EqOn m k.mem (frameAt g)) : LeavesKept (some pid) p.ttbr0 [] k.mem m :=
  h.owned.tree.leavesKept (Inv.root_of_live hp hl) hm

/-- What is done on behalf of a process in its own space, as long as it creates no process. -/
theorem Kernel.Granting.confined (hg : k.Granting) (h : Inv strict L own k)
    (hp : k.processes[pid]? = some p)
    (hc : Confined L pid (some pid) p.ringPa own k own' k')
    (hlen : k'.processes.length = k.processes.length) : k'.Granting := by
  refine hg.of_kept fun i q' hq' hl' ↦ ?_
  have hi : i < k.processes.length := hlen ▸ (List.getElem?_eq_some_iff.mp hq').1
  obtain ⟨q₁, hq₁, ht⟩ := hc.entries (List.getElem?_eq_getElem hi)
  obtain rfl := Option.some.inj (hq'.symm.trans hq₁)
  have hl : k.processes[i].live = true := by
    rw [← hl', Process.live, Process.live, ht.rest]
  refine ⟨_, [], List.getElem?_eq_getElem hi, hl, by rw [ht.rest], by rw [ht.rest], .inl rfl, ?_⟩
  refine h.leavesKept (List.getElem?_eq_getElem hi) hl fun g q hmg hog ↦ ?_
  exact h.frame_kept hp hc hmg (by rw [hog]; rintro ⟨⟩) (by rw [hog]; rintro ⟨⟩)

section Create

variable {root : Nat} {s₁ s₂ : Phys} {image : List UInt8} {loaded : Loaded}
  {frames : List (Nat × Nat)} (hroot : newAddressSpace k.phys k.kernelL1 = some (root, s₁))
  (hspace : createSpace s₁ image root = some (loaded, frames, s₂))
include hroot hspace

/-- The pages of a process just created. -/
theorem Inv.create_mapped (h : Inv strict L own k) (hplaced : loaded.Placed) :
    ∀ x ∈ loaded.pageFlags, PageMapped s₂.mem root x.1 x.2 := by
  have hid : k.roots (some k.processes.length) = none := by simp [Kernel.roots]
  obtain ⟨own₁, ho₁, -, -, hmr⟩ := h.owned.newAddressSpace hid h.kernelL1_managed.lt hroot
  rw [createSpace_eq, l0Ptr, and_addrMask_of_aligned hmr.aligned hmr.lt] at hspace
  obtain ⟨⟨loaded', pgs⟩, hplan, hspace⟩ := Option.bind_eq_some_iff.mp hspace
  obtain ⟨⟨new, s'⟩, hadd, hspace⟩ := Option.map_eq_some_iff.mp hspace
  simp only [Prod.mk.injEq] at hspace
  obtain ⟨rfl, rfl, rfl⟩ := hspace
  obtain ⟨segs, hsegs, hranges, hvas, hall⟩ := Elf.plan_segments hplan
  -- the pages of the ranges are the pages of the plan
  have hsame : ∀ seg ∈ segs, seg.range.pageVas = seg.pageVas := fun seg hseg ↦ by
    obtain ⟨pgs', hplan', -⟩ := hall seg hseg
    exact Elf.Segment.range_pageVas (Elf.Segment.plan_aligned hplan')
  have hpages : loaded'.ranges.flatMap Range.pageVas = pgs.map PageSpec.va := by
    rw [hranges, List.flatMap_map, hvas]
    exact List.flatMap_congr hsame
  have hok : ∀ pg ∈ pgs ++ [stackPage], pg.va % 4096 = 0 ∧ pg.Ok (some k.processes.length) := by
    refine fun pg hpg ↦ plan_ok hplan (fun pg hpg ↦ ?_) _ pg ?_
    · have hva : pg.va ∈ loaded'.ranges.flatMap Range.pageVas :=
        hpages ▸ List.mem_map_of_mem hpg
      obtain ⟨rg, hrg, hva⟩ := List.mem_flatMap.mp hva
      exact hplaced.slot rg hrg _ hva
    · rw [List.append_cons]
      exact List.mem_append_left _ hpg
  have hnodup : ((pgs ++ [stackPage]).map PageSpec.va).Nodup := by
    have hapart := hplaced.apart
    rw [hpages, List.append_cons] at hapart
    rw [List.map_append]
    exact hapart.of_append_left
  have hok' : ∀ pg ∈ pgs ++ [stackPage], pg.Ok (some k.processes.length) :=
    fun pg hpg ↦ (hok pg hpg).2
  obtain ⟨⟨own₂, ho₂, -⟩, -⟩ := ho₁.addPages (Function.update_self ..) hok' hadd
  obtain ⟨more, hmore, rfl, hbuilt⟩ := ho₁.addPages_built (Function.update_self ..) []
    (fun x hx ↦ absurd hx List.not_mem_nil) hok' (nodup_pagePath hok hnodup) hadd
  have hmapped : ∀ pg ∈ pgs ++ [stackPage], PageMapped s'.mem root pg.va pg.flags := by
    intro pg hpg
    rw [← hmore] at hpg
    obtain ⟨x, hx, rfl⟩ := List.mem_map.mp hpg
    obtain ⟨t, ht, he⟩ := (hbuilt x hx).mapped
    refine ⟨t, x.2, ?_, ht, he⟩
    refine (((ho₂.page (some k.processes.length)).2 x.2).mp ?_).1.aligned
    rw [Function.update_self, List.map_append]
    exact List.mem_append_right _ (List.mem_map.mpr ⟨_, List.mem_map_of_mem hx, rfl⟩)
  intro x hx
  rcases List.mem_append.mp hx with hx | hx
  · obtain ⟨rg, hrg, hx⟩ := List.mem_flatMap.mp hx
    obtain ⟨va, hva, rfl⟩ := List.mem_map.mp hx
    rw [hranges] at hrg
    obtain ⟨seg, hseg, rfl⟩ := List.mem_map.mp hrg
    rw [hsame seg hseg] at hva
    obtain ⟨n, hn, rfl⟩ := List.mem_map.mp hva
    obtain ⟨pgs', hplan', hsub⟩ := hall seg hseg
    have hlt : 4096 * n < frameAlignUp seg.memsz := by
      rw [List.mem_range, frameSize] at hn
      rw [frameAlignUp, frameSize]
      omega
    obtain ⟨bytes, -, hmem⟩ := Elf.Segment.plan_page hplan' hlt
    have hpg := hmapped _ (List.mem_append_left _ (hsub hmem))
    dsimp only at hpg ⊢
    rw [frameSize, seg.range_perms]
    exact hpg
  · rw [List.mem_singleton.mp hx]
    exact hmapped stackPage (List.mem_append_right _ (List.mem_singleton.mpr rfl))

theorem Kernel.Granting.create (hg : k.Granting) (h : Inv strict L own k)
    (himg : Elf.InUserSlot image) {q : Process} (hq : q.space = (root, none, frames, 0, loaded)) :
    ({ k with phys := s₂, processes := k.processes ++ [q] } : Kernel).Granting := by
  obtain ⟨own', -, hkept, -⟩ := h.create himg hroot hspace hq
  have hold : ∀ (i : Nat) (r : Process), k.processes[i]? = some r → r.live = true →
      LeavesKept (some i) r.ttbr0 [] k.mem s₂.mem := fun i r hr hl ↦
    h.leavesKept hr hl fun g path hmg hog ↦ (hkept g hmg (by rw [hog]; nofun) trivial).2
  intro i r hr hl hplaced x hx
  rcases Nat.lt_or_ge i k.processes.length with hlt | hge
  · rw [List.getElem?_append_left hlt] at hr
    obtain ⟨-, hslot, -⟩ := hplaced.of_pageFlags hx i
    exact (hg i r hr hl hplaced x hx).kept hslot (by simp [pagePath, tablePath]) (hold i r hr hl)
  · rw [List.getElem?_append_right hge, List.getElem?_singleton] at hr
    split_ifs at hr
    obtain rfl := Option.some.inj hr
    simp only [Process.space, Prod.mk.injEq] at hq
    obtain ⟨hr, -, -, -, hloaded⟩ := hq
    rw [hloaded] at hplaced hx
    rw [hr]
    exact h.create_mapped hroot hspace hplaced x hx

end Create

/-- One submission. -/
theorem Kernel.Granting.outcome (hg : k.Granting) (h : Inv strict L own k)
    (hp : k.processes[pid]? = some p) (hne : p.ringPa ≠ 0)
    (hr : k.roots (some pid) = some k.ttbr0) {tag : Nat} {child : Option Nat}
    (ho : SqeOutcome pid p.ringPa tag child k k') : k'.Granting := by
  have hstay : k'.processes.length = k.processes.length → k'.Granting := fun hlen ↦ by
    obtain ⟨own', -, hc⟩ := h.outcome hp rfl hne hr ho
    exact hg.confined h hp hc hlen
  cases ho with
  | @completed k₁ result hchild hd hin =>
    refine hstay ?_
    rw [(k₁.complete_quiet ..).processes, hd.quiet.processes]
  | parked hchild hd hin hq hi htag => exact hstay (List.length_set ..)
  | answered hchild hq hparent hexit =>
    refine hstay ?_
    rw [(k.complete_quiet ..).processes]
  | waiting hchild hq hparent hexit => exact hstay (List.length_modify ..)
  | @spawned name image root s₁ s₂ loaded frames uart hchild himage hroot hspace =>
    have himg := h.image himage
    obtain ⟨k₁, hk₁⟩ : ∃ k₁ : Kernel, k₁ = { k with
      phys := s₂
      uart
      processes := k.processes ++ [{ Process.fresh root loaded frames with parent := some pid }]
      sched := k.sched.spawnInner (some k.processes.length) (some root) } := ⟨_, rfl⟩
    have hg₁ : k₁.Granting := by
      rw [hk₁]
      exact (hg.create hroot hspace h himg
        (q := { Process.fresh root loaded frames with parent := some pid }) rfl).of_same
        ⟨rfl, fun _ ↦ rfl, rfl, rfl, rfl⟩ rfl
    obtain ⟨own₁, h₁, hc₁⟩ : ∃ own₁, Inv strict L own₁ k₁ ∧
      Confined L pid (some pid) p.ringPa own k own₁ k₁ := h.spawned himg hroot hspace hk₁
    obtain ⟨p₁, hp₁, hring₁⟩ := hc₁.ring hp
    obtain ⟨-, hc₂⟩ : Inv strict L own₁ (k₁.complete p.ringPa tag k.processes.length none) ∧
        Confined L pid (some pid) p.ringPa own₁ k₁ own₁
          (k₁.complete p.ringPa tag k.processes.length none) :=
      h₁.complete hp₁ hring₁ hne tag k.processes.length none
    rw [← hk₁]
    rw [← hring₁] at hc₂ ⊢
    refine hg₁.confined h₁ hp₁ hc₂ ?_
    rw [(k₁.complete_quiet ..).processes]

/-- All submissions. -/
theorem Kernel.Granting.drain (hg : k.Granting) (h : Inv strict L own k)
    (hp : k.processes[pid]? = some p) (hr : k.roots (some pid) = some k.ttbr0)
    (hd : k.drain pid = some k') : k'.Granting := by
  rw [Kernel.drain, Processes.ringPa, hp, Option.map_some] at hd
  simp only [Option.bind_eq_bind, Option.bind_some] at hd
  split_ifs at hd with hne
  · exact Option.some.inj hd ▸ hg
  have hround : ∀ {k₁ : Kernel}, (∃ own₁, Inv strict L own₁ k₁ ∧
      Confined L pid (some pid) p.ringPa own k own₁ k₁) → ∃ p₁, k₁.processes[pid]? = some p₁ ∧
        p₁.ringPa = p.ringPa ∧ k₁.roots (some pid) = some k₁.ttbr0 := by
    rintro k₁ ⟨own₁, -, hc₁⟩
    obtain ⟨p₁, hp₁, hring₁⟩ := hc₁.ring hp
    exact ⟨p₁, hp₁, hring₁, by rw [hc₁.ttbr0]; exact hc₁.roots hr⟩
  refine (Kernel.drainFrom_invariant (I := fun k₁ ↦ (∃ own₁, Inv strict L own₁ k₁ ∧
    Confined L pid (some pid) p.ringPa own k own₁ k₁) ∧ k₁.Granting) ?_ ?_ _
    ⟨⟨own, h, .refl _ _ _ _ _ _⟩, hg⟩ hd).2
  · rintro k₁ k₂ addr ⟨hI, hg₁⟩ hs
    obtain ⟨p₁, hp₁, hring₁, hr₁⟩ := hround hI
    obtain ⟨own₁, h₁, hc₁⟩ := hI
    obtain ⟨own₂, h₂, hc₂⟩ := h₁.processSqe hp₁ hring₁ hne hr₁ hs
    refine ⟨⟨own₂, h₂, hc₁.trans hp hr hc₂⟩, ?_⟩
    obtain ⟨ringPa, child, hring, ho⟩ := Kernel.processSqe_cases hs
    rw [Processes.ringPa, hp₁, Option.map_some] at hring
    obtain rfl := Option.some.inj hring
    have hlog : ∀ e, Inv strict L own₁ (k₁.log e) := fun e ↦
      h₁.of_mem_eq (.of_quiet (k₁.log_quiet e)) rfl
    refine Kernel.Granting.outcome (hg₁.of_same (.of_quiet (k₁.log_quiet _)) rfl) (hlog _) hp₁ ?_
      hr₁ ho
    rwa [hring₁]
  · rintro k₁ v ⟨hI, hg₁⟩
    obtain ⟨p₁, hp₁, hring₁, -⟩ := hround hI
    obtain ⟨own₁, h₁, hc₁⟩ := hI
    obtain ⟨h₂, hc₂⟩ : Inv strict L own₁ (k₁.ringStore p.ringPa offSqHead 4 v) ∧
        Confined L pid (some pid) p.ringPa own₁ k₁ own₁ (k₁.ringStore p.ringPa offSqHead 4 v) :=
      h₁.ringWritten hp₁ hring₁ hne (k₁.ringStore_quiet ..) rfl (k₁.ringStore_eqOn (by decide))
    refine ⟨⟨own₁, h₂, hc₁.trans hp hr hc₂⟩, ?_⟩
    rw [← hring₁] at hc₂ ⊢
    exact hg₁.confined h₁ hp₁ hc₂ rfl

/-- A new ring takes an entry that is not one of the ranges'. -/
theorem Kernel.Granting.setupRing (hg : k.Granting) (h : Inv strict L own k)
    (hp : k.processes[pid]? = some p) (hl : p.live = true) (hs : k.setupRing pid = some k') :
    k'.Granting := by
  rcases h.setupRing hp hl hs with ⟨-, rfl⟩ | ⟨hring, own', frame, phys, hk', -, hkept, -⟩
  · exact hg
  rw [setupRing_eq hp hring, l0Ptr, h.root_mask (Inv.root_of_live hp hl)] at hs
  obtain ⟨⟨f, s⟩, hadd, hs⟩ := Option.map_eq_some_iff.mp hs
  obtain ⟨-, -, hleaves, -⟩ := h.owned.addPage_built (Inv.root_of_live hp hl) (ringPage_ok pid) hadd
  have hphys : s = phys := congrArg Kernel.phys (hs.trans hk')
  subst hk'
  refine hg.of_kept fun i q' hq' hl' ↦ ?_
  rw [Processes.setRing, List.getElem?_modify] at hq'
  obtain ⟨q, hq, rfl⟩ := Option.map_eq_some_iff.mp hq'
  by_cases hi : pid = i
  · subst hi
    obtain rfl := Option.some.inj (hp.symm.trans hq)
    simp only [if_true] at hl' ⊢
    exact ⟨p, _, hp, hl, rfl, rfl, .inr rfl, hphys ▸ hleaves⟩
  · simp only [if_neg hi] at hl' ⊢
    refine ⟨q, [], hq, hl', rfl, rfl, .inl rfl, h.leavesKept hq hl' fun g path hmg hog ↦ ?_⟩
    refine (hkept g hmg (by rw [hog]; rintro ⟨⟩) fun q ↦ ?_).2
    rw [hog]
    simpa using fun he ↦ absurd he.symm hi

/-- The end of another process. -/
theorem Kernel.Granting.teardown (hg : k.Granting) (h : Inv True L own k)
    (hp : k.processes[pid]? = some p) (hl : p.live = true) (hne : p.parent ≠ some pid)
    (hroot : k.ttbr0 = p.ttbr0) {code : Int} (ht : k.teardown pid code = some k') :
    k'.Granting := by
  have htables : ∀ (g i : Nat) (q : List Nat), i ≠ pid → Managed L.start g →
      own g = .node (some i) q → Set.EqOn k'.mem k.mem (frameAt g) := fun g i q hi hg hog ↦
    h.teardown_tables hp hl hne hroot ht hg hog (by simpa using hi)
  obtain ⟨k₁, msg, hrep, rfl⟩ := Kernel.teardown_cases hp hne ht
  refine hg.of_kept fun i q' hq' hl' ↦ ?_
  rw [Kernel.kprintln_processes, Kernel.activate_processes] at hq'
  have hi : i ≠ pid := by
    rintro rfl
    rw [ExitReport.getElem?_husk hp hne hrep] at hq'
    obtain rfl := Option.some.inj hq'
    cases hl'
  have hsp := ExitReport.map_of_ne hrep Process.space (fun _ ↦ rfl) hi
  rw [hq', Option.map_some] at hsp
  obtain ⟨q, hq, he⟩ := Option.map_eq_some_iff.mp hsp.symm
  simp only [Process.space, Prod.mk.injEq] at he
  have hlq : q.live = true := by rwa [Process.live, he.2.1]
  exact ⟨q, [], hq, hlq, he.1.symm, he.2.2.2.2.symm, .inl rfl, h.leavesKept hq hlq
    fun g path ↦ htables g i path hi⟩

/-- The parked reads that the UART interrupt completes. -/
theorem Kernel.Granting.pollPending (hg : k.Granting) (h : LifeInv L k)
    (hk : k.pollPending = some k') : k'.Granting := by
  rcases h.pollPending_cases hk with
    rfl | ⟨pid, p, i₁, k₂, completed, i₃, own, -, hp, -, -, hloop, -, -, hc, h₁, rfl⟩
  · exact hg
  · have hlen := Kernel.pollPendingFrom_length hloop
    have hg₁ : ({ k with installed := i₁, ttbr0 := p.ttbr0 } : Kernel).Granting :=
      hg.of_same ⟨rfl, fun _ ↦ rfl, rfl, rfl, rfl⟩ rfl
    have hg₂ := hg₁.confined h₁ hp hc hlen
    have hg₃ : ({ k₂ with installed := i₃, ttbr0 := k.ttbr0 } : Kernel).Granting :=
      hg₂.of_same ⟨rfl, fun _ ↦ rfl, rfl, rfl, rfl⟩ rfl
    cases completed with
    | false => exact hg₃
    | true =>
      exact hg₃.of_same (.modify (f := fun q ↦ { q with ringWaiter := none }) (fun _ ↦ rfl) _ pid _)
        rfl

/-- **Everything the kernel does keeps the ranges mapped.** -/
theorem Kernel.Granting.step (hg : k.Granting) (h : LifeInv L k) {op : ServeOp}
    (hop : op.Linked k) (hs : serveStep k op = some k') : k'.Granting := by
  obtain ⟨own, hinv⟩ := h.inv
  have hactive : ∀ root, (k.activate root).Granting := fun root ↦ by
    rw [k.activate_eq root]
    exact hg.of_same ⟨rfl, fun _ ↦ rfl, rfl, rfl, rfl⟩ rfl
  -- an operation of a process runs with its space installed
  have hown : ∀ {pid : Nat} {f : Kernel → Option Kernel}, k.asProcess pid f = some k' →
      ∃ p k₀ own, k₀.processes[pid]? = some p ∧ p.live = true ∧ k₀.ttbr0 = p.ttbr0 ∧
        k₀.roots (some pid) = some k₀.ttbr0 ∧ f k₀ = some k' ∧ Inv True L own k₀ ∧
        p.parent ≠ some pid ∧ k₀.Granting := fun {pid f} hf ↦ by
    obtain ⟨p, hp, hl, hf⟩ := Kernel.asProcess_eq_some hf
    have hroot := Kernel.activate_ttbr0 h.synced (hinv.root_ne_zero hp hl)
    obtain ⟨⟨own₀, hinv₀⟩, -, hpar⟩ := h.activate p.ttbr0
    have hp₀ : (k.activate p.ttbr0).processes[pid]? = some p := by rw [k.activate_processes, hp]
    exact ⟨p, _, own₀, hp₀, hl, hroot, hroot.symm ▸ Inv.root_of_live hp₀ hl, hf, hinv₀,
      fun he ↦ Nat.lt_irrefl _ (hpar pid p pid hp₀ he), hactive _⟩
  cases op with
  | create image =>
    rw [serveStep, lifeStep] at hs
    obtain ⟨⟨root, s₁⟩, hroot, hs⟩ := Option.bind_eq_some_iff.mp hs
    obtain ⟨⟨i, k₁⟩, hcreate, hs⟩ := Option.bind_eq_some_iff.mp hs
    obtain rfl := Option.some.inj hs
    obtain ⟨⟨loaded, frames, s₂⟩, hspace, hcreate⟩ := Option.bind_eq_some_iff.mp hcreate
    obtain ⟨-, rfl⟩ := Prod.mk.inj (Option.some.inj hcreate)
    exact hg.create hroot hspace hinv hop rfl
  | foreground =>
    rw [serveStep] at hs
    split at hs
    · rw [Option.ite_none_right_eq_some] at hs
      obtain rfl := Option.some.inj hs.2
      exact hg.of_same (.modify (f := fun q ↦ { q with foreground := true }) (fun _ ↦ rfl)
        _ 0 _) rfl
    · cases hs
  | setup pid =>
    rw [serveStep, lifeStep] at hs
    obtain ⟨p, k₀, own₀, hp, hl, -, -, hf, hinv₀, -, hg₀⟩ := hown hs
    exact hg₀.setupRing hinv₀ hp hl hf
  | store pid va n v =>
    rw [serveStep, lifeStep] at hs
    obtain ⟨p, k₀, own₀, hp, hl, -, hr, hf, hinv₀, -, hg₀⟩ := hown hs
    obtain ⟨-, pid', p', va', f, hid, hp', hmem, -, hfit, rfl⟩ := hinv₀.userStore hr hf
    obtain ⟨hmf, hof⟩ := hinv₀.ofFrames hp' hmem
    refine hg₀.of_kept fun i q hq hlq ↦ ⟨q, [], hq, hlq, rfl, rfl, .inl rfl,
      hinv₀.leavesKept hq hlq fun g path hmg hog ↦ ?_⟩
    refine eqOn_frameAt hmf.aligned hmg.aligned ?_
      (Mem.store_eqOn (by omega) (by rw [frameSize]; omega))
    rintro rfl
    rw [hof] at hog
    cases hog
  | drain pid =>
    rw [serveStep, lifeStep] at hs
    obtain ⟨p, k₀, own₀, hp, hl, -, hr, hf, hinv₀, -, hg₀⟩ := hown hs
    exact hg₀.drain hinv₀ hp hr hf
  | wakeup pid on =>
    obtain ⟨p, hp, hs⟩ := Option.bind_eq_some_iff.mp hs
    rw [Option.ite_none_left_eq_some] at hs
    obtain ⟨hne, hs⟩ := hs
    obtain rfl := Option.some.inj hs
    obtain ⟨-, hc⟩ : Inv True L own (k.ringStore p.ringPa offFlags 4 (Machine.flagValue on)) ∧
        Confined L pid (some pid) p.ringPa own k own
          (k.ringStore p.ringPa offFlags 4 (Machine.flagValue on)) :=
      hinv.ringWritten hp rfl hne (k.ringStore_quiet ..) rfl (k.ringStore_eqOn (by decide))
    exact hg.confined hinv hp hc rfl
  | wait pid task =>
    obtain rfl := Option.some.inj hs
    exact hg.of_same (.modify (f := fun q ↦ { q with ringWaiter := some task }) (fun _ ↦ rfl)
      _ pid _) rfl
  | uart bytes =>
    rw [serveStep, Option.ite_none_right_eq_some, uartIrq_eq] at hs
    have hg₁ := hg.of_same (.of_quiet (received_quiet k bytes)) rfl
    exact hg₁.pollPending (h.received bytes) hs.2
  | teardown pid code =>
    rw [serveStep, lifeStep] at hs
    obtain ⟨p, k₀, own₀, hp, hl, hroot, -, hf, hinv₀, hne, hg₀⟩ := hown hs
    exact hg₀.teardown hinv₀ hp hl hne hroot hf
  | dispatch sched poller ticks root =>
    obtain rfl := Option.some.inj hs
    exact (hactive root).of_same ⟨rfl, fun _ ↦ rfl, rfl, rfl, rfl⟩ rfl
  | message s =>
    obtain rfl := Option.some.inj hs
    exact hg.of_same (.of_quiet (k.kprintln_quiet s)) rfl

end Granting

/-! ## Accepted pointers -/

theorem granting_of_serve {programs : List (String × List UInt8)} {k : Kernel}
    (hprog : ∀ q ∈ programs, Elf.InUserSlot q.2)
    (hk : (serve programs).Reach ServeOp.Linked k) : k.Granting := by
  refine hk.invariant_of (I := Kernel.Granting) (fun k h ↦ lifeInv_of_serve hprog h) ?_ ?_
  · intro k hinit pid p hp
    rw [(serve_init hinit).1] at hp
    cases hp
  · rintro k op k' ⟨L, h⟩ hg hop hs
    exact hg.step h hop hs

/-- The descriptor lets EL0 read, and write if it is asked to. -/
def El0Access (w : Bool) (e : Nat) : Prop :=
  (e &&& apMask = apEl0Ro ∨ e &&& apMask = apEl0Rw) ∧ (w = true → e &&& apMask = apEl0Rw)

theorem El0Access.of_perms {f : Nat} (hf : f % 4096 = 0) (b : Bool) {w : Bool}
    (hw : w = true → b = true) : El0Access w (f ||| if b then pageUserRw else pageUserRx) := by
  rw [El0Access, or_and_apMask hf]
  cases b with
  | true => exact ⟨.inr rfl, fun _ ↦ rfl⟩
  | false => exact ⟨.inl rfl, fun h ↦ absurd (hw h) Bool.false_ne_true⟩

/-- The pages of an accepted range are among those that are mapped, with its permissions. -/
theorem isUserRange_page {ps : List Process} {pid ptr len x : Nat} {p : Process} {w : Bool}
    (hp : ps[pid]? = some p) (h : Processes.isUserRange ps pid ptr len w = some true)
    (hlo : ptr ≤ x) (hhi : x < ptr + len) : ∃ b : Bool, (w = true → b = true) ∧
      (x / 4096 * 4096, if b then pageUserRw else pageUserRx) ∈ p.loaded.pageFlags := by
  rcases (isUserRange_cases hp h).2 with ⟨hstart, hstop⟩ | ⟨rg, hrg, hw, hstart, hstop⟩
  · refine ⟨true, fun _ ↦ rfl, List.mem_append_right _ (List.mem_singleton.mpr ?_)⟩
    have hsize : userStackSize = 4096 := rfl
    have hal : userStackVa % 4096 = 0 := by decide
    rw [show x / 4096 * 4096 = userStackVa by omega]
    rfl
  · refine ⟨rg.writable, hw, List.mem_append_left _ (List.mem_flatMap.mpr ⟨rg, hrg, ?_⟩)⟩
    exact List.mem_map.mpr ⟨_, Range.mem_pageVas (by omega) (by omega), rfl⟩

/-- So the addresses of an accepted range can be followed. -/
theorem Kernel.Granting.descriptor {strict : Prop} {L : Layout} {own : Nat → Owner} {k : Kernel}
    (hg : k.Granting) (h : Inv strict L own k) {pid ptr len x : Nat} {p : Process} {w : Bool}
    (hp : k.processes[pid]? = some p) (hl : p.live = true) (hplaced : p.loaded.Placed)
    (hacc : Processes.isUserRange k.processes pid ptr len w = some true) (hlo : ptr ≤ x)
    (hhi : x < ptr + len) : ∃ e, descriptorAt k.mem p.ttbr0 x = some e ∧ El0Access w e := by
  obtain ⟨b, hb, hmem⟩ := isUserRange_page hp hacc hlo hhi
  obtain ⟨t, f, hf, ht, he⟩ := hg pid p hp hl hplaced _ hmem
  obtain ⟨hlt, -⟩ := hplaced.of_pageFlags hmem pid
  have htype : (f ||| if b then pageUserRw else pageUserRx) &&& descPage = descPage := by
    refine or_and_three hf ?_
    cases b <;> decide
  have hmask := h.root_mask (Inv.root_of_live hp hl)
  exact ⟨_, descriptorAt_of_entry hmask (by omega) ht he htype hlt, .of_perms hf b hb⟩

/-- **`is_user_range` is sound against the page tables.**  In every state of a run, for a process
that is not torn down and whose ranges overlap neither each other nor the stack nor the ring: every
address of an accepted range leads to a last-level descriptor that lets EL0 read, and write if that
was asked for; and every part of the range that is not empty is accepted as well. -/
theorem user_ranges_sound {programs : List (String × List UInt8)} {k : Kernel}
    (hprog : ∀ q ∈ programs, Elf.InUserSlot q.2)
    (hk : (serve programs).Reach ServeOp.Linked k) {pid : Nat} {p : Process}
    (hp : k.processes[pid]? = some p) (hl : p.live = true) (hplaced : p.loaded.Placed)
    {ptr len : Nat} {w : Bool} (h : Processes.isUserRange k.processes pid ptr len w = some true) :
    (∀ x, ptr ≤ x → x < ptr + len →
      ∃ e, descriptorAt k.mem p.ttbr0 x = some e ∧ El0Access w e) ∧
    ∀ ptr' len', 0 < len' → ptr ≤ ptr' → ptr' + len' ≤ ptr + len →
      Processes.isUserRange k.processes pid ptr' len' w = some true := by
  refine ⟨fun x hlo hhi ↦ ?_,
    fun ptr' len' hpos hlo hhi ↦ hplaced.noOverlap.subrange hp h hpos hlo hhi⟩
  obtain ⟨L, hlife⟩ := lifeInv_of_serve hprog hk
  obtain ⟨own, hinv⟩ := hlife.inv
  exact (granting_of_serve hprog hk).descriptor hinv hp hl hplaced h hlo hhi

/-! ### Code and data side by side -/

/-- A program header for a page of zeros. -/
def pageHeader (flags vaddr : Nat) : List UInt8 :=
  bytesLe 4 Elf.ptLoad ++ bytesLe 4 flags ++ bytesLe 8 0 ++ bytesLe 8 vaddr ++ bytesLe 8 vaddr ++
  bytesLe 8 0 ++ bytesLe 8 4096 ++ bytesLe 8 4096

/-- An image with a read-execute page and a read-write page right behind it. -/
def codeDataImage : List UInt8 :=
  [0x7f, 0x45, 0x4c, 0x46, 2] ++ List.replicate 11 0 ++ bytesLe 2 2 ++ bytesLe 2 0xB7 ++
  bytesLe 4 1 ++ bytesLe 8 userBase ++ bytesLe 8 64 ++ bytesLe 8 0 ++ bytesLe 4 0 ++
  bytesLe 2 64 ++ bytesLe 2 56 ++ bytesLe 2 2 ++ List.replicate 6 0 ++
  pageHeader Elf.pfX userBase ++ pageHeader Elf.pfW (userBase + 4096)

/-- Its first segment. -/
def codeSegment : Elf.Segment :=
  { memsz := 4096, filesz := 0, vaddr := userBase, offset := 0, flags := Elf.pfX }

/-- Its second segment. -/
def dataSegment : Elf.Segment :=
  { memsz := 4096, filesz := 0, vaddr := userBase + 4096, offset := 0, flags := Elf.pfW }

/-- What loading it returns. -/
def codeDataLoaded : Loaded where
  entry := userBase
  ranges := [⟨userBase, userBase + 4096, false⟩, ⟨userBase + 4096, userBase + 8192, true⟩]

/-- The pages of a segment of one page without contents. -/
def Elf.Segment.zeroPage (seg : Elf.Segment) : PageSpec :=
  { va := seg.vaddr, bytes := List.replicate 4096 0, flags := seg.perms }

theorem plan_codeDataImage : Elf.plan codeDataImage =
    some (codeDataLoaded, [codeSegment.zeroPage, dataSegment.zeroPage]) := by
  have hvalid : Elf.validate codeDataImage = some userBase := by decide +kernel
  have hsegs : Elf.segments codeDataImage = some [codeSegment, dataSegment] := by decide
  have hcode : codeSegment.plan codeDataImage = some [codeSegment.zeroPage] :=
    Elf.Segment.plan_one (by decide) (Elf.segPage_zero ..) (by decide) (by decide)
  have hdata : dataSegment.plan codeDataImage = some [dataSegment.zeroPage] :=
    Elf.Segment.plan_one (by decide) (Elf.segPage_zero ..) (by decide) (by decide)
  simp only [Elf.plan, hvalid, hsegs, Elf.planSegments, hcode, hdata, Option.bind_eq_bind,
    Option.bind_some, guard]
  rfl

theorem inUserSlot_codeDataImage : Elf.InUserSlot codeDataImage := by
  have hoff : Elf.readU64 codeDataImage Elf.ePhoff = some 64 := by decide
  have hsize : Elf.readU16 codeDataImage Elf.ePhentsize = some 56 := by decide
  have hnum : Elf.readU16 codeDataImage Elf.ePhnum = some 2 := by decide
  have hcode : Elf.readSegment codeDataImage 64 = some (some codeSegment) := by decide +kernel
  have hdata : Elf.readSegment codeDataImage 120 = some (some dataSegment) := by decide +kernel
  intro phoff phentsize phnum hoff' hsize' hnum' n hn seg hseg
  obtain rfl := Option.some.inj (hoff.symm.trans hoff')
  obtain rfl := Option.some.inj (hsize.symm.trans hsize')
  obtain rfl := Option.some.inj (hnum.symm.trans hnum')
  obtain rfl | rfl : n = 0 ∨ n = 1 := by omega
  · obtain rfl := Option.some.inj (Option.some.inj (hcode.symm.trans hseg))
    exact ⟨by decide, by decide⟩
  · obtain rfl := Option.some.inj (Option.some.inj (hdata.symm.trans hseg))
    exact ⟨by decide, by decide⟩

theorem placed_codeDataLoaded : codeDataLoaded.Placed := ⟨by decide, by decide⟩

/-- A process with code and data side by side, and a ring. -/
theorem exists_codeData : ∃ k p, FirstRing [] codeDataLoaded k p := by
  have hprog : ∀ q ∈ ([] : List (String × List UInt8)), Elf.InUserSlot q.2 := by simp
  obtain ⟨k, p, h⟩ :=
    exists_firstProcess hprog inUserSlot_codeDataImage plan_codeDataImage (by decide)
  exact h.setup hprog

/-- Its data can be written all over. -/
theorem data_range_sound : ∃ (k : Kernel) (p : Process),
    (serve []).Reach ServeOp.Linked k ∧ k.processes[0]? = some p ∧ p.ringPa ≠ 0 ∧
    Processes.isUserRange k.processes 0 (userBase + 4096) 100 true = some true ∧
    (∀ x, userBase + 4096 ≤ x → x < userBase + 4096 + 100 →
      ∃ e, descriptorAt k.mem p.ttbr0 x = some e ∧ El0Access true e) ∧
    Processes.isUserRange k.processes 0 (userBase + 4100) 1 true = some true := by
  obtain ⟨k, p, h⟩ := exists_codeData
  obtain ⟨root, frames, hentry⟩ := h.entry
  have hp : k.processes[0]? = some p := by rw [h.processes]; rfl
  have hl : p.live = true := by rw [hentry]; rfl
  have hloaded : p.loaded = codeDataLoaded := by rw [hentry]; rfl
  have hacc : Processes.isUserRange k.processes 0 (userBase + 4096) 100 true = some true := by
    rw [Processes.isUserRange, hp, Option.map_some, hloaded]
    decide
  have hsound := user_ranges_sound (by simp) h.reach hp hl (hloaded ▸ placed_codeDataLoaded) hacc
  exact ⟨k, p, h.reach, hp, h.ring, hacc, hsound.1,
    hsound.2 _ 1 (by decide) (by decide) (by decide)⟩

/-- **An empty part of an accepted range may be refused**: at the start of the data it also lies in
the code, which is looked at first and cannot be written. -/
theorem empty_part_refused : ∃ (k : Kernel) (p : Process),
    (serve []).Reach ServeOp.Linked k ∧ k.processes[0]? = some p ∧ p.live = true ∧
    p.loaded.Placed ∧
    Processes.isUserRange k.processes 0 (userBase + 4096) 100 true = some true ∧
    Processes.isUserRange k.processes 0 (userBase + 4096) 0 true = some false := by
  obtain ⟨k, p, h⟩ := exists_codeData
  obtain ⟨root, frames, hentry⟩ := h.entry
  have hp : k.processes[0]? = some p := by rw [h.processes]; rfl
  have hloaded : p.loaded = codeDataLoaded := by rw [hentry]; rfl
  refine ⟨k, p, h.reach, hp, by rw [hentry]; rfl, hloaded ▸ placed_codeDataLoaded, ?_, ?_⟩
  · rw [Processes.isUserRange, hp, Option.map_some, hloaded]
    decide
  · rw [Processes.isUserRange, hp, Option.map_some, hloaded]
    decide

end Jatuli

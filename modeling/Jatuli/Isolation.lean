import Jatuli.Boot
import Jatuli.Effects
import Jatuli.Loading
import Jatuli.Teardown

/-!
# Isolation

The ownership record for a kernel: the spaces are the kernel's own and those of the processes that
have not been torn down, and the pages of a process are the entries of its `frames`.  `Inv` is the
invariant all results about memory rest on.  It is kept by everything the kernel does with a live
root; the lemmas here go operation by operation.
-/

set_option autoImplicit false

namespace Jatuli

/-- What of a process its address space depends on. -/
def Process.space (p : Process) : Nat × Option Int × List (Nat × Nat) × Nat × Loaded :=
  (p.ttbr0, p.exitCode, p.frames, p.ringPa, p.loaded)

namespace Kernel

/-- The roots of the spaces there are. -/
def roots (k : Kernel) : Option Nat → Option Nat
  | none => some k.kernelTtbr0
  | some pid => k.processes[pid]?.bind fun p ↦ if p.live then some p.ttbr0 else none

/-- The pages of the spaces; those of the kernel are the pages of its heap. -/
def pages (k : Kernel) (heap : List (Nat × Nat)) : Option Nat → List (Nat × Nat)
  | none => heap
  | some pid => (k.processes[pid]?.map (·.frames)).getD []

theorem roots_some {k : Kernel} {pid r : Nat} : k.roots (some pid) = some r ↔
    ∃ p, k.processes[pid]? = some p ∧ p.live = true ∧ p.ttbr0 = r := by
  rw [roots, Option.bind_eq_some_iff]
  refine exists_congr fun p ↦ and_congr_right fun _ ↦ ?_
  split <;> simp [*]

theorem mem_pages {k : Kernel} {heap : List (Nat × Nat)} {pid va f : Nat} {p : Process}
    (hp : k.processes[pid]? = some p) : (va, f) ∈ k.pages heap (some pid) ↔ (va, f) ∈ p.frames := by
  rw [pages, hp]
  rfl

section Congr

variable {k k' : Kernel} {pid : Nat}
  (h : k'.processes[pid]?.map Process.space = k.processes[pid]?.map Process.space)
include h

/-- A process with the same space has the same root. -/
theorem roots_congr : k'.roots (some pid) = k.roots (some pid) := by
  rw [roots, roots]
  cases hp : k.processes[pid]? with
  | none =>
    rw [hp] at h
    rw [Option.map_eq_none_iff.mp h]
  | some p =>
    rw [hp] at h
    obtain ⟨p', hp', he⟩ := Option.map_eq_some_iff.mp h
    simp only [Process.space, Prod.mk.injEq] at he
    have hlive : p'.live = p.live := by rw [Process.live, Process.live, he.2.1]
    simp only [hp', Option.bind_some, hlive, he.1]

theorem pages_congr (heap : List (Nat × Nat)) :
    k'.pages heap (some pid) = k.pages heap (some pid) := by
  have hsp := congrArg (Option.map fun x ↦ x.2.2.1) h
  rw [Option.map_map, Option.map_map] at hsp
  exact congrArg (·.getD []) hsp

end Congr

end Kernel

/-- What holds of each process: nothing is left of a dead one; the pages of a live one are its
stack, its ring and pages of its segments; and its ring is where it says it is. -/
structure ProcOk (m : Mem) (p : Process) : Prop where
  dead : p.live = false → p.frames = [] ∧ p.ringPa = 0
  pagesOf : ∀ va f, (va, f) ∈ p.frames → va % 4096 = 0 ∧
    (va = userStackVa ∨ va = userRingVa ∧ f = p.ringPa ∨
      ∃ rg ∈ p.loaded.ranges, rg.start ≤ va ∧ va < rg.stop)
  ring : p.ringPa ≠ 0 → (userRingVa, p.ringPa) ∈ p.frames ∧
    ∃ t, walk m p.ttbr0 (tablePath userRingVa) = some t ∧
      entry m t (tableIndex userRingVa 12) = p.ringPa ||| pageUserRw

/-- What boot leaves behind for good. -/
structure Layout where
  /-- The first frame the allocator manages. -/
  start : Nat
  /-- The pages of the kernel's heap. -/
  heap : List (Nat × Nat)
  /-- The frames of the kernel's own tables. -/
  tables : Set Nat

/-- What holds of the kernel's own space. -/
structure KernelOk (L : Layout) (m : Mem) (l0 l1 : Nat) : Prop where
  /-- The heap is mapped, for the kernel only. -/
  heap : HeapMapped m l0 heapSize L.heap
  /-- The L1 that all spaces share is in slot 0 of the root. -/
  l1 : walk m l0 [0] = some l1
  /-- The blocks of the identity map are for the kernel only. -/
  blocks : ∀ g ∈ L.tables, Managed L.start g → ∀ i < 512,
    entry m g i &&& descTable = descBlock → entry m g i &&& apEl0Rw = 0

/-- **The isolation invariant**, with the record `own` that memory agrees with. -/
structure Inv (strict : Prop) (L : Layout) (own : Nat → Owner) (k : Kernel) : Prop where
  owned : Owned strict L.start k.kernelL1 k.roots (k.pages L.heap) own k.phys
  /-- No frame is in between two uses. -/
  noHeld : strict → ∀ g, Managed L.start g → own g ≠ .held
  tables : ∀ g, Managed L.start g → ((∃ q, own g = .node none q) ↔ g ∈ L.tables)
  kernel : KernelOk L k.mem k.kernelTtbr0 k.kernelL1
  proc : ∀ {pid : Nat} {p : Process}, k.processes[pid]? = some p → ProcOk k.mem p
  /-- The embedded programs are linked for the user slot. -/
  programs : ∀ q ∈ k.programs, Elf.InUserSlot q.2

/-- Frames in use that satisfy `P` keep their use and their contents. -/
def Kept (start : Nat) (P : Nat → Prop) (own own' : Nat → Owner) (m m' : Mem) : Prop :=
  ∀ g, Managed start g → own g ≠ .free → P g → own' g = own g ∧ Set.EqOn m' m (frameAt g)

theorem Kept.refl (start : Nat) (P : Nat → Prop) (own : Nat → Owner) (m : Mem) :
    Kept start P own own m m := fun _ _ _ _ ↦ ⟨rfl, Set.eqOn_refl _ _⟩

/-- `k'` has the same spaces as `k`. -/
structure SameSpaces (k k' : Kernel) : Prop where
  frames : k'.phys.frames = k.phys.frames
  space : ∀ pid : Nat, k'.processes[pid]?.map Process.space = k.processes[pid]?.map Process.space
  kernelL1 : k'.kernelL1 = k.kernelL1
  kernelTtbr0 : k'.kernelTtbr0 = k.kernelTtbr0
  programs : k'.programs = k.programs

namespace SameSpaces

variable {k k' : Kernel}

theorem of_quiet (h : Quiet k k') : SameSpaces k k' :=
  ⟨h.frames, fun _ ↦ by rw [h.processes], h.kernelL1, h.kernelTtbr0, h.programs⟩

/-- A process of one is a process of the other, with the same space. -/
theorem getElem? (h : SameSpaces k k') {pid : Nat} {p' : Process}
    (hp : k'.processes[pid]? = some p') :
    ∃ p, k.processes[pid]? = some p ∧ p'.space = p.space := by
  have hsp := h.space pid
  rw [hp, Option.map_some] at hsp
  obtain ⟨p, hp, he⟩ := Option.map_eq_some_iff.mp hsp.symm
  exact ⟨p, hp, he.symm⟩

theorem roots (h : SameSpaces k k') : k'.roots = k.roots := by
  funext id
  cases id with
  | none => rw [Kernel.roots, Kernel.roots, h.kernelTtbr0]
  | some pid => exact Kernel.roots_congr (h.space pid)

theorem pages (h : SameSpaces k k') (heap : List (Nat × Nat)) : k'.pages heap = k.pages heap := by
  funext id
  cases id with
  | none => rfl
  | some pid => exact Kernel.pages_congr (h.space pid) heap

end SameSpaces

theorem ProcOk.congr {m m' : Mem} {p p' : Process} (h : ProcOk m p) (hsp : p'.space = p.space)
    (hring : p.ringPa ≠ 0 → ∀ t, walk m p.ttbr0 (tablePath userRingVa) = some t →
      walk m' p.ttbr0 (tablePath userRingVa) = some t ∧
        entry m' t (tableIndex userRingVa 12) = entry m t (tableIndex userRingVa 12)) :
    ProcOk m' p' := by
  simp only [Process.space, Prod.mk.injEq] at hsp
  obtain ⟨h1, h2, h3, h4, h5⟩ := hsp
  refine ⟨?_, ?_, ?_⟩
  · rw [Process.live, h2, h3, h4]
    exact h.dead
  · rw [h3, h4, h5]
    exact h.pagesOf
  · rw [h4, h3, h1]
    intro hne
    obtain ⟨hmem, t, ht, he⟩ := h.ring hne
    obtain ⟨ht', he'⟩ := hring hne t ht
    exact ⟨hmem, t, ht', he'.trans he⟩

/-! ## What the invariant says about single frames -/

section Access

variable {strict : Prop} {L : Layout} {own : Nat → Owner} {k k' : Kernel} {pid : Nat} {p : Process}

/-- A walk to the last-level table of an address, and the entry there, depend on tables only. -/
theorem TreeOk.leafEntry_congr {start kernelL1 : Nat} {m m' : Mem}
    {roots : Option Nat → Option Nat} {id : Option Nat} {r va t : Nat}
    (h : TreeOk strict start kernelL1 roots own m) (hr : roots id = some r)
    (hm : ∀ f p, Managed start f → own f = .node id p → Set.EqOn m' m (frameAt f))
    (hva : tableIndex va 39 = slotOf id) (ht : walk m r (tablePath va) = some t) :
    walk m' r (tablePath va) = some t ∧
      entry m' t (tableIndex va 12) = entry m t (tableIndex va 12) := by
  have hin : InTree id (tablePath va) := ⟨le_rfl, (inside_pagePath hva).of_append⟩
  obtain ⟨hmt, hot⟩ := h.node hr hin ht
  refine ⟨?_, entry_congr (hm t _ hmt hot) (tableIndex_lt _ _)⟩
  rw [h.walk_congr hr hm (by have := hin.1; omega) hin.2, ht]

/-- A process with a ring has not been torn down. -/
theorem ProcOk.live {m : Mem} (h : ProcOk m p) (hring : p.ringPa ≠ 0) : p.live = true := by
  cases hl : p.live with
  | true => rfl
  | false => exact absurd (h.dead hl).2 hring

namespace Inv

/-- The frames of a process are its pages. -/
theorem ofFrames (h : Inv strict L own k) (hp : k.processes[pid]? = some p) {va f : Nat}
    (hf : (va, f) ∈ p.frames) : Managed L.start f ∧ own f = .page (some pid) := by
  refine ((h.owned.page (some pid)).2 f).mp (List.mem_map.mpr ⟨(va, f), ?_, rfl⟩)
  rwa [Kernel.mem_pages hp]

/-- The ring page of a process is one of its pages. -/
theorem ofRing (h : Inv strict L own k) (hp : k.processes[pid]? = some p) (hne : p.ringPa ≠ 0) :
    Managed L.start p.ringPa ∧ own p.ringPa = .page (some pid) :=
  h.ofFrames hp ((h.proc hp).ring hne).1

/-- Nobody else has the ring of a process. -/
theorem ringOwner_eq (h : Inv strict L own k) (hp : k.processes[pid]? = some p)
    (hne : p.ringPa ≠ 0) : k.ringOwner p.ringPa = some pid := by
  refine Kernel.ringOwner_of_inj hp ((h.proc hp).live hne) hne fun {j q} hq _ he ↦ ?_
  have hown := (h.ofRing hq (he ▸ hne)).2
  rw [he, (h.ofRing hp hne).2] at hown
  cases hown
  rfl

theorem root_of_live (hp : k.processes[pid]? = some p) (hl : p.live = true) :
    k.roots (some pid) = some p.ttbr0 := Kernel.roots_some.mpr ⟨p, hp, hl, rfl⟩

theorem image (h : Inv strict L own k) {name : String} {image : List UInt8}
    (himage : k.getProgram name = some image) : Elf.InUserSlot image := by
  obtain ⟨q, hq, rfl⟩ := Option.map_eq_some_iff.mp himage
  exact h.programs q (List.mem_of_find?_eq_some hq)

/-- Different spaces have different roots. -/
theorem roots_inj (h : Inv strict L own k) {i j : Option Nat} {r : Nat} (hi : k.roots i = some r)
    (hj : k.roots j = some r) : i = j := by
  have howner := (h.owned.tree.node hi (.nil _) rfl).2
  rw [(h.owned.tree.node hj (.nil _) rfl).2] at howner
  cases howner
  rfl

/-- The root of a space is its own output address. -/
theorem root_mask (h : Inv strict L own k) {id : Option Nat} {r : Nat} (hr : k.roots id = some r) :
    r &&& addrMask = r := by
  obtain ⟨hm, -⟩ := h.owned.tree.node hr (.nil _) rfl
  exact and_addrMask_of_aligned hm.aligned hm.lt

theorem kernelL1_managed (h : Inv strict L own k) : Managed L.start k.kernelL1 := by
  have hroot : k.roots none = some k.kernelTtbr0 := rfl
  exact (h.owned.tree.node hroot ⟨by simp, by simp [Inside, slotOf]⟩ h.kernel.l1).1

/-! ## Parts of the invariant, after a change of memory -/

/-- What is said of the kernel's space depends on the kernel's tables. -/
theorem kernel_congr (h : Inv strict L own k) {m' : Mem}
    (hm : ∀ g q, Managed L.start g → own g = .node none q → Set.EqOn m' k.mem (frameAt g)) :
    KernelOk L m' k.kernelTtbr0 k.kernelL1 := by
  have hroot : k.roots none = some k.kernelTtbr0 := rfl
  refine ⟨fun va f hmem ↦ ?_, ?_, fun g hgt hg i hi hb ↦ ?_⟩
  · obtain ⟨h1, h2, h3, t, ht, he⟩ := h.kernel.heap va f hmem
    obtain ⟨ht', he'⟩ := h.owned.tree.leafEntry_congr hroot hm (h.owned.slot none va f hmem).2 ht
    exact ⟨h1, h2, h3, t, ht', he'.trans he⟩
  · rw [h.owned.tree.walk_congr hroot hm (by simp) (by simp [Inside, slotOf])]
    exact h.kernel.l1
  · obtain ⟨q, hog⟩ := (h.tables g hg).mpr hgt
    rw [entry_congr (hm g q hg hog) hi] at hb ⊢
    exact h.kernel.blocks g hgt hg i hi hb

/-- What is said of a process depends on its space and its tables. -/
theorem proc_congr (h : Inv strict L own k) (hp : k.processes[pid]? = some p) {p' : Process}
    (hsp : p'.space = p.space) {m' : Mem}
    (hm : ∀ g q, Managed L.start g → own g = .node (some pid) q → Set.EqOn m' k.mem (frameAt g)) :
    ProcOk m' p' := by
  refine (h.proc hp).congr hsp fun hring t ht ↦ ?_
  exact h.owned.tree.leafEntry_congr (root_of_live hp ((h.proc hp).live hring)) hm
    (tableIndex_userRingVa pid) ht

/-- **What may be written**: the invariant survives a change of memory that touches neither the
free list nor a table. -/
theorem write (h : Inv strict L own k) (hs : SameSpaces k k')
    (hm : ∀ g, Managed L.start g → (own g = .free ∨ ∃ id q, own g = .node id q) →
      Set.EqOn k'.mem k.mem (frameAt g)) : Inv strict L own k' := by
  have hnode : ∀ g id q, Managed L.start g → own g = .node id q →
      Set.EqOn k'.mem k.mem (frameAt g) := fun g id q hg hog ↦ hm g hg (.inr ⟨id, q, hog⟩)
  have hkernel := h.kernel_congr fun g q ↦ hnode g none q
  refine ⟨?_, h.noHeld, h.tables, ?_, fun {pid p'} hp' ↦ ?_, ?_⟩
  · have hw := h.owned.write (fun g hg hog ↦ hm g hg (.inl hog)) hnode
    have hphys : k'.phys = { mem := k'.mem, frames := k.phys.frames } := by rw [← hs.frames]
    rw [hs.kernelL1, hs.roots, hs.pages, hphys]
    exact hw
  · rwa [hs.kernelTtbr0, hs.kernelL1]
  · obtain ⟨p, hp, hsp⟩ := hs.getElem? hp'
    exact h.proc_congr hp hsp fun g q ↦ hnode g _ q
  · rw [hs.programs]
    exact h.programs

/-- A write to one page of one process. -/
theorem write_page (h : Inv strict L own k) (hs : SameSpaces k k')
    (hp : k.processes[pid]? = some p) {va f : Nat} (hf : (va, f) ∈ p.frames)
    (hm : Set.EqOn k'.mem k.mem (frameAt f)ᶜ) : Inv strict L own k' := by
  refine h.write hs fun g hg hog ↦ ?_
  obtain ⟨hmf, hof⟩ := h.ofFrames hp hf
  refine eqOn_frameAt hmf.aligned hg.aligned ?_ hm
  rintro rfl
  rcases hog with hog | ⟨id, q, hog⟩ <;> rw [hof] at hog <;> cases hog

/-- A change of something else than memory. -/
theorem of_mem_eq (h : Inv strict L own k) (hs : SameSpaces k k')
    (hm : k'.mem = k.mem) : Inv strict L own k' :=
  h.write hs fun _ _ _ ↦ by rw [hm]; exact Set.eqOn_refl _ _

theorem kprintln (h : Inv strict L own k) (s : String) : Inv strict L own (k.kprintln s) :=
  h.of_mem_eq ⟨rfl, fun _ ↦ rfl, rfl, rfl, rfl⟩ rfl

/-! ## Where a store with EL0 permissions lands -/

/-- The pages in the kernel's half of a space are pages of the heap. -/
theorem kernelHalf_page (h : Inv strict L own k) {va t f : Nat}
    (hva : tableIndex va 39 = 0) (ht : walk k.mem k.kernelTtbr0 (tablePath va) = some t)
    (hc : child k.mem t (tableIndex va 12) = some f) :
    Managed L.start f ∧ entry k.mem t (tableIndex va 12) = f ||| pageKernelRw := by
  have hw : walk k.mem k.kernelTtbr0 (pagePath va) = some f := by
    rw [pagePath, walk_concat, ht]
    exact hc
  obtain ⟨va', hmem, hpath⟩ := h.owned.leaf none _ _ f rfl rfl (inside_pagePath hva) hw
  obtain ⟨-, -, -, t', ht', he⟩ := h.kernel.heap va' f hmem
  have hsplit := List.append_inj hpath rfl
  rw [hsplit.1, ht] at ht'
  cases ht'
  rw [List.singleton_inj.mp hsplit.2] at he
  exact ⟨((h.owned.page none).2 f |>.mp (List.mem_map.mpr ⟨(va', f), hmem, rfl⟩)).1, he⟩

/-- Slot 0 of every root leads to the kernel's L1. -/
theorem slot0_child (h : Inv strict L own k) {id : Option Nat} {r : Nat}
    (hr : k.roots id = some r) : child k.mem r 0 = some k.kernelL1 := by
  cases id with
  | none =>
    cases hr
    obtain ⟨u, hu, hc⟩ := Radix.walk_concat_eq_some (p := []) h.kernel.l1
    cases hu
    exact hc
  | some pid =>
    have hm := h.kernelL1_managed
    rw [child_eq_some, h.owned.tree.slot0 hr]
    exact ⟨or_and_three hm.aligned (by decide), or_and_addrMask hm.aligned hm.lt (by decide)⟩

/-- So a walk through slot 0 is a walk in the kernel's space. -/
theorem walk_slot0 (h : Inv strict L own k) {id : Option Nat} {r : Nat}
    (hr : k.roots id = some r) (q : List Nat) :
    walk k.mem r (0 :: q) = walk k.mem k.kernelTtbr0 (0 :: q) := by
  rw [walk_cons_of_child (h.slot0_child hr),
    walk_cons_of_child (h.slot0_child (show k.roots none = some k.kernelTtbr0 from rfl))]

/-- **An EL0 store under the root of a space lands in a page of that space**, the one recorded for
the address; under the kernel's root there is no such store. -/
theorem el0Writable (h : Inv strict L own k) {id : Option Nat} {r va pa : Nat}
    (hr : k.roots id = some r) (hw : el0WritablePa k.mem r va = some pa) :
    ∃ pid p va' f, id = some pid ∧ k.processes[pid]? = some p ∧ (va', f) ∈ p.frames ∧
      va' / 4096 = va / 4096 ∧ pa = f + va % 4096 := by
  obtain ⟨hva, t, f, ht, hc, hap, rfl⟩ := el0WritablePa_eq_some (h.root_mask hr) hw
  have hfirst : walk k.mem r (tablePath va) = (child k.mem r (tableIndex va 39)).bind fun c ↦
      walk k.mem c [tableIndex va 30, tableIndex va 21] := rfl
  by_cases h0 : tableIndex va 39 = 0
  · exfalso
    have hk : walk k.mem k.kernelTtbr0 (tablePath va) = some t := by
      rw [tablePath, h0] at ht ⊢
      rw [← h.walk_slot0 hr, ht]
    obtain ⟨hmf, he⟩ := h.kernelHalf_page h0 hk hc
    rw [he, or_and_apMask hmf.aligned] at hap
    exact absurd hap (by decide)
  · by_cases h1 : tableIndex va 39 = slotOf id
    · cases id with
      | none => exact absurd h1 h0
      | some pid =>
        have hleaf : walk k.mem r (pagePath va) = some f := by
          rw [pagePath, walk_concat, ht]
          exact hc
        obtain ⟨va', hmem, hpath⟩ := h.owned.leaf _ r _ f hr rfl (inside_pagePath h1) hleaf
        obtain ⟨p, hp, -, -⟩ := Kernel.roots_some.mp hr
        have hf := (Kernel.mem_pages hp).mp hmem
        refine ⟨pid, p, va', f, rfl, hp, hf, ?_, or_and_low (h.ofFrames hp hf).1.aligned va⟩
        exact pagePath_inj (h.owned.slot _ va' f hmem).1 hva hpath
    · rw [hfirst, h.owned.tree.slots hr (tableIndex_lt _ _) h0 h1] at ht
      cases ht

end Inv

end Access

end Jatuli

import Jatuli.Confinement
import Jatuli.Progress
import Jatuli.Machine

/-!
# Every frame has one use

What the isolation invariant means in terms of the kernel's state alone, without the record it is
proved with: each frame is found in exactly one place, and what user code can reach is its own
pages.  `life` is the system whose steps are the operations that move frames: creating processes,
setting up rings, carrying out submissions, user stores and teardown, in any order.
-/

set_option autoImplicit false

namespace Jatuli

/-! ## Uses -/

/-- The first `n` frames of the list that starts at `head`. -/
def followLinks (m : Mem) : Nat → Nat → List Nat
  | 0, _ => []
  | n + 1, head => head :: followLinks m n (m.load head 8)

theorem followLinks_of_linked {m : Mem} {l : List Nat} {head : Nat} (h : m.Linked head l) :
    followLinks m l.length head = l := by
  induction l generalizing head with
  | nil => rfl
  | cons f l ih =>
    obtain ⟨rfl, -, hl⟩ := h
    rw [List.length_cons, followLinks, ih hl]

/-- A place where a frame can be in use. -/
inductive Use
  /-- At this position of the free list. -/
  | free (i : Nat)
  /-- A table of the kernel's own space or a page mapped there. -/
  | kernel
  /-- The table at this path of the address space of a process. -/
  | table (pid : Nat) (path : List Nat)
  /-- At this position of the `frames` of a process. -/
  | page (pid i : Nat)

namespace Kernel

/-- The free list. -/
def freeList (k : Kernel) : List Nat :=
  followLinks k.mem k.phys.frames.freeCount k.phys.frames.head

/-- The frame `f` is found in the given place. -/
def HasUse (k : Kernel) (f : Nat) : Use → Prop
  | .free i => k.freeList[i]? = some f
  | .kernel => ∃ path, path.length ≤ 4 ∧ Inside none path ∧ walk k.mem k.kernelTtbr0 path = some f
  | .table pid path => ∃ p, k.processes[pid]? = some p ∧ p.live = true ∧ InTree (some pid) path ∧
      walk k.mem p.ttbr0 path = some f
  | .page pid i => ∃ p va, k.processes[pid]? = some p ∧ p.live = true ∧ p.frames[i]? = some (va, f)

end Kernel

/-- The use the record has for a frame, as a place to find it. -/
def Owner.Names : Owner → Use → Prop
  | .free, .free _ => True
  | .node none _, .kernel => True
  | .page none, .kernel => True
  | .node (some pid) path, .table pid' path' => pid = pid' ∧ path = path'
  | .page (some pid), .page pid' _ => pid = pid'
  | _, _ => False

/-- Two places named by the same use differ in the position in a list at most. -/
theorem Owner.Names.cases {o : Owner} {u u' : Use} (h : o.Names u) (h' : o.Names u') :
    u = u' ∨ (∃ i j, u = .free i ∧ u' = .free j) ∨
      ∃ pid i j, u = .page pid i ∧ u' = .page pid j := by
  cases o with
  | free => cases u <;> cases u' <;> simp_all [Owner.Names]
  | held => exact absurd h (by simp [Owner.Names])
  | node id path => cases id <;> cases u <;> cases u' <;> simp_all [Owner.Names]
  | page id => cases id <;> cases u <;> cases u' <;> simp_all [Owner.Names]

namespace Inv

variable {L : Layout} {own : Nat → Owner} {k : Kernel} {pid : Nat} {p : Process} {f : Nat}
  {strict : Prop}

theorem mem_freeList (h : Inv strict L own k) :
    k.freeList.Nodup ∧ ∀ f, f ∈ k.freeList ↔ Managed L.start f ∧ own f = .free := by
  obtain ⟨fs, hl, hnd, hlen, hmem⟩ := h.owned.free
  rw [Kernel.freeList, ← hlen, followLinks_of_linked hl]
  exact ⟨hnd, hmem⟩

/-- A frame is found only where the record says. -/
theorem names_of_hasUse (h : Inv strict L own k) {u : Use} (hu : k.HasUse f u) :
    (own f).Names u := by
  cases u with
  | free i =>
    rw [(h.mem_freeList.2 f |>.mp (List.mem_of_getElem? hu)).2]
    trivial
  | kernel =>
    obtain ⟨path, hlen, hin, hw⟩ := hu
    by_cases h4 : path.length = 4
    · obtain ⟨va, hmem, -⟩ := h.owned.leaf none _ path f rfl h4 hin hw
      rw [((h.owned.page none).2 f |>.mp (List.mem_map.mpr ⟨_, hmem, rfl⟩)).2]
      trivial
    · rw [(h.owned.tree.node (show k.roots none = _ from rfl) ⟨by omega, hin⟩ hw).2]
      trivial
  | table pid path =>
    obtain ⟨p, hp, hl, hin, hw⟩ := hu
    rw [(h.owned.tree.node (root_of_live hp hl) hin hw).2]
    exact ⟨rfl, rfl⟩
  | page pid i =>
    obtain ⟨p, va, hp, -, hi⟩ := hu
    rw [(h.ofFrames hp (List.mem_of_getElem? hi)).2]
    rfl

/-- A frame the record names a use for is found there. -/
theorem exists_hasUse (h : Inv True L own k) (hf : Managed L.start f) : ∃ u, k.HasUse f u := by
  cases ho : own f with
  | free =>
    obtain ⟨i, hi⟩ := List.getElem?_of_mem ((h.mem_freeList.2 f).mpr ⟨hf, ho⟩)
    exact ⟨.free i, hi⟩
  | held => exact absurd ho (h.noHeld trivial f hf)
  | node id path =>
    obtain ⟨⟨r, hr⟩, hin⟩ := h.owned.tree.inSpace hf ho
    have hw := h.owned.tree.full trivial hf ho hr
    cases id with
    | none =>
      cases hr
      exact ⟨.kernel, path, by have := hin.1; omega, hin.2, hw⟩
    | some pid =>
      obtain ⟨p, hp, hl, rfl⟩ := Kernel.roots_some.mp hr
      exact ⟨.table pid path, p, hp, hl, hin, hw⟩
  | page id =>
    obtain ⟨⟨va, f'⟩, hmem, rfl⟩ := List.mem_map.mp (((h.owned.page id).2 f).mpr ⟨hf, ho⟩)
    cases id with
    | none =>
      obtain ⟨-, -, -, t, ht, he⟩ := h.kernel.heap va _ hmem
      refine ⟨.kernel, pagePath va, le_rfl, inside_pagePath (h.owned.slot none va _ hmem).2, ?_⟩
      rw [pagePath, walk_concat, ht, Option.bind_some, child_eq_some, he]
      exact ⟨or_and_three hf.aligned (by decide), or_and_addrMask hf.aligned hf.lt (by decide)⟩
    | some pid =>
      cases hp : k.processes[pid]? with
      | none => simp [Kernel.pages, hp] at hmem
      | some p =>
        rw [Kernel.mem_pages hp] at hmem
        obtain ⟨i, hi⟩ := List.getElem?_of_mem hmem
        refine ⟨.page pid i, p, va, hp, ?_, hi⟩
        cases hl : p.live with
        | true => rfl
        | false => simp [((h.proc hp).dead hl).1] at hmem

/-- **Every managed frame has exactly one use.** -/
theorem existsUnique_use (h : Inv True L own k) (hf : Managed L.start f) :
    ∃! u, k.HasUse f u := by
  obtain ⟨u, hu⟩ := h.exists_hasUse hf
  refine ⟨u, hu, fun u' hu' ↦ ?_⟩
  rcases (h.names_of_hasUse hu').cases (h.names_of_hasUse hu) with
    rfl | ⟨i, j, rfl, rfl⟩ | ⟨pid, i, j, rfl, rfl⟩
  · rfl
  · -- the free list has no repetitions
    rw [Kernel.HasUse] at hu hu'
    have hi : i < k.freeList.length := (List.getElem?_eq_some_iff.mp hu').1
    rw [(List.getElem?_inj hi h.mem_freeList.1).mp (hu'.trans hu.symm)]
  · -- and neither have the frames of a process
    obtain ⟨p, va, hp, -, hu⟩ := hu
    obtain ⟨p', va', hp', -, hu'⟩ := hu'
    rw [hp] at hp'
    cases hp'
    have hnd := (h.owned.page (some pid)).1
    rw [show k.pages L.heap (some pid) = p.frames by simp [Kernel.pages, hp]] at hnd
    have hi : i < (p.frames.map Prod.snd).length := by
      rw [List.length_map]
      exact (List.getElem?_eq_some_iff.mp hu').1
    have hij : i = j := by
      rw [← List.getElem?_inj hi hnd, List.getElem?_map, List.getElem?_map, hu, hu']
      rfl
    rw [hij]

/-! ## What a process can reach -/

/-- A translation in the user slot ends in a page of the process. -/
theorem translate_user (h : Inv True L own k) (hp : k.processes[pid]? = some p)
    (hl : p.live = true) {va pa : Nat} (hva : tableIndex va 39 = userL0Idx)
    (ht : translate k.mem p.ttbr0 va = some pa) :
    ∃ va' f, (va', f) ∈ p.frames ∧ pa = f + va % 4096 := by
  have hr := root_of_live hp hl
  rw [translate, l0Ptr, h.root_mask hr, walkVa_tablePath] at ht
  obtain ⟨t, hw, ht⟩ := Option.bind_eq_some_iff.mp ht
  have hin : Inside (some pid) (pagePath va) := inside_pagePath hva
  simp only at ht
  split at ht
  · cases ht
  · rename_i hvalid
    cases ht
    have htype := h.owned.tree.typed trivial hr le_rfl hin trivial hw hvalid
    have hleaf : walk k.mem p.ttbr0 (pagePath va) =
        some (entry k.mem t (tableIndex va 12) &&& addrMask) := by
      rw [pagePath, walk_concat, hw, Option.bind_some, child_eq_some]
      exact ⟨htype, rfl⟩
    obtain ⟨va', hmem, -⟩ := h.owned.leaf _ _ _ _ hr rfl hin hleaf
    rw [Kernel.mem_pages hp] at hmem
    exact ⟨va', _, hmem, or_and_low (h.ofFrames hp hmem).1.aligned va⟩

/-- Different processes have no frame in common. -/
theorem frames_disjoint (h : Inv True L own k) (hp : k.processes[pid]? = some p) {pid' : Nat}
    {p' : Process} (hp' : k.processes[pid']? = some p') (hne : pid ≠ pid') {va va' f f' : Nat}
    (hf : (va, f) ∈ p.frames) (hf' : (va', f') ∈ p'.frames) : f ≠ f' := by
  rintro rfl
  have ho := (h.ofFrames hp hf).2
  rw [(h.ofFrames hp' hf').2] at ho
  simp only [Owner.page.injEq, Option.some.injEq] at ho
  exact hne ho.symm

/-- **What EL0 can reach**: a descriptor under the root of a process that grants access to EL0 is
in the user slot, and it maps a page of the process. -/
theorem el0_page (h : Inv True L own k) (hp : k.processes[pid]? = some p) (hl : p.live = true)
    {va e : Nat} (he : leafDescriptor k.mem p.ttbr0 va = some e) (hel0 : e &&& apEl0Rw ≠ 0) :
    ∃ va', (va', e &&& addrMask) ∈ p.frames := by
  have hr := root_of_live hp hl
  by_cases h0 : tableIndex va 39 = 0
  · exfalso
    rcases leafDescriptor_eq_some (h.root_mask hr) he with
      ⟨t, hw, rfl, htype⟩ | ⟨path, t, i, hlen, hlt, hi, hw, rfl, hb⟩
    · rw [tablePath, h0, h.walk_slot0 hr, ← h0] at hw
      obtain ⟨hmf, he'⟩ := h.kernelHalf_page h0 hw (child_eq_some.mpr ⟨htype, rfl⟩)
      rw [he', or_and_apEl0Rw hmf.aligned] at hel0
      exact hel0 (by decide)
    · rw [h0, h.walk_slot0 hr] at hw
      obtain ⟨hmt, hot⟩ := h.owned.tree.node (show k.roots none = _ from rfl)
        ⟨by simp; omega, by simpa using hlt, by simp [slotOf]⟩ hw
      exact hel0 (h.kernel.blocks t ((h.tables t hmt).mp ⟨_, hot⟩) hmt i hi hb)
  by_cases h1 : tableIndex va 39 = slotOf (some pid)
  · rcases leafDescriptor_eq_some (h.root_mask hr) he with
      ⟨t, hw, rfl, htype⟩ | ⟨path, t, i, hlen, hlt, hi, hw, rfl, hb⟩
    · have hleaf : walk k.mem p.ttbr0 (pagePath va) =
          some (entry k.mem t (tableIndex va 12) &&& addrMask) := by
        rw [pagePath, walk_concat, hw, Option.bind_some, child_eq_some]
        exact ⟨htype, rfl⟩
      obtain ⟨va', hmem, -⟩ := h.owned.leaf _ _ _ _ hr rfl (inside_pagePath h1) hleaf
      exact ⟨va', (Kernel.mem_pages hp).mp hmem⟩
    · -- there are no blocks in the user slot
      rw [h1] at hw
      have hin : Inside (some pid) (slotOf (some pid) :: path ++ [i]) := by
        refine ⟨?_, by simp⟩
        simpa [or_imp, forall_and] using ⟨(by decide : userL0Idx < 512), hlt, hi⟩
      have hvalid : entry k.mem t i &&& descValid ≠ 0 := by
        rw [show descValid = descTable &&& descValid from rfl, ← Nat.and_assoc, hb]
        decide
      have htype := h.owned.tree.typed trivial hr (by simp; omega) hin trivial hw hvalid
      rw [hb] at htype
      cases htype
  · have hnone := h.owned.tree.slots hr (tableIndex_lt va 39) h0 h1
    rcases leafDescriptor_eq_some (h.root_mask hr) he with ⟨t, hw, -⟩ | ⟨path, t, i, -, -, -, hw, -⟩
    · rw [tablePath, walk, Radix.walk_cons, hnone] at hw
      cases hw
    · rw [walk, Radix.walk_cons, hnone] at hw
      cases hw

end Inv

/-! ## The operations that move frames -/

/-- An operation on behalf of a process, or the creation of one. -/
inductive LifeOp
  /-- `new_address_space` and `process::create`. -/
  | create (image : List UInt8)
  /-- `ring::setup` -/
  | setup (pid : Nat)
  /-- An `OP_SPAWN`. -/
  | spawn (pid namePtr nameLen tag : Nat)
  /-- All published submissions, of any kind. -/
  | drain (pid : Nat)
  /-- A store by user code. -/
  | store (pid va n v : Nat)
  | teardown (pid : Nat) (code : Int)

/-- Run something for a live process, under its address space. -/
def Kernel.asProcess (k : Kernel) (pid : Nat) (f : Kernel → Option Kernel) : Option Kernel := do
  let p ← k.processes[pid]?
  if p.live then f (k.activate p.ttbr0) else none

/-- What an operation does. -/
def lifeStep (k : Kernel) : LifeOp → Option Kernel
  | .create image => do
    let (root, phys) ← newAddressSpace k.phys k.kernelL1
    let (_, k) ← { k with phys }.create image root
    some k
  | .setup pid => k.asProcess pid (·.setupRing pid)
  | .spawn pid namePtr nameLen tag => k.asProcess pid fun k ↦
    if Processes.ringPa k.processes pid = some 0 then none else k.spawn pid namePtr nameLen tag
  | .drain pid => k.asProcess pid (·.drain pid)
  | .store pid va n v => k.asProcess pid (Machine.userStore · va n v)
  | .teardown pid code => k.asProcess pid (·.teardown pid code)

/-- The system of these operations, from the state boot leaves. -/
def life (kernelEnd : Nat) (programs : List (String × List UInt8)) : System Kernel LifeOp where
  init k := ∃ mem ticks, bootKernel mem kernelEnd ticks programs = some k
  step := lifeStep

/-- Images that are created have their segments in the user slot. -/
def LifeOp.Linked (_ : Kernel) : LifeOp → Prop
  | .create image => Elf.InUserSlot image
  | _ => True

/-- What holds between operations. -/
structure LifeInv (L : Layout) (k : Kernel) : Prop where
  inv : ∃ own, Inv True L own k
  synced : k.Synced
  parents : k.ParentsBelow

section Life

variable {L : Layout} {k k' : Kernel} {pid : Nat} {p : Process}

/-- Something is run for live processes only, in their space. -/
theorem Kernel.asProcess_eq_some {f : Kernel → Option Kernel} (h : k.asProcess pid f = some k') :
    ∃ p, k.processes[pid]? = some p ∧ p.live = true ∧ f (k.activate p.ttbr0) = some k' := by
  obtain ⟨p, hp, h⟩ := Option.bind_eq_some_iff.mp h
  rw [Option.ite_none_right_eq_some] at h
  exact ⟨p, hp, h⟩

/-- The root of a process that has not been torn down is a frame. -/
theorem Inv.root_ne_zero {strict : Prop} {own : Nat → Owner} (h : Inv strict L own k)
    (hp : k.processes[pid]? = some p) (hl : p.live = true) : p.ttbr0 ≠ 0 := by
  have hm := (h.owned.tree.node (Inv.root_of_live hp hl) (.nil _) rfl).1
  have := hm.2.1
  have := h.owned.start_pos
  omega

/-- The kernel with another space installed. -/
theorem LifeInv.activate (h : LifeInv L k) (root : Nat) : LifeInv L (k.activate root) := by
  obtain ⟨own, hinv⟩ := h.inv
  refine ⟨⟨own, ?_⟩, h.synced.activate _, ?_⟩
  · rw [k.activate_eq root]
    exact hinv.of_mem_eq ⟨rfl, fun _ ↦ rfl, rfl, rfl, rfl⟩ rfl
  · rw [Kernel.ParentsBelow, k.activate_processes root]
    exact h.parents

/-- Under the space of a process that is not torn down. -/
theorem LifeInv.asProcess (h : LifeInv L k) {f : Kernel → Option Kernel}
    (hf : k.asProcess pid f = some k') : ∃ p k₀ own, k₀.processes[pid]? = some p ∧
      p.live = true ∧ k₀.ttbr0 = p.ttbr0 ∧ f k₀ = some k' ∧ Inv True L own k₀ ∧ k₀.Synced ∧
      k₀.ParentsBelow := by
  obtain ⟨p, hp, hl, hf⟩ := Kernel.asProcess_eq_some hf
  obtain ⟨own, hinv⟩ := h.inv
  obtain ⟨⟨own', hinv'⟩, hsync, hpar⟩ := h.activate p.ttbr0
  exact ⟨p, _, own', by rw [k.activate_processes, hp], hl,
    Kernel.activate_ttbr0 h.synced (hinv.root_ne_zero hp hl), hf, hinv', hsync, hpar⟩

/-- A user store stays in one page of the space it goes through. -/
theorem Inv.userStore {strict : Prop} {own : Nat → Owner} (h : Inv strict L own k)
    {rid : Option Nat} (hr : k.roots rid = some k.ttbr0) {va n v : Nat}
    (hs : Machine.userStore k va n v = some k') : Inv strict L own k' ∧
      ∃ pid p va' f, rid = some pid ∧ k.processes[pid]? = some p ∧ (va', f) ∈ p.frames ∧
        va' / 4096 = va / 4096 ∧ va % 4096 + n ≤ 4096 ∧
        k' = k.setMem (k.mem.store (f + va % 4096) n v) := by
  rw [Machine.userStore] at hs
  split at hs
  · rename_i hn
    obtain ⟨pa, hpa, rfl⟩ := Option.map_eq_some_iff.mp hs
    obtain ⟨pid, p, va', f, hrid, hp, hf, hva, rfl⟩ := h.el0Writable hr hpa
    have hfit : va % 4096 + n ≤ 4096 := by
      obtain ⟨rfl | rfl | rfl | rfl, hal⟩ := hn <;> omega
    refine ⟨h.write_page (.of_quiet (k.setMem_quiet _)) hp hf ?_, pid, p, va', f, hrid, hp, hf, hva,
      hfit, rfl⟩
    exact Mem.store_eqOn (by omega) (by rw [frameSize]; omega)
  · cases hs

namespace LifeInv

/-- A confined effect of a process keeps what holds between operations. -/
theorem of_confined {own own' : Nat → Owner} {ringPa : Nat} (hinv : Inv True L own' k')
    (hsync : k.Synced) (hpar : k.ParentsBelow) (hp : k.processes[pid]? = some p)
    {rid : Option Nat} (hc : Confined L pid rid ringPa own k own' k') : LifeInv L k' where
  inv := ⟨own', hinv⟩
  synced := by
    rw [Kernel.Synced, hc.installed, hc.ttbr0]
    exact hsync
  parents := hc.parentsBelow hp hpar

theorem step (h : LifeInv L k) {op : LifeOp} (hop : op.Linked k)
    (hs : lifeStep k op = some k') : LifeInv L k' := by
  cases op <;> rw [lifeStep] at hs
  case create image =>
    obtain ⟨⟨root, s₁⟩, hroot, hs⟩ := Option.bind_eq_some_iff.mp hs
    obtain ⟨⟨i, k₁⟩, hcreate, hs⟩ := Option.bind_eq_some_iff.mp hs
    cases hs
    obtain ⟨⟨loaded, frames, s₂⟩, hspace, hcreate⟩ := Option.bind_eq_some_iff.mp hcreate
    cases hcreate
    obtain ⟨own, hinv⟩ := h.inv
    obtain ⟨own', hinv', -⟩ := hinv.create hop hroot hspace (p := .fresh root loaded frames) rfl
    refine ⟨⟨own', hinv'⟩, h.synced, fun i q j hq hj ↦ ?_⟩
    rcases Nat.lt_or_ge i k.processes.length with hlt | hge
    · rw [List.getElem?_append_left hlt] at hq
      exact h.parents i q j hq hj
    · rw [List.getElem?_append_right hge, List.getElem?_singleton] at hq
      split at hq
      · cases hq
        cases hj
      · cases hq
  case setup pid =>
    obtain ⟨p, k₀, own, hp, hl, -, hf, hinv, hsync, hpar⟩ := h.asProcess hs
    rcases hinv.setupRing hp hl hf with ⟨-, rfl⟩ | ⟨-, own', frame, phys, rfl, hinv', -⟩
    · exact ⟨⟨own, hinv⟩, hsync, hpar⟩
    · refine ⟨⟨own', hinv'⟩, hsync, fun i q j hq hj ↦ ?_⟩
      rw [Processes.setRing, List.getElem?_modify] at hq
      obtain ⟨q₀, hq₀, rfl⟩ := Option.map_eq_some_iff.mp hq
      refine hpar i q₀ j hq₀ ?_
      split at hj <;> exact hj
  case spawn pid namePtr nameLen tag =>
    obtain ⟨p, k₀, own, hp, hl, hroot, hf, hinv, hsync, hpar⟩ := h.asProcess hs
    simp only [Processes.ringPa, hp, Option.map_some, Option.some.injEq] at hf
    split at hf
    · cases hf
    · rename_i hne
      have hr : k₀.roots (some pid) = some k₀.ttbr0 := by rw [hroot]; exact Inv.root_of_live hp hl
      have hout := Kernel.spawn_outcome (by rw [Processes.ringPa, hp]; rfl) hf
      obtain ⟨own', hinv', hc⟩ := hinv.outcome hp rfl hne hr hout
      exact of_confined hinv' hsync hpar hp hc
  case drain pid =>
    obtain ⟨p, k₀, own, hp, hl, hroot, hf, hinv, hsync, hpar⟩ := h.asProcess hs
    have hr : k₀.roots (some pid) = some k₀.ttbr0 := by rw [hroot]; exact Inv.root_of_live hp hl
    obtain ⟨own', hinv', hc⟩ := hinv.drain hp hr hf
    exact of_confined hinv' hsync hpar hp hc
  case store pid va n v =>
    obtain ⟨p, k₀, own, hp, hl, hroot, hf, hinv, hsync, hpar⟩ := h.asProcess hs
    have hr : k₀.roots (some pid) = some k₀.ttbr0 := by rw [hroot]; exact Inv.root_of_live hp hl
    obtain ⟨hinv', pid', p', va', f, -, -, -, -, -, rfl⟩ := hinv.userStore hr hf
    exact ⟨⟨own, hinv'⟩, hsync, hpar⟩
  case teardown pid code =>
    obtain ⟨p, k₀, own, hp, hl, hroot, hf, hinv, hsync, hpar⟩ := h.asProcess hs
    have hne : p.parent ≠ some pid := fun he ↦ Nat.lt_irrefl _ (hpar pid p pid hp he)
    obtain ⟨own', hinv', -⟩ := hinv.teardown hp hl hne hroot hf
    obtain ⟨k₁, msg, hrep, rfl⟩ := Kernel.teardown_cases hp hne hf
    refine ⟨⟨own', hinv'⟩, ?_, fun i q j hq hj ↦ ?_⟩
    · refine Kernel.Synced.activate ?_ _
      have hq := hrep.quiet
      exact hsync.imp (hq.installed.trans ·) fun he ↦ (hq.installed.trans he).trans hq.ttbr0.symm
    · have hmap := ExitReport.map_parent hp hne hrep i
      rw [Kernel.kprintln_processes, Kernel.activate_processes] at hq
      rw [hq, Option.map_some] at hmap
      obtain ⟨q₀, hq₀, he⟩ := Option.map_eq_some_iff.mp hmap.symm
      exact hpar i q₀ j hq₀ (he.trans hj)

theorem boot {mem : Mem} {kernelEnd ticks : Nat} {programs : List (String × List UInt8)}
    (hend : 0 < kernelEnd) (hprog : ∀ q ∈ programs, Elf.InUserSlot q.2)
    (hb : bootKernel mem kernelEnd ticks programs = some k) :
    ∃ L, L.start = firstFrame kernelEnd ∧ LifeInv L k := by
  obtain ⟨L, own, hstart, hinv⟩ := Inv.boot hend hprog hb
  rw [bootKernel] at hb
  obtain ⟨x, -, hb⟩ := Option.bind_eq_some_iff.mp hb
  obtain ⟨y, -, hb⟩ := Option.bind_eq_some_iff.mp hb
  cases hb
  exact ⟨L, hstart, ⟨own, hinv⟩, .inl rfl, fun i p j hp ↦ by simp at hp⟩

end LifeInv

/-- The invariant holds after any sequence of operations. -/
theorem lifeInv_of_reach {kernelEnd : Nat} {programs : List (String × List UInt8)}
    (hend : ramBase ≤ kernelEnd) (hprog : ∀ q ∈ programs, Elf.InUserSlot q.2)
    (hk : (life kernelEnd programs).Reach LifeOp.Linked k) :
    ∃ L, L.start = firstFrame kernelEnd ∧ LifeInv L k := by
  have hpos : 0 < kernelEnd := Nat.lt_of_lt_of_le (by decide) hend
  refine hk.invariant (I := fun k ↦ ∃ L, L.start = firstFrame kernelEnd ∧ LifeInv L k) ?_ ?_
  · rintro k ⟨mem, ticks, hb⟩
    exact LifeInv.boot hpos hprog hb
  · rintro k op k' ⟨L, hstart, h⟩ hop hs
    exact ⟨L, hstart, h.step hop hs⟩

/-! ### A run -/

/-- Creating a process of one page, from boot. -/
theorem life_creates : ∃ k p, (life ramBase []).Reach LifeOp.Linked k ∧ k.processes = [p] ∧
    p.live = true ∧ p.ringPa = 0 ∧ p.frames ≠ [] ∧ 4 ≤ k.phys.frames.freeCount := by
  obtain ⟨k, hb, hps, hc⟩ := bootKernel_isSome ramBase 13 (by decide) (by decide) (fun _ ↦ 0) 0 []
  obtain ⟨L, own, -, h⟩ := Inv.boot (by decide) (by simp) hb
  obtain ⟨root, s, frames, s', own', hroot, hspace, hvas, hc', -⟩ :=
    h.newProcess inUserSlot_pageImage_userBase plan_pageImage_userBase hc
  have hstart : (life ramBase []).Reach LifeOp.Linked k := .init ⟨_, _, hb⟩
  have hstep : lifeStep k (.create (pageImage userBase)) = some { k with
      phys := s', processes := [Process.fresh root (pageLoaded userBase) frames] } := by
    simp only [lifeStep, Kernel.create, hroot, hspace, hps, Option.bind_eq_bind, Option.bind_some,
      List.nil_append]
  have hok : LifeOp.Linked k (.create (pageImage userBase)) := inUserSlot_pageImage_userBase
  have hreach := hstart.step hok hstep
  have hframes : frames ≠ [] := by
    rintro rfl
    cases hvas
  exact ⟨_, _, hreach, rfl, rfl, rfl, hframes, processFrames_le hc hc'⟩

end Life

/-- **Frame ownership and process isolation.**  After any sequence of operations each managed frame
has exactly one use; slot 0 of the root of every live process is the kernel's L1, and its user slot
leads to its own pages only; the translations of different processes end in different frames; and a
descriptor that grants access to EL0, at whatever level it is, maps a page of the process. -/
theorem frames_isolated {kernelEnd : Nat} {programs : List (String × List UInt8)}
    (hend : ramBase ≤ kernelEnd) (hprog : ∀ q ∈ programs, Elf.InUserSlot q.2) {k : Kernel}
    (hk : (life kernelEnd programs).Reach LifeOp.Linked k) :
    (∀ f, Managed (firstFrame kernelEnd) f → ∃! u, k.HasUse f u) ∧
    ∀ pid p, k.processes[pid]? = some p → p.live = true →
      entry k.mem p.ttbr0 0 = k.kernelL1 ||| descTable ∧
      (∀ va pa, tableIndex va 39 = userL0Idx → translate k.mem p.ttbr0 va = some pa →
        (∃ va' f, (va', f) ∈ p.frames ∧ pa = f + va % 4096) ∧
        ∀ pid' p' va' pa', k.processes[pid']? = some p' → p'.live = true → pid ≠ pid' →
          tableIndex va' 39 = userL0Idx → translate k.mem p'.ttbr0 va' = some pa' →
          pa / 4096 ≠ pa' / 4096) ∧
      ∀ va e, leafDescriptor k.mem p.ttbr0 va = some e → e &&& apEl0Rw ≠ 0 →
        Managed (firstFrame kernelEnd) (e &&& addrMask) ∧
        ∀ u, k.HasUse (e &&& addrMask) u → ∃ i, u = .page pid i := by
  obtain ⟨L, hstart, hlife⟩ := lifeInv_of_reach hend hprog hk
  obtain ⟨own, h⟩ := hlife.inv
  rw [← hstart]
  refine ⟨fun f hf ↦ h.existsUnique_use hf, fun pid p hp hl ↦
    ⟨h.owned.tree.slot0 (Inv.root_of_live hp hl), fun va pa hva ht ↦ ?_, fun va e he hel0 ↦ ?_⟩⟩
  · obtain ⟨va₁, f, hf, rfl⟩ := h.translate_user hp hl hva ht
    refine ⟨⟨va₁, f, hf, rfl⟩, fun pid' p' va' pa' hp' hl' hne hva' ht' heq ↦ ?_⟩
    obtain ⟨va₂, f', hf', rfl⟩ := h.translate_user hp' hl' hva' ht'
    have hal := (h.ofFrames hp hf).1.aligned
    have hal' := (h.ofFrames hp' hf').1.aligned
    exact h.frames_disjoint hp hp' hne hf hf' (by omega)
  · obtain ⟨va', hf⟩ := h.el0_page hp hl he hel0
    obtain ⟨hm, ho⟩ := h.ofFrames hp hf
    refine ⟨hm, fun u hu ↦ ?_⟩
    have hn := h.names_of_hasUse hu
    rw [ho] at hn
    cases u with
    | page pid' i =>
      cases hn
      exact ⟨i, rfl⟩
    | free i => exact hn.elim
    | kernel => exact hn.elim
    | table pid' path => exact hn.elim

/-- With one process, created after boot. -/
theorem frames_isolated_create : ∃ k p, (life ramBase []).Reach LifeOp.Linked k ∧
    k.processes = [p] ∧ p.live = true ∧
    (∀ f, Managed (firstFrame ramBase) f → ∃! u, k.HasUse f u) ∧
    entry k.mem p.ttbr0 0 = k.kernelL1 ||| descTable := by
  obtain ⟨k, p, hk, hps, hl, -⟩ := life_creates
  obtain ⟨huse, hproc⟩ := frames_isolated le_rfl (by simp) hk
  exact ⟨k, p, hk, hps, hl, huse, (hproc 0 p (by rw [hps]; rfl) hl).1⟩

end Jatuli

import Jatuli.Exit
import Jatuli.Isolation

/-!
# The life of a process keeps the invariant

Boot establishes the isolation invariant; creating a process, setting up its ring and tearing it
down keep it.  Each lemma also says which frames are left alone (`Kept`).
-/

set_option autoImplicit false

namespace Jatuli
namespace Inv

variable {strict : Prop} {L : Layout} {own : Nat → Owner} {k k' : Kernel} {pid : Nat} {p : Process}

/-! ## Boot -/

/-- **The state after boot**: all frames are free but the tables of the identity map and the pages
and tables of the heap. -/
theorem boot {mem : Mem} {kernelEnd ticks : Nat} {programs : List (String × List UInt8)}
    (hend : 0 < kernelEnd) (hprog : ∀ q ∈ programs, Elf.InUserSlot q.2)
    (hb : bootKernel mem kernelEnd ticks programs = some k) :
    ∃ L own, L.start = firstFrame kernelEnd ∧ Inv True L own k := by
  rw [bootKernel] at hb
  obtain ⟨⟨⟨l0, l1⟩, s₁⟩, hmmu, hb⟩ := Option.bind_eq_some_iff.mp hb
  obtain ⟨s₂, hheap, hb⟩ := Option.bind_eq_some_iff.mp hb
  cases hb
  obtain ⟨own₁, ho₁, hheld₁, hl1, hel0, -⟩ := (Owned.initFrames True l1 mem hend).1.initMmu hmmu
  have hr : Function.update (fun _ : Option Nat ↦ none) none (some l0) none = some l0 :=
    Function.update_self ..
  obtain ⟨hmr, -⟩ := ho₁.tree.node hr (.nil _) rfl
  obtain ⟨-, hl1own⟩ := ho₁.tree.node hr ⟨by simp, by simp [Inside, slotOf]⟩ hl1
  rw [initHeap, l0Ptr, and_addrMask_of_aligned hmr.aligned hmr.lt] at hheap
  obtain ⟨heap, ⟨own₂, ho₂, hgrown, -⟩, hmapped⟩ := Owned.initHeapFrom hr _ 0 ho₁ rfl (by decide)
    (fun va f hmem ↦ absurd hmem List.not_mem_nil) hheap
  rw [List.nil_append] at ho₂ hmapped
  refine ⟨⟨firstFrame kernelEnd, heap, { g | ∃ q, own₂ g = .node none q }⟩, own₂, rfl, ?_,
    fun _ g hg hog ↦ hheld₁ g hg (hgrown.held hg hog), fun g hg ↦ Iff.rfl,
    ⟨hmapped, ?_, fun g hgt hg i hi hb ↦ ?_⟩, by simp, hprog⟩
  · have hroots : ∀ k : Kernel, k.processes = [] →
        k.roots = Function.update (fun _ ↦ none) none (some k.kernelTtbr0) := by
      intro k hk
      funext id
      cases id <;> simp [Kernel.roots, hk, Function.update]
    have hpages : ∀ k : Kernel, k.processes = [] →
        k.pages heap = Function.update (fun _ ↦ []) none heap := by
      intro k hk
      funext id
      cases id <;> simp [Kernel.pages, hk, Function.update]
    rw [hroots _ rfl, hpages _ rfl]
    exact ho₂
  · have hm1 := (ho₁.tree.node hr ⟨by simp, by simp [Inside, slotOf]⟩ hl1).1
    have hkeep := hgrown.keep l1 hm1 (by simp [hl1own])
    exact ho₂.tree.full trivial hm1 (hkeep.trans hl1own) hr
  · obtain ⟨q, hq⟩ := hgt
    obtain ⟨hog, he⟩ := hgrown.blocks g q i hg hq hi hb
    rw [he]
    exact hel0 g q i hog hi

theorem weaken (h : Inv True L own k) : Inv strict L own k where
  owned := h.owned.weaken
  noHeld _ := h.noHeld trivial
  tables := h.tables
  kernel := h.kernel
  proc := h.proc
  programs := h.programs

/-! ## Creation -/

section Create

variable {s₁ s₂ : Phys} {root : Nat} {image : List UInt8} {loaded : Loaded}
  {frames : List (Nat × Nat)}

/-- A process that does not exist has no tables. -/
theorem no_node (h : Inv strict L own k) (hid : k.roots (some pid) = none) {g : Nat}
    (hg : Managed L.start g) (q : List Nat) : own g ≠ .node (some pid) q := by
  intro hog
  obtain ⟨r, hr⟩ := (h.owned.tree.inSpace hg hog).1
  rw [hid] at hr
  cases hr

theorem roots_append (k : Kernel) (phys : Phys) (hl : p.live = true) :
    ({ k with phys, processes := k.processes ++ [p] } : Kernel).roots =
      Function.update k.roots (some k.processes.length) (some p.ttbr0) := by
  funext id
  cases id with
  | none => rfl
  | some i =>
    by_cases hi : i = k.processes.length
    · subst hi
      simp [Kernel.roots, hl]
    · rw [Function.update_of_ne (by simpa using hi)]
      simp only [Kernel.roots]
      rcases Nat.lt_or_gt_of_ne hi with hlt | hgt
      · rw [List.getElem?_append_left hlt]
      · rw [List.getElem?_eq_none (by simp; omega), List.getElem?_eq_none (by omega)]

theorem pages_append (k : Kernel) (phys : Phys) (heap : List (Nat × Nat)) :
    ({ k with phys, processes := k.processes ++ [p] } : Kernel).pages heap =
      Function.update (k.pages heap) (some k.processes.length)
        (k.pages heap (some k.processes.length) ++ p.frames) := by
  funext id
  cases id with
  | none => rfl
  | some i =>
    by_cases hi : i = k.processes.length
    · subst hi
      simp [Kernel.pages]
    · rw [Function.update_of_ne (by simpa using hi)]
      simp only [Kernel.pages]
      rcases Nat.lt_or_gt_of_ne hi with hlt | hgt
      · rw [List.getElem?_append_left hlt]
      · rw [List.getElem?_eq_none (by simp; omega), List.getElem?_eq_none (by omega)]

/-- **A new process**: a fresh address space with the pages of its image. -/
theorem create (h : Inv strict L own k) (himg : Elf.InUserSlot image)
    (hroot : newAddressSpace k.phys k.kernelL1 = some (root, s₁))
    (hspace : createSpace s₁ image root = some (loaded, frames, s₂))
    (hp : p.space = (root, none, frames, 0, loaded)) :
    ∃ own', Inv strict L own' { k with phys := s₂, processes := k.processes ++ [p] } ∧
      Kept L.start (fun _ ↦ True) own own' k.mem s₂.mem ∧
      Grown L.start (some k.processes.length) own own' k.mem s₂.mem := by
  simp only [Process.space, Prod.mk.injEq] at hp
  obtain ⟨hroot', hexit, hframes, hring, hloaded⟩ := hp
  have hlive : p.live = true := by rw [Process.live, hexit]; rfl
  have hid : k.roots (some k.processes.length) = none := by simp [Kernel.roots]
  obtain ⟨own₁, ho₁, hg₁, -, -⟩ := h.owned.newAddressSpace hid h.kernelL1_managed.lt hroot
  obtain ⟨⟨own₂, ho₂, hg₂, -⟩, hof⟩ := ho₁.createSpace (Function.update_self ..) himg hspace
  have hgrown := hg₁.trans hg₂
  have hkept : Kept L.start (fun _ ↦ True) own own₂ k.mem s₂.mem := fun g hg hog _ ↦
    ⟨hgrown.keep g hg hog, hgrown.mem g hg hog fun q ↦ h.no_node hid hg q⟩
  have hnode : ∀ g id q, Managed L.start g → own g = .node id q →
      Set.EqOn s₂.mem k.mem (frameAt g) := fun g id q hg hog ↦
    (hkept g hg (by simp [hog]) trivial).2
  refine ⟨own₂, ⟨?_, fun hs g hg hog ↦ h.noHeld hs g hg (hgrown.held hg hog), fun g hg ↦ ?_,
    h.kernel_congr fun g q ↦ hnode g none q, fun {i q} hq ↦ ?_, h.programs⟩, hkept, hgrown⟩
  · rw [roots_append k s₂ hlive, pages_append, hroot', hframes]
    exact ho₂
  · rw [← h.tables g hg]
    exact exists_congr fun q ↦ hgrown.node_iff hg (by simp) q
  · rcases Nat.lt_or_ge i k.processes.length with hlt | hge
    · rw [List.getElem?_append_left hlt] at hq
      exact h.proc_congr hq rfl fun g path ↦ hnode g _ path
    · rw [List.getElem?_append_right hge, List.getElem?_singleton] at hq
      split at hq
      · cases hq
        refine ⟨fun hl ↦ by simp [hlive] at hl, fun va f hmem ↦ ?_, fun hne ↦ absurd hring hne⟩
        rw [hframes] at hmem
        obtain ⟨hal, hstack | hrg⟩ := hof va f hmem
        · exact ⟨hal, .inl hstack⟩
        · rw [hloaded]
          exact ⟨hal, .inr (.inr hrg)⟩
      · cases hq

end Create

/-! ## Setting up a ring -/

/-- `set_ring` leaves the roots alone. -/
theorem roots_setRing (k : Kernel) (phys : Phys) (pid frame : Nat) :
    ({ k with phys, processes := Processes.setRing k.processes pid frame } : Kernel).roots =
      k.roots := by
  funext id
  cases id with
  | none => rfl
  | some i =>
    simp only [Kernel.roots, Processes.setRing, List.getElem?_modify]
    cases k.processes[i]? with
    | none => rfl
    | some q => by_cases hi : pid = i <;> simp [hi, Process.live]

theorem pages_setRing (phys : Phys) (heap : List (Nat × Nat)) (frame : Nat)
    (hp : k.processes[pid]? = some p) :
    ({ k with phys, processes := Processes.setRing k.processes pid frame } : Kernel).pages heap =
      Function.update (k.pages heap) (some pid)
        (k.pages heap (some pid) ++ [(userRingVa, frame)]) := by
  funext id
  cases id with
  | none => rfl
  | some i =>
    by_cases hi : i = pid
    · subst hi
      simp [Kernel.pages, Processes.setRing, hp]
    · rw [Function.update_of_ne (by simpa using hi)]
      simp only [Kernel.pages, Processes.setRing, List.getElem?_modify_ne _ _ (Ne.symm hi)]

/-- What `setup` does: nothing if there is a ring, else a zeroed page of the process becomes its
ring. -/
theorem setupRing (h : Inv strict L own k) (hp : k.processes[pid]? = some p) (hl : p.live = true)
    (hs : k.setupRing pid = some k') : p.ringPa ≠ 0 ∧ k' = k ∨ p.ringPa = 0 ∧
      ∃ own' frame phys, k' = { k with
          phys, processes := Processes.setRing k.processes pid frame } ∧
        Inv strict L own' k' ∧
        Kept L.start (fun g ↦ ∀ q, own g ≠ .node (some pid) q) own own' k.mem k'.mem ∧
        (Managed L.start frame ∧ own frame = .free) ∧ (∀ x ∈ frameAt frame, k'.mem x = 0) ∧
        Grown L.start (some pid) own own' k.mem k'.mem := by
  have hroot := root_of_live hp hl
  obtain ⟨q, hq, hcases⟩ := Kernel.setupRing_cases hs
  obtain rfl := Option.some.inj (hp.symm.trans hq)
  rcases hcases with ⟨hne, rfl⟩ | ⟨hzero, frame, s₁, s₂, ha, hm, rfl⟩
  · exact .inl ⟨hne, rfl⟩
  rw [l0Ptr, h.root_mask hroot] at hm
  obtain ⟨⟨own', ho', hgrown, -⟩, hfree, hfill, hentry, -⟩ := h.owned.addPage hroot (by decide)
    (tableIndex_userRingVa pid) ha (List.length_replicate ..).le pageFlags_userRw hm
  have hkept : Kept L.start (fun g ↦ ∀ q, own g ≠ .node (some pid) q) own own' k.mem s₂.mem :=
    fun g hg hog hq ↦ ⟨hgrown.keep g hg hog, hgrown.mem g hg hog hq⟩
  have hnode : ∀ g id q, id ≠ some pid → Managed L.start g → own g = .node id q →
      Set.EqOn s₂.mem k.mem (frameAt g) := fun g id q hid hg hog ↦
    (hkept g hg (by simp [hog]) fun q' ↦ by simp [hog, hid]).2
  refine .inr ⟨hzero, own', frame, s₂, rfl, ⟨?_, fun hs g hg hog ↦
    h.noHeld hs g hg (hgrown.held hg hog), fun g hg ↦ ?_,
    h.kernel_congr fun g q ↦ hnode g none q (by simp), fun {i q} hq ↦ ?_, h.programs⟩, hkept, hfree,
    fun x hx ↦ ?_, hgrown⟩
  · rw [roots_setRing, pages_setRing s₂ L.heap frame hp]
    exact ho'
  · rw [← h.tables g hg]
    exact exists_congr fun q ↦ hgrown.node_iff hg (by simp) q
  · simp only [Processes.setRing] at hq
    by_cases hi : pid = i
    · subst hi
      rw [List.getElem?_modify_eq, hp] at hq
      cases hq
      refine ⟨fun hd ↦ ?_, fun va f hmem ↦ ?_, fun _ ↦ ⟨by simp, hentry⟩⟩
      · rw [Process.live] at hl hd
        rw [hl] at hd
        cases hd
      · rcases List.mem_append.mp hmem with hmem | hmem
        · obtain ⟨hal, hst | hrg | hseg⟩ := (h.proc hp).pagesOf va f hmem
          · exact ⟨hal, .inl hst⟩
          · -- a page recorded for a ring that does not exist
            refine absurd (h.ofFrames hp hmem).1.2.1 (Nat.not_le.mpr ?_)
            rw [hrg.2, hzero]
            exact h.owned.start_pos
          · exact ⟨hal, .inr (.inr hseg)⟩
        · rw [List.mem_singleton] at hmem
          cases hmem
          exact ⟨by decide, .inr (.inl ⟨rfl, rfl⟩)⟩
    · rw [List.getElem?_modify_ne _ _ hi] at hq
      exact h.proc_congr hq rfl fun g path ↦ hnode g _ path (by simpa using Ne.symm hi)
  · obtain ⟨hlo, hhi⟩ := mem_frameAt.mp hx
    have hget := Mem.fill_get (List.replicate 4096 0) s₁.mem frame (x - frame)
      (by rw [List.length_replicate]; omega)
    rw [Nat.add_sub_cancel' hlo, List.getElem_replicate] at hget
    exact (hfill hx).trans hget

end Inv

/-! ## Teardown -/

/-- The loop of `teardown` over the pages of the process. -/
theorem Owned.reclaim {strict : Prop} {start kernelL1 pid r : Nat}
    {roots : Option Nat → Option Nat} (hr : roots (some pid) = some r) :
    ∀ (owned : List (Nat × Nat))
      {pages : Option Nat → List (Nat × Nat)} {own : Nat → Owner} {s : Phys},
    Owned strict start kernelL1 roots pages own s → pages (some pid) = owned →
    ∃ own', Owned strict start kernelL1 roots (Function.update pages (some pid) []) own'
        (Kernel.reclaim r owned s) ∧
      (∀ g, Managed start g → own g = .page (some pid) → own' g = .free) ∧
      ∀ g, Managed start g → own g ≠ .page (some pid) → own' g = own g ∧
        ((∀ q, own g ≠ .node (some pid) q) →
          Set.EqOn (Kernel.reclaim r owned s).mem s.mem (frameAt g)) := by
  intro owned
  induction owned with
  | nil =>
    intro pages own s h hpages
    refine ⟨own, ?_, fun g hg hog ↦ ?_, fun g _ _ ↦ ⟨rfl, fun _ ↦ Set.eqOn_refl _ _⟩⟩
    · have hsame : Function.update pages (some pid) [] = pages := by
        rw [← hpages, Function.update_eq_self]
      rw [hsame]
      exact h
    · have hmem := ((h.page (some pid)).2 g).mpr ⟨hg, hog⟩
      simp [hpages] at hmem
  | cons page rest ih =>
    obtain ⟨va, f⟩ := page
    intro pages own s h hpages
    have hmr := (h.tree.node hr (.nil _) rfl).1
    obtain ⟨⟨hmf, hof⟩, h₁, hmem₁⟩ := h.reclaimPage hr hpages
    obtain ⟨own', ho', hfree, hkeep⟩ := ih h₁ (Function.update_self ..)
    rw [Function.update_idem] at ho'
    rw [Kernel.reclaim, l0Ptr, and_addrMask_of_aligned hmr.aligned hmr.lt]
    refine ⟨own', ho', fun g hg hog ↦ ?_, fun g hg hog ↦ ?_⟩
    · by_cases hgf : g = f
      · subst hgf
        rw [(hkeep g hg (by simp)).1, Function.update_self]
      · exact hfree g hg (by rwa [Function.update_of_ne hgf])
    · have hgf : g ≠ f := fun e ↦ hog (e ▸ hof)
      have hown : Function.update own f .free g = own g := Function.update_of_ne hgf ..
      obtain ⟨hsame, hm⟩ := hkeep g hg (by rwa [hown])
      refine ⟨hsame.trans hown, fun hq ↦ ?_⟩
      exact (hm fun q ↦ by rw [hown]; exact hq q).trans (hmem₁ g hg hgf hq)

/-- Pages and tables of a process go back to the free list. -/
theorem Owned.giveBack {strict : Prop} {start kernelL1 pid r : Nat}
    {roots : Option Nat → Option Nat} {pages : Option Nat → List (Nat × Nat)} {own : Nat → Owner}
    {s : Phys} (h : Owned strict start kernelL1 roots pages own s)
    (hr : roots (some pid) = some r) :
    ∃ own', Owned strict start kernelL1 (Function.update roots (some pid) none)
        (Function.update pages (some pid) []) own'
        (Jatuli.freeAddressSpace (Kernel.reclaim r (pages (some pid)) s) r) ∧
      ∀ g, Managed start g →
        ((own g ≠ .page (some pid) ∧ ¬ ∃ q, own g = .node (some pid) q) ∧ own' g = own g ∧
          Set.EqOn (Jatuli.freeAddressSpace (Kernel.reclaim r (pages (some pid)) s) r).mem
            s.mem (frameAt g)) ∨
        (own g = .page (some pid) ∧ own' g = .free) ∨
        ((∃ q, own g = .node (some pid) q) ∧ (own' g = .free ∨ own' g = .held ∧ ¬ strict)) := by
  obtain ⟨own₁, ho₁, hfree₁, hkeep₁⟩ := Owned.reclaim hr _ h rfl
  obtain ⟨own₂, ho₂, hkeep₂, hnode₂⟩ := ho₁.freeAddressSpace hr
  refine ⟨own₂, ho₂, fun g hg ↦ ?_⟩
  by_cases hp : own g = .page (some pid)
  · have hfree := hfree₁ g hg hp
    exact .inr (.inl ⟨hp, by rw [(hkeep₂ g hg (by simp [hfree])).1, hfree]⟩)
  · obtain ⟨hsame, hm⟩ := hkeep₁ g hg hp
    by_cases hn : ∃ q, own g = .node (some pid) q
    · obtain ⟨q, hq⟩ := hn
      exact .inr (.inr ⟨⟨q, hq⟩, hnode₂ g q hg (by rw [hsame, hq])⟩)
    · have hnn : ∀ q, own g ≠ .node (some pid) q := fun q hq ↦ hn ⟨q, hq⟩
      obtain ⟨hsame', hm'⟩ := hkeep₂ g hg (by rw [hsame]; exact hnn)
      exact .inl ⟨⟨hp, hn⟩, hsame'.trans hsame, hm'.trans (hm hnn)⟩

namespace Inv

variable {strict : Prop} {L : Layout} {own : Nat → Owner} {k k' : Kernel} {pid : Nat} {p : Process}

/-- The ring page a report of the exit of `p` is written to. -/
def ReportPage (k : Kernel) (p : Process) (g : Nat) : Prop :=
  ∃ parent q, p.parent = some parent ∧ k.processes[parent]? = some q ∧ q.ringPa ≠ 0 ∧ g = q.ringPa

/-- Telling the parent writes to the parent's ring page at most. -/
theorem report_mem {code : Int} {k₁ : Kernel} (h : Inv strict L own k) (hne : p.parent ≠ some pid)
    (hrep : ExitReport pid p code
      { k with processes := k.processes.set pid (p.exited code) } k₁) :
    Kept L.start (fun g ↦ ¬ ReportPage k p g) own own k.mem k₁.mem ∧
      ∀ g, Managed L.start g → (own g = .free ∨ ∃ id q, own g = .node id q) →
        Set.EqOn k₁.mem k.mem (frameAt g) := by
  cases hrep with
  | silent h => exact ⟨.refl _ _ _ _, fun _ _ _ ↦ Set.eqOn_refl _ _⟩
  | lost htag hparent hq hring => exact ⟨.refl _ _ _ _, fun _ _ _ ↦ Set.eqOn_refl _ _⟩
  | @answered parent tag q htag hparent hq hring =>
    have hq' : k.processes[parent]? = some q := by
      rwa [List.getElem?_set_ne fun e ↦ hne (by rw [hparent, e])] at hq
    obtain ⟨hm, ho⟩ := h.ofRing hq' hring
    have hout := Kernel.complete_eqOn { k with processes := k.processes.set pid (p.exited code) }
      q.ringPa tag code (some pid)
    refine ⟨fun g hg _ hP ↦ ⟨rfl, eqOn_frameAt hm.aligned hg.aligned (fun e ↦ hP ?_) hout⟩,
      fun g hg hog ↦ eqOn_frameAt hm.aligned hg.aligned ?_ hout⟩
    · exact ⟨parent, q, hparent, hq', hring, e.symm⟩
    · rintro rfl
      rcases hog with hog | ⟨id, path, hog⟩ <;> rw [ho] at hog <;> cases hog

/-- So the record of the frames still fits. -/
theorem report_owned {code : Int} {k₁ : Kernel} (h : Inv strict L own k)
    (hne : p.parent ≠ some pid) (hrep : ExitReport pid p code
      { k with processes := k.processes.set pid (p.exited code) } k₁) :
    Owned strict L.start k.kernelL1 k.roots (k.pages L.heap) own k₁.phys := by
  obtain ⟨-, hstruct⟩ := h.report_mem hne hrep
  have hw := h.owned.write (fun g hg hog ↦ hstruct g hg (.inl hog))
    fun g id q hg hog ↦ hstruct g hg (.inr ⟨id, q, hog⟩)
  have hphys : k₁.phys = { mem := k₁.mem, frames := k.phys.frames } := by
    rw [← show k₁.phys.frames = k.phys.frames from hrep.quiet.frames]
  rw [hphys]
  exact hw

/-- After the report the pages of other processes stay as they are. -/
theorem giveBack_page {code : Int} {k₁ : Kernel} (h : Inv strict L own k)
    (hp : k.processes[pid]? = some p) (hl : p.live = true) (hne : p.parent ≠ some pid)
    (hroot : k.ttbr0 = p.ttbr0) (hrep : ExitReport pid p code
      { k with processes := k.processes.set pid (p.exited code) } k₁) {g i : Nat}
    (hg : Managed L.start g) (hog : own g = .page (some i)) (hi : i ≠ pid) :
    Set.EqOn (freeAddressSpace (Kernel.reclaim k₁.ttbr0 p.frames k₁.phys) p.ttbr0).mem k₁.mem
      (frameAt g) := by
  have hpages : k.pages L.heap (some pid) = p.frames := by simp [Kernel.pages, hp]
  obtain ⟨own', -, hcases⟩ := (h.report_owned hne hrep).giveBack (root_of_live hp hl)
  rw [hpages] at hcases
  rw [show k₁.ttbr0 = p.ttbr0 from hrep.quiet.ttbr0.trans hroot]
  rcases hcases g hg with ⟨-, -, hm⟩ | ⟨hog', -⟩ | ⟨⟨q, hog'⟩, -⟩
  · exact hm
  · rw [hog] at hog'
    cases hog'
    exact absurd rfl hi
  · rw [hog] at hog'
    cases hog'

section Husk

variable {q : Process} (hl0 : k'.kernelTtbr0 = k.kernelTtbr0) (hq : k'.processes[pid]? = some q)
  (hspace : ∀ i, i ≠ pid →
    k'.processes[i]?.map Process.space = k.processes[i]?.map Process.space)
include hq hspace

theorem pages_husk (heap : List (Nat × Nat)) (hframes : q.frames = []) :
    k'.pages heap = Function.update (k.pages heap) (some pid) [] := by
  funext id
  cases id with
  | none => rfl
  | some i =>
    by_cases hi : i = pid
    · subst hi
      rw [Function.update_self, Kernel.pages, hq, ← hframes]
      rfl
    · rw [Function.update_of_ne (by simpa using hi)]
      exact Kernel.pages_congr (hspace i hi) heap

include hl0

theorem roots_husk (hdead : q.live = false) :
    k'.roots = Function.update k.roots (some pid) none := by
  funext id
  cases id with
  | none => exact congrArg some hl0
  | some i =>
    by_cases hi : i = pid
    · subst hi
      rw [Function.update_self, Kernel.roots, hq]
      simp [hdead]
    · rw [Function.update_of_ne (by simpa using hi)]
      exact Kernel.roots_congr (hspace i hi)

end Husk

/-- **The end of a process**: its pages and tables go back to the free list and nothing else
changes, except that the parent's ring page may get a completion. -/
theorem teardown {code : Int} (h : Inv strict L own k) (hp : k.processes[pid]? = some p)
    (hl : p.live = true) (hne : p.parent ≠ some pid) (hroot : k.ttbr0 = p.ttbr0)
    (ht : k.teardown pid code = some k') :
    ∃ own', Inv strict L own' k' ∧
      Kept L.start (fun g ↦ own g ≠ .page (some pid) ∧ (∀ q, own g ≠ .node (some pid) q) ∧
        ¬ ReportPage k p g) own own' k.mem k'.mem ∧
      (strict → ∀ g, Managed L.start g → (own' g = .free ↔
        own g = .free ∨ own g = .page (some pid) ∨ ∃ q, own g = .node (some pid) q)) := by
  obtain ⟨k₁, msg, hrep, rfl⟩ := Kernel.teardown_cases hp hne ht
  obtain ⟨hkept, hstruct⟩ := h.report_mem hne hrep
  -- the pages and tables are given back while the record still counts them as the process's
  have hpages : k.pages L.heap (some pid) = p.frames := by simp [Kernel.pages, hp]
  obtain ⟨own', ho', hcases⟩ := (h.report_owned hne hrep).giveBack (root_of_live hp hl)
  rw [hpages] at ho' hcases
  rw [show k₁.ttbr0 = p.ttbr0 from hrep.quiet.ttbr0.trans hroot]
  let k₂ : Kernel := { k₁ with
    phys := freeAddressSpace (Kernel.reclaim p.ttbr0 p.frames k₁.phys) p.ttbr0
    processes := k₁.processes.set pid (p.husk code) }
  have hinv : Inv strict L own' k₂ := by
    have htable : ∀ g id q, id ≠ some pid → Managed L.start g → own g = .node id q →
        Set.EqOn k₂.mem k.mem (frameAt g) := by
      intro g id q hid hg hog
      rcases hcases g hg with ⟨-, -, hm⟩ | ⟨hog', -⟩ | ⟨⟨q', hog'⟩, -⟩
      · exact hm.trans (hstruct g hg (.inr ⟨id, q, hog⟩))
      · simp [hog] at hog'
      · simp [hog, hid] at hog'
    have hspace : ∀ i, i ≠ pid →
        k₂.processes[i]?.map Process.space = k.processes[i]?.map Process.space := fun i hi ↦
      ExitReport.map_of_ne hrep _ (fun _ ↦ rfl) hi
    have hhusk : k₂.processes[pid]? = some (p.husk code) := ExitReport.getElem?_husk hp hne hrep
    have hl0 : k₂.kernelTtbr0 = k.kernelTtbr0 := hrep.quiet.kernelTtbr0
    have hk1 : k₂.kernelL1 = k.kernelL1 := hrep.quiet.kernelL1
    refine ⟨?_, fun hs g hg hog ↦ ?_, fun g hg ↦ ?_, ?_, fun {i q} hq ↦ ?_, ?_⟩
    · rw [hk1, roots_husk hl0 hhusk hspace rfl, pages_husk hhusk hspace L.heap rfl]
      exact ho'
    · rcases hcases g hg with ⟨-, hg'⟩ | ⟨-, hg'⟩ | ⟨-, hg'⟩
      · rw [hg'.1] at hog
        exact h.noHeld hs g hg hog
      · simp [hg'] at hog
      · exact hg'.elim (by simp [hog]) fun hx ↦ hx.2 hs
    · rw [← h.tables g hg]
      rcases hcases g hg with ⟨-, hg'⟩ | ⟨hog, hg'⟩ | ⟨⟨q, hog⟩, hg'⟩
      · rw [hg'.1]
      · simp [hog, hg']
      · rcases hg' with hg' | ⟨hg', -⟩ <;> simp [hog, hg']
    · rw [hl0, hk1]
      exact h.kernel_congr fun g q ↦ htable g none q (by simp)
    · by_cases hi : i = pid
      · subst hi
        rw [hhusk] at hq
        cases hq
        exact ⟨fun _ ↦ ⟨rfl, rfl⟩, fun va f hmem ↦ absurd hmem List.not_mem_nil,
          fun hx ↦ absurd rfl hx⟩
      · have hsp := hspace i hi
        rw [hq, Option.map_some] at hsp
        obtain ⟨q₀, hq₀, he⟩ := Option.map_eq_some_iff.mp hsp.symm
        exact h.proc_congr hq₀ he.symm fun g path ↦ htable g _ path (by simpa using hi)
    · rw [show k₂.programs = k.programs from hrep.quiet.programs]
      exact h.programs
  rw [Kernel.activate_eq]
  refine ⟨own', hinv.of_mem_eq ⟨rfl, fun _ ↦ rfl, rfl, rfl, rfl⟩ rfl, fun g hg hog hP ↦ ?_,
    fun hs g hg ↦ ?_⟩
  · rcases hcases g hg with ⟨-, hsame, hm⟩ | ⟨hog', -⟩ | ⟨⟨q', hog'⟩, -⟩
    · exact ⟨hsame, hm.trans (hkept g hg hog hP.2.2).2⟩
    · exact absurd hog' hP.1
    · exact absurd hog' (hP.2.1 q')
  · rcases hcases g hg with ⟨⟨hpage, hnode⟩, hsame, -⟩ | ⟨hog, hfree⟩ | ⟨hog, hfree⟩
    · rw [hsame]
      exact ⟨.inl, fun hx ↦ hx.elim id fun hx ↦ hx.elim (absurd · hpage) (absurd · hnode)⟩
    · exact ⟨fun _ ↦ .inr (.inl hog), fun _ ↦ hfree⟩
    · exact ⟨fun _ ↦ .inr (.inr hog), fun _ ↦ hfree.resolve_right fun hx ↦ hx.2 hs⟩

end Inv
end Jatuli

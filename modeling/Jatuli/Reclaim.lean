import Jatuli.Serving

/-!
# What a teardown gives back

The pages and tables of a process return to the free list, each once, and nothing else does.  What
other spaces translate to is the same as before.
-/

set_option autoImplicit false

namespace Jatuli

/-! ## Translations -/

theorem leafAt_cons_cons (m : Mem) (va shift shift' : Nat) (shifts : List Nat) (t : Nat) :
    leafAt m va (shift :: shift' :: shifts) t =
      if entry m t (tableIndex va shift) &&& descTable = descTable
      then leafAt m va (shift' :: shifts) (entry m t (tableIndex va shift) &&& addrMask)
      else if entry m t (tableIndex va shift) &&& descTable = descBlock
      then some (entry m t (tableIndex va shift)) else none := rfl

/-- A walk that meets the same tables ends the same way. -/
theorem leafAt_congr {m m' : Mem} (va : Nat) : ∀ (shifts : List Nat) (t : Nat),
    (∀ path g, path.length < shifts.length → (∀ i ∈ path, i < 512) → walk m t path = some g →
      Set.EqOn m' m (frameAt g)) → leafAt m' va shifts t = leafAt m va shifts t
  | [], _, _ => rfl
  | [shift], t, h => by
    rw [leafAt, leafAt, entry_congr (h [] t (by simp) (by simp) rfl) (tableIndex_lt va shift)]
  | shift :: shift' :: shifts, t, h => by
    have he := entry_congr (h [] t (by simp) (by simp) rfl) (tableIndex_lt va shift)
    rw [leafAt_cons_cons, leafAt_cons_cons, he]
    split
    · rename_i htab
      refine leafAt_congr va (shift' :: shifts) _ fun path g hlen hlt hw ↦ ?_
      refine h (tableIndex va shift :: path) g (by simpa using hlen) ?_ ?_
      · simpa using ⟨tableIndex_lt va shift, hlt⟩
      · rw [walk, Radix.walk_cons, child_eq_some.mpr ⟨htab, rfl⟩]
        exact hw
    · rfl

namespace Inv

variable {L : Layout} {own own' : Nat → Owner} {k k' : Kernel} {pid : Nat} {p : Process}

/-- The kernel's own tables, from the L1 that all spaces share. -/
theorem kernel_node (h : Inv True L own k) {path : List Nat} {f : Nat} (hlen : path.length ≤ 2)
    (hlt : ∀ i ∈ path, i < 512) (hw : walk k.mem k.kernelL1 path = some f) :
    Managed L.start f ∧ ∃ q, own f = .node none q := by
  have hl1 := h.kernel.l1
  have hw' : walk k.mem k.kernelTtbr0 (0 :: path) = some f := by
    rw [← List.singleton_append, walk_append, hl1]
    exact hw
  obtain ⟨hf, ho⟩ := h.owned.tree.node (show k.roots none = _ from rfl)
    ⟨by exact Nat.succ_le_succ hlen, by simpa using hlt, by simp [slotOf]⟩ hw'
  exact ⟨hf, _, ho⟩

/-- What a process can access depends on its own tables and the kernel's only. -/
theorem leafDescriptor_congr (h : Inv True L own k) (hp : k.processes[pid]? = some p)
    (hl : p.live = true) {m' : Mem}
    (hm : ∀ g id q, Managed L.start g → own g = .node id q → id = none ∨ id = some pid →
      Set.EqOn m' k.mem (frameAt g)) (va : Nat) :
    leafDescriptor m' p.ttbr0 va = leafDescriptor k.mem p.ttbr0 va := by
  have hr := root_of_live hp hl
  obtain ⟨hmr, hor⟩ := h.owned.tree.node hr (.nil _) rfl
  have hchild := child_congr (hm _ _ _ hmr hor (.inr rfl)) (tableIndex_lt va 39)
  have hone : ∀ m, walkVa m va [39] p.ttbr0 = child m p.ttbr0 (tableIndex va 39) := fun m ↦ by
    rw [walkVa_eq, List.map_cons, List.map_nil, walk, Radix.walk_cons]
    cases child m p.ttbr0 (tableIndex va 39) <;> rfl
  rw [leafDescriptor, leafDescriptor, l0Ptr, h.root_mask hr, hone, hone, hchild]
  cases hc : child k.mem p.ttbr0 (tableIndex va 39) with
  | none => rfl
  | some t =>
    refine if_congr Iff.rfl (leafAt_congr va _ _ fun path g hlen hlt hw ↦ ?_) rfl
    have hw' := (walk_cons_of_child hc path).trans hw
    by_cases h0 : tableIndex va 39 = 0
    · rw [h0, h.walk_slot0 hr] at hw'
      obtain ⟨hg, hog⟩ := h.owned.tree.node (show k.roots none = _ from rfl)
        ⟨by exact Nat.succ_le_of_lt hlen, by simpa using hlt, by simp [slotOf]⟩ hw'
      exact hm g none _ hg hog (.inl rfl)
    by_cases h1 : tableIndex va 39 = slotOf (some pid)
    · rw [h1] at hw'
      obtain ⟨hg, hog⟩ := h.owned.tree.node hr
        (inTree_user pid (Nat.le_of_lt_succ hlen) hlt) hw'
      exact hm g _ _ hg hog (.inr rfl)
    · rw [h.owned.tree.slots hr (tableIndex_lt va 39) h0 h1] at hc
      cases hc

/-! ## The free list -/

/-- The tables of a process are those that can be reached from its root. -/
theorem tableOf_iff (h : Inv True L own k) (hp : k.processes[pid]? = some p) (hl : p.live = true)
    {g : Nat} : TableOf k.mem p.ttbr0 g ↔
      Managed L.start g ∧ ∃ q, own g = .node (some pid) q := by
  have hr := root_of_live hp hl
  constructor
  · intro hg
    obtain ⟨q, hq⟩ := h.owned.tree.node_of_tableOf hr hg
    refine ⟨?_, q, hq⟩
    rcases hg with ⟨c, hc, q, hlen, hlt, hw⟩ | rfl
    · exact (h.owned.tree.node hr (inTree_user pid hlen hlt) ((walk_cons_of_child hc q).trans hw)).1
    · exact (h.owned.tree.node hr (.nil _) rfl).1
  · rintro ⟨hg, q, hq⟩
    exact h.owned.tree.tableOf_of_node trivial hr hg hq

/-- The pages of a process are those in its list. -/
theorem mem_frames_iff (h : Inv True L own k) (hp : k.processes[pid]? = some p) {g : Nat} :
    g ∈ p.frames.map Prod.snd ↔ Managed L.start g ∧ own g = .page (some pid) := by
  have hpage := (h.owned.page (some pid)).2 g
  rwa [show k.pages L.heap (some pid) = p.frames by simp [Kernel.pages, hp]] at hpage

/-- **What is free after a teardown**: what was, and the pages and tables of the process. -/
theorem teardown_free {code : Int} (h : Inv True L own k) (hp : k.processes[pid]? = some p)
    (hl : p.live = true) (hne : p.parent ≠ some pid) (hroot : k.ttbr0 = p.ttbr0)
    (ht : k.teardown pid code = some k') (f : Nat) :
    f ∈ k'.freeList ↔ f ∈ k.freeList ∨ f ∈ p.frames.map Prod.snd ∨ TableOf k.mem p.ttbr0 f := by
  obtain ⟨own', h', -, hfree⟩ := h.teardown hp hl hne hroot ht
  rw [h'.mem_freeList.2, h.mem_freeList.2, h.mem_frames_iff hp, h.tableOf_iff hp hl]
  constructor
  · rintro ⟨hf, ho⟩
    rcases (hfree trivial f hf).mp ho with ho | ho | ho
    · exact .inl ⟨hf, ho⟩
    · exact .inr (.inl ⟨hf, ho⟩)
    · exact .inr (.inr ⟨hf, ho⟩)
  · rintro (⟨hf, ho⟩ | ⟨hf, ho⟩ | ⟨hf, ho⟩)
    · exact ⟨hf, (hfree trivial f hf).mpr (.inl ho)⟩
    · exact ⟨hf, (hfree trivial f hf).mpr (.inr (.inl ho))⟩
    · exact ⟨hf, (hfree trivial f hf).mpr (.inr (.inr ho))⟩

/-- The tables of the kernel and of other processes are left alone. -/
theorem teardown_tables {code : Int} (h : Inv True L own k) (hp : k.processes[pid]? = some p)
    (hl : p.live = true) (hne : p.parent ≠ some pid) (hroot : k.ttbr0 = p.ttbr0)
    (ht : k.teardown pid code = some k') {g : Nat} {id : Option Nat} {q : List Nat}
    (hg : Managed L.start g) (hog : own g = .node id q) (hid : id ≠ some pid) :
    Set.EqOn k'.mem k.mem (frameAt g) := by
  obtain ⟨own', -, hkept, -⟩ := h.teardown hp hl hne hroot ht
  refine (hkept g hg (by simp [hog]) ⟨by simp [hog], fun q' ↦ by simp [hog, hid], ?_⟩).2
  rintro ⟨parent, r, -, hr, hring, rfl⟩
  rw [(h.ofRing hr hring).2] at hog
  cases hog

end Inv

/-! ## Teardown -/

/-- What is left of a process: no claim to the keyboard, no ring, no parked read, no waiter and no
pages. -/
structure Process.Ended (p : Process) : Prop where
  foreground : p.foreground = false
  ringPa : p.ringPa = 0
  pending : p.pending = Vector.replicate maxPending none
  ringWaiter : p.ringWaiter = none
  exitWaiter : p.exitWaiter = none
  frames : p.frames = []

/-- What a teardown of process `pid` does to frames and tables. -/
structure Reclaimed (k k' : Kernel) (pid : Nat) (p : Process) : Prop where
  /-- The free list has each frame once. -/
  nodup : k'.freeList.Nodup
  /-- To what was free come the pages of the process and its tables. -/
  free : ∀ f, f ∈ k'.freeList ↔
    f ∈ k.freeList ∨ f ∈ p.frames.map Prod.snd ∨ TableOf k.mem p.ttbr0 f
  /-- Each of them is returned once: the list of pages has no repetition, no page is a table and
  neither was free before. -/
  pages : (p.frames.map Prod.snd).Nodup
  page : ∀ f ∈ p.frames.map Prod.snd, f ∉ k.freeList ∧ ¬ TableOf k.mem p.ttbr0 f
  table : ∀ f, TableOf k.mem p.ttbr0 f → f ∉ k.freeList
  /-- The tables below the kernel's L1 are as they were. -/
  kernel : ∀ path f, path.length ≤ 2 → (∀ i ∈ path, i < 512) →
    walk k.mem k.kernelL1 path = some f → Set.EqOn k'.mem k.mem (frameAt f)
  /-- And so is what the other processes can access. -/
  others : ∀ i q, i ≠ pid → k.processes[i]? = some q → q.live = true → ∀ va,
    leafDescriptor k'.mem q.ttbr0 va = leafDescriptor k.mem q.ttbr0 va
  ended : ∃ q, k'.processes[pid]? = some q ∧ q.Ended

theorem Inv.reclaimed {L : Layout} {own : Nat → Owner} {k k' : Kernel} {pid : Nat} {p : Process}
    {code : Int} (h : Inv True L own k) (hp : k.processes[pid]? = some p) (hl : p.live = true)
    (hne : p.parent ≠ some pid) (hroot : k.ttbr0 = p.ttbr0)
    (ht : k.teardown pid code = some k') : Reclaimed k k' pid p where
  nodup := by
    obtain ⟨own', h', -⟩ := h.teardown hp hl hne hroot ht
    exact h'.mem_freeList.1
  free := h.teardown_free hp hl hne hroot ht
  pages := by
    have hnd := (h.owned.page (some pid)).1
    rwa [show k.pages L.heap (some pid) = p.frames by simp [Kernel.pages, hp]] at hnd
  page f hf := by
    obtain ⟨-, ho⟩ := (h.mem_frames_iff hp).mp hf
    rw [h.mem_freeList.2, h.tableOf_iff hp hl, ho]
    simp
  table f hf := by
    obtain ⟨-, q, ho⟩ := (h.tableOf_iff hp hl).mp hf
    rw [h.mem_freeList.2, ho]
    simp
  kernel path f hlen hlt hw := by
    obtain ⟨hf, q, ho⟩ := h.kernel_node hlen hlt hw
    exact h.teardown_tables hp hl hne hroot ht hf ho (by simp)
  others i q hi hq hlq va := by
    refine h.leafDescriptor_congr hq hlq (fun g id path hg hog hid ↦ ?_) va
    refine h.teardown_tables hp hl hne hroot ht hg hog ?_
    rcases hid with rfl | rfl
    · simp
    · simpa using hi
  ended := by
    obtain ⟨k₁, msg, hrep, rfl⟩ := Kernel.teardown_cases hp hne ht
    refine ⟨p.husk code, ?_, ⟨rfl, rfl, rfl, rfl, rfl, rfl⟩⟩
    rw [Kernel.kprintln_processes, Kernel.activate_processes]
    exact ExitReport.getElem?_husk hp hne hrep

/-- Building a process takes free frames for it, and leaves all others their use. -/
theorem Inv.free_of_grown {L : Layout} {own own' : Nat → Owner} {k : Kernel} {m m' : Mem}
    (h : Inv True L own k) {pid : Nat} (hnew : k.processes.length ≤ pid)
    (hg : Grown L.start (some pid) own own' m m') {f : Nat} (hf : Managed L.start f) :
    own f = .free ↔ own' f = .free ∨ own' f = .page (some pid) ∨
      ∃ q, own' f = .node (some pid) q := by
  refine ⟨hg.fresh f hf, fun ho' ↦ ?_⟩
  have hnone : k.processes[pid]? = none := List.getElem?_eq_none hnew
  by_contra ho
  rw [hg.keep f hf ho] at ho'
  rcases ho' with ho' | ho' | ⟨q, ho'⟩
  · exact ho ho'
  · have hmem := ((h.owned.page (some pid)).2 f).mpr ⟨hf, ho'⟩
    simp [Kernel.pages, hnone] at hmem
  · exact h.no_node (by simp [Kernel.roots, hnone]) hf q ho'

/-- **A process that comes and goes leaves the free frames as they were.** -/
theorem LifeInv.round_trip {L : Layout} {k k₁ k₂ k₃ : Kernel} (h : LifeInv L k) {image : List UInt8}
    {root pid : Nat} {s₁ : Phys} {code : Int} (himg : Elf.InUserSlot image)
    (hroot : newAddressSpace k.phys k.kernelL1 = some (root, s₁))
    (hcreate : { k with phys := s₁ }.create image root = some (pid, k₁))
    (hsetup : k₂ = k₁ ∨ k₁.setupRing pid = some k₂)
    (ht : (k₂.activate root).teardown pid code = some k₃) (f : Nat) :
    f ∈ k₃.freeList ↔ f ∈ k.freeList := by
  obtain ⟨own, hinv⟩ := h.inv
  obtain ⟨⟨loaded, frames, s₂⟩, hspace, hcreate⟩ := Option.bind_eq_some_iff.mp hcreate
  cases hcreate
  have hp₁ : (k.processes ++ [Process.fresh root loaded frames])[k.processes.length]? =
      some (Process.fresh root loaded frames) := List.getElem?_concat_length
  obtain ⟨own₁, hinv₁, -, hg₁⟩ :=
    hinv.create himg hroot hspace (p := Process.fresh root loaded frames) rfl
  -- with or without a ring, all that was taken was taken for the process
  obtain ⟨own₂, p₂, hinv₂, hg₂, hp₂, hl₂, hroot₂, hpar₂, hsync₂⟩ : ∃ own₂ p₂, Inv True L own₂ k₂ ∧
      Grown L.start (some k.processes.length) own own₂ k.mem k₂.mem ∧
      k₂.processes[k.processes.length]? = some p₂ ∧ p₂.live = true ∧ p₂.ttbr0 = root ∧
      p₂.parent = none ∧ k₂.Synced := by
    rcases hsetup with rfl | hsetup
    · exact ⟨own₁, _, hinv₁, hg₁, hp₁, rfl, rfl, rfl, h.synced⟩
    · rcases hinv₁.setupRing hp₁ rfl hsetup with ⟨hne, -⟩ |
        ⟨-, own₂, frame, phys, rfl, hinv₂, -, -, -, hg₂⟩
      · exact absurd rfl hne
      · refine ⟨own₂, { Process.fresh root loaded frames with
          ringPa := frame, frames := frames ++ [(userRingVa, frame)] }, hinv₂, hg₁.trans hg₂, ?_,
          rfl, rfl, rfl, h.synced⟩
        show (List.modify ..)[k.processes.length]? = _
        rw [List.getElem?_modify_eq, hp₁]
        rfl
  have hne : root ≠ 0 := newAddressSpace_ne_zero hroot
  have hinv₂' : Inv True L own₂ (k₂.activate root) := by
    rw [Kernel.activate_eq]
    exact hinv₂.of_mem_eq ⟨rfl, fun _ ↦ rfl, rfl, rfl, rfl⟩ rfl
  obtain ⟨own₃, hinv₃, -, hfree⟩ := hinv₂'.teardown (by rw [Kernel.activate_processes, hp₂]) hl₂
    (by simp [hpar₂]) (by rw [Kernel.activate_ttbr0 hsync₂ hne, hroot₂]) ht
  rw [hinv₃.mem_freeList.2, hinv.mem_freeList.2]
  refine and_congr_right fun hf ↦ ?_
  rw [hfree trivial f hf, hinv.free_of_grown le_rfl hg₂ hf]

/-- **Teardown reclaims exactly what the process owned**, in every state that operations on
processes lead to, and in every state of the kernel at work; and creating a process, with or without
a ring, and tearing it down again restores the set of free frames. -/
theorem teardown_reclaims {programs : List (String × List UInt8)}
    (hprog : ∀ q ∈ programs, Elf.InUserSlot q.2) {k : Kernel}
    (hk : (∃ kernelEnd, ramBase ≤ kernelEnd ∧ (life kernelEnd programs).Reach LifeOp.Linked k) ∨
      (serve programs).Reach ServeOp.Linked k) :
    (∀ pid p code k', k.processes[pid]? = some p → p.live = true → k.ttbr0 = p.ttbr0 →
      k.teardown pid code = some k' → Reclaimed k k' pid p) ∧
    ∀ image root s₁ pid k₁ k₂ code k₃, Elf.InUserSlot image →
      newAddressSpace k.phys k.kernelL1 = some (root, s₁) →
      { k with phys := s₁ }.create image root = some (pid, k₁) →
      (k₂ = k₁ ∨ k₁.setupRing pid = some k₂) →
      (k₂.activate root).teardown pid code = some k₃ →
      ∀ f, f ∈ k₃.freeList ↔ f ∈ k.freeList := by
  obtain ⟨L, hlife⟩ : ∃ L, LifeInv L k := by
    rcases hk with ⟨kernelEnd, hend, hk⟩ | hk
    · obtain ⟨L, -, hlife⟩ := lifeInv_of_reach hend hprog hk
      exact ⟨L, hlife⟩
    · exact lifeInv_of_serve hprog hk
  obtain ⟨own, h⟩ := hlife.inv
  refine ⟨fun pid p code k' hp hl hroot ht ↦ ?_, fun image root s₁ pid k₁ k₂ code k₃ himg hroot
    hcreate hsetup ht ↦ hlife.round_trip himg hroot hcreate hsetup ht⟩
  exact h.reclaimed hp hl (fun he ↦ Nat.lt_irrefl _ (hlife.parents pid p pid hp he)) hroot ht

/-- The first process has the keyboard and a ring, and its task waits for completions when it is
torn down. -/
theorem teardown_reclaims_waiting : ∃ k k' p, (serve []).Reach ServeOp.Linked k ∧
    k.processes = [p] ∧ p.frames ≠ [] ∧ p.foreground = true ∧ p.ringPa ≠ 0 ∧
    p.ringWaiter = some 4 ∧ k.teardown 0 0 = some k' ∧ Reclaimed k k' 0 p := by
  have hprog : ∀ q ∈ ([] : List (String × List UInt8)), Elf.InUserSlot q.2 := by simp
  obtain ⟨k₀, p₀, h₀⟩ := exists_firstProcess hprog inUserSlot_pageImage_userBase
    plan_pageImage_userBase (by decide)
  obtain ⟨k₁, p₁, h₁⟩ := h₀.setup hprog
  obtain ⟨root, frames, hentry⟩ := h₁.entry
  obtain ⟨k, hk⟩ : ∃ k : Kernel, k = { k₁ with
    processes := Processes.setWaiter k₁.processes 0 4 } := ⟨_, rfl⟩
  have hstep : serveStep k₁ (.wait 0 4) = some k := by rw [hk]; rfl
  have hreach : (serve []).Reach ServeOp.Linked k :=
    h₁.reach.step (show ServeOp.Linked k₁ (.wait 0 4) from trivial) hstep
  have hps : k.processes = [{ p₁ with ringWaiter := some 4 }] := by
    rw [hk, Processes.setWaiter, h₁.processes]
    rfl
  have hp : k.processes[0]? = some { p₁ with ringWaiter := some 4 } := by rw [hps]; rfl
  have hframes : p₁.frames ≠ [] := by rw [hentry]; simp
  obtain ⟨hfg, hl, hpar⟩ : p₁.foreground = true ∧ p₁.live = true ∧ p₁.parent = none := by
    rw [hentry]
    exact ⟨rfl, rfl, rfl⟩
  obtain ⟨k', ht⟩ := Kernel.teardown_isSome hp (by simp [hpar]) 0
  have hroot : k.ttbr0 = p₁.ttbr0 := by rw [hk]; exact h₁.root
  exact ⟨k, k', _, hreach, hps, hframes, hfg, h₁.ring, rfl, ht,
    (teardown_reclaims hprog (.inr hreach)).1 0 _ 0 k' hp hl hroot ht⟩

end Jatuli

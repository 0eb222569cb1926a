import Jatuli.Races
import Jatuli.Serving

/-!
# Memory along the runs of the machine

In every run, whatever the poller is preempted by, memory is in order up to what the poller's stale
store of flags can do.  The poller reads the address of a ring and stores to it later; in between
the process may have ended and its frames may have been given to another space.  The store then
changes the low half of word 2 of some frame, to 0 or to 1.  In a free frame, and in a page, nothing
depends on that word here.  In a table the word is an entry that now leads nowhere; so tables may be
lost, but nothing is mapped that was not mapped before.  That is `Inv False`, and `MemOk` says that
it holds in every state (`memOk_of_reach`).

The kernel's own tables were never pages of a process, so they are not touched.
-/

set_option autoImplicit false

namespace Jatuli

/-! ## A store of flags to any frame -/

section Stale

variable {m : Mem} {f t i r u : Nat} {on : Bool}

/-- Memory after `set_all_wakeup` has stored to the frame at `f`. -/
def flagStored (m : Mem) (f : Nat) (on : Bool) : Mem :=
  m.store (f + offFlags) 4 (Machine.flagValue on)

theorem flagStored_eqOn (m : Mem) (f : Nat) (on : Bool) :
    Set.EqOn (flagStored m f on) m (frameAt f)ᶜ :=
  Mem.store_eqOn (Nat.le_add_right _ _) (by rw [offFlags, frameSize]; omega)

theorem entry_flagStored_of_ne (hi : i ≠ 2) :
    entry (flagStored m f on) f i = entry m f i :=
  Mem.load_store_disjoint (by rw [offFlags]; omega)

/-- The entry that is hit is not of table type. -/
theorem child_flagStored_two : child (flagStored m f on) f 2 = none := by
  have hlow : (flagStored m f on).load (f + 8 * 2) 4 = Machine.flagValue on :=
    Mem.load_store_of_lt m (by cases on <;> decide)
  have hentry : entry (flagStored m f on) f 2 % 4 = Machine.flagValue on % 4 := by
    rw [entry, Mem.load_add _ 4 4, hlow, show (256 : Nat) ^ 4 = 4 * 2 ^ 30 by decide, Nat.mul_assoc,
      Nat.add_mul_mod_self_left]
  rw [child, if_neg]
  rw [descTable, show 0b11 = 2 ^ 2 - 1 from rfl, Nat.and_two_pow_sub_one_eq_mod, hentry]
  cases on <;> decide

/-- No entry leads anywhere it did not lead before. -/
theorem child_of_flagStored (hf : f % 4096 = 0) (ht : t % 4096 = 0) (hi : i < 512)
    (h : child (flagStored m f on) t i = some u) : child m t i = some u := by
  by_cases htf : t = f
  · subst htf
    by_cases h2 : i = 2
    · rw [h2, child_flagStored_two] at h
      cases h
    · rwa [child, entry_flagStored_of_ne h2] at h
  · rwa [child_congr (eqOn_frameAt hf ht (Ne.symm htf) (flagStored_eqOn m f on)) hi] at h

theorem child_flagStored_of_ne (hf : f % 4096 = 0) (ht : t % 4096 = 0) (hi : i < 512)
    (h2 : i ≠ 2) : child (flagStored m f on) t i = child m t i := by
  by_cases htf : t = f
  · subst htf
    rw [child, child, entry_flagStored_of_ne h2]
  · exact child_congr (eqOn_frameAt hf ht (Ne.symm htf) (flagStored_eqOn m f on)) hi

theorem walk_of_flagStored (hf : f % 4096 = 0) (hr : r % 4096 = 0) {path : List Nat}
    (hlt : ∀ i ∈ path, i < 512) (h : walk (flagStored m f on) r path = some u) :
    walk m r path = some u := by
  refine Radix.walk_mono path (fun p j q hp v w hv hw ↦ ?_) h
  exact child_of_flagStored hf (walk_aligned hr hv) (hlt j (by simp [hp])) hw

theorem walk_flagStored (hf : f % 4096 = 0) (hr : r % 4096 = 0) {path : List Nat}
    (hlt : ∀ i ∈ path, i < 512) (h2 : ∀ i ∈ path, i ≠ 2) :
    walk (flagStored m f on) r path = walk m r path := by
  refine Radix.walk_congr path r fun p j q hp v hv ↦ ?_
  exact child_flagStored_of_ne hf (walk_aligned hr hv) (hlt j (by simp [hp])) (h2 j (by simp [hp]))

variable {start kernelL1 : Nat} {roots : Option Nat → Option Nat}
  {pages : Option Nat → List (Nat × Nat)} {own : Nat → Owner} {s : Phys}

theorem Owned.flagStored (h : Owned False start kernelL1 roots pages own s) (hf : f % 4096 = 0)
    (on : Bool) :
    Owned False start kernelL1 roots pages own { s with mem := flagStored s.mem f on } where
  start_pos := h.start_pos
  free := by
    obtain ⟨fs, hl, hnd, hlen, hmem⟩ := h.free
    refine ⟨fs, hl.congr fun g hg ↦ ?_, hnd, hlen, hmem⟩
    -- the link is in word 0
    have hal := ((hmem g).mp hg).1.aligned
    exact Mem.load_store_disjoint (by rw [offFlags]; omega)
  tree := by
    have hroot : ∀ {id : Option Nat} {r : Nat}, roots id = some r → r % 4096 = 0 := fun hr ↦
      (h.tree.node hr (.nil _) rfl).1.aligned
    refine ⟨fun hr hin hw ↦ h.tree.node hr hin ?_, h.tree.inSpace, False.elim, False.elim,
      fun {pid r} hr ↦ ?_, fun {id r j} hr hj h0 h1 ↦ ?_⟩
    · exact walk_of_flagStored hf (hroot hr) hin.2.1 hw
    · rw [← h.tree.slot0 hr]
      by_cases hrf : r = f
      · rw [hrf]
        exact entry_flagStored_of_ne (by decide)
      · exact entry_congr (eqOn_frameAt hf (hroot hr) (Ne.symm hrf) (flagStored_eqOn _ f on))
          (by decide)
    · refine Option.eq_none_iff_forall_ne_some.mpr fun u hu ↦ ?_
      have hc := child_of_flagStored hf (hroot hr) hj hu
      rw [h.tree.slots hr hj h0 h1] at hc
      cases hc
  page := h.page
  leaf id r path g hr hlen hin hw :=
    h.leaf id r path g hr hlen hin
      (walk_of_flagStored hf (h.tree.node hr (.nil _) rfl).1.aligned hin.1 hw)
  slot := h.slot

/-- **A stale store of flags** is harmless, unless it goes to one of the kernel's tables. -/
theorem Inv.flagStored {L : Layout} {k : Kernel} (h : Inv False L own k) (hf : Managed L.start f)
    (hkernel : f ∉ L.tables) (on : Bool) :
    Inv False L own (k.ringStore f offFlags 4 (Machine.flagValue on)) := by
  have hpath : ∀ i ∈ tablePath userRingVa, i < 512 ∧ i ≠ 2 := by decide
  refine ⟨h.owned.flagStored hf.aligned on, False.elim, h.tables, ?_, fun {pid p} hp ↦ ?_,
    h.programs⟩
  · refine h.kernel_congr fun g q hg hog ↦ ?_
    refine eqOn_frameAt hf.aligned hg.aligned (fun e ↦ hkernel ?_) (flagStored_eqOn _ f on)
    rw [e]
    exact (h.tables g hg).mp ⟨q, hog⟩
  · refine (h.proc hp).congr rfl fun hring t ht ↦ ?_
    have hroot := (h.owned.tree.node (Inv.root_of_live hp ((h.proc hp).live hring)) (.nil _) rfl).1
    refine ⟨?_, ?_⟩
    · rw [← ht]
      exact walk_flagStored hf.aligned hroot.aligned (fun i hi ↦ (hpath i hi).1)
        fun i hi ↦ (hpath i hi).2
    · by_cases htf : t = f
      · rw [htf]
        exact entry_flagStored_of_ne (by decide)
      · exact entry_congr (eqOn_frameAt hf.aligned (walk_aligned hroot.aligned ht) (Ne.symm htf)
          (flagStored_eqOn _ f on)) (tableIndex_lt _ _)

end Stale

/-! ## The live root when the poller drains -/

/-- The live root is the kernel's or that of a live process, unless the poller has installed that of
a process that has ended; and then it has nothing to drain there. -/
def RootSafe (m : Machine) : Prop :=
  RootLive m.k ∨ ∀ n i, m.poller.pc = .scanDrain n i →
    ∃ p, m.k.processes[i]? = some p ∧ p.live = false

theorem dead_of_evolves {k k' : Kernel} (h : k.Evolves k') {i : Nat} {p : Process}
    (hp : k.processes[i]? = some p) (hl : p.live = false) :
    ∃ p', k'.processes[i]? = some p' ∧ p'.live = false := by
  obtain ⟨p', hp', he⟩ := h.entries hp
  refine ⟨p', hp', Bool.eq_false_iff.mpr fun hl' ↦ ?_⟩
  rw [he.live hl'] at hl
  cases hl

theorem RootSafe.step {m m' : Machine} {a : Act} (hctl : Ctl m) (h : RootSafe m)
    (hm : Move m a m') : RootSafe m' := by
  have hev := hctl.evolves hm
  by_cases hdrain : ∃ n i, m'.poller.pc = .scanDrain n i
  · obtain ⟨n, i, hpc'⟩ := hdrain
    rcases pc_scanDrain hm hpc' with hpc | ⟨root, hpc, hk⟩
    · -- the poller stays where it is
      rcases h with hlive | hdead
      · refine .inl (hlive.of_change hctl hm fun n i root hpc₁ ↦ ?_)
        rw [hpc] at hpc₁
        cases hpc₁
      · obtain ⟨p, hp, hl⟩ := hdead n i hpc
        refine .inr fun n' i' hpc'' ↦ ?_
        rw [hpc'] at hpc''
        cases hpc''
        exact dead_of_evolves hev hp hl
    · -- it has just installed the root
      have hpoll := hctl.poller
      rw [hpc] at hpoll
      obtain ⟨p, hp, rfl⟩ := hpoll
      have hp' : m'.k.processes[i]? = some p := by rw [hk, Kernel.activate_processes, hp]
      cases hl : p.live with
      | true =>
        refine .inl (.inr ⟨i, p, hp', hl, ?_⟩)
        rw [hk]
        exact Kernel.activate_ttbr0 hctl.orderly.synced (hctl.orderly.entry hp).root
      | false =>
        refine .inr fun n' i' hpc'' ↦ ?_
        rw [hpc'] at hpc''
        cases hpc''
        exact ⟨p, hp', hl⟩
  · exact .inr fun n i hpc ↦ absurd ⟨n, i, hpc⟩ hdrain

/-- So where there is a ring to drain the live root is that of a space. -/
theorem RootSafe.drain {m : Machine} (h : RootSafe m) {n i : Nat} {p : Process}
    (hpc : m.poller.pc = .scanDrain n i) (hp : m.k.processes[i]? = some p) (hl : p.live = true) :
    ∃ rid, m.k.roots rid = some m.k.ttbr0 := by
  rcases h with (hroot | ⟨j, q, hq, hlq, hroot⟩) | hdead
  · exact ⟨none, congrArg some hroot.symm⟩
  · exact ⟨some j, hroot ▸ Inv.root_of_live hq hlq⟩
  · obtain ⟨q, hq, hd⟩ := hdead n i hpc
    rw [hp] at hq
    obtain rfl := Option.some.inj hq
    rw [hl] at hd
    cases hd

/-! ## The invariant -/

/-- The address of a ring that the poller is about to store to. -/
def PollerPc.target : PollerPc → Option Nat
  | .flagsStore _ _ _ ringPa _ => some ringPa
  | _ => none

/-- **Memory is in order**: the isolation invariant holds up to lost tables, and the poller is not
about to store to a table of the kernel. -/
structure MemOk (L : Layout) (m : Machine) : Prop where
  inv : ∃ own, Inv False L own m.k
  root : RootSafe m
  target : ∀ pa, m.poller.pc.target = some pa → Managed L.start pa ∧ pa ∉ L.tables

namespace MemOk

variable {L : Layout} {m m' : Machine} {a : Act} {own : Nat → Owner} {k k' : Kernel} {pid : Nat}
  {p : Process}

/-- The scheduler does not touch memory. -/
theorem inv_schedule (h : Inv False L own k) : Inv False L own k.schedule := by
  refine h.of_mem_eq ⟨?_, fun _ ↦ ?_, ?_, ?_, ?_⟩ ?_ <;> rw [Kernel.schedule_eq]

theorem inv_block (h : Inv False L own k) : Inv False L own k.blockCurrent :=
  inv_schedule (h.of_mem_eq ⟨rfl, fun _ ↦ rfl, rfl, rfl, rfl⟩ rfl)

theorem inv_enterWait (h : Inv False L own k) (hu : AtUser k pid p) (ringPa minComplete : Nat) :
    Inv False L own ({ m with k := k }.enterWait pid ringPa minComplete).k := by
  rcases enterWait_cases (m := { m with k := k }) hu ringPa minComplete with ⟨-, he⟩ | ⟨-, he⟩
  · rw [he]
    exact h
  · rw [he]
    refine inv_block (h.of_mem_eq (.modify (f := fun q ↦ { q with ringWaiter := some (taskOf pid) })
      (fun _ ↦ rfl) k pid k.sched) rfl)

/-- The UART interrupt. -/
theorem inv_uart (h : Inv False L own m.k) (hctl : Ctl m) {bytes : List UInt8}
    (hs : Machine.uartIrq m.k bytes = some k') : Inv False L own k' := by
  rcases hctl.uart_move hs with ⟨input, uart⟩ |
    @⟨input, uart, pid, i₁, i₃, p, k₂, completed, hfg, hp, hne, hloop⟩
  · exact h.of_mem_eq (.of_quiet (input_quiet m.k input uart)) rfl
  have hl := hctl.orderly.live_of_ring hp hne
  have h₂ : Inv False L own { m.k with input, uart, installed := i₁, ttbr0 := p.ttbr0 } :=
    h.of_mem_eq ⟨rfl, fun _ ↦ rfl, rfl, rfl, rfl⟩ rfl
  obtain ⟨h₃, -⟩ := h₂.pollPendingFrom hp hne (Inv.root_of_live hp hl) hfg hloop
  have h₄ : Inv False L own { k₂ with installed := i₃, ttbr0 := m.k.ttbr0 } :=
    h₃.of_mem_eq ⟨rfl, fun _ ↦ rfl, rfl, rfl, rfl⟩ rfl
  cases completed with
  | false => exact h₄
  | true =>
    exact h₄.of_mem_eq (.modify (f := fun q ↦ { q with ringWaiter := none }) (fun _ ↦ rfl) _ pid _)
      rfl

/-- What `enter` may do before it drains: the flag is lowered, and the poller woken. -/
theorem lowered (h : Inv False L own k) (hu : AtUser k pid p) (hring : p.ringPa ≠ 0) {k₁ : Kernel}
    (hk₁ : k₁ = k ∨ k₁ = k.ringStore p.ringPa offFlags 4 0 ∨
      k₁ = (k.ringStore p.ringPa offFlags 4 0).wake pollerTask) :
    Inv False L own k₁ ∧ k₁.processes = k.processes ∧ k₁.roots (some pid) = some k₁.ttbr0 ∧
      Set.EqOn k₁.mem k.mem (frameAt p.ringPa)ᶜ := by
  have hflag : Set.EqOn (k.ringStore p.ringPa offFlags 4 0).mem k.mem (frameAt p.ringPa)ᶜ :=
    k.ringStore_eqOn (by decide)
  have hstore : Inv False L own (k.ringStore p.ringPa offFlags 4 0) :=
    h.write_page (.of_quiet (k.ringStore_quiet ..)) hu.entry ((h.proc hu.entry).ring hring).1 hflag
  rcases hk₁ with rfl | rfl | rfl
  · exact ⟨h, rfl, hu.rooted, Set.eqOn_refl _ _⟩
  · exact ⟨hstore, rfl, hu.rooted, hflag⟩
  · exact ⟨hstore.of_mem_eq ⟨rfl, fun _ ↦ rfl, rfl, rfl, rfl⟩ rfl, rfl, hu.rooted, hflag⟩

/-- The first half of `enter`. -/
theorem inv_enterSubmit (h : Inv False L own k) (hu : AtUser k pid p) (hring : p.ringPa ≠ 0)
    (ho : Orderly k) (hstaff : Staffed k) (hs : k.enterSubmit pid p.ringPa = some k') :
    ∃ own', Inv False L own' k' := by
  obtain ⟨k₁, hk₁, hd, -, -, -, -, -⟩ := ho.enterSubmit hstaff hu.entry hs
  obtain ⟨h₁, hps₁, hr₁, -⟩ := lowered h hu hring hk₁
  obtain ⟨own', h', -⟩ := h₁.drain (hps₁ ▸ hu.entry) hr₁ hd
  exact ⟨own', h'⟩

/-- The poller's step. -/
theorem inv_poller (h : MemOk L m) (hctl : Ctl m) {l' : Poller}
    (hmove : PollerMove m.k m.poller k' l') : ∃ own', Inv False L own' k' := by
  obtain ⟨own, hinv⟩ := h.inv
  cases hmove with
  | record hpc => exact ⟨own, hinv.of_mem_eq ⟨rfl, fun _ ↦ rfl, rfl, rfl, rfl⟩ rfl⟩
  | scanActivate hpc =>
    refine ⟨own, hinv.of_mem_eq ⟨?_, fun _ ↦ ?_, ?_, ?_, ?_⟩ ?_⟩ <;> rw [Kernel.activate_eq]
  | @scanDrain n i k' hpc hd =>
    obtain ⟨p, hp⟩ := drain_entry hd
    by_cases hring : p.ringPa = 0
    · obtain rfl := drain_of_no_ring (fun hq ↦ by rw [hp] at hq; cases hq; exact hring) hd
      exact ⟨own, hinv⟩
    · obtain ⟨rid, hr⟩ := h.root.drain hpc hp (hctl.orderly.live_of_ring hp hring)
      obtain ⟨own', h', -⟩ := hinv.drain hp hr hd
      exact ⟨own', h'⟩
  | worked hpc hk =>
    rcases hk with rfl | rfl
    · exact ⟨own, hinv⟩
    · exact ⟨own, hinv.of_mem_eq (.of_quiet (m.k.kprintln_quiet _)) rfl⟩
  | @flagsStore on n i ringPa after hpc =>
    obtain ⟨hm, hkernel⟩ := h.target ringPa (by rw [hpc]; rfl)
    exact ⟨own, hinv.flagStored hm hkernel on⟩
  | block hpc => exact ⟨own, inv_block hinv⟩
  | yield hpc => exact ⟨own, inv_schedule hinv⟩
  | _ => exact ⟨own, hinv⟩

/-- **One step keeps memory in order.** -/
theorem inv_move (h : MemOk L m) (hctl : Ctl m) (hm : Move m a m') :
    ∃ own', Inv False L own' m'.k := by
  obtain ⟨own, hinv⟩ := h.inv
  have ho := hctl.orderly
  cases hm with
  | @create image root s₁ s₂ loaded frames hcur hpc himage hroot hspace =>
    obtain ⟨own', h', -⟩ :=
      hinv.create (hinv.image himage) hroot hspace (p := .fresh root loaded frames) rfl
    exact ⟨own', h'⟩
  | foreground hcur hpc =>
    exact ⟨own, hinv.of_mem_eq (.modify (f := fun q ↦ { q with foreground := true }) (fun _ ↦ rfl)
      m.k _ m.k.sched) rfl⟩
  | spawnJsh hcur hpc hp => exact ⟨own, hinv.of_mem_eq ⟨rfl, fun _ ↦ rfl, rfl, rfl, rfl⟩ rfl⟩
  | idle hcur hpc => exact ⟨own, inv_schedule hinv⟩
  | poller hcur hmove => exact h.inv_poller hctl hmove
  | start hu hpc => exact ⟨own, hinv.kprintln _⟩
  | retest hu hpc => exact ⟨own, inv_enterWait hinv hu _ _⟩
  | @store pid va n v p k' hu hpc hs =>
    exact ⟨own, (hinv.userStore hu.rooted hs).1⟩
  | setup hu hpc hs =>
    rcases hinv.setupRing hu.entry hu.live hs with ⟨-, rfl⟩ | ⟨-, own', frame, phys, -, h', -⟩
    · exact ⟨own, hinv⟩
    · exact ⟨own', h'⟩
  | enterNothing hu hpc hring => exact ⟨own, hinv⟩
  | @enter pid minComplete p k' hu hpc hring hs =>
    obtain ⟨-, p', hu', -⟩ := Proceeds.enterSubmit ho hctl.running (hctl.idle hu).2 hu hs
    obtain ⟨own', h'⟩ := inv_enterSubmit hinv hu hring ho (hctl.idle hu).2 hs
    exact ⟨own', inv_enterWait h' hu' _ _⟩
  | @exit u pid code p report k' hact hu hpc ht =>
    have hu₀ := hu.kprintln report
    have hne := ho.parent_ne hu.entry
    obtain ⟨own', h', -⟩ := (hinv.kprintln report).teardown hu₀.entry hu.live hne hu₀.root ht
    exact ⟨own', inv_schedule (h'.of_mem_eq ⟨rfl, fun _ ↦ rfl, rfl, rfl, rfl⟩ rfl)⟩
  | tick hmask =>
    exact ⟨own, inv_schedule (hinv.of_mem_eq ⟨rfl, fun _ ↦ rfl, rfl, rfl, rfl⟩ rfl)⟩
  | uart hmask hs => exact ⟨own, inv_uart hinv hctl hs⟩

/-- The poller comes to a store by reading the address of a ring. -/
theorem target_move (h : MemOk L m) (hm : Move m a m') (pa : Nat)
    (hpa : m'.poller.pc.target = some pa) : Managed L.start pa ∧ pa ∉ L.tables := by
  cases hm with
  | poller hcur hmove =>
    cases hmove with
    | @flagsRing on n i after p hpc hi hp hring =>
      obtain rfl := Option.some.inj hpa
      obtain ⟨own, hinv⟩ := h.inv
      obtain ⟨hm, ho⟩ := hinv.ofRing hp hring
      refine ⟨hm, fun hx ↦ ?_⟩
      obtain ⟨q, hq⟩ := (hinv.tables _ hm).mpr hx
      rw [ho] at hq
      cases hq
    | _ => cases hpa
  | retest hu hpc =>
    rw [enterWait_poller] at hpa
    exact h.target pa hpa
  | enter hu hpc hring hs =>
    rw [enterWait_poller] at hpa
    exact h.target pa hpa
  | _ => exact h.target pa hpa

theorem move (h : MemOk L m) (hctl : Ctl m) (hm : Move m a m') : MemOk L m' :=
  ⟨h.inv_move hctl hm, h.root.step hctl hm, h.target_move hm⟩

end MemOk

/-- **Memory is in order in every run**, of programs that are linked for the user slot. -/
theorem memOk_of_reach {programs : List (String × List UInt8)} {ok : Machine → Act → Prop}
    {m : Machine} (hprog : ∀ q ∈ programs, Elf.InUserSlot q.2)
    (h : (machine programs).Reach ok m) : ∃ L, MemOk L m := by
  refine h.invariant_of (J := Ctl) (I := fun m ↦ ∃ L, MemOk L m) (fun _ h ↦ ctl_of_reach h) ?_ ?_
  · rintro m ⟨mem, kernelEnd, ticks, k, hend, hb, rfl⟩
    obtain ⟨L, own, -, hinv⟩ := Inv.boot (Nat.lt_of_lt_of_le (by decide) hend) hprog hb
    exact ⟨L, ⟨own, hinv.weaken⟩, .inr nofun, nofun⟩
  · rintro m a m' hctl ⟨L, hI⟩ - hs
    exact ⟨L, hI.move hctl (step_cases hctl.orderly hctl.running hs)⟩

end Jatuli

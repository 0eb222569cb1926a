import Jatuli.Driving
import Jatuli.Headers

/-!
# A second process

The shell asks for a child through its ring: it writes the name of a program into its memory,
submits a spawn and enters the kernel (`Scene.enters`).  With room for the new process this succeeds
(`Inv.spawn_isSome`), so there are scenes of two processes (`exists_family`).
-/

set_option autoImplicit false

namespace Jatuli

/-! ## Spawning succeeds -/

section Spawn

variable {L : Layout} {own : Nat → Owner} {k : Kernel} {pid ptr len : Nat} {p : Process}

/-- Two processes have nothing in common at an address of the user slot. -/
theorem Inv.translate_ne (h : Inv True L own k) {i j va pa : Nat} {p q : Process}
    (hp : k.processes[i]? = some p) (hq : k.processes[j]? = some q) (hlp : p.live = true)
    (hlq : q.live = true) (hne : i ≠ j) (hva : tableIndex va 39 = userL0Idx)
    (ht : translate k.mem p.ttbr0 va = some pa) :
    translate k.mem p.ttbr0 va ≠ translate k.mem q.ttbr0 va := by
  intro he
  obtain ⟨va₁, f₁, hf₁, hpa₁⟩ := h.translate_user hp hlp hva ht
  obtain ⟨va₂, f₂, hf₂, hpa₂⟩ := h.translate_user hq hlq hva (he ▸ ht)
  exact h.frames_disjoint hp hq hne hf₁ hf₂ (by omega)

/-- **A spawn succeeds** when it names a program that is placed well and there is room for it. -/
theorem Inv.spawn_isSome (h : Inv True L own k) (hp : k.processes[pid]? = some p)
    (hl : p.live = true) (hring : p.ringPa ≠ 0) {bytes image : List UInt8} {name : String}
    {loaded : Loaded} {pgs : List PageSpec}
    (hrange : Processes.isUserRange k.processes pid ptr len false = some true)
    (hread : k.readUser ptr len = some bytes) (hname : String.fromUTF8? ⟨bytes.toArray⟩ = some name)
    (himage : k.getProgram name = some image) (hplan : Elf.plan image = some (loaded, pgs))
    (hplaced : loaded.Placed) (hbase : (userBase, pageUserRw) ∈ loaded.pageFlags)
    (hroom : processFrames pgs.length ≤ k.phys.frames.freeCount) (tag : Nat) :
    ∃ root frames k₁, (∃ phys uart, k₁ = { k with
        phys
        uart
        processes := k.processes ++ [{ Process.fresh root loaded frames with parent := some pid }]
        sched := k.sched.spawnInner (some k.processes.length) (some root) }) ∧
      Set.EqOn k₁.mem k.mem (frameAt p.ringPa) ∧
      k.spawn pid ptr len tag = some (k₁.complete p.ringPa tag k.processes.length none) := by
  have himg := h.image himage
  obtain ⟨root, s, frames, s', -, hroot, hspace, -, -, -⟩ := h.newProcess himg hplan hroom
  obtain ⟨q, hq⟩ : ∃ q, q = { Process.fresh root loaded frames with parent := some pid } := ⟨_, rfl⟩
  obtain ⟨own', h', hkept, -⟩ := h.create himg hroot hspace (p := q) (by rw [hq]; rfl)
  have hpid : pid < k.processes.length := (List.getElem?_eq_some_iff.mp hp).1
  have hp' : (k.processes ++ [q])[pid]? = some p := by rw [List.getElem?_append_left hpid, hp]
  have hq' : (k.processes ++ [q])[k.processes.length]? = some q := by
    rw [List.getElem?_append_right le_rfl, Nat.sub_self]
    rfl
  have hqroot : q.ttbr0 = root := by rw [hq]; rfl
  -- the child has a page at `USER_BASE`, and it is not the parent's
  have hguard : translate s'.mem root userBase ≠ translate s'.mem p.ttbr0 userBase := by
    obtain ⟨t, f, hf, ht, he⟩ := h.create_mapped hroot hspace hplaced _ hbase
    have hlq : q.live = true := by rw [hq]; rfl
    have hmask := h'.root_mask (Inv.root_of_live hq' hlq)
    have htrans := translate_of_entry (x := userBase) (hqroot ▸ hmask) rfl ht he
      (or_and_three hf (by decide))
    rw [← hqroot] at htrans ⊢
    exact h'.translate_ne hq' hp' hlq hl (Nat.ne_of_gt hpid) (by decide) htrans
  obtain ⟨hmr, hor⟩ := h.ofRing hp hring
  refine ⟨root, frames, _, ⟨s', Kernel.uart (k.kprintln
    ("[spawn] " ++ name ++ " -> pid " ++ toString k.processes.length)), rfl⟩,
    (hkept _ hmr (by rw [hor]; nofun) trivial).2, ?_⟩
  have hpa : Processes.ringPa k.processes pid = some p.ringPa := by
    rw [Processes.ringPa, hp, Option.map_some]
  have hparent : Processes.ttbr0 (k.processes ++ [q]) pid = some p.ttbr0 := by
    rw [Processes.ttbr0, hp', Option.map_some]
  rw [Kernel.spawn, hpa, hrange]
  simp only [Option.bind_eq_bind, Option.bind_some, Bool.not_true, Bool.false_eq_true, if_false,
    hread, hname, himage, hroot, Kernel.create, hspace, Kernel.setParent_append, ← hq, hparent]
  rw [show guard _ = some () from if_pos hguard]
  rfl

/-- **A drain with one spawn published**: there is a new process and its task, and with room in the
completion queue the parent is told its number. -/
theorem Inv.drain_spawn (h : Inv True L own k) (hp : k.processes[pid]? = some p)
    (hring : p.ringPa ≠ 0) (hoff : p.loaded.OffRing)
    (hr : k.roots (some pid) = some k.ttbr0)
    (htail : sqTail k.mem p.ringPa = sqHead k.mem p.ringPa + 1) {a tag : Nat}
    (ha : a = sqeAddr p.ringPa (slot (sqHead k.mem p.ringPa))) (hop : k.mem.load a 8 = opSpawn)
    (hptr : k.mem.load (a + 8) 8 = ptr) (hlen : k.mem.load (a + 16) 8 = len)
    (htag : k.mem.load (a + 24) 8 = tag) {root : Nat} {frames : List (Nat × Nat)}
    {loaded : Loaded} {k₁ : Kernel}
    (hk₁ : ∃ phys uart, k₁ = { k.log (.sqe pid tag k.ttbr0 none) with
      phys
      uart
      processes := k.processes ++ [{ Process.fresh root loaded frames with parent := some pid }]
      sched := k.sched.spawnInner (some k.processes.length) (some root) })
    (hmem : Set.EqOn k₁.mem k.mem (frameAt p.ringPa))
    (hspawn : (k.log (.sqe pid tag k.ttbr0 none)).spawn pid ptr len tag =
      some (k₁.complete p.ringPa tag k.processes.length none))
    (hcq : cqTail k.mem p.ringPa - cqHead k.mem p.ringPa < ringEntries) :
    ∃ k', k.drain pid = some k' ∧ k'.processes = k₁.processes ∧ k'.sched = k₁.sched ∧
      HeaderAt p.ringPa (sqTail k.mem p.ringPa) k.mem k'.mem ∧
      cqTail k'.mem p.ringPa = cqTail k.mem p.ringPa + 1 ∧
      k'.trace = .ringStore p.ringPa (some pid) ::
        .cqe (some pid) tag ((k.processes.length : Int).bmod (2 ^ 64)) none ::
        .ringStore p.ringPa (some pid) :: .ringStore p.ringPa (some pid) ::
        .ringStore p.ringPa (some pid) :: .sqe pid tag k.ttbr0 none :: k.trace := by
  obtain ⟨phys, uart, hk₁⟩ := hk₁
  have hpa : Processes.ringPa k.processes pid = some p.ringPa := by
    rw [Processes.ringPa, hp, Option.map_some]
  have hsqe : k.processSqe pid a = some (k₁.complete p.ringPa tag k.processes.length none) := by
    rw [Kernel.processSqe, hpa]
    simp only [Option.bind_eq_bind, Option.bind_some, hop, htag, hptr, hlen]
    rw [Kernel.waitsFor_of_ne (by decide), if_neg (by decide), if_neg (by decide),
      if_neg (by decide), if_pos trivial, hspawn]
  have hd := Kernel.drain_one hpa hring htail
  rw [← ha, hsqe, Option.map_some] at hd
  have hhead := h.drain_header hp hring hoff hr hd
  have hct : cqTail k₁.mem p.ringPa = cqTail k.mem p.ringPa :=
    congrArg (BitVec.ofNat 32) (Mem.load_eqOn hmem (Nat.le_add_right ..)
      (by rw [offCqTail, frameSize]; omega))
  have hch : cqHead k₁.mem p.ringPa = cqHead k.mem p.ringPa :=
    congrArg (BitVec.ofNat 32) (Mem.load_eqOn hmem (Nat.le_add_right ..)
      (by rw [offCqHead, frameSize]; omega))
  have howner : k₁.ringOwner p.ringPa = some pid :=
    Kernel.ringOwner_concat (h.ringOwner_eq hp hring) (congrArg Kernel.processes hk₁)
  have hquiet := k₁.complete_quiet p.ringPa tag k.processes.length none
  refine ⟨_, hd, hquiet.processes, hquiet.sched, hhead, ?_⟩
  rcases k₁.complete_cases p.ringPa tag k.processes.length none with ⟨hfull, -⟩ | ⟨-, htail', htr⟩
  · rw [hct, hch] at hfull
    exact absurd hfull (BitVec.not_le.mpr hcq)
  · refine ⟨?_, ?_⟩
    · rw [← hct, ← htail', cqTail, Kernel.ringStore_mem,
        Mem.load_store_disjoint (by rw [offCqTail, offSqHead]; omega)]
      rfl
    · have htrace : k₁.trace = .sqe pid tag k.ttbr0 none :: k.trace := by
        rw [hk₁]
        rfl
      rw [howner, htrace] at htr
      show Event.ringStore p.ringPa ((k₁.complete p.ringPa tag k.processes.length none).ringOwner
        p.ringPa) :: (k₁.complete p.ringPa tag k.processes.length none).trace = _
      have hlt : tag < 2 ^ 64 := htag ▸ k.mem.load_lt 8 (a + 24)
      rw [htr, Kernel.ringOwner_congr hquiet.processes, howner, Nat.mod_eq_of_lt hlt]

end Spawn

/-! ## User code at work -/

/-- A store of one byte is what the kernel does for a process byte by byte. -/
theorem userStore_byte (k : Kernel) (va : Nat) (b : UInt8) :
    Machine.userStore k va 1 b.toNat = k.sttrb va b := by
  have hfill : ∀ pa, k.mem.store pa 1 b.toNat = k.mem.fill pa [b] := by
    intro pa
    funext x
    by_cases hx : x = pa
    · subst hx
      rw [Mem.store, if_pos (by omega), Nat.sub_self, Nat.pow_zero, Nat.div_one, UInt8.ofNat_toNat]
      exact (if_pos rfl).symm
    · rw [Mem.store, if_neg (by omega)]
      exact (if_neg hx).symm
  rw [Machine.userStore, if_pos (by omega), Kernel.sttrb]
  simp only [hfill]

namespace Scene

variable {programs : List (String × List UInt8)} {ok : Machine → Act → Prop} {m : Machine}
  {ps : List Process} {p : Process} {pid : Nat}

/-- It writes bytes where it may. -/
theorem writes (hok : ∀ k a, k.processes = ps → ok { m with k := k } a) (hp : ps[pid]? = some p)
    (hpc : m.user (taskOf pid) = .el0) : ∀ (bytes : List UInt8) {k : Kernel} {dst : Nat},
    Scene programs ok { m with k := k } ps (taskOf pid) → k.Backed pid →
    (∀ i < bytes.length, Processes.isUserRange ps pid (dst + i) 1 true = some true) →
    ∃ k', Scene programs ok { m with k := k' } ps (taskOf pid) ∧ Delivered pid k k' ∧
      (∀ i b, bytes[i]? = some b → k'.Holds (dst + i) b) ∧
      ∀ x c, (∀ i < bytes.length, x ≠ dst + i) → k.Holds x c → k'.Holds x c
  | [], k, dst, h, _, _ => ⟨k, h, .refl _ _, nofun, fun _ _ _ hx ↦ hx⟩
  | b :: bytes, k, dst, h, hb, hrange => by
    have hu := h.atUser hp
    obtain ⟨L, own, hinv⟩ := h.inv
    have hr := hu.rooted
    have hps : k.processes = ps := h.processes
    have hdst : Processes.isUserRange k.processes pid dst 1 true = some true := by
      rw [hps]
      exact hrange 0 (Nat.succ_pos _)
    obtain ⟨pa, hpa⟩ := hb dst hdst
    obtain ⟨k₁, hk₁⟩ : ∃ k₁, k.sttrb dst b = some k₁ := ⟨_, by rw [Kernel.sttrb, hpa]; rfl⟩
    have hd₁ : Delivered pid k k₁ := by
      rw [Kernel.sttrb, hpa] at hk₁
      obtain rfl := Option.some.inj hk₁
      exact ⟨k.setMem_quiet _, rfl, .step .refl hdst hpa⟩
    obtain ⟨-, hheld, hkept⟩ := hinv.sttrb hr hk₁
    have h₁ : Scene programs ok { m with k := k₁ } ps (taskOf pid) :=
      h.stores hp hpc ((userStore_byte k dst b).trans hk₁) (hok k _ hps)
    have hrange' : ∀ i < bytes.length,
        Processes.isUserRange ps pid (dst + 1 + i) 1 true = some true := fun i hi ↦ by
      rw [Nat.add_assoc, Nat.add_comm 1]
      exact hrange (i + 1) (Nat.succ_lt_succ hi)
    obtain ⟨k', h', hd', hheld', hkept'⟩ := writes hok hp hpc bytes h₁
      (hinv.backed_sttrb hr hb hk₁) hrange'
    refine ⟨k', h', hd₁.trans hd', fun i c hc ↦ ?_, fun x c hx hxc ↦ ?_⟩
    · cases i with
      | zero =>
        obtain rfl := Option.some.inj hc
        exact hkept' _ _ (fun i _ ↦ by omega) hheld
      | succ i =>
        have hi := hheld' i c hc
        rwa [Nat.add_assoc, Nat.add_comm 1] at hi
    · refine hkept' x c (fun i hi ↦ ?_) (hkept x c (hx 0 (Nat.succ_pos _)) hxc)
      rw [Nat.add_assoc, Nat.add_comm 1]
      exact hx (i + 1) (Nat.succ_lt_succ hi)

/-- It submits an entry. -/
theorem submits (hok : ∀ k a, k.processes = ps → ok { m with k := k } a) (hp : ps[pid]? = some p)
    (hpc : m.user (taskOf pid) = .el0) (hring : p.ringPa ≠ 0) (op arg0 arg1 tag : Nat)
    (h : Scene programs ok m ps (taskOf pid)) :
    Scene programs ok
      { m with k := m.k.setMem (submitted m.k.mem p.ringPa op arg0 arg1 tag) } ps (taskOf pid) := by
  have hslot := slot_lt (sqTail m.k.mem p.ringPa)
  obtain ⟨a, ha⟩ : ∃ a, a = offSq + 32 * slot (sqTail m.k.mem p.ringPa) := ⟨_, rfl⟩
  have hadd : sqeAddr p.ringPa (slot (sqTail m.k.mem p.ringPa)) = p.ringPa + a := by
    rw [sqeAddr, ha, Nat.add_assoc]
  have hbase : userRingVa = 0x80_0030_0000 := rfl
  rw [offSq] at ha
  have h₁ := h.store hp hpc hring a 8 op (by omega) (by omega) (hok m.k _ h.processes)
  have h₂ := h₁.store hp hpc hring (a + 8) 8 arg0 (by omega) (by omega) (hok _ _ h₁.processes)
  have h₃ := h₂.store hp hpc hring (a + 16) 8 arg1 (by omega) (by omega) (hok _ _ h₂.processes)
  have h₄ := h₃.store hp hpc hring (a + 24) 8 tag (by omega) (by omega) (hok _ _ h₃.processes)
  have h₅ := h₄.store hp hpc hring offSqTail 4 (sqTail m.k.mem p.ringPa + 1).toNat (by decide)
    (by decide) (hok _ _ h₄.processes)
  rw [submitted, hadd, writeSqe, Nat.add_assoc, Nat.add_assoc, Nat.add_assoc]
  exact h₅

/-- It enters the kernel to have its submissions carried out. -/
theorem enters {ps' : List Process} {k' : Kernel} (h : Scene programs ok m ps (taskOf pid))
    (hp : ps[pid]? = some p) (hpc : m.user (taskOf pid) = .el0) (hring : p.ringPa ≠ 0)
    (hflags : flags m.k.mem p.ringPa &&& needWakeup = 0) (hd : m.k.drain pid = some k')
    (hps : k'.processes = ps')
    (hs : k'.sched = { tasks := allTasks ps', current := taskOf pid })
    (hok : ok m (.user (.enter 0))) : Scene programs ok { m with k := k' } ps' (taskOf pid) := by
  have hu := h.atUser hp
  obtain ⟨L, own, hinv⟩ := h.inv
  have hr := hu.rooted
  obtain ⟨own', hinv', -⟩ := hinv.drain hu.entry hr hd
  have hpa : Processes.ringPa m.k.processes pid = some p.ringPa := by
    rw [Processes.ringPa, hu.entry, Option.map_some]
  have hwait : Machine.enterWait { m with k := k' } pid p.ringPa 0 = { m with k := k' } := by
    rw [Machine.enterWait, if_pos (Nat.zero_le _), Machine.userGoto, hs]
    dsimp only
    rw [← hpc, Function.update_eq_self]
  refine ⟨h.reach.step hok ?_, ⟨L, own', hinv'⟩, hps, hs, h.kmain, h.kernelTasks,
    Kernel.drain_silent hu.entry hd h.input⟩
  refine (Machine.step_user hu hpc _).trans ?_
  rw [Machine.userStep, hpa]
  simp only [Option.bind_eq_bind, Option.bind_some, if_neg hring, Kernel.enterSubmit, hflags, ne_eq,
    not_true_eq_false, if_false, hd, hwait]

end Scene

/-! ## The shell and its child -/

theorem placed_pageLoaded : (pageLoaded userBase).Placed := ⟨by decide, by decide⟩

/-- The name of the shell. -/
def jshBytes : List UInt8 := [0x6a, 0x73, 0x68]

/-- The shell has written `jsh` to its stack and submitted a spawn; the poller has not run yet. -/
structure Asking (ok : Machine → Act → Prop) (m : Machine) (p : Process) : Prop where
  scene : Scene shellOnly ok m [p] (taskOf 0)
  el0 : m.user (taskOf 0) = .el0
  start : ∀ i, i ≠ 0 → m.user (taskOf i) = .start
  poller : m.poller = { pc := .record, announced := false, lastWork := 0 }
  shell : Shell p
  sqHead : sqHead m.k.mem p.ringPa = 0
  sqTail : sqTail m.k.mem p.ringPa = 1
  cqHead : cqHead m.k.mem p.ringPa = 0
  cqTail : cqTail m.k.mem p.ringPa = 0
  flags : flags m.k.mem p.ringPa = 0
  opcode : m.k.mem.load (sqeAddr p.ringPa 0) 8 = opSpawn
  ptr : m.k.mem.load (sqeAddr p.ringPa 0 + 8) 8 = userStackVa
  len : m.k.mem.load (sqeAddr p.ringPa 0 + 16) 8 = 3
  tag : m.k.mem.load (sqeAddr p.ringPa 0 + 24) 8 = 0
  name : m.k.readUser userStackVa 3 = some jshBytes
  programs : m.k.programs = shellOnly
  room : 300 ≤ m.k.phys.frames.freeCount
  trace : m.k.trace = []

theorem exists_asking (ok : Machine → Act → Prop)
    (hok : ∀ m a, m.poller.pc = .record → AllLive m → ok m a) : ∃ m p, Asking ok m p := by
  obtain ⟨m, p, h, hel0, hpoll, hshell, hzero, htrace, hroom, hgrant, hprog, hstart⟩ :=
    exists_ringed ok hok
  have hring := hshell.ring
  have hload := hshell.loaded
  have hu := h.atUser (p := p) rfl
  obtain ⟨L, own, hinv⟩ := h.inv
  have hall : ∀ k a, k.processes = [p] → ok { m with k := k } a := by
    intro k a hk
    refine hok _ a (by rw [hpoll]) fun q hq ↦ ?_
    rw [show k.processes = [p] from hk] at hq
    rw [List.mem_singleton.mp hq, hu.live]
  have hzero' : ∀ {off n : Nat}, off + n ≤ 4096 → m.k.mem.load (p.ringPa + off) n = 0 :=
    load_of_zero_frame hzero
  have hhead := sqHead_of_zero hzero
  have htail := sqTail_of_zero hzero
  -- the entry
  obtain ⟨k₁, hk₁⟩ : ∃ k₁ : Kernel,
    k₁ = m.k.setMem (submitted m.k.mem p.ringPa opSpawn userStackVa 3 0) := ⟨_, rfl⟩
  have h₁ : Scene shellOnly ok { m with k := k₁ } [p] (taskOf 0) := by
    rw [hk₁]
    exact h.submits hall rfl hel0 hring opSpawn userStackVa 3 0
  obtain ⟨hop, harg0, harg1, htag⟩ := submitted_entry m.k.mem p.ringPa opSpawn userStackVa 3 0
    (by decide) (by decide) (by decide) (by decide) (a := sqeAddr p.ringPa 0) (by rw [htail]; rfl)
  have hb₁ : k₁.Backed 0 := by
    have hr := hu.rooted
    rw [hk₁]
    refine hinv.backed_write hu.entry hr
      (hgrant.backed hinv hu.entry hu.live (hload ▸ placed_pageLoaded) hu.root)
      ((hinv.proc hu.entry).ring hring).1 (submitted_eqOn ..) rfl fun _ ↦ rfl
  -- the name
  have hrange : ∀ i < jshBytes.length,
      Processes.isUserRange [p] 0 (userStackVa + i) 1 true = some true := by
    intro i hi
    have hi : i < 3 := hi
    have hsize : userStackSize = 4096 := rfl
    have hva : userStackVa = 0x80_0010_0000 := rfl
    rw [Processes.isUserRange, if_neg (by omega), if_pos ⟨by omega, by omega⟩]
  obtain ⟨k₂, h₂, hd₂, hheld₂, -⟩ := Scene.writes hall rfl hel0 jshBytes h₁ hb₁ hrange
  obtain ⟨L₁, own₁, hinv₁⟩ := h₁.inv
  obtain ⟨L₂, own₂, hinv₂⟩ := h₂.inv
  have hu₁ := h₁.atUser (p := p) rfl
  have hu₂ := h₂.atUser (p := p) rfl
  have hoff : p.loaded.OffRing := hload ▸ placed_pageLoaded.offRing
  have hpage : Set.EqOn k₂.mem k₁.mem (frameAt p.ringPa) := by
    have hr := hu₁.rooted
    exact hinv₁.delivered_ring hu₁.entry hring hu₁.entry hoff hr hd₂
  have hmem : ∀ {off n : Nat}, off + n ≤ 4096 → k₂.mem.load (p.ringPa + off) n =
      (submitted m.k.mem p.ringPa opSpawn userStackVa 3 0).load (p.ringPa + off) n := by
    intro off n hoff
    rw [Mem.load_eqOn hpage (Nat.le_add_right ..) (by rw [frameSize]; omega), hk₁]
    rfl
  have hfield : ∀ {off v : Nat}, off ≤ 24 →
      (submitted m.k.mem p.ringPa opSpawn userStackVa 3 0).load (sqeAddr p.ringPa 0 + off) 8 = v →
      k₂.mem.load (sqeAddr p.ringPa 0 + off) 8 = v := by
    intro off v hoff hv
    rw [sqeAddr, Nat.add_assoc, Nat.add_assoc] at hv ⊢
    rw [hmem (by rw [offSq]; omega), hv]
  have hhead₂ : sqHead k₂.mem p.ringPa = 0 := by
    rw [sqHead, hmem (by decide), ← sqHead, submitted_sqHead, hhead]
  have htail₂ : sqTail k₂.mem p.ringPa = 1 := by
    rw [sqTail, hmem (by decide), ← sqTail, submitted_sqTail, htail]
    rfl
  have hch₂ : cqHead k₂.mem p.ringPa = 0 := by
    rw [cqHead, hmem (by decide), submitted_load _ _ _ _ _ _ (by decide), hzero' (by decide)]
    rfl
  have hct₂ : cqTail k₂.mem p.ringPa = 0 := by
    rw [cqTail, hmem (by decide), submitted_load _ _ _ _ _ _ (by decide), hzero' (by decide)]
    rfl
  have hflags₂ : flags k₂.mem p.ringPa = 0 := by
    rw [flags, hmem (by decide), submitted_load _ _ _ _ _ _ (by decide), hzero' (by decide)]
  exact ⟨{ m with k := k₂ }, p, {
    scene := h₂, el0 := hel0, start := hstart, poller := hpoll, shell := hshell
    sqHead := hhead₂, sqTail := htail₂, cqHead := hch₂, cqTail := hct₂
    flags := hflags₂, opcode := hfield (Nat.zero_le _) hop, ptr := hfield (by decide) harg0
    len := hfield (by decide) harg1, tag := hfield (by decide) htag
    name := Kernel.readUser_of_holds hheld₂
    programs := hd₂.quiet.programs.trans (by rw [hk₁]; exact hprog)
    room := by
      show 300 ≤ k₂.phys.frames.freeCount
      rw [hd₂.quiet.frames, hk₁]
      exact hroom
    trace := hd₂.trace.trans (by rw [hk₁]; exact htrace) }⟩

/-- **The shell has a child.**  It has written `jsh` to its stack, submitted a spawn and entered the
kernel; the poller has not run yet. -/
theorem exists_family (ok : Machine → Act → Prop)
    (hok : ∀ m a, m.poller.pc = .record → AllLive m → ok m a) :
    ∃ m p root frames, Scene shellOnly ok m
        [p, { Process.fresh root (pageLoaded userBase) frames with
        parent := some 0 }] (taskOf 0) ∧
      m.user (taskOf 0) = .el0 ∧ m.user (taskOf 1) = .start ∧
      m.poller = { pc := .record, announced := false, lastWork := 0 } ∧ Shell p ∧
      sqHead m.k.mem p.ringPa = sqTail m.k.mem p.ringPa ∧ cqHead m.k.mem p.ringPa = 0 ∧
      cqTail m.k.mem p.ringPa = 1 ∧ flags m.k.mem p.ringPa = 0 ∧
      m.k.trace = [.ringStore p.ringPa (some 0), .cqe (some 0) 0 1 none,
        .ringStore p.ringPa (some 0), .ringStore p.ringPa (some 0), .ringStore p.ringPa (some 0),
        .sqe 0 0 p.ttbr0 none] := by
  obtain ⟨m, p, h⟩ := exists_asking ok hok
  obtain ⟨L, own, hinv⟩ := h.scene.inv
  have hu := h.scene.atUser (p := p) rfl
  have hoff : p.loaded.OffRing := h.shell.loaded ▸ placed_pageLoaded.offRing
  have hr := hu.rooted
  -- the spawn
  obtain ⟨e, he⟩ : ∃ e : Event, e = .sqe 0 0 m.k.ttbr0 none := ⟨_, rfl⟩
  have hold : (m.k.log e).processes = [p] := h.scene.processes
  have himage : (m.k.log e).getProgram "jsh" = some (pageImage userBase) := by
    rw [Kernel.getProgram, Kernel.log, h.programs]
    rfl
  have hname : String.fromUTF8? ⟨jshBytes.toArray⟩ = some "jsh" := rfl
  have hinv₀ : Inv True L own (m.k.log e) := hinv.of_mem_eq (.of_quiet (m.k.log_quiet _)) rfl
  obtain ⟨root, frames, k₁, hk₁, hpage, hspawn⟩ := hinv₀.spawn_isSome hu.entry hu.live
    h.shell.ring rfl h.name hname himage plan_pageImage_userBase placed_pageLoaded (by decide)
    (Nat.le_trans (by decide) h.room) 0
  have hk₁' := hk₁
  rw [he] at hk₁' hpage hspawn
  obtain ⟨k', hd, hps, hsched, hhead, hct, htrace⟩ := hinv.drain_spawn hu.entry h.shell.ring hoff
    hr (by rw [h.sqHead, h.sqTail]; rfl) (by rw [h.sqHead]; rfl) h.opcode h.ptr h.len h.tag hk₁'
    hpage hspawn (by rw [h.cqTail, h.cqHead]; decide)
  obtain ⟨phys, uart, hk₁⟩ := hk₁
  obtain ⟨q, hq⟩ : ∃ q, q = { Process.fresh root (pageLoaded userBase) frames with
    parent := some 0 } := ⟨_, rfl⟩
  have hps' : k'.processes = [p, q] := by
    rw [hps, hk₁, hold, hq]
    rfl
  have hs' : k'.sched = { tasks := allTasks [p, q], current := taskOf 0 } := by
    have hsched₀ : (m.k.log e).sched = { tasks := allTasks [p], current := taskOf 0 } :=
      h.scene.sched
    rw [hsched, hk₁, hold, hsched₀, hq]
    rfl
  have h' := h.scene.enters rfl h.el0 h.shell.ring (by rw [h.flags]; rfl) hd hps' hs'
    (hok _ _ (by rw [h.poller]) (h.scene.allLive hu.live))
  rw [hq] at h'
  refine ⟨_, p, root, frames, h', h.el0, h.start 1 (by decide), h.poller, h.shell,
    ?_, ?_, ?_, ?_, ?_⟩
  · rw [hhead.sqHead, hhead.sqTail]
  · rw [hhead.cqHead, h.cqHead]
  · rw [hct, h.cqTail]
    rfl
  · rw [hhead.flags, h.flags]
  · have hone : ([p].length : Int).bmod (2 ^ 64) = 1 := by rw [List.length_singleton]; decide
    rw [htrace, h.trace, hu.root, h.scene.processes, hone]

end Jatuli

import Jatuli.Tables

/-!
# What a step of the machine can be

The step function, turned round: `PollerMove` lists what the poller does at each of its points, and
`Move` what a step can be at all, with everything the step is known to have tested.  All results
about runs go through the cases of these two relations.
-/

set_option autoImplicit false

namespace Jatuli

/-- One step of the poller, from its position `l` to the position at the end. -/
inductive PollerMove (k : Kernel) (l : Poller) : Kernel → Poller → Prop
  | record (hpc : l.pc = .record) :
      PollerMove k l { k with poller := some pollerTask } { l with pc := .clock }
  | clock (hpc : l.pc = .clock) : PollerMove k l k { l with pc := .top, lastWork := k.ticks }
  | top (hpc : l.pc = .top) :
      PollerMove k l k { l with pc := .scan k.processes.length 0 false }
  | scanEnd {n i : Nat} {w : Bool} (hpc : l.pc = .scan n i w) (hi : n ≤ i) :
      PollerMove k l k { l with pc := .scanned w }
  | scanSkip {n i : Nat} {w : Bool} {p : Process} (hpc : l.pc = .scan n i w) (hi : i < n)
      (hp : k.processes[i]? = some p) (hring : p.ringPa = 0) :
      PollerMove k l k { l with pc := .scan n (i + 1) w }
  | scanRing {n i : Nat} {w : Bool} {p : Process} (hpc : l.pc = .scan n i w) (hi : i < n)
      (hp : k.processes[i]? = some p) (hring : p.ringPa ≠ 0) :
      PollerMove k l k { l with pc := .scanHead n i p.ringPa w }
  | scanHead {n i ringPa : Nat} {w : Bool} (hpc : l.pc = .scanHead n i ringPa w) :
      PollerMove k l k { l with pc := .scanTail n i ringPa (sqHead k.mem ringPa) w }
  | scanFound {n i ringPa : Nat} {head : BitVec 32} {w : Bool}
      (hpc : l.pc = .scanTail n i ringPa head w) (hne : head ≠ sqTail k.mem ringPa) :
      PollerMove k l k { l with pc := .scanTtbr0 n i }
  | scanEmpty {n i ringPa : Nat} {head : BitVec 32} {w : Bool}
      (hpc : l.pc = .scanTail n i ringPa head w) (heq : head = sqTail k.mem ringPa) :
      PollerMove k l k { l with pc := .scan n (i + 1) w }
  | scanTtbr0 {n i : Nat} {p : Process} (hpc : l.pc = .scanTtbr0 n i)
      (hp : k.processes[i]? = some p) :
      PollerMove k l k { l with pc := .scanActivate n i p.ttbr0 }
  | scanActivate {n i root : Nat} (hpc : l.pc = .scanActivate n i root) :
      PollerMove k l (k.activate root) { l with pc := .scanDrain n i }
  | scanDrain {n i : Nat} {k' : Kernel} (hpc : l.pc = .scanDrain n i) (hd : k.drain i = some k') :
      PollerMove k l k' { l with pc := .scan n (i + 1) true }
  | worked {k' : Kernel} (hpc : l.pc = .scanned true)
      (hk : k' = k ∨ k' = k.kprintln "[sqpoll] picked up work") :
      PollerMove k l k' { l with pc := .flagsCount false .stamp, announced := true }
  | sleepy (hpc : l.pc = .scanned false) :
      PollerMove k l k { l with pc := .flagsCount true .rescan }
  | busy (hpc : l.pc = .scanned false) : PollerMove k l k { l with pc := .yield }
  | flagsCount {on : Bool} {after : AfterFlags} (hpc : l.pc = .flagsCount on after) :
      PollerMove k l k { l with pc := .flagsScan on k.processes.length 0 after }
  | flagsStamp {on : Bool} {n i : Nat} (hpc : l.pc = .flagsScan on n i .stamp) (hi : n ≤ i) :
      PollerMove k l k { l with pc := .stamp }
  | flagsRescan {on : Bool} {n i : Nat} (hpc : l.pc = .flagsScan on n i .rescan) (hi : n ≤ i) :
      PollerMove k l k { l with pc := .rescanCount }
  | flagsSkip {on : Bool} {n i : Nat} {after : AfterFlags} {p : Process}
      (hpc : l.pc = .flagsScan on n i after) (hi : i < n) (hp : k.processes[i]? = some p)
      (hring : p.ringPa = 0) : PollerMove k l k { l with pc := .flagsScan on n (i + 1) after }
  | flagsRing {on : Bool} {n i : Nat} {after : AfterFlags} {p : Process}
      (hpc : l.pc = .flagsScan on n i after) (hi : i < n) (hp : k.processes[i]? = some p)
      (hring : p.ringPa ≠ 0) : PollerMove k l k { l with pc := .flagsStore on n i p.ringPa after }
  | flagsStore {on : Bool} {n i ringPa : Nat} {after : AfterFlags}
      (hpc : l.pc = .flagsStore on n i ringPa after) :
      PollerMove k l (k.ringStore ringPa offFlags 4 (Machine.flagValue on))
        { l with pc := .flagsScan on n (i + 1) after }
  | rescanCount (hpc : l.pc = .rescanCount) :
      PollerMove k l k { l with pc := .rescan k.processes.length 0 }
  | rescanEnd {n i : Nat} (hpc : l.pc = .rescan n i) (hi : n ≤ i) :
      PollerMove k l k { l with pc := .block }
  | rescanSkip {n i : Nat} {p : Process} (hpc : l.pc = .rescan n i) (hi : i < n)
      (hp : k.processes[i]? = some p) (hring : p.ringPa = 0) :
      PollerMove k l k { l with pc := .rescan n (i + 1) }
  | rescanRing {n i : Nat} {p : Process} (hpc : l.pc = .rescan n i) (hi : i < n)
      (hp : k.processes[i]? = some p) (hring : p.ringPa ≠ 0) :
      PollerMove k l k { l with pc := .rescanHead n i p.ringPa }
  | rescanHead {n i ringPa : Nat} (hpc : l.pc = .rescanHead n i ringPa) :
      PollerMove k l k { l with pc := .rescanTail n i ringPa (sqHead k.mem ringPa) }
  | rescanFound {n i ringPa : Nat} {head : BitVec 32} (hpc : l.pc = .rescanTail n i ringPa head)
      (hne : head ≠ sqTail k.mem ringPa) :
      PollerMove k l k { l with pc := .flagsCount false .stamp }
  | rescanEmpty {n i ringPa : Nat} {head : BitVec 32} (hpc : l.pc = .rescanTail n i ringPa head)
      (heq : head = sqTail k.mem ringPa) : PollerMove k l k { l with pc := .rescan n (i + 1) }
  | block (hpc : l.pc = .block) :
      PollerMove k l k.blockCurrent { l with pc := .flagsCount false .stamp }
  | stamp (hpc : l.pc = .stamp) : PollerMove k l k { l with pc := .yield, lastWork := k.ticks }
  | yield (hpc : l.pc = .yield) : PollerMove k l k.schedule { l with pc := .top }

theorem ringPa_eq_some {ps : List Process} {i pa : Nat} (h : Processes.ringPa ps i = some pa) :
    ∃ p, ps[i]? = some p ∧ p.ringPa = pa := Option.map_eq_some_iff.mp h

/-- **What the poller can do.** -/
theorem pollerStep_cases {m m' : Machine} (hcur : m.atPoller) (h : m.pollerStep = some m') :
    ∃ k' l', m' = { m with k := k', poller := l' } ∧ PollerMove m.k m.poller k' l' := by
  rw [Machine.pollerStep] at h
  split at h <;> rename_i hpc
  case h_1 =>
    cases h
    rw [hcur]
    exact ⟨_, _, rfl, .record hpc⟩
  case h_2 => cases h; exact ⟨_, _, rfl, .clock hpc⟩
  case h_3 => cases h; exact ⟨_, _, rfl, .top hpc⟩
  case h_4 n i w =>
    split_ifs at h with hi
    · cases h
      exact ⟨_, _, rfl, .scanEnd hpc hi⟩
    · obtain ⟨pa, hpa, h⟩ := Option.bind_eq_some_iff.mp h
      obtain ⟨p, hp, rfl⟩ := ringPa_eq_some hpa
      split_ifs at h with hring
      · cases h
        exact ⟨_, _, rfl, .scanSkip hpc (Nat.lt_of_not_le hi) hp hring⟩
      · cases h
        exact ⟨_, _, rfl, .scanRing hpc (Nat.lt_of_not_le hi) hp hring⟩
  case h_5 => cases h; exact ⟨_, _, rfl, .scanHead hpc⟩
  case h_6 =>
    split_ifs at h with hne
    · cases h
      exact ⟨_, _, rfl, .scanFound hpc hne⟩
    · cases h
      exact ⟨_, _, rfl, .scanEmpty hpc (of_not_not hne)⟩
  case h_7 =>
    obtain ⟨root, hroot, h⟩ := Option.bind_eq_some_iff.mp h
    obtain ⟨p, hp, rfl⟩ := Option.map_eq_some_iff.mp hroot
    cases h
    exact ⟨_, _, rfl, .scanTtbr0 hpc hp⟩
  case h_8 => cases h; exact ⟨_, _, rfl, .scanActivate hpc⟩
  case h_9 =>
    obtain ⟨k', hk', h⟩ := Option.bind_eq_some_iff.mp h
    cases h
    exact ⟨_, _, rfl, .scanDrain hpc hk'⟩
  case h_10 w =>
    cases w with
    | true =>
      cases h
      refine ⟨_, _, rfl, .worked hpc ?_⟩
      cases m.poller.announced with
      | true => exact .inl rfl
      | false => exact .inr rfl
    | false =>
      rw [if_neg Bool.false_ne_true] at h
      split_ifs at h with hidle
      · cases h
        exact ⟨_, _, rfl, .sleepy hpc⟩
      · cases h
        exact ⟨_, _, rfl, .busy hpc⟩
  case h_11 => cases h; exact ⟨_, _, rfl, .flagsCount hpc⟩
  case h_12 on n i after =>
    split_ifs at h with hi
    · cases after with
      | stamp => cases h; exact ⟨_, _, rfl, .flagsStamp hpc hi⟩
      | rescan => cases h; exact ⟨_, _, rfl, .flagsRescan hpc hi⟩
    · obtain ⟨pa, hpa, h⟩ := Option.bind_eq_some_iff.mp h
      obtain ⟨p, hp, rfl⟩ := ringPa_eq_some hpa
      split_ifs at h with hring
      · cases h
        exact ⟨_, _, rfl, .flagsSkip hpc (Nat.lt_of_not_le hi) hp hring⟩
      · cases h
        exact ⟨_, _, rfl, .flagsRing hpc (Nat.lt_of_not_le hi) hp hring⟩
  case h_13 => cases h; exact ⟨_, _, rfl, .flagsStore hpc⟩
  case h_14 => cases h; exact ⟨_, _, rfl, .rescanCount hpc⟩
  case h_15 n i =>
    split_ifs at h with hi
    · cases h
      exact ⟨_, _, rfl, .rescanEnd hpc hi⟩
    · obtain ⟨pa, hpa, h⟩ := Option.bind_eq_some_iff.mp h
      obtain ⟨p, hp, rfl⟩ := ringPa_eq_some hpa
      split_ifs at h with hring
      · cases h
        exact ⟨_, _, rfl, .rescanSkip hpc (Nat.lt_of_not_le hi) hp hring⟩
      · cases h
        exact ⟨_, _, rfl, .rescanRing hpc (Nat.lt_of_not_le hi) hp hring⟩
  case h_16 => cases h; exact ⟨_, _, rfl, .rescanHead hpc⟩
  case h_17 =>
    split_ifs at h with hne
    · cases h
      exact ⟨_, _, rfl, .rescanFound hpc hne⟩
    · cases h
      exact ⟨_, _, rfl, .rescanEmpty hpc (of_not_not hne)⟩
  case h_18 => cases h; exact ⟨_, _, rfl, .block hpc⟩
  case h_19 => cases h; exact ⟨_, _, rfl, .stamp hpc⟩
  case h_20 => cases h; exact ⟨_, _, rfl, .yield hpc⟩

/-! ## The running process -/

/-- Process `pid`, with entry `p`, is running. -/
structure AtUser (k : Kernel) (pid : Nat) (p : Process) : Prop where
  current : k.sched.current = taskOf pid
  process : k.sched.currentProcess = some pid
  entry : k.processes[pid]? = some p
  live : p.live = true
  root : k.ttbr0 = p.ttbr0

theorem AtUser.kprintln {k : Kernel} {pid : Nat} {p : Process} (h : AtUser k pid p) (s : String) :
    AtUser (k.kprintln s) pid p := ⟨h.current, h.process, h.entry, h.live, h.root⟩

/-- A store changes memory, if anything. -/
theorem Machine.userStore_cases {k k' : Kernel} {va n v : Nat}
    (hs : Machine.userStore k va n v = some k') : ∃ pa, k' = k.setMem (k.mem.store pa n v) := by
  rw [userStore] at hs
  split_ifs at hs
  obtain ⟨pa, -, rfl⟩ := Option.map_eq_some_iff.mp hs
  exact ⟨pa, rfl⟩

/-- The exit code an action leaves behind. -/
def UserAct.exitCode : UserAct → Option Int
  | .exit x0 => some x0.toInt
  | .fault _ _ _ => some (-1)
  | _ => none

/-- A code fits in the register it is reported in. -/
theorem UserAct.exitCode_bmod {u : UserAct} {code : Int} (h : u.exitCode = some code) :
    code.bmod (2 ^ 64) = code := by
  cases u with
  | exit x0 =>
    obtain rfl := Option.some.inj h
    exact BitVec.toInt_bmod_cancel x0
  | fault esr elr far =>
    obtain rfl := Option.some.inj h
    decide
  | _ => cases h

/-- A step of the machine. -/
inductive Move (m : Machine) : Act → Machine → Prop
  /-- `kmain` creates the shell's process. -/
  | create {image : List UInt8} {root : Nat} {s₁ s₂ : Phys} {loaded : Loaded}
      {frames : List (Nat × Nat)} (hcur : m.atKmain) (hpc : m.kmain = .createJsh)
      (himage : m.k.getProgram "jsh" = some image)
      (hroot : newAddressSpace m.k.phys m.k.kernelL1 = some (root, s₁))
      (hspace : createSpace s₁ image root = some (loaded, frames, s₂)) :
      Move m .run { m with
        k := { m.k with
          phys := s₂, processes := m.k.processes ++ [Process.fresh root loaded frames] }
        kmain := .setForeground m.k.processes.length }
  | foreground {p0 : Nat} (hcur : m.atKmain) (hpc : m.kmain = .setForeground p0) :
      Move m .run { m with
        k := { m.k with processes := Processes.setForeground m.k.processes p0 true }
        kmain := .spawnJsh p0 }
  | spawnJsh {p0 : Nat} {p : Process} (hcur : m.atKmain) (hpc : m.kmain = .spawnJsh p0)
      (hp : m.k.processes[p0]? = some p) :
      Move m .run { m with k := m.k.spawnUser p0 p.ttbr0, kmain := .idle }
  | idle (hcur : m.atKmain) (hpc : m.kmain = .idle) : Move m .run { m with k := m.k.schedule }
  | poller {k' : Kernel} {l' : Poller} (hcur : m.atPoller) (hmove : PollerMove m.k m.poller k' l') :
      Move m .run { m with k := k', poller := l' }
  /-- A user task reaches user code. -/
  | start {pid : Nat} {p : Process} (hu : AtUser m.k pid p) (hpc : m.user (taskOf pid) = .start) :
      Move m .run m.userTask
  /-- The wait loop of `enter` goes round. -/
  | retest {pid ringPa minComplete : Nat} {p : Process} (hu : AtUser m.k pid p)
      (hpc : m.user (taskOf pid) = .inEnter ringPa minComplete) :
      Move m .run (m.enterWait pid ringPa minComplete)
  | store {pid va n v : Nat} {p : Process} {k' : Kernel} (hu : AtUser m.k pid p)
      (hpc : m.user (taskOf pid) = .el0) (hs : Machine.userStore m.k va n v = some k') :
      Move m (.user (.store va n v)) { m with k := k' }
  | setup {pid : Nat} {p : Process} {k' : Kernel} (hu : AtUser m.k pid p)
      (hpc : m.user (taskOf pid) = .el0) (hs : m.k.setupRing pid = some k') :
      Move m (.user .setup) { m with k := k' }
  /-- `enter` without a ring. -/
  | enterNothing {pid minComplete : Nat} {p : Process} (hu : AtUser m.k pid p)
      (hpc : m.user (taskOf pid) = .el0) (hring : p.ringPa = 0) :
      Move m (.user (.enter minComplete)) m
  | enter {pid minComplete : Nat} {p : Process} {k' : Kernel} (hu : AtUser m.k pid p)
      (hpc : m.user (taskOf pid) = .el0) (hring : p.ringPa ≠ 0)
      (hs : m.k.enterSubmit pid p.ringPa = some k') :
      Move m (.user (.enter minComplete)) ({ m with k := k' }.enterWait pid p.ringPa minComplete)
  /-- `SYS_EXIT`, or a kill. -/
  | exit {u : UserAct} {pid : Nat} {code : Int} {p : Process} {report : String} {k' : Kernel}
      (hact : u.exitCode = some code) (hu : AtUser m.k pid p) (hpc : m.user (taskOf pid) = .el0)
      (ht : (m.k.kprintln report).teardown pid code = some k') :
      Move m (.user u) { m.userGoto .gone with k := k'.taskExit }
  | tick (hmask : m.masked = false) : Move m .tick { m with k := m.k.tick }
  | uart {bytes : List UInt8} {k' : Kernel} (hmask : m.masked = false)
      (hs : Machine.uartIrq m.k bytes = some k') : Move m (.uart bytes) { m with k := k' }

/-- **What a step can be.** -/
theorem step_cases {m m' : Machine} {a : Act} (ho : Orderly m.k) (hrun : m.k.Running)
    (h : m.step a = some m') : Move m a m' := by
  have huser : ¬ m.atKmain → ¬ m.atPoller → ∃ pid p, AtUser m.k pid p ∧
      m.userPc = m.user (taskOf pid) := by
    intro h0 h3
    obtain ⟨pid, p, hcur, hproc, hp, hl, hroot⟩ := ho.current_live hrun h0 h3
    exact ⟨pid, p, ⟨hcur, hproc, hp, hl, hroot⟩, by rw [Machine.userPc, hcur]⟩
  cases a with
  | run =>
    rw [Machine.step] at h
    split_ifs at h with h0 h3
    · rw [Machine.kmainStep] at h
      split at h <;> rename_i hpc
      · obtain ⟨image, himage, h⟩ := Option.bind_eq_some_iff.mp h
        obtain ⟨⟨root, s₁⟩, hroot, h⟩ := Option.bind_eq_some_iff.mp h
        obtain ⟨⟨p0, k₁⟩, hcreate, h⟩ := Option.bind_eq_some_iff.mp h
        obtain ⟨⟨loaded, frames, s₂⟩, hspace, hcreate⟩ := Option.bind_eq_some_iff.mp hcreate
        cases hcreate
        cases h
        exact .create h0 hpc himage hroot hspace
      · cases h
        exact .foreground h0 hpc
      · obtain ⟨root, hroot, h⟩ := Option.bind_eq_some_iff.mp h
        obtain ⟨p, hp, rfl⟩ := Option.map_eq_some_iff.mp hroot
        cases h
        exact .spawnJsh h0 hpc hp
      · cases h
        exact .idle h0 hpc
    · obtain ⟨k', l', rfl, hmove⟩ := pollerStep_cases h3 h
      exact .poller h3 hmove
    · obtain ⟨pid, p, hu, hpc⟩ := huser h0 h3
      rw [Machine.userRun, hpc] at h
      split at h <;> rename_i hpc
      · cases h
        exact .start hu hpc
      · rw [hu.process] at h
        cases h
        exact .retest hu hpc
      · cases h
      · cases h
  | user u =>
    rw [Machine.step] at h
    split_ifs at h with hno
    rw [not_or, not_or, not_not] at hno
    obtain ⟨h0, h3, hel0⟩ := hno
    obtain ⟨pid, p, hu, hpc⟩ := huser h0 h3
    rw [hpc] at hel0
    rw [hu.process] at h
    simp only [Option.bind_eq_bind, Option.bind_some] at h
    have hexit : ∀ {code : Int} {report : String}, u.exitCode = some code →
        m.exitStep pid report code = some m' → Move m (.user u) m' := by
      intro code report hact h
      obtain ⟨k', hk', h⟩ := Option.bind_eq_some_iff.mp h
      cases h
      exact .exit hact hu hel0 hk'
    cases u with
    | store va n v =>
      obtain ⟨k', hk', rfl⟩ := Option.map_eq_some_iff.mp h
      exact .store hu hel0 hk'
    | setup =>
      obtain ⟨k', hk', rfl⟩ := Option.map_eq_some_iff.mp h
      exact .setup hu hel0 hk'
    | enter minComplete =>
      obtain ⟨pa, hpa, h⟩ := Option.bind_eq_some_iff.mp h
      rw [Processes.ringPa, hu.entry, Option.map_some] at hpa
      cases hpa
      split_ifs at h with hring
      · cases h
        exact .enterNothing hu hel0 hring
      · obtain ⟨k', hk', h⟩ := Option.bind_eq_some_iff.mp h
        cases h
        exact .enter hu hel0 hring hk'
    | exit x0 => exact hexit rfl h
    | fault esr elr far => exact hexit rfl h
  | tick =>
    rw [Machine.step] at h
    split_ifs at h with hmask
    cases h
    exact .tick (by simpa using hmask)
  | uart bytes =>
    rw [Machine.step] at h
    split_ifs at h with hmask
    obtain ⟨k', hk', rfl⟩ := Option.map_eq_some_iff.mp h
    exact .uart (by simpa using (not_or.mp hmask).1) hk'

end Jatuli

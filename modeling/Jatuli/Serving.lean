import Jatuli.FrameUse

/-!
# The kernel at work

`serve` is the kernel as a system of its own: its steps are the things the kernel does with
interrupts masked, each in one piece and in the address space it is meant for, in any order.  Who
runs when is left open; `dispatch` stands for whatever the scheduler does.  So this is what the
kernel's data goes through when the poller is not interrupted between looking at a ring and
draining it, and the results about rings, parked reads and console input are about its runs.

What holds between two steps is `LifeInv`, as for the operations of `life`.
-/

set_option autoImplicit false

namespace Jatuli

/-- Something the kernel does in one piece. -/
inductive ServeOp
  /-- `new_address_space` and `process::create`, by `kmain`. -/
  | create (image : List UInt8)
  /-- `set_foreground`, by `kmain`, for the process it has just created. -/
  | foreground
  /-- `ring::setup` -/
  | setup (pid : Nat)
  /-- A store by user code. -/
  | store (pid va n v : Nat)
  /-- `drain`, from `enter` or from the poller. -/
  | drain (pid : Nat)
  /-- A store to the flags of a ring, by `enter` or by `set_all_wakeup`. -/
  | wakeup (pid : Nat) (on : Bool)
  /-- `set_waiter`, by `enter`. -/
  | wait (pid task : Nat)
  /-- The UART interrupt. -/
  | uart (bytes : List UInt8)
  /-- The end of a process. -/
  | teardown (pid : Nat) (code : Int)
  /-- The scheduler, the clock, the poller's registration, and an activation. -/
  | dispatch (sched : Scheduler) (poller : Option Nat) (ticks root : Nat)
  /-- A message on the console. -/
  | message (s : String)

/-- What the kernel does. -/
def serveStep (k : Kernel) : ServeOp → Option Kernel
  | .create image => lifeStep k (.create image)
  | .foreground =>
    match k.processes with
    | [p] =>
      if p.live ∧ p.ringPa = 0 then
        some { k with processes := Processes.setForeground k.processes 0 true }
      else none
    | _ => none
  | .setup pid => lifeStep k (.setup pid)
  | .store pid va n v => lifeStep k (.store pid va n v)
  | .drain pid => lifeStep k (.drain pid)
  | .wakeup pid on => do
    let p ← k.processes[pid]?
    if p.ringPa = 0 then none else some (k.ringStore p.ringPa offFlags 4 (Machine.flagValue on))
  | .wait pid task => some { k with processes := Processes.setWaiter k.processes pid task }
  | .uart bytes => if k.uart.rxIrq then Machine.uartIrq k bytes else none
  | .teardown pid code => lifeStep k (.teardown pid code)
  | .dispatch sched poller ticks root => some { k.activate root with sched, poller, ticks }
  | .message s => some (k.kprintln s)

/-- The kernel at work, from the state boot leaves. -/
def serve (programs : List (String × List UInt8)) : System Kernel ServeOp where
  init k := ∃ mem kernelEnd ticks, ramBase ≤ kernelEnd ∧
    bootKernel mem kernelEnd ticks programs = some k
  step := serveStep

/-- There is no process yet, and nothing has happened. -/
theorem serve_init {programs : List (String × List UInt8)} {k : Kernel}
    (h : (serve programs).init k) : k.processes = [] ∧ k.input = .empty ∧ k.trace = [] := by
  obtain ⟨mem, kernelEnd, ticks, -, hb⟩ := h
  rw [bootKernel] at hb
  obtain ⟨x, -, hb⟩ := Option.bind_eq_some_iff.mp hb
  obtain ⟨y, -, hb⟩ := Option.bind_eq_some_iff.mp hb
  obtain rfl := Option.some.inj hb
  exact ⟨rfl, rfl, rfl⟩

/-- Images that are created have their segments in the user slot. -/
def ServeOp.Linked (_ : Kernel) : ServeOp → Prop
  | .create image => Elf.InUserSlot image
  | _ => True

/-- The kernel once it has taken in what the device has received. -/
def Kernel.received (k : Kernel) (bytes : List UInt8) : Kernel :=
  let io := drainUart k.input { k.uart with rx := k.uart.rx ++ bytes }
  { k with input := io.1, uart := io.2 }

section Serve

variable {L : Layout} {k k' : Kernel} {pid : Nat} {p : Process}

theorem uartIrq_eq (k : Kernel) (bytes : List UInt8) :
    Machine.uartIrq k bytes = (k.received bytes).pollPending := rfl

theorem received_quiet (k : Kernel) (bytes : List UInt8) : Quiet k (k.received bytes) :=
  ⟨rfl, rfl, rfl, rfl, rfl, rfl, rfl, rfl, rfl, rfl⟩

/-- **What the UART interrupt does with parked reads.**  Nothing when there is no foreground process
with a ring; else it goes through the snapshot in the space of that process, restores the live root,
and wakes the process if something was completed. -/
theorem LifeInv.pollPending_cases (h : LifeInv L k) (hk : k.pollPending = some k') :
    k' = k ∨ ∃ pid p i₁ k₂ completed i₃ own,
      Processes.foregroundPid k.processes = some pid ∧ k.processes[pid]? = some p ∧
      p.ringPa ≠ 0 ∧ p.live = true ∧
      Kernel.pollPendingFrom pid p.ringPa p.pending maxPending
        { k with installed := i₁, ttbr0 := p.ttbr0 } false = some (completed, k₂) ∧
      (i₃ = k.installed ∨ i₃ = k.ttbr0) ∧ Inv True L own k₂ ∧
      Confined L pid (some pid) p.ringPa own
        { k with installed := i₁, ttbr0 := p.ttbr0 } own k₂ ∧
      Inv True L own { k with installed := i₁, ttbr0 := p.ttbr0 } ∧
      k' = { k₂ with
        installed := i₃
        ttbr0 := k.ttbr0
        processes := if completed then (Processes.takeWaiter k₂.processes pid).2 else k₂.processes
        sched := if completed
          then k₂.sched.wakeWaiter (Processes.takeWaiter k₂.processes pid).1 else k₂.sched } := by
  obtain ⟨own, hinv⟩ := h.inv
  have hlive : ∀ {i : Nat} {q : Process}, k.processes[i]? = some q → q.ringPa ≠ 0 →
      q.live = true := fun hq hne ↦ (hinv.proc hq).live hne
  rcases Kernel.pollPending_cases h.synced
      (fun hq hne ↦ hinv.root_ne_zero hq (hlive hq hne)) hk with
    rfl | ⟨pid, p, i₁, k₂, completed, i₃, hfg, hp, hne, hi₁, hloop, hi₃, hk'⟩
  · exact .inl rfl
  · have hl := hlive hp hne
    have hinv₁ : Inv True L own { k with installed := i₁, ttbr0 := p.ttbr0 } :=
      hinv.of_mem_eq ⟨rfl, fun _ ↦ rfl, rfl, rfl, rfl⟩ rfl
    have hr : ({ k with installed := i₁, ttbr0 := p.ttbr0 } : Kernel).roots (some pid) =
        some p.ttbr0 := Inv.root_of_live hp hl
    obtain ⟨hinv₂, hc⟩ := hinv₁.pollPendingFrom hp hne hr hfg hloop
    exact .inr ⟨pid, p, i₁, k₂, completed, i₃, own, hfg, hp, hne, hl, hloop, hi₃, hinv₂, hc, hinv₁,
      hk'⟩

/-- An entry is modified in a way its space does not depend on. -/
theorem SameSpaces.modify {f : Process → Process} (hspace : ∀ q, (f q).space = q.space)
    (k : Kernel) (pid : Nat) (sched : Scheduler) :
    SameSpaces k { k with processes := k.processes.modify pid f, sched } := by
  refine ⟨rfl, fun i ↦ ?_, rfl, rfl, rfl⟩
  rw [List.getElem?_modify, Option.map_eq_map, Option.map_map]
  refine congrArg (Option.map · k.processes[i]?) (funext fun q ↦ ?_)
  rw [Function.comp_apply]
  split_ifs
  · exact hspace q
  · rfl

namespace LifeInv

/-- A change of something else than memory, or of a table entry where the space does not depend on
it. -/
theorem of_same {own : Nat → Owner} (hinv : Inv True L own k) (hs : SameSpaces k k')
    (hm : k'.mem = k.mem) (hsync : k'.Synced) (hpar : k'.ParentsBelow) : LifeInv L k' :=
  ⟨⟨own, hinv.of_mem_eq hs hm⟩, hsync, hpar⟩

/-- An entry is modified, neither in its space nor in its parent. -/
theorem modify {f : Process → Process} (hspace : ∀ q, (f q).space = q.space)
    (hparent : ∀ q, (f q).parent = q.parent) (h : LifeInv L k) (pid : Nat) (sched : Scheduler) :
    LifeInv L { k with processes := k.processes.modify pid f, sched } := by
  obtain ⟨own, hinv⟩ := h.inv
  refine of_same hinv (.modify hspace k pid sched) rfl h.synced fun i q j hq hj ↦ ?_
  rw [List.getElem?_modify] at hq
  obtain ⟨q₀, hq₀, rfl⟩ := Option.map_eq_some_iff.mp hq
  refine h.parents i q₀ j hq₀ ?_
  split_ifs at hj
  · rwa [hparent] at hj
  · exact hj

theorem pollPending (h : LifeInv L k) (hk : k.pollPending = some k') : LifeInv L k' := by
  rcases h.pollPending_cases hk with
    rfl | ⟨pid, p, i₁, k₂, completed, i₃, own, -, hp, -, -, -, hi₃, hinv₂, hc, -, rfl⟩
  · exact h
  · have hpar₂ : k₂.ParentsBelow :=
      hc.parentsBelow (k := { k with installed := i₁, ttbr0 := p.ttbr0 }) hp h.parents
    have hsync : ({ k₂ with installed := i₃, ttbr0 := k.ttbr0 } : Kernel).Synced :=
      hi₃.elim (· ▸ h.synced) .inr
    have h₃ : LifeInv L { k₂ with installed := i₃, ttbr0 := k.ttbr0 } :=
      of_same hinv₂ ⟨rfl, fun _ ↦ rfl, rfl, rfl, rfl⟩ rfl hsync hpar₂
    cases completed with
    | false => exact h₃
    | true =>
      exact h₃.modify (f := fun q ↦ { q with ringWaiter := none }) (fun _ ↦ rfl) (fun _ ↦ rfl) pid _

theorem received (h : LifeInv L k) (bytes : List UInt8) : LifeInv L (k.received bytes) := by
  obtain ⟨own, hinv⟩ := h.inv
  exact of_same hinv (.of_quiet (received_quiet k bytes)) rfl h.synced h.parents

/-- **Everything the kernel does keeps the invariant.** -/
theorem serve (h : LifeInv L k) {op : ServeOp} (hop : op.Linked k)
    (hs : serveStep k op = some k') : LifeInv L k' := by
  obtain ⟨own, hinv⟩ := h.inv
  cases op with
  | create image => exact h.step (show LifeOp.Linked k (.create image) from hop) hs
  | foreground =>
    rw [serveStep] at hs
    split at hs
    · rw [Option.ite_none_right_eq_some] at hs
      obtain rfl := Option.some.inj hs.2
      exact h.modify (f := fun q ↦ { q with foreground := true }) (fun _ ↦ rfl) (fun _ ↦ rfl) 0
        k.sched
    · cases hs
  | setup pid => exact h.step (show LifeOp.Linked k (.setup pid) from trivial) hs
  | store pid va n v => exact h.step (show LifeOp.Linked k (.store pid va n v) from trivial) hs
  | drain pid => exact h.step (show LifeOp.Linked k (.drain pid) from trivial) hs
  | wakeup pid on =>
    obtain ⟨p, hp, hs⟩ := Option.bind_eq_some_iff.mp hs
    rw [Option.ite_none_left_eq_some] at hs
    obtain ⟨hne, hs⟩ := hs
    obtain rfl := Option.some.inj hs
    refine ⟨⟨own, hinv.write_page (.of_quiet (k.ringStore_quiet ..)) hp
      ((hinv.proc hp).ring hne).1 (k.ringStore_eqOn (by decide))⟩, h.synced, h.parents⟩
  | wait pid task =>
    obtain rfl := Option.some.inj hs
    exact h.modify (f := fun q ↦ { q with ringWaiter := some task }) (fun _ ↦ rfl) (fun _ ↦ rfl) pid
      k.sched
  | uart bytes =>
    rw [serveStep, Option.ite_none_right_eq_some, uartIrq_eq] at hs
    exact LifeInv.pollPending (h.received bytes) hs.2
  | teardown pid code => exact h.step (show LifeOp.Linked k (.teardown pid code) from trivial) hs
  | dispatch sched poller ticks root =>
    obtain rfl := Option.some.inj hs
    obtain ⟨⟨own₁, hinv₁⟩, hsync, hpar⟩ := h.activate root
    exact of_same hinv₁ ⟨rfl, fun _ ↦ rfl, rfl, rfl, rfl⟩ rfl hsync hpar
  | message s =>
    obtain rfl := Option.some.inj hs
    exact of_same hinv (.of_quiet (k.kprintln_quiet s)) rfl h.synced h.parents

end LifeInv

end Serve

/-- The invariant holds whatever the kernel has done. -/
theorem lifeInv_of_serve {programs : List (String × List UInt8)} {k : Kernel}
    (hprog : ∀ q ∈ programs, Elf.InUserSlot q.2)
    (hk : (serve programs).Reach ServeOp.Linked k) : ∃ L, LifeInv L k := by
  refine hk.invariant (I := fun k ↦ ∃ L, LifeInv L k) ?_ ?_
  · rintro k ⟨mem, kernelEnd, ticks, hend, hb⟩
    obtain ⟨L, -, h⟩ := LifeInv.boot (Nat.lt_of_lt_of_le (by decide) hend) hprog hb
    exact ⟨L, h⟩
  · rintro k op k' ⟨L, h⟩ hop hs
    exact ⟨L, h.serve hop hs⟩

/-! ## The first process -/

/-- An operation on the way to the first process and its ring. -/
def ServeOp.Prepares (k : Kernel) : ServeOp → Prop
  | .create image => ServeOp.Linked k (.create image)
  | .foreground | .setup _ => True
  | _ => False

theorem ServeOp.Prepares.linked {k : Kernel} {op : ServeOp} (h : op.Prepares k) : op.Linked k := by
  cases op with
  | create image => exact h
  | _ => trivial

/-- The state boot leaves, with one process created in it. -/
structure FirstProcess (programs : List (String × List UInt8)) (loaded : Loaded) (k : Kernel)
    (p : Process) : Prop where
  prepared : (serve programs).Reach ServeOp.Prepares k
  processes : k.processes = [p]
  entry : ∃ root frames, p = Process.fresh root loaded frames
  room : 500 ≤ k.phys.frames.freeCount
  input : k.input = .empty
  uart : k.uart = { rx := [], rxIrq := true, tx := [] }
  trace : k.trace = []
  embedded : k.programs = programs

/-- Boot leaves room for the first process, and much more. -/
theorem exists_firstProcess {programs : List (String × List UInt8)}
    (hprog : ∀ q ∈ programs, Elf.InUserSlot q.2) {image : List UInt8} {loaded : Loaded}
    {pgs : List PageSpec} (himg : Elf.InUserSlot image)
    (hplan : Elf.plan image = some (loaded, pgs)) (hpgs : processFrames pgs.length ≤ 500) :
    ∃ k p, FirstProcess programs loaded k p := by
  obtain ⟨k, hb, hps, hc⟩ :=
    bootKernel_isSome ramBase 1000 (by decide) (by decide) (fun _ ↦ 0) 0 programs
  obtain ⟨L, own, -, h⟩ := Inv.boot (by decide) hprog hb
  obtain ⟨root, s, frames, s', own', hroot, hspace, -, hc', -⟩ :=
    h.newProcess himg hplan (by omega)
  have hstart : (serve programs).Reach ServeOp.Prepares k := .init ⟨_, _, _, le_rfl, hb⟩
  have hstep : serveStep k (.create image) = some { k with
      phys := s', processes := [Process.fresh root loaded frames] } := by
    simp only [serveStep, lifeStep, Kernel.create, hroot, hspace, hps, Option.bind_eq_bind,
      Option.bind_some, List.nil_append]
  rw [bootKernel] at hb
  obtain ⟨x, -, hb⟩ := Option.bind_eq_some_iff.mp hb
  obtain ⟨y, -, hb⟩ := Option.bind_eq_some_iff.mp hb
  obtain rfl := Option.some.inj hb
  exact ⟨_, _, hstart.step (show ServeOp.Prepares _ (.create image) from himg) hstep, rfl,
    ⟨root, frames, rfl⟩, by dsimp only at hc hc' ⊢; omega, rfl, rfl, rfl, rfl⟩

/-- The same once the process owns the keyboard and has a ring, of which nothing is used yet. -/
structure FirstRing (programs : List (String × List UInt8)) (loaded : Loaded) (k : Kernel)
    (p : Process) : Prop where
  prepared : (serve programs).Reach ServeOp.Prepares k
  processes : k.processes = [p]
  entry : ∃ root frames, p = { Process.fresh root loaded frames with
    foreground := true, ringPa := p.ringPa, frames := frames ++ [(userRingVa, p.ringPa)] }
  ring : p.ringPa ≠ 0
  zero : ∀ x ∈ frameAt p.ringPa, k.mem x = 0
  root : k.ttbr0 = p.ttbr0
  installed : k.installed = p.ttbr0
  room : 400 ≤ k.phys.frames.freeCount
  input : k.input = .empty
  uart : k.uart = { rx := [], rxIrq := true, tx := [] }
  trace : k.trace = []
  embedded : k.programs = programs

theorem FirstRing.reach {programs : List (String × List UInt8)} {loaded : Loaded} {k : Kernel}
    {p : Process} (h : FirstRing programs loaded k p) :
    (serve programs).Reach ServeOp.Linked k := h.prepared.mono fun _ _ hop ↦ hop.linked

theorem FirstProcess.setup {programs : List (String × List UInt8)}
    (hprog : ∀ q ∈ programs, Elf.InUserSlot q.2) {loaded : Loaded} {k : Kernel} {p : Process}
    (h : FirstProcess programs loaded k p) : ∃ k' p', FirstRing programs loaded k' p' := by
  obtain ⟨root, frames, hentry⟩ := h.entry
  obtain ⟨q, hq⟩ : ∃ q : Process,
    q = { Process.fresh root loaded frames with foreground := true } := ⟨_, rfl⟩
  -- the process gets the keyboard
  obtain ⟨k₁, hk₁⟩ : ∃ k₁ : Kernel, k₁ = { k with processes := [q] } := ⟨_, rfl⟩
  have hfg : serveStep k .foreground = some k₁ := by
    have hif : p.live = true ∧ p.ringPa = 0 := by
      rw [hentry]
      exact ⟨rfl, rfl⟩
    rw [serveStep, h.processes]
    dsimp only
    rw [if_pos hif, hk₁, hq, hentry]
    rfl
  have hreach₁ := h.prepared.step (show ServeOp.Prepares k .foreground from trivial) hfg
  obtain ⟨L, hlife₁⟩ := lifeInv_of_serve hprog (hreach₁.mono fun _ _ hop ↦ hop.linked)
  -- then its ring
  have hp₁ : k₁.processes[0]? = some q := by rw [hk₁]; rfl
  have hl : q.live = true := by rw [hq]; rfl
  obtain ⟨own₁, hinv₁⟩ := hlife₁.inv
  obtain ⟨⟨own₂, hinv₂⟩, hsync, -⟩ := hlife₁.activate q.ttbr0
  have hroot := Kernel.activate_ttbr0 hlife₁.synced (hinv₁.root_ne_zero hp₁ hl)
  have hinst : (k₁.activate q.ttbr0).installed = q.ttbr0 := by
    rw [Kernel.activate]
    split_ifs with he
    · rfl
    · exact of_not_not he
  obtain ⟨k₂, hk₂⟩ : ∃ k₂ : Kernel, k₂ = k₁.activate q.ttbr0 := ⟨_, rfl⟩
  rw [← hk₂] at hinv₂ hroot hinst
  have hsame : k₂ = { k with processes := [q], installed := k₂.installed, ttbr0 := k₂.ttbr0 } := by
    rw [hk₂, k₁.activate_eq, hk₁]
  have hp₂ : k₂.processes[0]? = some q := by rw [hk₂, k₁.activate_processes, hp₁]
  have hroom : k₂.phys.frames.freeCount = k.phys.frames.freeCount := by rw [hsame]
  obtain ⟨k₃, hs⟩ := hinv₂.setupRing_isSome hp₂ hl (by have := h.room; omega)
  have hstep : serveStep k₁ (.setup 0) = some k₃ := by
    rw [serveStep, lifeStep, Kernel.asProcess, hp₁, Option.bind_eq_bind, Option.bind_some,
      if_pos hl, ← hk₂]
    exact hs
  have hcount := hinv₂.setupRing_room hp₂ hl hs
  rcases hinv₂.setupRing hp₂ hl hs with
    ⟨hring, -⟩ | ⟨-, own₃, frame, phys, rfl, -, -, ⟨hmf, -⟩, hzero, -⟩
  · exact absurd (by rw [hq]; rfl) hring
  have hpos : frame ≠ 0 := by
    have := hmf.2.1
    have := hinv₂.owned.start_pos
    omega
  refine ⟨_, { q with ringPa := frame, frames := frames ++ [(userRingVa, frame)] },
    hreach₁.step (show ServeOp.Prepares k₁ (.setup 0) from trivial) hstep, ?_, ⟨root, frames, ?_⟩,
    hpos, hzero, hroot, hinst, ?_, ?_, ?_, ?_, ?_⟩
  · rw [hsame, hq]
    rfl
  · rw [hq]
  · have := h.room
    dsimp only at hcount ⊢
    omega
  · rw [hsame]
    exact h.input
  · rw [hsame]
    exact h.uart
  · rw [hsame]
    exact h.trace
  · rw [hsame]
    exact h.embedded

end Jatuli

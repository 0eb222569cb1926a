import Jatuli.Ring
import Jatuli.PageTable

/-!
# What the kernel's functions leave alone

One lemma per function of `Jatuli.Ring`, saying what it may change.  Most of them only touch bytes
of memory, the console and the trace (`Quiet`); `process_sqe` is described by the list of its
possible outcomes (`SqeOutcome`), which everything about `drain` is derived from.
-/

set_option autoImplicit false

namespace Jatuli

/-- `k'` differs from `k` at most in bytes of memory, the console and the trace. -/
structure Quiet (k k' : Kernel) : Prop where
  frames : k'.phys.frames = k.phys.frames
  processes : k'.processes = k.processes
  sched : k'.sched = k.sched
  poller : k'.poller = k.poller
  ticks : k'.ticks = k.ticks
  installed : k'.installed = k.installed
  ttbr0 : k'.ttbr0 = k.ttbr0
  kernelL1 : k'.kernelL1 = k.kernelL1
  kernelTtbr0 : k'.kernelTtbr0 = k.kernelTtbr0
  programs : k'.programs = k.programs

namespace Quiet

theorem refl (k : Kernel) : Quiet k k := ⟨rfl, rfl, rfl, rfl, rfl, rfl, rfl, rfl, rfl, rfl⟩

theorem trans {k k' k'' : Kernel} (h : Quiet k k') (h' : Quiet k' k'') : Quiet k k'' where
  frames := h'.frames.trans h.frames
  processes := h'.processes.trans h.processes
  sched := h'.sched.trans h.sched
  poller := h'.poller.trans h.poller
  ticks := h'.ticks.trans h.ticks
  installed := h'.installed.trans h.installed
  ttbr0 := h'.ttbr0.trans h.ttbr0
  kernelL1 := h'.kernelL1.trans h.kernelL1
  kernelTtbr0 := h'.kernelTtbr0.trans h.kernelTtbr0
  programs := h'.programs.trans h.programs

end Quiet

namespace Kernel

/-! ## Stores to the ring page -/

theorem setMem_quiet (k : Kernel) (m : Mem) : Quiet k (k.setMem m) :=
  ⟨rfl, rfl, rfl, rfl, rfl, rfl, rfl, rfl, rfl, rfl⟩

theorem log_quiet (k : Kernel) (e : Event) : Quiet k (k.log e) :=
  ⟨rfl, rfl, rfl, rfl, rfl, rfl, rfl, rfl, rfl, rfl⟩

theorem kprintln_quiet (k : Kernel) (s : String) : Quiet k (k.kprintln s) :=
  ⟨rfl, rfl, rfl, rfl, rfl, rfl, rfl, rfl, rfl, rfl⟩

theorem ringStore_quiet (k : Kernel) (ringPa off n v : Nat) :
    Quiet k (k.ringStore ringPa off n v) :=
  (k.setMem_quiet _).trans (log_quiet _ _)

@[simp] theorem ringStore_mem (k : Kernel) (ringPa off n v : Nat) :
    (k.ringStore ringPa off n v).mem = k.mem.store (ringPa + off) n v := rfl

@[simp] theorem ringStore_trace (k : Kernel) (ringPa off n v : Nat) :
    (k.ringStore ringPa off n v).trace = .ringStore ringPa (k.ringOwner ringPa) :: k.trace := rfl

@[simp] theorem ringStore_input (k : Kernel) (ringPa off n v : Nat) :
    (k.ringStore ringPa off n v).input = k.input := rfl

theorem ringStore_eqOn (k : Kernel) {ringPa off n v : Nat} (h : off + n ≤ 4096) :
    Set.EqOn (k.ringStore ringPa off n v).mem k.mem (frameAt ringPa)ᶜ :=
  Mem.store_eqOn (by omega) (by rw [frameSize]; omega)

theorem ringOwner_congr {k k' : Kernel} (h : k'.processes = k.processes) (pa : Nat) :
    k'.ringOwner pa = k.ringOwner pa := by
  rw [ringOwner, ringOwner, h]

/-- A ring that a live process has is owned. -/
theorem ringOwner_ne_none {k : Kernel} {pid : Nat} {p : Process} (hp : k.processes[pid]? = some p)
    (hl : p.live = true) (hne : p.ringPa ≠ 0) : k.ringOwner p.ringPa ≠ none := by
  rw [ringOwner, if_neg hne, Ne, List.findIdx?_eq_none_iff]
  intro h
  have hno := h p (List.mem_of_getElem? hp)
  rw [hl, Bool.true_and, beq_self_eq_true] at hno
  cases hno

/-- A live process owns its ring if no other live process has the same. -/
theorem ringOwner_of_inj {k : Kernel} {i : Nat} {p : Process} (hp : k.processes[i]? = some p)
    (hl : p.live = true) (hne : p.ringPa ≠ 0) (hinj : ∀ {j : Nat} {q : Process},
      k.processes[j]? = some q → q.live = true → q.ringPa = p.ringPa → j = i) :
    k.ringOwner p.ringPa = some i := by
  obtain ⟨j, hj⟩ := Option.ne_none_iff_exists'.mp (ringOwner_ne_none hp hl hne)
  have hfind := hj
  rw [ringOwner, if_neg hne] at hfind
  obtain ⟨hlt, hq, -⟩ := List.findIdx?_eq_some_iff_getElem.mp hfind
  rw [Bool.and_eq_true, beq_iff_eq] at hq
  rw [hj, hinj (List.getElem?_eq_getElem hlt) hq.1 hq.2]

/-- The ring is still the same when a process has been added. -/
theorem ringOwner_concat {k k' : Kernel} {i ringPa : Nat} {q : Process}
    (h : k.ringOwner ringPa = some i) (hps : k'.processes = k.processes ++ [q]) :
    k'.ringOwner ringPa = some i := by
  rw [ringOwner, Option.ite_none_left_eq_some] at h ⊢
  refine ⟨h.1, ?_⟩
  rw [hps, List.findIdx?_append, h.2]
  rfl

/-- `INSTALLED` is up to date, or nothing has been activated yet. -/
def Synced (k : Kernel) : Prop := k.installed = 0 ∨ k.installed = k.ttbr0

theorem activate_ttbr0 {k : Kernel} (h : k.Synced) {root : Nat} (hr : root ≠ 0) :
    (k.activate root).ttbr0 = root := by
  rw [activate]
  split
  · rfl
  · rename_i heq
    rw [not_not] at heq
    rcases h with h | h
    · exact absurd (heq.symm.trans h) hr
    · rw [← h, heq]

theorem activate_installed (k : Kernel) (root : Nat) : (k.activate root).installed = root := by
  rw [activate]
  split_ifs with h
  · rfl
  · exact of_not_not h

theorem Synced.activate {k : Kernel} (h : k.Synced) (root : Nat) : (k.activate root).Synced := by
  rw [Kernel.activate]
  split
  · exact .inr rfl
  · exact h

/-- Every process was spawned by an older one. -/
def ParentsBelow (k : Kernel) : Prop :=
  ∀ (i : Nat) (p : Process) (j : Nat), k.processes[i]? = some p → p.parent = some j → j < i

/-- `activate` only changes which root is live. -/
theorem activate_eq (k : Kernel) (root : Nat) : k.activate root =
    { k with installed := (k.activate root).installed, ttbr0 := (k.activate root).ttbr0 } := by
  rw [activate]
  split <;> rfl

@[simp] theorem activate_phys (k : Kernel) (root : Nat) : (k.activate root).phys = k.phys := by
  rw [activate_eq]

@[simp] theorem activate_processes (k : Kernel) (root : Nat) :
    (k.activate root).processes = k.processes := by
  rw [activate_eq]

@[simp] theorem activate_sched (k : Kernel) (root : Nat) : (k.activate root).sched = k.sched := by
  rw [activate_eq]

@[simp] theorem activate_trace (k : Kernel) (root : Nat) : (k.activate root).trace = k.trace := by
  rw [activate_eq]

@[simp] theorem activate_kernelTtbr0 (k : Kernel) (root : Nat) :
    (k.activate root).kernelTtbr0 = k.kernelTtbr0 := by
  rw [activate_eq]

@[simp] theorem kprintln_processes (k : Kernel) (s : String) :
    (k.kprintln s).processes = k.processes := rfl

@[simp] theorem kprintln_sched (k : Kernel) (s : String) : (k.kprintln s).sched = k.sched := rfl

@[simp] theorem kprintln_kernelTtbr0 (k : Kernel) (s : String) :
    (k.kprintln s).kernelTtbr0 = k.kernelTtbr0 := rfl

end Kernel

theorem slot_lt (i : BitVec 32) : slot i < 16 := by
  rw [slot, BitVec.toNat_and]
  exact Nat.lt_of_le_of_lt Nat.and_le_right (by decide)

namespace Kernel

section Complete

variable (k : Kernel) (ringPa userData : Nat) (result : Int) (child : Option Nat)

theorem complete_quiet : Quiet k (k.complete ringPa userData result child) := by
  rw [complete]
  split
  · exact (k.kprintln_quiet _).trans (log_quiet _ _)
  · exact (((ringStore_quiet _ _ _ _ _).trans (ringStore_quiet _ _ _ _ _)).trans
      (ringStore_quiet _ _ _ _ _)).trans (log_quiet _ _)

theorem complete_input : (k.complete ringPa userData result child).input = k.input := by
  rw [complete]
  split <;> rfl

theorem complete_eqOn :
    Set.EqOn (k.complete ringPa userData result child).mem k.mem (frameAt ringPa)ᶜ := by
  have hslot := slot_lt (cqTail k.mem ringPa)
  rw [complete]
  split
  · exact Set.eqOn_refl _ _
  · refine Set.EqOn.trans (ringStore_eqOn _ (by decide)) (Set.EqOn.trans (ringStore_eqOn _ ?_)
      (ringStore_eqOn _ ?_))
    · rw [offCq]
      omega
    · rw [offCq]
      omega

/-- The bits of a result. -/
theorem ofNat_i64Bits (r : Int) : BitVec.ofNat 64 (i64Bits r) = .ofInt 64 r := by
  have h : (BitVec.ofInt 64 r).toNat = i64Bits r := BitVec.toNat_ofInt ..
  rw [← h, BitVec.ofNat_toNat, BitVec.setWidth_eq]

theorem i64OfBits_i64Bits (r : Int) : i64OfBits (i64Bits r) = r.bmod (2 ^ 64) := by
  rw [i64OfBits, ofNat_i64Bits, BitVec.toInt_ofInt]

theorem i64Bits_lt (r : Int) : i64Bits r < 2 ^ 64 := by
  have h : (BitVec.ofInt 64 r).toNat = i64Bits r := BitVec.toNat_ofInt ..
  rw [← h]
  exact (BitVec.ofInt 64 r).isLt

/-- The parts of the ring page `complete` does not write: everything up to `cq_tail`, and from
`flags` to the end of the submission entries. -/
theorem complete_load {off n : Nat}
    (h : off + n ≤ offCqTail ∨ offFlags ≤ off ∧ off + n ≤ offCq) :
    (k.complete ringPa userData result child).mem.load (ringPa + off) n =
      k.mem.load (ringPa + off) n := by
  rw [offCqTail, offFlags, offCq] at h
  rw [complete]
  split
  · rfl
  · show (Mem.store _ _ _ _).load _ _ = _
    rw [Mem.load_store_disjoint (by rw [offCqTail]; omega), ringStore_mem,
      Mem.load_store_disjoint (by rw [offCq]; omega), ringStore_mem,
      Mem.load_store_disjoint (by rw [offCq]; omega)]

/-- **A completion is dropped when the queue is full**, and posted otherwise: then the trace has
what the two words of the slot can hold. -/
theorem complete_cases :
    (ringEntries ≤ cqTail k.mem ringPa - cqHead k.mem ringPa ∧
      (k.complete ringPa userData result child).mem = k.mem ∧
      (k.complete ringPa userData result child).trace =
        .overflow (k.ringOwner ringPa) userData child :: k.trace) ∨
    (cqTail k.mem ringPa - cqHead k.mem ringPa < ringEntries ∧
      cqTail (k.complete ringPa userData result child).mem ringPa = cqTail k.mem ringPa + 1 ∧
      (k.complete ringPa userData result child).trace =
        .cqe (k.ringOwner ringPa) (userData % 2 ^ 64) (result.bmod (2 ^ 64)) child ::
        .ringStore ringPa (k.ringOwner ringPa) :: .ringStore ringPa (k.ringOwner ringPa) ::
        .ringStore ringPa (k.ringOwner ringPa) :: k.trace) := by
  rw [complete]
  split
  · rename_i hfull
    exact .inl ⟨hfull, rfl, rfl⟩
  · rename_i hroom
    refine .inr ⟨BitVec.not_le.mp hroom, ?_, ?_⟩
    · show BitVec.ofNat 32 ((Mem.store _ _ _ _).load _ _) = _
      rw [Mem.load_store_of_lt _ (by have := (cqTail k.mem ringPa + 1).isLt; omega),
        BitVec.ofNat_toNat, BitVec.setWidth_eq]
    · obtain ⟨a, ha⟩ : ∃ a, a = cqeAddr ringPa (slot (cqTail k.mem ringPa)) := ⟨_, rfl⟩
      have haddr : ringPa + (offCq + 16 * slot (cqTail k.mem ringPa)) = a := by
        rw [ha, cqeAddr, Nat.add_assoc]
      have hresult : ringPa + (offCq + 16 * slot (cqTail k.mem ringPa) + 8) = a + 8 := by
        rw [← haddr, Nat.add_assoc ringPa]
      have hbelow : ringPa + offCqTail + 4 ≤ a := by
        rw [ha, cqeAddr, offCqTail, offCq]
        omega
      -- the store of the tail is not in the slot
      rw [logCqe, log, ringStore_mem, ringStore_mem, ringStore_mem, haddr, hresult, ← ha,
        Mem.load_store_disjoint (.inr hbelow), Mem.load_store_disjoint (.inl le_rfl),
        Mem.load_store_same, Mem.load_store_disjoint (.inr (by omega)), Mem.load_store_same,
        show (256 : Nat) ^ 8 = 2 ^ 64 from rfl, Nat.mod_eq_of_lt (i64Bits_lt result),
        i64OfBits_i64Bits]
      rfl

/-- A completion for which there is room is one more to reap. -/
theorem unreaped_complete (hroom : k.unreaped ringPa < ringEntries.toNat) :
    (k.complete ringPa userData result child).unreaped ringPa = k.unreaped ringPa + 1 := by
  rcases k.complete_cases ringPa userData result child with ⟨hfull, -⟩ | ⟨-, htail, -⟩
  · exact absurd hroom (Nat.not_lt.mpr hfull)
  · have hhead : cqHead (k.complete ringPa userData result child).mem ringPa =
        cqHead k.mem ringPa := congrArg _ (complete_load k ringPa userData result child (by decide))
    rw [unreaped] at hroom ⊢
    rw [htail, hhead, unreaped]
    rw [show ringEntries.toNat = 16 from rfl] at hroom
    bv_omega

end Complete

theorem unreaped_of_eqOn {k k' : Kernel} {ringPa : Nat}
    (h : Set.EqOn k'.mem k.mem (frameAt ringPa)) : k'.unreaped ringPa = k.unreaped ringPa := by
  have hload : ∀ {off : Nat}, off + 4 ≤ frameSize →
      k'.mem.load (ringPa + off) 4 = k.mem.load (ringPa + off) 4 :=
    fun hoff ↦ Mem.load_eqOn h (Nat.le_add_right ..) (by omega)
  rw [unreaped, unreaped, cqTail, cqHead, hload (by decide), hload (by decide)]
  rfl

end Kernel

/-! ## Setting up a ring -/

/-- **What `setup` does**: nothing if there is a ring, else a zeroed frame, mapped in the process's
space, becomes its ring. -/
theorem Kernel.setupRing_cases {k k' : Kernel} {pid : Nat} (h : k.setupRing pid = some k') :
    ∃ p, k.processes[pid]? = some p ∧ (p.ringPa ≠ 0 ∧ k' = k ∨ p.ringPa = 0 ∧ ∃ frame s phys,
      k.phys.allocFrame = some (frame, s) ∧
      mapPageIn { s with mem := s.mem.fill frame (List.replicate 4096 0) } (l0Ptr p.ttbr0)
        userRingVa frame pageUserRw = some phys ∧
      k' = { k with phys, processes := Processes.setRing k.processes pid frame }) := by
  rw [setupRing] at h
  obtain ⟨ringPa, hring, h⟩ := Option.bind_eq_some_iff.mp h
  obtain ⟨p, hp, rfl⟩ := Option.map_eq_some_iff.mp hring
  refine ⟨p, hp, ?_⟩
  split_ifs at h with hzero
  · exact .inl ⟨hzero, (Option.some.inj h).symm⟩
  · obtain ⟨⟨frame, s⟩, halloc, h⟩ := Option.bind_eq_some_iff.mp h
    obtain ⟨root, hroot, h⟩ := Option.bind_eq_some_iff.mp h
    rw [Processes.ttbr0, hp, Option.map_some] at hroot
    obtain rfl := Option.some.inj hroot
    obtain ⟨phys, hmap, h⟩ := Option.bind_eq_some_iff.mp h
    exact .inr ⟨of_not_not hzero, frame, s, phys, halloc, hmap, (Option.some.inj h).symm⟩

/-! ## Delivering console input -/

/-- The memories that single-byte stores into writable memory of process `pid`, through the space
at `root`, can lead to. -/
inductive UserWrites (ps : List Process) (pid root : Nat) (m : Mem) : Mem → Prop
  | refl : UserWrites ps pid root m m
  | step {m' : Mem} {va pa : Nat} {b : UInt8} (h : UserWrites ps pid root m m')
      (hrange : Processes.isUserRange ps pid va 1 true = some true)
      (hpa : el0WritablePa m' root va = some pa) : UserWrites ps pid root m (m'.fill pa [b])

theorem UserWrites.trans {ps : List Process} {pid root : Nat} {m m' m'' : Mem}
    (h : UserWrites ps pid root m m') (h' : UserWrites ps pid root m' m'') :
    UserWrites ps pid root m m'' := by
  induction h' with
  | refl => exact h
  | step _ hrange hpa ih => exact ih.step hrange hpa

/-- `k'` is `k` after some bytes of input or output have gone through: user memory of `pid`, the
input ring and the device may differ. -/
structure Delivered (pid : Nat) (k k' : Kernel) : Prop where
  quiet : Quiet k k'
  trace : k'.trace = k.trace
  writes : UserWrites k.processes pid k.ttbr0 k.mem k'.mem

theorem Delivered.refl (pid : Nat) (k : Kernel) : Delivered pid k k := ⟨.refl k, rfl, .refl⟩

theorem Delivered.trans {pid : Nat} {k k' k'' : Kernel} (h : Delivered pid k k')
    (h' : Delivered pid k' k'') : Delivered pid k k'' := by
  refine ⟨h.quiet.trans h'.quiet, h'.trace.trans h.trace, h.writes.trans ?_⟩
  have hw := h'.writes
  rwa [h.quiet.processes, h.quiet.ttbr0] at hw

namespace Kernel

/-- One byte to a user buffer. -/
theorem copyToUser_delivered {k k' : Kernel} {pid dst : Nat} {b : UInt8} {ok : Bool}
    (h : k.copyToUser pid dst [b] = some (ok, k')) : Delivered pid k k' ∧ k'.input = k.input := by
  rw [copyToUser] at h
  obtain ⟨valid, hv, h⟩ := Option.bind_eq_some_iff.mp h
  cases valid with
  | false =>
    cases h
    exact ⟨.refl _ _, rfl⟩
  | true =>
    obtain ⟨k₁, hk₁, h⟩ := Option.bind_eq_some_iff.mp h
    cases h
    obtain ⟨k₂, hk₂, hk₁⟩ := Option.bind_eq_some_iff.mp hk₁
    cases hk₁
    obtain ⟨pa, hpa, rfl⟩ := Option.map_eq_some_iff.mp hk₂
    exact ⟨⟨setMem_quiet _ _, rfl, .step .refl hv hpa⟩, rfl⟩

/-- The loop of `drain_input`. -/
theorem drainInputFrom_delivered {pid buf : Nat} : ∀ (n : Nat) {k k' : Kernel} {count c : Nat},
    drainInputFrom pid buf n k count = some (c, k') → Delivered pid k k'
  | 0, k, k', count, c, h => by
    cases h
    exact .refl _ _
  | n + 1, k, k', count, c, h => by
    rw [drainInputFrom] at h
    split at h
    · cases h
      exact .refl _ _
    · rename_i b input uart hpop
      obtain ⟨⟨ok, k₁⟩, hcopy, h⟩ := Option.bind_eq_some_iff.mp h
      have hpopped : Delivered pid k { k with input, uart } :=
        ⟨⟨rfl, rfl, rfl, rfl, rfl, rfl, rfl, rfl, rfl, rfl⟩, rfl, .refl⟩
      have hone := hpopped.trans (copyToUser_delivered hcopy).1
      cases ok with
      | true => exact hone.trans (drainInputFrom_delivered n h)
      | false =>
        cases h
        exact hone

theorem drainInput_delivered {k k' : Kernel} {pid buf len count : Nat}
    (h : k.drainInput pid buf len = some (count, k')) : Delivered pid k k' :=
  drainInputFrom_delivered len h

end Kernel

/-! ## The outcomes of a submission -/

/-- What carrying out one submission of process `pid` can amount to. -/
inductive SqeOutcome (pid ringPa tag : Nat) (child : Option Nat) (k : Kernel) : Kernel → Prop
  /-- It is completed at once. -/
  | completed {k₁ : Kernel} (result : Int) (hchild : child = none) (hd : Delivered pid k k₁)
      (hin : k₁.input ≠ k.input → Processes.foregroundPid k.processes = some pid) :
      SqeOutcome pid ringPa tag child k (k₁.complete ringPa tag result none)
  /-- A read is parked. -/
  | parked {k₁ : Kernel} {p : Process} {i : Fin maxPending} {r : Pending} (hchild : child = none)
      (hd : Delivered pid k k₁)
      (hin : k₁.input ≠ k.input → Processes.foregroundPid k.processes = some pid)
      (hp : k.processes[pid]? = some p) (hi : getElem p.pending i i.isLt = none)
      (htag : r.userData = tag) :
      SqeOutcome pid ringPa tag child k { k₁ with
        processes := k.processes.set pid { p with pending := p.pending.set i (some r) i.isLt } }
  /-- A wait finds that the child has exited. -/
  | answered {c : Nat} {p : Process} {code : Int} (hchild : child = some c)
      (hp : k.processes[c]? = some p) (hparent : p.parent = some pid)
      (hexit : p.exitCode = some code) :
      SqeOutcome pid ringPa tag child k (k.complete ringPa tag code (some c))
  /-- A wait is parked. -/
  | waiting {c : Nat} {p : Process} (hchild : child = some c) (hp : k.processes[c]? = some p)
      (hparent : p.parent = some pid) (hexit : p.exitCode = none) :
      SqeOutcome pid ringPa tag child k
        { k with processes := Processes.registerWait k.processes c tag }
  /-- A process is created. -/
  | spawned {name : String} {image : List UInt8} {root : Nat} {s₁ s₂ : Phys} {loaded : Loaded}
      {frames : List (Nat × Nat)} {uart : Uart} (hchild : child = none)
      (himage : k.getProgram name = some image)
      (hroot : newAddressSpace k.phys k.kernelL1 = some (root, s₁))
      (hspace : createSpace s₁ image root = some (loaded, frames, s₂)) :
      SqeOutcome pid ringPa tag child k
        (Kernel.complete { k with
            phys := s₂
            uart
            processes := k.processes ++
              [{ Process.fresh root loaded frames with parent := some pid }]
            sched := k.sched.spawnInner (some k.processes.length) (some root) }
          ringPa tag k.processes.length none)

namespace Kernel

variable {k k' : Kernel} {pid ringPa tag : Nat}

theorem print_outcome {ptr len : Nat} (h : k.print pid ringPa ptr len tag = some k') :
    SqeOutcome pid ringPa tag none k k' := by
  rw [print] at h
  obtain ⟨valid, -, h⟩ := Option.bind_eq_some_iff.mp h
  cases valid with
  | false =>
    cases h
    exact .completed err rfl (.refl _ _) (absurd rfl)
  | true =>
    obtain ⟨bytes, -, h⟩ := Option.bind_eq_some_iff.mp h
    cases h
    split
    · exact .completed 0 rfl
        ⟨⟨rfl, rfl, rfl, rfl, rfl, rfl, rfl, rfl, rfl, rfl⟩, rfl, .refl⟩ (absurd rfl)
    · exact .completed 0 rfl (.refl _ _) (absurd rfl)

/-- The slot a search for a free one ends at is free. -/
theorem getElem_of_findFinIdx? {α : Type} {n : Nat} {v : Vector (Option α) n} {i : Fin n}
    (h : v.findFinIdx? Option.isNone = some i) : getElem v i i.isLt = none := by
  have hfind : v.find? Option.isNone = some v[i] := by
    rw [Vector.find?_eq_map_findFinIdx?_getElem, h]
    rfl
  simpa using Vector.find?_some hfind

/-- `park_read` uses a free slot or finds none. -/
theorem parkRead_cases {ps : List Process} {r : Pending} {res : Option (List Process)}
    (h : Processes.parkRead ps pid r = some res) : ∃ p, ps[pid]? = some p ∧
      ((∃ i : Fin maxPending, getElem p.pending i i.isLt = none ∧
        res = some (ps.set pid { p with pending := p.pending.set i (some r) i.isLt })) ∨
          res = none) := by
  rw [Processes.parkRead] at h
  obtain ⟨p, hp, h⟩ := Option.bind_eq_some_iff.mp h
  refine ⟨p, hp, ?_⟩
  split at h
  · rename_i i hi
    cases h
    exact .inl ⟨i, getElem_of_findFinIdx? hi, rfl⟩
  · cases h
    exact .inr rfl

/-- The end of the `OP_READ` arm: complete with what was delivered, or park. -/
theorem read_finish (count : Nat) {k₁ : Kernel} {buf len : Nat} (hd : Delivered pid k k₁)
    (hin : k₁.input ≠ k.input → Processes.foregroundPid k.processes = some pid)
    (h : (if 0 < count then some (k₁.complete ringPa tag count none)
      else do
        match ← Processes.parkRead k₁.processes pid { buf, len, userData := tag } with
        | some processes => some { k₁ with processes }
        | none => some (k₁.complete ringPa tag err none)) = some k') :
    SqeOutcome pid ringPa tag none k k' := by
  split at h
  · cases h
    exact .completed count rfl hd hin
  · obtain ⟨res, hpark, h⟩ := Option.bind_eq_some_iff.mp h
    obtain ⟨p, hp, ⟨i, hi, rfl⟩ | rfl⟩ := parkRead_cases hpark
    · cases h
      rw [hd.quiet.processes] at hp ⊢
      exact .parked rfl hd hin hp hi rfl
    · cases h
      exact .completed err rfl hd hin

theorem read_outcome {buf len : Nat} (h : k.read pid ringPa buf len tag = some k') :
    SqeOutcome pid ringPa tag none k k' := by
  rw [read] at h
  obtain ⟨valid, -, h⟩ := Option.bind_eq_some_iff.mp h
  cases valid with
  | false =>
    cases h
    exact .completed err rfl (.refl _ _) (absurd rfl)
  | true =>
    simp only [Bool.not_true, Bool.false_eq_true, ↓reduceIte] at h
    split_ifs at h with hlen hfg
    · cases h
      exact .completed 0 rfl (.refl _ _) (absurd rfl)
    · -- only the foreground process gets bytes at once
      obtain ⟨⟨count, k₁⟩, hd, h⟩ := Option.bind_eq_some_iff.mp h
      exact read_finish count (drainInput_delivered hd) (fun _ ↦ hfg) h
    · exact read_finish 0 (.refl _ _) (absurd rfl) h

theorem modify_concat {α : Type} (l : List α) (a : α) (f : α → α) :
    (l ++ [a]).modify l.length f = l ++ [f a] := by
  induction l with
  | nil => rfl
  | cons b l ih => simpa using ih

theorem setParent_append (ps : List Process) (p : Process) (parent : Nat) :
    Processes.setParent (ps ++ [p]) ps.length parent = ps ++ [{ p with parent := some parent }] :=
  modify_concat ps p _

theorem spawn_outcome {namePtr nameLen : Nat}
    (hring : Processes.ringPa k.processes pid = some ringPa)
    (h : k.spawn pid namePtr nameLen tag = some k') : SqeOutcome pid ringPa tag none k k' := by
  rw [spawn, hring] at h
  simp only [Option.bind_eq_bind, Option.bind_some] at h
  obtain ⟨valid, -, h⟩ := Option.bind_eq_some_iff.mp h
  cases valid with
  | false =>
    cases h
    exact .completed err rfl (.refl _ _) (absurd rfl)
  | true =>
    obtain ⟨bytes, -, h⟩ := Option.bind_eq_some_iff.mp h
    split at h
    · cases h
      exact .completed err rfl (.refl _ _) (absurd rfl)
    · rename_i image himage
      obtain ⟨name, -, himage⟩ := Option.bind_eq_some_iff.mp himage
      obtain ⟨⟨root, s₁⟩, hroot, h⟩ := Option.bind_eq_some_iff.mp h
      obtain ⟨⟨child, k₁⟩, hcreate, h⟩ := Option.bind_eq_some_iff.mp h
      rw [create] at hcreate
      obtain ⟨⟨loaded, frames, s₂⟩, hspace, hcreate⟩ := Option.bind_eq_some_iff.mp hcreate
      cases hcreate
      obtain ⟨parentRoot, -, h⟩ := Option.bind_eq_some_iff.mp h
      obtain ⟨_, -, h⟩ := Option.bind_eq_some_iff.mp h
      cases h
      rw [setParent_append]
      exact .spawned rfl himage hroot hspace

theorem wait_outcome {handle : Nat} (hring : Processes.ringPa k.processes pid = some ringPa)
    (h : k.wait pid handle tag = some k') :
    SqeOutcome pid ringPa tag (k.waitsFor pid opWait handle) k k' := by
  rw [wait, hring] at h
  simp only [Option.bind_eq_bind, Option.bind_some] at h
  split at h
  · rename_i hnone
    cases h
    refine .completed err ?_ (.refl _ _) (absurd rfl)
    simp [waitsFor, hnone]
  · rename_i c hc
    split at h
    · rename_i hparent
      cases h
      refine .completed err ?_ (.refl _ _) (absurd rfl)
      simp [waitsFor, hc, hparent]
    · rename_i hparent
      have hchild : k.waitsFor pid opWait handle = some handle := by
        simp only [waitsFor, hc, Option.any_some, true_and]
        exact if_pos (by simpa using hparent)
      have hparent : c.parent = some pid := by simpa using hparent
      split at h
      · rename_i code hcode
        cases h
        exact .answered hchild hc hparent hcode
      · rename_i hcode
        cases h
        exact .waiting hchild hc hparent hcode

theorem waitsFor_of_ne {opcode arg0 : Nat} (h : opcode ≠ opWait) :
    k.waitsFor pid opcode arg0 = none := if_neg fun hc ↦ h hc.1

/-- **What `process_sqe` can do**: an entry is logged, and then it has one of the outcomes. -/
theorem processSqe_cases {addr : Nat} (h : k.processSqe pid addr = some k') :
    ∃ ringPa child, Processes.ringPa k.processes pid = some ringPa ∧
      SqeOutcome pid ringPa (k.mem.load (addr + 24) 8) child
        (k.log (.sqe pid (k.mem.load (addr + 24) 8) k.ttbr0 child)) k' := by
  rw [processSqe] at h
  obtain ⟨ringPa, hring, h⟩ := Option.bind_eq_some_iff.mp h
  generalize k.mem.load addr 8 = op at h
  generalize k.mem.load (addr + 24) 8 = tag at h ⊢
  by_cases hwait : op = opWait
  · refine ⟨ringPa, k.waitsFor pid opWait (k.mem.load (addr + 8) 8), hring, ?_⟩
    rw [hwait] at h
    exact wait_outcome (k := k.log _) hring h
  · refine ⟨ringPa, none, hring, ?_⟩
    rw [waitsFor_of_ne hwait] at h
    simp only at h
    split_ifs at h with h0 h1 h2 h3
    · cases h
      exact .completed 0 rfl (.refl _ _) (absurd rfl)
    · exact print_outcome h
    · exact read_outcome h
    · exact spawn_outcome hring h
    · cases h
      exact .completed err rfl (.refl _ _) (absurd rfl)

/-- **The rule for `drain`**: what every submission and every move of the head keeps is kept. -/
theorem drainFrom_invariant {I : Kernel → Prop} {tail : BitVec 32}
    (hsqe : ∀ k k' addr, I k → k.processSqe pid addr = some k' → I k')
    (hhead : ∀ k v, I k → I (k.ringStore ringPa offSqHead 4 v)) :
    ∀ (n : Nat) {k k' : Kernel} {head : BitVec 32}, I k →
      drainFrom pid ringPa tail n k head = some k' → I k'
  | 0, k, k', head, hI, h => by
    cases h
    exact hI
  | n + 1, k, k', head, hI, h => by
    rw [drainFrom] at h
    split at h
    · cases h
      exact hI
    · obtain ⟨k₁, hk₁, h⟩ := Option.bind_eq_some_iff.mp h
      exact drainFrom_invariant hsqe hhead n (hhead _ _ (hsqe _ _ _ hI hk₁)) h

end Kernel

end Jatuli

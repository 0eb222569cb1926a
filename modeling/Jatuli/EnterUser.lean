import Jatuli.Vectors
import Jatuli.Process
import Jatuli.Lib.Transition

/-!
# Entering user mode

A user task starts in `task_trampoline`, which unmasks interrupts, and comes through `user_task` to
the assembly of `enter_user`: three `msr` and an `eret`.  Interrupts stay unmasked there, and taking
one at EL1 overwrites `ELR_EL1` and `SPSR_EL1`.  The vector stub restores all general registers and
`SP_EL0`, but what it leaves in these two registers is its own return address and state.

The trampoline and the assembly are executed instruction by instruction; the Rust code between them
is anything that arrives at the assembly with the registers loaded.  An interrupt is taken with its
whole handler, which may do as it likes apart from the trap frame, other tasks' turns included.
-/

set_option autoImplicit false

namespace Jatuli

open Aarch64

/-- A user task that is about to start: where its code lies, the registers the compiler has chosen
for the operands of the assembly, and the process's entry point. -/
structure UserStart where
  /-- `task_trampoline` -/
  trampoline : BitVec 64
  /-- `user_task` -/
  userTask : BitVec 64
  /-- The assembly of `enter_user`. -/
  asm : BitVec 64
  spsrReg : Fin 31
  entryReg : Fin 31
  spReg : Fin 31
  /-- `process::entry(pid)` -/
  entry : BitVec 64
  trampoline_low : trampoline.toNat + 16 ≤ userBase
  asm_low : asm.toNat + 16 ≤ userBase
  userTask_low : userTask.toNat < userBase
  entry_high : userBase ≤ entry.toNat
  apart : ∀ i < 4, ∀ j < 4, trampoline + .ofNat 64 (4 * i) ≠ asm + .ofNat 64 (4 * j)
  userTask_apart : ∀ i < 4, userTask ≠ trampoline + .ofNat 64 (4 * i) ∧
    userTask ≠ asm + .ofNat 64 (4 * i)

/-- `USER_STACK_VA + USER_STACK_SIZE` -/
def userSp : BitVec 64 := .ofNat 64 (userStackVa + userStackSize)

/-- At EL1 on its own stack pointer. -/
def AtEl1 (pstate : BitVec 64) : Prop := pstate &&& 0xf = 5

instance (pstate : BitVec 64) : Decidable (AtEl1 pstate) := inferInstanceAs (Decidable (_ = _))

namespace UserStart

variable (L : UserStart)

/-- The instruction of `task_trampoline` with number `i`. -/
def tramp (i : Nat) : BitVec 64 := L.trampoline + .ofNat 64 (4 * i)

/-- The instruction of the assembly with number `j`. -/
def line (j : Nat) : BitVec 64 := L.asm + .ofNat 64 (4 * j)

/-- The operands of the assembly are in their registers. -/
def Loaded (c : Cpu) : Prop :=
  c.x L.spsrReg = 0 ∧ c.x L.entryReg = L.entry ∧ c.x L.spReg = userSp

instance (c : Cpu) : Decidable (L.Loaded c) := inferInstanceAs (Decidable (_ ∧ _))

/-- An address of the Rust code of `user_task` and what it calls. -/
def InBody (pc : BitVec 64) : Prop :=
  pc.toNat < userBase ∧ ∀ i < 4, pc ≠ L.tramp i ∧ pc ≠ L.line i

instance (pc : BitVec 64) : Decidable (L.InBody pc) := inferInstanceAs (Decidable (_ ∧ _))

end UserStart

/-- What can happen while a user task starts. -/
inductive StartAct
  /-- The next instruction of the trampoline or of the assembly. -/
  | next
  /-- Some Rust code, which leads to this state. -/
  | rust (c : Cpu)
  /-- An interrupt; `exception_dispatch` returns in this state. -/
  | irq (c : Cpu)

namespace UserStart

variable (L : UserStart)

/-- An instruction of the trampoline or of the assembly. -/
def next (c : Cpu) : Option Cpu :=
  if c.pc = L.tramp 0 then some { c.step .unmaskIrq with pc := L.tramp 1 }
  else if c.pc = L.tramp 1 then some { c.step (.mov 0 20) with pc := L.tramp 2 }
  else if c.pc = L.tramp 2 then some { c.setX 30 (L.tramp 3) with pc := c.x 19 }
  else if c.pc = L.line 0 then some { c.step (.msr .spsr L.spsrReg) with pc := L.line 1 }
  else if c.pc = L.line 1 then some { c.step (.msr .elr L.entryReg) with pc := L.line 2 }
  else if c.pc = L.line 2 then some { c.step (.msr .spEl0 L.spReg) with pc := L.line 3 }
  else if c.pc = L.line 3 then some c.eret
  else none

/-- The state in which `exception_dispatch` is called for an interrupt. -/
def called (c : Cpu) : Cpu := saved (c.takeException c.pc 0) 5

/-- The handler leaves the frame alone and returns to it. -/
def Handles (c c' : Cpu) : Prop :=
  c'.sp = (called c).sp ∧ ∀ j < 34, c'.mem (c'.sp + .ofNat 64 (8 * j)) =
    (called c).mem (c'.sp + .ofNat 64 (8 * j))

instance (c c' : Cpu) : Decidable (Handles c c') := inferInstanceAs (Decidable (_ ∧ _))

/-- What an action does. -/
def step (c : Cpu) : StartAct → Option Cpu
  | .next => L.next c
  | .rust c' =>
    if L.InBody c.pc ∧ AtEl1 c'.pstate ∧
        (L.InBody c'.pc ∨ c'.pc = L.line 0 ∧ L.Loaded c' ∧ c'.masked = false) then some c'
    else none
  | .irq c' =>
    if c.masked = false ∧ AtEl1 c.pstate ∧ Handles c c' then some (restored c') else none

/-- Whether an action is an interrupt between the first `msr` and the `eret`. -/
def disturbs (c : Cpu) : StartAct → Bool
  | .irq _ => c.pc = L.line 1 ∨ c.pc = L.line 2 ∨ c.pc = L.line 3
  | _ => false

end UserStart

/-- A user task from its first instruction on, and whether it has been interrupted between the
first `msr` and the `eret`. -/
def starting (L : UserStart) : System (Cpu × Bool) StartAct :=
  System.track
    { init := fun c ↦ c.pc = L.tramp 0 ∧ AtEl1 c.pstate ∧ c.x 19 = L.userTask, step := L.step }
    false fun d c a _ ↦ d || L.disturbs c a

/-- The task has entered user mode as it should. -/
structure Entered (L : UserStart) (c : Cpu) : Prop where
  el0 : c.pstate = 0
  pc : c.pc = L.entry
  spsr : c.spsr = 0
  spEl0 : c.spEl0 = userSp

/-! ## One step -/

namespace UserStart

variable {L : UserStart} {c c' : Cpu}

theorem line_inj {i j : Nat} (hi : i < 4) (hj : j < 4) (h : L.line i = L.line j) : i = j := by
  by_contra hne
  refine absurd h (offset_ne ?_ ?_ ?_)
  · omega
  · omega
  · omega

theorem tramp_ne_line {i j : Nat} (hi : i < 4) (hj : j < 4) : L.tramp i ≠ L.line j :=
  L.apart i hi j hj

theorem line_low {j : Nat} (hj : j < 4) : (L.line j).toNat < userBase := by
  have hlow := L.asm_low
  have hbase : userBase = 0x80_0000_0000 := rfl
  rw [line, BitVec.toNat_add, BitVec.toNat_ofNat]
  omega

theorem tramp_low {i : Nat} (hi : i < 4) : (L.tramp i).toNat < userBase := by
  have hlow := L.trampoline_low
  have hbase : userBase = 0x80_0000_0000 := rfl
  rw [tramp, BitVec.toNat_add, BitVec.toNat_ofNat]
  omega

theorem entry_ne_line {j : Nat} (hj : j < 4) : L.entry ≠ L.line j := by
  intro he
  have hlow := L.line_low hj
  have hhigh := L.entry_high
  rw [he] at hhigh
  omega

/-- An interrupt gives everything back but `ELR_EL1` and `SPSR_EL1`, which are left to be its own
return address and state. -/
theorem restored_of_handles (h : Handles c c') : restored c' = { c' with
    x := c.x
    sp := c.sp
    pc := c.pc
    pstate := c.pstate
    elr := c.pc
    spsr := c.pstate
    spEl0 := c.spEl0 } := by
  obtain ⟨hsp, hmem⟩ := h
  obtain ⟨x, hcalled⟩ := saved_eq (c.takeException c.pc 0) 5
  have hsp' : c'.sp = c.sp - .ofNat 64 trapFrameSize := by rw [hsp, called, saved_sp]; rfl
  have hframe : (TrapFrame.of (c.takeException c.pc 0)).At c'.mem c'.sp := by
    have hsaved := savedMem_frame (c.takeException c.pc 0) 5 c'.sp
    have hmem' (j : Nat) (hj : j < 34) : c'.mem (c'.sp + .ofNat 64 (8 * j)) =
        savedMem (c.takeException c.pc 0) 5 c'.sp (c'.sp + .ofNat 64 (8 * j)) := by
      rw [hmem j hj, called, hcalled, hsp']
      rfl
    exact hsaved.congr hmem'
  have hback : c'.sp + .ofNat 64 trapFrameSize = c.sp := by rw [hsp', BitVec.sub_add_cancel]
  rw [restored_eq hframe, hback]
  rfl

/-- What an instruction can be. -/
theorem next_cases (h : L.next c = some c') :
    (c.pc = L.tramp 0 ∧ c' = { c.step .unmaskIrq with pc := L.tramp 1 }) ∨
    (c.pc = L.tramp 1 ∧ c' = { c.step (.mov 0 20) with pc := L.tramp 2 }) ∨
    (c.pc = L.tramp 2 ∧ c' = { c.setX 30 (L.tramp 3) with pc := c.x 19 }) ∨
    (c.pc = L.line 0 ∧ c' = { c with spsr := c.x L.spsrReg, pc := L.line 1 }) ∨
    (c.pc = L.line 1 ∧ c' = { c with elr := c.x L.entryReg, pc := L.line 2 }) ∨
    (c.pc = L.line 2 ∧ c' = { c with spEl0 := c.x L.spReg, pc := L.line 3 }) ∨
    (c.pc = L.line 3 ∧ c' = c.eret) := by
  rw [next] at h
  split_ifs at h with h₀ h₁ h₂ h₃ h₄ h₅ h₆
  · exact .inl ⟨h₀, (Option.some.inj h).symm⟩
  · exact .inr (.inl ⟨h₁, (Option.some.inj h).symm⟩)
  · exact .inr (.inr (.inl ⟨h₂, (Option.some.inj h).symm⟩))
  · exact .inr (.inr (.inr (.inl ⟨h₃, (Option.some.inj h).symm⟩)))
  · exact .inr (.inr (.inr (.inr (.inl ⟨h₄, (Option.some.inj h).symm⟩))))
  · exact .inr (.inr (.inr (.inr (.inr (.inl ⟨h₅, (Option.some.inj h).symm⟩)))))
  · exact .inr (.inr (.inr (.inr (.inr (.inr ⟨h₆, (Option.some.inj h).symm⟩)))))

theorem next_eret (hpc : c.pc = L.line 3) : L.next c = some c.eret := by
  have htramp (i : Nat) (hi : i < 4) : c.pc ≠ L.tramp i := fun h ↦
    L.tramp_ne_line hi (by decide : 3 < 4) (h.symm.trans hpc)
  have hline (j : Nat) (hj : j < 3) : c.pc ≠ L.line j := fun h ↦ by
    have := line_inj (by omega) (by decide) (h.symm.trans hpc)
    omega
  rw [next, if_neg (htramp 0 (by decide)), if_neg (htramp 1 (by decide)),
    if_neg (htramp 2 (by decide)), if_neg (hline 0 (by decide)), if_neg (hline 1 (by decide)),
    if_neg (hline 2 (by decide)), if_pos hpc]

/-- The task has not been disturbed, and is still on its way. -/
inductive Before (L : UserStart) (c : Cpu) : Prop
  | trampoline (i : Nat) (hi : i < 3) (hpc : c.pc = L.tramp i) (hel : AtEl1 c.pstate)
      (hx : c.x 19 = L.userTask)
  | body (hpc : L.InBody c.pc) (hel : AtEl1 c.pstate)
  | line (j : Nat) (hj : j < 4) (hpc : c.pc = L.line j) (hel : AtEl1 c.pstate)
      (hloaded : L.Loaded c) (hspsr : 0 < j → c.spsr = 0) (helr : 1 < j → c.elr = L.entry)
      (hsp : 2 < j → c.spEl0 = userSp)

/-- The task has been disturbed: it cannot get to EL0 any more. -/
inductive Disturbed (L : UserStart) (c : Cpu) : Prop
  /-- It is in the assembly, and the `eret` leads to the entry point or back into the assembly. -/
  | line (j : Nat) (hpos : 0 < j) (hj : j < 4) (hpc : c.pc = L.line j) (hel : AtEl1 c.pstate)
      (hspsr : AtEl1 c.spsr) (hloaded : L.Loaded c)
      (helr : 1 < j → c.elr = L.entry ∨ ∃ i, 0 < i ∧ i < 4 ∧ c.elr = L.line i)
  /-- It is at the entry point, at EL1. -/
  | user (hpc : c.pc = L.entry) (hel : AtEl1 c.pstate)

theorem Before.atTramp (h : Before L c) {i : Nat} (hi : i < 4) (hpc : c.pc = L.tramp i) :
    AtEl1 c.pstate ∧ c.x 19 = L.userTask := by
  cases h with
  | trampoline _ _ _ hel hx => exact ⟨hel, hx⟩
  | body hb _ => exact absurd hpc (hb.2 i hi).1
  | line j hj hl => exact absurd (hpc.symm.trans hl) (tramp_ne_line hi hj)

theorem Before.atLine (h : Before L c) {j : Nat} (hj : j < 4) (hpc : c.pc = L.line j) :
    AtEl1 c.pstate ∧ L.Loaded c ∧ (0 < j → c.spsr = 0) ∧ (1 < j → c.elr = L.entry) ∧
      (2 < j → c.spEl0 = userSp) := by
  cases h with
  | trampoline i hi ht => exact absurd (ht.symm.trans hpc) (tramp_ne_line (by omega) hj)
  | body hb _ => exact absurd hpc (hb.2 j hj).2
  | line i hi hl hel hloaded hspsr helr hsp =>
    obtain rfl := line_inj hi hj (hl.symm.trans hpc)
    exact ⟨hel, hloaded, hspsr, helr, hsp⟩

/-- The `eret` of a task that has not been disturbed. -/
theorem Before.eret (h : Before L c) (hpc : c.pc = L.line 3) : Entered L c.eret := by
  obtain ⟨-, -, hspsr, helr, hsp⟩ := h.atLine (by decide) hpc
  exact ⟨hspsr (by decide), helr (by decide), hspsr (by decide), hsp (by decide)⟩

/-- An instruction takes the task on, or to user mode. -/
theorem Before.next (h : Before L c) (hs : L.next c = some c') :
    Before L c' ∨ Entered L c' := by
  rcases next_cases hs with ⟨hpc, rfl⟩ | ⟨hpc, rfl⟩ | ⟨hpc, rfl⟩ | ⟨hpc, rfl⟩ | ⟨hpc, rfl⟩ |
    ⟨hpc, rfl⟩ | ⟨hpc, rfl⟩
  · obtain ⟨hel, hx⟩ := h.atTramp (by decide) hpc
    refine .inl (.trampoline 1 (by decide) rfl ?_ hx)
    show c.pstate &&& ~~~Cpu.irqBit &&& 0xf = 5
    rw [BitVec.and_assoc, show ~~~Cpu.irqBit &&& (0xf : BitVec 64) = 0xf by decide]
    exact hel
  · obtain ⟨hel, hx⟩ := h.atTramp (by decide) hpc
    exact .inl (.trampoline 2 (by decide) rfl hel hx)
  · obtain ⟨hel, hx⟩ := h.atTramp (by decide) hpc
    refine .inl (.body ?_ hel)
    show L.InBody (c.x 19)
    rw [hx]
    exact ⟨L.userTask_low, L.userTask_apart⟩
  · obtain ⟨hel, hloaded, -⟩ := h.atLine (by decide) hpc
    exact .inl (.line 1 (by decide) rfl hel hloaded (fun _ ↦ hloaded.1)
      (fun h ↦ absurd h (by decide)) fun h ↦ absurd h (by decide))
  · obtain ⟨hel, hloaded, hspsr, -⟩ := h.atLine (by decide) hpc
    exact .inl (.line 2 (by decide) rfl hel hloaded (fun _ ↦ hspsr (by decide))
      (fun _ ↦ hloaded.2.1) fun h ↦ absurd h (by decide))
  · obtain ⟨hel, hloaded, hspsr, helr, -⟩ := h.atLine (by decide) hpc
    exact .inl (.line 3 (by decide) rfl hel hloaded (fun _ ↦ hspsr (by decide))
      (fun _ ↦ helr (by decide)) (fun _ ↦ hloaded.2.2))
  · exact .inr (h.eret hpc)

/-- An interrupt outside the critical instructions changes nothing. -/
theorem Before.irq (h : Before L c) (hs : Handles c c') (hd : L.disturbs c (.irq c') = false) :
    Before L (restored c') := by
  have hout : ¬ (c.pc = L.line 1 ∨ c.pc = L.line 2 ∨ c.pc = L.line 3) := of_decide_eq_false hd
  rw [restored_of_handles hs]
  cases h with
  | trampoline i hi hpc hel hx => exact .trampoline i hi hpc hel hx
  | body hb hel => exact .body hb hel
  | line j hj hpc hel hloaded hspsr helr hsp =>
    obtain rfl : j = 0 := by
      by_contra hne
      refine hout ?_
      obtain rfl | rfl | rfl : j = 1 ∨ j = 2 ∨ j = 3 := by omega
      · exact .inl hpc
      · exact .inr (.inl hpc)
      · exact .inr (.inr hpc)
    exact .line 0 hj hpc hel hloaded (fun h ↦ absurd h (by decide))
      (fun h ↦ absurd h (by decide)) fun h ↦ absurd h (by decide)

/-- An interrupt between the first `msr` and the `eret` spoils both registers. -/
theorem Before.disturbed (h : Before L c) (hs : Handles c c') (hd : L.disturbs c (.irq c') = true) :
    Disturbed L (restored c') := by
  obtain ⟨j, hpos, hj, hpc⟩ : ∃ j, 0 < j ∧ j < 4 ∧ c.pc = L.line j := by
    rcases of_decide_eq_true hd with hpc | hpc | hpc
    · exact ⟨1, by decide, by decide, hpc⟩
    · exact ⟨2, by decide, by decide, hpc⟩
    · exact ⟨3, by decide, by decide, hpc⟩
  obtain ⟨hel, hloaded, -⟩ := h.atLine hj hpc
  rw [restored_of_handles hs]
  exact .line j hpos hj hpc hel hel hloaded fun _ ↦ .inr ⟨j, hpos, hj, hpc⟩

theorem Disturbed.atLine (h : Disturbed L c) {j : Nat} (hj : j < 4) (hpc : c.pc = L.line j) :
    0 < j ∧ AtEl1 c.pstate ∧ AtEl1 c.spsr ∧ L.Loaded c ∧
      (1 < j → c.elr = L.entry ∨ ∃ i, 0 < i ∧ i < 4 ∧ c.elr = L.line i) := by
  cases h with
  | line i hpos hi hl hel hspsr hloaded helr =>
    obtain rfl := line_inj hi hj (hl.symm.trans hpc)
    exact ⟨hpos, hel, hspsr, hloaded, helr⟩
  | user hu => exact absurd (hu.symm.trans hpc) (entry_ne_line hj)

theorem Disturbed.el1 (h : Disturbed L c) : AtEl1 c.pstate := by
  cases h with
  | line _ _ _ _ hel => exact hel
  | user _ hel => exact hel

theorem Disturbed.not_tramp (h : Disturbed L c) {i : Nat} (hi : i < 4) : c.pc ≠ L.tramp i := by
  intro hpc
  cases h with
  | line j _ hj hl => exact tramp_ne_line hi hj (hpc.symm.trans hl)
  | user hu =>
    have hlow := L.tramp_low hi
    have hhigh := L.entry_high
    rw [← hu, hpc] at hhigh
    omega

theorem Disturbed.next (h : Disturbed L c) (hs : L.next c = some c') : Disturbed L c' := by
  rcases next_cases hs with ⟨hpc, -⟩ | ⟨hpc, -⟩ | ⟨hpc, -⟩ | ⟨hpc, -⟩ | ⟨hpc, rfl⟩ | ⟨hpc, rfl⟩ |
    ⟨hpc, rfl⟩
  · exact absurd hpc (h.not_tramp (by decide))
  · exact absurd hpc (h.not_tramp (by decide))
  · exact absurd hpc (h.not_tramp (by decide))
  · exact absurd (h.atLine (by decide) hpc).1 (by decide)
  · obtain ⟨-, hel, hspsr, hloaded, -⟩ := h.atLine (by decide) hpc
    exact .line 2 (by decide) (by decide) rfl hel hspsr hloaded fun _ ↦ .inl hloaded.2.1
  · obtain ⟨-, hel, hspsr, hloaded, helr⟩ := h.atLine (by decide) hpc
    exact .line 3 (by decide) (by decide) rfl hel hspsr hloaded fun _ ↦ helr (by decide)
  · -- the `eret` leads to EL1: to the entry point, or back into the assembly
    obtain ⟨-, -, hspsr, hloaded, helr⟩ := h.atLine (by decide) hpc
    rcases helr (by decide) with hentry | ⟨i, hpos, hi, hline⟩
    · exact .user hentry hspsr
    · exact .line i hpos hi hline hspsr hspsr hloaded fun _ ↦ .inr ⟨i, hpos, hi, hline⟩

/-- There is no way out of that. -/
theorem Disturbed.step (h : Disturbed L c) {a : StartAct} (hs : L.step c a = some c') :
    Disturbed L c' := by
  cases a with
  | next => exact h.next hs
  | rust r =>
    simp only [UserStart.step, Option.ite_none_right_eq_some] at hs
    obtain ⟨⟨hlow, hb⟩, -⟩ := hs.1
    cases h with
    | line j _ hj hl => exact absurd hl (hb j hj).2
    | user hu =>
      have hhigh := L.entry_high
      rw [← hu] at hhigh
      omega
  | irq r =>
    simp only [UserStart.step, Option.ite_none_right_eq_some] at hs
    obtain ⟨⟨-, -, hhandles⟩, hr⟩ := hs
    obtain rfl := Option.some.inj hr
    rw [restored_of_handles hhandles]
    cases h with
    | line j hpos hj hl hel _ hloaded _ =>
      exact .line j hpos hj hl hel hel hloaded fun _ ↦ .inr ⟨j, hpos, hj, hl⟩
    | user hu hel => exact .user hu hel

end UserStart

/-! ## Whole runs -/

/-- Where a starting task stands, given whether it has been disturbed. -/
def OnItsWay (L : UserStart) (y : Cpu × Bool) : Prop :=
  (y.2 = false ∧ (UserStart.Before L y.1 ∨ Entered L y.1)) ∨
    (y.2 = true ∧ UserStart.Disturbed L y.1)

/-- Nothing more happens to a task that has entered user mode: it does not run kernel code. -/
theorem Entered.step_none {L : UserStart} {c : Cpu} (h : Entered L c) (a : StartAct) :
    L.step c a = none := by
  have hhigh := L.entry_high
  rw [← h.pc] at hhigh
  cases a with
  | next =>
    rw [Option.eq_none_iff_forall_ne_some]
    intro c' hs
    have htramp (i : Nat) (hi : i < 4) (hpc : c.pc = L.tramp i) : False := by
      have hlow := L.tramp_low hi
      rw [← hpc] at hlow
      omega
    have hline (j : Nat) (hj : j < 4) (hpc : c.pc = L.line j) : False := by
      have hlow := L.line_low hj
      rw [← hpc] at hlow
      omega
    rcases UserStart.next_cases hs with ⟨hpc, -⟩ | ⟨hpc, -⟩ | ⟨hpc, -⟩ | ⟨hpc, -⟩ | ⟨hpc, -⟩ |
      ⟨hpc, -⟩ | ⟨hpc, -⟩
    · exact htramp 0 (by decide) hpc
    · exact htramp 1 (by decide) hpc
    · exact htramp 2 (by decide) hpc
    · exact hline 0 (by decide) hpc
    · exact hline 1 (by decide) hpc
    · exact hline 2 (by decide) hpc
    · exact hline 3 (by decide) hpc
  | rust r =>
    refine if_neg fun hr ↦ ?_
    have hlow := hr.1.1
    omega
  | irq r =>
    refine if_neg fun hr ↦ ?_
    have hel := hr.2.1
    rw [h.el0] at hel
    exact absurd hel (by decide)

namespace UserStart

variable {L : UserStart} {c c' : Cpu}

/-- What a step does to a task that has not been disturbed. -/
theorem Before.step (h : Before L c) {a : StartAct} (hs : L.step c a = some c') :
    OnItsWay L (c', L.disturbs c a) := by
  cases a with
  | next => exact .inl ⟨rfl, h.next hs⟩
  | rust r =>
    simp only [UserStart.step, Option.ite_none_right_eq_some] at hs
    obtain ⟨⟨-, hel, hr⟩, hc⟩ := hs
    obtain rfl := Option.some.inj hc
    refine .inl ⟨rfl, .inl ?_⟩
    rcases hr with hb | ⟨hpc, hloaded, -⟩
    · exact .body hb hel
    · exact .line 0 (by decide) hpc hel hloaded (fun h ↦ absurd h (by decide))
        (fun h ↦ absurd h (by decide)) fun h ↦ absurd h (by decide)
  | irq r =>
    simp only [UserStart.step, Option.ite_none_right_eq_some] at hs
    obtain ⟨⟨-, -, hhandles⟩, hc⟩ := hs
    obtain rfl := Option.some.inj hc
    cases hd : L.disturbs c (.irq r) with
    | false => exact .inl ⟨rfl, .inl (h.irq hhandles hd)⟩
    | true => exact .inr ⟨rfl, h.disturbed hhandles hd⟩

theorem Before.low (h : Before L c) : c.pc.toNat < userBase ∧ AtEl1 c.pstate := by
  cases h with
  | trampoline i hi hpc hel => exact ⟨hpc ▸ L.tramp_low (by omega), hel⟩
  | body hb hel => exact ⟨hb.1, hel⟩
  | line j hj hpc hel => exact ⟨hpc ▸ L.line_low hj, hel⟩

end UserStart

theorem onItsWay_of_reach {L : UserStart} {y : Cpu × Bool} (h : (starting L).Reach System.Free y) :
    OnItsWay L y := by
  refine h.invariant ?_ ?_
  · rintro ⟨c, d⟩ ⟨⟨hpc, hel, hx⟩, rfl⟩
    exact .inl ⟨rfl, .inl (.trampoline 0 (by decide) hpc hel hx)⟩
  · rintro ⟨c, d⟩ a ⟨c', d'⟩ hway - hs
    obtain ⟨hstep, rfl⟩ : L.step c a = some c' ∧ d' = (d || L.disturbs c a) :=
      System.track_step hs
    rcases hway with ⟨rfl, hbefore | hentered⟩ | ⟨rfl, hdisturbed⟩
    · rw [Bool.false_or]
      exact hbefore.step hstep
    · rw [hentered.step_none] at hstep
      exact absurd hstep (by simp)
    · exact .inr ⟨rfl, hdisturbed.step hstep⟩

/-- **A task enters user mode as it should exactly when it is not interrupted between the first
`msr` and the `eret`.**  While it has not been, it is in kernel code at EL1 or has entered user
mode; and the `eret` leads to EL0, at the entry point and with the process's stack, if and only if
it has not been interrupted there. -/
theorem enters_user_iff_undisturbed (L : UserStart) {c : Cpu} {disturbed : Bool}
    (h : (starting L).Reach System.Free (c, disturbed)) :
    (disturbed = false → (c.pc.toNat < userBase ∧ AtEl1 c.pstate) ∨ Entered L c) ∧
      ∀ c', c.pc = L.line 3 → L.step c .next = some c' → (Entered L c' ↔ disturbed = false) := by
  rcases onItsWay_of_reach h with ⟨rfl, hbefore | hentered⟩ | ⟨rfl, hdisturbed⟩
  · refine ⟨fun _ ↦ .inl hbefore.low, fun c' hpc hs ↦ ⟨fun _ ↦ rfl, fun _ ↦ ?_⟩⟩
    obtain rfl := Option.some.inj ((UserStart.next_eret hpc).symm.trans hs)
    exact hbefore.eret hpc
  · refine ⟨fun _ ↦ .inr hentered, fun c' _ hs ↦ ?_⟩
    rw [hentered.step_none] at hs
    exact absurd hs (by simp)
  · refine ⟨fun hd ↦ absurd hd (by decide), fun c' _ hs ↦ ⟨fun he ↦ ?_, fun hd ↦
      absurd hd (by decide)⟩⟩
    have hel := (hdisturbed.step hs).el1
    rw [he.el0] at hel
    exact absurd hel (by decide)

/-! ### Runs to the `eret` -/

theorem starting_step {L : UserStart} {c c' : Cpu} {d : Bool} {a : StartAct}
    (h : (starting L).Reach System.Free (c, d)) (hs : L.step c a = some c') :
    (starting L).Reach System.Free (c', d || L.disturbs c a) :=
  h.step trivial (Option.map_eq_some_iff.mpr ⟨c', hs, rfl⟩)

/-- A start of the shell: code in RAM, and the operands in `x8`, `x9` and `x10`. -/
def shellStart : UserStart where
  trampoline := 0x4008_0000
  userTask := 0x4009_0000
  asm := 0x400a_0000
  spsrReg := 8
  entryReg := 9
  spReg := 10
  entry := .ofNat 64 userBase
  trampoline_low := by decide
  asm_low := by decide
  userTask_low := by decide
  entry_high := by decide
  apart := by decide
  userTask_apart := by decide

/-- A core with the operands loaded, at EL1 with interrupts unmasked. -/
def shellCpu (pc : BitVec 64) : Cpu where
  x r := if r = 8 then 0 else if r = 9 then .ofNat 64 userBase else userSp
  v _ := 0
  sp := 0x4010_0000
  pc := pc
  pstate := 5
  spEl0 := 0
  elr := 0
  spsr := 0
  mem _ := 0

/-- The shell's task comes to the assembly undisturbed, with interrupts unmasked. -/
theorem shell_atLine_zero :
    (starting shellStart).Reach System.Free (shellCpu (shellStart.line 0), false) := by
  have hinit : (starting shellStart).Reach System.Free
      ({ shellCpu (shellStart.tramp 0) with x := fun _ ↦ shellStart.userTask }, false) :=
    .init ⟨⟨rfl, by decide, rfl⟩, rfl⟩
  exact hinit.run [.next, .next, .next, .rust (shellCpu (shellStart.line 0))] rfl

/-- Undisturbed, the shell enters user mode. -/
theorem shell_enters_user : ∃ c c', (starting shellStart).Reach System.Free (c, false) ∧
    c.pc = shellStart.line 3 ∧ shellStart.step c .next = some c' ∧ Entered shellStart c' := by
  have hreach : (starting shellStart).Reach System.Free
      ({ shellCpu (shellStart.line 3) with elr := shellStart.entry, spEl0 := userSp }, false) :=
    shell_atLine_zero.run [.next, .next, .next] rfl
  exact ⟨_, _, hreach, rfl, rfl,
    ((enters_user_iff_undisturbed shellStart hreach).2 _ rfl rfl).mpr rfl⟩

/-- An interrupt whose handler does nothing. -/
theorem UserStart.step_irq {L : UserStart} {c : Cpu} (hmask : c.masked = false)
    (hel : AtEl1 c.pstate) : L.step c (.irq (UserStart.called c)) = some
      { UserStart.called c with
        x := c.x, sp := c.sp, pc := c.pc, pstate := c.pstate, elr := c.pc, spsr := c.pstate
        spEl0 := c.spEl0 } := by
  have hhandles : UserStart.Handles c (UserStart.called c) := ⟨rfl, fun _ _ ↦ rfl⟩
  rw [UserStart.step, if_pos ⟨hmask, hel, hhandles⟩, UserStart.restored_of_handles hhandles]

/-- **Interrupted after the first `msr`, a task goes to the user's entry point at EL1; interrupted
before the `eret`, it returns to that `eret`.**  The first has the process's page fetched from at
the kernel's level, which the descriptor forbids (PXN): what comes of that is not part of this
model. -/
theorem interrupted_enter_user_fails :
    (∃ c c', (starting shellStart).Reach System.Free (c, true) ∧ c.pc = shellStart.line 3 ∧
      shellStart.step c .next = some c' ∧ c'.pc = shellStart.entry ∧ AtEl1 c'.pstate) ∧
    ∃ c c', (starting shellStart).Reach System.Free (c, true) ∧ c.pc = shellStart.line 3 ∧
      shellStart.step c .next = some c' ∧ c'.pc = c.pc ∧ AtEl1 c'.pstate := by
  constructor
  · have hreach : (starting shellStart).Reach System.Free (shellCpu (shellStart.line 1), false) :=
      shell_atLine_zero.run [.next] rfl
    have hirq := starting_step hreach (UserStart.step_irq rfl (by decide))
    exact ⟨_, _, hirq.run [.next, .next] rfl, rfl, rfl, rfl, by decide⟩
  · have hreach : (starting shellStart).Reach System.Free
        ({ shellCpu (shellStart.line 3) with elr := shellStart.entry, spEl0 := userSp }, false) :=
      shell_atLine_zero.run [.next, .next, .next] rfl
    have hirq := starting_step hreach (UserStart.step_irq rfl (by decide))
    exact ⟨_, _, hirq, rfl, rfl, rfl, by decide⟩

end Jatuli

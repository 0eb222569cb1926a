import Mathlib.Algebra.GroupWithZero.Nat
import Mathlib.Data.List.Nodup
import Mathlib.Logic.Function.Basic
import Mathlib.Tactic.Common

/-!
# A fragment of AArch64

The registers of one core and the instructions that an exception vector and a context switch are
made of: pairs of registers stored to and loaded from the stack, moves, and the system registers of
exception return.  Memory is seen as the 64-bit words at aligned addresses; the fragment only makes
whole aligned accesses.

The point of the library is `run_stores` and `run_loads`: a block of stores (of loads) does to the
memory (to the registers) what its table of offsets and registers says, so that what a long save
and restore sequence does is a question of membership in two finite tables.
-/

set_option autoImplicit false

namespace Aarch64

instance neZeroRegisters : NeZero 31 := ⟨Nat.succ_ne_zero _⟩

/-- The system registers an exception return goes by. -/
inductive SysReg
  | elr
  | spsr
  | spEl0
deriving DecidableEq, Repr

/-- A core and the memory it sees. -/
structure Cpu where
  /-- `x0` to `x30`. -/
  x : Fin 31 → BitVec 64
  /-- `v0` to `v31`. -/
  v : Fin 32 → BitVec 128
  /-- The stack pointer of EL1. -/
  sp : BitVec 64
  pc : BitVec 64
  /-- Exception level, interrupt masks and flags, laid out as in `SPSR_EL1`. -/
  pstate : BitVec 64
  /-- `SP_EL0` -/
  spEl0 : BitVec 64
  /-- `ELR_EL1` -/
  elr : BitVec 64
  /-- `SPSR_EL1` -/
  spsr : BitVec 64
  mem : BitVec 64 → BitVec 64

/-- The instructions.  Offsets are in bytes from the stack pointer. -/
inductive Instr
  /-- `stp a, b, [sp, #off]` -/
  | stp (a b : Fin 31) (off : Nat)
  /-- `str a, [sp, #off]` -/
  | str (a : Fin 31) (off : Nat)
  /-- `ldp a, b, [sp, #off]` -/
  | ldp (a b : Fin 31) (off : Nat)
  /-- `ldr a, [sp, #off]` -/
  | ldr (a : Fin 31) (off : Nat)
  /-- `stp a, b, [sp, #-16]!` -/
  | stpPre (a b : Fin 31)
  /-- `ldp a, b, [sp], #16` -/
  | ldpPost (a b : Fin 31)
  /-- `str a, [n]` -/
  | strAt (a n : Fin 31)
  /-- `mov d, #imm` -/
  | movImm (d : Fin 31) (imm : Nat)
  /-- `mov d, n` -/
  | mov (d n : Fin 31)
  /-- `mov d, sp` -/
  | movOfSp (d : Fin 31)
  /-- `mov sp, n` -/
  | movSp (n : Fin 31)
  /-- `sub sp, sp, #imm` -/
  | subSp (imm : Nat)
  /-- `add sp, sp, #imm` -/
  | addSp (imm : Nat)
  /-- `mrs d, r` -/
  | mrs (d : Fin 31) (r : SysReg)
  /-- `msr r, n` -/
  | msr (r : SysReg) (n : Fin 31)
  /-- `msr daifclr, #2` -/
  | unmaskIrq
deriving DecidableEq, Repr

namespace Cpu

/-- The interrupt mask bit of the processor state. -/
def irqBit : BitVec 64 := 0x80

/-- Whether interrupts are masked. -/
def masked (c : Cpu) : Bool := c.pstate &&& irqBit ≠ 0

/-- Whether the core is at EL0. -/
def atEl0 (c : Cpu) : Bool := c.pstate &&& 0xf = 0

def setX (c : Cpu) (d : Fin 31) (w : BitVec 64) : Cpu := { c with x := Function.update c.x d w }

/-- Store the word of a register at an offset from the stack pointer. -/
def push (c : Cpu) (a : Fin 31) (off : Nat) : Cpu :=
  { c with mem := Function.update c.mem (c.sp + .ofNat 64 off) (c.x a) }

/-- Load a register from an offset from the stack pointer. -/
def pull (c : Cpu) (a : Fin 31) (off : Nat) : Cpu := c.setX a (c.mem (c.sp + .ofNat 64 off))

def sysReg (c : Cpu) : SysReg → BitVec 64
  | .elr => c.elr
  | .spsr => c.spsr
  | .spEl0 => c.spEl0

def setSysReg (c : Cpu) (r : SysReg) (w : BitVec 64) : Cpu :=
  match r with
  | .elr => { c with elr := w }
  | .spsr => { c with spsr := w }
  | .spEl0 => { c with spEl0 := w }

/-- What an instruction does, the program counter apart. -/
def step (c : Cpu) : Instr → Cpu
  | .stp a b off => (c.push a off).push b (off + 8)
  | .str a off => c.push a off
  | .ldp a b off => (c.pull a off).pull b (off + 8)
  | .ldr a off => c.pull a off
  | .stpPre a b => ({ c with sp := c.sp - 16 }.push a 0).push b 8
  | .ldpPost a b =>
    let c := (c.pull a 0).pull b 8
    { c with sp := c.sp + 16 }
  | .strAt a n => { c with mem := Function.update c.mem (c.x n) (c.x a) }
  | .movImm d imm => c.setX d (.ofNat 64 imm)
  | .mov d n => c.setX d (c.x n)
  | .movOfSp d => c.setX d c.sp
  | .movSp n => { c with sp := c.x n }
  | .subSp imm => { c with sp := c.sp - .ofNat 64 imm }
  | .addSp imm => { c with sp := c.sp + .ofNat 64 imm }
  | .mrs d r => c.setX d (c.sysReg r)
  | .msr r n => c.setSysReg r (c.x n)
  | .unmaskIrq => { c with pstate := c.pstate &&& ~~~irqBit }

/-- A straight piece of code. -/
def run (c : Cpu) (is : List Instr) : Cpu := is.foldl step c

/-- `ret` -/
def ret (c : Cpu) : Cpu := { c with pc := c.x 30 }

/-- `eret`: the two registers keep the values it used. -/
def eret (c : Cpu) : Cpu := { c with pc := c.elr, pstate := c.spsr }

/-- Taking an exception to EL1 with its preferred return address: the processor state goes to
`SPSR_EL1` and becomes EL1 on its own stack pointer, with all interrupts masked. -/
def takeException (c : Cpu) (returnTo vector : BitVec 64) : Cpu :=
  { c with
    elr := returnTo
    spsr := c.pstate
    pstate := (c.pstate &&& 0xf0000000) ||| 0x3c5
    pc := vector }

theorem run_nil (c : Cpu) : c.run [] = c := rfl

theorem run_cons (c : Cpu) (i : Instr) (is : List Instr) : c.run (i :: is) = (c.step i).run is :=
  rfl

theorem run_append (c : Cpu) (is js : List Instr) : c.run (is ++ js) = (c.run is).run js :=
  List.foldl_append ..

end Cpu

/-! ## Tables of offsets and registers -/

/-- The offsets an access uses and the registers it uses them for. -/
def Instr.slots : Instr → List (Nat × Fin 31)
  | .stp a b off => [(off, a), (off + 8, b)]
  | .str a off => [(off, a)]
  | .ldp a b off => [(off, a), (off + 8, b)]
  | .ldr a off => [(off, a)]
  | _ => []

/-- Stores at fixed offsets. -/
def Instr.isStore : Instr → Bool
  | .stp .. => true
  | .str .. => true
  | _ => false

/-- Loads at fixed offsets. -/
def Instr.isLoad : Instr → Bool
  | .ldp .. => true
  | .ldr .. => true
  | _ => false

/-- Store registers by a table. -/
def storeAll (x : Fin 31 → BitVec 64) (sp : BitVec 64) (t : List (Nat × Fin 31))
    (m : BitVec 64 → BitVec 64) : BitVec 64 → BitVec 64 :=
  t.foldl (fun m e ↦ Function.update m (sp + .ofNat 64 e.1) (x e.2)) m

/-- Load registers by a table. -/
def loadAll (m : BitVec 64 → BitVec 64) (sp : BitVec 64) (t : List (Nat × Fin 31))
    (x : Fin 31 → BitVec 64) : Fin 31 → BitVec 64 :=
  t.foldl (fun x e ↦ Function.update x e.2 (m (sp + .ofNat 64 e.1))) x

section Tables

variable {x : Fin 31 → BitVec 64} {sp : BitVec 64} {m : BitVec 64 → BitVec 64}
  {t : List (Nat × Fin 31)}

/-- Words the table does not name stay. -/
theorem storeAll_of_ne {a : BitVec 64} (h : ∀ e ∈ t, a ≠ sp + .ofNat 64 e.1) :
    storeAll x sp t m a = m a := by
  induction t generalizing m with
  | nil => rfl
  | cons e t ih =>
    rw [storeAll, List.foldl_cons]
    refine (ih fun e' he' ↦ h e' (List.mem_cons_of_mem _ he')).trans ?_
    exact Function.update_of_ne (h e List.mem_cons_self) _ _

/-- Different offsets are different words. -/
theorem offset_ne {o o' : Nat} (h : o ≠ o') (ho : o < 2 ^ 64) (ho' : o' < 2 ^ 64) :
    sp + .ofNat 64 o ≠ sp + .ofNat 64 o' := by
  intro he
  have hnat := congrArg BitVec.toNat (BitVec.add_right_inj sp |>.mp he)
  rw [BitVec.toNat_ofNat, BitVec.toNat_ofNat, Nat.mod_eq_of_lt ho, Nat.mod_eq_of_lt ho'] at hnat
  exact h hnat

/-- Offsets the table does not name stay. -/
theorem storeAll_of_offset_ne {o : Nat} (ho : o < 2 ^ 64) (hlt : ∀ e ∈ t, e.1 < 2 ^ 64)
    (h : ∀ e ∈ t, o ≠ e.1) : storeAll x sp t m (sp + .ofNat 64 o) = m (sp + .ofNat 64 o) :=
  storeAll_of_ne fun e he ↦ offset_ne (h e he) ho (hlt e he)

/-- Words the table names hold their registers. -/
theorem storeAll_of_mem {o : Nat} {r : Fin 31} (hnd : (t.map Prod.fst).Nodup)
    (hlt : ∀ e ∈ t, e.1 < 2 ^ 64) (hmem : (o, r) ∈ t) :
    storeAll x sp t m (sp + .ofNat 64 o) = x r := by
  induction t generalizing m with
  | nil => cases hmem
  | cons e t ih =>
    rw [List.map_cons, List.nodup_cons] at hnd
    have hltt : ∀ e' ∈ t, e'.1 < 2 ^ 64 := fun e' he' ↦ hlt e' (List.mem_cons_of_mem _ he')
    rw [storeAll, List.foldl_cons]
    rcases List.mem_cons.mp hmem with rfl | hmem
    · refine (storeAll_of_ne fun e' he' ↦ ?_).trans (Function.update_self ..)
      refine offset_ne (fun heq ↦ hnd.1 ?_) (hlt _ List.mem_cons_self) (hltt e' he')
      exact List.mem_map.mpr ⟨e', he', heq.symm⟩
    · exact ih hnd.2 hltt hmem

/-- Registers the table does not name stay. -/
theorem loadAll_of_ne {r : Fin 31} (h : ∀ e ∈ t, r ≠ e.2) : loadAll m sp t x r = x r := by
  induction t generalizing x with
  | nil => rfl
  | cons e t ih =>
    rw [loadAll, List.foldl_cons]
    refine (ih fun e' he' ↦ h e' (List.mem_cons_of_mem _ he')).trans ?_
    exact Function.update_of_ne (h e List.mem_cons_self) _ _

/-- Registers the table names hold their words. -/
theorem loadAll_of_mem {o : Nat} {r : Fin 31} (hnd : (t.map Prod.snd).Nodup) (hmem : (o, r) ∈ t) :
    loadAll m sp t x r = m (sp + .ofNat 64 o) := by
  induction t generalizing x with
  | nil => cases hmem
  | cons e t ih =>
    rw [List.map_cons, List.nodup_cons] at hnd
    rw [loadAll, List.foldl_cons]
    rcases List.mem_cons.mp hmem with rfl | hmem
    · refine (loadAll_of_ne fun e' he' ↦ ?_).trans (Function.update_self ..)
      exact fun heq ↦ hnd.1 (List.mem_map.mpr ⟨e', he', heq.symm⟩)
    · exact ih hnd.2 hmem

end Tables

namespace Cpu

/-- **A block of stores** writes its table. -/
theorem run_stores {is : List Instr} (h : ∀ i ∈ is, i.isStore = true) (c : Cpu) :
    c.run is = { c with mem := storeAll c.x c.sp (is.flatMap Instr.slots) c.mem } := by
  induction is generalizing c with
  | nil => rfl
  | cons i is ih =>
    have hi := h i List.mem_cons_self
    rw [run_cons, ih (fun j hj ↦ h j (List.mem_cons_of_mem _ hj))]
    cases i with
    | stp a b off => rfl
    | str a off => rfl
    | _ => cases hi

/-- **A block of loads** reads its table. -/
theorem run_loads {is : List Instr} (h : ∀ i ∈ is, i.isLoad = true) (c : Cpu) :
    c.run is = { c with x := loadAll c.mem c.sp (is.flatMap Instr.slots) c.x } := by
  induction is generalizing c with
  | nil => rfl
  | cons i is ih =>
    have hi := h i List.mem_cons_self
    rw [run_cons, ih (fun j hj ↦ h j (List.mem_cons_of_mem _ hj))]
    cases i with
    | ldp a b off => rfl
    | ldr a off => rfl
    | _ => cases hi

end Cpu

/-! ## Pairs pushed and popped -/

/-- The table of pairs pushed in this order, from where the stack pointer ends. -/
def pushSlots : List (Fin 31 × Fin 31) → List (Nat × Fin 31)
  | [] => []
  | p :: ps => (16 * ps.length, p.1) :: (16 * ps.length + 8, p.2) :: pushSlots ps

/-- The table of pairs popped in this order, from offset `off` on. -/
def popSlots (off : Nat) : List (Fin 31 × Fin 31) → List (Nat × Fin 31)
  | [] => []
  | p :: ps => (off, p.1) :: (off + 8, p.2) :: popSlots (off + 16) ps

namespace Cpu

/-- Pushing pairs writes their table below the stack. -/
theorem run_stpPre (ps : List (Fin 31 × Fin 31)) (c : Cpu) :
    c.run (ps.map fun p ↦ .stpPre p.1 p.2) =
      { c with
        sp := c.sp - .ofNat 64 (16 * ps.length)
        mem := storeAll c.x (c.sp - .ofNat 64 (16 * ps.length)) (pushSlots ps) c.mem } := by
  induction ps generalizing c with
  | nil => simp [run, storeAll, pushSlots]
  | cons p ps ih =>
    -- the table is relative to where the pointer ends, the stores to where it stands
    have hsp : c.sp - .ofNat 64 (16 * (p :: ps).length) =
        c.sp - 16 - .ofNat 64 (16 * ps.length) := by
      rw [List.length_cons, Nat.mul_add, BitVec.ofNat_add]
      simp only [BitVec.sub_eq_add_neg, BitVec.neg_add, BitVec.add_assoc]
      rw [BitVec.add_comm (-BitVec.ofNat 64 (16 * ps.length))]
      rfl
    have hfirst : c.sp - 16 - .ofNat 64 (16 * ps.length) + .ofNat 64 (16 * ps.length) =
        c.sp - 16 + .ofNat 64 0 := by
      rw [BitVec.sub_add_cancel, BitVec.add_zero]
    have hsecond : c.sp - 16 - .ofNat 64 (16 * ps.length) + .ofNat 64 (16 * ps.length + 8) =
        c.sp - 16 + .ofNat 64 8 := by
      rw [BitVec.ofNat_add, ← BitVec.add_assoc, BitVec.sub_add_cancel]
    rw [List.map_cons, run_cons, ih, hsp]
    simp only [pushSlots, storeAll, List.foldl_cons, hfirst, hsecond]
    rfl

/-- Popping pairs reads their table from the stack. -/
theorem run_ldpPost (ps : List (Fin 31 × Fin 31)) (c : Cpu) (off : Nat) :
    run { c with sp := c.sp + .ofNat 64 off } (ps.map fun p ↦ .ldpPost p.1 p.2) =
      { c with
        sp := c.sp + .ofNat 64 (off + 16 * ps.length)
        x := loadAll c.mem c.sp (popSlots off ps) c.x } := by
  induction ps generalizing c off with
  | nil => rfl
  | cons p ps ih =>
    have hsp : c.sp + .ofNat 64 off + 16 = c.sp + .ofNat 64 (off + 16) := by
      rw [BitVec.ofNat_add, BitVec.add_assoc]
      rfl
    have hsecond : c.sp + .ofNat 64 off + .ofNat 64 8 = c.sp + .ofNat 64 (off + 8) := by
      rw [BitVec.ofNat_add, BitVec.add_assoc]
    have hrest := ih { c with x := Function.update (Function.update c.x p.1
      (c.mem (c.sp + .ofNat 64 off))) p.2 (c.mem (c.sp + .ofNat 64 (off + 8))) } (off + 16)
    rw [List.map_cons, run_cons, List.length_cons,
      show off + 16 * (ps.length + 1) = off + 16 + 16 * ps.length by omega]
    refine Eq.trans ?_ hrest
    simp only [step, pull, setX, hsp, hsecond, BitVec.add_zero]

end Cpu
end Aarch64

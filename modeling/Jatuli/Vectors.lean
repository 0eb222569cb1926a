import Jatuli.Lib.Aarch64

/-!
# The vector stub and the context switch

The two pieces of assembly that save and restore registers: the exception vectors of `exceptions.s`
and `context_switch` of `switch.s`, with the layouts the rest of the kernel relies on (`TrapFrame`,
and the context that `spawn_inner` fabricates for a new task).  One specification for each piece:
what it puts where on the stack, and what it gets back from there.
-/

set_option autoImplicit false

namespace Jatuli

open Aarch64

/-! ## The exception vectors -/

/-- `VENTRY index` -/
def ventry (index : Nat) : List Instr := [.subSp 272, .stp 0 1 0, .movImm 0 index]

/-- `common_exception`, its stores of `x2` … `x30`. -/
def saveRegisters : List Instr :=
  [.stp 2 3 16, .stp 4 5 32, .stp 6 7 48, .stp 8 9 64, .stp 10 11 80, .stp 12 13 96,
    .stp 14 15 112, .stp 16 17 128, .stp 18 19 144, .stp 20 21 160, .stp 22 23 176,
    .stp 24 25 192, .stp 26 27 208, .stp 28 29 224, .str 30 240]

/-- `common_exception`, up to the call of `exception_dispatch`. -/
def commonExceptionSave : List Instr :=
  saveRegisters ++
    [.mrs 1 .elr, .mrs 2 .spsr, .stp 1 2 248, .mrs 3 .spEl0, .str 3 264, .movOfSp 1]

/-- `common_exception`, its loads of `x0` … `x30`. -/
def restoreRegisters : List Instr :=
  [.ldp 0 1 0, .ldp 2 3 16, .ldp 4 5 32, .ldp 6 7 48, .ldp 8 9 64, .ldp 10 11 80, .ldp 12 13 96,
    .ldp 14 15 112, .ldp 16 17 128, .ldp 18 19 144, .ldp 20 21 160, .ldp 22 23 176,
    .ldp 24 25 192, .ldp 26 27 208, .ldp 28 29 224, .ldr 30 240]

/-- `common_exception`, from the return of `exception_dispatch` to the `eret`. -/
def commonExceptionRestore : List Instr :=
  [.ldp 1 2 248, .msr .elr 1, .msr .spsr 2, .ldr 3 264, .msr .spEl0 3] ++
    (restoreRegisters ++ [.addSp 272])

/-- `TrapFrame` -/
@[ext] structure TrapFrame where
  x : Fin 31 → BitVec 64
  elr : BitVec 64
  spsr : BitVec 64
  spEl0 : BitVec 64

/-- Size of a `TrapFrame`. -/
def trapFrameSize : Nat := 272

/-- The frame lies at address `a`, laid out as `#[repr(C)]` has it. -/
structure TrapFrame.At (f : TrapFrame) (m : BitVec 64 → BitVec 64) (a : BitVec 64) : Prop where
  x : ∀ i : Fin 31, m (a + .ofNat 64 (8 * i)) = f.x i
  elr : m (a + .ofNat 64 248) = f.elr
  spsr : m (a + .ofNat 64 256) = f.spsr
  spEl0 : m (a + .ofNat 64 264) = f.spEl0

theorem TrapFrame.At.congr {f : TrapFrame} {m m' : BitVec 64 → BitVec 64} {a : BitVec 64}
    (h : f.At m a) (hm : ∀ j < 34, m' (a + .ofNat 64 (8 * j)) = m (a + .ofNat 64 (8 * j))) :
    f.At m' a where
  x i := (hm i (by omega)).trans (h.x i)
  elr := (hm 31 (by decide)).trans h.elr
  spsr := (hm 32 (by decide)).trans h.spsr
  spEl0 := (hm 33 (by decide)).trans h.spEl0

/-- The frame of what the stub finds in the registers. -/
def TrapFrame.of (c : Cpu) : TrapFrame := ⟨c.x, c.elr, c.spsr, c.spEl0⟩

/-- The table of `saveRegisters`. -/
def saveTable : List (Nat × Fin 31) := saveRegisters.flatMap Instr.slots

/-- The table of `restoreRegisters`. -/
def restoreTable : List (Nat × Fin 31) := restoreRegisters.flatMap Instr.slots

theorem mem_saveTable (i : Fin 31) (h : 2 ≤ i) : (8 * (i : Nat), i) ∈ saveTable := by
  revert i
  decide

theorem mem_restoreTable (i : Fin 31) : (8 * (i : Nat), i) ∈ restoreTable := by
  revert i
  decide

section Save

variable (c : Cpu) (index : Nat)

/-- The stub, from the vector to the call of `exception_dispatch`. -/
def saved : Cpu := c.run (ventry index ++ commonExceptionSave)

/-- The memory after the stub, by the tables it stores; `a` is where the frame lies. -/
def savedMem (a : BitVec 64) : BitVec 64 → BitVec 64 :=
  let x₁ := Function.update c.x 0 (.ofNat 64 index)
  let x₂ := Function.update (Function.update x₁ 1 c.elr) 2 c.spsr
  let x₃ := Function.update x₂ 3 c.spEl0
  storeAll x₃ a [(264, 3)] (storeAll x₂ a [(248, 1), (256, 2)] (storeAll x₁ a saveTable
    (storeAll c.x a [(0, 0), (8, 1)] c.mem)))

/-- What the stub leaves, the scratch registers apart. -/
theorem saved_eq : ∃ x, saved c index = { c with
    x
    sp := c.sp - .ofNat 64 trapFrameSize
    mem := savedMem c index (c.sp - .ofNat 64 trapFrameSize) } := by
  have hrest (c : Cpu) : c.run saveRegisters =
      { c with mem := storeAll c.x c.sp saveTable c.mem } := Cpu.run_stores (by decide) c
  simp only [saved, ventry, commonExceptionSave, Cpu.run_append, hrest, Cpu.run_cons,
    Cpu.run_nil, Cpu.step, Cpu.push, Cpu.setX, Cpu.sysReg]
  exact ⟨_, rfl⟩

theorem saved_sp : (saved c index).sp = c.sp - .ofNat 64 trapFrameSize := by
  obtain ⟨x, hx⟩ := saved_eq c index
  rw [hx]

theorem saved_v : (saved c index).v = c.v := by
  obtain ⟨x, hx⟩ := saved_eq c index
  rw [hx]

/-- The stub lays the frame down. -/
theorem savedMem_frame (a : BitVec 64) : (TrapFrame.of c).At (savedMem c index a) a := by
  have hlt : ∀ e ∈ saveTable, e.1 < 2 ^ 64 := by decide
  have hx (i : Fin 31) : 8 * (i : Nat) < 2 ^ 64 := by omega
  refine ⟨fun i ↦ ?_, ?_, ?_, ?_⟩
  · have h264 : ∀ e ∈ [((264 : Nat), (3 : Fin 31))], 8 * (i : Nat) ≠ e.1 := by revert i; decide
    have h248 : ∀ e ∈ [((248 : Nat), (1 : Fin 31)), (256, 2)], 8 * (i : Nat) ≠ e.1 := by
      revert i; decide
    rw [savedMem, storeAll_of_offset_ne (hx i) (by decide) h264,
      storeAll_of_offset_ne (hx i) (by decide) h248]
    rcases Nat.lt_or_ge i 2 with hi | hi
    · have hrest : ∀ e ∈ saveTable, 8 * (i : Nat) ≠ e.1 := by revert i; decide
      have hmem : (8 * (i : Nat), i) ∈ [((0 : Nat), (0 : Fin 31)), (8, 1)] := by
        clear h264 h248 hrest
        revert i
        decide
      rw [storeAll_of_offset_ne (hx i) hlt hrest, storeAll_of_mem (by decide) (by decide) hmem]
      rfl
    · rw [storeAll_of_mem (by decide) hlt (mem_saveTable i hi), Function.update_of_ne]
      · rfl
      · rintro rfl
        exact absurd hi (by decide)
  · rw [savedMem, storeAll_of_offset_ne (by decide) (by decide) (by decide),
      storeAll_of_mem (r := 1) (by decide) (by decide) (by decide)]
    rfl
  · rw [savedMem, storeAll_of_offset_ne (by decide) (by decide) (by decide),
      storeAll_of_mem (r := 2) (by decide) (by decide) (by decide)]
    rfl
  · rw [savedMem, storeAll_of_mem (r := 3) (by decide) (by decide) (by decide)]
    rfl

/-- The stub writes nothing but the frame. -/
theorem savedMem_of_ne {a b : BitVec 64} (h : ∀ j < 34, b ≠ a + .ofNat 64 (8 * j)) :
    savedMem c index a b = c.mem b := by
  have htable {t : List (Nat × Fin 31)} (ht : ∀ e ∈ t, ∃ j < 34, e.1 = 8 * j) :
      ∀ e ∈ t, b ≠ a + .ofNat 64 e.1 := by
    intro e he
    obtain ⟨j, hj, hej⟩ := ht e he
    rw [hej]
    exact h j hj
  rw [savedMem, storeAll_of_ne (htable (by decide)), storeAll_of_ne (htable (by decide)),
    storeAll_of_ne (htable (by decide)), storeAll_of_ne (htable (by decide))]

end Save

/-- The stub, from the return of `exception_dispatch` to the `eret`. -/
def restored (c : Cpu) : Cpu := (c.run commonExceptionRestore).eret

/-- **What a trap frame gives back**: all registers, the stack pointer and where to go. -/
theorem restored_eq {c : Cpu} {f : TrapFrame} (h : f.At c.mem c.sp) :
    restored c = { c with
      x := f.x
      sp := c.sp + .ofNat 64 trapFrameSize
      pc := f.elr
      pstate := f.spsr
      elr := f.elr
      spsr := f.spsr
      spEl0 := f.spEl0 } := by
  have hloads (c : Cpu) : c.run restoreRegisters =
      { c with x := loadAll c.mem c.sp restoreTable c.x } := Cpu.run_loads (by decide) c
  have hregs (x : Fin 31 → BitVec 64) : loadAll c.mem c.sp restoreTable x = f.x := by
    funext i
    rw [loadAll_of_mem (by decide) (mem_restoreTable i), h.x]
  simp only [restored, commonExceptionRestore, Cpu.run_append, Cpu.run_cons, Cpu.run_nil, hloads,
    Cpu.step, Cpu.pull, Cpu.setX, Cpu.setSysReg, Cpu.eret, hregs, Function.update_self, h.spEl0]
  have helr : Function.update (Function.update c.x 1 (c.mem (c.sp + .ofNat 64 248))) 2
      (c.mem (c.sp + .ofNat 64 (248 + 8))) 1 = f.elr := h.elr
  have hspsr : c.mem (c.sp + .ofNat 64 (248 + 8)) = f.spsr := h.spsr
  rw [helr, hspsr]
  rfl

/-! ## The context switch -/

/-- The pairs `context_switch` saves, in this order. -/
def contextPairs : List (Fin 31 × Fin 31) :=
  [(19, 20), (21, 22), (23, 24), (25, 26), (27, 28), (29, 30)]

/-- `context_switch`, up to the `ret`: `x0` points to where the stack pointer goes, `x1` is the next
one. -/
def contextSwitch : List Instr :=
  contextPairs.map (fun p ↦ .stpPre p.1 p.2) ++
    ([.movOfSp 9, .strAt 9 0, .movSp 1] ++ contextPairs.reverse.map fun p ↦ .ldpPost p.1 p.2)

/-- Size of the context on the stack: `CONTEXT_REGS * 8`. -/
def contextSize : Nat := 12 * 8

/-- Where the context has which register. -/
def contextTable : List (Nat × Fin 31) := popSlots 0 contextPairs.reverse

/-- The registers `x19` … `x30` of `x` lie at address `a` as a context. -/
def ContextAt (x : Fin 31 → BitVec 64) (m : BitVec 64 → BitVec 64) (a : BitVec 64) : Prop :=
  ∀ e ∈ contextTable, m (a + .ofNat 64 e.1) = x e.2

theorem mem_contextTable (r : Fin 31) (h : 19 ≤ r) : ∃ e ∈ contextTable, e.2 = r := by
  revert r
  decide

theorem ContextAt.congr {x : Fin 31 → BitVec 64} {m m' : BitVec 64 → BitVec 64} {a : BitVec 64}
    (h : ContextAt x m a) (hm : ∀ j < 12, m' (a + .ofNat 64 (8 * j)) = m (a + .ofNat 64 (8 * j))) :
    ContextAt x m' a := by
  intro e he
  have htable : ∀ e ∈ contextTable, ∃ j < 12, e.1 = 8 * j := by decide
  obtain ⟨j, hj, hej⟩ := htable e he
  rw [← h e he, hej]
  exact hm j hj

/-- `context_switch` -/
def switched (c : Cpu) : Cpu := (c.run contextSwitch).ret

/-- The memory after `context_switch`. -/
def switchedMem (c : Cpu) : BitVec 64 → BitVec 64 :=
  Function.update (storeAll c.x (c.sp - .ofNat 64 contextSize) (pushSlots contextPairs) c.mem)
    (c.x 0) (c.sp - .ofNat 64 contextSize)

/-- The registers after `context_switch`. -/
def switchedX (c : Cpu) : Fin 31 → BitVec 64 :=
  loadAll (switchedMem c) (c.x 1) contextTable
    (Function.update c.x 9 (c.sp - .ofNat 64 contextSize))

/-- What `context_switch` does: it saves a context below the stack pointer, records where, and
takes up the one at `x1`. -/
theorem switched_eq (c : Cpu) : switched c = { c with
    x := switchedX c
    sp := c.x 1 + .ofNat 64 contextSize
    mem := switchedMem c
    pc := switchedX c 30 } := by
  have hpop (c : Cpu) : c.run (contextPairs.reverse.map fun p ↦ .ldpPost p.1 p.2) =
      { c with sp := c.sp + .ofNat 64 contextSize, x := loadAll c.mem c.sp contextTable c.x } := by
    have h := Cpu.run_ldpPost contextPairs.reverse c 0
    rwa [show c.sp + BitVec.ofNat 64 0 = c.sp from BitVec.add_zero _] at h
  simp only [switched, contextSwitch, Cpu.run_append, Cpu.run_stpPre, hpop, Cpu.run_cons,
    Cpu.run_nil, Cpu.step, Cpu.setX, Cpu.ret]
  rfl

theorem switched_v (c : Cpu) : (switched c).v = c.v := by rw [switched_eq]

/-- The context `context_switch` saves. -/
theorem storeAll_context (x : Fin 31 → BitVec 64) (m : BitVec 64 → BitVec 64) (a : BitVec 64) :
    ContextAt x (storeAll x a (pushSlots contextPairs) m) a := by
  intro e he
  have hmem : ∀ e ∈ contextTable, e ∈ pushSlots contextPairs := by decide
  exact storeAll_of_mem (by decide) (by decide) (hmem e he)

/-- It saves its own context, and where that is. -/
theorem switchedMem_context {c : Cpu}
    (h : ∀ j < 12, c.sp - .ofNat 64 contextSize + .ofNat 64 (8 * j) ≠ c.x 0) :
    ContextAt c.x (switchedMem c) (c.sp - .ofNat 64 contextSize) := by
  intro e he
  have htable : ∀ e ∈ contextTable, ∃ j < 12, e.1 = 8 * j := by decide
  obtain ⟨j, hj, hej⟩ := htable e he
  rw [switchedMem, Function.update_of_ne (by rw [hej]; exact h j hj)]
  exact storeAll_context _ _ _ e he

theorem switchedMem_ptr (c : Cpu) : switchedMem c (c.x 0) = c.sp - .ofNat 64 contextSize := by
  rw [switchedMem, Function.update_self]

/-- It writes nothing but the context and the word at `x0`. -/
theorem switchedMem_of_ne {c : Cpu} {b : BitVec 64} (hptr : b ≠ c.x 0)
    (h : ∀ j < 12, b ≠ c.sp - .ofNat 64 contextSize + .ofNat 64 (8 * j)) :
    switchedMem c b = c.mem b := by
  have htable : ∀ e ∈ pushSlots contextPairs, ∃ j < 12, e.1 = 8 * j := by decide
  rw [switchedMem, Function.update_of_ne hptr]
  refine storeAll_of_ne fun e he ↦ ?_
  obtain ⟨j, hj, hej⟩ := htable e he
  rw [hej]
  exact h j hj

/-- The registers it takes up. -/
theorem switchedX_of_context {c : Cpu} {x : Fin 31 → BitVec 64}
    (h : ContextAt x (switchedMem c) (c.x 1)) {r : Fin 31} (hr : 19 ≤ r) : switchedX c r = x r := by
  obtain ⟨e, he, rfl⟩ := mem_contextTable r hr
  rw [switchedX, loadAll_of_mem (by decide) he]
  exact h e he

/-! ## The context of a new task -/

/-- What `spawn_inner` writes at the top of the new stack: twelve zeros, then `x30`, `x19` and
`x20`. -/
def fabricate (m : BitVec 64 → BitVec 64) (ctx trampoline entry arg : BitVec 64) :
    BitVec 64 → BitVec 64 :=
  let m := (List.range 12).foldl (fun m i ↦ Function.update m (ctx + .ofNat 64 (8 * i)) 0) m
  let m := Function.update m (ctx + .ofNat 64 (8 * 1)) trampoline
  let m := Function.update m (ctx + .ofNat 64 (8 * 10)) entry
  Function.update m (ctx + .ofNat 64 (8 * 11)) arg

/-- The registers a new task starts with. -/
def freshX (trampoline entry arg : BitVec 64) (r : Fin 31) : BitVec 64 :=
  if r = 20 then arg else if r = 19 then entry else if r = 30 then trampoline else 0

section Fabricate

variable (m : BitVec 64 → BitVec 64) (ctx trampoline entry arg : BitVec 64)

/-- The loop of zeros as a table. -/
theorem fabricate_zeros :
    (List.range 12).foldl (fun m i ↦ Function.update m (ctx + .ofNat 64 (8 * i)) 0) m =
      storeAll (fun _ ↦ 0) ctx ((List.range 12).map fun i ↦ (8 * i, 0)) m := by
  rw [storeAll, List.foldl_map]

/-- It is the context of a call from `task_trampoline` on. -/
theorem fabricate_context :
    ContextAt (freshX trampoline entry arg) (fabricate m ctx trampoline entry arg) ctx := by
  intro e he
  have hword : ∀ e ∈ contextTable, (e.1, (0 : Fin 31)) ∈
      (List.range 12).map fun i ↦ (8 * i, 0) := by
    decide
  have hlt : ∀ e ∈ contextTable, e.1 < 2 ^ 64 := by decide
  have hreg : ∀ e ∈ contextTable, (e.1 = 8 * 11 ↔ e.2 = 20) ∧ (e.1 = 8 * 10 ↔ e.2 = 19) ∧
      (e.1 = 8 * 1 ↔ e.2 = 30) := by decide
  obtain ⟨h20, h19, h30⟩ := hreg e he
  have hat {o : Nat} (ho : o < 2 ^ 64) {f : BitVec 64 → BitVec 64} {w : BitVec 64} :
      Function.update f (ctx + .ofNat 64 o) w (ctx + .ofNat 64 e.1) =
        if e.1 = o then w else f (ctx + .ofNat 64 e.1) := by
    by_cases heq : e.1 = o
    · rw [if_pos heq, heq, Function.update_self]
    · rw [if_neg heq, Function.update_of_ne (offset_ne heq (hlt e he) ho)]
  rw [fabricate, hat (by decide), hat (by decide), hat (by decide), fabricate_zeros,
    storeAll_of_mem (by decide) (by decide) (hword e he), freshX]
  simp only [h20, h19, h30]

/-- It writes nothing but that context. -/
theorem fabricate_of_ne {b : BitVec 64} (h : ∀ j < 12, b ≠ ctx + .ofNat 64 (8 * j)) :
    fabricate m ctx trampoline entry arg b = m b := by
  rw [fabricate, Function.update_of_ne (h 11 (by decide)), Function.update_of_ne (h 10 (by decide)),
    Function.update_of_ne (h 1 (by decide)), fabricate_zeros]
  refine storeAll_of_ne fun e he ↦ ?_
  obtain ⟨j, hj, rfl⟩ := List.mem_map.mp he
  exact h j (List.mem_range.mp hj)

end Fabricate

-- From here on these are what the lemmas say of them; comparing two of them must not run the code.
attribute [irreducible] saved savedMem restored switched switchedMem switchedX

end Jatuli

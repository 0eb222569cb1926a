import Jatuli.Vectors
import Mathlib.Logic.Relation

/-!
# Many tasks on one core

Any number of tasks, each with a kernel stack of its own, and one core that is interrupted, traps
into the kernel and is passed from task to task by `context_switch`.  What the saving and restoring
code does is executed instruction by instruction (`Jatuli.Vectors`); everything else that runs
(user code, and the Rust code between the stub and the switch) may do as it likes with the
registers and with memory, as long as it stays within the stack of its task: it leaves alone what
lies above the frame it was called on, and the stacks of the other tasks.

Each task carries a record of its past: what the registers were at every interruption it has not
returned from, and at the call of `context_switch` it is in, if it is not the running task.  The
invariant says that the stacks hold what the records say; the results say that this is what a task
gets back.
-/

set_option autoImplicit false

namespace Jatuli

open Aarch64

/-! ## The records -/

/-- What interrupted a task. -/
inductive TrapKind
  | irq
  /-- A system call, with what it has returned so far. -/
  | svc (result : Option (BitVec 64))

/-- The registers at an interruption; `pc` is the return address. -/
structure Trap where
  x : Fin 31 → BitVec 64
  v : Fin 32 → BitVec 128
  sp : BitVec 64
  spEl0 : BitVec 64
  pc : BitVec 64
  pstate : BitVec 64
  kind : TrapKind

/-- Where its frame lies. -/
def Trap.base (t : Trap) : BitVec 64 := t.sp - .ofNat 64 trapFrameSize

/-- What its frame holds. -/
def Trap.frame (t : Trap) : TrapFrame where
  x := match t.kind with
    | .svc (some r) => Function.update t.x 0 r
    | _ => t.x
  elr := t.pc
  spsr := t.pstate
  spEl0 := t.spEl0

/-- The result of a system call goes to `x0`. -/
theorem Trap.frame_x {t : Trap} {i : Fin 31} (h : i ≠ 0) : t.frame.x i = t.x i := by
  rw [Trap.frame]
  split
  · exact Function.update_of_ne h _ _
  · rfl

/-- How a task that does not run came to wait for the core. -/
inductive Waiting
  /-- It called `context_switch` with these registers. -/
  | called (x : Fin 31 → BitVec 64) (sp : BitVec 64)
  /-- It was spawned to run `entry(arg)` and has not run yet. -/
  | fresh (entry arg : BitVec 64)

/-- A task: its stack, the interruptions it has not returned from, the latest first, and how it
waits, if it is not the running task. -/
structure TaskCtx where
  base : Nat
  limit : Nat
  traps : List Trap
  waiting : Option Waiting

/-- The lowest address in use for the interruptions of a stack that ends at `limit`. -/
def floorOf (limit : Nat) : List Trap → Nat
  | [] => limit
  | t :: _ => t.base.toNat

/-- Down to where the stack of a task is in use, except by the code that runs on it now. -/
def TaskCtx.floor (t : TaskCtx) : Nat := floorOf t.limit t.traps

/-- An address of the task's stack. -/
def TaskCtx.Inside (t : TaskCtx) (a : BitVec 64) : Prop := t.base ≤ a.toNat ∧ a.toNat < t.limit

/-- The core, the tasks and where the scheduler keeps the stack pointers of waiting tasks. -/
structure World where
  cpu : Cpu
  tasks : List TaskCtx
  current : Nat
  /-- Address of `tasks[i].sp`. -/
  spAddr : Nat → BitVec 64

namespace World

/-- The words that the code of the running task leaves alone. -/
def Protected (w : World) (a : BitVec 64) : Prop :=
  ∃ i t, w.tasks[i]? = some t ∧ t.Inside a ∧ (i = w.current → t.floor ≤ a.toNat)

/-- `spAddr` is a possible place for the scheduler's table: outside the stacks, and one word for
each task. -/
structure Table (tasks : List TaskCtx) (spAddr : Nat → BitVec 64) : Prop where
  outside : ∀ i < tasks.length, ∀ t ∈ tasks, ¬ t.Inside (spAddr i)
  inj : ∀ i < tasks.length, ∀ j < tasks.length, spAddr i = spAddr j → i = j

/-- Stacks do not overlap. -/
def Apart (tasks : List TaskCtx) : Prop :=
  ∀ (i j : Nat) (t u : TaskCtx), tasks[i]? = some t → tasks[j]? = some u → i ≠ j →
    t.limit ≤ u.base ∨ u.limit ≤ t.base

/-- What the code of the running task may do, at EL0 or in the kernel: the table may move, but only
`context_switch` changes the entry of a waiting task. -/
structure Runs (w : World) (t : TaskCtx) (cpu : Cpu) (spAddr : Nat → BitVec 64) : Prop where
  mem : ∀ a, w.Protected a → cpu.mem a = w.cpu.mem a
  base_le : t.base ≤ cpu.sp.toNat
  le_floor : cpu.sp.toNat ≤ t.floor
  aligned : cpu.sp.toNat % 16 = 0
  entries : ∀ i < w.tasks.length, i ≠ w.current → cpu.mem (spAddr i) = w.cpu.mem (w.spAddr i)
  table : Table w.tasks spAddr

/-- The registers at an interruption of the running task. -/
def trap (w : World) (returnTo : BitVec 64) (kind : TrapKind) : Trap :=
  ⟨w.cpu.x, w.cpu.v, w.cpu.sp, w.cpu.spEl0, returnTo, w.cpu.pstate, kind⟩

/-- An exception, up to the call of `exception_dispatch`. -/
def enter (w : World) (t : TaskCtx) (returnTo vector : BitVec 64) (index : Nat)
    (kind : TrapKind) : World :=
  { w with
    cpu := saved (w.cpu.takeException returnTo vector) index
    tasks := w.tasks.set w.current { t with traps := w.trap returnTo kind :: t.traps } }

/-- `STACK_SIZE` -/
def stackSize : Nat := 16 * 1024

/-- The top of a new stack: `(base + STACK_SIZE) & !0xF`. -/
def stackTop (base : Nat) : Nat := (base + stackSize) / 16 * 16

/-- `spawn_inner`: fabricate a context at the top of the new stack and push the task, whose entry
of the table is at `addr`. -/
def spawned (w : World) (trampoline : BitVec 64) (base : Nat) (entry arg addr : BitVec 64) :
    World :=
  let ctx : BitVec 64 := .ofNat 64 (stackTop base - contextSize)
  { w with
    cpu := { w.cpu with
      mem := Function.update (fabricate w.cpu.mem ctx trampoline entry arg) addr ctx }
    tasks := w.tasks ++ [⟨base, base + stackSize, [], some (.fresh entry arg)⟩]
    spAddr := Function.update w.spAddr w.tasks.length addr }

/-- A switch to task `next`. -/
def switchedTo (w : World) (t : TaskCtx) (next : Nat) (u : TaskCtx) : World :=
  { w with
    cpu := switched w.cpu
    tasks := (w.tasks.set w.current { t with waiting := some (.called w.cpu.x w.cpu.sp) }).set next
      { u with waiting := none }
    current := next }

end World

/-- What can happen next; `t` is the running task and `trampoline` the address of
`task_trampoline`. -/
inductive ContextStep (trampoline : BitVec 64) (w : World) : World → Prop
  /-- The code of the running task runs. -/
  | run {t : TaskCtx} {cpu : Cpu} {spAddr : Nat → BitVec 64} (ht : w.tasks[w.current]? = some t)
      (h : w.Runs t cpu spAddr) : ContextStep trampoline w { w with cpu, spAddr }
  /-- An interrupt is taken. -/
  | irq {t : TaskCtx} (vector : BitVec 64) (ht : w.tasks[w.current]? = some t)
      (hmask : w.cpu.masked = false) (hroom : t.base + trapFrameSize ≤ w.cpu.sp.toNat) :
      ContextStep trampoline w
        (w.enter t w.cpu.pc vector (if w.cpu.atEl0 then 9 else 5) .irq)
  /-- `svc` is executed. -/
  | svc {t : TaskCtx} (vector : BitVec 64) (ht : w.tasks[w.current]? = some t)
      (hroom : t.base + trapFrameSize ≤ w.cpu.sp.toNat) :
      ContextStep trampoline w
        (w.enter t (w.cpu.pc + 4) vector (if w.cpu.atEl0 then 8 else 4) (.svc none))
  /-- `syscall::dispatch` writes the result to the frame. -/
  | result {t : TaskCtx} {tr : Trap} {trs : List Trap} {old : Option (BitVec 64)} (r : BitVec 64)
      (ht : w.tasks[w.current]? = some t) (htr : t.traps = tr :: trs) (hkind : tr.kind = .svc old) :
      ContextStep trampoline w
        { w with
          cpu := { w.cpu with mem := Function.update w.cpu.mem tr.base r }
          tasks := w.tasks.set w.current
            { t with traps := { tr with kind := .svc (some r) } :: trs } }
  /-- `exception_dispatch` returns, to the frame it was called on. -/
  | ret {t : TaskCtx} {tr : Trap} {trs : List Trap} (ht : w.tasks[w.current]? = some t)
      (htr : t.traps = tr :: trs) (hsp : w.cpu.sp = tr.base) :
      ContextStep trampoline w
        { w with
          cpu := restored w.cpu
          tasks := w.tasks.set w.current { t with traps := trs } }
  /-- `schedule` passes the core to another task. -/
  | switch {t u : TaskCtx} (next : Nat) (ht : w.tasks[w.current]? = some t)
      (hne : next ≠ w.current) (hu : w.tasks[next]? = some u)
      (hprev : w.cpu.x 0 = w.spAddr w.current) (hnext : w.cpu.x 1 = w.cpu.mem (w.spAddr next))
      (hroom : t.base + contextSize ≤ w.cpu.sp.toNat) :
      ContextStep trampoline w (w.switchedTo t next u)
  /-- `spawn_inner` creates a task on a new stack. -/
  | spawn (base : Nat) (entry arg addr : BitVec 64) (hlt : base + World.stackSize < 2 ^ 64)
      (hnew : ∀ t ∈ w.tasks, t.limit ≤ base ∨ base + World.stackSize ≤ t.base)
      (htable : World.Table (w.spawned trampoline base entry arg addr).tasks
        (w.spawned trampoline base entry arg addr).spAddr) :
      ContextStep trampoline w (w.spawned trampoline base entry arg addr)

/-- `kmain` has registered itself as task 0. -/
structure World.Boot (w : World) : Prop where
  current : w.current = 0
  tasks : ∃ base limit, w.tasks = [⟨base, limit, [], none⟩] ∧ limit < 2 ^ 64 ∧
    base ≤ w.cpu.sp.toNat ∧ w.cpu.sp.toNat ≤ limit
  aligned : w.cpu.sp.toNat % 16 = 0
  table : World.Table w.tasks w.spAddr

/-! ## What the stacks hold -/

/-- The frames of the interruptions lie on the stack, each below the one before. -/
def Stacked (m : BitVec 64 → BitVec 64) (base limit : Nat) : List Trap → Prop
  | [] => base ≤ limit
  | t :: ts => t.frame.At m t.base ∧ base + trapFrameSize ≤ t.sp.toNat ∧
      t.sp.toNat ≤ floorOf limit ts ∧ t.sp.toNat % 16 = 0 ∧ Stacked m base limit ts

theorem toNat_sub_ofNat {a : BitVec 64} {n : Nat} (h : n ≤ a.toNat) :
    (a - .ofNat 64 n).toNat = a.toNat - n := by
  have := a.isLt
  rw [BitVec.toNat_sub, BitVec.toNat_ofNat]
  omega

theorem toNat_add_ofNat {a : BitVec 64} {n : Nat} (h : a.toNat + n < 2 ^ 64) :
    (a + .ofNat 64 n).toNat = a.toNat + n := by
  rw [BitVec.toNat_add, BitVec.toNat_ofNat]
  omega

namespace Stacked

variable {m m' : BitVec 64 → BitVec 64} {base limit : Nat} {t : Trap} {ts : List Trap}

theorem base_toNat (h : Stacked m base limit (t :: ts)) :
    t.base.toNat = t.sp.toNat - trapFrameSize ∧ base ≤ t.base.toNat ∧
      t.base.toNat + trapFrameSize ≤ floorOf limit ts := by
  obtain ⟨-, hroom, hle, -, -⟩ := h
  have hsub : t.base.toNat = t.sp.toNat - trapFrameSize := toNat_sub_ofNat (by omega)
  exact ⟨hsub, by omega, by omega⟩

/-- All frames lie within the stack. -/
theorem bounds (h : Stacked m base limit ts) :
    base ≤ floorOf limit ts ∧ floorOf limit ts ≤ limit := by
  induction ts with
  | nil => exact ⟨h, Nat.le_refl _⟩
  | cons t ts ih =>
    obtain ⟨-, hbase, hfloor⟩ := h.base_toNat
    have hrest := ih h.2.2.2.2
    exact ⟨hbase, by rw [floorOf]; omega⟩

/-- The words of the latest frame. -/
theorem word (h : Stacked m base limit (t :: ts)) (hlimit : limit < 2 ^ 64) {j : Nat}
    (hj : j < 34) :
    (t.base + .ofNat 64 (8 * j)).toNat = t.base.toNat + 8 * j ∧
      (t.base + .ofNat 64 (8 * j)).toNat < floorOf limit ts := by
  obtain ⟨-, -, hfloor⟩ := h.base_toNat
  have hrest := (h.2.2.2.2).bounds
  rw [trapFrameSize] at hfloor
  rw [toNat_add_ofNat (by omega)]
  exact ⟨rfl, by omega⟩

/-- Only the part of the stack that is in use matters. -/
theorem congr (h : Stacked m base limit ts) (hlimit : limit < 2 ^ 64)
    (hm : ∀ a : BitVec 64, floorOf limit ts ≤ a.toNat → a.toNat < limit → m' a = m a) :
    Stacked m' base limit ts := by
  induction ts with
  | nil => exact h
  | cons t ts ih =>
    obtain ⟨-, -, hfloor⟩ := h.base_toNat
    have hbounds := (h.2.2.2.2).bounds
    refine ⟨h.1.congr fun j hj ↦ ?_, h.2.1, h.2.2.1, h.2.2.2.1, ih h.2.2.2.2 fun a ha ↦ hm a ?_⟩
    · obtain ⟨heq, hlt⟩ := h.word hlimit hj
      exact hm _ (by rw [floorOf]; omega) (by omega)
    · rw [floorOf]
      omega

end Stacked

/-- How the record of a waiting task shows on its stack, where its stack pointer is `s`. -/
def Waiting.Holds (trampoline : BitVec 64) (m : BitVec 64 → BitVec 64) (s : BitVec 64)
    (t : TaskCtx) : Waiting → Prop
  | .called x sp => ContextAt x m s ∧ s + .ofNat 64 contextSize = sp
  | .fresh entry arg => ContextAt (freshX trampoline entry arg) m s ∧ t.traps = []

/-- The stack of a waiting task. -/
structure TaskCtx.Parked (trampoline : BitVec 64) (m : BitVec 64 → BitVec 64) (s : BitVec 64)
    (t : TaskCtx) : Prop where
  base_le : t.base ≤ s.toNat
  le_floor : s.toNat + contextSize ≤ t.floor
  aligned : s.toNat % 16 = 0
  waiting : ∃ how, t.waiting = some how ∧ how.Holds trampoline m s t

/-- The records are right. -/
structure World.Ok (trampoline : BitVec 64) (w : World) : Prop where
  current : ∃ t, w.tasks[w.current]? = some t ∧ t.waiting = none ∧ t.base ≤ w.cpu.sp.toNat ∧
    w.cpu.sp.toNat ≤ t.floor ∧ w.cpu.sp.toNat % 16 = 0
  stacked : ∀ (i : Nat) (t : TaskCtx), w.tasks[i]? = some t →
    t.limit < 2 ^ 64 ∧ Stacked w.cpu.mem t.base t.limit t.traps
  parked : ∀ (i : Nat) (t : TaskCtx), w.tasks[i]? = some t → i ≠ w.current →
    t.Parked trampoline w.cpu.mem (w.cpu.mem (w.spAddr i))
  apart : World.Apart w.tasks
  table : World.Table w.tasks w.spAddr

/-- The stack of a task that waits is not touched. -/
theorem TaskCtx.Parked.congr {trampoline : BitVec 64} {m m' : BitVec 64 → BitVec 64}
    {s : BitVec 64} {t : TaskCtx} (h : t.Parked trampoline m s) (hlimit : t.limit < 2 ^ 64)
    (hfloor : t.floor ≤ t.limit) (hm : ∀ a, t.Inside a → m' a = m a) :
    t.Parked trampoline m' s := by
  have hbase := h.base_le
  have hle := h.le_floor
  have hctx {x : Fin 31 → BitVec 64} (hx : ContextAt x m s) : ContextAt x m' s := by
    refine hx.congr fun j hj ↦ hm _ ?_
    rw [contextSize] at hle
    have hword : (s + .ofNat 64 (8 * j)).toNat = s.toNat + 8 * j := toNat_add_ofNat (by omega)
    exact ⟨by omega, by omega⟩
  obtain ⟨how, hhow, hholds⟩ := h.waiting
  refine ⟨hbase, hle, h.aligned, how, hhow, ?_⟩
  cases how with
  | called x sp => exact ⟨hctx hholds.1, hholds.2⟩
  | fresh entry arg => exact ⟨hctx hholds.1, hholds.2⟩

/-! ## Every step keeps the records right -/

/-- The table stays a table when the stacks stay where they are. -/
theorem World.Table.set {tasks : List TaskCtx} {spAddr : Nat → BitVec 64} {i : Nat}
    {t : TaskCtx} (h : Table tasks spAddr) (ht : tasks[i]? = some t) (t' : TaskCtx)
    (hbase : t'.base = t.base) (hlimit : t'.limit = t.limit) : Table (tasks.set i t') spAddr := by
  refine ⟨fun j hj u hu ↦ ?_, fun j hj k hk ↦ ?_⟩
  · rw [List.length_set] at hj
    rcases List.mem_or_eq_of_mem_set hu with hu | rfl
    · exact h.outside j hj u hu
    · rw [TaskCtx.Inside, hbase, hlimit]
      exact h.outside j hj t (List.mem_of_getElem? ht)
  · rw [List.length_set] at hj hk
    exact h.inj j hj k hk

/-- Stacks that stay where they are do not come to overlap. -/
theorem World.Apart.set {tasks : List TaskCtx} {i : Nat} {t : TaskCtx} (h : Apart tasks)
    (ht : tasks[i]? = some t) (t' : TaskCtx) (hbase : t'.base = t.base)
    (hlimit : t'.limit = t.limit) :
    Apart (tasks.set i t') := by
  have hregion {j : Nat} {u : TaskCtx} (hu : (tasks.set i t')[j]? = some u) :
      ∃ u₀, tasks[j]? = some u₀ ∧ u.base = u₀.base ∧ u.limit = u₀.limit := by
    by_cases hi : i = j
    · subst hi
      rw [List.getElem?_set_self (List.getElem?_eq_some_iff.mp ht).1] at hu
      obtain rfl := Option.some.inj hu
      exact ⟨t, ht, hbase, hlimit⟩
    · rw [List.getElem?_set_ne hi] at hu
      exact ⟨u, hu, rfl, rfl⟩
  intro j k u v hu hv hne
  obtain ⟨u₀, hu₀, hb, hl⟩ := hregion hu
  obtain ⟨v₀, hv₀, hb', hl'⟩ := hregion hv
  rw [hb, hl, hb', hl']
  exact h j k u₀ v₀ hu₀ hv₀ hne

namespace World.Ok

variable {trampoline : BitVec 64} {w : World} {t : TaskCtx}

theorem floor_bounds (h : w.Ok trampoline) {i : Nat} (ht : w.tasks[i]? = some t) :
    t.base ≤ t.floor ∧ t.floor ≤ t.limit := (h.stacked i t ht).2.bounds

/-- The stack pointer of the running task. -/
theorem sp (h : w.Ok trampoline) (ht : w.tasks[w.current]? = some t) :
    t.waiting = none ∧ t.base ≤ w.cpu.sp.toNat ∧ w.cpu.sp.toNat ≤ t.floor ∧
      w.cpu.sp.toNat % 16 = 0 := by
  obtain ⟨t', ht', hrest⟩ := h.current
  rw [ht] at ht'
  cases ht'
  exact hrest

/-- Stacks are apart. -/
theorem inside_unique (h : w.Ok trampoline) {i j : Nat} {u : TaskCtx} {a : BitVec 64}
    (ht : w.tasks[i]? = some t) (hu : w.tasks[j]? = some u) (hat : t.Inside a) (hau : u.Inside a) :
    i = j := by
  by_contra hne
  obtain ⟨h₁, h₂⟩ := hat
  obtain ⟨h₃, h₄⟩ := hau
  rcases h.apart i j t u ht hu hne with hle | hle
  · omega
  · omega

/-- The running task does something to its own stack and to memory that is no stack. -/
theorem update (h : w.Ok trampoline) (ht : w.tasks[w.current]? = some t) (t' : TaskCtx) {cpu : Cpu}
    {spAddr : Nat → BitVec 64} (hbase : t'.base = t.base) (hlimit : t'.limit = t.limit)
    (hwait : t'.waiting = none)
    (hmem : ∀ (i : Nat) (u : TaskCtx) a, w.tasks[i]? = some u → i ≠ w.current → u.Inside a →
      cpu.mem a = w.cpu.mem a)
    (hentries : ∀ i < w.tasks.length, i ≠ w.current → cpu.mem (spAddr i) = w.cpu.mem (w.spAddr i))
    (hstacked : Stacked cpu.mem t.base t.limit t'.traps) (hsp : t.base ≤ cpu.sp.toNat)
    (hfloor : cpu.sp.toNat ≤ t'.floor) (haligned : cpu.sp.toNat % 16 = 0)
    (htable : World.Table w.tasks spAddr) :
    World.Ok trampoline { w with cpu, tasks := w.tasks.set w.current t', spAddr } := by
  have hcur : w.current < w.tasks.length := (List.getElem?_eq_some_iff.mp ht).1
  have hself : (w.tasks.set w.current t')[w.current]? = some t' := List.getElem?_set_self hcur
  -- another task is as it was
  have hother {i : Nat} {u : TaskCtx} (hu : (w.tasks.set w.current t')[i]? = some u)
      (hne : i ≠ w.current) : w.tasks[i]? = some u := by
    rwa [List.getElem?_set_ne (Ne.symm hne)] at hu
  refine ⟨⟨t', hself, hwait, by rwa [hbase], hfloor, haligned⟩, fun i u hu ↦ ?_,
    fun i u hu hne ↦ ?_, h.apart.set ht t' hbase hlimit, htable.set ht t' hbase hlimit⟩
  · by_cases hi : i = w.current
    · subst hi
      obtain rfl := Option.some.inj (hself.symm.trans hu)
      rw [hbase, hlimit]
      exact ⟨(h.stacked _ t ht).1, hstacked⟩
    · have hu' := hother hu hi
      obtain ⟨hlt, hst⟩ := h.stacked i u hu'
      refine ⟨hlt, hst.congr hlt fun a ha hb ↦ hmem i u a hu' hi ⟨?_, hb⟩⟩
      have := hst.bounds
      omega
  · have hu' := hother hu hne
    obtain ⟨hlt, -⟩ := h.stacked i u hu'
    show u.Parked trampoline cpu.mem (cpu.mem (spAddr i))
    rw [hentries i (List.getElem?_eq_some_iff.mp hu').1 hne]
    exact (h.parked i u hu' hne).congr hlt (h.floor_bounds hu').2 fun a ↦ hmem i u a hu' hne

/-- The words right below the stack pointer. -/
theorem below (h : w.Ok trampoline) (ht : w.tasks[w.current]? = some t) {n j : Nat}
    (hroom : t.base + n ≤ w.cpu.sp.toNat) (hj : 8 * j < n) :
    (w.cpu.sp - .ofNat 64 n + .ofNat 64 (8 * j)).toNat = w.cpu.sp.toNat - n + 8 * j ∧
      t.Inside (w.cpu.sp - .ofNat 64 n + .ofNat 64 (8 * j)) := by
  obtain ⟨-, -, hfloor, -⟩ := h.sp ht
  have hlimit := (h.stacked _ t ht).1
  have hbounds := h.floor_bounds ht
  have hsub : (w.cpu.sp - .ofNat 64 n).toNat = w.cpu.sp.toNat - n := toNat_sub_ofNat (by omega)
  have hword := toNat_add_ofNat (a := w.cpu.sp - .ofNat 64 n) (n := 8 * j) (by omega)
  rw [hsub] at hword
  exact ⟨hword, by rw [TaskCtx.Inside]; omega⟩

/-- Words that only the running task may write are neither on another stack nor in the table. -/
theorem elsewhere (h : w.Ok trampoline) (ht : w.tasks[w.current]? = some t)
    {m : BitVec 64 → BitVec 64} (hm : ∀ a, ¬ t.Inside a → m a = w.cpu.mem a) :
    (∀ (i : Nat) (u : TaskCtx) a, w.tasks[i]? = some u → i ≠ w.current → u.Inside a →
      m a = w.cpu.mem a) ∧
    ∀ i < w.tasks.length, i ≠ w.current → m (w.spAddr i) = w.cpu.mem (w.spAddr i) := by
  refine ⟨fun i u a hu hne ha ↦ hm a fun hat ↦ hne (h.inside_unique hu ht ha hat), fun i hi _ ↦ ?_⟩
  exact hm _ (h.table.outside i hi t (List.mem_of_getElem? ht))

theorem run (h : w.Ok trampoline) (ht : w.tasks[w.current]? = some t) {cpu : Cpu}
    {spAddr : Nat → BitVec 64} (hr : w.Runs t cpu spAddr) :
    World.Ok trampoline { w with cpu, spAddr } := by
  obtain ⟨hcur, heq⟩ := List.getElem?_eq_some_iff.mp ht
  obtain ⟨hwait, -⟩ := h.sp ht
  obtain ⟨hlimit, hst⟩ := h.stacked _ t ht
  have hset : w.tasks.set w.current t = w.tasks := by rw [← heq, List.set_getElem_self]
  have hstacked : Stacked cpu.mem t.base t.limit t.traps := by
    refine hst.congr hlimit fun a ha hb ↦ hr.mem a ⟨_, t, ht, ⟨?_, hb⟩, fun _ ↦ ha⟩
    have := hst.bounds
    omega
  have hok := h.update ht t rfl rfl hwait
    (fun i u a hu hne ha ↦ hr.mem a ⟨i, u, hu, ha, fun he ↦ absurd he hne⟩) hr.entries hstacked
    hr.base_le hr.le_floor hr.aligned hr.table
  rwa [hset] at hok

theorem enter (h : w.Ok trampoline) (ht : w.tasks[w.current]? = some t)
    (hroom : t.base + trapFrameSize ≤ w.cpu.sp.toNat) (returnTo vector : BitVec 64) (index : Nat)
    {kind : TrapKind} (hkind : (w.trap returnTo kind).frame.x = w.cpu.x) :
    (w.enter t returnTo vector index kind).Ok trampoline := by
  obtain ⟨hwait, hbase, hfloor, haligned⟩ := h.sp ht
  obtain ⟨hlimit, hst⟩ := h.stacked _ t ht
  obtain ⟨x, hsaved⟩ := saved_eq (w.cpu.takeException returnTo vector) index
  have hsub : (w.cpu.sp - .ofNat 64 trapFrameSize).toNat = w.cpu.sp.toNat - trapFrameSize :=
    toNat_sub_ofNat (by omega)
  -- the stub writes nothing outside the frame
  have hne {b : BitVec 64}
      (hb : ∀ j < 34, b ≠ w.cpu.sp - .ofNat 64 trapFrameSize + .ofNat 64 (8 * j)) :
      savedMem (w.cpu.takeException returnTo vector) index (w.cpu.sp - .ofNat 64 trapFrameSize) b =
        w.cpu.mem b := savedMem_of_ne _ _ hb
  have hword {j : Nat} (hj : j < 34) := h.below ht hroom (j := j) (by rw [trapFrameSize]; omega)
  obtain ⟨hmem, hentries⟩ := h.elsewhere ht fun b hb ↦ hne fun j hj he ↦ hb (he ▸ (hword hj).2)
  have hof : (w.trap returnTo kind).frame = .of (w.cpu.takeException returnTo vector) :=
    TrapFrame.ext hkind rfl rfl rfl
  have hframe : (w.trap returnTo kind).frame.At (savedMem (w.cpu.takeException returnTo vector)
      index (w.cpu.sp - .ofNat 64 trapFrameSize)) (w.trap returnTo kind).base := by
    rw [hof]
    exact savedMem_frame ..
  rw [World.enter, hsaved]
  refine h.update ht { t with traps := w.trap returnTo kind :: t.traps } rfl rfl hwait hmem
    hentries ⟨hframe, hroom, hfloor, haligned, hst.congr hlimit fun b hb _ ↦ ?_⟩
    ?_ ?_ ?_ h.table
  · refine hne fun j hj he ↦ ?_
    have hlt := (hword hj).1
    rw [← he, trapFrameSize] at hlt
    rw [trapFrameSize] at hroom
    change t.floor ≤ b.toNat at hb
    omega
  · show t.base ≤ (w.cpu.sp - .ofNat 64 trapFrameSize).toNat
    omega
  · exact Nat.le_refl _
  · show (w.cpu.sp - .ofNat 64 trapFrameSize).toNat % 16 = 0
    rw [hsub, trapFrameSize]
    rw [trapFrameSize] at hroom
    omega

theorem result (h : w.Ok trampoline) (ht : w.tasks[w.current]? = some t) {tr : Trap}
    {trs : List Trap} (htr : t.traps = tr :: trs) (r : BitVec 64) :
    World.Ok trampoline { w with
      cpu := { w.cpu with mem := Function.update w.cpu.mem tr.base r }
      tasks := w.tasks.set w.current
        { t with traps := { tr with kind := .svc (some r) } :: trs } } := by
  obtain ⟨hwait, hbase, hfloor, haligned⟩ := h.sp ht
  obtain ⟨hlimit, hst⟩ := h.stacked _ t ht
  rw [htr] at hst
  obtain ⟨-, hlow, hhigh⟩ := hst.base_toNat
  have hbounds := (hst.2.2.2.2).bounds
  rw [trapFrameSize] at hhigh
  have hinside : t.Inside tr.base := ⟨hlow, by omega⟩
  obtain ⟨hmem, hentries⟩ := h.elsewhere ht (m := Function.update w.cpu.mem tr.base r)
    fun a ha ↦ Function.update_of_ne (fun he ↦ ha (by rwa [he])) _ _
  -- only the word of `x0` changes
  have hother {j : Nat} (hj : j < 34) (hpos : 0 < j) :
      Function.update w.cpu.mem tr.base r (tr.base + .ofNat 64 (8 * j)) =
        w.cpu.mem (tr.base + .ofNat 64 (8 * j)) := by
    refine Function.update_of_ne (fun he ↦ ?_) _ _
    have hword := (hst.word hlimit hj).1
    rw [he] at hword
    omega
  have hframe : ({ tr with kind := .svc (some r) } : Trap).frame.At
      (Function.update w.cpu.mem tr.base r) tr.base := by
    refine ⟨fun i ↦ ?_, (hother (j := 31) (by decide) (by decide)).trans hst.1.elr,
      (hother (j := 32) (by decide) (by decide)).trans hst.1.spsr,
      (hother (j := 33) (by decide) (by decide)).trans hst.1.spEl0⟩
    rcases eq_or_ne i 0 with rfl | hi
    · show Function.update w.cpu.mem tr.base r (tr.base + .ofNat 64 0) = r
      rw [BitVec.add_zero, Function.update_self]
    · have hpos : 0 < (i : Nat) := Nat.pos_of_ne_zero fun he ↦ hi (Fin.ext he)
      rw [hother (by omega) hpos, hst.1.x, Trap.frame_x hi, Trap.frame_x hi]
  have hfloor' : w.cpu.sp.toNat ≤ tr.base.toNat := by rwa [TaskCtx.floor, htr, floorOf] at hfloor
  refine h.update ht { t with traps := { tr with kind := .svc (some r) } :: trs } rfl rfl hwait hmem
    hentries ⟨hframe, hst.2.1, hst.2.2.1, hst.2.2.2.1, ?_⟩ hbase hfloor' haligned h.table
  refine (hst.2.2.2.2).congr hlimit fun a ha _ ↦ Function.update_of_ne (fun he ↦ ?_) _ _
  rw [he] at ha
  omega

/-- What the task finds when `exception_dispatch` returns to the frame of an interruption. -/
theorem returned (h : w.Ok trampoline) (ht : w.tasks[w.current]? = some t) {tr : Trap}
    {trs : List Trap} (htr : t.traps = tr :: trs) (hsp : w.cpu.sp = tr.base) :
    restored w.cpu = { w.cpu with
      x := tr.frame.x
      sp := tr.sp
      pc := tr.pc
      pstate := tr.pstate
      elr := tr.pc
      spsr := tr.pstate
      spEl0 := tr.spEl0 } := by
  obtain ⟨-, hst⟩ := h.stacked _ t ht
  rw [htr] at hst
  have hback : w.cpu.sp + .ofNat 64 trapFrameSize = tr.sp := by
    rw [hsp, Trap.base, BitVec.sub_add_cancel]
  have hframe : tr.frame.At w.cpu.mem w.cpu.sp := by rw [hsp]; exact hst.1
  rw [restored_eq hframe, hback]
  rfl

theorem ret (h : w.Ok trampoline) (ht : w.tasks[w.current]? = some t) {tr : Trap}
    {trs : List Trap} (htr : t.traps = tr :: trs) (hsp : w.cpu.sp = tr.base) :
    World.Ok trampoline { w with
      cpu := restored w.cpu
      tasks := w.tasks.set w.current { t with traps := trs } } := by
  obtain ⟨hwait, -, -, -⟩ := h.sp ht
  obtain ⟨hlimit, hst⟩ := h.stacked _ t ht
  rw [htr] at hst
  obtain ⟨-, hroom, hle, haligned, hrest⟩ := hst
  rw [h.returned ht htr hsp]
  refine h.update ht { t with traps := trs } rfl rfl hwait (fun _ _ _ _ _ _ ↦ rfl)
    (fun _ _ _ ↦ rfl) hrest ?_ hle haligned h.table
  show t.base ≤ tr.sp.toNat
  omega

/-- The running task has saved its context; the next one is about to take up its own. -/
theorem switchedMem_kept (h : w.Ok trampoline) (ht : w.tasks[w.current]? = some t)
    (hprev : w.cpu.x 0 = w.spAddr w.current) (hroom : t.base + contextSize ≤ w.cpu.sp.toNat)
    {b : BitVec 64} (hptr : b ≠ w.spAddr w.current)
    (hb : t.Inside b → t.floor ≤ b.toNat) : switchedMem w.cpu b = w.cpu.mem b := by
  obtain ⟨-, -, hfloor, -⟩ := h.sp ht
  refine switchedMem_of_ne (by rwa [hprev]) fun j hj he ↦ ?_
  obtain ⟨hword, hinside⟩ := h.below ht hroom (j := j) (by rw [contextSize]; omega)
  rw [← he] at hword hinside
  have := hb hinside
  rw [contextSize] at hword hroom
  omega

/-- The tasks after a switch: the running one waits now, the next one does not, and all others are
as they were. -/
theorem switchedTo_tasks {next : Nat} {u : TaskCtx} (ht : w.tasks[w.current]? = some t)
    (hu : w.tasks[next]? = some u) (hne : next ≠ w.current) {i : Nat} {v : TaskCtx}
    (hv : (w.switchedTo t next u).tasks[i]? = some v) :
    (i = next ∧ v = { u with waiting := none }) ∨
    (i = w.current ∧ v = { t with waiting := some (.called w.cpu.x w.cpu.sp) }) ∨
    (i ≠ next ∧ i ≠ w.current ∧ w.tasks[i]? = some v) := by
  have hcur := (List.getElem?_eq_some_iff.mp ht).1
  have hnext := (List.getElem?_eq_some_iff.mp hu).1
  rw [World.switchedTo] at hv
  by_cases hin : i = next
  · subst hin
    rw [List.getElem?_set_self (by rwa [List.length_set])] at hv
    exact .inl ⟨rfl, (Option.some.inj hv).symm⟩
  rw [List.getElem?_set_ne (Ne.symm hin)] at hv
  by_cases hic : i = w.current
  · subst hic
    rw [List.getElem?_set_self hcur] at hv
    exact .inr (.inl ⟨rfl, (Option.some.inj hv).symm⟩)
  · rw [List.getElem?_set_ne (Ne.symm hic)] at hv
    exact .inr (.inr ⟨hin, hic, hv⟩)

/-- What the running task leaves behind when it calls `context_switch`. -/
theorem parked_self (h : w.Ok trampoline) (ht : w.tasks[w.current]? = some t)
    (hprev : w.cpu.x 0 = w.spAddr w.current) (hroom : t.base + contextSize ≤ w.cpu.sp.toNat) :
    TaskCtx.Parked trampoline (switchedMem w.cpu) (switchedMem w.cpu (w.spAddr w.current))
      { t with waiting := some (.called w.cpu.x w.cpu.sp) } := by
  obtain ⟨-, hbase, hfloor, haligned⟩ := h.sp ht
  have hcur := (List.getElem?_eq_some_iff.mp ht).1
  have hentry : switchedMem w.cpu (w.spAddr w.current) = w.cpu.sp - .ofNat 64 contextSize := by
    rw [← hprev, switchedMem_ptr]
  have hsub : (w.cpu.sp - .ofNat 64 contextSize).toNat = w.cpu.sp.toNat - contextSize :=
    toNat_sub_ofNat (by omega)
  rw [hentry]
  refine ⟨?_, ?_, ?_, _, rfl, ?_, BitVec.sub_add_cancel ..⟩
  · show t.base ≤ _
    omega
  · show _ ≤ t.floor
    omega
  · rw [hsub]
    rw [contextSize] at hroom ⊢
    omega
  · refine switchedMem_context fun j hj ↦ ?_
    -- the context lies on the stack, the table does not
    obtain ⟨-, hinside⟩ := h.below ht hroom (j := j) (by rw [contextSize]; omega)
    rw [hprev]
    exact fun he ↦ h.table.outside _ hcur t (List.mem_of_getElem? ht) (he ▸ hinside)

theorem switch (h : w.Ok trampoline) {next : Nat} {u : TaskCtx}
    (ht : w.tasks[w.current]? = some t) (hne : next ≠ w.current) (hu : w.tasks[next]? = some u)
    (hprev : w.cpu.x 0 = w.spAddr w.current) (hnext : w.cpu.x 1 = w.cpu.mem (w.spAddr next))
    (hroom : t.base + contextSize ≤ w.cpu.sp.toNat) :
    (w.switchedTo t next u).Ok trampoline := by
  obtain ⟨-, hbase, hfloor, haligned⟩ := h.sp ht
  have hcur := (List.getElem?_eq_some_iff.mp ht).1
  have hnextlt := (List.getElem?_eq_some_iff.mp hu).1
  have hpark := h.parked next u hu hne
  rw [← hnext] at hpark
  -- what the stacks hold does not change
  have hkept {i : Nat} {v : TaskCtx} (hv : w.tasks[i]? = some v) {b : BitVec 64} (hb : v.Inside b)
      (hfl : v.floor ≤ b.toNat ∨ i ≠ w.current) : switchedMem w.cpu b = w.cpu.mem b := by
    refine h.switchedMem_kept ht hprev hroom (fun he ↦ ?_) fun hbt ↦ ?_
    · exact h.table.outside _ hcur v (List.mem_of_getElem? hv) (he ▸ hb)
    · obtain rfl := h.inside_unique hv ht hb hbt
      obtain rfl := Option.some.inj (hv.symm.trans ht)
      exact hfl.resolve_right (fun hx ↦ hx rfl)
  have hstacked {i : Nat} {v : TaskCtx} (hv : w.tasks[i]? = some v) :
      v.limit < 2 ^ 64 ∧ Stacked (switchedMem w.cpu) v.base v.limit v.traps := by
    obtain ⟨hlt, hst⟩ := h.stacked i v hv
    refine ⟨hlt, hst.congr hlt fun b hb hb' ↦ hkept hv ⟨?_, hb'⟩ (.inl hb)⟩
    have := hst.bounds
    omega
  have hmem : (switched w.cpu).mem = switchedMem w.cpu := by rw [switched_eq]
  have hsp : (switched w.cpu).sp = w.cpu.x 1 + .ofNat 64 contextSize := by rw [switched_eq]
  have hown := h.parked_self ht hprev hroom
  have hu' : (w.tasks.set w.current { t with waiting := some (.called w.cpu.x w.cpu.sp) })[next]? =
      some u := by
    rw [List.getElem?_set_ne (Ne.symm hne)]
    exact hu
  refine ⟨⟨{ u with waiting := none }, ?_, rfl, ?_⟩, fun i v hv ↦ ?_, fun i v hv hi ↦ ?_, ?_, ?_⟩
  · exact List.getElem?_set_self (by rwa [List.length_set])
  · have hle := hpark.le_floor
    have hbounds := h.floor_bounds hu
    have hlimit := (h.stacked next u hu).1
    have haligned' := hpark.aligned
    have hbase' := hpark.base_le
    have hadd := toNat_add_ofNat (a := w.cpu.x 1) (n := contextSize) (by omega)
    show u.base ≤ (switched w.cpu).sp.toNat ∧ (switched w.cpu).sp.toNat ≤ u.floor ∧
      (switched w.cpu).sp.toNat % 16 = 0
    rw [hsp, hadd]
    refine ⟨by omega, hle, ?_⟩
    rw [contextSize]
    omega
  · show v.limit < 2 ^ 64 ∧ Stacked (switched w.cpu).mem v.base v.limit v.traps
    rw [hmem]
    rcases switchedTo_tasks ht hu hne hv with ⟨-, rfl⟩ | ⟨-, rfl⟩ | ⟨-, -, hv⟩
    · show u.limit < 2 ^ 64 ∧ Stacked _ u.base u.limit u.traps
      exact hstacked hu
    · show t.limit < 2 ^ 64 ∧ Stacked _ t.base t.limit t.traps
      exact hstacked ht
    · exact hstacked hv
  · show v.Parked trampoline (switched w.cpu).mem ((switched w.cpu).mem (w.spAddr i))
    rw [hmem]
    rcases switchedTo_tasks ht hu hne hv with ⟨rfl, -⟩ | ⟨rfl, rfl⟩ | ⟨-, hic, hv⟩
    · exact absurd rfl hi
    · exact hown
    · have hilt := (List.getElem?_eq_some_iff.mp hv).1
      have hentry : switchedMem w.cpu (w.spAddr i) = w.cpu.mem (w.spAddr i) := by
        refine h.switchedMem_kept ht hprev hroom (fun he ↦ hic (h.table.inj i hilt _ hcur he)) ?_
        exact fun hb ↦ absurd hb (h.table.outside i hilt t (List.mem_of_getElem? ht))
      rw [hentry]
      exact (h.parked i v hv hic).congr (h.stacked i v hv).1 (h.floor_bounds hv).2
        fun b hb ↦ hkept hv hb (.inr hic)
  · exact (h.apart.set ht { t with waiting := some (.called w.cpu.x w.cpu.sp) } rfl rfl).set hu'
      { u with waiting := none } rfl rfl
  · exact (h.table.set ht { t with waiting := some (.called w.cpu.x w.cpu.sp) } rfl rfl).set hu'
      { u with waiting := none } rfl rfl

/-- The stack pointer of a new task. -/
theorem toNat_ctx {base : Nat} (hlt : base + stackSize < 2 ^ 64) :
    (BitVec.ofNat 64 (stackTop base - contextSize)).toNat = stackTop base - contextSize ∧
      base ≤ stackTop base - contextSize ∧ contextSize ≤ stackTop base ∧
      stackTop base ≤ base + stackSize ∧ stackTop base % 16 = 0 := by
  have hsize : stackSize = 16384 := by decide
  have hctx : contextSize = 96 := by decide
  have htop : stackTop base = (base + stackSize) / 16 * 16 := rfl
  rw [BitVec.toNat_ofNat, Nat.mod_eq_of_lt (by omega)]
  omega

section Spawn

variable {base : Nat} {entry arg addr : BitVec 64}

/-- The context of a new task lies on its stack. -/
theorem fresh_inside (hlt : base + stackSize < 2 ^ 64) {j : Nat} (hj : j < 12) (new : TaskCtx)
    (hbase : new.base = base) (hlimit : new.limit = base + stackSize) :
    new.Inside (.ofNat 64 (stackTop base - contextSize) + .ofNat 64 (8 * j)) := by
  obtain ⟨hctx, hlow, hle, htop, -⟩ := toNat_ctx hlt
  have hsize : contextSize = 96 := by decide
  have hadd := toNat_add_ofNat (a := .ofNat 64 (stackTop base - contextSize)) (n := 8 * j)
    (by omega)
  rw [TaskCtx.Inside, hadd, hbase, hlimit]
  omega

/-- `spawn_inner` writes the context of the new task and its entry of the table. -/
theorem spawned_mem (hlt : base + stackSize < 2 ^ 64) {b : BitVec 64} (hb : b ≠ addr)
    (hin : ¬ (base ≤ b.toNat ∧ b.toNat < base + stackSize)) :
    (w.spawned trampoline base entry arg addr).cpu.mem b = w.cpu.mem b := by
  refine (Function.update_of_ne hb _ _).trans (fabricate_of_ne _ _ _ _ _ fun j hj he ↦ hin ?_)
  rw [he]
  exact fresh_inside hlt hj ⟨base, base + stackSize, [], none⟩ rfl rfl

/-- A task after `spawn_inner` is an old one or the new one. -/
theorem spawned_tasks {i : Nat} {v : TaskCtx}
    (hv : (w.spawned trampoline base entry arg addr).tasks[i]? = some v) :
    w.tasks[i]? = some v ∨ (i = w.tasks.length ∧
      v = ⟨base, base + stackSize, [], some (.fresh entry arg)⟩) := by
  rcases Nat.lt_or_ge i w.tasks.length with hi | hi
  · exact .inl ((List.getElem?_append_left hi).symm.trans hv)
  · have hlen : (w.spawned trampoline base entry arg addr).tasks.length = w.tasks.length + 1 :=
      List.length_append
    have hi' := (List.getElem?_eq_some_iff.mp hv).1
    obtain rfl : i = w.tasks.length := by omega
    exact .inr ⟨rfl, Option.some.inj (hv.symm.trans List.getElem?_concat_length)⟩

theorem spawned_spAddr {i : Nat} (hi : i < w.tasks.length) :
    (w.spawned trampoline base entry arg addr).spAddr i = w.spAddr i :=
  Function.update_of_ne (by omega) _ _

/-- A new task waits to be run for the first time. -/
theorem parked_fresh (hlt : base + stackSize < 2 ^ 64)
    (hout : ¬ (base ≤ addr.toNat ∧ addr.toNat < base + stackSize)) :
    TaskCtx.Parked trampoline (w.spawned trampoline base entry arg addr).cpu.mem
      (.ofNat 64 (stackTop base - contextSize))
      ⟨base, base + stackSize, [], some (.fresh entry arg)⟩ := by
  obtain ⟨hctx, hlow, hle, htop, haligned⟩ := toNat_ctx hlt
  refine ⟨by rw [hctx]; exact hlow, ?_, ?_, _, rfl, ?_, rfl⟩
  · rw [hctx]
    show _ ≤ base + stackSize
    omega
  · rw [hctx, contextSize]
    rw [contextSize] at hle
    omega
  · refine (fabricate_context w.cpu.mem _ trampoline entry arg).congr fun j hj ↦ ?_
    refine Function.update_of_ne (fun he ↦ hout ?_) _ _
    rw [← he]
    exact fresh_inside hlt hj ⟨base, base + stackSize, [], none⟩ rfl rfl

theorem spawn (h : w.Ok trampoline) (hlt : base + stackSize < 2 ^ 64)
    (hnew : ∀ t ∈ w.tasks, t.limit ≤ base ∨ base + stackSize ≤ t.base)
    (htable : Table (w.spawned trampoline base entry arg addr).tasks
      (w.spawned trampoline base entry arg addr).spAddr) :
    (w.spawned trampoline base entry arg addr).Ok trampoline := by
  obtain ⟨t, ht, hcurrent⟩ := h.current
  have hcur := (List.getElem?_eq_some_iff.mp ht).1
  have hlen : (w.spawned trampoline base entry arg addr).tasks.length = w.tasks.length + 1 :=
    List.length_append
  have haddr : (w.spawned trampoline base entry arg addr).spAddr w.tasks.length = addr :=
    Function.update_self ..
  have houtNew {i : Nat} (hi : i < w.tasks.length + 1) := htable.outside i (by omega) _
    (List.mem_append_right _ List.mem_cons_self)
  have hstack {v : TaskCtx} (hv : v ∈ w.tasks) {b : BitVec 64} (hb : v.Inside b) :
      (w.spawned trampoline base entry arg addr).cpu.mem b = w.cpu.mem b := by
    refine spawned_mem hlt (fun he ↦ ?_) fun hin ↦ ?_
    · have hout := htable.outside w.tasks.length (by omega) v (List.mem_append_left _ hv)
      rw [haddr, ← he] at hout
      exact hout hb
    · have hapart := hnew v hv
      obtain ⟨h₁, h₂⟩ := hb
      omega
  refine ⟨⟨t, (List.getElem?_append_left hcur).trans ht, hcurrent⟩, fun i v hv ↦ ?_,
    fun i v hv hi ↦ ?_, fun i j u v hu hv hne ↦ ?_, htable⟩
  · rcases spawned_tasks hv with hv | ⟨-, rfl⟩
    · obtain ⟨hlim, hst⟩ := h.stacked i v hv
      refine ⟨hlim, hst.congr hlim fun b hb hb' ↦ hstack (List.mem_of_getElem? hv) ⟨?_, hb'⟩⟩
      have := hst.bounds
      omega
    · exact ⟨hlt, Nat.le_add_right _ _⟩
  · rcases spawned_tasks hv with hv | ⟨rfl, rfl⟩
    · have hilt := (List.getElem?_eq_some_iff.mp hv).1
      have hentry : (w.spawned trampoline base entry arg addr).cpu.mem (w.spAddr i) =
          w.cpu.mem (w.spAddr i) := by
        have hinj := htable.inj i (by omega) w.tasks.length (by omega)
        have hout := houtNew (i := i) (by omega)
        rw [spawned_spAddr hilt] at hinj hout
        rw [haddr] at hinj
        exact spawned_mem hlt (fun he ↦ by have := hinj he; omega) hout
      rw [spawned_spAddr hilt, hentry]
      exact (h.parked i v hv hi).congr (h.stacked i v hv).1 (h.floor_bounds hv).2
        fun b hb ↦ hstack (List.mem_of_getElem? hv) hb
    · have hout := houtNew (i := w.tasks.length) (by omega)
      have hentry : (w.spawned trampoline base entry arg addr).cpu.mem addr =
          .ofNat 64 (stackTop base - contextSize) := Function.update_self ..
      rw [haddr] at hout ⊢
      rw [hentry]
      exact parked_fresh hlt hout
  · rcases spawned_tasks hu with hu | ⟨rfl, rfl⟩
    · rcases spawned_tasks hv with hv | ⟨rfl, rfl⟩
      · exact h.apart i j u v hu hv hne
      · exact hnew u (List.mem_of_getElem? hu)
    · rcases spawned_tasks hv with hv | ⟨rfl, -⟩
      · exact (hnew v (List.mem_of_getElem? hv)).symm
      · exact absurd rfl hne

end Spawn

end World.Ok

/-- Every step keeps the records right. -/
theorem ContextStep.ok {trampoline : BitVec 64} {w w' : World} (h : w.Ok trampoline)
    (hs : ContextStep trampoline w w') : w'.Ok trampoline := by
  cases hs with
  | run ht hr => exact h.run ht hr
  | irq vector ht _ hroom => exact h.enter ht hroom _ _ _ rfl
  | svc vector ht hroom => exact h.enter ht hroom _ _ _ rfl
  | result r ht htr _ => exact h.result ht htr r
  | ret ht htr hsp => exact h.ret ht htr hsp
  | switch next ht hne hu hprev hnext hroom => exact h.switch ht hne hu hprev hnext hroom
  | spawn base entry arg addr hlt hnew htable => exact h.spawn hlt hnew htable

/-- Where the machine may get to from boot. -/
def World.Reachable (trampoline : BitVec 64) (w : World) : Prop :=
  ∃ w₀ : World, w₀.Boot ∧ Relation.ReflTransGen (ContextStep trampoline) w₀ w

theorem World.Boot.ok {trampoline : BitVec 64} {w : World} (h : w.Boot) : w.Ok trampoline := by
  obtain ⟨base, limit, htasks, hlimit, hbase, hsp⟩ := h.tasks
  have hone {i : Nat} {t : TaskCtx} (ht : w.tasks[i]? = some t) :
      i = 0 ∧ t = ⟨base, limit, [], none⟩ := by
    rw [htasks, List.getElem?_singleton] at ht
    split at ht
    · rename_i hi
      exact ⟨hi, (Option.some.inj ht).symm⟩
    · cases ht
  refine ⟨⟨⟨base, limit, [], none⟩, by rw [h.current, htasks]; rfl, rfl, hbase, hsp, h.aligned⟩,
    fun i t ht ↦ ?_,
    fun i t ht hi ↦ ?_, fun i j t u ht hu hne ↦ ?_, h.table⟩
  · obtain ⟨-, rfl⟩ := hone ht
    exact ⟨hlimit, Nat.le_trans hbase hsp⟩
  · exact absurd ((hone ht).1.trans h.current.symm) hi
  · exact absurd ((hone ht).1.trans (hone hu).1.symm) hne

theorem World.Reachable.ok {trampoline : BitVec 64} {w : World} (h : w.Reachable trampoline) :
    w.Ok trampoline := by
  obtain ⟨w₀, hboot, hrun⟩ := h
  induction hrun with
  | refl => exact hboot.ok
  | tail _ hs ih => exact hs.ok ih

/-! ## Runs -/

/-- A task may load its registers with anything, and its stack pointer with any place of its
stack. -/
theorem World.Ok.load {trampoline : BitVec 64} {w : World} {t : TaskCtx} (h : w.Ok trampoline)
    (ht : w.tasks[w.current]? = some t) (x : Fin 31 → BitVec 64) (v : Fin 32 → BitVec 128)
    (sp pstate : BitVec 64) (hbase : t.base ≤ sp.toNat) (hfloor : sp.toNat ≤ t.floor)
    (haligned : sp.toNat % 16 = 0) :
    ContextStep trampoline w { w with cpu := { w.cpu with x, v, sp, pstate } } :=
  .run ht ⟨fun _ _ ↦ rfl, hbase, hfloor, haligned, fun _ _ _ ↦ rfl, h.table⟩

/-- The running task writes the SIMD registers and is interrupted right after. -/
theorem World.Ok.interrupt {trampoline : BitVec 64} {w : World} {t : TaskCtx}
    (h : w.Ok trampoline) (ht : w.tasks[w.current]? = some t) (hbig : t.base + 1024 ≤ t.floor)
    (pstate : BitVec 64) (hmask : pstate &&& Cpu.irqBit = 0) (v : Fin 32 → BitVec 128) :
    ∃ (tr : Trap) (w₁ w' : World), ContextStep trampoline w w₁ ∧ ContextStep trampoline w₁ w' ∧
      w₁.cpu.v = v ∧ w'.current = w.current ∧
      w'.tasks = w.tasks.set w.current { t with traps := tr :: t.traps } ∧
      w'.cpu.v = v ∧ tr.v = v ∧ tr.pstate = pstate ∧ tr.kind = .irq ∧ w'.cpu.sp = tr.base ∧
      t.base + contextSize ≤ w'.cpu.sp.toNat := by
  obtain ⟨hlimit, -⟩ := h.stacked _ t ht
  have hfl := h.floor_bounds ht
  obtain ⟨sp, hsp⟩ : ∃ sp : BitVec 64, sp = .ofNat 64 ((t.base / 16 + 32) * 16) := ⟨_, rfl⟩
  have hspNat : sp.toNat = (t.base / 16 + 32) * 16 := by
    rw [hsp, BitVec.toNat_ofNat, Nat.mod_eq_of_lt (by omega)]
  have hload := h.load ht w.cpu.x v sp pstate (by omega) (by omega) (by omega)
  have hroom : t.base + trapFrameSize ≤ sp.toNat := by rw [trapFrameSize]; omega
  have hbase : (sp - .ofNat 64 trapFrameSize).toNat = sp.toNat - trapFrameSize :=
    toNat_sub_ofNat (by omega)
  have hirq : ({ w with cpu := { w.cpu with v, sp, pstate } } : World).cpu.masked = false := by
    simp [Cpu.masked, hmask]
  refine ⟨_, _, _, hload, .irq 0 ht hirq hroom, rfl, rfl, rfl, saved_v _ _, rfl, rfl, rfl,
    saved_sp _ _, ?_⟩
  show _ ≤ (saved _ _).sp.toNat
  rw [saved_sp]
  show _ ≤ (sp - .ofNat 64 trapFrameSize).toNat
  rw [hbase, contextSize, trapFrameSize]
  omega

/-- The running task passes the core to another one. -/
theorem World.Ok.pass {trampoline : BitVec 64} {w : World} {t u : TaskCtx} (h : w.Ok trampoline)
    (ht : w.tasks[w.current]? = some t) (next : Nat) (hne : next ≠ w.current)
    (hu : w.tasks[next]? = some u) (hroom : t.base + contextSize ≤ w.cpu.sp.toNat) :
    ∃ (x : Fin 31 → BitVec 64) (w₁ w' : World), ContextStep trampoline w w₁ ∧
      ContextStep trampoline w₁ w' ∧ w₁.cpu.v = w.cpu.v ∧ w'.current = next ∧
      w'.tasks = (w.tasks.set w.current { t with waiting := some (.called x w.cpu.sp) }).set next
        { u with waiting := none } ∧ w'.cpu.v = w.cpu.v ∧
      ∀ y s, u.waiting = some (.called y s) → w'.cpu.sp = s := by
  obtain ⟨-, hbase, hfloor, haligned⟩ := h.sp ht
  obtain ⟨x, hx⟩ : ∃ x : Fin 31 → BitVec 64, x = Function.update (Function.update w.cpu.x 0
    (w.spAddr w.current)) 1 (w.cpu.mem (w.spAddr next)) := ⟨_, rfl⟩
  have hload := h.load ht x w.cpu.v w.cpu.sp w.cpu.pstate hbase hfloor haligned
  have hprev : x 0 = w.spAddr w.current := by rw [hx]; rfl
  have hnext : x 1 = w.cpu.mem (w.spAddr next) := by rw [hx, Function.update_self]
  have hpark := h.parked next u hu hne
  refine ⟨x, _, _, hload, .switch next ht hne hu hprev hnext hroom, rfl, rfl, rfl, switched_v _,
    fun y s hy ↦ ?_⟩
  obtain ⟨how, hhow, hholds⟩ := hpark.waiting
  obtain rfl := Option.some.inj (hhow.symm.trans hy)
  rw [← hholds.2, ← hnext]
  show (switched _).sp = _
  rw [switched_eq]

theorem World.Reachable.step {trampoline : BitVec 64} {w w' : World} (h : w.Reachable trampoline)
    (hs : ContextStep trampoline w w') : w'.Reachable trampoline := by
  obtain ⟨w₀, hboot, hrun⟩ := h
  exact ⟨w₀, hboot, hrun.tail hs⟩

/-- A place for the table, above all stacks of a run with small addresses. -/
def tableAddr (i : Nat) : BitVec 64 := .ofNat 64 (2 ^ 20 + 8 * i)

theorem World.table_tableAddr {tasks : List TaskCtx} (hlen : tasks.length ≤ 16)
    (hlimit : ∀ t ∈ tasks, t.limit ≤ 2 ^ 20) : World.Table tasks tableAddr := by
  have hnat {i : Nat} (hi : i < tasks.length) : (tableAddr i).toNat = 2 ^ 20 + 8 * i := by
    rw [tableAddr, BitVec.toNat_ofNat, Nat.mod_eq_of_lt (by omega)]
  refine ⟨fun i hi t ht hin ↦ ?_, fun i hi j hj he ↦ ?_⟩
  · have hlt := hin.2
    have hle := hlimit t ht
    rw [hnat hi] at hlt
    omega
  · have := congrArg BitVec.toNat he
    rw [hnat hi, hnat hj] at this
    omega

/-- Spawning a task on a stack above all others. -/
theorem World.spawnAbove {trampoline : BitVec 64} {w : World} (base : Nat)
    (htable : w.spAddr = tableAddr) (hlen : w.tasks.length < 16)
    (hbase : base + stackSize ≤ 2 ^ 20) (habove : ∀ t ∈ w.tasks, t.limit ≤ base)
    (entry arg : BitVec 64) : ∃ w' : World, ContextStep trampoline w w' ∧ w'.cpu.v = w.cpu.v ∧
      w'.current = w.current ∧
      w'.tasks = w.tasks ++ [⟨base, base + stackSize, [], some (.fresh entry arg)⟩] ∧
      w'.spAddr = tableAddr := by
  have hsp : (w.spawned trampoline base entry arg (tableAddr w.tasks.length)).spAddr =
      tableAddr := by
    rw [spawned, htable]
    exact Function.update_eq_self _ _
  refine ⟨_, .spawn base entry arg (tableAddr w.tasks.length) (by omega)
    (fun t ht ↦ .inl (habove t ht)) ?_, rfl, rfl, rfl, hsp⟩
  rw [hsp]
  refine table_tableAddr ?_ fun t ht ↦ ?_
  · show (w.tasks ++ [_]).length ≤ 16
    rw [List.length_append]
    exact hlen
  · rcases List.mem_append.mp ht with ht | ht
    · have := habove t ht
      omega
    · rw [List.mem_singleton.mp ht]
      exact hbase

/-- `kmain` spawns two tasks. -/
theorem World.exists_spawned (trampoline : BitVec 64) : ∃ w₀ w₁ w : World, w₀.Boot ∧
    ContextStep trampoline w₀ w₁ ∧ ContextStep trampoline w₁ w ∧ w₁.cpu.v = w₀.cpu.v ∧
    w.cpu.v = w₁.cpu.v ∧ w.current = 0 ∧ w.tasks = [⟨0, 2 ^ 16, [], none⟩,
      ⟨2 ^ 16, 2 ^ 16 + stackSize, [], some (.fresh 1 0)⟩,
      ⟨2 ^ 17, 2 ^ 17 + stackSize, [], some (.fresh 1 0)⟩] := by
  obtain ⟨w₀, hw₀⟩ : ∃ w : World, w = ⟨⟨fun _ ↦ 0, fun _ ↦ 0, .ofNat 64 (2 ^ 16), 0, 0x5, 0, 0, 0,
    fun _ ↦ 0⟩, [⟨0, 2 ^ 16, [], none⟩], 0, tableAddr⟩ := ⟨_, rfl⟩
  have hboot : w₀.Boot := by
    rw [hw₀]
    exact ⟨rfl, ⟨0, 2 ^ 16, rfl, by decide, by decide, by decide⟩, by decide,
      table_tableAddr (by decide) (by decide)⟩
  obtain ⟨w₁, hs₁, hv₁, hcur₁, htasks₁, htable₁⟩ := w₀.spawnAbove (2 ^ 16) (by rw [hw₀])
    (by rw [hw₀]; decide) (by decide) (by rw [hw₀]; decide) 1 0
  obtain ⟨w, hs, hv, hcur, htasks, -⟩ := w₁.spawnAbove (2 ^ 17) htable₁
    (by rw [htasks₁, hw₀]; decide) (by decide) (by rw [htasks₁, hw₀]; decide) 1 0
  rw [hcur₁, hboot.current] at hcur
  rw [htasks₁, hw₀] at htasks
  exact ⟨w₀, w₁, w, hboot, hs₁, hs, hv₁, hv, hcur, htasks⟩

/-- **The general-purpose context of a task is preserved.**  When `exception_dispatch` returns to
the frame of an interruption, all registers, both stack pointers, the return address and the
processor state are what they were at the interruption, except that `x0` is the result of a system
call.  When the core is passed to a task that called `context_switch`, that call returns with `x19`
to `x30` and the stack pointer as they were; when it is passed to a new task, that task starts in
`task_trampoline` with its entry and argument, on its own stack. -/
theorem context_preserved {trampoline : BitVec 64} {w : World} (h : w.Reachable trampoline)
    {t : TaskCtx} (ht : w.tasks[w.current]? = some t) :
    (∀ tr trs, t.traps = tr :: trs → w.cpu.sp = tr.base →
      (∀ i, i ≠ 0 → (restored w.cpu).x i = tr.x i) ∧
      (tr.kind = .irq → (restored w.cpu).x 0 = tr.x 0) ∧
      (∀ r, tr.kind = .svc (some r) → (restored w.cpu).x 0 = r) ∧
      (restored w.cpu).sp = tr.sp ∧ (restored w.cpu).spEl0 = tr.spEl0 ∧
      (restored w.cpu).pc = tr.pc ∧ (restored w.cpu).pstate = tr.pstate) ∧
    ∀ (next : Nat) (u : TaskCtx), next ≠ w.current → w.tasks[next]? = some u →
      w.cpu.x 0 = w.spAddr w.current → w.cpu.x 1 = w.cpu.mem (w.spAddr next) →
      t.base + contextSize ≤ w.cpu.sp.toNat →
      (∀ x sp, u.waiting = some (.called x sp) →
        (∀ r, 19 ≤ r → (switched w.cpu).x r = x r) ∧ (switched w.cpu).sp = sp ∧
          (switched w.cpu).pc = x 30) ∧
      ∀ entry arg, u.waiting = some (.fresh entry arg) →
        (switched w.cpu).pc = trampoline ∧ (switched w.cpu).x 19 = entry ∧
          (switched w.cpu).x 20 = arg ∧ (switched w.cpu).sp.toNat % 16 = 0 ∧
          u.base ≤ (switched w.cpu).sp.toNat ∧ (switched w.cpu).sp.toNat ≤ u.limit := by
  have hok := h.ok
  refine ⟨fun tr trs htr hsp ↦ ?_, fun next u hne hu hprev hnext hroom ↦ ?_⟩
  · rw [hok.returned ht htr hsp]
    refine ⟨fun i hi ↦ Trap.frame_x hi, fun hk ↦ ?_, fun r hk ↦ ?_, rfl, rfl, rfl, rfl⟩
    · show tr.frame.x 0 = tr.x 0
      rw [Trap.frame, hk]
    · show tr.frame.x 0 = r
      rw [Trap.frame, hk]
      exact Function.update_self (0 : Fin 31) r tr.x
  · have hpark := hok.parked next u hu hne
    obtain ⟨hlimit, -⟩ := hok.stacked next u hu
    have hfloor := hok.floor_bounds hu
    have hcur := (List.getElem?_eq_some_iff.mp ht).1
    rw [← hnext] at hpark
    -- the context of the next task is still there when the running one has saved its own
    have hpark' : u.Parked trampoline (switchedMem w.cpu) (w.cpu.x 1) := by
      refine hpark.congr hlimit hfloor.2 fun b hb ↦ ?_
      refine hok.switchedMem_kept ht hprev hroom (fun he ↦ ?_) fun hbt ↦ ?_
      · exact hok.table.outside _ hcur u (List.mem_of_getElem? hu) (he ▸ hb)
      · exact absurd (hok.inside_unique hu ht hb hbt) hne
    obtain ⟨how, hhow, hholds⟩ := hpark'.waiting
    rw [switched_eq]
    refine ⟨fun x sp hw ↦ ?_, fun entry arg hw ↦ ?_⟩
    · obtain rfl := Option.some.inj (hhow.symm.trans hw)
      obtain ⟨hctx, hsp⟩ := hholds
      exact ⟨fun r hr ↦ switchedX_of_context hctx hr, hsp,
        switchedX_of_context (r := 30) hctx (by decide)⟩
    · obtain rfl := Option.some.inj (hhow.symm.trans hw)
      obtain ⟨hctx, -⟩ := hholds
      have hle := hpark.le_floor
      have hbase := hpark.base_le
      have haligned := hpark.aligned
      have hadd := toNat_add_ofNat (a := w.cpu.x 1) (n := contextSize) (by omega)
      refine ⟨switchedX_of_context (r := 30) hctx (by decide),
        switchedX_of_context (r := 19) hctx (by decide),
        switchedX_of_context (r := 20) hctx (by decide), ?_⟩
      show (w.cpu.x 1 + .ofNat 64 contextSize).toNat % 16 = 0 ∧
        u.base ≤ (w.cpu.x 1 + .ofNat 64 contextSize).toNat ∧
        (w.cpu.x 1 + .ofNat 64 contextSize).toNat ≤ u.limit
      rw [hadd]
      rw [contextSize] at hle ⊢
      omega

/-- A task that is interrupted at EL0, while another one waits to be run for the first time. -/
theorem context_preserved_interrupted : ∃ (w : World) (t : TaskCtx) (tr : Trap),
    w.Reachable 0 ∧ w.tasks[w.current]? = some t ∧ t.traps = [tr] ∧ tr.pstate = 0 ∧
      (restored w.cpu).x = tr.x ∧ (restored w.cpu).sp = tr.sp ∧
      (restored w.cpu).spEl0 = tr.spEl0 ∧ (restored w.cpu).pc = tr.pc ∧
      (restored w.cpu).pstate = tr.pstate := by
  obtain ⟨w₀, w₁, w, hboot, hs₁, hs₂, -, -, hcur, htasks⟩ := World.exists_spawned 0
  have h : w.Reachable 0 := ⟨w₀, hboot, .tail (.single hs₁) hs₂⟩
  have ht : w.tasks[w.current]? = some ⟨0, 2 ^ 16, [], none⟩ := by rw [hcur, htasks]; rfl
  obtain ⟨tr, w₃, w', hs₃, hs', -, hcur', htasks', -, -, hp, hkind, hsp, -⟩ :=
    h.ok.interrupt ht (by decide) 0 (by decide) fun _ ↦ 0
  have h' := (h.step hs₃).step hs'
  have ht' : w'.tasks[w'.current]? = some ⟨0, 2 ^ 16, [tr], none⟩ := by
    rw [hcur', htasks', hcur, htasks]
    rfl
  obtain ⟨hx, hx0, -, hrest⟩ := (context_preserved h' ht').1 tr [] rfl hsp
  refine ⟨w', _, tr, h', ht', rfl, hp, funext fun i ↦ ?_, hrest⟩
  rcases eq_or_ne i 0 with rfl | hi
  · exact hx0 hkind
  · exact hx i hi

end Jatuli

import Jatuli.Context

/-!
# The SIMD registers

`boot.s` lets EL0 and EL1 use the SIMD registers, and neither the vector stub nor `context_switch`
saves them.  So what a process finds in them when it goes on after an interruption is what was
written there last, by anyone.

The general result is the positive part: the registers are a process's own as long as nobody writes
them while a process is interrupted.  The run after it shows that this cannot be dropped.
-/

set_option autoImplicit false

namespace Jatuli

open Aarch64

/-- The interruption was taken at EL0. -/
def Trap.FromEl0 (tr : Trap) : Prop := tr.pstate &&& 0xf = 0

/-- Some process has been interrupted at EL0 and has not gone on yet. -/
def World.Interrupted (w : World) : Prop := ∃ t ∈ w.tasks, ∃ tr ∈ t.traps, tr.FromEl0

/-- The SIMD registers are not written while a process is interrupted. -/
def SimdQuiet (w w' : World) : Prop := w.Interrupted → w'.cpu.v = w.cpu.v

/-- Every interrupted process would find its SIMD registers as they were. -/
def World.SimdKept (w : World) : Prop :=
  ∀ t ∈ w.tasks, ∀ tr ∈ t.traps, tr.FromEl0 → tr.v = w.cpu.v

section Steps

variable {trampoline : BitVec 64} {w w' : World}

/-- What a step makes of the records: every interruption there is was there before, but for one
that has just been taken with the registers as they are. -/
theorem ContextStep.traps (hs : ContextStep trampoline w w') {t' : TaskCtx} {tr : Trap}
    (ht' : t' ∈ w'.tasks) (htr : tr ∈ t'.traps) :
    (∃ t ∈ w.tasks, ∃ tr₀ ∈ t.traps, tr₀.v = tr.v ∧ tr₀.pstate = tr.pstate) ∨
      (tr.v = w.cpu.v ∧ w'.cpu.v = w.cpu.v) := by
  have hold {t : TaskCtx} (ht : t ∈ w.tasks) (htr : tr ∈ t.traps) :
      ∃ t ∈ w.tasks, ∃ tr₀ ∈ t.traps, tr₀.v = tr.v ∧ tr₀.pstate = tr.pstate :=
    ⟨t, ht, tr, htr, rfl, rfl⟩
  have henter {t : TaskCtx} {returnTo vector : BitVec 64} {index : Nat} {kind : TrapKind}
      (ht : w.tasks[w.current]? = some t)
      (ht' : t' ∈ (w.enter t returnTo vector index kind).tasks) :
      (∃ t ∈ w.tasks, ∃ tr₀ ∈ t.traps, tr₀.v = tr.v ∧ tr₀.pstate = tr.pstate) ∨
        (tr.v = w.cpu.v ∧ (w.enter t returnTo vector index kind).cpu.v = w.cpu.v) := by
    rcases List.mem_or_eq_of_mem_set ht' with ht' | rfl
    · exact .inl (hold ht' htr)
    · rcases List.mem_cons.mp htr with rfl | htr
      · exact .inr ⟨rfl, saved_v _ _⟩
      · exact .inl (hold (List.mem_of_getElem? ht) htr)
  cases hs with
  | run ht hr => exact .inl (hold ht' htr)
  | irq vector ht hmask hroom => exact henter ht ht'
  | svc vector ht hroom => exact henter ht ht'
  | @result t tr' trs old r ht htrs hkind =>
    rcases List.mem_or_eq_of_mem_set ht' with ht' | rfl
    · exact .inl (hold ht' htr)
    · rcases List.mem_cons.mp htr with rfl | htr
      · exact .inl ⟨t, List.mem_of_getElem? ht, tr', by rw [htrs]; exact List.mem_cons_self, rfl,
          rfl⟩
      · exact .inl (hold (List.mem_of_getElem? ht) (by rw [htrs]; exact List.mem_cons_of_mem _ htr))
  | @ret t tr' trs ht htrs hsp =>
    rcases List.mem_or_eq_of_mem_set ht' with ht' | rfl
    · exact .inl (hold ht' htr)
    · exact .inl (hold (List.mem_of_getElem? ht) (by rw [htrs]; exact List.mem_cons_of_mem _ htr))
  | @switch t u next ht hne hu hprev hnext hroom =>
    rcases List.mem_or_eq_of_mem_set ht' with ht' | rfl
    · rcases List.mem_or_eq_of_mem_set ht' with ht' | rfl
      · exact .inl (hold ht' htr)
      · exact .inl (hold (List.mem_of_getElem? ht) htr)
    · exact .inl (hold (List.mem_of_getElem? hu) htr)
  | spawn base entry arg addr hlt hnew htable =>
    rcases List.mem_append.mp ht' with ht' | ht'
    · exact .inl (hold ht' htr)
    · rw [List.mem_singleton.mp ht'] at htr
      cases htr

theorem ContextStep.simdKept (hs : ContextStep trampoline w w') (hq : SimdQuiet w w')
    (h : w.SimdKept) : w'.SimdKept := by
  intro t' ht' tr htr hel
  rcases hs.traps ht' htr with ⟨t, ht, tr₀, htr₀, hv, hp⟩ | ⟨hv, hv'⟩
  · have hel₀ : tr₀.FromEl0 := by rwa [Trap.FromEl0, hp]
    rw [← hv, hq ⟨t, ht, tr₀, htr₀, hel₀⟩]
    exact h t ht tr₀ htr₀ hel₀
  · rw [hv, hv']

end Steps

/-- The runs in which nobody writes the SIMD registers while a process is interrupted. -/
def World.SimdReachable (trampoline : BitVec 64) (w : World) : Prop :=
  ∃ w₀ : World, w₀.Boot ∧
    Relation.ReflTransGen (fun w w' ↦ ContextStep trampoline w w' ∧ SimdQuiet w w') w₀ w

theorem World.SimdReachable.kept {trampoline : BitVec 64} {w : World}
    (h : w.SimdReachable trampoline) : w.Reachable trampoline ∧ w.SimdKept := by
  obtain ⟨w₀, hboot, hrun⟩ := h
  induction hrun with
  | refl =>
    obtain ⟨base, limit, htasks, -⟩ := hboot.tasks
    refine ⟨⟨w₀, hboot, .refl⟩, fun t ht tr htr ↦ ?_⟩
    rw [htasks] at ht
    rw [List.mem_singleton.mp ht] at htr
    cases htr
  | tail _ hs ih =>
    obtain ⟨⟨w₁, hboot₁, hrun₁⟩, hkept⟩ := ih
    exact ⟨⟨w₁, hboot₁, hrun₁.tail hs.1⟩, hs.1.simdKept hs.2 hkept⟩

/-! ## Runs of two processes -/

namespace World.SimdReachable

variable {trampoline : BitVec 64} {w w' : World} {t u : TaskCtx}

theorem step (h : w.SimdReachable trampoline) (hs : ContextStep trampoline w w')
    (hq : SimdQuiet w w') : w'.SimdReachable trampoline := by
  obtain ⟨w₀, hboot, hrun⟩ := h
  exact ⟨w₀, hboot, hrun.tail ⟨hs, hq⟩⟩

/-- The running task may write the registers before it is interrupted if no process waits for
them. -/
theorem interrupt (h : w.SimdReachable trampoline) (ht : w.tasks[w.current]? = some t)
    (hbig : t.base + 1024 ≤ t.floor) (pstate : BitVec 64) (hmask : pstate &&& Cpu.irqBit = 0)
    (v : Fin 32 → BitVec 128) (hv : w.Interrupted → v = w.cpu.v) :
    ∃ (tr : Trap) (w' : World), w'.SimdReachable trampoline ∧ w'.current = w.current ∧
      w'.tasks = w.tasks.set w.current { t with traps := tr :: t.traps } ∧ w'.cpu.v = v ∧
      tr.v = v ∧ tr.pstate = pstate ∧ w'.cpu.sp = tr.base ∧
      t.base + contextSize ≤ w'.cpu.sp.toNat := by
  obtain ⟨tr, w₁, w', hs₁, hs', hv₁, hcur, htasks, hv', htr, hp, -, hsp, hroom⟩ :=
    h.kept.1.ok.interrupt ht hbig pstate hmask v
  have h' := (h.step hs₁ fun hi ↦ hv₁.trans (hv hi)).step hs' fun _ ↦ hv'.trans hv₁.symm
  exact ⟨tr, w', h', hcur, htasks, hv', htr, hp, hsp, hroom⟩

/-- Passing the core on leaves them alone. -/
theorem pass (h : w.SimdReachable trampoline) (ht : w.tasks[w.current]? = some t) (next : Nat)
    (hne : next ≠ w.current) (hu : w.tasks[next]? = some u)
    (hroom : t.base + contextSize ≤ w.cpu.sp.toNat) :
    ∃ (x : Fin 31 → BitVec 64) (w' : World), w'.SimdReachable trampoline ∧ w'.current = next ∧
      w'.tasks = (w.tasks.set w.current { t with waiting := some (.called x w.cpu.sp) }).set next
        { u with waiting := none } ∧ w'.cpu.v = w.cpu.v ∧
      ∀ y s, u.waiting = some (.called y s) → w'.cpu.sp = s := by
  obtain ⟨x, w₁, w', hs₁, hs', hv₁, hcur, htasks, hv', hsp⟩ := h.kept.1.ok.pass ht next hne hu hroom
  have h' := (h.step hs₁ fun _ ↦ hv₁).step hs' fun _ ↦ hv'.trans hv₁.symm
  exact ⟨x, w', h', hcur, htasks, hv', hsp⟩

end World.SimdReachable

/-- The stack of a process that has been interrupted as `tr` says and has passed the core on. -/
def interruptedAt (base : Nat) (tr : Trap) (x : Fin 31 → BitVec 64) : TaskCtx :=
  ⟨base, base + World.stackSize, [tr], some (.called x tr.base)⟩

/-- The first of two processes has written the registers and was interrupted, the second one
runs. -/
theorem World.exists_second (v : Fin 32 → BitVec 128) : ∃ (w : World) (kmain : TaskCtx) (tr : Trap)
    (x : Fin 31 → BitVec 64), w.SimdReachable 0 ∧ w.current = 2 ∧ tr.FromEl0 ∧ tr.v = v ∧
      w.tasks = [kmain, interruptedAt (2 ^ 16) tr x,
        ⟨2 ^ 17, 2 ^ 17 + World.stackSize, [], none⟩] := by
  obtain ⟨w₀, w₁, w, hboot, hs₁, hs₂, hv₁, hv₂, hcur, htasks⟩ := World.exists_spawned 0
  have h : w.SimdReachable 0 :=
    ⟨w₀, hboot, .tail (.single ⟨hs₁, fun _ ↦ hv₁⟩) ⟨hs₂, fun _ ↦ hv₂⟩⟩
  have ht : w.tasks[w.current]? = some ⟨0, 2 ^ 16, [], none⟩ := by rw [hcur, htasks]; rfl
  -- `kmain` is interrupted at EL1, the first process runs
  obtain ⟨tr₀, w₃, h₃, hcur₃, htasks₃, -, -, hp₃, -, hroom₃⟩ :=
    h.interrupt ht (by decide) 0x5 (by decide) _ fun _ ↦ rfl
  rw [hcur] at hcur₃
  rw [hcur, htasks] at htasks₃
  obtain ⟨x₀, w₄, h₄, hcur₄, htasks₄, -⟩ := h₃.pass (t := ⟨0, 2 ^ 16, [tr₀], none⟩)
    (by rw [hcur₃, htasks₃]; rfl) 1 (by rw [hcur₃]; decide) (by rw [htasks₃]; rfl) hroom₃
  rw [hcur₃, htasks₃] at htasks₄
  -- it writes the registers, which no process waits for, and is interrupted at EL0
  have hnone : ¬ w₄.Interrupted := by
    rintro ⟨t, ht, tr, htr, hel⟩
    rw [htasks₄] at ht
    simp only [List.set_cons_zero, List.set_cons_succ, List.mem_cons, List.not_mem_nil,
      or_false] at ht
    rcases ht with rfl | rfl | rfl
    · rw [List.mem_singleton.mp htr, Trap.FromEl0, hp₃] at hel
      exact absurd hel (by decide)
    · cases htr
    · cases htr
  obtain ⟨tr, w₅, h₅, hcur₅, htasks₅, -, hv, hp, hsp₅, hroom₅⟩ :=
    h₄.interrupt (t := ⟨2 ^ 16, 2 ^ 16 + World.stackSize, [], none⟩)
      (by rw [hcur₄, htasks₄]; rfl) (by decide) 0 (by decide) v fun hi ↦ absurd hi hnone
  rw [hcur₄] at hcur₅
  rw [hcur₄, htasks₄] at htasks₅
  -- the second process runs
  obtain ⟨x, w₆, h₆, hcur₆, htasks₆, -⟩ := h₅.pass
    (t := ⟨2 ^ 16, 2 ^ 16 + World.stackSize, [tr], none⟩)
    (u := ⟨2 ^ 17, 2 ^ 17 + World.stackSize, [], some (.fresh 1 0)⟩) (by rw [hcur₅, htasks₅]; rfl) 2
    (by rw [hcur₅]; decide) (by rw [htasks₅]; rfl) hroom₅
  rw [hcur₅, htasks₅, hsp₅] at htasks₆
  exact ⟨w₆, _, tr, x, h₆, hcur₆, by rw [Trap.FromEl0, hp]; rfl, hv, htasks₆⟩

/-- **The SIMD registers of a process are its own if nobody writes them while it is interrupted**:
whenever it goes on at EL0, they hold what they held at the interruption. -/
theorem simd_private_if_quiet {trampoline : BitVec 64} {w : World}
    (h : w.SimdReachable trampoline) {t : TaskCtx} (ht : w.tasks[w.current]? = some t) {tr : Trap}
    {trs : List Trap} (htr : t.traps = tr :: trs) (hsp : w.cpu.sp = tr.base) (hel : tr.FromEl0) :
    (restored w.cpu).v = tr.v := by
  obtain ⟨hreach, hkept⟩ := h.kept
  rw [hreach.ok.returned ht htr hsp]
  refine (hkept t (List.mem_of_getElem? ht) tr ?_ hel).symm
  rw [htr]
  exact List.mem_cons_self

/-- Two processes: the second one is interrupted as well, without having written the registers, and
the first one is to go on. -/
theorem simd_private_two : ∃ (w : World) (t : TaskCtx) (tr : Trap), w.SimdReachable 0 ∧
    w.tasks[w.current]? = some t ∧ t.traps = [tr] ∧ tr.FromEl0 ∧ tr.v = (fun _ ↦ 7) ∧
    (∃ u ∈ w.tasks, ∃ tr' ∈ u.traps, u ≠ t ∧ tr'.FromEl0) ∧ (restored w.cpu).v = tr.v := by
  obtain ⟨w, kmain, tr, x, h, hcur, hel, hv, htasks⟩ := World.exists_second fun _ ↦ 7
  obtain ⟨tr', w₁, h₁, hcur₁, htasks₁, -, -, hp₁, -, hroom₁⟩ :=
    h.interrupt (t := ⟨2 ^ 17, 2 ^ 17 + World.stackSize, [], none⟩)
      (by rw [hcur, htasks]; rfl) (by decide) 0 (by decide) _ fun _ ↦ rfl
  rw [hcur] at hcur₁
  rw [hcur, htasks] at htasks₁
  obtain ⟨x', w₂, h₂, hcur₂, htasks₂, -, hsp₂⟩ := h₁.pass
    (t := ⟨2 ^ 17, 2 ^ 17 + World.stackSize, [tr'], none⟩) (u := interruptedAt (2 ^ 16) tr x)
    (by rw [hcur₁, htasks₁]; rfl) 1 (by rw [hcur₁]; decide) (by rw [htasks₁]; rfl) hroom₁
  rw [hcur₁, htasks₁] at htasks₂
  have ht₂ : w₂.tasks[w₂.current]? = some ⟨2 ^ 16, 2 ^ 16 + World.stackSize, [tr], none⟩ := by
    rw [hcur₂, htasks₂]
    rfl
  refine ⟨w₂, _, tr, h₂, ht₂, rfl, hel, hv,
    ⟨⟨2 ^ 17, 2 ^ 17 + World.stackSize, [tr'], some (.called x' w₁.cpu.sp)⟩, ?_, tr',
      List.mem_singleton_self _, ?_, by rw [Trap.FromEl0, hp₁]; rfl⟩,
    simd_private_if_quiet h₂ ht₂ rfl (hsp₂ x tr.base rfl) hel⟩
  · rw [htasks₂]
    simp
  · intro he
    exact absurd (congrArg TaskCtx.base he) (show (2 ^ 17 : Nat) ≠ 2 ^ 16 by decide)

/-- **Another process's values show up in the SIMD registers**: two processes use them, and the one
that is interrupted first finds what the other one left. -/
theorem simd_leaks : ∃ (w : World) (t : TaskCtx) (tr : Trap), w.Reachable 0 ∧
    w.tasks[w.current]? = some t ∧ t.traps = [tr] ∧ w.cpu.sp = tr.base ∧ tr.FromEl0 ∧
    tr.v = (fun _ ↦ 1) ∧ (restored w.cpu).v = fun _ ↦ 2 := by
  obtain ⟨w, kmain, tr, x, h, hcur, hel, hv, htasks⟩ := World.exists_second fun _ ↦ 1
  -- the second process writes the registers and is interrupted
  have hr := h.kept.1
  obtain ⟨tr', w₁, w₂, hs₁, hs₂, -, hcur₂, htasks₂, hv₂, -, -, -, -, hroom₂⟩ :=
    hr.ok.interrupt (t := ⟨2 ^ 17, 2 ^ 17 + World.stackSize, [], none⟩)
      (by rw [hcur, htasks]; rfl) (by decide) 0 (by decide) fun _ ↦ 2
  have hr₂ := (hr.step hs₁).step hs₂
  rw [hcur] at hcur₂
  rw [hcur, htasks] at htasks₂
  -- the first one is to go on
  obtain ⟨x', w₃, w₄, hs₃, hs₄, -, hcur₄, htasks₄, hv₄, hsp₄⟩ := hr₂.ok.pass
    (t := ⟨2 ^ 17, 2 ^ 17 + World.stackSize, [tr'], none⟩) (u := interruptedAt (2 ^ 16) tr x)
    (by rw [hcur₂, htasks₂]; rfl) 1 (by rw [hcur₂]; decide) (by rw [htasks₂]; rfl) hroom₂
  have hr₄ := (hr₂.step hs₃).step hs₄
  rw [hcur₂, htasks₂] at htasks₄
  have ht₄ : w₄.tasks[w₄.current]? = some ⟨2 ^ 16, 2 ^ 16 + World.stackSize, [tr], none⟩ := by
    rw [hcur₄, htasks₄]
    rfl
  have hsp := hsp₄ x tr.base rfl
  refine ⟨w₄, _, tr, hr₄, ht₄, rfl, hsp, hel, hv, ?_⟩
  rw [hr₄.ok.returned ht₄ rfl hsp]
  exact hv₄.trans hv₂

end Jatuli

import Jatuli.Effects
import Jatuli.Teardown

/-!
# What the exit of a process does

`teardown` in three stages: the exit is recorded in the table, the parent is told
(`ExitReport`), and what the process owned is given back.
-/

set_option autoImplicit false

namespace Jatuli

/-- Wake a task, if there is one to wake. -/
def Scheduler.wakeWaiter (s : Scheduler) : Option Nat → Scheduler
  | some w => s.wake w
  | none => s

/-- The entry of a process once its exit is recorded. -/
def Process.exited (p : Process) (code : Int) : Process :=
  { p with
    pending := Vector.replicate maxPending none
    ringWaiter := none
    exitCode := some code
    exitWaiter := none }

/-- What is left of the entry in the end. -/
def Process.husk (p : Process) (code : Int) : Process :=
  { p.exited code with frames := [], ringPa := 0, foreground := false }

/-- What telling the parent of the exit of `pid` does, where `p` is the entry of `pid` before. -/
inductive ExitReport (pid : Nat) (p : Process) (code : Int) (k : Kernel) : Kernel → Prop
  /-- Nobody waits. -/
  | silent (h : p.exitWaiter = none ∨ p.parent = none) : ExitReport pid p code k k
  /-- The parent has a ring, and gets the answer to its `OP_WAIT`. -/
  | answered {parent tag : Nat} {q : Process} (htag : p.exitWaiter = some tag)
      (hparent : p.parent = some parent) (hq : k.processes[parent]? = some q)
      (hring : q.ringPa ≠ 0) :
      ExitReport pid p code k { k.complete q.ringPa tag code (some pid) with
        processes := k.processes.set parent { q with ringWaiter := none }
        sched := k.sched.wakeWaiter q.ringWaiter }
  /-- The parent has no ring any more. -/
  | lost {parent tag : Nat} {q : Process} (htag : p.exitWaiter = some tag)
      (hparent : p.parent = some parent) (hq : k.processes[parent]? = some q)
      (hring : q.ringPa = 0) :
      ExitReport pid p code k { k with
        processes := k.processes.set parent { q with ringWaiter := none }
        sched := k.sched.wakeWaiter q.ringWaiter }

namespace ExitReport

variable {k k' : Kernel} {pid : Nat} {p : Process} {code : Int}

/-- Beside the tables of processes and tasks only the parent's ring page is touched. -/
theorem quiet (h : ExitReport pid p code k k') :
    Quiet k { k' with processes := k.processes, sched := k.sched } := by
  cases h with
  | silent h => exact .refl k
  | @answered parent tag q htag hparent hq hring =>
    have hc := k.complete_quiet q.ringPa tag code (some pid)
    exact ⟨hc.frames, rfl, rfl, hc.poller, hc.ticks, hc.installed, hc.ttbr0, hc.kernelL1,
      hc.kernelTtbr0, hc.programs⟩
  | lost htag hparent hq hring => exact ⟨rfl, rfl, rfl, rfl, rfl, rfl, rfl, rfl, rfl, rfl⟩

/-- The report depends on the waiter and the parent only. -/
theorem congr {p' : Process} (h : ExitReport pid p' code k k') (hw : p'.exitWaiter = p.exitWaiter)
    (hparent : p'.parent = p.parent) : ExitReport pid p code k k' := by
  cases h with
  | silent h => exact .silent (by rwa [hw, hparent] at h)
  | answered htag hpar hq hring => exact .answered (hw ▸ htag) (hparent ▸ hpar) hq hring
  | lost htag hpar hq hring => exact .lost (hw ▸ htag) (hparent ▸ hpar) hq hring

/-- Of every entry all is kept but the waiter. -/
theorem map_eq {β : Type} (h : ExitReport pid p code k k') (f : Process → β)
    (hf : ∀ q, f { q with ringWaiter := none } = f q) (i : Nat) :
    k'.processes[i]?.map f = k.processes[i]?.map f := by
  have hset : ∀ {parent : Nat} {q : Process}, k.processes[parent]? = some q →
      (k.processes.set parent { q with ringWaiter := none })[i]?.map f =
        k.processes[i]?.map f := by
    intro parent q hq
    by_cases hi : parent = i
    · subst hi
      rw [List.getElem?_set_self (List.getElem?_eq_some_iff.mp hq).1, hq, Option.map_some,
        Option.map_some, hf]
    · rw [List.getElem?_set_ne hi]
  cases h with
  | silent h => rfl
  | answered htag hparent hq hring => exact hset hq
  | lost htag hparent hq hring => exact hset hq

/-- The entry of the parent may lose its waiter; no other entry is touched. -/
theorem getElem?_of_ne (h : ExitReport pid p code k k') {i : Nat} (hi : p.parent ≠ some i) :
    k'.processes[i]? = k.processes[i]? := by
  cases h with
  | silent h => rfl
  | answered htag hparent hq hring =>
    exact List.getElem?_set_ne fun e ↦ hi (by rw [hparent, e])
  | lost htag hparent hq hring =>
    exact List.getElem?_set_ne fun e ↦ hi (by rw [hparent, e])

/-- Telling the parent may wake it. -/
theorem sched_eq (h : ExitReport pid p code k k') : ∃ w, k'.sched = k.sched.wakeWaiter w := by
  cases h with
  | silent h => exact ⟨none, rfl⟩
  | answered htag hparent hq hring => exact ⟨_, rfl⟩
  | lost htag hparent hq hring => exact ⟨_, rfl⟩

theorem length (h : ExitReport pid p code k k') : k'.processes.length = k.processes.length := by
  cases h with
  | silent h => rfl
  | answered htag hparent hq hring => exact List.length_set ..
  | lost htag hparent hq hring => exact List.length_set ..

section Husk

variable (hp : k.processes[pid]? = some p) (hne : p.parent ≠ some pid)
  (hrep : ExitReport pid p code { k with processes := k.processes.set pid (p.exited code) } k')
include hp hne hrep

/-- The entry of the process after its teardown. -/
theorem getElem?_husk : (k'.processes.set pid (p.husk code))[pid]? = some (p.husk code) := by
  refine List.getElem?_set_self (List.getElem?_eq_some_iff (a := p.exited code).mp ?_).1
  rw [hrep.getElem?_of_ne hne]
  exact List.getElem?_set_self (List.getElem?_eq_some_iff.mp hp).1

omit hp hne in
/-- The entries of other processes after the teardown of `pid`. -/
theorem map_of_ne {β : Type} (f : Process → β) (hf : ∀ q, f { q with ringWaiter := none } = f q)
    {i : Nat} (hi : i ≠ pid) :
    (k'.processes.set pid (p.husk code))[i]?.map f = k.processes[i]?.map f := by
  rw [List.getElem?_set_ne (Ne.symm hi), hrep.map_eq f hf i, List.getElem?_set_ne (Ne.symm hi)]

omit hp hne in
/-- The entry of another process may only lose its waiter. -/
theorem entry_of_ne {i : Nat} {q : Process} (hi : i ≠ pid) (hq : k.processes[i]? = some q) :
    ∃ q', (k'.processes.set pid (p.husk code))[i]? = some q' ∧
      (q' = q ∨ q' = { q with ringWaiter := none }) := by
  rw [List.getElem?_set_ne (Ne.symm hi)]
  have hq₀ : (k.processes.set pid (p.exited code))[i]? = some q := by
    rw [List.getElem?_set_ne (Ne.symm hi), hq]
  have hset : ∀ {parent : Nat} {r : Process},
      (k.processes.set pid (p.exited code))[parent]? = some r →
      ∃ q', ((k.processes.set pid (p.exited code)).set parent { r with ringWaiter := none })[i]? =
        some q' ∧ (q' = q ∨ q' = { q with ringWaiter := none }) := by
    intro parent r hr
    by_cases hpar : parent = i
    · subst hpar
      rw [hq₀] at hr
      cases hr
      exact ⟨_, List.getElem?_set_self (List.getElem?_eq_some_iff.mp hq₀).1, .inr rfl⟩
    · exact ⟨q, by rw [List.getElem?_set_ne hpar, hq₀], .inl rfl⟩
  cases hrep with
  | silent h => exact ⟨q, hq₀, .inl rfl⟩
  | answered htag hparent hr hring => exact hset hr
  | lost htag hparent hr hring => exact hset hr

/-- The parents of all processes are what they were. -/
theorem map_parent (i : Nat) :
    (k'.processes.set pid (p.husk code))[i]?.map (·.parent) = k.processes[i]?.map (·.parent) := by
  by_cases hi : i = pid
  · subst hi
    rw [getElem?_husk hp hne hrep, hp]
    rfl
  · exact map_of_ne hrep _ (fun _ ↦ rfl) hi

end Husk

end ExitReport

theorem modify_eq_set {α : Type} {l : List α} {i : Nat} {a : α} (h : l[i]? = some a) (f : α → α) :
    l.modify i f = l.set i (f a) := by
  rw [List.modify_eq_set_getElem?, h]
  rfl

namespace Kernel

variable {k k' : Kernel} {pid : Nat} {p : Process} {code : Int}

/-- The part of `notify_exit` about the parent. -/
theorem notifyParent_report {parent tag : Nat} (htag : p.exitWaiter = some tag)
    (hparent : p.parent = some parent)
    (h : (do
      let parentRing ← Processes.ringPa k.processes parent
      let k := if parentRing ≠ 0 then k.complete parentRing tag code (some pid) else k
      match Processes.takeWaiter k.processes parent with
      | (some waiter, processes) => some ({ k with processes }.wake waiter)
      | (none, processes) => some { k with processes }) = some k') :
    ExitReport pid p code k k' := by
  obtain ⟨ringPa, hring, h⟩ := Option.bind_eq_some_iff.mp h
  obtain ⟨q, hq, rfl⟩ := Option.map_eq_some_iff.mp hring
  by_cases hzero : q.ringPa = 0
  · have hrep : ExitReport pid p code k _ := .lost htag hparent hq hzero
    rw [if_neg (not_not.mpr hzero)] at h
    simp only [Processes.takeWaiter, hq, Option.bind_some, modify_eq_set hq] at h
    cases hw : q.ringWaiter <;> rw [hw] at h hrep <;> cases h <;> exact hrep
  · have hrep : ExitReport pid p code k _ := .answered htag hparent hq hzero
    have hquiet := k.complete_quiet q.ringPa tag code (some pid)
    rw [if_pos hzero] at h
    simp only [Processes.takeWaiter, hquiet.processes, hq, Option.bind_some, modify_eq_set hq] at h
    cases hw : q.ringWaiter with
    | none =>
      rw [hw, Scheduler.wakeWaiter, ← hquiet.sched] at hrep
      rw [hw] at h
      cases h
      exact hrep
    | some w =>
      rw [hw, Scheduler.wakeWaiter, ← hquiet.sched] at hrep
      rw [hw] at h
      cases h
      exact hrep

theorem notifyExit_report (hp : k.processes[pid]? = some p) (h : k.notifyExit pid code = some k') :
    ExitReport pid p code { k with
      processes := k.processes.set pid { p with exitCode := some code, exitWaiter := none }
      } k' := by
  have hon : Processes.onExit k.processes pid code =
      (p.exitWaiter.bind fun tag ↦ p.parent.map fun parent ↦ (parent, tag),
        k.processes.set pid { p with exitCode := some code, exitWaiter := none }) := by
    simp only [Processes.onExit, hp, modify_eq_set hp, Option.bind_eq_bind, Option.bind_some,
      Option.map_eq_bind, Function.comp_def]
  cases htag : p.exitWaiter with
  | none =>
    rw [notifyExit, hon, htag] at h
    cases h
    exact .silent (.inl htag)
  | some tag =>
    cases hparent : p.parent with
    | none =>
      rw [notifyExit, hon, htag, hparent] at h
      cases h
      exact .silent (.inr hparent)
    | some parent =>
      rw [notifyExit, hon, htag, hparent] at h
      exact notifyParent_report htag hparent h

/-- **What `teardown` does**: the exit is recorded, the parent told, and pages and tables of the
process go back to the allocator while the kernel's space is installed. -/
theorem teardown_cases (hp : k.processes[pid]? = some p) (hne : p.parent ≠ some pid)
    (h : k.teardown pid code = some k') :
    ∃ k₁ msg, ExitReport pid p code
        { k with processes := k.processes.set pid (p.exited code) } k₁ ∧
      k' = kprintln (activate { k₁ with
          phys := freeAddressSpace (reclaim k₁.ttbr0 p.frames k₁.phys) p.ttbr0
          processes := k₁.processes.set pid (p.husk code) } k₁.kernelTtbr0) msg := by
  rw [teardown] at h
  obtain ⟨k₁, hk₁, h⟩ := Option.bind_eq_some_iff.mp h
  have hlen : pid < k.processes.length := (List.getElem?_eq_some_iff.mp hp).1
  have habort : (k.abortUser pid).processes = k.processes.set pid
      { p with pending := Vector.replicate maxPending none, ringWaiter := none } := by
    rw [abortUser, Processes.clearRing, modify_eq_set hp]
  have hentry : (k.abortUser pid).processes[pid]? =
      some { p with pending := Vector.replicate maxPending none, ringWaiter := none } := by
    rw [habort]
    exact List.getElem?_set_self hlen
  have hrep := (notifyExit_report hentry hk₁).congr (p := p) rfl rfl
  rw [habort, List.set_set] at hrep
  have hp₁ : k₁.processes[pid]? = some (p.exited code) := by
    rw [hrep.getElem?_of_ne hne]
    exact List.getElem?_set_self hlen
  have hlen₁ : pid < k₁.processes.length := (List.getElem?_eq_some_iff.mp hp₁).1
  rw [Processes.ttbr0, Processes.takeFrames, hp₁, modify_eq_set hp₁] at h
  simp only [Option.map_some, Option.bind_eq_bind, Option.bind_some, Option.getD_some] at h
  cases h
  refine ⟨k₁, _, hrep, congrArg (kprintln · _) ?_⟩
  rw [activate, activate]
  split
  · simp only [Processes.markExited, modify_eq_set (List.getElem?_set_self hlen₁), List.set_set]
    rfl
  · simp only [Processes.markExited, modify_eq_set (List.getElem?_set_self hlen₁), List.set_set]
    rfl

/-- Reporting an exit fails only if the parent is not in the table. -/
theorem notifyExit_isSome (hp : k.processes[pid]? = some p) (code : Int)
    (hpar : ∀ i, p.parent = some i → i < k.processes.length) :
    ∃ k', k.notifyExit pid code = some k' := by
  rw [notifyExit]
  split
  · exact ⟨_, rfl⟩
  · rename_i parent tag processes hon
    obtain ⟨h₁, h₂⟩ := Prod.mk.injEq .. ▸ hon
    have hparent : p.parent = some parent := by
      simp only [hp, Option.bind_eq_bind, Option.bind_some] at h₁
      obtain ⟨t, -, h₁⟩ := Option.bind_eq_some_iff.mp h₁
      obtain ⟨i, hi, h₁⟩ := Option.bind_eq_some_iff.mp h₁
      cases h₁
      exact hi
    have hlt : parent < processes.length := by
      rw [← h₂, List.length_modify]
      exact hpar parent hparent
    simp only [Processes.ringPa, List.getElem?_eq_getElem hlt, Option.map_some, Option.bind_eq_bind,
      Option.bind_some]
    split
    · exact ⟨_, rfl⟩
    · exact ⟨_, rfl⟩

/-- So does tearing down. -/
theorem teardown_isSome (hp : k.processes[pid]? = some p)
    (hpar : ∀ i, p.parent = some i → i < k.processes.length) (code : Int) :
    ∃ k', k.teardown pid code = some k' := by
  have hlen : pid < k.processes.length := (List.getElem?_eq_some_iff.mp hp).1
  have hentry : (k.abortUser pid).processes[pid]? =
      some { p with pending := Vector.replicate maxPending none, ringWaiter := none } := by
    rw [abortUser, Processes.clearRing, List.getElem?_modify_eq, hp]
    rfl
  obtain ⟨k₁, hk₁⟩ := notifyExit_isSome hentry code fun i hi ↦ by
    rw [abortUser, Processes.clearRing, List.length_modify]
    exact hpar i hi
  have hlen₁ : pid < k₁.processes.length := by
    rw [(notifyExit_report hentry hk₁).length]
    simpa [abortUser, Processes.clearRing] using hlen
  simp only [teardown, hk₁, Processes.ttbr0, List.getElem?_eq_getElem hlen₁, Option.map_some,
    Option.bind_eq_bind, Option.bind_some]
  exact ⟨_, rfl⟩

end Kernel
end Jatuli

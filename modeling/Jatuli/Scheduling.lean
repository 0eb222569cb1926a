import Jatuli.Exit
import Jatuli.Lib.Cyclic

/-!
# What the scheduler does

The search of `schedule` finds a runnable task whenever there is one, and `kmain` always is: so the
task that runs after a scheduler call is runnable, and if it belongs to a process then that
process's space is live.  Wakeups are described by a relation, `Scheduler.Woken`, since in most
places all that counts is that they only turn blocked tasks into runnable ones.
-/

set_option autoImplicit false

namespace Jatuli

namespace Scheduler

variable {s s' : Scheduler}

theorem runnable_iff {i : Nat} :
    s.runnable i = true ↔ ∃ t, s.tasks[i]? = some t ∧ t.state = .runnable := by
  simp only [runnable, Option.any_eq_true, decide_eq_true_eq]

/-- If some task is runnable, the search finds one. -/
theorem next_runnable {i : Nat} (h : s.runnable i = true) : s.runnable s.next = true := by
  obtain ⟨t, ht, -⟩ := runnable_iff.mp h
  have hmem : i ∈ Cyclic.after s.tasks.length s.current :=
    Cyclic.mem_after (List.getElem?_eq_some_iff.mp ht).1
  obtain ⟨j, hj⟩ := Option.isSome_iff_exists.mp (List.find?_isSome.mpr ⟨i, hmem, h⟩)
  rw [Cyclic.after] at hj
  rw [next, hj]
  exact List.find?_some hj

/-! ## Wakeups -/

/-- `s'` is `s` with some blocked tasks made runnable. -/
structure Woken (s s' : Scheduler) : Prop where
  current : s'.current = s.current
  task : ∀ i : Nat, s'.tasks[i]? = s.tasks[i]? ∨
    ∃ t, s.tasks[i]? = some t ∧ t.state = .blocked ∧
      s'.tasks[i]? = some { t with state := .runnable }

theorem Woken.refl (s : Scheduler) : Woken s s := ⟨rfl, fun _ ↦ .inl rfl⟩

/-- Each task of `s` is in `s'`, the same but for its state. -/
theorem Woken.getElem? (h : Woken s s') {i : Nat} {t : Task} (ht : s.tasks[i]? = some t) :
    ∃ t', s'.tasks[i]? = some t' ∧ t'.process = t.process ∧ t'.ttbr0 = t.ttbr0 ∧
      (t'.state = t.state ∨ t.state = .blocked ∧ t'.state = .runnable) := by
  rcases h.task i with he | ⟨t₁, ht₁, hb, he⟩
  · exact ⟨t, he.trans ht, rfl, rfl, .inl rfl⟩
  · rw [ht] at ht₁
    cases ht₁
    exact ⟨_, he, rfl, rfl, .inr ⟨hb, rfl⟩⟩

/-- And the other way round. -/
theorem Woken.getElem?' (h : Woken s s') {i : Nat} {t' : Task} (ht' : s'.tasks[i]? = some t') :
    ∃ t, s.tasks[i]? = some t ∧ t'.process = t.process ∧ t'.ttbr0 = t.ttbr0 ∧
      (t'.state = t.state ∨ t.state = .blocked ∧ t'.state = .runnable) := by
  rcases h.task i with he | ⟨t, ht, hb, he⟩
  · exact ⟨t', he.symm.trans ht', rfl, rfl, .inl rfl⟩
  · rw [ht'] at he
    cases he
    exact ⟨t, ht, rfl, rfl, .inr ⟨hb, rfl⟩⟩

theorem Woken.runnable (h : Woken s s') {i : Nat} (hi : s.runnable i = true) :
    s'.runnable i = true := by
  obtain ⟨t, ht, hr⟩ := runnable_iff.mp hi
  obtain ⟨t', ht', -, -, hs | ⟨-, hs⟩⟩ := h.getElem? ht
  · exact runnable_iff.mpr ⟨t', ht', hs.trans hr⟩
  · exact runnable_iff.mpr ⟨t', ht', hs⟩

theorem Woken.currentProcess (h : Woken s s') : s'.currentProcess = s.currentProcess := by
  rw [Scheduler.currentProcess, Scheduler.currentProcess, currentTask, currentTask, h.current]
  cases hc : s.tasks[s.current]? with
  | none =>
    cases hc' : s'.tasks[s.current]? with
    | none => rfl
    | some t =>
      obtain ⟨t₀, ht₀, -⟩ := h.getElem?' hc'
      rw [hc] at ht₀
      cases ht₀
  | some t =>
    obtain ⟨t', ht', hproc, -⟩ := h.getElem? hc
    rw [ht']
    exact hproc

theorem Woken.length (h : Woken s s') : s'.tasks.length = s.tasks.length := by
  have hle : ∀ {s s' : Scheduler}, (∀ {i : Nat} {t : Task}, s.tasks[i]? = some t →
      ∃ t', s'.tasks[i]? = some t') → s.tasks.length ≤ s'.tasks.length := by
    intro s s' h
    by_contra hlt
    obtain ⟨t', ht'⟩ := h (List.getElem?_eq_getElem (l := s.tasks) (Nat.lt_of_not_ge hlt))
    rw [List.getElem?_eq_none le_rfl] at ht'
    cases ht'
  refine Nat.le_antisymm (hle fun ht' ↦ ?_) (hle fun ht ↦ ?_)
  · obtain ⟨t, ht, -⟩ := h.getElem?' ht'
    exact ⟨t, ht⟩
  · obtain ⟨t', ht', -⟩ := h.getElem? ht
    exact ⟨t', ht'⟩

theorem wake_woken (s : Scheduler) (w : Nat) : Woken s (s.wake w) := by
  refine ⟨rfl, fun i ↦ ?_⟩
  rw [wake, List.getElem?_modify]
  cases ht : s.tasks[i]? with
  | none => exact .inl rfl
  | some t =>
    simp only [Option.map_eq_map, Option.map_some]
    split_ifs with hw hb
    · exact .inr ⟨t, rfl, hb, rfl⟩
    · exact .inl rfl
    · exact .inl rfl

theorem wakeWaiter_woken (s : Scheduler) (w : Option Nat) : Woken s (s.wakeWaiter w) := by
  cases w with
  | none => exact .refl s
  | some w => exact s.wake_woken w

theorem wakeSleepers_woken (s : Scheduler) (now : Nat) : Woken s (s.wakeSleepers now) := by
  refine ⟨rfl, fun i ↦ ?_⟩
  rw [wakeSleepers, List.getElem?_map]
  cases ht : s.tasks[i]? with
  | none => exact .inl rfl
  | some t =>
    simp only [Option.map_some]
    split_ifs with hb
    · exact .inr ⟨t, rfl, hb.1, rfl⟩
    · exact .inl rfl

end Scheduler

/-! ## Switching -/

namespace Kernel

variable {k : Kernel}

/-- `schedule` only changes which task runs and which root is live. -/
theorem schedule_eq (k : Kernel) : k.schedule =
    { k with
      sched := { k.sched with current := k.sched.next }
      installed := k.schedule.installed
      ttbr0 := k.schedule.ttbr0 } := by
  rw [schedule]
  split_ifs with h
  · rw [h]
  · split
    · rw [activate_eq]
    · rfl

@[simp] theorem schedule_phys (k : Kernel) : k.schedule.phys = k.phys := by rw [schedule_eq]

@[simp] theorem schedule_processes (k : Kernel) : k.schedule.processes = k.processes := by
  rw [schedule_eq]

@[simp] theorem schedule_tasks (k : Kernel) : k.schedule.sched.tasks = k.sched.tasks := by
  rw [schedule_eq]

@[simp] theorem schedule_current (k : Kernel) : k.schedule.sched.current = k.sched.next := by
  rw [schedule_eq]

@[simp] theorem schedule_trace (k : Kernel) : k.schedule.trace = k.trace := by rw [schedule_eq]

@[simp] theorem schedule_poller (k : Kernel) : k.schedule.poller = k.poller := by rw [schedule_eq]

@[simp] theorem schedule_kernelTtbr0 (k : Kernel) : k.schedule.kernelTtbr0 = k.kernelTtbr0 := by
  rw [schedule_eq]

theorem Synced.schedule (h : k.Synced) : k.schedule.Synced := by
  rw [Kernel.schedule]
  split_ifs
  · exact h
  · split
    · exact Synced.activate (k := { k with sched := { k.sched with current := k.sched.next } }) h _
    · exact h

/-- The space of task `i` is live, if it has one. -/
def LiveFor (k : Kernel) (i : Nat) : Prop :=
  ∀ t r, k.sched.tasks[i]? = some t → t.ttbr0 = some r → k.ttbr0 = r

/-- What runs can run, in its own space. -/
structure Running (k : Kernel) : Prop where
  runnable : k.sched.runnable k.sched.current = true
  space : k.LiveFor k.sched.current

section Schedule

variable (hsync : k.Synced) {i : Nat} (hi : k.sched.runnable i = true)
  (hroots : ∀ (j : Nat) (t : Task) (r : Nat), k.sched.tasks[j]? = some t → t.ttbr0 = some r → r ≠ 0)
  (hcur : k.sched.runnable k.sched.current = true → k.LiveFor k.sched.current)
include hsync hi hroots hcur

/-- The root that is live afterwards: that of the task, or the one there was. -/
theorem schedule_ttbr0 : k.schedule.ttbr0 =
    (k.sched.tasks[k.sched.next]?.bind (·.ttbr0)).getD k.ttbr0 := by
  obtain ⟨t, ht, hr⟩ := Scheduler.runnable_iff.mp (Scheduler.next_runnable hi)
  rw [schedule, ht]
  simp only [Option.bind_some]
  split_ifs with hsame
  · -- the running task goes on, in its own space already
    cases hroot : t.ttbr0 with
    | none => rfl
    | some r =>
      rw [hsame] at ht
      exact hcur (Scheduler.runnable_iff.mpr ⟨t, ht, hr⟩) t r ht hroot
  · cases hroot : t.ttbr0 with
    | none => rfl
    | some r =>
      exact activate_ttbr0 (k := { k with sched := { k.sched with current := k.sched.next } }) hsync
        (hroots _ t r ht hroot)

theorem schedule_running : k.schedule.Running where
  runnable := by
    rw [schedule_eq]
    exact Scheduler.next_runnable hi
  space t r ht hr := by
    rw [schedule_tasks, schedule_current] at ht
    rw [schedule_ttbr0 hsync hi hroots hcur, ht, Option.bind_some, hr, Option.getD_some]

end Schedule

end Kernel
end Jatuli

import Jatuli.Serving

/-!
# Submitting

A process submits by ordinary stores to its ring page, and such stores are always possible
(`LifeInv.submit`).  The runs that show a result is not void are made of these.
-/

set_option autoImplicit false

namespace Jatuli

/-! ## The stores -/

/-- Stores of process `pid` lead from one state to the other. -/
inductive Stores (pid : Nat) (k : Kernel) : Kernel → Prop
  | refl : Stores pid k k
  | step {k₁ k₂ : Kernel} {va n v : Nat} (h : Stores pid k k₁)
      (hs : serveStep k₁ (.store pid va n v) = some k₂) : Stores pid k k₂

theorem Kernel.activate_of_installed {k : Kernel} {root : Nat} (h : k.installed = root) :
    k.activate root = k := if_neg (not_not.mpr h)

section Submit

variable {L : Layout} {k k' : Kernel} {pid : Nat} {p : Process}

/-- A run with a record that takes no notice of stores may be prolonged by them. -/
theorem Stores.track {programs : List (String × List UInt8)} {γ : Type} {start r : γ}
    {note : γ → Kernel → ServeOp → Kernel → γ} {ok : Kernel × γ → ServeOp → Prop}
    (hnote : ∀ {k k' : Kernel} {va n v : Nat}, note r k (.store pid va n v) k' = r)
    (hok : ∀ {k : Kernel} {va n v : Nat}, ok (k, r) (.store pid va n v)) (h : Stores pid k k')
    (hk : ((serve programs).track start note).Reach ok (k, r)) :
    ((serve programs).track start note).Reach ok (k', r) := by
  induction h with
  | refl => exact hk
  | @step k₁ k₂ va n v _ hs ih =>
    have hnext := ih.track_next (show ok (k₁, r) (.store pid va n v) from hok) hs
    rwa [hnote] at hnext

theorem LifeInv.stores (h : LifeInv L k) (hs : Stores pid k k') : LifeInv L k' := by
  induction hs with
  | refl => exact h
  | @step k₁ k₂ va n v _ hs ih =>
    exact ih.serve (show ServeOp.Linked k₁ (.store pid va n v) from trivial) hs

/-- **A process can store to its ring.** -/
theorem LifeInv.store_ring (h : LifeInv L k) (hp : k.processes[pid]? = some p)
    (hring : p.ringPa ≠ 0) {off n v : Nat} (hn : n = 1 ∨ n = 2 ∨ n = 4 ∨ n = 8)
    (hal : off % n = 0) (hoff : off + n ≤ 4096) :
    serveStep k (.store pid (userRingVa + off) n v) =
      some ((k.activate p.ttbr0).setMem (k.mem.store (p.ringPa + off) n v)) := by
  obtain ⟨own, hinv⟩ := h.inv
  have hl := (hinv.proc hp).live hring
  have hva : (userRingVa + off) % n = 0 := by
    have hbase : userRingVa = 0x80_0030_0000 := rfl
    rcases hn with rfl | rfl | rfl | rfl <;> omega
  have hpa := hinv.el0WritablePa_ring hp hring off (by omega)
  have hroot := Kernel.activate_ttbr0 h.synced (hinv.root_ne_zero hp hl)
  rw [serveStep, lifeStep, Kernel.asProcess, hp, Option.bind_eq_bind, Option.bind_some, if_pos hl,
    Machine.userStore, if_pos ⟨hn, hva⟩, hroot]
  have hmem : (k.activate p.ttbr0).mem = k.mem := by rw [Kernel.mem, k.activate_phys]
  rw [hmem, hpa, Option.map_some]

/-- The same in the space of the process. -/
theorem LifeInv.store_ring_own (h : LifeInv L k) (hp : k.processes[pid]? = some p)
    (hring : p.ringPa ≠ 0) {m : Mem} (hs : Stores pid k ((k.activate p.ttbr0).setMem m))
    (off n v : Nat) (hn : n = 1 ∨ n = 2 ∨ n = 4 ∨ n = 8) (hal : off % n = 0)
    (hoff : off + n ≤ 4096) :
    Stores pid k ((k.activate p.ttbr0).setMem (m.store (p.ringPa + off) n v)) := by
  obtain ⟨k₁, hk₁⟩ : ∃ k₁ : Kernel, k₁ = (k.activate p.ttbr0).setMem m := ⟨_, rfl⟩
  rw [← hk₁] at hs
  refine hs.step (show serveStep k₁ (.store pid (userRingVa + off) n v) = _ from ?_)
  have hp₁ : k₁.processes[pid]? = some p := by
    rw [hk₁, ← hp, ← k.activate_processes p.ttbr0]
    rfl
  have hinst : k₁.installed = p.ttbr0 := by
    rw [hk₁]
    exact k.activate_installed p.ttbr0
  rw [(h.stores hs).store_ring hp₁ hring hn hal hoff, Kernel.activate_of_installed hinst, hk₁]
  rfl

/-- **A process can submit anything.** -/
theorem LifeInv.submit (h : LifeInv L k) (hp : k.processes[pid]? = some p) (hring : p.ringPa ≠ 0)
    (op arg0 arg1 tag : Nat) :
    Stores pid k ((k.activate p.ttbr0).setMem (submitted k.mem p.ringPa op arg0 arg1 tag)) := by
  have hslot := slot_lt (sqTail k.mem p.ringPa)
  obtain ⟨a, ha⟩ : ∃ a, a = offSq + 32 * slot (sqTail k.mem p.ringPa) := ⟨_, rfl⟩
  have hadd : sqeAddr p.ringPa (slot (sqTail k.mem p.ringPa)) = p.ringPa + a := by
    rw [sqeAddr, ha, Nat.add_assoc]
  rw [submitted, hadd, writeSqe, Nat.add_assoc, Nat.add_assoc, Nat.add_assoc]
  rw [offSq] at ha
  have h₁ : Stores pid k ((k.activate p.ttbr0).setMem (k.mem.store (p.ringPa + a) 8 op)) :=
    Stores.refl.step (h.store_ring hp hring (by omega) (by omega) (by omega))
  have h₂ := h.store_ring_own hp hring h₁ (a + 8) 8 arg0 (by omega) (by omega) (by omega)
  have h₃ := h.store_ring_own hp hring h₂ (a + 16) 8 arg1 (by omega) (by omega) (by omega)
  have h₄ := h.store_ring_own hp hring h₃ (a + 24) 8 tag (by omega) (by omega) (by omega)
  exact h.store_ring_own hp hring h₄ _ _ _ (by omega) (by decide) (by decide)

end Submit

end Jatuli

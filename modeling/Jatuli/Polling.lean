import Jatuli.Exit

/-!
# Completing parked reads

`poll_pending` runs in the UART interrupt, under whatever address space is live.  It installs the
foreground process's own for the time it delivers bytes, and puts the old one back.
-/

set_option autoImplicit false

namespace Jatuli
namespace Kernel

variable {k k' : Kernel} {pid ringPa : Nat}

/-- **The rule for the loop of `poll_pending`**: an assertion about the slots passed so far that
each slot prolongs, whether it is empty, finds no input, or is completed. -/
theorem pollPendingFrom_invariant {pending : Vector (Option Pending) maxPending}
    {I : Nat → Kernel → Bool → Prop}
    (hnone : ∀ (i : Fin maxPending) k b, getElem pending i i.isLt = none → I i k b → I (i + 1) k b)
    (hempty : ∀ (i : Fin maxPending) k k' b r, getElem pending i i.isLt = some r →
      k.drainInput pid r.buf r.len = some (0, k') → I i k b → I (i + 1) k' b)
    (hdone : ∀ (i : Fin maxPending) k k' b r count, getElem pending i i.isLt = some r → 0 < count →
      k.drainInput pid r.buf r.len = some (count, k') → I i k b →
      I (i + 1) { k'.complete ringPa r.userData count none with
        processes := Processes.clearPending k'.processes pid i } true) :
    ∀ (n : Nat), n ≤ maxPending → ∀ {k k' : Kernel} {b b' : Bool}, I (maxPending - n) k b →
      pollPendingFrom pid ringPa pending n k b = some (b', k') → I maxPending k' b'
  | 0, _, k, k', b, b', hI, h => by
    cases h
    exact hI
  | n + 1, hn, k, k', b, b', hI, h => by
    have hlt : maxPending - (n + 1) < maxPending := by omega
    have hnext : maxPending - n = maxPending - (n + 1) + 1 := by omega
    rw [pollPendingFrom, dif_pos hlt] at h
    have ih : ∀ {k₁ : Kernel} {b₁ : Bool}, I (maxPending - (n + 1) + 1) k₁ b₁ →
        pollPendingFrom pid ringPa pending n k₁ b₁ = some (b', k') → I maxPending k' b' :=
      hnext ▸ pollPendingFrom_invariant hnone hempty hdone n (by omega)
    cases hslot : pending[maxPending - (n + 1)] with
    | none =>
      rw [hslot] at h
      exact ih (hnone ⟨_, hlt⟩ _ _ hslot hI) h
    | some r =>
      rw [hslot] at h
      obtain ⟨⟨count, k₁⟩, hd, h⟩ := Option.bind_eq_some_iff.mp h
      rcases Nat.eq_zero_or_pos count with hzero | hpos
      · subst hzero
        exact ih (hempty ⟨_, hlt⟩ _ _ _ _ hslot hd hI) h
      · simp only [if_pos hpos, (complete_quiet ..).processes] at h
        exact ih (hdone ⟨_, hlt⟩ _ _ _ _ _ hslot hpos hd hI) h

/-- Beside the process table the loop changes memory, the input and the trace only. -/
theorem pollPendingFrom_quiet {pending : Vector (Option Pending) maxPending} {b b' : Bool}
    (h : pollPendingFrom pid ringPa pending maxPending k b = some (b', k')) :
    Quiet k { k' with processes := k.processes } := by
  refine pollPendingFrom_invariant (I := fun _ k₁ _ ↦ Quiet k { k₁ with processes := k.processes })
    (fun _ _ _ _ hI ↦ hI) (fun i k₁ k₂ b r hslot hd hI ↦ ?_)
    (fun i k₁ k₂ b r count hslot hpos hd hI ↦ ?_) maxPending le_rfl
    (.refl k : Quiet k { k with processes := k.processes }) h
  · have hq := (drainInput_delivered hd).quiet
    exact hI.trans ⟨hq.frames, rfl, hq.sched, hq.poller, hq.ticks, hq.installed, hq.ttbr0,
      hq.kernelL1, hq.kernelTtbr0, hq.programs⟩
  · have hq := (drainInput_delivered hd).quiet.trans
      (k₂.complete_quiet ringPa r.userData count none)
    exact hI.trans ⟨hq.frames, rfl, hq.sched, hq.poller, hq.ticks, hq.installed, hq.ttbr0,
      hq.kernelL1, hq.kernelTtbr0, hq.programs⟩

/-- The table keeps its length. -/
theorem pollPendingFrom_length {pending : Vector (Option Pending) maxPending} {b b' : Bool}
    (h : pollPendingFrom pid ringPa pending maxPending k b = some (b', k')) :
    k'.processes.length = k.processes.length := by
  refine pollPendingFrom_invariant
    (I := fun _ k₁ _ ↦ k₁.processes.length = k.processes.length)
    (fun _ _ _ _ hI ↦ hI) (fun i k₁ k₂ b r hslot hd hI ↦ ?_)
    (fun i k₁ k₂ b r count hslot hpos hd hI ↦ ?_) maxPending le_rfl rfl h
  · rw [(drainInput_delivered hd).quiet.processes, hI]
  · exact (List.length_modify ..).trans (by rw [(drainInput_delivered hd).quiet.processes, hI])

/-- Going to another space and back. -/
theorem activate_other (hsync : k.Synced) {root : Nat} (hroot : root ≠ 0) (hne : k.ttbr0 ≠ root) :
    k.activate root = { k with installed := root, ttbr0 := root } := by
  refine if_pos fun he ↦ ?_
  rcases hsync with h | h
  · exact hroot (he.symm.trans h)
  · exact hne (h.symm.trans he)

/-- What `poll_pending` does when there is a foreground process with a ring: in the space of that
process it goes through the snapshot of the parked reads, then it restores the live root, and it
wakes the process if it completed something. -/
theorem pollPending_cases (hsync : k.Synced)
    (hroots : ∀ {i : Nat} {p : Process}, k.processes[i]? = some p → p.ringPa ≠ 0 → p.ttbr0 ≠ 0)
    (h : k.pollPending = some k') :
    k' = k ∨ ∃ pid p i₁ k₂ completed i₃,
      Processes.foregroundPid k.processes = some pid ∧ k.processes[pid]? = some p ∧
      p.ringPa ≠ 0 ∧ (i₁ = 0 ∨ i₁ = p.ttbr0) ∧
      pollPendingFrom pid p.ringPa p.pending maxPending
        { k with installed := i₁, ttbr0 := p.ttbr0 } false = some (completed, k₂) ∧
      (i₃ = k.installed ∨ i₃ = k.ttbr0) ∧
      k' = { k₂ with
        installed := i₃
        ttbr0 := k.ttbr0
        processes := if completed then (Processes.takeWaiter k₂.processes pid).2 else k₂.processes
        sched := if completed
          then k₂.sched.wakeWaiter (Processes.takeWaiter k₂.processes pid).1 else k₂.sched } := by
  rw [pollPending] at h
  cases hfg : Processes.foregroundPid k.processes with
  | none =>
    rw [hfg] at h
    cases h
    exact .inl rfl
  | some pid =>
    rw [hfg] at h
    obtain ⟨p, hp, h⟩ := Option.bind_eq_some_iff.mp h
    split_ifs at h with hring
    · cases h
      exact .inl rfl
    · refine .inr ⟨pid, p, ?_⟩
      obtain ⟨⟨completed, k₂⟩, hloop, h⟩ := Option.bind_eq_some_iff.mp h
      -- the roots before and after the loop, in either case
      have hk₁ : ∃ i₁, (i₁ = 0 ∨ i₁ = p.ttbr0) ∧ (k.ttbr0 ≠ p.ttbr0 → i₁ = p.ttbr0) ∧
          (k.ttbr0 = p.ttbr0 → i₁ = k.installed) ∧
          (if k.ttbr0 ≠ p.ttbr0 then k.activate p.ttbr0 else k) =
            { k with installed := i₁, ttbr0 := p.ttbr0 } := by
        by_cases hne : k.ttbr0 = p.ttbr0
        · rw [if_neg (not_not.mpr hne), ← hne]
          exact ⟨k.installed, hsync, absurd rfl, fun _ ↦ rfl, rfl⟩
        · rw [if_pos hne]
          exact ⟨p.ttbr0, .inr rfl, fun _ ↦ rfl, (absurd · hne),
            activate_other hsync (hroots hp hring) hne⟩
      obtain ⟨i₁, hi₁, hswitch, hstay, hk₁⟩ := hk₁
      rw [hk₁] at hloop
      have hquiet := pollPendingFrom_quiet hloop
      have hins : k₂.installed = i₁ := hquiet.installed
      have hroot : k₂.ttbr0 = p.ttbr0 := hquiet.ttbr0
      have hk₃ : ∃ i₃, (i₃ = k.installed ∨ i₃ = k.ttbr0) ∧
          (if k.ttbr0 ≠ p.ttbr0 then k₂.activate k.ttbr0 else k₂) =
            { k₂ with installed := i₃, ttbr0 := k.ttbr0 } := by
        by_cases hne : k.ttbr0 = p.ttbr0
        · rw [if_neg (not_not.mpr hne), hne, ← hroot]
          exact ⟨k₂.installed, .inl (hins.trans (hstay hne)), rfl⟩
        · rw [if_pos hne]
          exact ⟨k.ttbr0, .inr rfl, if_pos (by rw [hins, hswitch hne]; exact Ne.symm hne)⟩
      obtain ⟨i₃, hi₃, hk₃⟩ := hk₃
      simp only [hk₃] at h
      refine ⟨i₁, k₂, completed, i₃, rfl, hp, hring, hi₁, hloop, hi₃, ?_⟩
      cases completed with
      | false =>
        cases h
        rfl
      | true =>
        simp only [Processes.takeWaiter, if_true] at h ⊢
        cases hw : k₂.processes[pid]?.bind (·.ringWaiter) with
        | none =>
          rw [hw] at h
          cases h
          rfl
        | some w =>
          rw [hw] at h
          cases h
          rfl

/-- `poll_pending` while the foreground process's own space is live. -/
theorem pollPending_own {p : Process} {k₂ : Kernel} {completed : Bool}
    (hfg : Processes.foregroundPid k.processes = some pid) (hp : k.processes[pid]? = some p)
    (hne : p.ringPa ≠ 0) (hroot : k.ttbr0 = p.ttbr0)
    (hloop : pollPendingFrom pid p.ringPa p.pending maxPending k false = some (completed, k₂)) :
    k.pollPending = some { k₂ with
      processes := if completed then (Processes.takeWaiter k₂.processes pid).2 else k₂.processes
      sched := if completed
        then k₂.sched.wakeWaiter (Processes.takeWaiter k₂.processes pid).1 else k₂.sched } := by
  rw [pollPending, hfg]
  dsimp only
  rw [hp, Option.bind_eq_bind, Option.bind_some, if_neg hne]
  simp only [hroot, ne_eq, not_true_eq_false, if_false, hloop, Option.bind_eq_bind,
    Option.bind_some]
  cases completed with
  | false => rfl
  | true =>
    simp only [Processes.takeWaiter, if_true]
    cases hw : k₂.processes[pid]?.bind (·.ringWaiter) with
    | none => rfl
    | some w => rfl

end Kernel

end Jatuli

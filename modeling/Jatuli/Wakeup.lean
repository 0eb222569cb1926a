import Jatuli.Bystanders
import Jatuli.Driving
import Jatuli.Races

/-!
# No completion is missed in `enter`

`enter` tests the number of unreaped completions, records its task and blocks, all under masked
interrupts; whoever posts a completion afterwards takes the recorded task and wakes it.  So a task
that is blocked in `enter` has fewer completions than it waits for, is recorded as waiting, and has
nothing left in its submission queue (`blocked_in_enter`).
-/

set_option autoImplicit false

namespace Jatuli

/-- What holds of a process whose task is in the wait loop of `enter`. -/
def WaitOk (m : Machine) (pid : Nat) : Prop :=
  ∀ ringPa minComplete, m.user (taskOf pid) = .inEnter ringPa minComplete →
    sqHead m.k.mem ringPa = sqTail m.k.mem ringPa ∧
      (m.k.sched.Blocked (taskOf pid) → m.k.unreaped ringPa < minComplete ∧
        ∀ p, m.k.processes[pid]? = some p → p.ringWaiter = some (taskOf pid))

section Waiting

variable {L : Layout} {m m' : Machine} {a : Act} {pid ringPa minComplete : Nat} {p : Process}

/-- A task comes into the wait loop, and stays there, with a ring only. -/
theorem ring_of_inEnter (hctl : Ctl m) (hm : Move m a m')
    (hpc : m'.user (taskOf pid) = .inEnter ringPa minComplete) :
    ∃ p, m.k.processes[pid]? = some p ∧ p.ringPa ≠ 0 := by
  have hbefore : m.user (taskOf pid) = .inEnter ringPa minComplete →
      ∃ p, m.k.processes[pid]? = some p ∧ p.ringPa ≠ 0 := by
    intro hpc
    have huser := hctl.user pid
    rw [hpc] at huser
    obtain ⟨t, p, -, -, hp, -, rfl, hne⟩ := huser
    exact ⟨p, hp, hne⟩
  have hgoto : ∀ {i : Nat} {q : Process} (pc : UserPc), AtUser m.k i q →
      pc ≠ .inEnter ringPa minComplete →
      (m.userGoto pc).user (taskOf pid) = .inEnter ringPa minComplete →
      ∃ p, m.k.processes[pid]? = some p ∧ p.ringPa ≠ 0 := by
    intro i q pc hu hne hpc
    by_cases hi : i = pid
    · subst hi
      rw [userGoto_self hu] at hpc
      exact absurd hpc hne
    · rw [userGoto_of_ne hu pc (Ne.symm hi)] at hpc
      exact hbefore hpc
  cases hm with
  | start hu _ => exact hgoto .el0 hu nofun hpc
  | @retest i r mc q hu hpc' =>
    by_cases hi : i = pid
    · subst hi
      have huser := hctl.user i
      rw [hpc'] at huser
      obtain ⟨t, p, -, -, hp, -, rfl, hne⟩ := huser
      exact ⟨p, hp, hne⟩
    · exact hbefore ((bystander_enterWait (m := m) hu hi r mc).2.symm.trans hpc)
  | @enter i mc q k' hu _ hring hs =>
    by_cases hi : i = pid
    · exact ⟨q, hi ▸ hu.entry, hring⟩
    · obtain ⟨-, q', hu', -⟩ :=
        Proceeds.enterSubmit hctl.orderly hctl.running (hctl.idle hu).2 hu hs
      exact hbefore ((bystander_enterWait (m := m) hu' hi q.ringPa mc).2.symm.trans hpc)
  | exit hact hu _ ht => exact hgoto .gone hu nofun hpc
  | _ => exact hbefore hpc

/-- A step in which the process has no part. -/
theorem WaitOk.bystander (h : WaitOk m pid) (hctl : Ctl m) (hp : m.k.processes[pid]? = some p)
    (hring : p.ringPa ≠ 0) (hb : Bystander pid m.k m'.k)
    (huser : m'.user (taskOf pid) = m.user (taskOf pid)) : WaitOk m' pid := by
  intro ringPa minComplete hpc
  rw [huser] at hpc
  have hin := hctl.user pid
  rw [hpc] at hin
  obtain ⟨t, q, -, -, hq, -, rfl, -⟩ := hin
  obtain rfl := Option.some.inj (hp.symm.trans hq)
  obtain ⟨hsq, hwait⟩ := h _ _ hpc
  have hpage := hb.page hp hring
  have hat := HeaderAt.of_eqOn hpage
  refine ⟨by rw [hat.sqHead, hat.sqTail, hsq], fun hblocked ↦ ?_⟩
  obtain ⟨hless, hwaiter⟩ := hwait (hb.blocked hblocked)
  refine ⟨by rwa [Kernel.unreaped_of_eqOn hpage], fun p' hp' ↦ ?_⟩
  obtain ⟨p'', hp'', -, hw⟩ := hb.entry hp
  obtain rfl := Option.some.inj (hp'.symm.trans hp'')
  rw [hw, hwaiter p hp]

/-- The wait loop, from its test on, once the queue has been drained. -/
theorem WaitOk.enterWait {k : Kernel} (hu : AtUser k pid p)
    (hsq : sqHead k.mem p.ringPa = sqTail k.mem p.ringPa) (mc : Nat) :
    WaitOk ({ m with k := k }.enterWait pid p.ringPa mc) pid := by
  intro ringPa minComplete hpc
  rcases enterWait_cases (m := { m with k := k }) hu p.ringPa mc with ⟨-, he⟩ | ⟨hless, he⟩
  · rw [he, userGoto_self (m := { m with k := k }) hu] at hpc
    cases hpc
  · have hgoto : (({ m with k := k } : Machine).userGoto (.inEnter p.ringPa mc)).user (taskOf pid) =
        .inEnter p.ringPa mc := userGoto_self (m := { m with k := k }) hu _
    rw [he] at hpc ⊢
    obtain ⟨rfl, rfl⟩ : p.ringPa = ringPa ∧ mc = minComplete := by
      rw [show _ = UserPc.inEnter p.ringPa mc from hgoto] at hpc
      cases hpc
      exact ⟨rfl, rfl⟩
    have hk : ∀ k₁ : Kernel, k₁.blockCurrent.mem = k₁.mem ∧
        k₁.blockCurrent.processes = k₁.processes := by
      intro k₁
      rw [Kernel.blockCurrent, Kernel.schedule_eq]
      exact ⟨rfl, rfl⟩
    obtain ⟨hmem, hps⟩ := hk { k with
      processes := Processes.setWaiter k.processes pid (taskOf pid) }
    refine ⟨?_, fun _ ↦ ⟨?_, fun p' hp' ↦ ?_⟩⟩
    · show sqHead (Kernel.mem _) _ = sqTail (Kernel.mem _) _
      rw [hmem]
      exact hsq
    · rw [Kernel.unreaped, hmem]
      exact hless
    · rw [hps] at hp'
      dsimp only at hp'
      rw [Processes.setWaiter, List.getElem?_modify_eq, hu.entry] at hp'
      obtain rfl := Option.some.inj hp'
      rfl

/-- `enter`: the drain empties the queue. -/
theorem MemOk.enterSubmit_empty (hmem : MemOk L m) (hctl : Ctl m) (hu : AtUser m.k pid p)
    (hring : p.ringPa ≠ 0) (hoff : p.loaded.OffRing) {k' : Kernel}
    (hs : m.k.enterSubmit pid p.ringPa = some k') :
    sqHead k'.mem p.ringPa = sqTail m.k.mem p.ringPa ∧
      sqTail k'.mem p.ringPa = sqTail m.k.mem p.ringPa := by
  obtain ⟨own, hinv⟩ := hmem.inv
  obtain ⟨k₁, hk₁, hd, -⟩ := hctl.orderly.enterSubmit (hctl.idle hu).2 hu.entry hs
  obtain ⟨h₁, hps₁, hr₁, -⟩ := lowered hinv hu hring hk₁
  have htail : sqTail k₁.mem p.ringPa = sqTail m.k.mem p.ringPa := by
    rcases hk₁ with rfl | rfl | rfl
    · rfl
    · exact sqTail_store_flags ..
    · exact sqTail_store_flags ..
  have hat := h₁.drain_header (hps₁ ▸ hu.entry) hring hoff hr₁ hd
  rw [hat.sqHead, hat.sqTail, htail]
  exact ⟨rfl, rfl⟩

/-- **One step** keeps what holds of waiting processes. -/
theorem WaitOk.move (h : WaitOk m pid) (hctl : Ctl m) (hmem : MemOk L m)
    (hoff : ∀ {i : Nat} {q : Process}, m.k.processes[i]? = some q → q.loaded.OffRing)
    (hm : Move m a m') : WaitOk m' pid := by
  intro ringPa minComplete hpc
  obtain ⟨p, hp, hring⟩ := ring_of_inEnter hctl hm hpc
  have hin : ∀ {r mc : Nat}, m.user (taskOf pid) = .inEnter r mc → r = p.ringPa := by
    intro r mc hpc
    have huser := hctl.user pid
    rw [hpc] at huser
    obtain ⟨t, q, -, -, hq, -, rfl, -⟩ := huser
    rw [Option.some.inj (hp.symm.trans hq)]
  rcases bystander_or_concerns hctl hmem hoff hp hring hm with ⟨hb, huser⟩ | hc
  · exact h.bystander hctl hp hring hb huser ringPa minComplete hpc
  cases hc with
  | start hu _ =>
    rw [userTask_self hu] at hpc
    cases hpc
  | retest hu hpc' => exact WaitOk.enterWait (m := m) hu (h _ _ hpc').1 _ _ _ hpc
  | store hu hpc' hs =>
    rw [show m.user (taskOf pid) = _ from hpc'] at hpc
    cases hpc
  | @enter mc k' hu hpc' hs =>
    obtain ⟨hhead, htail⟩ := hmem.enterSubmit_empty hctl hu hring (hoff hp) hs
    have hempty := hhead.trans htail.symm
    obtain ⟨-, p', hu', ht⟩ :=
      Proceeds.enterSubmit hctl.orderly hctl.running (hctl.idle hu).2 hu hs
    have hring' : p'.ringPa = p.ringPa := by rw [ht.rest]
    rw [← hring'] at hempty hpc ⊢
    exact WaitOk.enterWait (m := m) hu' hempty mc ringPa minComplete hpc
  | exit hu hpc' ht =>
    rw [show (m.userGoto .gone).user (taskOf pid) = .gone from userGoto_self hu _] at hpc
    cases hpc
  | drained hcur hpc' hd =>
    -- there is nothing to drain
    obtain rfl := hin hpc
    obtain rfl := drain_of_empty hp (h _ _ hpc).1 hd
    exact h _ _ hpc
  | @flagged on n i after hcur hpc' =>
    obtain rfl := hin hpc
    have hload : ∀ {off : Nat}, off + 4 ≤ offFlags →
        (m.k.ringStore p.ringPa offFlags 4 (Machine.flagValue on)).mem.load (p.ringPa + off) 4 =
          m.k.mem.load (p.ringPa + off) 4 := by
      intro off hoff
      rw [Kernel.ringStore_mem, Mem.load_store_disjoint (by omega)]
    obtain ⟨hsq, hwait⟩ := h _ _ hpc
    refine ⟨?_, fun hb ↦ ⟨?_, (hwait hb).2⟩⟩
    · rw [sqHead, sqTail, hload (by decide), hload (by decide)]
      exact hsq
    · rw [Kernel.unreaped, cqTail, cqHead, hload (by decide), hload (by decide)]
      exact (hwait hb).1
  | notified hn huser =>
    rw [huser] at hpc
    obtain rfl := hin hpc
    obtain ⟨hsq, hwait⟩ := h _ _ hpc
    refine ⟨by rw [hn.header.sqHead, hn.header.sqTail, hsq], fun hb ↦ ?_⟩
    obtain ⟨hb₀, hne⟩ := hn.woken hb
    exact absurd ((hwait hb₀).2 p hp) hne

end Waiting

/-- **No lost wakeup in `enter`.**  In every reachable state, a task that is blocked in
`enter(min_complete)` has fewer unreaped completions than it waits for, is the one recorded as
waiting, and its submission queue is empty. -/
theorem blocked_in_enter {programs : List (String × List UInt8)} {m : Machine}
    (hslot : ∀ q ∈ programs, Elf.InUserSlot q.2) (hoff : ∀ q ∈ programs, Elf.OffRing q.2)
    (h : (machine programs).Reach System.Free m) {pid ringPa minComplete : Nat}
    (hpc : m.user (taskOf pid) = .inEnter ringPa minComplete)
    (hb : m.k.sched.Blocked (taskOf pid)) :
    ∃ p, m.k.processes[pid]? = some p ∧ p.ringPa = ringPa ∧ ringPa ≠ 0 ∧
      m.k.unreaped ringPa < minComplete ∧ p.ringWaiter = some (taskOf pid) ∧
      sqHead m.k.mem ringPa = sqTail m.k.mem ringPa := by
  have hok : WaitOk m pid := by
    refine h.invariant_of (J := fun m ↦ (machine programs).Reach System.Free m)
      (I := fun m ↦ WaitOk m pid) (fun _ h ↦ h) ?_ ?_
    · rintro m ⟨mem, kernelEnd, ticks, k, -, -, rfl⟩
      exact nofun
    · intro m a m' hreach hI _ hs
      have hctl := ctl_of_reach hreach
      obtain ⟨L, hmem⟩ := memOk_of_reach hslot hreach
      exact hI.move hctl hmem (offRing_of_reach hoff hreach)
        (step_cases hctl.orderly hctl.running hs)
  have huser := (ctl_of_reach h).user pid
  rw [hpc] at huser
  obtain ⟨t, p, -, -, hp, -, hring, hne⟩ := huser
  obtain ⟨hsq, hwait⟩ := hok _ _ hpc
  obtain ⟨hless, hw⟩ := hwait hb
  exact ⟨p, hp, hring, hne, hless, hw p hp, hsq⟩

theorem shellOnly_offRing : ∀ q ∈ shellOnly, Elf.OffRing q.2 := by
  intro q hq loaded pgs hplan
  rw [List.mem_singleton.mp hq, plan_pageImage_userBase] at hplan
  obtain ⟨rfl, -⟩ := Prod.mk.inj (Option.some.inj hplan)
  intro rg hrg x hstart hstop
  rw [List.mem_singleton.mp hrg] at hstart hstop
  have hbase : userBase = 0x80_0000_0000 := rfl
  have hva : userRingVa = 0x80_0030_0000 := rfl
  dsimp only at hstart hstop
  omega

/-- The shell waits for a completion that nobody has posted. -/
theorem blocked_in_enter_shell : ∃ m p, (machine shellOnly).Reach System.Free m ∧
    m.user (taskOf 0) = .inEnter p.ringPa 1 ∧ m.k.sched.Blocked (taskOf 0) ∧
    m.k.processes[0]? = some p ∧ m.k.unreaped p.ringPa < 1 ∧ p.ringWaiter = some (taskOf 0) ∧
    sqHead m.k.mem p.ringPa = sqTail m.k.mem p.ringPa := by
  obtain ⟨m, p, h, hel0, -, ⟨hring, -⟩, hzero, -⟩ :=
    exists_ringed System.Free fun _ _ _ _ ↦ trivial
  have hu := h.atUser (p := p) rfl
  have hload : ∀ {off : Nat}, off + 4 ≤ 4096 → m.k.mem.load (p.ringPa + off) 4 = 0 :=
    load_of_zero_frame hzero
  have hstep := h.enter (p := p) rfl hel0 hring
    (by rw [flags, hload (by decide)]; rfl)
    (by rw [sqHead_of_zero hzero, sqTail_of_zero hzero]) 1
  have hless : m.k.unreaped p.ringPa < 1 := by
    rw [Kernel.unreaped, cqTail, cqHead, hload (by decide), hload (by decide)]
    decide
  rcases enterWait_cases hu p.ringPa 1 with ⟨hle, -⟩ | ⟨-, he⟩
  · omega
  rw [he] at hstep
  have hreach := reach_next _ h.reach trivial hstep
  have hpc : (m.userGoto (.inEnter p.ringPa 1)).user (taskOf 0) = .inEnter p.ringPa 1 :=
    userGoto_self hu _
  have hb : ({ m.k with processes := Processes.setWaiter m.k.processes 0 (taskOf 0) } :
      Kernel).blockCurrent.sched.Blocked (taskOf 0) := by
    refine ⟨{ Task.user 0 p.ttbr0 with wakeAt := u64Max, state := .blocked }, ?_, rfl⟩
    rw [Kernel.blockCurrent, Kernel.schedule_tasks]
    dsimp only
    rw [h.sched]
    rfl
  obtain ⟨q, hq, hring', -, hall⟩ :=
    blocked_in_enter shellOnly_inUserSlot shellOnly_offRing hreach hpc hb
  rw [← hring'] at hall
  exact ⟨_, q, hreach, hpc.trans (by rw [hring']), hb, hq, hall⟩

end Jatuli

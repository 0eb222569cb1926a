import Jatuli.MemoryRuns

/-!
# Stores to rings

Every store the kernel makes to a ring is recorded with the owner of that ring at the moment of the
store.  A system call stores to the ring of the process that makes it, and the report of an exit to
the ring of the parent; both look the ring up in the same masked section.  Only `set_all_wakeup`
reads the address in one step and stores in another, so for the poller it matters who ends in
between.
-/

set_option autoImplicit false

namespace Jatuli

/-! ## What the poller has read -/

/-- A process and the address of its ring, where the poller has read it and has not used it yet. -/
def PollerPc.ringRead : PollerPc → Option (Nat × Nat)
  | .scanHead _ i ringPa _ => some (i, ringPa)
  | .scanTail _ i ringPa _ _ => some (i, ringPa)
  | .flagsStore _ _ i ringPa _ => some (i, ringPa)
  | .rescanHead _ i ringPa => some (i, ringPa)
  | .rescanTail _ i ringPa _ => some (i, ringPa)
  | _ => none

/-- What the poller has read is the ring of that process for as long as it lives. -/
def ReadOk (m : Machine) : Prop :=
  ∀ i ringPa, m.poller.pc.ringRead = some (i, ringPa) →
    ∃ p, m.k.processes[i]? = some p ∧ ringPa ≠ 0 ∧ (p.live = true → p.ringPa = ringPa)

/-- The poller has what it has read from the table. -/
theorem ringRead_move {m m' : Machine} {a : Act} {i ringPa : Nat} (hm : Move m a m')
    (hread : m'.poller.pc.ringRead = some (i, ringPa)) :
    m.poller.pc.ringRead = some (i, ringPa) ∨
      ∃ p, m.k.processes[i]? = some p ∧ p.ringPa = ringPa ∧ ringPa ≠ 0 := by
  cases hm with
  | poller hcur hmove =>
    cases hmove with
    | scanRing hpc hi hp hring =>
      cases hread
      exact .inr ⟨_, hp, rfl, hring⟩
    | scanHead hpc =>
      rw [hpc]
      exact .inl hread
    | flagsRing hpc hi hp hring =>
      cases hread
      exact .inr ⟨_, hp, rfl, hring⟩
    | rescanRing hpc hi hp hring =>
      cases hread
      exact .inr ⟨_, hp, rfl, hring⟩
    | rescanHead hpc =>
      rw [hpc]
      exact .inl hread
    | _ => cases hread
  | retest hu hpc =>
    rw [enterWait_poller] at hread
    exact .inl hread
  | enter hu hpc hring hs =>
    rw [enterWait_poller] at hread
    exact .inl hread
  | _ => exact .inl hread

theorem ReadOk.move {m m' : Machine} {a : Act} (hctl : Ctl m) (h : ReadOk m) (hm : Move m a m') :
    ReadOk m' := by
  intro i ringPa hread
  have hold : ∃ p, m.k.processes[i]? = some p ∧ ringPa ≠ 0 ∧
      (p.live = true → p.ringPa = ringPa) := by
    rcases ringRead_move hm hread with hread | ⟨p, hp, hring, hne⟩
    · exact h i ringPa hread
    · exact ⟨p, hp, hne, fun _ ↦ hring⟩
  obtain ⟨p, hp, hne, hring⟩ := hold
  obtain ⟨p', hp', hev⟩ := (hctl.evolves hm).entries hp
  refine ⟨p', hp', hne, fun hl' ↦ ?_⟩
  have hpa := hring (hev.live hl')
  rw [hev.ring hl' (hpa ▸ hne), hpa]

theorem readOk_of_reach {programs : List (String × List UInt8)} {ok : Machine → Act → Prop}
    {m : Machine} (h : (machine programs).Reach ok m) : ReadOk m := by
  refine h.invariant_of (J := Ctl) (I := ReadOk) (fun _ h ↦ ctl_of_reach h) ?_ ?_
  · rintro m ⟨mem, kernelEnd, ticks, k, -, hb, rfl⟩
    exact nofun
  · intro m a m' hctl hI _ hs
    exact hI.move hctl (step_cases hctl.orderly hctl.running hs)

/-! ## Stores go to rings that are in use -/

/-- When the poller stores the flags of the process it has come to, that process still lives. -/
def FlaggedLives (m : Machine) (a : Act) : Prop :=
  ∀ on n i ringPa after, m.poller.pc = .flagsStore on n i ringPa after → m.atPoller → a = .run →
    ∃ p, m.k.processes[i]? = some p ∧ p.live = true

/-- Every store to a ring so far was to the ring of a process that had not been torn down. -/
def StoresOwned (k : Kernel) : Prop := ∀ pa owner, Event.ringStore pa owner ∈ k.trace → owner ≠ none

theorem StoresOwned.move {m m' : Machine} {a : Act} (hctl : Ctl m) (hread : ReadOk m)
    (h : StoresOwned m.k) (hok : FlaggedLives m a) (hm : Move m a m') : StoresOwned m'.k := by
  have hnew := events_of_move (P := fun e ↦ ∀ pa owner, e = .ringStore pa owner → owner ≠ none)
    hctl hm
    (fun _ _ _ _ o e ho habout pa owner he ↦ by
      subst he
      rw [habout.2]
      exact ho)
    (fun on n i ringPa after hat ha hpc pa owner he ↦ by
      cases he
      obtain ⟨p, hp, hl⟩ := hok on n i ringPa after hpc hat ha
      obtain ⟨q, hq, hne, hring⟩ := hread i ringPa (by rw [hpc]; rfl)
      rw [hp] at hq
      obtain rfl := Option.some.inj hq
      rw [← hring hl] at hne ⊢
      exact Kernel.ringOwner_ne_none hp hl hne)
    (fun _ _ _ _ _ _ _ _ _ _ _ _ _ he ↦ by cases he)
    (fun _ _ _ _ _ _ _ he ↦ by cases he)
  intro pa owner he
  rcases hnew _ he with he | he
  · exact h pa owner he
  · exact he pa owner rfl

/-- The ring of a live process is found among its pages and nowhere else. -/
theorem Inv.use_of_ring {strict : Prop} {L : Layout} {own : Nat → Owner} {k : Kernel} {i : Nat}
    {p : Process} (h : Inv strict L own k) (hp : k.processes[i]? = some p) (hring : p.ringPa ≠ 0)
    {u : Use} (hu : k.HasUse p.ringPa u) :
    ∃ j, u = .page i j ∧ p.frames[j]? = some (userRingVa, p.ringPa) := by
  have hname := h.names_of_hasUse hu
  rw [(h.ofRing hp hring).2] at hname
  cases u with
  | page i' j =>
    obtain rfl : i = i' := hname
    obtain ⟨q, va, hq, -, hj⟩ := hu
    rw [hp] at hq
    obtain rfl := Option.some.inj hq
    obtain rfl : va = userRingVa :=
      h.frames_inj hp (List.mem_of_getElem? hj) ((h.proc hp).ring hring).1
    exact ⟨j, rfl, hj⟩
  | _ => cases hname

/-- **The kernel stores only to rings in use**, in a run in which the poller does not store the
flags of a process that has ended since it read where its ring is.  At each store the ring had an
owner; and in every state the ring of a process that has not been torn down is that and nothing
else: the frame is not free, not a table, and no other page of any process. -/
theorem ring_stores_owned {programs : List (String × List UInt8)} {m : Machine}
    (hslot : ∀ q ∈ programs, Elf.InUserSlot q.2) (h : (machine programs).Reach FlaggedLives m) :
    StoresOwned m.k ∧
      ∀ i p, m.k.processes[i]? = some p → p.live = true → p.ringPa ≠ 0 →
        m.k.ringOwner p.ringPa = some i ∧
        ∀ u, m.k.HasUse p.ringPa u →
          ∃ j, u = .page i j ∧ p.frames[j]? = some (userRingVa, p.ringPa) := by
  have howned : StoresOwned m.k := by
    refine h.invariant_of (J := fun m ↦ Ctl m ∧ ReadOk m) (I := fun m ↦ StoresOwned m.k)
      (fun _ h ↦ ⟨ctl_of_reach h, readOk_of_reach h⟩) ?_ ?_
    · rintro m ⟨mem, kernelEnd, ticks, k, -, hb, rfl⟩ pa owner he
      change Event.ringStore pa owner ∈ k.trace at he
      rw [(bootKernel_fresh hb).trace] at he
      cases he
    · rintro m a m' ⟨hctl, hread⟩ hI hok hs
      exact hI.move hctl hread hok (step_cases hctl.orderly hctl.running hs)
  obtain ⟨L, ⟨own, hinv⟩, -, -⟩ := memOk_of_reach hslot h
  exact ⟨howned, fun i p hp hl hring ↦
    ⟨hinv.ringOwner_eq hp hring, fun _ ↦ hinv.use_of_ring hp hring⟩⟩

/-- The poller has taken up a no-op of the shell and is about to clear its flag. -/
theorem exists_clearing (ok : Machine → Act → Prop) (hok : ∀ m a, AllLive m → ok m a) :
    ∃ m p, Scene shellOnly ok m [p] pollerTask ∧ m.user (taskOf 0) = .el0 ∧ p.live = true ∧
      p.ringPa ≠ 0 ∧ p.parent = none ∧ m.poller.pc = .flagsStore false 1 0 p.ringPa .stamp := by
  obtain ⟨m, p, h, hel0, hpc, -, hl, hring, hpar, hhead, htail, hnops, -⟩ := exists_found ok hok
  have hall : ∀ k l, k.processes = [p] → ok { m with k := k, poller := l } .run := by
    intro k l hk
    refine hok _ _ fun q hq ↦ ?_
    rw [show k.processes = [p] from hk] at hq
    rw [List.mem_singleton.mp hq, hl]
  obtain ⟨k₁, h₁⟩ := h.drains hall hpc rfl hl hring (by rw [htail, hhead]; rfl)
    (by rw [hhead]; exact hnops 0 (by decide))
  obtain ⟨k₂, l₂, h₂, hpc₂, -⟩ := Scene.clears
    (m := { m with k := k₁, poller := { m.poller with pc := .scan 1 1 true } })
    (fun k l hk ↦ hall k l hk) h₁ rfl rfl le_rfl hring
  exact ⟨_, p, h₂, hel0, hl, hring, hpar, hpc₂⟩

/-- The poller clears the flag of the shell, which runs. -/
theorem ring_stores_owned_shell : ∃ m p, (machine shellOnly).Reach FlaggedLives m ∧
    m.k.processes = [p] ∧ p.live = true ∧ Event.ringStore p.ringPa (some 0) ∈ m.k.trace ∧
    StoresOwned m.k ∧ ∀ u, m.k.HasUse p.ringPa u → ∃ j, u = .page 0 j := by
  obtain ⟨m, p, h, -, hl, hring, -, hpc⟩ := exists_clearing (fun m _ ↦ AllLive m) fun _ _ h ↦ h
  have hflag : ∀ m a, ReadOk m → AllLive m → FlaggedLives m a := by
    intro m a hread hlive on n i ringPa after hpc _ _
    obtain ⟨q, hq, -⟩ := hread i ringPa (by rw [hpc]; rfl)
    exact ⟨q, hq, hlive q (List.mem_of_getElem? hq)⟩
  have hreach := h.reach.mono_of (J := ReadOk) (fun _ hs ↦ readOk_of_reach hs) hflag
  have hcur : m.atPoller := by rw [Machine.atPoller, h.sched]
  have hstep : m.step .run = some { m with
      k := m.k.ringStore p.ringPa offFlags 4 0
      poller := { m.poller with pc := .flagsScan false 1 1 .stamp } } := by
    rw [Machine.step_poller hcur, Machine.pollerStep, hpc]
    rfl
  have hreach' := reach_next .run hreach (hflag m _ (readOk_of_reach h.reach) (h.allLive hl)) hstep
  obtain ⟨howned, huse⟩ := ring_stores_owned shellOnly_inUserSlot hreach'
  have hp : m.k.processes[0]? = some p := by rw [h.processes]; rfl
  obtain ⟨howner, huse⟩ := huse 0 p hp hl hring
  refine ⟨_, p, hreach', h.processes, hl, ?_, howned, fun u hu ↦ ?_⟩
  · have howner : m.k.ringOwner p.ringPa = some 0 := howner
    rw [← howner]
    exact List.mem_cons_self
  · obtain ⟨j, hj, -⟩ := huse u hu
    exact ⟨j, hj⟩

/-- The poller has read where the ring of the shell is, the shell exits, and the poller stores to a
page that is no ring any more. -/
theorem freed_ring_stored : ∃ m pa, (machine shellOnly).Reach System.Free m ∧
    Event.ringStore pa none ∈ m.k.trace ∧ ¬ StoresOwned m.k := by
  obtain ⟨m, p, h, hel0, hl, hring, hpar, hpc⟩ := exists_clearing System.Free fun _ _ _ ↦ trivial
  obtain ⟨m', hreach, hcur, hpoll, hps, -, -⟩ := h.ends hel0 hpar 0
  have hstep : m'.step .run = some { m' with
      k := m'.k.ringStore p.ringPa offFlags 4 0
      poller := { m'.poller with pc := .flagsScan false 1 1 .stamp } } := by
    have hpc' : m'.poller.pc = .flagsStore false 1 0 p.ringPa .stamp := by rw [hpoll, hpc]
    rw [Machine.step_poller hcur, Machine.pollerStep, hpc']
    rfl
  have hnone : m'.k.ringOwner p.ringPa = none := by
    rw [Kernel.ringOwner, if_neg hring, hps]
    rfl
  have hmem : Event.ringStore p.ringPa none ∈ (m'.k.ringStore p.ringPa offFlags 4 0).trace := by
    rw [← hnone]
    exact List.mem_cons_self
  exact ⟨_, p.ringPa, reach_next .run hreach trivial hstep, hmem, fun hown ↦ hown _ _ hmem rfl⟩

end Jatuli

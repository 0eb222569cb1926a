import Jatuli.Polling

/-!
# What is done on behalf of a process

Carrying out the submissions of a process and completing its parked reads, seen from the tables:
`Served pid` relates the kernel before and after.  It says nothing about memory, and needs nothing
to be known about it; what becomes of memory is the subject of `Jatuli.Confinement`.
-/

set_option autoImplicit false

namespace Jatuli

/-- How the entry of process `i` may change on behalf of process `pid`: its own parked reads, and
the parked wait of a child. -/
structure Touched (pid i : Nat) (p p' : Process) : Prop where
  rest : p' = { p with pending := p'.pending, exitWaiter := p'.exitWaiter }
  pending : i ≠ pid → p'.pending = p.pending
  exitWaiter : p'.exitWaiter ≠ p.exitWaiter → p.parent = some pid

theorem Touched.refl (pid i : Nat) (p : Process) : Touched pid i p p :=
  ⟨rfl, fun _ ↦ rfl, fun h ↦ absurd rfl h⟩

theorem Touched.foreground {pid i : Nat} {p p' : Process} (h : Touched pid i p p') :
    p'.foreground = p.foreground := by rw [h.rest]

theorem Touched.parent {pid i : Nat} {p p' : Process} (h : Touched pid i p p') :
    p'.parent = p.parent := by rw [h.rest]

theorem Touched.trans {pid i : Nat} {p p' p'' : Process} (h : Touched pid i p p')
    (h' : Touched pid i p' p'') : Touched pid i p p'' where
  rest := by rw [h'.rest, h.rest]
  pending hi := (h'.pending hi).trans (h.pending hi)
  exitWaiter hne := by
    by_cases he : p'.exitWaiter = p.exitWaiter
    · rw [← h.parent]
      exact h'.exitWaiter (by rwa [he])
    · exact h.exitWaiter he

/-- A process just spawned by `pid`; a wait may be parked on it already. -/
structure Newborn (pid : Nat) (p : Process) : Prop where
  root : p.ttbr0 ≠ 0
  fresh : p = { Process.fresh p.ttbr0 p.loaded p.frames with
    parent := some pid, exitWaiter := p.exitWaiter }

theorem Newborn.touched {pid i : Nat} {p p' : Process} (h : Newborn pid p)
    (ht : Touched pid i p p') (hi : i ≠ pid) : Newborn pid p' := by
  rw [ht.rest, ht.pending hi]
  exact ⟨h.root, by rw [h.fresh]; rfl⟩

/-- The task of a process. -/
def Task.user (pid root : Nat) : Task :=
  { state := .runnable, wakeAt := 0, process := some pid, ttbr0 := some root }

/-- The tasks there were are unchanged, and each new process has got a new one. -/
structure Recruited (k k' : Kernel) : Prop where
  current : k'.sched.current = k.sched.current
  old : ∀ {t : Nat}, t < k.sched.tasks.length → k'.sched.tasks[t]? = k.sched.tasks[t]?
  new : ∀ j : Nat, k'.sched.tasks[k.sched.tasks.length + j]? =
    k'.processes[k.processes.length + j]?.map fun p ↦ Task.user (k.processes.length + j) p.ttbr0

namespace Recruited

variable {k k' k'' : Kernel}

theorem of_eq (hs : k'.sched = k.sched) (hps : k'.processes.length = k.processes.length) :
    Recruited k k' where
  current := by rw [hs]
  old _ := by rw [hs]
  new j := by
    rw [hs, List.getElem?_eq_none (Nat.le_add_right _ _),
      List.getElem?_eq_none (hps.le.trans (Nat.le_add_right _ _)), Option.map_none]

theorem currentProcess (h : Recruited k k') {t : Task}
    (ht : k.sched.tasks[k.sched.current]? = some t) :
    k'.sched.currentProcess = k.sched.currentProcess := by
  rw [Scheduler.currentProcess, Scheduler.currentProcess, Scheduler.currentTask,
    Scheduler.currentTask, h.current, h.old (List.getElem?_eq_some_iff.mp ht).1]

theorem length (h : Recruited k k') (hle : k.processes.length ≤ k'.processes.length) :
    k'.sched.tasks.length + k.processes.length = k.sched.tasks.length + k'.processes.length := by
  have hnone := h.new (k'.processes.length - k.processes.length)
  rw [List.getElem?_eq_none (l := k'.processes) (by omega), Option.map_none,
    List.getElem?_eq_none_iff] at hnone
  have hold : k.sched.tasks.length ≤ k'.sched.tasks.length := by
    by_contra hlt
    have hcut := h.old (Nat.lt_of_not_ge hlt)
    rw [List.getElem?_eq_none le_rfl, eq_comm, List.getElem?_eq_none_iff] at hcut
    omega
  rcases Nat.eq_or_lt_of_le hle with heq | hlt
  · omega
  · have hlast := h.new (k'.processes.length - k.processes.length - 1)
    rw [List.getElem?_eq_getElem (l := k'.processes) (by omega), Option.map_some] at hlast
    have := (List.getElem?_eq_some_iff.mp hlast).1
    omega

theorem trans (h : Recruited k k') (h' : Recruited k' k'')
    (hle : k.processes.length ≤ k'.processes.length)
    (hroot : ∀ {i : Nat} {p : Process}, k'.processes[i]? = some p →
      ∃ p', k''.processes[i]? = some p' ∧ p'.ttbr0 = p.ttbr0) : Recruited k k'' := by
  have hlen := h.length hle
  refine ⟨h'.current.trans h.current, fun ht ↦ (h'.old (by omega)).trans (h.old ht), fun j ↦ ?_⟩
  rcases Nat.lt_or_ge (k.processes.length + j) k'.processes.length with hlt | hge
  · have hp := List.getElem?_eq_getElem hlt
    obtain ⟨p', hp', hr⟩ := hroot hp
    rw [h'.old (by omega), h.new, hp, hp', Option.map_some, Option.map_some, hr]
  · have hnew := h'.new (k.processes.length + j - k'.processes.length)
    rwa [show k'.sched.tasks.length + (k.processes.length + j - k'.processes.length) =
        k.sched.tasks.length + j by omega,
      show k'.processes.length + (k.processes.length + j - k'.processes.length) =
        k.processes.length + j by omega] at hnew

end Recruited

/-- What may change in the tables on behalf of process `pid`. -/
structure Served (pid : Nat) (k k' : Kernel) : Prop where
  entries : ∀ {i : Nat} {p : Process}, k.processes[i]? = some p →
    ∃ p', k'.processes[i]? = some p' ∧ Touched pid i p p'
  fresh : ∀ {i : Nat} {p' : Process}, k.processes.length ≤ i → k'.processes[i]? = some p' →
    Newborn pid p'
  recruited : Recruited k k'
  poller : k'.poller = k.poller
  ttbr0 : k'.ttbr0 = k.ttbr0
  installed : k'.installed = k.installed
  kernelTtbr0 : k'.kernelTtbr0 = k.kernelTtbr0
  input : k'.input ≠ k.input → Processes.foregroundPid k.processes = some pid

namespace Served

variable {pid : Nat} {k k' k'' : Kernel}

/-- A change of memory only. -/
theorem of_quiet (hq : Quiet k k')
    (hin : k'.input ≠ k.input → Processes.foregroundPid k.processes = some pid) :
    Served pid k k' where
  entries {i p} hp := ⟨p, by rw [hq.processes, hp], .refl _ _ _⟩
  fresh {i p'} hi hp' := by
    rw [hq.processes, List.getElem?_eq_none hi] at hp'
    cases hp'
  recruited := .of_eq hq.sched (by rw [hq.processes])
  poller := hq.poller
  ttbr0 := hq.ttbr0
  installed := hq.installed
  kernelTtbr0 := hq.kernelTtbr0
  input := hin

theorem refl (pid : Nat) (k : Kernel) : Served pid k k := of_quiet (.refl k) (absurd rfl)

/-- The process table does not shrink. -/
theorem length_le (h : Served pid k k') :
    k.processes.length ≤ k'.processes.length := by
  by_contra hlt
  have hlt : k'.processes.length < k.processes.length := by omega
  obtain ⟨p', hp', -⟩ := h.entries (List.getElem?_eq_getElem hlt)
  rw [List.getElem?_eq_none le_rfl] at hp'
  cases hp'

/-- New processes are children of `pid`. -/
theorem parentsBelow (h : Served pid k k') {p : Process}
    (hp : k.processes[pid]? = some p) (hpar : k.ParentsBelow) : k'.ParentsBelow := by
  intro i q j hq hj
  rcases Nat.lt_or_ge i k.processes.length with hlt | hge
  · obtain ⟨q', hq', ht⟩ := h.entries (List.getElem?_eq_getElem hlt)
    rw [hq] at hq'
    cases hq'
    exact hpar i _ j (List.getElem?_eq_getElem hlt) (by rw [← ht.parent, hj])
  · rw [(h.fresh hge hq).fresh] at hj
    cases hj
    exact Nat.lt_of_lt_of_le (List.getElem?_eq_some_iff.mp hp).1 hge

/-- Who owns the keyboard does not change. -/
theorem foregroundPid (h : Served pid k k') :
    Processes.foregroundPid k'.processes = Processes.foregroundPid k.processes := by
  have hold : ∀ {i : Nat} (hi : i < k.processes.length) (hi' : i < k'.processes.length),
      k'.processes[i].foreground = k.processes[i].foreground := by
    intro i hi hi'
    obtain ⟨p', hp', ht⟩ := h.entries (List.getElem?_eq_getElem hi)
    rw [List.getElem?_eq_getElem hi'] at hp'
    rw [Option.some.inj hp', ht.foreground]
  have hlen := h.length_le
  rw [Processes.foregroundPid, Processes.foregroundPid]
  cases hfg : k.processes.findIdx? (·.foreground) with
  | some i =>
    obtain ⟨hi, hfi, hbefore⟩ := List.findIdx?_eq_some_iff_getElem.mp hfg
    refine List.findIdx?_eq_some_iff_getElem.mpr ⟨by omega, ?_, fun j hj ↦ ?_⟩
    · rwa [hold hi]
    · rw [hold (by omega)]
      exact hbefore j hj
  | none =>
    refine List.findIdx?_eq_none_iff.mpr fun p' hmem ↦ ?_
    obtain ⟨i, hi', rfl⟩ := List.getElem_of_mem hmem
    rcases Nat.lt_or_ge i k.processes.length with hlt | hge
    · rw [hold hlt]
      exact List.findIdx?_eq_none_iff.mp hfg _ (List.getElem_mem hlt)
    · rw [(h.fresh hge (List.getElem?_eq_getElem hi')).fresh]
      rfl

theorem trans {p : Process} (hp : k.processes[pid]? = some p) (h : Served pid k k')
    (h' : Served pid k' k'') : Served pid k k'' where
  entries {i q} hq := by
    obtain ⟨q', hq', ht⟩ := h.entries hq
    obtain ⟨q'', hq'', ht'⟩ := h'.entries hq'
    exact ⟨q'', hq'', ht.trans ht'⟩
  fresh {i q''} hi hq'' := by
    rcases Nat.lt_or_ge i k'.processes.length with hlt | hge
    · obtain ⟨q', hq', ht⟩ := h'.entries (List.getElem?_eq_getElem hlt)
      rw [hq''] at hq'
      cases hq'
      have hpid := (List.getElem?_eq_some_iff.mp hp).1
      exact (h.fresh hi (List.getElem?_eq_getElem hlt)).touched ht (by omega)
    · exact h'.fresh hge hq''
  recruited := h.recruited.trans h'.recruited h.length_le fun hq ↦ by
    obtain ⟨q', hq', ht⟩ := h'.entries hq
    exact ⟨q', hq', by rw [ht.rest]⟩
  poller := h'.poller.trans h.poller
  ttbr0 := h'.ttbr0.trans h.ttbr0
  installed := h'.installed.trans h.installed
  kernelTtbr0 := h'.kernelTtbr0.trans h.kernelTtbr0
  input hne := by
    by_cases he : k'.input = k.input
    · rw [← h.foregroundPid]
      exact h'.input (by rwa [he])
    · exact h.input he

/-- The entry of `pid` keeps its ring. -/
theorem ring (h : Served pid k k') {p : Process} (hp : k.processes[pid]? = some p) :
    ∃ p', k'.processes[pid]? = some p' ∧ p'.ringPa = p.ringPa := by
  obtain ⟨p', hp', ht⟩ := h.entries hp
  exact ⟨p', hp', by rw [ht.rest]⟩

/-- A permitted change of one entry of the table. -/
theorem of_set {i : Nat} {q q' : Process} (hq : k.processes[i]? = some q)
    (ht : Touched pid i q q') : Served pid k { k with processes := k.processes.set i q' } := by
  have hi : i < k.processes.length := (List.getElem?_eq_some_iff.mp hq).1
  refine ⟨fun {j r} hj ↦ ?_, fun {j r} hj hr ↦ ?_, .of_eq rfl (List.length_set ..), rfl, rfl, rfl,
    rfl, absurd rfl⟩
  · by_cases hij : i = j
    · subst hij
      rw [hq] at hj
      cases hj
      exact ⟨q', List.getElem?_set_self hi, ht⟩
    · exact ⟨r, by rw [List.getElem?_set_ne hij, hj], .refl _ _ _⟩
  · rw [List.getElem?_eq_none (by rwa [List.length_set])] at hr
    cases hr

/-- A new process, child of `pid`. -/
theorem spawned {root : Nat} (hroot : root ≠ 0) {phys : Phys} {uart : Uart} {loaded : Loaded}
    {frames : List (Nat × Nat)} : Served pid k { k with
      phys
      uart
      processes := k.processes ++ [{ Process.fresh root loaded frames with parent := some pid }]
      sched := k.sched.spawnInner (some k.processes.length) (some root) } := by
  refine ⟨fun {i q} hi ↦ ?_, fun {i q} hi hq ↦ ?_, ⟨rfl, fun ht ↦ ?_, fun j ↦ ?_⟩, rfl, rfl, rfl,
    rfl, absurd rfl⟩
  · refine ⟨q, ?_, .refl _ _ _⟩
    rw [List.getElem?_append_left (List.getElem?_eq_some_iff.mp hi).1, hi]
  · rw [List.getElem?_append_right hi, List.getElem?_singleton] at hq
    split at hq
    · cases hq
      exact ⟨hroot, rfl⟩
    · cases hq
  · exact List.getElem?_append_left ht
  · rw [Scheduler.spawnInner, List.getElem?_append_right (Nat.le_add_right _ _),
      List.getElem?_append_right (Nat.le_add_right _ _), Nat.add_sub_cancel_left,
      Nat.add_sub_cancel_left, List.getElem?_singleton, List.getElem?_singleton]
    split
    · rename_i hj
      subst hj
      rfl
    · rfl

end Served

/-- The allocator never hands out address 0. -/
theorem allocTable_ne_zero {s s' : Phys} {table : Nat} (h : allocTable s = some (table, s')) :
    table ≠ 0 := by
  rw [allocTable] at h
  obtain ⟨⟨frame, s₁⟩, hf, h⟩ := Option.bind_eq_some_iff.mp h
  cases h
  rw [Phys.allocFrame, Phys.pop] at hf
  split at hf
  · cases hf
  · rename_i hne
    cases hf
    exact hne

theorem newAddressSpace_ne_zero {s s' : Phys} {kernelL1 root : Nat}
    (h : newAddressSpace s kernelL1 = some (root, s')) : root ≠ 0 := by
  rw [newAddressSpace] at h
  obtain ⟨⟨table, s₁⟩, ht, h⟩ := Option.bind_eq_some_iff.mp h
  cases h
  exact allocTable_ne_zero ht

/-! ## The two loops -/

namespace Kernel

variable {k k' : Kernel} {pid : Nat} {p : Process}

theorem served_of_outcome {ringPa tag : Nat} {child : Option Nat}
    (hp : k.processes[pid]? = some p) (ho : SqeOutcome pid ringPa tag child k k') :
    Served pid k k' := by
  have hpost : ∀ {k₁ : Kernel} (result : Int) (c : Option Nat), Served pid k k₁ →
      Served pid k (k₁.complete ringPa tag result c) := fun result c h ↦
    h.trans hp (.of_quiet (complete_quiet ..) (absurd (complete_input ..)))
  cases ho with
  | completed result hchild hd hin => exact hpost result none (.of_quiet hd.quiet hin)
  | @parked k₁ q i r hchild hd hin hq hi htag =>
    have ht : Touched pid pid q { q with pending := q.pending.set i (some r) } :=
      ⟨rfl, fun hx ↦ absurd rfl hx, fun hx ↦ absurd rfl hx⟩
    rw [← hd.quiet.processes] at hq ⊢
    exact (Served.of_quiet hd.quiet hin).trans hp (.of_set hq ht)
  | @answered c q code hchild hq hparent hexit => exact hpost code (some c) (.refl pid k)
  | @waiting c q hchild hq hparent hexit =>
    rw [Processes.registerWait, modify_eq_set hq]
    exact .of_set hq ⟨rfl, fun _ ↦ rfl, fun _ ↦ hparent⟩
  | spawned hchild himage hroot hspace =>
    exact hpost _ none (.spawned (newAddressSpace_ne_zero hroot))

theorem processSqe_served (hp : k.processes[pid]? = some p) {addr : Nat}
    (h : k.processSqe pid addr = some k') : Served pid k k' := by
  obtain ⟨ringPa, child, -, ho⟩ := processSqe_cases h
  exact (Served.of_quiet (log_quiet ..) (absurd rfl)).trans hp
    (served_of_outcome (k := k.log _) hp ho)

theorem drain_served (hp : k.processes[pid]? = some p) (h : k.drain pid = some k') :
    Served pid k k' := by
  rw [drain, Processes.ringPa, hp, Option.map_some] at h
  simp only [Option.bind_eq_bind, Option.bind_some] at h
  split at h
  · cases h
    exact .refl pid _
  · refine drainFrom_invariant (I := Served pid k) (fun k₁ k₂ addr hI hs ↦ ?_) (fun k₁ v hI ↦ ?_) _
      (.refl pid k) h
    · obtain ⟨p₁, hp₁, -⟩ := hI.entries hp
      exact hI.trans hp (processSqe_served hp₁ hs)
    · exact hI.trans hp (.of_quiet (ringStore_quiet ..) (absurd rfl))

/-- The loop of `poll_pending`, for the foreground process. -/
theorem pollPendingFrom_served (hp : k.processes[pid]? = some p)
    (hfg : Processes.foregroundPid k.processes = some pid) {ringPa : Nat}
    {pending : Vector (Option Pending) maxPending} {b b' : Bool}
    (h : pollPendingFrom pid ringPa pending maxPending k b = some (b', k')) : Served pid k k' := by
  have hdeliver : ∀ {k₁ k₂ : Kernel} {r : Pending} {count : Nat}, Served pid k k₁ →
      k₁.drainInput pid r.buf r.len = some (count, k₂) → Served pid k k₂ := by
    intro k₁ k₂ r count hI hd
    exact hI.trans hp (.of_quiet (drainInput_delivered hd).quiet fun _ ↦ by
      rw [hI.foregroundPid, hfg])
  refine pollPendingFrom_invariant (I := fun _ k₁ _ ↦ Served pid k k₁) (fun _ _ _ _ hI ↦ hI)
    (fun i k₁ k₂ b r _ hd hI ↦ hdeliver hI hd) (fun i k₁ k₂ b r count _ _ hd hI ↦ ?_) maxPending
    le_rfl (.refl pid k) h
  have h₂ := hdeliver hI hd
  obtain ⟨p₂, hp₂, -⟩ := h₂.entries hp
  have hq := (k₂.complete_quiet ringPa r.userData count none).processes
  have h₃ : Served pid k (k₂.complete ringPa r.userData count none) :=
    h₂.trans hp (.of_quiet (complete_quiet ..) (absurd (complete_input ..)))
  have hp₃ : (k₂.complete ringPa r.userData count none).processes[pid]? = some p₂ := by
    rw [hq, hp₂]
  have ht : Touched pid pid p₂ { p₂ with pending := p₂.pending.set i none } :=
    ⟨rfl, fun hx ↦ absurd rfl hx, fun hx ↦ absurd rfl hx⟩
  have h₄ := h₃.trans hp (.of_set hp₃ ht)
  rwa [hq, ← modify_eq_set hp₂ (fun q ↦ { q with pending := q.pending.set i none })] at h₄

end Kernel

end Jatuli

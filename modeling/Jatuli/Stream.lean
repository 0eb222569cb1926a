import Jatuli.ReadLog

/-!
# Console input as a stream

The kernel at work, with a record of the bytes taken from the device and of what became of the
reads.  Only the first process is ever in the foreground, so its reads are the ones that get input;
to all others the queue is empty.

The result is about every run: what the reads of the first process were told they got, by the
completions in the trace, is, together with what is in the ring, what came in from the device
(`console_stream`).
-/

set_option autoImplicit false

namespace Jatuli

/-! ## The operations that read nothing -/

/-- How an entry of the table changes when nothing is read: not in what matters here, or the process
is torn down. -/
structure Unread (q q' : Process) : Prop where
  loaded : q'.loaded = q.loaded
  reads : q'.pending = q.pending ∧ q'.foreground = q.foreground ∧ q'.live = q.live ∧
      (q.ringPa ≠ 0 → q'.ringPa = q.ringPa) ∨
    q'.pending = Vector.replicate maxPending none ∧ q'.foreground = false ∧ q'.live = false

/-- An entry that has just been added. -/
structure Unused (q : Process) : Prop where
  pending : q.pending = Vector.replicate maxPending none
  foreground : q.foreground = false

/-- Nothing is read, for any process. -/
structure AllUnread (k k' : Kernel) : Prop where
  input : k'.input = k.input
  grows : k.trace <:+ k'.trace
  old : ∀ {i : Nat} {q : Process}, k.processes[i]? = some q →
    ∃ q', k'.processes[i]? = some q' ∧ Unread q q'
  new : ∀ {i : Nat} {q' : Process}, k.processes.length ≤ i → k'.processes[i]? = some q' → Unused q'

theorem Unread.refl (q : Process) : Unread q q := ⟨rfl, .inl ⟨rfl, rfl, rfl, fun _ ↦ rfl⟩⟩

section AllUnread

variable {L : Layout} {k k' : Kernel} {pid : Nat}

theorem AllUnread.of_processes (hin : k'.input = k.input) (hgrows : k.trace <:+ k'.trace)
    (hps : k'.processes = k.processes) : AllUnread k k' where
  input := hin
  grows := hgrows
  old {i q} hq := ⟨q, by rw [hps, hq], .refl q⟩
  new {i q'} hi hq' := by
    rw [hps, List.getElem?_eq_none hi] at hq'
    cases hq'

theorem AllUnread.modify {f : Process → Process} (hf : ∀ q, k.processes[pid]? = some q →
    Unread q (f q)) (hin : k'.input = k.input) (hgrows : k.trace <:+ k'.trace)
    (hps : k'.processes = k.processes.modify pid f) : AllUnread k k' where
  input := hin
  grows := hgrows
  old {i q} hq := by
    rw [hps, List.getElem?_modify, hq]
    refine ⟨_, rfl, ?_⟩
    dsimp only
    split_ifs with hi
    · subst hi
      exact hf q hq
    · exact .refl q
  new {i q'} hi hq' := by
    rw [hps, List.getElem?_modify, List.getElem?_eq_none hi] at hq'
    cases hq'

theorem AllUnread.append {q : Process} (hq : Unused q) (hin : k'.input = k.input)
    (hgrows : k.trace <:+ k'.trace) (hps : k'.processes = k.processes ++ [q]) :
    AllUnread k k' where
  input := hin
  grows := hgrows
  old {i q'} hq' := by
    refine ⟨q', ?_, .refl q'⟩
    rw [hps, List.getElem?_append_left (List.getElem?_eq_some_iff.mp hq').1, hq']
  new {i q'} hi hq' := by
    rw [hps, List.getElem?_append_right hi, List.getElem?_singleton] at hq'
    split_ifs at hq'
    exact Option.some.inj hq' ▸ hq

/-- Something that leaves the table alone comes first. -/
theorem AllUnread.same_then {k₁ : Kernel} (h : AllUnread k k₁) (hps : k₁.processes = k.processes)
    (h' : AllUnread k₁ k') : AllUnread k k' where
  input := h'.input.trans h.input
  grows := h.grows.trans h'.grows
  old := by
    rw [← hps]
    exact h'.old
  new := by
    rw [← hps]
    exact h'.new

end AllUnread

/-- An operation that may have to do with reads. -/
def ServeOp.Reads : ServeOp → Prop
  | .foreground | .drain _ | .uart _ => True
  | _ => False

section Unread

variable {L : Layout} {k k' : Kernel} {pid : Nat}

theorem AllUnread.activate (k : Kernel) (root : Nat) : AllUnread k (k.activate root) :=
  .of_processes (by rw [k.activate_eq]) (by rw [k.activate_trace]) (k.activate_processes root)

/-- The entry of a process that is torn down, and of all others. -/
theorem ExitReport.unread {p : Process} {code : Int} (hp : k.processes[pid]? = some p)
    (hne : p.parent ≠ some pid) (hrep : ExitReport pid p code
      { k with processes := k.processes.set pid (p.exited code) } k') {i : Nat} {q : Process}
    (hq : k.processes[i]? = some q) :
    ∃ q', (k'.processes.set pid (p.husk code))[i]? = some q' ∧ Unread q q' := by
  by_cases hi : i = pid
  · subst hi
    obtain rfl := Option.some.inj (hp.symm.trans hq)
    exact ⟨_, ExitReport.getElem?_husk hp hne hrep, rfl, .inr ⟨rfl, rfl, rfl⟩⟩
  · obtain ⟨q', hq', rfl | rfl⟩ := ExitReport.entry_of_ne hrep hi hq
    · exact ⟨_, hq', .refl _⟩
    · exact ⟨_, hq', rfl, .inl ⟨rfl, rfl, rfl, fun _ ↦ rfl⟩⟩

theorem ExitReport.input {p : Process} {code : Int} (hrep : ExitReport pid p code k k') :
    k'.input = k.input := by
  cases hrep with
  | silent h => rfl
  | answered htag hparent hq hring => exact k.complete_input ..
  | lost htag hparent hq hring => rfl

theorem ExitReport.grows {p : Process} {code : Int} (hrep : ExitReport pid p code k k') :
    k.trace <:+ k'.trace := by
  cases hrep with
  | silent h => exact List.suffix_rfl
  | answered htag hparent hq hring => exact k.complete_suffix ..
  | lost htag hparent hq hring => exact List.suffix_rfl

/-- Tearing a process down reads nothing. -/
theorem Kernel.teardown_unread {p : Process} {code : Int} (hp : k.processes[pid]? = some p)
    (hne : p.parent ≠ some pid) (hs : k.teardown pid code = some k') : AllUnread k k' := by
  obtain ⟨k₁, msg, hrep, rfl⟩ := teardown_cases hp hne hs
  refine ⟨(AllUnread.activate _ _).input.trans hrep.input, hrep.grows.trans ?_, fun {i q} hq ↦ ?_,
    fun {i q'} hi hq' ↦ ?_⟩
  · show _ <:+ (activate _ _).trace
    rw [activate_trace]
  · rw [kprintln_processes, activate_processes]
    exact hrep.unread hp hne hq
  · have hlen : i < k.processes.length := by
      have hlt := (List.getElem?_eq_some_iff.mp hq').1
      rw [kprintln_processes, activate_processes, List.length_set, hrep.length,
        List.length_set] at hlt
      exact hlt
    omega

/-- **All other operations read nothing.** -/
theorem LifeInv.unread (h : LifeInv L k) {op : ServeOp} (hop : ¬ op.Reads)
    (hs : serveStep k op = some k') : AllUnread k k' := by
  cases op with
  | foreground | drain | uart => exact absurd trivial hop
  | create image =>
    rw [serveStep, lifeStep] at hs
    obtain ⟨⟨root, s₁⟩, -, hs⟩ := Option.bind_eq_some_iff.mp hs
    obtain ⟨⟨i, k₁⟩, hcreate, hs⟩ := Option.bind_eq_some_iff.mp hs
    obtain rfl := Option.some.inj hs
    obtain ⟨⟨loaded, frames, s₂⟩, -, hcreate⟩ := Option.bind_eq_some_iff.mp hcreate
    obtain ⟨rfl, rfl⟩ := Prod.mk.inj (Option.some.inj hcreate)
    exact .append (q := .fresh root loaded frames) ⟨rfl, rfl⟩ rfl List.suffix_rfl rfl
  | setup pid =>
    rw [serveStep, lifeStep] at hs
    obtain ⟨p, hp, hl, hs⟩ := Kernel.asProcess_eq_some hs
    obtain ⟨⟨own, hinv⟩, -, -⟩ := h.activate p.ttbr0
    have hact := AllUnread.activate k p.ttbr0
    rw [← k.activate_processes p.ttbr0] at hp
    rcases hinv.setupRing hp hl hs with ⟨-, rfl⟩ | ⟨hring, own', frame, phys, rfl, -⟩
    · exact hact
    · refine .modify
        (f := fun q ↦ { q with ringPa := frame, frames := q.frames ++ [(userRingVa, frame)] })
        (fun q (hq : k.processes[pid]? = some q) ↦ ?_) hact.input hact.grows ?_
      · rw [k.activate_processes, hq] at hp
        obtain rfl := Option.some.inj hp
        exact ⟨rfl, .inl ⟨rfl, rfl, rfl, fun hne ↦ absurd hring hne⟩⟩
      · rw [← k.activate_processes p.ttbr0]
        rfl
  | store pid va n v =>
    rw [serveStep, lifeStep] at hs
    obtain ⟨p, hp, hl, hs⟩ := Kernel.asProcess_eq_some hs
    rw [Machine.userStore, Option.ite_none_right_eq_some] at hs
    obtain ⟨pa, -, rfl⟩ := Option.map_eq_some_iff.mp hs.2
    have hact := AllUnread.activate k p.ttbr0
    exact .of_processes hact.input hact.grows (k.activate_processes p.ttbr0)
  | wakeup pid on =>
    obtain ⟨p, -, hs⟩ := Option.bind_eq_some_iff.mp hs
    rw [Option.ite_none_left_eq_some] at hs
    obtain rfl := Option.some.inj hs.2
    exact .of_processes rfl (List.suffix_cons _ _) rfl
  | wait pid task =>
    obtain rfl := Option.some.inj hs
    exact .modify (f := fun q ↦ { q with ringWaiter := some task })
      (fun q (_ : k.processes[pid]? = some q) ↦ ⟨rfl, .inl ⟨rfl, rfl, rfl, fun _ ↦ rfl⟩⟩) rfl
      List.suffix_rfl rfl
  | teardown pid code =>
    rw [serveStep, lifeStep] at hs
    obtain ⟨p, hp, hl, hs⟩ := Kernel.asProcess_eq_some hs
    have hne : p.parent ≠ some pid := fun he ↦ Nat.lt_irrefl _ (h.parents pid p pid hp he)
    rw [← k.activate_processes p.ttbr0] at hp
    exact (AllUnread.activate k p.ttbr0).same_then (k.activate_processes _)
      (Kernel.teardown_unread hp hne hs)
  | dispatch sched poller ticks root =>
    obtain rfl := Option.some.inj hs
    have hact := AllUnread.activate k root
    exact .of_processes hact.input hact.grows (k.activate_processes root)
  | message s =>
    obtain rfl := Option.some.inj hs
    exact .of_processes rfl List.suffix_rfl rfl

end Unread

/-! ## The operations that may read -/

/-- How the table changes when reads of process `pid` are served. -/
structure Reread (pid : Nat) (k k' : Kernel) : Prop where
  old : ∀ {i : Nat} {q : Process}, k.processes[i]? = some q → ∃ q', k'.processes[i]? = some q' ∧
    q'.loaded = q.loaded ∧ q'.foreground = q.foreground ∧ q'.live = q.live ∧
    q'.ringPa = q.ringPa ∧ (i ≠ pid → q'.pending = q.pending)
  new : ∀ {i : Nat} {q' : Process}, k.processes.length ≤ i → k'.processes[i]? = some q' → Unused q'

section Reread

variable {L : Layout} {k k' : Kernel} {pid : Nat}

theorem Served.reread (h : Served pid k k') : Reread pid k k' where
  old hq := by
    obtain ⟨q', hq', ht⟩ := h.entries hq
    refine ⟨q', hq', by rw [ht.rest], ht.foreground, ?_, by rw [ht.rest], ht.pending⟩
    rw [Process.live, Process.live, ht.rest]
  new hi hq' := by
    have hfresh := (h.fresh hi hq').fresh
    exact ⟨by rw [hfresh]; rfl, by rw [hfresh]; rfl⟩

/-- Taking a waiter changes nothing in this. -/
theorem Reread.takeWaiter {k₁ : Kernel} (h : Reread pid k k₁) (i : Nat)
    (hps : k'.processes = k₁.processes ∨ k'.processes = (Processes.takeWaiter k₁.processes i).2) :
    Reread pid k k' := by
  rcases hps with hps | hps
  · exact ⟨by rw [hps]; exact h.old, by rw [hps]; exact h.new⟩
  · rw [Processes.takeWaiter] at hps
    refine ⟨fun {j q} hq ↦ ?_, fun {j q'} hj hq' ↦ ?_⟩
    · obtain ⟨q₁, hq₁, hrest⟩ := h.old hq
      rw [hps, List.getElem?_modify, hq₁]
      refine ⟨_, rfl, ?_⟩
      dsimp only
      split_ifs
      · exact hrest
      · exact hrest
    · rw [hps, List.getElem?_modify] at hq'
      obtain ⟨q₁, hq₁, rfl⟩ := Option.map_eq_some_iff.mp hq'
      have := h.new hj hq₁
      split_ifs
      · exact ⟨this.pending, this.foreground⟩
      · exact this

end Reread

/-- **What an operation does with reads and input**: nothing; the first process gets the keyboard; a
ring is drained; or input comes in, and the parked reads of the foreground process, if there is one
with a ring, are gone through. -/
inductive ReadStep (k : Kernel) (op : ServeOp) (k' : Kernel) : Prop
  | unread (h : AllUnread k k') (hget : k.getcs op = []) (hfg : k.foregroundEvents op = [])
      (hbg : k.backgroundEvents op = [])
  | foreground {p : Process} (hp : k.processes = [p]) (hl : p.live = true) (hring : p.ringPa = 0)
      (hp' : k'.processes = [{ p with foreground := true }]) (hin : k'.input = k.input)
      (hget : k.getcs op = []) (hfg : k.foregroundEvents op = [])
      (hbg : k.backgroundEvents op = []) (htrace : k'.trace = k.trace)
  | drain {pid : Nat} {p p' : Process} (hp : k.processes[pid]? = some p)
      (hp' : k'.processes[pid]? = some p') (ht : Reread pid k k')
      (hring : p.ringPa = 0 → k.drainedEvents pid = [])
      (hin : Processes.foregroundPid k.processes ≠ some pid → k'.input = k.input)
      (h : Parked.Steps (readRules p.loaded) (k.reader pid p) (k.drainedEvents pid)
        (k'.reader pid p')) (hget : k.getcs op = [])
      (hfg : k.foregroundEvents op =
        if Processes.foregroundPid k.processes = some pid then k.drainedEvents pid else [])
      (hbg : k.backgroundEvents op =
        if Processes.foregroundPid k.processes = some pid then [] else k.drainedEvents pid)
      (hrec : Recorded pid k (k.drainedEvents pid) k')
  | receive (hps : k'.processes = k.processes)
      (hno : ∀ {pid : Nat} {p : Process}, Processes.foregroundPid k.processes = some pid →
        k.processes[pid]? = some p → p.ringPa = 0)
      (hin : k'.input.contents = k.input.contents ++ k.getcs op)
      (hfg : k.foregroundEvents op = []) (hbg : k.backgroundEvents op = [])
      (htrace : k'.trace = k.trace)
  | poll {pid : Nat} {p p' : Process} (hforeground : Processes.foregroundPid k.processes = some pid)
      (hp : k.processes[pid]? = some p) (hring : p.ringPa ≠ 0)
      (hp' : k'.processes[pid]? = some p') (ht : Reread pid k k')
      (h : Parked.Scan (readRules p.loaded) ⟨k.input.contents ++ k.getcs op, p.pending⟩ maxPending
        (k.foregroundEvents op) ⟨k'.input.contents, p'.pending⟩) (hbg : k.backgroundEvents op = [])
      (hrec : Recorded pid k (k.foregroundEvents op) k')

/-- The same without a record of it, and for a drain in whatever space. -/
inductive ReadMove (k k' : Kernel) : Prop
  | unread (h : AllUnread k k')
  | foreground {p : Process} (hp : k.processes = [p]) (hl : p.live = true) (hring : p.ringPa = 0)
      (hp' : k'.processes = [{ p with foreground := true }])
  | drain {pid : Nat} {p p' : Process} {es : List ReadEvent} (hp : k.processes[pid]? = some p)
      (hp' : k'.processes[pid]? = some p') (ht : Reread pid k k') (hring : p.ringPa = 0 → es = [])
      (hin : Processes.foregroundPid k.processes ≠ some pid → k'.input = k.input)
      (h : Parked.Steps (readRules p.loaded) (k.reader pid p) es (k'.reader pid p'))
  | receive (hps : k'.processes = k.processes)
      (hno : ∀ {pid : Nat} {p : Process}, Processes.foregroundPid k.processes = some pid →
        k.processes[pid]? = some p → p.ringPa = 0)
  | poll {pid : Nat} {p p' : Process} {bytes : List UInt8} {es : List ReadEvent}
      (hforeground : Processes.foregroundPid k.processes = some pid)
      (hp : k.processes[pid]? = some p) (hring : p.ringPa ≠ 0)
      (hp' : k'.processes[pid]? = some p') (ht : Reread pid k k')
      (h : Parked.Scan (readRules p.loaded) ⟨bytes, p.pending⟩ maxPending es
        ⟨k'.input.contents, p'.pending⟩)

theorem ReadStep.move {k k' : Kernel} {op : ServeOp} (h : ReadStep k op k') : ReadMove k k' := by
  cases h with
  | unread hu => exact .unread hu
  | foreground hp hl hring hp' => exact .foreground hp hl hring hp'
  | drain hp hp' ht hring hin hsteps => exact .drain hp hp' ht hring hin hsteps
  | receive hps hno => exact .receive hps hno
  | poll hfg hp hring hp' ht hscan => exact .poll hfg hp hring hp' ht hscan

/-- What holds of reads between two operations. -/
structure ReadInv (k : Kernel) : Prop where
  /-- The keyboard belongs to the first process, or to nobody. -/
  first : ∀ {i : Nat} {q : Process}, k.processes[i]? = some q → q.foreground = true →
    i = 0 ∧ q.live = true
  /-- Parked reads belong to a process with a ring, and were accepted. -/
  parked : ∀ {i : Nat} {q : Process}, k.processes[i]? = some q →
    ∀ (j : Fin maxPending) (r : Pending), q.pending[j] = some r →
      q.ringPa ≠ 0 ∧ (readRules q.loaded).accepts r

section ReadStep

variable {strict : Prop} {L : Layout} {own : Nat → Owner} {k k' : Kernel} {pid : Nat}

/-- What `poll_pending` does with parked reads. -/
theorem Inv.poll_reads (hinv : Inv strict L own k) (hsync : k.Synced) (hread : ReadInv k)
    (hk : k.pollPending = some k') :
    (k' = k ∧ k.pollEvents = [] ∧ ∀ {pid : Nat} {p : Process},
      Processes.foregroundPid k.processes = some pid → k.processes[pid]? = some p → p.ringPa = 0) ∨
    ∃ pid p p', Processes.foregroundPid k.processes = some pid ∧ k.processes[pid]? = some p ∧
      p.ringPa ≠ 0 ∧ k'.processes[pid]? = some p' ∧ Reread pid k k' ∧
      Parked.Scan (readRules p.loaded) ⟨k.input.contents, p.pending⟩ maxPending k.pollEvents
        ⟨k'.input.contents, p'.pending⟩ ∧ Recorded pid k k.pollEvents k' := by
  rw [Kernel.pollPending] at hk
  rw [Kernel.pollEvents]
  cases hfg : Processes.foregroundPid k.processes with
  | none =>
    rw [hfg] at hk
    exact .inl ⟨(Option.some.inj hk).symm, rfl, by rintro _ _ ⟨⟩⟩
  | some pid =>
    rw [hfg] at hk
    obtain ⟨p, hp, hk⟩ := Option.bind_eq_some_iff.mp hk
    dsimp only at hk ⊢
    rw [hp]
    dsimp only
    by_cases hring : p.ringPa = 0
    · rw [if_pos hring] at hk ⊢
      refine .inl ⟨(Option.some.inj hk).symm, rfl, fun {i q} hi hq ↦ ?_⟩
      obtain rfl := Option.some.inj hi
      obtain rfl := Option.some.inj (hp.symm.trans hq)
      exact hring
    · rw [if_neg hring] at hk ⊢
      obtain ⟨⟨completed, k₂⟩, hloop, hk⟩ := Option.bind_eq_some_iff.mp hk
      -- the space the bytes are delivered in
      obtain ⟨k₁, hk₁⟩ : ∃ k₁ : Kernel,
        k₁ = if k.ttbr0 ≠ p.ttbr0 then k.activate p.ttbr0 else k := ⟨_, rfl⟩
      rw [← hk₁] at hloop ⊢
      have hl : p.live = true := (hinv.proc hp).live hring
      have hsame : k₁.processes = k.processes ∧ k₁.input = k.input ∧ k₁.trace = k.trace ∧
          k₁.ttbr0 = p.ttbr0 ∧ Inv strict L own k₁ := by
        rw [hk₁]
        split_ifs with hne
        · exact ⟨k.activate_processes _, (AllUnread.activate k _).input, k.activate_trace _,
            Kernel.activate_ttbr0 hsync (hinv.root_ne_zero hp hl),
            k.activate_eq p.ttbr0 ▸ hinv.of_mem_eq ⟨rfl, fun _ ↦ rfl, rfl, rfl, rfl⟩ rfl⟩
        · exact ⟨rfl, rfl, rfl, of_not_not hne, hinv⟩
      obtain ⟨hps, hin, htrace, hroot, hinv₁⟩ := hsame
      have hp₁ : k₁.processes[pid]? = some p := by rw [hps, hp]
      have hfg₁ : Processes.foregroundPid k₁.processes = some pid := by rw [hps, hfg]
      have hr₁ : k₁.roots (some pid) = some k₁.ttbr0 := by
        rw [hroot]
        exact Inv.root_of_live hp₁ hl
      obtain ⟨-, hc⟩ := hinv₁.pollPendingFrom hp₁ hring hr₁ hfg₁ hloop
      obtain ⟨p₂, hp₂, -, hscan, hrec⟩ := hinv₁.poll_scan hp₁ hring hr₁ hfg₁
        (fun i r hr ↦ (hread.parked hp i r hr).2) hloop
      rw [Kernel.reader, Kernel.reader, hc.foregroundPid, if_pos hfg₁, if_pos hfg₁, hin] at hscan
      have hreread : Reread pid k k₂ := by
        have := hc.toServed.reread
        exact ⟨by rw [← hps]; exact this.old, by rw [← hps]; exact this.new⟩
      -- afterwards the old space is back, and the process may be woken
      obtain ⟨k₃, hk₃⟩ : ∃ k₃ : Kernel,
        k₃ = if k.ttbr0 ≠ p.ttbr0 then k₂.activate k.ttbr0 else k₂ := ⟨_, rfl⟩
      rw [← hk₃] at hk
      have hsame₃ : k₃.processes = k₂.processes ∧ k₃.input = k₂.input ∧ k₃.trace = k₂.trace := by
        rw [hk₃]
        split_ifs
        · exact ⟨k₂.activate_processes _, (AllUnread.activate k₂ _).input, k₂.activate_trace _⟩
        · exact ⟨rfl, rfl, rfl⟩
      have hend : (k'.processes = k₂.processes ∨
          k'.processes = (Processes.takeWaiter k₂.processes pid).2) ∧ k'.input = k₂.input ∧
          k'.trace = k₂.trace := by
        rw [← hsame₃.1, ← hsame₃.2.1, ← hsame₃.2.2]
        split_ifs at hk
        · split at hk
          · rename_i hw
            obtain rfl := Option.some.inj hk
            exact ⟨.inr (congrArg Prod.snd hw).symm, rfl, rfl⟩
          · rename_i hw
            obtain rfl := Option.some.inj hk
            exact ⟨.inr (congrArg Prod.snd hw).symm, rfl, rfl⟩
        · obtain rfl := Option.some.inj hk
          exact ⟨.inl rfl, rfl, rfl⟩
      have hp' : ∃ p', k'.processes[pid]? = some p' ∧ p'.pending = p₂.pending := by
        rcases hend.1 with he | he
        · exact ⟨p₂, by rw [he, hp₂], rfl⟩
        · rw [he, Processes.takeWaiter, List.getElem?_modify, hp₂]
          exact ⟨_, congrArg some (if_pos rfl), rfl⟩
      obtain ⟨p', hp', hpend⟩ := hp'
      rw [← hpend, ← hend.2.1] at hscan
      exact .inr ⟨pid, p, p', rfl, hp, hring, hp', hreread.takeWaiter pid hend.1, hscan,
        .of_eq htrace (hrec.congr hend.2.2)⟩

/-- Draining the ring of a process. -/
theorem LifeInv.drain_reads (h : LifeInv L k) (hs : serveStep k (.drain pid) = some k') :
    ReadStep k (.drain pid) k' := by
  rw [serveStep, lifeStep] at hs
  obtain ⟨p, hp, hl, hs⟩ := Kernel.asProcess_eq_some hs
  obtain ⟨own, hinv⟩ := h.inv
  obtain ⟨k₁, hk₁⟩ : ∃ k₁ : Kernel, k₁ = k.activate p.ttbr0 := ⟨_, rfl⟩
  have hps : k₁.processes = k.processes := by rw [hk₁, k.activate_processes]
  have hin : k₁.input = k.input := by rw [hk₁, (AllUnread.activate k _).input]
  have hroot : k₁.ttbr0 = p.ttbr0 := by
    rw [hk₁, Kernel.activate_ttbr0 h.synced (hinv.root_ne_zero hp hl)]
  have hinv₁ : Inv True L own k₁ := by
    rw [hk₁, k.activate_eq]
    exact hinv.of_mem_eq ⟨rfl, fun _ ↦ rfl, rfl, rfl, rfl⟩ rfl
  have hevents : k.drainedEvents pid = k₁.drainEvents pid := by
    rw [Kernel.drainedEvents, hp, hk₁]
  rw [← hk₁] at hs
  have hp₁ : k₁.processes[pid]? = some p := by rw [hps, hp]
  have hr₁ : k₁.roots (some pid) = some k₁.ttbr0 := by
    rw [hroot]
    exact Inv.root_of_live hp₁ hl
  obtain ⟨own', -, hc⟩ := hinv₁.drain hp₁ hr₁ hs
  obtain ⟨p', hp', -, hsteps, hrec⟩ := hinv₁.drain_steps hp₁ hr₁ hs
  have hreader : k₁.reader pid p = k.reader pid p := Kernel.reader_congr (by rw [hps]) hin rfl
  rw [hreader, ← hevents] at hsteps
  rw [← hevents] at hrec
  have hreread : Reread pid k k' := by
    have := hc.toServed.reread
    exact ⟨by rw [← hps]; exact this.old, by rw [← hps]; exact this.new⟩
  refine .drain hp hp' hreread (fun hring ↦ ?_) (fun hfg ↦ ?_) hsteps rfl rfl rfl
    (.of_eq (by rw [hk₁, k.activate_trace]) hrec)
  · rw [hevents, Kernel.drainEvents, Processes.ringPa, hp₁]
    exact if_pos hring
  · rw [← hin]
    exact of_not_not fun hne ↦ hfg (hps ▸ hc.input hne)

/-- **Every operation is one of these.** -/
theorem LifeInv.readStep (h : LifeInv L k) (hread : ReadInv k) {op : ServeOp}
    (hs : serveStep k op = some k') : ReadStep k op k' := by
  by_cases hop : op.Reads
  · cases op with
    | foreground =>
      rw [serveStep] at hs
      split at hs
      · rename_i p hp
        rw [Option.ite_none_right_eq_some] at hs
        obtain rfl := Option.some.inj hs.2
        exact .foreground hp hs.1.1 hs.1.2 (by rw [hp]; rfl) rfl rfl rfl rfl rfl
      · cases hs
    | drain pid => exact h.drain_reads hs
    | uart bytes =>
      rw [serveStep, Option.ite_none_right_eq_some, uartIrq_eq] at hs
      have hin := k.received_contents bytes
      obtain ⟨⟨own, hinv⟩, hsync, -⟩ := h.received bytes
      rcases hinv.poll_reads hsync ⟨hread.first, hread.parked⟩ hs.2 with
        ⟨rfl, hevents, hno⟩ | ⟨pid, p, p', hfg, hp, hring, hp', ht, hscan, hrec⟩
      · exact .receive rfl hno hin hevents rfl rfl
      · rw [hin] at hscan
        exact .poll hfg hp hring hp' ⟨ht.old, ht.new⟩ hscan rfl
          (Recorded.of_eq (show (k.received bytes).trace = k.trace from rfl) hrec)
    | create | setup | store | wakeup | wait | teardown | dispatch | message => exact hop.elim
  · have hu := h.unread hop hs
    cases op with
    | foreground | drain | uart => exact absurd trivial hop
    | create | setup | store | wakeup | wait | teardown | dispatch | message =>
      exact .unread hu rfl rfl rfl

end ReadStep

/-! ## Who has the keyboard -/

section ReadInv

variable {k k' : Kernel} {op : ServeOp} {pid i : Nat} {q q' : Process}

theorem exists_of_foregroundPid {ps : List Process}
    (h : Processes.foregroundPid ps = some pid) :
    ∃ q : Process, ps[pid]? = some q ∧ q.foreground = true := by
  obtain ⟨hlt, hfg, -⟩ := List.findIdx?_eq_some_iff_getElem.mp h
  exact ⟨_, List.getElem?_eq_getElem hlt, hfg⟩

theorem foregroundPid_zero {ps : List Process} (hq : ps[0]? = some q) :
    Processes.foregroundPid ps = some 0 ↔ q.foreground = true := by
  refine ⟨fun h ↦ ?_, fun h ↦ ?_⟩
  · obtain ⟨q', hq', hfg⟩ := exists_of_foregroundPid h
    obtain rfl := Option.some.inj (hq.symm.trans hq')
    exact hfg
  · obtain ⟨hlt, rfl⟩ := List.getElem?_eq_some_iff.mp hq
    exact List.findIdx?_eq_some_iff_getElem.mpr ⟨hlt, h, fun j hj ↦ absurd hj (Nat.not_lt_zero j)⟩

theorem ReadInv.foregroundPid (h : ReadInv k)
    (hfg : Processes.foregroundPid k.processes = some pid) : pid = 0 := by
  obtain ⟨q, hq, hq'⟩ := exists_of_foregroundPid hfg
  exact (h.first hq hq').1

/-- The first process sees the input ring while it is in the foreground. -/
theorem reader_zero (hq : k.processes[0]? = some q) :
    k.reader 0 q = ⟨if q.foreground then k.input.contents else [], q.pending⟩ := by
  rw [Kernel.reader]
  congr 1
  exact if_congr (foregroundPid_zero hq) rfl rfl

theorem AllUnread.cases (h : AllUnread k k') (hq' : k'.processes[i]? = some q') :
    (∃ q, k.processes[i]? = some q ∧ Unread q q') ∨ k.processes.length ≤ i ∧ Unused q' := by
  rcases Nat.lt_or_ge i k.processes.length with hlt | hge
  · obtain ⟨q₁, hq₁, hu⟩ := h.old (List.getElem?_eq_getElem hlt)
    obtain rfl := Option.some.inj (hq'.symm.trans hq₁)
    exact .inl ⟨_, List.getElem?_eq_getElem hlt, hu⟩
  · exact .inr ⟨hge, h.new hge hq'⟩

theorem Reread.cases (h : Reread pid k k') (hq' : k'.processes[i]? = some q') :
    (∃ q, k.processes[i]? = some q ∧ q'.loaded = q.loaded ∧ q'.foreground = q.foreground ∧
      q'.live = q.live ∧ q'.ringPa = q.ringPa ∧ (i ≠ pid → q'.pending = q.pending)) ∨
    k.processes.length ≤ i ∧ Unused q' := by
  rcases Nat.lt_or_ge i k.processes.length with hlt | hge
  · obtain ⟨q₁, hq₁, hu⟩ := h.old (List.getElem?_eq_getElem hlt)
    obtain rfl := Option.some.inj (hq'.symm.trans hq₁)
    exact .inl ⟨_, List.getElem?_eq_getElem hlt, hu⟩
  · exact .inr ⟨hge, h.new hge hq'⟩

theorem Unused.not_parked (h : Unused q) (j : Fin maxPending) : q.pending[j] = none := by
  rw [h.pending]
  exact Vector.getElem_replicate j.isLt

/-- Without a ring there are no parked reads. -/
theorem ReadInv.not_parked (h : ReadInv k) (hq : k.processes[i]? = some q) (hring : q.ringPa = 0)
    (j : Fin maxPending) : q.pending[j] = none :=
  Option.eq_none_iff_forall_ne_some.mpr fun r hr ↦ (h.parked hq j r hr).1 hring

theorem ReadInv.unread (h : ReadInv k) (hu : AllUnread k k') : ReadInv k' where
  first {i q'} hq' hfg := by
    rcases hu.cases hq' with ⟨q, hq, -, ⟨-, hfg', hl, -⟩ | ⟨-, hfg', -⟩⟩ | ⟨-, hnew⟩
    · rw [hl]
      exact h.first hq (hfg' ▸ hfg)
    · exact absurd (hfg'.symm.trans hfg) nofun
    · exact absurd (hnew.foreground.symm.trans hfg) nofun
  parked {i q'} hq' j r hr := by
    rcases hu.cases hq' with ⟨q, hq, hl, ⟨hpend, -, -, hring⟩ | ⟨hpend, -⟩⟩ | ⟨-, hnew⟩
    · rw [hpend] at hr
      obtain ⟨hne, hacc⟩ := h.parked hq j r hr
      rw [hring hne, hl]
      exact ⟨hne, hacc⟩
    · rw [hpend] at hr
      exact absurd ((Vector.getElem_replicate j.isLt).symm.trans hr) nofun
    · exact absurd ((hnew.not_parked j).symm.trans hr) nofun

/-- When reads of a process are served, what is parked was parked before or is accepted. -/
theorem ReadInv.reread (h : ReadInv k) {p p' : Process} (hp : k.processes[pid]? = some p)
    (hp' : k'.processes[pid]? = some p') (ht : Reread pid k k')
    (hparked : ∀ (j : Fin maxPending) (r : Pending), p'.pending[j] = some r →
      p.pending[j] = some r ∨ p.ringPa ≠ 0 ∧ (readRules p.loaded).accepts r) : ReadInv k' where
  first {i q'} hq' hfg := by
    rcases ht.cases hq' with ⟨q, hq, -, hfg', hl, -⟩ | ⟨-, hnew⟩
    · rw [hl]
      exact h.first hq (hfg' ▸ hfg)
    · exact absurd (hnew.foreground.symm.trans hfg) nofun
  parked {i q'} hq' j r hr := by
    rcases ht.cases hq' with ⟨q, hq, hl, -, -, hring, hpend⟩ | ⟨-, hnew⟩
    · rw [hring, hl]
      by_cases hi : i = pid
      · subst hi
        obtain rfl := Option.some.inj (hp.symm.trans hq)
        obtain rfl := Option.some.inj (hp'.symm.trans hq')
        rcases hparked j r hr with hr | hr
        · exact h.parked hp j r hr
        · exact hr
      · rw [hpend hi] at hr
        exact h.parked hq j r hr
    · exact absurd ((hnew.not_parked j).symm.trans hr) nofun

theorem ReadInv.move (h : ReadInv k) (hs : ReadMove k k') : ReadInv k' := by
  cases hs with
  | unread hu => exact h.unread hu
  | @foreground p hp hl hring hp' =>
    have hp₀ : k.processes[0]? = some p := by rw [hp]; rfl
    have hnone := h.not_parked hp₀ hring
    refine ⟨fun {i q} hq _ ↦ ?_, fun {i q} hq j r hr ↦ ?_⟩
    all_goals
      rw [hp', List.getElem?_singleton] at hq
      split_ifs at hq with hi
      obtain rfl := Option.some.inj hq
    · exact ⟨hi, hl⟩
    · exact absurd ((hnone j).symm.trans hr) nofun
  | @drain pid p p' es hp hp' ht hring hin hsteps =>
    refine h.reread hp hp' ht fun j r hr ↦ ?_
    rcases hsteps.flow.table j r hr with hr | ⟨t, ht⟩
    · exact .inl hr
    · refine .inr ⟨fun hzero ↦ ?_, hsteps.flow.accepts j r t ht⟩
      rw [hring hzero] at ht
      cases ht
  | receive hps => exact ⟨by rw [hps]; exact h.first, by rw [hps]; exact h.parked⟩
  | @poll pid p p' bytes es hfg hp hring hp' ht hscan =>
    refine h.reread hp hp' ht fun j r hr ↦ ?_
    rcases hscan.flow.table j r hr with hr | ⟨t, ht⟩
    · exact .inl hr
    · exact .inr ⟨hring, hscan.flow.accepts j r t ht⟩

/-- Nothing changes for the first process when another one's ring is drained. -/
theorem reader_of_other {pid : Nat} (hq : k.processes[0]? = some q)
    (hq' : k'.processes[0]? = some q') (hfg : q'.foreground = q.foreground)
    (hpend : q'.pending = q.pending) (hpid : pid ≠ 0)
    (hin : Processes.foregroundPid k.processes ≠ some pid → k'.input = k.input) :
    k'.reader 0 q' = k.reader 0 q := by
  rw [reader_zero hq, reader_zero hq', hfg, hpend]
  by_cases h : q.foreground = true
  · rw [hin]
    rw [(foregroundPid_zero hq).mpr h]
    exact fun he ↦ hpid (Option.some.inj he).symm
  · rw [if_neg h, if_neg h]

end ReadInv

/-- Between two operations nothing is wrong with the reads there are. -/
theorem readInv_of_serve {programs : List (String × List UInt8)} {k : Kernel}
    (hprog : ∀ q ∈ programs, Elf.InUserSlot q.2)
    (hk : (serve programs).Reach ServeOp.Linked k) : ReadInv k := by
  refine hk.invariant_of (fun s hs ↦ lifeInv_of_serve hprog hs) ?_ ?_
  · intro k hinit
    obtain ⟨hps, -⟩ := serve_init hinit
    exact ⟨by simp [hps], by simp [hps]⟩
  · rintro k op k' ⟨L, hlife⟩ hread - hs
    exact hread.move (hlife.readStep hread hs).move

/-! ## A process that reads, in a run -/

/-- A run with the record is a run. -/
theorem serve_of_reading {programs : List (String × List UInt8)}
    {x : Kernel × ReadLog} {ok : Kernel × ReadLog → ServeOp → Prop}
    (hok : ∀ x op, ok x op → op.Linked x.1) (h : (reading programs).Reach ok x) :
    (serve programs).Reach ServeOp.Linked x.1 := by
  induction h with
  | init h => exact .init h.1
  | step _ hop hs ih => exact ih.step (hok _ _ hop) (System.track_step hs).1

instance : NeZero maxPending := ⟨by decide⟩

/-- The process is alone with its ring, at the end of a run with a record. -/
structure ReadScene (ok : Kernel × ReadLog → ServeOp → Prop) (k : Kernel) (r : ReadLog)
    (p : Process) : Prop where
  reach : (reading []).Reach ok (k, r)
  attended : Attended k p
  empty : k.input.contents = []

section ReadScene

variable {ok : Kernel × ReadLog → ServeOp → Prop} {k : Kernel} {r : ReadLog} {p : Process}

/-- It is when it has just got its ring. -/
theorem exists_readScene (ok : Kernel × ReadLog → ServeOp → Prop)
    (hok : ∀ k op, op.Prepares k → ok (k, ⟨[], [], []⟩) op) :
    ∃ k p, ReadScene ok k ⟨[], [], []⟩ p ∧ p.pending = Vector.replicate maxPending none ∧
      k.unreaped p.ringPa = 0 := by
  obtain ⟨k, p, h⟩ := exists_codeData
  obtain ⟨root, frames, hentry⟩ := h.entry
  have hload : ∀ off, off + 4 ≤ 4096 → k.mem.load (p.ringPa + off) 4 = 0 :=
    fun _ ↦ load_of_zero_frame h.zero
  refine ⟨k, p, ⟨?_, ⟨h.processes, ?_, h.ring, ?_, ?_, h.installed, h.root, ?_, ?_⟩, ?_⟩, ?_, ?_⟩
  · refine h.prepared.track_start fun k op k' hop ↦ ⟨?_, hok k op hop⟩
    cases op with
    | create | foreground | setup => rfl
    | _ => exact hop.elim
  · rw [hentry]
    rfl
  · rw [hentry]
  · rw [hentry]
    exact placed_codeDataLoaded
  · rw [sqTail, sqHead, hload _ (by decide), hload _ (by decide)]
  · rw [h.uart]
    exact ⟨rfl, rfl⟩
  · rw [h.input, InputBuf.contents_empty]
  · rw [hentry]
    rfl
  · rw [Kernel.unreaped, cqTail, cqHead, hload _ (by decide), hload _ (by decide)]
    rfl

/-- Of stores no notice is taken. -/
theorem ReadScene.stored (h : ReadScene ok k r p) {k' : Kernel} (hstores : Stores 0 k k')
    (hstore : ∀ {k : Kernel} {va n v : Nat}, ok (k, r) (.store 0 va n v)) :
    (reading []).Reach ok (k', r) := by
  refine hstores.track ?_ hstore h.reach
  intro k k' va n v
  simp [ReadLog.note, Kernel.getcs, Kernel.foregroundEvents, Kernel.backgroundEvents]

/-- A drain of the ring is noted for the foreground process. -/
theorem ReadScene.note_drain (h : ReadScene ok k r p) (k' : Kernel) {len tag : Nat} :
    r.note (k.submitRead p.ringPa len tag) (.drain 0) k' = { r with foreground :=
      r.foreground ++ (k.submitRead p.ringPa len tag).foregroundEvents (.drain 0) } := by
  have hbg : (k.submitRead p.ringPa len tag).backgroundEvents (.drain 0) = [] :=
    if_pos h.attended.foregroundPid
  have hget : (k.submitRead p.ringPa len tag).getcs (.drain 0) = [] := rfl
  rw [ReadLog.note, hbg, hget, List.append_nil, List.append_nil]

variable (hok : ∀ x op, ok x op → op.Linked x.1) (h : ReadScene ok k r p)
include hok h

theorem ReadScene.serve : (serve []).Reach ServeOp.Linked k := serve_of_reading hok h.reach

theorem ReadScene.lifeInv : ∃ L, LifeInv L k :=
  lifeInv_of_serve (fun _ hq ↦ absurd hq List.not_mem_nil) (h.serve hok)

/-- It submits a read, and that is parked. -/
theorem ReadScene.park (len tag : Nat) (htag : tag < 2 ^ 64) (hpos : 0 < len) (hlen : len ≤ 4096)
    {i : Fin maxPending} (hi : p.pending[i] = none) (hbelow : ∀ j < i, p.pending[j] ≠ none)
    (hstore : ∀ {k : Kernel} {va n v : Nat}, ok (k, r) (.store 0 va n v))
    (hdrain : ∀ {k : Kernel}, k.foregroundEvents (.drain 0) =
      [.parked i ⟨userStackVa, len, tag⟩ p.pending] → ok (k, r) (.drain 0)) :
    ∃ k' p', ReadScene ok k' { r with foreground :=
        r.foreground ++ [.parked i ⟨userStackVa, len, tag⟩ p.pending] } p' ∧
      p'.pending = p.pending.set i (some ⟨userStackVa, len, tag⟩) ∧
      k'.unreaped p'.ringPa = k.unreaped p.ringPa := by
  obtain ⟨L, hlife⟩ := h.lifeInv hok
  have hstores : Stores 0 k (k.submitRead p.ringPa len tag) := h.attended.stores hlife
  obtain ⟨k', hstep, hatt, hin, hroom, hevents⟩ := h.attended.park htag hpos hlen h.empty
    (findFinIdx?_isNone hi hbelow)
  have hreach := h.stored hstores hstore
  have hnext := hreach.track_next (hdrain hevents) hstep
  rw [h.note_drain, hevents] at hnext
  exact ⟨k', _, ⟨hnext, hatt, by rw [hin, h.empty]⟩, rfl, hroom⟩

/-- A byte comes in, for the first parked read. -/
theorem ReadScene.byte (b : UInt8) {i : Fin maxPending} {rd : Pending}
    (hi : p.pending[i] = some rd) (hbelow : ∀ j < i, p.pending[j] = none)
    (hroom : k.unreaped p.ringPa < ringEntries.toNat)
    (huart : k.foregroundEvents (.uart [b]) =
        [.done (some i) rd.len [b] ⟨rd.userData, [.cqe (some 0) rd.userData 1 none]⟩] →
      ok (k, r) (.uart [b])) :
    ∃ k' p', ReadScene ok k' { r with
          taken := r.taken ++ [b]
          foreground := r.foreground ++
            [.done (some i) rd.len [b] ⟨rd.userData, [.cqe (some 0) rd.userData 1 none]⟩] } p' ∧
      p'.pending = p.pending.set i none i.isLt ∧
      k'.unreaped p'.ringPa = k.unreaped p.ringPa + 1 := by
  have hprog : ∀ q ∈ ([] : List (String × List UInt8)), Elf.InUserSlot q.2 := by simp
  obtain ⟨L, hlife⟩ := h.lifeInv hok
  have hacc := fun i r hr ↦
    ((readInv_of_serve hprog (h.serve hok)).parked h.attended.getElem? i r hr).2
  obtain ⟨k', p', hstep, hatt, hpend, hempty, hevents, hone⟩ := h.attended.byte hlife
    (granting_of_serve hprog (h.serve hok)) hacc h.empty b hi hbelow hroom
  have hnext := h.reach.track_next (huart hevents) hstep
  have hbg : k.backgroundEvents (.uart [b]) = [] := rfl
  rw [ReadLog.note, hevents, hbg, (h.attended.received h.empty b).1, List.append_nil] at hnext
  exact ⟨k', p', ⟨hnext, hatt, hempty⟩, hpend, hone⟩

end ReadScene

/-! ## The stream -/

/-- The segments of the first process do not overlap. -/
def Kernel.FirstApart (k : Kernel) : Prop :=
  ∀ q, k.processes[0]? = some q → q.loaded.NoOverlap

section Stream

variable {k k' : Kernel} {op : ServeOp} {q q' : Process}

/-- The image of a process does not change. -/
theorem ReadStep.firstApart (hs : ReadStep k op k') (h : k'.FirstApart) : k.FirstApart := by
  intro q hq
  cases hs with
  | unread hu =>
    obtain ⟨q', hq', hunread⟩ := hu.old hq
    exact hunread.loaded ▸ h q' hq'
  | @foreground p hp hl hring hp' =>
    rw [hp] at hq
    obtain rfl := Option.some.inj hq
    have hq' : k'.processes[0]? = some { p with foreground := true } := by rw [hp']; rfl
    exact h { p with foreground := true } hq'
  | drain hp hp' ht =>
    obtain ⟨q', hq', hl, -⟩ := ht.old hq
    exact hl ▸ h q' hq'
  | receive hps => exact h q (by rw [hps, hq])
  | poll hfg hp hring hp' ht =>
    obtain ⟨q', hq', hl, -⟩ := ht.old hq
    exact hl ▸ h q' hq'

/-- What an operation does with the console stream. -/
structure Flowed (k : Kernel) (op : ServeOp) (k' : Kernel) : Prop where
  sublist : ((k.foregroundEvents op).flatMap Parked.Event.items ++ k'.input.contents).Sublist
    (k.input.contents ++ k.getcs op)
  lossless : k.FirstApart → (k.foregroundEvents op).flatMap Parked.Event.items ++
    k'.input.contents = k.input.contents ++ k.getcs op
  bounded : ∀ e ∈ k.foregroundEvents op, e.Bounded
  background : ∀ e ∈ k.backgroundEvents op, e.items = []

/-- No process takes input, and nothing comes in. -/
theorem Flowed.still (hin : k'.input = k.input) (hget : k.getcs op = [])
    (hfg : k.foregroundEvents op = []) (hbg : ∀ e ∈ k.backgroundEvents op, e.items = []) :
    Flowed k op k' := by
  refine ⟨?_, fun _ ↦ ?_, ?_, hbg⟩
  · rw [hfg, hin, hget, List.append_nil]
    exact List.Sublist.refl _
  · rw [hfg, hin, hget, List.append_nil]
    rfl
  · rw [hfg]
    nofun

/-- A process that sees an empty queue gets nothing. -/
theorem items_eq_nil {R : Parked.Rules Pending ReadAnswer}
    {s s' : Parked.State UInt8 Pending maxPending}
    {es : List ReadEvent} (h : Parked.Flow R s es s') (hs : s.queue = []) :
    ∀ e ∈ es, e.items = [] := by
  have hsub := h.sublist
  rw [hs, List.sublist_nil, List.append_eq_nil_iff, List.flatMap_eq_nil_iff] at hsub
  exact hsub.1

theorem ReadStep.flowed (hs : ReadStep k op k') (hread : ReadInv k) : Flowed k op k' := by
  cases hs with
  | unread hu hget hfg hbg => exact .still hu.input hget hfg (by rw [hbg]; nofun)
  | foreground hp hl hring hp' hin hget hfg hbg => exact .still hin hget hfg (by rw [hbg]; nofun)
  | @drain pid p p' hp hp' ht hring hin hsteps hget hfg hbg =>
    by_cases hpid : Processes.foregroundPid k.processes = some pid
    · rw [if_pos hpid] at hfg hbg
      obtain rfl := hread.foregroundPid hpid
      obtain ⟨q', hq', -, hfg', -⟩ := ht.old hp
      obtain rfl := Option.some.inj (hp'.symm.trans hq')
      have hflow := hsteps.flow
      rw [reader_zero hp, reader_zero hp', hfg', (foregroundPid_zero hp).mp hpid] at hflow
      refine ⟨?_, fun hseg ↦ ?_, ?_, by rw [hbg]; nofun⟩
      · rw [hfg, hget, List.append_nil]
        exact hflow.sublist
      · rw [hfg, hget, List.append_nil]
        exact hflow.lossless fun r hr ↦ (hseg p hp).all hr
      · rw [hfg]
        exact hflow.bounded
    · rw [if_neg hpid] at hfg hbg
      refine .still (hin hpid) hget hfg ?_
      rw [hbg]
      exact items_eq_nil hsteps.flow (if_neg hpid)
  | receive hps hno hin hfg hbg =>
    refine ⟨?_, fun _ ↦ ?_, by rw [hfg]; nofun, by rw [hbg]; nofun⟩
    · rw [hfg, hin]
      exact List.Sublist.refl _
    · rw [hfg, hin]
      rfl
  | @poll pid p p' hfg hp hring hp' ht hscan hbg =>
    obtain rfl := hread.foregroundPid hfg
    exact ⟨hscan.flow.sublist, fun hseg ↦ hscan.flow.lossless fun r hr ↦ (hseg p hp).all hr,
      hscan.flow.bounded, by rw [hbg]; nofun⟩

/-- What the trace says of the reads of the first process. -/
theorem ReadStep.recorded (hs : ReadStep k op k') (hread : ReadInv k) :
    Recorded 0 k (k.foregroundEvents op) k' := by
  cases hs with
  | unread hu hget hfg => exact hfg ▸ .of_suffix hu.grows
  | foreground hp hl hring hp' hin hget hfg hbg htrace =>
    exact hfg ▸ .of_suffix (htrace ▸ List.suffix_rfl)
  | @drain pid p p' hp hp' ht hring hin hsteps hget hfg hbg hrec =>
    rw [hfg]
    split_ifs with hpid
    · obtain rfl := hread.foregroundPid hpid
      exact hrec
    · exact .of_suffix hrec.suffix
  | receive hps hno hin hfg hbg htrace => exact hfg ▸ .of_suffix (htrace ▸ List.suffix_rfl)
  | poll hfg hp hring hp' ht hscan hbg hrec => exact hread.foregroundPid hfg ▸ hrec

/-- What holds of the record. -/
structure Streamed (x : Kernel × ReadLog) : Prop where
  sublist : (x.2.foreground.flatMap Parked.Event.items ++ x.1.input.contents).Sublist x.2.taken
  lossless : x.1.FirstApart →
    x.2.taken = x.2.foreground.flatMap Parked.Event.items ++ x.1.input.contents
  bounded : ∀ e ∈ x.2.foreground, e.Bounded
  logged : ∀ e ∈ x.2.foreground, e.Logged 0
  trace : (x.2.foreground.flatMap ReadEvent.completions).Sublist x.1.trace.reverse
  background : ∀ e ∈ x.2.background, e.items = []

theorem Streamed.step {r : ReadLog} (h : Streamed (k, r)) (hs : ReadStep k op k')
    (hread : ReadInv k) : Streamed (k', r.note k op k') := by
  have hflow := hs.flowed hread
  have hrec := hs.recorded hread
  refine ⟨?_, fun hseg ↦ ?_, fun e he ↦ ?_, fun e he ↦ ?_, ?_, fun e he ↦ ?_⟩
  · have hnew := hflow.sublist.append_left (r.foreground.flatMap Parked.Event.items)
    rw [← List.append_assoc, ← List.append_assoc, ← List.flatMap_append] at hnew
    exact hnew.trans (h.sublist.append_right _)
  · have hold := h.lossless (hs.firstApart hseg)
    have hnew := hflow.lossless (hs.firstApart hseg)
    show r.taken ++ k.getcs op = (r.foreground ++ k.foregroundEvents op).flatMap _ ++ _
    rw [hold, List.append_assoc, ← hnew, List.flatMap_append, List.append_assoc]
  · exact (List.mem_append.mp he).elim (h.bounded e) (hflow.bounded e)
  · exact (List.mem_append.mp he).elim (h.logged e) (hrec.logged e)
  · obtain ⟨new, hnew, hsub⟩ := hrec.trace
    show ((r.foreground ++ k.foregroundEvents op).flatMap _).Sublist k'.trace.reverse
    rw [← hnew, List.flatMap_append, List.reverse_append]
    exact h.trace.append hsub
  · exact (List.mem_append.mp he).elim (h.background e) (hflow.background e)

end Stream

section Runs

variable {programs : List (String × List UInt8)} {x : Kernel × ReadLog}

theorem streamed_of_reading (hprog : ∀ q ∈ programs, Elf.InUserSlot q.2)
    {ok : Kernel × ReadLog → ServeOp → Prop} (hok : ∀ x op, ok x op → op.Linked x.1)
    (h : (reading programs).Reach ok x) : Streamed x := by
  refine h.invariant_of (fun s hs ↦ serve_of_reading hok hs) ?_ ?_
  · rintro ⟨k, r⟩ ⟨hinit, rfl⟩
    obtain ⟨-, hin, -⟩ := serve_init hinit
    have hempty : k.input.contents = [] := by rw [hin, InputBuf.contents_empty]
    refine ⟨?_, fun _ ↦ ?_, nofun, nofun, List.nil_sublist _, nofun⟩
    · simp [hempty]
    · simp [hempty]
  · rintro ⟨k, r⟩ op ⟨k', r'⟩ hreach hstream - hs
    obtain ⟨hstep, hnote⟩ := System.track_step hs
    obtain ⟨L, hlife⟩ := lifeInv_of_serve hprog hreach
    have hread := readInv_of_serve hprog hreach
    dsimp only at hnote
    rw [hnote]
    exact hstream.step (hlife.readStep hread hstep) hread

end Runs

end Jatuli

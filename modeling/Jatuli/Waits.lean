import Jatuli.Conservation
import Jatuli.Family

/-!
# Waiting for a child

A wait for a child that has exited is answered at once, with the exit code the child's entry has;
one that comes before is parked on the child and answered when it exits.  So nothing is answered
before the child has exited, all answers carry its code, and afterwards no wait is parked on it
(`Reported`).  With the accounts it follows that every wait has been answered once
(`waits_answered`).

The place for a parked wait is one per child.  A second wait that comes while the first is parked
takes its place, and the first is never answered (`wait_overwritten`).
-/

set_option autoImplicit false

namespace Jatuli

/-! ## Answers and exit codes -/

/-- The event is about a wait for child `c`. -/
def Event.OfChild (c : Nat) : Event → Prop
  | .cqe _ _ _ child => child = some c
  | .overflow _ _ child => child = some c
  | _ => False

/-- Answers carry the exit code of a child that has exited, which is what was in a register, and no
wait is parked on such a child. -/
structure Reported (k : Kernel) : Prop where
  answers : ∀ {owner : Option Nat} {tag c : Nat} {result : Int},
    .cqe owner tag result (some c) ∈ k.trace →
    ∃ q, k.processes[c]? = some q ∧ q.exitCode = some result
  drops : ∀ {owner : Option Nat} {tag c : Nat}, .overflow owner tag (some c) ∈ k.trace →
    ∃ q code, k.processes[c]? = some q ∧ q.exitCode = some code
  parked : ∀ {c : Nat} {q : Process}, k.processes[c]? = some q → q.live = false →
    q.exitWaiter = none
  codes : ∀ {c : Nat} {q : Process} {code : Int}, k.processes[c]? = some q →
    q.exitCode = some code → code.bmod (2 ^ 64) = code

/-- Nothing is answered, and no entry of a process that has exited changes. -/
structure Calm (k k' : Kernel) : Prop where
  events : ∀ e ∈ k'.trace, e ∈ k.trace ∨ ∀ c, ¬ e.OfChild c
  entries : ∀ {c : Nat} {q : Process} {code : Int}, k.processes[c]? = some q →
    q.exitCode = some code → ∃ q', k'.processes[c]? = some q' ∧ q'.exitCode = some code
  dead : ∀ {c : Nat} {q' : Process}, k'.processes[c]? = some q' → q'.live = false →
    ∃ q, k.processes[c]? = some q ∧ q.live = false ∧ q'.exitWaiter = q.exitWaiter ∧
      q'.exitCode = q.exitCode

namespace Calm

variable {k k' k'' : Kernel}

theorem trans (h : Calm k k') (h' : Calm k' k'') : Calm k k'' where
  events e he := by
    rcases h'.events e he with he | he
    · exact h.events e he
    · exact .inr he
  entries hq hcode := by
    obtain ⟨q', hq', hcode'⟩ := h.entries hq hcode
    exact h'.entries hq' hcode'
  dead hq'' hl := by
    obtain ⟨q', hq', hl', hw', hc'⟩ := h'.dead hq'' hl
    obtain ⟨q, hq, hl, hw, hc⟩ := h.dead hq' hl'
    exact ⟨q, hq, hl, hw'.trans hw, hc'.trans hc⟩

theorem of_eq (htrace : k'.trace = k.trace) (hps : k'.processes = k.processes) : Calm k k' where
  events _ he := .inl (htrace ▸ he)
  entries {_ q _} hq hcode := ⟨q, hps ▸ hq, hcode⟩
  dead {_ q'} hq' hl := ⟨q', hps ▸ hq', hl, rfl, rfl⟩

/-- An event that is no answer. -/
theorem log {e : Event} (he : ∀ c, ¬ e.OfChild c) : Calm k (k.log e) where
  events e' he' := by
    rcases List.mem_cons.mp he' with rfl | he'
    · exact .inr he
    · exact .inl he'
  entries {_ q _} hq hcode := ⟨q, hq, hcode⟩
  dead {_ q'} hq' hl := ⟨q', hq', hl, rfl, rfl⟩

theorem ringStore (k : Kernel) (ringPa off n v : Nat) : Calm k (k.ringStore ringPa off n v) := by
  have hmem : Calm k (k.setMem (k.mem.store (ringPa + off) n v)) := of_eq rfl rfl
  exact hmem.trans (log fun _ h ↦ h)

/-- A completion that is no answer to a wait. -/
theorem complete (k : Kernel) (ringPa tag : Nat) (result : Int) :
    Calm k (k.complete ringPa tag result none) := by
  refine ⟨fun e he ↦ ?_, ?_, ?_⟩
  · rcases k.complete_cases ringPa tag result none with ⟨-, -, ht⟩ | ⟨-, -, ht⟩
    · rw [ht] at he
      rcases List.mem_cons.mp he with rfl | he
      · exact .inr fun c h ↦ by cases h
      · exact .inl he
    · rw [ht] at he
      simp only [List.mem_cons] at he
      rcases he with rfl | rfl | rfl | rfl | he
      · exact .inr fun c h ↦ by cases h
      · exact .inr fun c h ↦ h
      · exact .inr fun c h ↦ h
      · exact .inr fun c h ↦ h
      · exact .inl he
  · rw [(k.complete_quiet ..).processes]
    exact fun {c q code} hq hcode ↦ ⟨q, hq, hcode⟩
  · rw [(k.complete_quiet ..).processes]
    exact fun {c q'} hq' hl ↦ ⟨q', hq', hl, rfl, rfl⟩

/-- One entry changes, but not its exit code, and its waiter only if it has not exited. -/
theorem set {i : Nat} {q : Process} (q' : Process) (hq : k.processes[i]? = some q)
    (hcode : q'.exitCode = q.exitCode) (hwait : q.live = false → q'.exitWaiter = q.exitWaiter)
    (htrace : k'.trace = k.trace) (hps : k'.processes = k.processes.set i q') : Calm k k' := by
  have hlt := (List.getElem?_eq_some_iff.mp hq).1
  refine ⟨fun e he ↦ .inl (htrace ▸ he), fun {c r code} hr hc ↦ ?_, fun {c r'} hr' hl ↦ ?_⟩
  · rw [hps]
    by_cases hi : i = c
    · subst hi
      obtain rfl := Option.some.inj (hq.symm.trans hr)
      exact ⟨q', List.getElem?_set_self hlt, hcode.trans hc⟩
    · exact ⟨r, (List.getElem?_set_ne hi).trans hr, hc⟩
  · rw [hps] at hr'
    by_cases hi : i = c
    · subst hi
      rw [List.getElem?_set_self hlt] at hr'
      obtain rfl := Option.some.inj hr'
      rw [Process.live, hcode] at hl
      exact ⟨q, hq, hl, hwait hl, hcode⟩
    · rw [List.getElem?_set_ne hi] at hr'
      exact ⟨r', hr', hl, rfl, rfl⟩

/-- A process is added. -/
theorem concat {q : Process} (hl : q.live = true) (htrace : k'.trace = k.trace)
    (hps : k'.processes = k.processes ++ [q]) : Calm k k' := by
  refine ⟨fun e he ↦ .inl (htrace ▸ he), fun {c r code} hr hc ↦ ⟨r, ?_, hc⟩,
    fun {c r'} hr' hl' ↦ ?_⟩
  · rw [hps, List.getElem?_append_left (List.getElem?_eq_some_iff.mp hr).1]
    exact hr
  · rw [hps] at hr'
    rcases Nat.lt_or_ge c k.processes.length with hlt | hge
    · rw [List.getElem?_append_left hlt] at hr'
      exact ⟨r', hr', hl', rfl, rfl⟩
    · rw [List.getElem?_append_right hge, List.getElem?_singleton] at hr'
      split_ifs at hr'
      obtain rfl := Option.some.inj hr'
      rw [hl] at hl'
      cases hl'

end Calm

namespace Reported

variable {k k' : Kernel} {pid : Nat} {p : Process}

theorem calm (h : Reported k) (hc : Calm k k') : Reported k' where
  answers he := by
    rcases hc.events _ he with he | he
    · obtain ⟨q, hq, hcode⟩ := h.answers he
      exact hc.entries hq hcode
    · exact absurd rfl (he _)
  drops he := by
    rcases hc.events _ he with he | he
    · obtain ⟨q, code, hq, hcode⟩ := h.drops he
      obtain ⟨q', hq', hcode'⟩ := hc.entries hq hcode
      exact ⟨q', code, hq', hcode'⟩
    · exact absurd rfl (he _)
  parked hq' hl := by
    obtain ⟨q, hq, hl, hw, -⟩ := hc.dead hq' hl
    exact hw.trans (h.parked hq hl)
  codes hq' hcode := by
    obtain ⟨q, hq, -, -, hc⟩ := hc.dead hq' (by rw [Process.live, hcode]; rfl)
    exact h.codes hq (hc.symm.trans hcode)

/-- A wait for a child that has exited is answered. -/
theorem answer (h : Reported k) {c : Nat} {q : Process} {code : Int}
    (hq : k.processes[c]? = some q) (hcode : q.exitCode = some code) (ringPa tag : Nat) :
    Reported (k.complete ringPa tag code (some c)) := by
  have hps := (k.complete_quiet ringPa tag code (some c)).processes
  rcases k.complete_cases ringPa tag code (some c) with ⟨-, -, ht⟩ | ⟨-, -, ht⟩
  · refine ⟨fun he ↦ ?_, fun he ↦ ?_, fun hq' hl ↦ h.parked (hps ▸ hq') hl,
      fun hq' hc ↦ h.codes (hps ▸ hq') hc⟩
    · rw [ht] at he
      rcases List.mem_cons.mp he with he | he
      · cases he
      · rw [hps]
        exact h.answers he
    · rw [ht] at he
      rw [hps]
      rcases List.mem_cons.mp he with he | he
      · cases he
        exact ⟨q, code, hq, hcode⟩
      · exact h.drops he
  · rw [h.codes hq hcode] at ht
    refine ⟨fun he ↦ ?_, fun he ↦ ?_, fun hq' hl ↦ h.parked (hps ▸ hq') hl,
      fun hq' hc ↦ h.codes (hps ▸ hq') hc⟩
    · rw [ht] at he
      rw [hps]
      simp only [List.mem_cons] at he
      rcases he with he | he | he | he | he
      · cases he
        exact ⟨q, hq, hcode⟩
      · cases he
      · cases he
      · cases he
      · exact h.answers he
    · rw [ht] at he
      rw [hps]
      simp only [List.mem_cons] at he
      rcases he with he | he | he | he | he
      · cases he
      · cases he
      · cases he
      · cases he
      · exact h.drops he

theorem outcome (h : Reported k) {ringPa tag : Nat} {child : Option Nat}
    (ho : SqeOutcome pid ringPa tag child k k') : Reported k' := by
  cases ho with
  | @completed k₁ result hchild hd hin =>
    exact h.calm ((Calm.of_eq hd.trace hd.quiet.processes).trans (.complete ..))
  | @parked k₁ p i r hchild hd hin hp hi htag =>
    exact h.calm (.set { p with pending := p.pending.set i (some r) i.isLt } hp rfl
      (fun _ ↦ rfl) hd.trace rfl)
  | answered hchild hp hparent hexit => exact h.answer hp hexit ringPa tag
  | @waiting c p hchild hp hparent hexit =>
    refine h.calm (.set { p with exitWaiter := some tag } hp rfl (fun hl ↦ ?_) rfl
      (modify_eq_set hp _))
    rw [Process.live, hexit] at hl
    cases hl
  | @spawned name image root s₁ s₂ loaded frames uart hchild himage hroot hspace =>
    refine h.calm (Calm.trans ?_ (.complete ..))
    exact .concat (q := { Process.fresh root loaded frames with parent := some pid }) rfl rfl rfl

theorem drain (h : Reported k) (hd : k.drain pid = some k') : Reported k' := by
  rw [Kernel.drain] at hd
  obtain ⟨ringPa, -, hd⟩ := Option.bind_eq_some_iff.mp hd
  split_ifs at hd
  · exact Option.some.inj hd ▸ h
  · refine Kernel.drainFrom_invariant (I := Reported) (fun k₁ k₂ addr h₁ hs ↦ ?_)
      (fun k₁ v h₁ ↦ h₁.calm (.ringStore ..)) _ h hd
    obtain ⟨pa, child, -, ho⟩ := Kernel.processSqe_cases hs
    have hlog : Calm k₁ (k₁.log (.sqe pid (k₁.mem.load (addr + 24) 8) k₁.ttbr0 child)) :=
      .log fun _ hc ↦ hc
    exact (h₁.calm hlog).outcome ho

/-- The loop over the parked reads. -/
theorem pollPendingFrom (h : Reported k) (hp : k.processes[pid]? = some p) {ringPa : Nat}
    {pending : Vector (Option Pending) maxPending} {b b' : Bool}
    (hloop : Kernel.pollPendingFrom pid ringPa pending maxPending k b = some (b', k')) :
    Reported k' := by
  refine (Kernel.pollPendingFrom_invariant
    (I := fun _ k₁ _ ↦ (∃ p₁, k₁.processes[pid]? = some p₁) ∧ Reported k₁) (fun _ _ _ _ hI ↦ hI)
    ?_ ?_ maxPending le_rfl ⟨⟨p, hp⟩, h⟩ hloop).2
  · rintro i k₁ k₂ b r - hd ⟨⟨p₁, hp₁⟩, h₁⟩
    have hd := Kernel.drainInput_delivered hd
    exact ⟨⟨p₁, by rw [hd.quiet.processes, hp₁]⟩, h₁.calm (.of_eq hd.trace hd.quiet.processes)⟩
  · rintro i k₁ k₂ b r count - - hd ⟨⟨p₁, hp₁⟩, h₁⟩
    have hd := Kernel.drainInput_delivered hd
    rw [← hd.quiet.processes] at hp₁
    have h₂ : Reported k₂ := h₁.calm (.of_eq hd.trace hd.quiet.processes)
    have hlt := (List.getElem?_eq_some_iff.mp hp₁).1
    have htable : Processes.clearPending k₂.processes pid i =
        k₂.processes.set pid { p₁ with pending := p₁.pending.set i none i.isLt } :=
      modify_eq_set hp₁ _
    refine ⟨⟨{ p₁ with pending := p₁.pending.set i none i.isLt }, ?_⟩, h₂.calm ?_⟩
    · show (Processes.clearPending k₂.processes pid i)[pid]? = _
      rw [htable, List.getElem?_set_self hlt]
    · refine (Calm.complete k₂ ringPa r.userData count).trans
        (.set (i := pid) (q := p₁) { p₁ with pending := p₁.pending.set i none i.isLt } ?_ rfl
          (fun _ ↦ rfl) rfl ?_)
      · rw [(k₂.complete_quiet ..).processes]
        exact hp₁
      · rw [(k₂.complete_quiet ..).processes]
        exact htable

/-- **The end of a process**: if its parent waits it gets the code. -/
theorem exit (h : Reported k) (hp : k.processes[pid]? = some p) (hl : p.live = true)
    (hne : p.parent ≠ some pid) {code : Int} (hfits : code.bmod (2 ^ 64) = code)
    (ht : k.teardown pid code = some k') : Reported k' := by
  have hlt := (List.getElem?_eq_some_iff.mp hp).1
  obtain ⟨k₁, msg, hrep, rfl⟩ := Kernel.teardown_cases hp hne ht
  rw [Kernel.activate_eq]
  -- the exit is recorded
  have h₀ : Reported { k with processes := k.processes.set pid (p.exited code) } := by
    have hstay : ∀ {c : Nat} {q : Process} {code' : Int}, k.processes[c]? = some q →
        q.exitCode = some code' → (k.processes.set pid (p.exited code))[c]? = some q := by
      intro c q code' hq hcode
      rw [List.getElem?_set_ne, hq]
      rintro rfl
      obtain rfl := Option.some.inj (hp.symm.trans hq)
      rw [Process.live, hcode] at hl
      cases hl
    refine ⟨fun he ↦ ?_, fun he ↦ ?_, fun {c q} hq hdead ↦ ?_, fun {c q code'} hq hcode ↦ ?_⟩
    · obtain ⟨q, hq, hcode⟩ := h.answers he
      exact ⟨q, hstay hq hcode, hcode⟩
    · obtain ⟨q, code', hq, hcode⟩ := h.drops he
      exact ⟨q, code', hstay hq hcode, hcode⟩
    · have hq : (k.processes.set pid (p.exited code))[c]? = some q := hq
      by_cases hc : pid = c
      · subst hc
        rw [List.getElem?_set_self hlt] at hq
        obtain rfl := Option.some.inj hq
        rfl
      · rw [List.getElem?_set_ne hc] at hq
        exact h.parked hq hdead
    · have hq : (k.processes.set pid (p.exited code))[c]? = some q := hq
      by_cases hc : pid = c
      · subst hc
        rw [List.getElem?_set_self hlt] at hq
        obtain rfl := Option.some.inj hq
        exact Option.some.inj hcode ▸ hfits
      · rw [List.getElem?_set_ne hc] at hq
        exact h.codes hq hcode
  have hentry : (k.processes.set pid (p.exited code))[pid]? = some (p.exited code) :=
    List.getElem?_set_self hlt
  -- the parent is told
  have h₁ : Reported k₁ ∧ k₁.processes[pid]? = some (p.exited code) := by
    refine ⟨?_, by rw [hrep.getElem?_of_ne hne]; exact hentry⟩
    cases hrep with
    | silent hno => exact h₀
    | @answered parent tag r htag hparent hr hring =>
      have hpost := h₀.answer hentry rfl r.ringPa tag
      refine hpost.calm (.set (i := parent) (q := r) { r with ringWaiter := none } ?_ rfl
        (fun _ ↦ rfl) rfl ?_)
      · rw [(Kernel.complete_quiet ..).processes]
        exact hr
      · rw [(Kernel.complete_quiet ..).processes]
    | @lost parent tag r htag hparent hr hring =>
      exact h₀.calm (.set { r with ringWaiter := none } hr rfl (fun _ ↦ rfl) rfl rfl)
  exact h₁.1.calm (.set (p.husk code) h₁.2 rfl (fun _ ↦ rfl) rfl rfl)

section Steps

variable {m m' : Machine} {a : Act}

theorem schedule (h : Reported k) : Reported k.schedule :=
  h.calm (.of_eq k.schedule_trace k.schedule_processes)

theorem enterWait (h : Reported k) (hu : AtUser k pid p) (ringPa minComplete : Nat) :
    Reported ({ m with k := k }.enterWait pid ringPa minComplete).k := by
  rcases enterWait_cases (m := { m with k := k }) hu ringPa minComplete with ⟨-, he⟩ | ⟨-, he⟩
  · rw [he]
    exact h
  · rw [he]
    have hset : Reported { k with
        processes := Processes.setWaiter k.processes pid (taskOf pid)
        sched := k.sched.markBlocked } :=
      h.calm (.set { p with ringWaiter := some (taskOf pid) } hu.entry rfl (fun _ ↦ rfl) rfl
        (modify_eq_set hu.entry _))
    exact hset.schedule

/-- The UART interrupt. -/
theorem uart (h : Reported m.k) (hctl : Ctl m) {bytes : List UInt8}
    (hs : Machine.uartIrq m.k bytes = some k') : Reported k' := by
  rcases hctl.uart_move hs with ⟨input, uart⟩ |
    @⟨input, uart, i, i₁, i₃, q, k₂, completed, hfg, hq, -, hloop⟩
  · exact h.calm (.of_eq rfl rfl)
  have hio : Reported { m.k with input, uart, installed := i₁, ttbr0 := q.ttbr0 } :=
    h.calm (.of_eq rfl rfl)
  have h₂ := hio.pollPendingFrom hq hloop
  have hserved := Kernel.pollPendingFrom_served
    (k := { m.k with input, uart, installed := i₁, ttbr0 := q.ttbr0 }) hq hfg hloop
  obtain ⟨q₂, hq₂, -⟩ := hserved.entries hq
  cases completed with
  | false => exact h₂.calm (.of_eq rfl rfl)
  | true =>
    exact h₂.calm (.set { q₂ with ringWaiter := none } hq₂ rfl (fun _ ↦ rfl) rfl
      (modify_eq_set hq₂ _))

theorem poller (h : Reported m.k) {l' : Poller} (hmove : PollerMove m.k m.poller k' l') :
    Reported k' := by
  cases hmove with
  | record hpc => exact h.calm (.of_eq rfl rfl)
  | scanActivate hpc =>
    exact h.calm (.of_eq (Kernel.activate_trace ..) (Kernel.activate_processes ..))
  | scanDrain hpc hd => exact h.drain hd
  | worked hpc hk =>
    rcases hk with rfl | rfl
    · exact h
    · exact h.calm (.of_eq rfl rfl)
  | flagsStore hpc => exact h.calm (.ringStore ..)
  | block hpc => exact schedule (h.calm (.of_eq rfl rfl))
  | yield hpc => exact h.schedule
  | _ => exact h

/-- **One step.** -/
theorem move (h : Reported m.k) (hctl : Ctl m) (hm : Move m a m') : Reported m'.k := by
  have ho := hctl.orderly
  cases hm with
  | @create image root s₁ s₂ loaded frames hcur hpc himage hroot hspace =>
    exact h.calm (.concat (q := .fresh root loaded frames) rfl rfl rfl)
  | @foreground p0 hcur hpc =>
    cases hp : m.k.processes[p0]? with
    | none =>
      refine h.calm (.of_eq rfl ?_)
      exact List.modify_eq_self (List.getElem?_eq_none_iff.mp hp)
    | some p =>
      exact h.calm (.set { p with foreground := true } hp rfl (fun _ ↦ rfl) rfl
        (modify_eq_set hp _))
  | spawnJsh hcur hpc hp => exact h.calm (.of_eq rfl rfl)
  | idle hcur hpc => exact h.schedule
  | poller hcur hmove => exact h.poller hmove
  | start hu hpc => exact h.calm (.of_eq rfl rfl)
  | retest hu hpc => exact h.enterWait hu _ _
  | store hu hpc hs =>
    obtain ⟨pa, rfl⟩ := Machine.userStore_cases hs
    exact h.calm (.of_eq rfl rfl)
  | @setup pid p k' hu hpc hs =>
    obtain ⟨q, hq, ⟨-, rfl⟩ | ⟨-, frame, -, -, -, -, rfl⟩⟩ := Kernel.setupRing_cases hs
    · exact h
    · exact h.calm (.set { q with ringPa := frame, frames := q.frames ++ [(userRingVa, frame)] }
        hq rfl (fun _ ↦ rfl) rfl (modify_eq_set hq _))
  | enterNothing hu hpc hring => exact h
  | @enter pid minComplete p k' hu hpc hring hs =>
    obtain ⟨-, p', hu', -⟩ := Proceeds.enterSubmit ho hctl.running (hctl.idle hu).2 hu hs
    obtain ⟨k₁, hk₁, hd, -⟩ := ho.enterSubmit (hctl.idle hu).2 hu.entry hs
    have h₁ : Reported k₁ := by
      rcases hk₁ with rfl | rfl | rfl
      · exact h
      · exact h.calm (.ringStore ..)
      · exact h.calm ((Calm.ringStore ..).trans (.of_eq rfl rfl))
    exact (h₁.drain hd).enterWait hu' _ _
  | @exit u pid code p report k' hact hu hpc ht =>
    have hne := ho.parent_ne hu.entry
    have h₀ : Reported (m.k.kprintln report) := h.calm (.of_eq rfl rfl)
    have h₁ := h₀.exit (hu.kprintln report).entry hu.live hne (UserAct.exitCode_bmod hact) ht
    exact schedule (h₁.calm (.of_eq rfl rfl))
  | tick hmask => exact schedule (h.calm (.of_eq rfl rfl))
  | uart hmask hs => exact h.uart hctl hs

end Steps

end Reported

/-- Answers carry exit codes, in every run. -/
theorem reported_of_reach {programs : List (String × List UInt8)} {ok : Machine → Act → Prop}
    {m : Machine} (h : (machine programs).Reach ok m) : Reported m.k := by
  refine h.invariant_of (J := Ctl) (I := fun m ↦ Reported m.k) (fun _ h ↦ ctl_of_reach h) ?_ ?_
  · rintro m ⟨mem, kernelEnd, ticks, k, -, hb, rfl⟩
    have hfresh := bootKernel_fresh hb
    have htrace : (bootMachine k).k.trace = [] := hfresh.trace
    have hps : (bootMachine k).k.processes = [] := hfresh.processes
    refine ⟨fun he ↦ ?_, fun he ↦ ?_, fun hq ↦ ?_, fun hq ↦ ?_⟩
    · rw [htrace] at he
      cases he
    · rw [htrace] at he
      cases he
    · rw [hps] at hq
      cases hq
    · rw [hps] at hq
      cases hq
  · intro m a m' hctl hI _ hs
    exact hI.move hctl (step_cases hctl.orderly hctl.running hs)

/-- Nothing is parked on a child in whose entry there is no wait. -/
theorem filter_parkedFor {pid c : Nat} {ps : List Process} {q : Process} (hq : ps[c]? = some q)
    (hnone : q.exitWaiter = none) : (parkedFor pid ps).filter (·.1 = some c) = 0 := by
  refine Multiset.filter_eq_nil.mpr fun x hx ↦ ?_
  rw [parkedFor, Multiset.mem_add] at hx
  rcases hx with hx | hx
  · -- a read
    cases hp : ps[pid]? with
    | none =>
      rw [hp, Option.elim_none] at hx
      exact absurd hx (Multiset.notMem_zero x)
    | some p =>
      rw [hp, Option.elim_some] at hx
      obtain ⟨i, r, -, hr⟩ := List.mem_tally hx
      cases r with
      | none => exact absurd hr (Multiset.notMem_zero x)
      | some r =>
        rw [Multiset.mem_singleton.mp hr]
        rintro ⟨⟩
  · -- a wait, and that is for the child in whose entry it is
    obtain ⟨i, r, hr, hw⟩ := List.mem_tally hx
    rw [Process.waiter] at hw
    split_ifs at hw
    · cases htag : r.exitWaiter with
      | none =>
        rw [htag, Option.elim_none] at hw
        exact absurd hw (Multiset.notMem_zero x)
      | some tag =>
        rw [htag, Option.elim_some] at hw
        rw [Multiset.mem_singleton.mp hw]
        rintro he
        obtain rfl := Option.some.inj he
        rw [Option.some.inj (hr.symm.trans hq), hnone] at htag
        cases htag
    · exact absurd hw (Multiset.notMem_zero x)

/-! ## A wait, and the end of the child -/

section Drain

variable {L : Layout} {own : Nat → Owner} {k : Kernel} {pid c : Nat} {p q : Process}

/-- **A drain with one wait published**: its tag is parked on the child. -/
theorem Inv.drain_wait (h : Inv True L own k) (hp : k.processes[pid]? = some p)
    (hring : p.ringPa ≠ 0) (hoff : p.loaded.OffRing) (hr : k.roots (some pid) = some k.ttbr0)
    (htail : sqTail k.mem p.ringPa = sqHead k.mem p.ringPa + 1) {a tag : Nat}
    (ha : a = sqeAddr p.ringPa (slot (sqHead k.mem p.ringPa))) (hop : k.mem.load a 8 = opWait)
    (hhandle : k.mem.load (a + 8) 8 = c) (htag : k.mem.load (a + 24) 8 = tag)
    (hq : k.processes[c]? = some q) (hparent : q.parent = some pid) (hexit : q.exitCode = none) :
    ∃ k', k.drain pid = some k' ∧
      k'.processes = k.processes.set c { q with exitWaiter := some tag } ∧ k'.sched = k.sched ∧
      HeaderAt p.ringPa (sqTail k.mem p.ringPa) k.mem k'.mem ∧
      cqTail k'.mem p.ringPa = cqTail k.mem p.ringPa ∧
      ∃ owner, k'.trace =
        .ringStore p.ringPa owner :: .sqe pid tag k.ttbr0 (some c) :: k.trace := by
  have hpa : Processes.ringPa k.processes pid = some p.ringPa := by
    rw [Processes.ringPa, hp, Option.map_some]
  have hfor : k.waitsFor pid opWait c = some c := by
    have hchild : (some q).any (·.parent = some pid) = true := by
      rw [Option.any_some, hparent]
      exact decide_eq_true rfl
    rw [Kernel.waitsFor, hq, if_pos ⟨rfl, hchild⟩]
  obtain ⟨k₁, hk₁⟩ : ∃ k₁ : Kernel, k₁ = { k.log (.sqe pid tag k.ttbr0 (some c)) with
    processes := k.processes.set c { q with exitWaiter := some tag } } := ⟨_, rfl⟩
  have hsqe : k.processSqe pid a = some k₁ := by
    rw [Kernel.processSqe, hpa]
    simp only [Option.bind_eq_bind, Option.bind_some, hop, htag, hhandle]
    rw [hfor, if_neg (by decide), if_neg (by decide), if_neg (by decide), if_neg (by decide),
      if_pos trivial, Kernel.wait]
    simp only [Kernel.log, hpa, hq, hparent, hexit, Option.bind_eq_bind, Option.bind_some, ne_eq,
      not_true_eq_false, if_false, Processes.registerWait, modify_eq_set hq, hk₁]
  have hd := Kernel.drain_one hpa hring htail
  rw [← ha, hsqe, Option.map_some] at hd
  have hhead := h.drain_header hp hring hoff hr hd
  refine ⟨_, hd, by rw [hk₁]; rfl, by rw [hk₁]; rfl, hhead, ?_, k₁.ringOwner p.ringPa, ?_⟩
  · rw [cqTail, Kernel.ringStore_mem, Mem.load_store_disjoint (by rw [offCqTail, offSqHead]; omega),
      hk₁]
    rfl
  · show _ :: k₁.trace = _
    rw [hk₁]
    rfl

end Drain

namespace Scene

variable {programs : List (String × List UInt8)} {ok : Machine → Act → Prop} {m : Machine}
  {p q : Process}

/-- The first process submits a wait for the second and enters the kernel. -/
theorem waits (h : Scene programs ok m [p, q] (taskOf 0))
    (hok : ∀ k a, k.processes = [p, q] → ok { m with k := k } a) (hpc : m.user (taskOf 0) = .el0)
    (hring : p.ringPa ≠ 0) (hoff : p.loaded.OffRing) (hparent : q.parent = some 0)
    (hexit : q.exitCode = none) (hflags : flags m.k.mem p.ringPa = 0)
    (hsq : sqHead m.k.mem p.ringPa = sqTail m.k.mem p.ringPa) (tag : Nat) (htag : tag < 2 ^ 64) :
    ∃ k', Scene programs ok { m with k := k' } [p, { q with exitWaiter := some tag }] (taskOf 0) ∧
      sqHead k'.mem p.ringPa = sqTail k'.mem p.ringPa ∧
      cqHead k'.mem p.ringPa = cqHead m.k.mem p.ringPa ∧
      cqTail k'.mem p.ringPa = cqTail m.k.mem p.ringPa ∧ flags k'.mem p.ringPa = 0 ∧
      ∃ owner, k'.trace = .ringStore p.ringPa owner :: .sqe 0 tag p.ttbr0 (some 1) ::
        m.k.trace := by
  obtain ⟨k₁, hk₁⟩ : ∃ k₁ : Kernel,
    k₁ = m.k.setMem (submitted m.k.mem p.ringPa opWait 1 0 tag) := ⟨_, rfl⟩
  have h₁ : Scene programs ok { m with k := k₁ } [p, q] (taskOf 0) := by
    rw [hk₁]
    exact h.submits hok rfl hpc hring opWait 1 0 tag
  obtain ⟨hmem₁, htrace₁⟩ : k₁.mem = submitted m.k.mem p.ringPa opWait 1 0 tag ∧
      k₁.trace = m.k.trace := by
    rw [hk₁]
    exact ⟨rfl, rfl⟩
  have hu₁ := h₁.atUser (p := p) rfl
  obtain ⟨L, own, hinv₁⟩ := h₁.inv
  have hhead₁ : sqHead k₁.mem p.ringPa = sqTail m.k.mem p.ringPa := by
    rw [hmem₁, submitted_sqHead, hsq]
  have htail₁ : sqTail k₁.mem p.ringPa = sqTail m.k.mem p.ringPa + 1 := by
    rw [hmem₁, submitted_sqTail]
  have hch₁ : cqHead k₁.mem p.ringPa = cqHead m.k.mem p.ringPa := by
    rw [hmem₁, cqHead, submitted_load _ _ _ _ _ _ (by decide), cqHead]
  have hct₁ : cqTail k₁.mem p.ringPa = cqTail m.k.mem p.ringPa := by
    rw [hmem₁, cqTail, submitted_load _ _ _ _ _ _ (by decide), cqTail]
  have hflags₁ : flags k₁.mem p.ringPa = 0 := by
    rw [hmem₁, flags, submitted_load _ _ _ _ _ _ (by decide), ← flags, hflags]
  obtain ⟨hop, harg, -, htag'⟩ := submitted_entry m.k.mem p.ringPa opWait 1 0 tag (by decide)
    (by decide) (by decide) htag rfl
  rw [← hmem₁, ← hhead₁] at hop harg htag'
  have hq₁ : k₁.processes[1]? = some q := by rw [show k₁.processes = _ from h₁.processes]; rfl
  have hr₁ : k₁.roots (some 0) = some k₁.ttbr0 := by
    rw [hu₁.root]
    exact Inv.root_of_live hu₁.entry hu₁.live
  obtain ⟨k', hd, hps, hsched, hheader, hct, owner, htrace⟩ := hinv₁.drain_wait hu₁.entry hring hoff
    hr₁ (by rw [htail₁, hhead₁]) rfl hop harg htag' hq₁ hparent hexit
  rw [show k₁.processes = _ from h₁.processes] at hps
  have hsched' : k'.sched = { tasks := allTasks [p, q], current := taskOf 0 } :=
    hsched.trans h₁.sched
  refine ⟨k', h₁.enters (p := p) rfl hpc hring (by rw [hflags₁, Nat.zero_and]) hd hps hsched'
    (hok _ _ h₁.processes), ?_, hheader.cqHead.trans hch₁, hct.trans hct₁,
    hheader.flags.trans hflags₁, owner, ?_⟩
  · rw [hheader.sqHead, hheader.sqTail]
  · rw [htrace, htrace₁, hu₁.root]

/-- A process on which a wait is parked exits: with room in its parent's queue the wait is
answered. -/
theorem reports {ps : List Process} {i j tag : Nat} (h : Scene programs ok m ps (taskOf j))
    (hpc : m.user (taskOf j) = .el0) (hq : ps[j]? = some q) (hp : ps[i]? = some p) (hij : i ≠ j)
    (hring : p.ringPa ≠ 0) (htag : q.exitWaiter = some tag) (hparent : q.parent = some i)
    (hlt : tag < 2 ^ 64)
    (hroom : cqTail m.k.mem p.ringPa - cqHead m.k.mem p.ringPa < ringEntries) (x0 : BitVec 64)
    (hok : ok m (.user (.exit x0))) :
    ∃ m', (machine programs).Reach ok m' ∧
      m'.k.processes[i]? = some { p with ringWaiter := none } ∧
      m'.k.processes[j]? = some (q.husk x0.toInt) ∧
      m'.k.trace = .cqe (some i) tag x0.toInt (some j) :: .ringStore p.ringPa (some i) ::
        .ringStore p.ringPa (some i) :: .ringStore p.ringPa (some i) :: m.k.trace := by
  have hu := (h.atUser hq).kprintln (Machine.exitReport x0.toInt)
  obtain ⟨code, hcode⟩ : ∃ code, code = x0.toInt := ⟨_, rfl⟩
  have hfits : code.bmod (2 ^ 64) = code := hcode ▸ BitVec.toInt_bmod_cancel x0
  rw [← hcode] at hu ⊢
  obtain ⟨L, own, hinv⟩ := h.inv
  have hinv := hinv.kprintln (Machine.exitReport code)
  have hp' : m.k.processes[i]? = some p := by rw [h.processes, hp]
  have hne : q.parent ≠ some j := by rw [hparent]; exact fun e ↦ hij (Option.some.inj e)
  obtain ⟨k', ht⟩ := Kernel.teardown_isSome hu.entry (fun l hl ↦ by
    obtain rfl := Option.some.inj (hparent.symm.trans hl)
    exact (List.getElem?_eq_some_iff.mp hp').1) code
  obtain ⟨k₁, msg, hrep, hk'⟩ := Kernel.teardown_cases hu.entry hne ht
  obtain ⟨k₀, hk₀⟩ : ∃ k₀ : Kernel,
    k₀ = { m.k.kprintln (Machine.exitReport code) with
      processes := (m.k.kprintln (Machine.exitReport code)).processes.set j (q.exited code) } :=
    ⟨_, rfl⟩
  obtain ⟨htrace₀, hmem₀, hps₀⟩ : k₀.trace = m.k.trace ∧ k₀.mem = m.k.mem ∧
      k₀.processes = m.k.processes.set j (q.exited code) := by
    rw [hk₀]
    exact ⟨rfl, rfl, rfl⟩
  have howner := (Rings.of_inv hinv).owner_exited hu.entry hp' (Ne.symm hij) hring hps₀
  have hp₀ : k₀.processes[i]? = some p := by rwa [hps₀, List.getElem?_set_ne (Ne.symm hij)]
  have hhusk := hrep.getElem?_husk hu.entry hne
  rw [← hk₀] at hrep
  -- the report is the answer
  obtain ⟨hps₁, htrace₁⟩ : k₁.processes[i]? = some { p with ringWaiter := none } ∧
      k₁.trace = (k₀.complete p.ringPa tag code (some j)).trace := by
    cases hrep with
    | silent hno =>
      rcases hno with hno | hno
      · rw [htag] at hno
        cases hno
      · rw [hparent] at hno
        cases hno
    | @answered parent tag' r htag' hparent' hr hring' =>
      obtain rfl := Option.some.inj (hparent.symm.trans hparent')
      obtain rfl := Option.some.inj (htag.symm.trans htag')
      obtain rfl := Option.some.inj (hp₀.symm.trans hr)
      exact ⟨List.getElem?_set_self (List.getElem?_eq_some_iff.mp hp₀).1, rfl⟩
    | @lost parent tag' r htag' hparent' hr hring' =>
      obtain rfl := Option.some.inj (hparent.symm.trans hparent')
      obtain rfl := Option.some.inj (hp₀.symm.trans hr)
      exact absurd hring' hring
  have hps' : k'.taskExit.processes = k₁.processes.set j (q.husk code) := by
    rw [Kernel.taskExit, Kernel.schedule_processes, hk']
    exact Kernel.activate_processes ..
  have htrace' : k'.taskExit.trace = k₁.trace := by
    rw [Kernel.taskExit, Kernel.schedule_trace, hk', Kernel.activate_eq]
    rfl
  refine ⟨{ m.userGoto .gone with k := k'.taskExit }, h.reach.step hok ?_, ?_, ?_, ?_⟩
  · refine (Machine.step_user (h.atUser hq) hpc _).trans ?_
    rw [Machine.userStep, ← hcode, Machine.exitStep, ht]
    rfl
  · show k'.taskExit.processes[i]? = _
    rw [hps', List.getElem?_set_ne (Ne.symm hij), hps₁]
  · exact hps' ▸ hhusk
  · show k'.taskExit.trace = _
    rw [htrace', htrace₁, ← htrace₀]
    rcases k₀.complete_cases p.ringPa tag code (some j) with ⟨hfull, -⟩ | ⟨-, -, htr⟩
    · rw [hmem₀] at hfull
      exact absurd hfull (BitVec.not_le.mpr hroom)
    · rw [htr, howner, Nat.mod_eq_of_lt hlt, hfits]

/-- The second process gets its turn and exits; the wait of the first one is answered. -/
theorem childEnds {tag : Nat} (h : Scene programs System.Free m [p, q] (taskOf 0))
    (hpc : m.user (taskOf 0) = .el0) (hstart : m.user (taskOf 1) = .start) (hring : p.ringPa ≠ 0)
    (htag : q.exitWaiter = some tag) (hparent : q.parent = some 0) (hlt : tag < 2 ^ 64)
    (hroom : cqTail m.k.mem p.ringPa - cqHead m.k.mem p.ringPa < ringEntries) (x0 : BitVec 64) :
    ∃ m', (machine programs).Reach System.Free m' ∧
      m'.k.processes[0]? = some { p with ringWaiter := none } ∧
      m'.k.processes[1]? = some (q.husk x0.toInt) ∧
      m'.k.trace = .cqe (some 0) tag x0.toInt (some 1) :: .ringStore p.ringPa (some 0) ::
        .ringStore p.ringPa (some 0) :: .ringStore p.ringPa (some 0) :: m.k.trace := by
  obtain ⟨m₁, h₁, huser₁, -, hidle, -⟩ := h.tick (next_user (p := q) rfl)
    (h.unmasked_user (.inl hpc)) trivial
  have h₂ := h₁.start (p := q) rfl (by rw [huser₁, hstart]) trivial
  have hpc₂ : m₁.userTask.user (taskOf 1) = .el0 := userTask_self (h₁.atUser (p := q) rfl)
  have hmem : m₁.k.mem = m.k.mem := congrArg Phys.mem hidle.phys
  obtain ⟨m₃, hreach, hp, hq, htrace⟩ := h₂.reports (p := p) (q := q) (i := 0) (j := 1) hpc₂ rfl rfl
    (by decide) hring htag hparent hlt (by rw [← hmem] at hroom; exact hroom) x0 trivial
  exact ⟨m₃, hreach, hp, hq, htrace.trans (by rw [← hidle.trace]; rfl)⟩

end Scene

/-- **Every wait for a child is answered once, with its exit code.**  In every run, for a process
that never waits for a child while an earlier wait for it is unanswered: as long as a child has not
exited no wait for it is answered; once it has, the waits for it that have been taken up are those
that have been answered (or whose answer was dropped because the queue was full), and every answer
has the exit code as its result. -/
theorem waits_answered {programs : List (String × List UInt8)} {m : Machine} {pid c : Nat}
    {p q : Process} (hprog : ∀ q ∈ programs, Elf.InUserSlot q.2)
    (h : (machine programs).Reach System.Free m) (hp : m.k.processes[pid]? = some p)
    (hl : p.live = true) (hq : m.k.processes[c]? = some q) (hsole : SoleWaits pid m.k.trace) :
    (q.exitCode = none → ∀ owner tag result, .cqe owner tag result (some c) ∉ m.k.trace) ∧
    ∀ code, q.exitCode = some code →
      (consumed pid m.k.trace).filter (·.1 = some c) =
        (posted pid m.k.trace + dropped pid m.k.trace).filter (·.1 = some c) ∧
      ∀ owner tag result, .cqe owner tag result (some c) ∈ m.k.trace → result = code := by
  have hrep := reported_of_reach h
  have hcode : ∀ {owner : Option Nat} {tag : Nat} {result : Int},
      .cqe owner tag result (some c) ∈ m.k.trace → q.exitCode = some result := by
    intro owner tag result he
    obtain ⟨q', hq', hc⟩ := hrep.answers he
    rwa [Option.some.inj (hq.symm.trans hq')]
  refine ⟨fun hnone owner tag result he ↦ ?_, fun code hexit ↦ ⟨?_, fun owner tag result he ↦ ?_⟩⟩
  · rw [hcode he] at hnone
    cases hnone
  · have hx : m.k.NotExited pid := fun r hr ↦ Option.some.inj (hp.symm.trans hr) ▸ hl
    obtain ⟨lost, heq, hlost⟩ := (booked_of_reach hprog h hx).balanced.accounts
    rw [hlost hsole, add_zero, add_zero] at heq
    have hdead : q.live = false := by rw [Process.live, hexit]; rfl
    rw [heq, Multiset.filter_add _ (_ + _), filter_parkedFor hq (hrep.parked hq hdead), add_zero]
  · exact Option.some.inj ((hcode he).symm.trans hexit)

/-- The shell waits for its child, which exits: the wait is answered. -/
theorem waits_answered_child : ∃ m p q, (machine shellOnly).Reach System.Free m ∧
    m.k.processes[0]? = some p ∧ p.live = true ∧ m.k.processes[1]? = some q ∧
    q.exitCode = some 42 ∧ SoleWaits 0 m.k.trace ∧ (some 1, 7) ∈ consumed 0 m.k.trace ∧
    (consumed 0 m.k.trace).filter (·.1 = some 1) =
      (posted 0 m.k.trace + dropped 0 m.k.trace).filter (·.1 = some 1) ∧
    ∀ owner tag result, .cqe owner tag result (some 1) ∈ m.k.trace → result = 42 := by
  obtain ⟨m, p, root, frames, h, hpc, hstart, -, hshell, hsq, hch, hct, hflags, htrace⟩ :=
    exists_family System.Free fun _ _ _ _ ↦ trivial
  have hring := hshell.ring
  have hl := (h.atUser (p := p) rfl).live
  obtain ⟨k₁, h₁, -, hch₁, hct₁, -, owner, htrace₁⟩ := h.waits (fun _ _ _ ↦ trivial) hpc hring
    (hshell.loaded ▸ placed_pageLoaded.offRing) rfl rfl hflags hsq 7 (by decide)
  obtain ⟨m₂, hreach, hp, hq, htrace₂⟩ := h₁.childEnds hpc hstart hring rfl rfl (by decide)
    (by rw [hct₁, hch₁, hct, hch]; decide) 42
  have hsole : SoleWaits 0 m₂.k.trace := by
    -- before it no wait was taken up, only the spawn
    have hspawn : SoleWaits 0 m.k.trace ∧ (consumed 0 m.k.trace).filter (·.1 = some 1) = 0 := by
      rw [htrace]
      exact ⟨by simp [SoleWaits, Event.opens], rfl⟩
    rw [htrace₂, htrace₁]
    iterate 5 rw [soleWaits_cons rfl]
    refine ⟨hspawn.1, fun c tag hc ↦ ?_⟩
    obtain ⟨rfl, rfl⟩ : c = 1 ∧ tag = 7 := by simpa [Event.opens] using hc
    rw [hspawn.2]
    exact Multiset.zero_le _
  have hmem : (some 1, 7) ∈ consumed 0 m₂.k.trace := by
    rw [htrace₂, htrace₁, htrace]
    simp [consumed, Event.opens]
  obtain ⟨-, hanswered⟩ := waits_answered shellOnly_inUserSlot hreach hp hl hq hsole
  obtain ⟨hall, hcode⟩ := hanswered 42 rfl
  exact ⟨m₂, _, _, hreach, hp, hl, hq, rfl, hsole, hmem, hall, hcode⟩

/-- **A second wait displaces the first.**  The shell waits for its child under the tags 7 and 8,
and the child exits: both entries have been taken up and the second is answered, but the first is
neither answered nor parked any more, and nothing was dropped for want of room. -/
theorem wait_overwritten : ∃ m p q, (machine shellOnly).Reach System.Free m ∧
    m.k.processes[0]? = some p ∧ p.live = true ∧ m.k.processes[1]? = some q ∧
    q.exitCode = some 42 ∧ {(some 1, 7), (some 1, 8)} ≤ consumed 0 m.k.trace ∧
    (some 1, 8) ∈ posted 0 m.k.trace ∧ (some 1, 7) ∉ posted 0 m.k.trace ∧
    dropped 0 m.k.trace = 0 ∧ (parkedFor 0 m.k.processes).filter (·.1 = some 1) = 0 := by
  obtain ⟨m, p, root, frames, h, hpc, hstart, -, hshell, hsq, hch, hct, hflags, htrace⟩ :=
    exists_family System.Free fun _ _ _ _ ↦ trivial
  have hring := hshell.ring
  have hl := (h.atUser (p := p) rfl).live
  have hoff : p.loaded.OffRing := hshell.loaded ▸ placed_pageLoaded.offRing
  obtain ⟨k₁, h₁, hsq₁, hch₁, hct₁, hflags₁, owner₁, htrace₁⟩ := h.waits (fun _ _ _ ↦ trivial) hpc
    hring hoff rfl rfl hflags hsq 7 (by decide)
  obtain ⟨k₂, h₂, -, hch₂, hct₂, -, owner₂, htrace₂⟩ := h₁.waits (fun _ _ _ ↦ trivial) hpc hring
    hoff rfl rfl hflags₁ hsq₁ 8 (by decide)
  obtain ⟨m₃, hreach, hp, hq, htrace₃⟩ := h₂.childEnds hpc hstart hring rfl rfl (by decide)
    (by rw [hct₂, hch₂, hct₁, hch₁, hct, hch]; decide) 42
  refine ⟨m₃, _, _, hreach, hp, hl, hq, rfl, ?_, ?_, ?_, ?_, filter_parkedFor hq rfl⟩
  all_goals rw [htrace₃, htrace₂, htrace₁, htrace]
  · simp [consumed, Event.opens]
  · simp [posted, Event.posts]
  · simp [posted, Event.posts]
  · simp [dropped, Event.drops]

end Jatuli

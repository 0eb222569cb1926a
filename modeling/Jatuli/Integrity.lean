import Jatuli.MemoryRuns
import Jatuli.Driving

/-!
# Who can change a page

`Inv` says which frame belongs to whom, and `Confined` what carrying out one process's submissions
can touch.  Put together over the steps of the machine they answer the question one would ask of an
isolating kernel: if a byte of a page of a process is not what it was, who has changed it?

`Writes` is the list of answers.  Most of it is what one would hope for: the process's own stores,
its own submissions (completions on its ring page, and data read into memory it may write to), the
keyboard when it is in the foreground, a child that ends, and its own end.  Two entries are there
because the poller can be preempted.

* `payload` with `i ≠ pid`: the poller carries out another process's submissions while this one's
  space is live, so what the other process asked to have read lands here.
* `flags`: the poller stores to the address of a ring that it has read before, and the frame may
  have become this process's page in the meantime.

Nothing else changes the page, in any run (`page_changed_by`).
-/

set_option autoImplicit false

namespace Jatuli

/-- The frame at `f` backs the page of process `pid` at `va`. -/
def Kernel.Backs (k : Kernel) (pid va f : Nat) : Prop :=
  ∃ p, k.processes[pid]? = some p ∧ (va, f) ∈ p.frames

/-- A ring page is added to what a process has. -/
theorem Kernel.Backs.setRing {k : Kernel} {pid va f : Nat} (h : k.Backs pid va f) (i frame : Nat)
    (phys : Phys) :
    Kernel.Backs { k with phys, processes := Processes.setRing k.processes i frame } pid va f := by
  obtain ⟨p, hp, hf⟩ := h
  by_cases hi : i = pid
  · subst hi
    exact ⟨_, (List.getElem?_modify_eq ..).trans (congrArg _ hp), List.mem_append_left _ hf⟩
  · exact ⟨p, (List.getElem?_modify_ne _ k.processes hi).trans hp, hf⟩

/-- What can change the byte at `x` in a page of process `pid`. -/
inductive Writes (m : Machine) (pid x : Nat) : Act → Prop
  /-- The process stores to it. -/
  | store {p : Process} {va n v va' f : Nat} (hu : AtUser m.k pid p) (hf : (va', f) ∈ p.frames)
      (hva : va' / 4096 = va / 4096) (hx : f + va % 4096 ≤ x ∧ x < f + va % 4096 + n) :
      Writes m pid x (.user (.store va n v))
  /-- The process calls `enter`, which carries out its submissions. -/
  | enter {p : Process} {minComplete : Nat} (hu : AtUser m.k pid p)
      (hx : x ∈ frameAt p.ringPa ∨ Written m.k pid (some pid) x) :
      Writes m pid x (.user (.enter minComplete))
  /-- The process ends. -/
  | exit {p : Process} {u : UserAct} {code : Int} (hact : u.exitCode = some code)
      (hu : AtUser m.k pid p) : Writes m pid x (.user u)
  /-- A child of the process ends, and a completion is posted. -/
  | child {p q : Process} {i : Nat} {u : UserAct} {code : Int} (hact : u.exitCode = some code)
      (hu : AtUser m.k i q) (hparent : q.parent = some pid) (hp : m.k.processes[pid]? = some p)
      (hx : x ∈ frameAt p.ringPa) : Writes m pid x (.user u)
  /-- The process has the keyboard, and one of its reads is completed. -/
  | uart {p : Process} {bytes : List UInt8} (hfg : Processes.foregroundPid m.k.processes = some pid)
      (hp : m.k.processes[pid]? = some p)
      (hx : x ∈ frameAt p.ringPa ∨ Written m.k pid (some pid) x) : Writes m pid x (.uart bytes)
  /-- The poller carries out the process's submissions, and posts completions. -/
  | drain {p : Process} {n : Nat} (hcur : m.atPoller) (hpc : m.poller.pc = .scanDrain n pid)
      (hp : m.k.processes[pid]? = some p) (hx : x ∈ frameAt p.ringPa) : Writes m pid x .run
  /-- The poller carries out the submissions of process `i`, and the process's space is live. -/
  | payload {p : Process} {n i : Nat} (hcur : m.atPoller) (hpc : m.poller.pc = .scanDrain n i)
      (hp : m.k.processes[pid]? = some p) (hroot : m.k.ttbr0 = p.ttbr0)
      (hx : Written m.k i (some pid) x) : Writes m pid x .run
  /-- The poller stores flags. -/
  | flags {on : Bool} {n i ringPa : Nat} {after : AfterFlags} (hcur : m.atPoller)
      (hpc : m.poller.pc = .flagsStore on n i ringPa after)
      (hx : ringPa + offFlags ≤ x ∧ x < ringPa + offFlags + 4) : Writes m pid x .run

/-- The page is still the process's, and the byte what it was. -/
structure ByteKept (pid va f x : Nat) (k k' : Kernel) : Prop where
  backs : k'.Backs pid va f
  byte : k'.mem x = k.mem x

namespace ByteKept

variable {pid va f x i : Nat} {k k' k'' : Kernel}

theorem trans (h : ByteKept pid va f x k k') (h' : ByteKept pid va f x k' k'') :
    ByteKept pid va f x k k'' := ⟨h'.backs, h'.byte.trans h.byte⟩

/-- The spaces of processes stay as they are. -/
theorem of_space (hb : k.Backs pid va f)
    (hsp : k'.processes[pid]?.map Process.space = k.processes[pid]?.map Process.space)
    (hm : k'.mem x = k.mem x) : ByteKept pid va f x k k' := by
  obtain ⟨p, hp, hf⟩ := hb
  rw [hp] at hsp
  obtain ⟨p', hp', he⟩ := Option.map_eq_some_iff.mp hsp
  simp only [Process.space, Prod.mk.injEq] at he
  exact ⟨⟨p', hp', he.2.2.1 ▸ hf⟩, hm⟩

theorem of_eq (hb : k.Backs pid va f) (hps : k'.processes = k.processes)
    (hm : k'.mem x = k.mem x) : ByteKept pid va f x k k' := of_space hb (by rw [hps]) hm

theorem refl (hb : k.Backs pid va f) : ByteKept pid va f x k k := of_eq hb rfl rfl

theorem schedule (hb : k.Backs pid va f) : ByteKept pid va f x k k.schedule :=
  of_eq hb k.schedule_processes (by rw [Kernel.schedule_eq])

theorem blockCurrent (hb : k.Backs pid va f) : ByteKept pid va f x k k.blockCurrent := by
  have h : ByteKept pid va f x k { k with sched := k.sched.markBlocked } := of_eq hb rfl rfl
  exact h.trans (schedule h.backs)

theorem taskExit (hb : k.Backs pid va f) : ByteKept pid va f x k k.taskExit := by
  have h : ByteKept pid va f x k { k with sched := k.sched.markExited } := of_eq hb rfl rfl
  exact h.trans (schedule h.backs)

/-- Some entry changes in something that has nothing to do with its space. -/
theorem modify (hb : k.Backs pid va f) {g : Process → Process}
    (hg : ∀ q, (g q).space = q.space) :
    ByteKept pid va f x k { k with processes := k.processes.modify i g } := by
  refine of_space hb ?_ rfl
  show (k.processes.modify i g)[pid]?.map Process.space = _
  rw [List.getElem?_modify]
  cases k.processes[pid]? with
  | none => rfl
  | some q =>
    show some (Process.space (if i = pid then g q else q)) = _
    split_ifs
    · rw [hg]
      rfl
    · rfl

theorem enterWait {m : Machine} {q : Process} (hb : k.Backs pid va f) (hu : AtUser k i q)
    (ringPa minComplete : Nat) :
    ByteKept pid va f x k ({ m with k := k }.enterWait i ringPa minComplete).k := by
  rcases enterWait_cases (m := { m with k := k }) hu ringPa minComplete with ⟨-, he⟩ | ⟨-, he⟩
  · rw [he]
    exact refl hb
  · rw [he]
    have h : ByteKept pid va f x k
        { k with processes := Processes.setWaiter k.processes i (taskOf i) } :=
      modify hb fun _ ↦ rfl
    exact h.trans (blockCurrent h.backs)

end ByteKept

/-! ## Single effects -/

section Effects

variable {strict : Prop} {L : Layout} {own own' : Nat → Owner} {k k' : Kernel}
  {pid va f x i : Nat} {rid : Option Nat} {p q : Process}

/-- A frame backs a page of one process only. -/
theorem Inv.backs_inj (h : Inv strict L own k) (hb : k.Backs pid va f) (hx : x ∈ frameAt f)
    (hq : k.processes[i]? = some q) {va' f' : Nat} (hf' : (va', f') ∈ q.frames)
    (hx' : x ∈ frameAt f') : i = pid := by
  obtain ⟨p, hp, hf⟩ := hb
  obtain ⟨hm, ho⟩ := h.ofFrames hp hf
  obtain ⟨hm', ho'⟩ := h.ofFrames hq hf'
  obtain rfl : f' = f := by
    by_contra hne
    exact frameAt_disjoint hm'.aligned hm.aligned hne hx' hx
  rw [ho] at ho'
  cases ho'
  rfl

theorem Inv.backs_ring (h : Inv strict L own k) (hb : k.Backs pid va f) (hx : x ∈ frameAt f)
    (hq : k.processes[i]? = some q) (hring : q.ringPa ≠ 0) (hx' : x ∈ frameAt q.ringPa) : i = pid :=
  h.backs_inj hb hx hq ((h.proc hq).ring hring).1 hx'

theorem Inv.backs_written (h : Inv strict L own k) (hb : k.Backs pid va f) (hx : x ∈ frameAt f)
    (hw : Written k i rid x) : rid = some pid := by
  obtain ⟨j, q, va', va'', f', rfl, hq, hf', -, he, -⟩ := hw
  rw [h.backs_inj hb hx hq hf' (mem_frameAt.mpr (by omega))]

/-- What is done on behalf of process `i` reaches the page only if it is `i`'s ring page, or in the
live space. -/
theorem Inv.confined_kept (h : Inv strict L own k) (hb : k.Backs pid va f) (hx : x ∈ frameAt f)
    (hq : k.processes[i]? = some q) (hring : q.ringPa ≠ 0)
    (hc : Confined L i rid q.ringPa own k own' k') :
    ByteKept pid va f x k k' ∨ i = pid ∧ x ∈ frameAt q.ringPa ∨
      rid = some pid ∧ Written k i (some pid) x := by
  by_cases hx' : x ∈ frameAt q.ringPa
  · exact .inr (.inl ⟨h.backs_ring hb hx hq hring hx', hx'⟩)
  by_cases hw : Written k i rid x
  · have hrid := h.backs_written hb hx hw
    exact .inr (.inr ⟨hrid, hrid ▸ hw⟩)
  refine .inl ?_
  obtain ⟨p, hp, hf⟩ := hb
  obtain ⟨hm, ho⟩ := h.ofFrames hp hf
  obtain ⟨p', hp', ht⟩ := hc.entries hp
  refine .of_space ⟨p, hp, hf⟩ (by rw [hp, hp', Option.map_some, Option.map_some, ht.space]) ?_
  exact (hc.kept f hm (by rw [ho]; rintro ⟨⟩)).2 x hx ⟨hx', hw⟩

/-- A change that keeps frames in use. -/
theorem Inv.page_kept (h : Inv strict L own k) (hb : k.Backs pid va f) (hx : x ∈ frameAt f)
    {P : Nat → Prop} (hkept : Kept L.start P own own' k.mem k'.mem)
    (hP : own f = .page (some pid) → P f) : k'.mem x = k.mem x := by
  obtain ⟨p, hp, hf⟩ := hb
  obtain ⟨hm, ho⟩ := h.ofFrames hp hf
  exact (hkept f hm (by rw [ho]; rintro ⟨⟩) (hP ho)).2 hx

/-- Another process ends, which is no child of this one or has nothing to report. -/
theorem Inv.teardown_kept {code : Int} (h : Inv strict L own k) (hb : k.Backs pid va f)
    (hx : x ∈ frameAt f) (hi : i ≠ pid) (hq : k.processes[i]? = some q) (hl : q.live = true)
    (hne : q.parent ≠ some i) (hroot : k.ttbr0 = q.ttbr0) (ht : k.teardown i code = some k') :
    ByteKept pid va f x k k' ∨ ∃ p, q.parent = some pid ∧ k.processes[pid]? = some p ∧
      x ∈ frameAt p.ringPa := by
  by_cases hrep : Inv.ReportPage k q f
  · obtain ⟨parent, r, hparent, hr, hring, rfl⟩ := hrep
    obtain rfl := h.backs_ring hb hx hr hring hx
    exact .inr ⟨r, hparent, hr, hx⟩
  refine .inl ?_
  obtain ⟨own', -, hkept, -⟩ := h.teardown hq hl hne hroot ht
  refine .of_space hb ?_ (h.page_kept hb hx hkept fun ho ↦ ⟨?_, fun _ ↦ ?_, hrep⟩)
  · obtain ⟨k₁, msg, hreport, rfl⟩ := Kernel.teardown_cases hq hne ht
    rw [Kernel.kprintln_processes, Kernel.activate_processes]
    exact ExitReport.map_of_ne hreport Process.space (fun _ ↦ rfl) (Ne.symm hi)
  · rw [ho]
    rintro ⟨⟩
    exact hi rfl
  · rw [ho]
    rintro ⟨⟩

end Effects

/-! ## Steps -/

section Steps

variable {L : Layout} {own : Nat → Owner} {m m' : Machine} {a : Act} {k' : Kernel}
  {pid va f x : Nat}

/-- The poller's steps. -/
theorem MemOk.poller_kept (hmem : MemOk L m) (hctl : Ctl m) (hb : m.k.Backs pid va f)
    (hx : x ∈ frameAt f) (hcur : m.atPoller) {l' : Poller}
    (hmove : PollerMove m.k m.poller k' l') :
    ByteKept pid va f x m.k k' ∨ Writes m pid x .run := by
  obtain ⟨own, hinv⟩ := hmem.inv
  cases hmove with
  | record hpc => exact .inl (.of_eq hb rfl rfl)
  | scanActivate hpc =>
    exact .inl (.of_eq hb (Kernel.activate_processes ..) (by rw [Kernel.activate_eq]))
  | @scanDrain n i k' hpc hd =>
    obtain ⟨q, hq⟩ := drain_entry hd
    by_cases hring : q.ringPa = 0
    · obtain rfl := drain_of_no_ring (fun hq' ↦ by rw [hq] at hq'; cases hq'; exact hring) hd
      exact .inl (.refl hb)
    · obtain ⟨rid, hr⟩ := hmem.root.drain hpc hq (hctl.orderly.live_of_ring hq hring)
      obtain ⟨own', -, hc⟩ := hinv.drain hq hr hd
      rcases hinv.confined_kept hb hx hq hring hc with hkept | ⟨rfl, hx'⟩ | ⟨rfl, hw⟩
      · exact .inl hkept
      · exact .inr (.drain hcur hpc hq hx')
      · obtain ⟨p, hp, -, hroot⟩ := Kernel.roots_some.mp hr
        exact .inr (.payload hcur hpc hp hroot.symm hw)
  | worked hpc hk =>
    rcases hk with rfl | rfl
    · exact .inl (.refl hb)
    · exact .inl (.of_eq hb rfl rfl)
  | @flagsStore on n i ringPa after hpc =>
    by_cases hx' : ringPa + offFlags ≤ x ∧ x < ringPa + offFlags + 4
    · exact .inr (.flags hcur hpc hx')
    · refine .inl (.of_eq hb rfl ?_)
      rw [Kernel.ringStore_mem]
      exact Mem.store_eqOn le_rfl le_rfl hx'
  | block hpc => exact .inl (.blockCurrent hb)
  | yield hpc => exact .inl (.schedule hb)
  | _ => exact .inl (.refl hb)

/-- `enter` up to its wait loop. -/
theorem MemOk.enterSubmit_kept (hmem : MemOk L m) (hctl : Ctl m) (hb : m.k.Backs pid va f)
    (hx : x ∈ frameAt f) {i minComplete : Nat} {q : Process} (hu : AtUser m.k i q)
    (hring : q.ringPa ≠ 0) (hs : m.k.enterSubmit i q.ringPa = some k') :
    ByteKept pid va f x m.k k' ∨ Writes m pid x (.user (.enter minComplete)) := by
  obtain ⟨own, hinv⟩ := hmem.inv
  have hwrites : i = pid → x ∈ frameAt q.ringPa ∨ Written m.k i (some pid) x →
      Writes m pid x (.user (.enter minComplete)) := by
    rintro rfl
    exact .enter hu
  by_cases hx' : x ∈ frameAt q.ringPa
  · exact .inr (hwrites (hinv.backs_ring hb hx hu.entry hring hx') (.inl hx'))
  obtain ⟨k₁, hk₁, hd, -, -, -⟩ := hctl.orderly.enterSubmit (hctl.idle hu).2 hu.entry hs
  -- first the flag may be lowered
  obtain ⟨h₁, hps₁, hr₁, hm₁⟩ := MemOk.lowered hinv hu hring hk₁
  have hkept₁ : ByteKept pid va f x m.k k₁ := .of_eq hb hps₁ (hm₁ hx')
  have hq₁ : k₁.processes[i]? = some q := by rw [hps₁, hu.entry]
  -- then the submissions are carried out, in the process's own space
  obtain ⟨own', -, hc⟩ := h₁.drain hq₁ hr₁ hd
  rcases h₁.confined_kept hkept₁.backs hx hq₁ hring hc with hkept | ⟨-, hx''⟩ | ⟨hrid, hw⟩
  · exact .inl (hkept₁.trans hkept)
  · exact absurd hx'' hx'
  · refine .inr (hwrites (Option.some.inj hrid) (.inr ?_))
    rwa [Written, hps₁] at hw

/-- The UART interrupt. -/
theorem Ctl.uart_kept (hctl : Ctl m) (hinv : Inv False L own m.k) (hb : m.k.Backs pid va f)
    (hx : x ∈ frameAt f) {bytes : List UInt8} (hs : Machine.uartIrq m.k bytes = some k') :
    ByteKept pid va f x m.k k' ∨ Writes m pid x (.uart bytes) := by
  rcases hctl.uart_move hs with ⟨input, uart⟩ |
    @⟨input, uart, i, i₁, i₃, q, k₂, completed, hfg, hq, hring, hloop⟩
  · exact .inl (.of_eq hb rfl rfl)
  have hr := Inv.root_of_live hq (hctl.orderly.live_of_ring hq hring)
  have h₂ : Inv False L own { m.k with input, uart, installed := i₁, ttbr0 := q.ttbr0 } :=
    hinv.of_mem_eq ⟨rfl, fun _ ↦ rfl, rfl, rfl, rfl⟩ rfl
  obtain ⟨-, hc⟩ := h₂.pollPendingFrom hq hring hr hfg hloop
  have hio : ByteKept pid va f x m.k
      { m.k with input, uart, installed := i₁, ttbr0 := q.ttbr0 } := .of_eq hb rfl rfl
  rcases h₂.confined_kept hio.backs hx hq hring hc with hkept | ⟨rfl, hx'⟩ | ⟨hrid, hw⟩
  · refine .inl ((hio.trans hkept).trans ?_)
    cases completed with
    | false => exact .of_eq hkept.backs rfl rfl
    | true =>
      have hwaiter : ByteKept pid va f x k₂
          { k₂ with processes := (Processes.takeWaiter k₂.processes i).2 } :=
        .modify hkept.backs fun _ ↦ rfl
      exact hwaiter.trans (.of_eq hwaiter.backs rfl rfl)
  · exact .inr (.uart hfg hq (.inl hx'))
  · obtain rfl := Option.some.inj hrid
    exact .inr (.uart hfg hq (.inr hw))

/-- **A step leaves the byte alone, or is one of those listed.** -/
theorem MemOk.byte_kept (hmem : MemOk L m) (hctl : Ctl m) (hb : m.k.Backs pid va f)
    (hx : x ∈ frameAt f) (hm : Move m a m') :
    ByteKept pid va f x m.k m'.k ∨ Writes m pid x a := by
  obtain ⟨own, hinv⟩ := hmem.inv
  have ho := hctl.orderly
  cases hm with
  | @create image root s₁ s₂ loaded frames hcur hpc himage hroot hspace =>
    obtain ⟨own', -, hkept, -⟩ :=
      hinv.create (hinv.image himage) hroot hspace (p := .fresh root loaded frames) rfl
    refine .inl ⟨?_, hinv.page_kept hb hx hkept fun _ ↦ trivial⟩
    obtain ⟨p, hp, hf⟩ := hb
    exact ⟨p, (List.getElem?_append_left (List.getElem?_eq_some_iff.mp hp).1).trans hp, hf⟩
  | foreground hcur hpc => exact .inl (.modify hb fun _ ↦ rfl)
  | spawnJsh hcur hpc hp => exact .inl (.of_eq hb rfl rfl)
  | idle hcur hpc => exact .inl (.schedule hb)
  | poller hcur hmove => exact hmem.poller_kept hctl hb hx hcur hmove
  | start hu hpc => exact .inl (.of_eq hb rfl rfl)
  | retest hu hpc => exact .inl (.enterWait (m := m) hb hu _ _)
  | @store i va' n v q k' hu hpc hs =>
    obtain ⟨-, j, q', va'', f', hj, hq', hf', hva, hfit, rfl⟩ := hinv.userStore hu.rooted hs
    obtain rfl := Option.some.inj hj
    obtain rfl := Option.some.inj (hu.entry.symm.trans hq')
    by_cases hx' : f' + va' % 4096 ≤ x ∧ x < f' + va' % 4096 + n
    · obtain rfl := hinv.backs_inj hb hx hq' hf' (mem_frameAt.mpr (by omega))
      exact .inr (.store hu hf' hva hx')
    · exact .inl (.of_eq hb rfl (Mem.store_eqOn le_rfl le_rfl hx'))
  | @setup i q k' hu hpc hs =>
    rcases hinv.setupRing hu.entry hu.live hs with
      ⟨-, rfl⟩ | ⟨-, own', frame, phys, rfl, -, hkept, -⟩
    · exact .inl (.refl hb)
    · refine .inl ⟨?_, hinv.page_kept hb hx hkept fun hof _ ↦ by rw [hof]; rintro ⟨⟩⟩
      exact hb.setRing i frame phys
  | enterNothing hu hpc hring => exact .inl (.refl hb)
  | @enter i minComplete q k' hu hpc hring hs =>
    obtain ⟨-, q', hu', -⟩ := Proceeds.enterSubmit ho hctl.running (hctl.idle hu).2 hu hs
    rcases hmem.enterSubmit_kept hctl hb hx hu hring hs with hkept | hw
    · exact .inl (hkept.trans (.enterWait (m := m) hkept.backs hu' _ _))
    · exact .inr hw
  | @exit u i code q report k' hact hu hpc ht =>
    by_cases hi : i = pid
    · subst hi
      exact .inr (.exit hact hu)
    have hu₀ := hu.kprintln report
    have hne := ho.parent_ne hu.entry
    have hb₀ : (m.k.kprintln report).Backs pid va f := hb
    rcases (hinv.kprintln report).teardown_kept hb₀ hx hi hu₀.entry hu.live hne hu₀.root ht with
      hkept | ⟨p, hparent, hp, hx'⟩
    · have hprint : ByteKept pid va f x m.k (m.k.kprintln report) := .of_eq hb rfl rfl
      exact .inl ((hprint.trans hkept).trans (.taskExit hkept.backs))
    · exact .inr (.child hact hu hparent hp hx')
  | tick hmask =>
    have hwake : ByteKept pid va f x m.k { m.k with
        ticks := (m.k.ticks + 1) % 2 ^ 64
        sched := m.k.sched.wakeSleepers ((m.k.ticks + 1) % 2 ^ 64) } := .of_eq hb rfl rfl
    exact .inl (hwake.trans (.schedule hwake.backs))
  | uart hmask hs => exact hctl.uart_kept hinv hb hx hs

end Steps

/-! ## Runs -/

/-- **Nobody else changes a page of a process.**  If a run of the machine, from any state it can be
in, changes a byte of a page of a process, then one of its steps is in the list of `Writes`, and the
page was the process's until then. -/
theorem page_changed_by {programs : List (String × List UInt8)}
    (hslot : ∀ q ∈ programs, Elf.InUserSlot q.2) {pid va f x : Nat} (hx : x ∈ frameAt f)
    (as : List Act) {m m' : Machine} (h : (machine programs).Reach System.Free m)
    (hrun : as.foldlM Machine.step m = some m') (hb : m.k.Backs pid va f)
    (hne : m'.k.mem x ≠ m.k.mem x) :
    ∃ bs a t, bs ++ [a] <+: as ∧ bs.foldlM Machine.step m = some t ∧ t.k.Backs pid va f ∧
      t.k.mem x = m.k.mem x ∧ Writes t pid x a := by
  induction as generalizing m with
  | nil =>
    obtain rfl := Option.some.inj hrun
    exact absurd rfl hne
  | cons a as ih =>
    rw [List.foldlM_cons] at hrun
    obtain ⟨m₁, hs₁, hrun⟩ := Option.bind_eq_some_iff.mp hrun
    have hctl := ctl_of_reach h
    obtain ⟨L, hmem⟩ := memOk_of_reach hslot h
    rcases hmem.byte_kept hctl hb hx (step_cases hctl.orderly hctl.running hs₁) with hkept | hw
    · obtain ⟨bs, b, t, hpre, hbs, hbt, hbyte, hw⟩ := ih (h.step trivial hs₁) hrun hkept.backs
        (hkept.byte ▸ hne)
      refine ⟨a :: bs, b, t, List.cons_prefix_cons.mpr ⟨rfl, hpre⟩, ?_, hbt,
        hbyte.trans hkept.byte, hw⟩
      rw [List.foldlM_cons, hs₁]
      exact hbs
    · exact ⟨[], a, m, List.cons_prefix_cons.mpr ⟨rfl, List.nil_prefix⟩, rfl, hb, rfl, hw⟩

/-- The shell stores to its ring page. -/
theorem page_changed_by_shell : ∃ m m' f, (machine shellOnly).Reach System.Free m ∧
    [Act.user (.store (userRingVa + offSqTail) 1 7)].foldlM Machine.step m = some m' ∧
    m.k.mem (f + offSqTail) = 0 ∧ m'.k.mem (f + offSqTail) = 7 ∧
    ∃ bs a t, bs ++ [a] <+: [Act.user (.store (userRingVa + offSqTail) 1 7)] ∧
      bs.foldlM Machine.step m = some t ∧ t.k.Backs 0 userRingVa f ∧
      t.k.mem (f + offSqTail) = m.k.mem (f + offSqTail) ∧ Writes t 0 (f + offSqTail) a := by
  obtain ⟨m, p, h, hel0, -, ⟨hring, -⟩, hzero, -⟩ :=
    exists_ringed System.Free fun _ _ _ _ ↦ trivial
  obtain ⟨L, own, hinv⟩ := h.inv
  have hu := h.atUser (p := p) rfl
  have hx : p.ringPa + offSqTail ∈ frameAt p.ringPa :=
    mem_frameAt.mpr ⟨Nat.le_add_right _ _, Nat.add_lt_add_left (by decide) _⟩
  have hrun : [Act.user (.store (userRingVa + offSqTail) 1 7)].foldlM Machine.step m =
      some { m with k := m.k.setMem (m.k.mem.store (p.ringPa + offSqTail) 1 7) } := by
    rw [List.foldlM_cons, Machine.step_user hu hel0, Machine.userStep, Machine.userStore,
      if_pos (by decide), hu.root, hinv.el0WritablePa_ring hu.entry hring offSqTail (by decide)]
    rfl
  have hbefore := hzero _ hx
  have hafter : m.k.mem.store (p.ringPa + offSqTail) 1 7 (p.ringPa + offSqTail) = 7 := by
    rw [Mem.store, if_pos ⟨le_rfl, Nat.lt_succ_self _⟩, Nat.sub_self]
    rfl
  refine ⟨m, _, p.ringPa, h.reach, hrun, hbefore, hafter, page_changed_by shellOnly_inUserSlot hx _
    h.reach hrun ⟨p, hu.entry, ((hinv.proc hu.entry).ring hring).1⟩ ?_⟩
  rw [show m.k.mem _ = 0 from hbefore]
  exact fun he ↦ absurd (hafter.symm.trans he) (by decide)

end Jatuli

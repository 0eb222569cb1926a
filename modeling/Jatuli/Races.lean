import Jatuli.Family
import Jatuli.Roots

/-!
# What the poller does with what it has read

The poller installs the space of a process and then drains its ring, in two steps between which
other tasks may run.  Whether an entry is carried out in its owner's space is therefore a matter of
who ran in between.
-/

set_option autoImplicit false

namespace Jatuli

/-! ## What a step adds to the history -/

section Events

variable {m m' : Machine} {a : Act} {P : Event → Prop}

theorem drain_of_empty {k k' : Kernel} {pid : Nat} {p : Process}
    (hp : k.processes[pid]? = some p) (he : sqHead k.mem p.ringPa = sqTail k.mem p.ringPa)
    (hd : k.drain pid = some k') : k' = k := by
  rw [Kernel.drain, Processes.ringPa, hp, Option.map_some] at hd
  simp only [Option.bind_eq_bind, Option.bind_some] at hd
  split_ifs at hd
  · cases hd
    rfl
  · rw [he, BitVec.sub_self] at hd
    cases hd
    rfl

theorem setupRing_trace {k k' : Kernel} {pid : Nat} (h : k.setupRing pid = some k') :
    k'.trace = k.trace := by
  obtain ⟨-, -, ⟨-, rfl⟩ | ⟨-, -, -, -, -, -, rfl⟩⟩ := Kernel.setupRing_cases h
  · rfl
  · rfl

/-- What a step of the machine adds to the history: entries carried out for the running process or
for the one the poller drains, completions and ring stores of a live process, and the poller's
store of flags. -/
theorem events_of_move (h : Ctl m) (hm : Move m a m')
    (hP : ∀ (i : Nat) (q : Process), m.k.processes[i]? = some q → q.live = true →
      ∀ o e, o ≠ none → Event.About q.ringPa o e → P e)
    (hflags : ∀ on n i ringPa after, m.atPoller → a = .run →
      m.poller.pc = .flagsStore on n i ringPa after → P (.ringStore ringPa (m.k.ringOwner ringPa)))
    (hdrain : ∀ n i p, m.atPoller → a = .run → m.poller.pc = .scanDrain n i →
      m.k.processes[i]? = some p → p.ringPa ≠ 0 →
      sqHead m.k.mem p.ringPa ≠ sqTail m.k.mem p.ringPa →
      ∀ tag child, P (.sqe i tag m.k.ttbr0 child))
    (henter : ∀ pid p, AtUser m.k pid p → ∀ tag child, P (.sqe pid tag p.ttbr0 child)) :
    NewEvents P m.k m'.k := by
  have ho := h.orderly
  have hwait : ∀ {k : Kernel} {pid ringPa minComplete : Nat} {p : Process}, AtUser k pid p →
      NewEvents P k ({ m with k := k }.enterWait pid ringPa minComplete).k := by
    intro k pid ringPa minComplete p hu
    rcases enterWait_cases (m := { m with k := k }) hu ringPa minComplete with
      ⟨-, he⟩ | ⟨-, he⟩
    · rw [he]
      exact .of_eq rfl
    · rw [he]
      exact .of_eq (Kernel.schedule_trace _)
  cases hm with
  | create hcur hpc himage hroot hspace => exact .of_eq rfl
  | foreground hcur hpc => exact .of_eq rfl
  | spawnJsh hcur hpc hp => exact .of_eq rfl
  | idle hcur hpc => exact .of_eq (Kernel.schedule_trace _)
  | poller hcur hmove =>
    cases hmove with
    | scanActivate hpc => exact .of_eq (m.k.activate_trace _)
    | @scanDrain n i k' hpc hd =>
      obtain ⟨p, hp⟩ := drain_entry hd
      by_cases hring : p.ringPa = 0
      · cases drain_of_no_ring (fun hq ↦ by rw [hp] at hq; cases hq; exact hring) hd
        exact .of_eq rfl
      · have hl := ho.live_of_ring hp hring
        by_cases hempty : sqHead m.k.mem p.ringPa = sqTail m.k.mem p.ringPa
        · cases drain_of_empty hp hempty hd
          exact .of_eq rfl
        · exact drain_events (hP i p hp hl) (hdrain n i p hcur rfl hpc hp hring hempty) hp
            (fun _ ↦ hl) hd
    | worked hpc hk =>
      rcases hk with rfl | rfl
      · exact .of_eq rfl
      · exact .of_eq rfl
    | flagsStore hpc => exact .cons rfl (hflags _ _ _ _ _ hcur rfl hpc)
    | block hpc => exact .of_eq (Kernel.schedule_trace _)
    | yield hpc => exact .of_eq (Kernel.schedule_trace _)
    | _ => exact .of_eq rfl
  | start hu hpc => exact .of_eq rfl
  | retest hu hpc => exact hwait hu
  | store hu hpc hs =>
    obtain ⟨pa, rfl⟩ := Machine.userStore_cases hs
    exact .of_eq rfl
  | setup hu hpc hs => exact .of_eq (setupRing_trace hs)
  | enterNothing hu hpc hring => exact .of_eq rfl
  | @enter pid minComplete p k' hu hpc hring hs =>
    obtain ⟨-, p', hu', -⟩ := Proceeds.enterSubmit ho h.running (h.idle hu).2 hu hs
    refine NewEvents.trans ?_ (hwait hu')
    refine enterSubmit_events ho hP (fun tag child ↦ ?_) (h.idle hu).2 hu.entry hu.live hring hs
    rw [hu.root]
    exact henter pid p hu tag child
  | @exit u pid code p report k' hact hu hpc ht =>
    exact (teardown_events (k := m.k.kprintln report) (ho.kprintln report) hP hu.entry ht).trans
      (.of_eq (Kernel.schedule_trace _))
  | tick hmask => exact .of_eq (Kernel.schedule_trace _)
  | uart hmask hs =>
    obtain ⟨⟨input, uart⟩, -, rfl | ⟨-, -, hs⟩⟩ := h.uart_cases hs
    · exact .of_eq rfl
    · exact pollPending_events (k := { m.k with input, uart })
        (ho.quiet (input_quiet m.k input uart)) hP hs

end Events

/-! ## Entries are carried out in the space of their owner -/

/-- The process that ran last, forgotten when the poller installs a space. -/
def ranSince (last : Option Nat) (m : Machine) (_ : Act) (m' : Machine) : Option Nat :=
  m'.k.sched.currentProcess.or
    (match m.poller.pc, m'.poller.pc with
    | .scanActivate _ _ _, .scanDrain _ _ => none
    | _, _ => last)

/-- The machine with a record of the process that ran last since the poller installed a space. -/
def watched (programs : List (String × List UInt8)) : System (Machine × Option Nat) Act :=
  (machine programs).track none ranSince

/-- When the poller drains process `i`, and there is something to drain, no other process has run
after the poller installed the space of `i`, unless `i` itself has run since. -/
def Undisturbed (x : Machine × Option Nat) (a : Act) : Prop :=
  ∀ n i p, x.1.atPoller → a = .run → x.1.poller.pc = .scanDrain n i →
    x.1.k.processes[i]? = some p → p.ringPa ≠ 0 →
    sqHead x.1.k.mem p.ringPa ≠ sqTail x.1.k.mem p.ringPa → x.2 = none ∨ x.2 = some i

/-- The space the poller has installed is live until another process runs. -/
structure SpaceKept (x : Machine × Option Nat) : Prop where
  running : ∀ {j : Nat}, x.1.k.sched.currentProcess = some j → x.2 = some j
  space : ∀ {n i : Nat}, x.1.poller.pc = .scanDrain n i →
    ∃ p, x.1.k.processes[i]? = some p ∧
      (p.live = true → x.2 = none ∨ x.2 = some i → x.1.k.ttbr0 = p.ttbr0)

theorem enterWait_poller (m : Machine) (pid ringPa minComplete : Nat) :
    (m.enterWait pid ringPa minComplete).poller = m.poller := by
  rw [Machine.enterWait]
  split_ifs <;> rfl

/-- The poller comes to `drain` by installing a space. -/
theorem pc_scanDrain {m m' : Machine} {a : Act} {n i : Nat} (hm : Move m a m')
    (hpc' : m'.poller.pc = .scanDrain n i) :
    m.poller.pc = .scanDrain n i ∨
      ∃ root, m.poller.pc = .scanActivate n i root ∧ m'.k = m.k.activate root := by
  cases hm with
  | @poller k' l' hcur hmove =>
    cases hmove with
    | @scanActivate n' i' root hpc =>
      cases hpc'
      exact .inr ⟨root, hpc, rfl⟩
    | _ => cases hpc'
  | retest hu hpc =>
    rw [enterWait_poller] at hpc'
    exact .inl hpc'
  | enter hu hpc hring hs =>
    rw [enterWait_poller] at hpc'
    exact .inl hpc'
  | _ => exact .inl hpc'

theorem SpaceKept.step {x x' : Machine × Option Nat} {a : Act} (hctl : Ctl x.1)
    (h : SpaceKept x) (hm : Move x.1 a x'.1) (hnote : x'.2 = ranSince x.2 x.1 a x'.1) :
    SpaceKept x' := by
  refine ⟨fun {j} hj ↦ by rw [hnote, ranSince, hj]; rfl, fun {n i} hpc' ↦ ?_⟩
  rcases pc_scanDrain hm hpc' with hpc | ⟨root, hpc, hk⟩
  · obtain ⟨p, hp, hspace⟩ := h.space hpc
    obtain ⟨p', hp', hev⟩ := (hctl.evolves hm).entries hp
    have hlast : x'.2 = x'.1.k.sched.currentProcess.or x.2 := by rw [hnote, ranSince, hpc]
    refine ⟨p', hp', fun hl hran ↦ ?_⟩
    rw [hev.ttbr0]
    cases RootChange.of_move hctl hm with
    | kept hlasts ht hc =>
      -- what is recorded does not change
      have hsame : x'.2 = x.2 := by
        rcases hc with hc | hc
        · cases hcur : x.1.k.sched.currentProcess with
          | none => rw [hlast, hc, hcur]; rfl
          | some j => rw [hlast, hc, hcur, h.running hcur]; rfl
        · rw [hlast, hc]
          rfl
      rw [ht]
      exact hspace (hev.live hl) (hsame ▸ hran)
    | @switched j q hq hlq ht hc =>
      have hj : x'.2 = some j := by rw [hlast, hc]; rfl
      rw [hj] at hran
      obtain rfl : j = i := by simpa using hran
      rw [hp'] at hq
      cases hq
      rw [ht, hev.ttbr0]
    | activated hat ha hpc₁ hpc₂ hk ht =>
      rw [hpc] at hpc₁
      cases hpc₁
    | @left j q code hu hq ht hc =>
      have hj : x'.2 = some j := by rw [hlast, hc, h.running hu.process]; rfl
      rw [hj] at hran
      obtain rfl : j = i := by simpa using hran
      rw [hp'] at hq
      cases hq
      cases hl
  · have hpoll := hctl.poller
    rw [hpc] at hpoll
    obtain ⟨p, hp, rfl⟩ := hpoll
    refine ⟨p, by rw [hk, Kernel.activate_processes, hp], fun _ _ ↦ ?_⟩
    rw [hk]
    exact Kernel.activate_ttbr0 hctl.orderly.synced (hctl.orderly.entry hp).root

/-- Every entry that was carried out was in the space of its owner. -/
def OwnSpace (k : Kernel) : Prop :=
  ∀ pid tag root child, Event.sqe pid tag root child ∈ k.trace →
    Processes.ttbr0 k.processes pid = some root

theorem OwnSpace.step {x : Machine × Option Nat} {m' : Machine} {a : Act} (hctl : Ctl x.1)
    (hkept : SpaceKept x) (h : OwnSpace x.1.k) (hok : Undisturbed x a) (hm : Move x.1 a m') :
    OwnSpace m'.k := by
  have hnew := events_of_move (P := fun e ↦ ∀ pid tag root child, e = .sqe pid tag root child →
    Processes.ttbr0 x.1.k.processes pid = some root) hctl hm
    (fun _ _ _ _ _ _ _ habout _ _ _ _ he ↦ by subst he; cases habout)
    (fun _ _ _ _ _ _ _ _ _ _ _ _ he ↦ by cases he)
    (fun n i p hat ha hpc hp hring hne tag child _ _ _ _ he ↦ by
      cases he
      obtain ⟨q, hq, hspace⟩ := hkept.space hpc
      rw [hp] at hq
      cases hq
      rw [Processes.ttbr0, hp, Option.map_some, hspace (hctl.orderly.live_of_ring hp hring)
        (hok n i p hat ha hpc hp hring hne)])
    (fun pid p hu _ _ _ _ _ _ he ↦ by
      cases he
      rw [Processes.ttbr0, hu.entry, Option.map_some])
  intro pid tag root child he
  have hold : Processes.ttbr0 x.1.k.processes pid = some root := by
    rcases hnew _ he with he | he
    · exact h pid tag root child he
    · exact he pid tag root child rfl
  obtain ⟨p, hp, rfl⟩ := Option.map_eq_some_iff.mp hold
  obtain ⟨p', hp', hev⟩ := (hctl.evolves hm).entries hp
  rw [Processes.ttbr0, hp', Option.map_some, hev.ttbr0]

/-! ## Runs -/

theorem mem_complete_trace {k : Kernel} {e : Event} (h : e ∈ k.trace) (ringPa tag : Nat)
    (result : Int)
    (child : Option Nat) : e ∈ (k.complete ringPa tag result child).trace := by
  rcases k.complete_cases ringPa tag result child with ⟨-, -, ht⟩ | ⟨-, -, ht⟩
  · rw [ht]
    exact List.mem_cons_of_mem _ h
  · rw [ht]
    simp only [List.mem_cons]
    exact .inr (.inr (.inr (.inr h)))

/-- The poller is not about to drain. -/
def NoDrain (m : Machine) (_ : Act) : Prop := m.poller.OffDrain

/-- The shell has a child and has submitted an entry, and the poller is about to install its
space. -/
theorem exists_submitted (op arg0 arg1 tag : Nat) (hop : op < 2 ^ 64) (h0 : arg0 < 2 ^ 64)
    (h1 : arg1 < 2 ^ 64) (htag : tag < 2 ^ 64) :
    ∃ m p q, Scene shellOnly NoDrain m [p, q] pollerTask ∧ m.user (taskOf 0) = .el0 ∧
      m.user (taskOf 1) = .start ∧ m.poller.pc = .scanActivate 2 0 p.ttbr0 ∧ q.live = true ∧
      Shell p ∧ OneEntry m.k.mem p.ringPa op arg0 arg1 tag := by
  obtain ⟨m, p, root, frames, h, hel0, hstart, hpoll, hshell, hempty, -⟩ :=
    exists_family NoDrain fun _ _ hpc _ ↦ .of_pc hpc rfl
  obtain ⟨q, hq⟩ : ∃ q, q = { Process.fresh root (pageLoaded userBase) frames with
    parent := some 0 } := ⟨_, rfl⟩
  rw [← hq] at h
  have hpc : m.poller.pc = .record := by rw [hpoll]
  -- the shell submits it
  obtain ⟨m₁, hm₁⟩ : ∃ m₁ : Machine, m₁ = { m with
    k := m.k.setMem (submitted m.k.mem p.ringPa op arg0 arg1 tag) } := ⟨_, rfl⟩
  have h₁ : Scene shellOnly NoDrain m₁ [p, q] (taskOf 0) := by
    rw [hm₁]
    exact h.submits (fun _ _ _ ↦ .of_pc hpc rfl) rfl hel0 hshell.ring op arg0 arg1 tag
  obtain ⟨huser₁, hpoll₁, hmem₁⟩ : m₁.user = m.user ∧ m₁.poller = m.poller ∧
      m₁.k.mem = submitted m.k.mem p.ringPa op arg0 arg1 tag := by
    rw [hm₁]
    exact ⟨rfl, rfl, rfl⟩
  have hentry := submitted_oneEntry m.k.mem p.ringPa op arg0 arg1 tag hop h0 h1 htag hempty
  rw [← hmem₁] at hentry
  -- the poller gets its turn and finds the entry
  obtain ⟨m₂, h₂, huser₂, hpoll₂, hidle₂, -⟩ := h₁.tick (next_user (p := q) rfl)
    (h₁.unmasked_user (.inl (by rw [huser₁, hel0]))) (.of_pc (by rw [hpoll₁, hpc]) rfl)
  obtain ⟨m₃, h₃, huser₃, hpoll₃, hidle₃, -⟩ :=
    h₂.tick (next_last [.exited, .exited, .kernel, .user 0 p.ttbr0] _)
      (h₂.unmasked_user (.inr (by rw [huser₂, huser₁, hstart])))
      (.of_pc (by rw [hpoll₂, hpoll₁, hpc]) rfl)
  obtain ⟨m₄, h₄, huser₄, hpoll₄, hidle₄, -⟩ :=
    h₃.tick (next_kmain _) (h₃.unmasked (by decide))
      (.of_pc (by rw [hpoll₃, hpoll₂, hpoll₁, hpc]) rfl)
  obtain ⟨m₅, h₅, huser₅, hpoll₅, hk₅⟩ := h₄.begins
    (by rw [hpoll₄, hpoll₃, hpoll₂, hpoll₁, hpc]) fun _ _ _ hl ↦ hl
  have hmem₅ : m₅.k.mem = m₁.k.mem := by
    rw [hk₅]
    exact congrArg Phys.mem ((hidle₄.phys.trans hidle₃.phys).trans hidle₂.phys)
  have hne : sqHead m₅.k.mem p.ringPa ≠ sqTail m₅.k.mem p.ringPa := by
    rw [hmem₅, hentry.tail]
    bv_omega
  rw [← hmem₅] at hentry
  exact ⟨_, p, q, h₅.finds (fun _ hl ↦ hl) (by rw [hpoll₅]; rfl) (show 0 < 2 by decide) rfl
      hshell.ring hne,
    by rw [← hel0, ← huser₁, ← huser₂, ← huser₃, ← huser₄, ← huser₅],
    by rw [← hstart, ← huser₁, ← huser₂, ← huser₃, ← huser₄, ← huser₅], rfl, by rw [hq]; rfl,
    hshell, hentry⟩

/-- The poller takes up the no-op, in whatever space is live. -/
theorem Scene.takes {programs : List (String × List UInt8)} {ok : Machine → Act → Prop}
    {m : Machine} {p q : Process} (h : Scene programs ok m [p, q] pollerTask)
    (hpc : m.poller.pc = .scanDrain 2 0) (hring : p.ringPa ≠ 0) {tag : Nat}
    (hentry : OneEntry m.k.mem p.ringPa opNop 0 0 tag) :
    ∃ m', m.step .run = some m' ∧ m'.k.processes = [p, q] ∧
      Event.sqe 0 tag m.k.ttbr0 none ∈ m'.k.trace := by
  have hp : m.k.processes[0]? = some p := by rw [h.processes]; rfl
  have hpa : Processes.ringPa m.k.processes 0 = some p.ringPa := by
    rw [Processes.ringPa, hp, Option.map_some]
  have hd := m.k.drain_nop hpa hring hentry.tail hentry.opcode
  obtain ⟨k₀, hk₀⟩ : ∃ k₀ : Kernel, k₀ = m.k.log (.sqe 0 tag m.k.ttbr0 none) := ⟨_, rfl⟩
  rw [hentry.tag, ← hk₀] at hd
  have hcur : m.atPoller := by rw [Machine.atPoller, h.sched]
  have hstep := Machine.step_poller hcur
  rw [Machine.pollerStep, hpc] at hstep
  simp only [hd, Option.bind_eq_bind, Option.bind_some] at hstep
  have hevent : Event.sqe 0 tag m.k.ttbr0 none ∈ k₀.trace := by
    rw [hk₀]
    exact List.mem_cons_self
  refine ⟨_, hstep, ?_, List.mem_cons_of_mem _ (mem_complete_trace hevent ..)⟩
  show (k₀.complete p.ringPa tag 0 none).processes = [p, q]
  rw [(k₀.complete_quiet ..).processes, hk₀]
  exact h.processes

/-- While the poller stands between installing a space and using it, all other tasks have a turn;
the space of the last process stays live. -/
theorem Scene.lap {programs : List (String × List UInt8)} {m : Machine} {p q : Process}
    (h : Scene programs System.Free m [p, q] pollerTask) (hel0 : m.user (taskOf 0) = .el0)
    (hstart : m.user (taskOf 1) = .start) :
    ∃ m', Scene programs System.Free m' [p, q] pollerTask ∧ m'.poller = m.poller ∧
      Idled m.k m'.k ∧ m'.k.ttbr0 = q.ttbr0 := by
  obtain ⟨m₁, h₁, huser₁, hpoll₁, hidle₁, -⟩ :=
    h.tick (next_poller p [q]) (h.unmasked le_rfl) trivial
  obtain ⟨m₂, h₂, huser₂, hpoll₂, hidle₂, -⟩ := h₁.tick (next_user (p := q) rfl)
    (h₁.unmasked_user (.inl (by rw [huser₁, hel0]))) trivial
  have hroot₂ : m₂.k.ttbr0 = q.ttbr0 := (h₂.atUser (p := q) rfl).root
  obtain ⟨m₃, h₃, huser₃, hpoll₃, hidle₃, -, hroot₃⟩ :=
    h₂.tick (next_last [.exited, .exited, .kernel, .user 0 p.ttbr0] _)
      (h₂.unmasked_user (.inr (by rw [huser₂, huser₁, hstart]))) trivial
  obtain ⟨m₄, h₄, -, hpoll₄, hidle₄, -, hroot₄⟩ :=
    h₃.tick (next_kmain _) (h₃.unmasked (by decide)) trivial
  refine ⟨m₄, h₄, by rw [hpoll₄, hpoll₃, hpoll₂, hpoll₁],
    ((hidle₁.trans hidle₂).trans hidle₃).trans hidle₄, ?_⟩
  rw [hroot₄ le_rfl, hroot₃ (by decide), hroot₂]

/-- **Entries are carried out in the space of their owner** in a run in which the poller drains a
process only if no other one ran last since it installed the space. -/
theorem sqe_in_owner_space {programs : List (String × List UInt8)} {x : Machine × Option Nat}
    (h : (watched programs).Reach Undisturbed x) : OwnSpace x.1.k := by
  have hinv : SpaceKept x ∧ OwnSpace x.1.k := by
    refine h.invariant_of (I := fun y ↦ SpaceKept y ∧ OwnSpace y.1.k)
      (fun y hy ↦ ctl_of_reach hy.untrack) (fun y hy ↦ ?_) fun y a y' hctl hI hok hs ↦ ?_
    · obtain ⟨⟨mem, kernelEnd, ticks, k, -, hb, hboot⟩, hstart⟩ := hy
      have hk := bootKernel_fresh hb
      obtain ⟨m, last⟩ := y
      cases hboot
      refine ⟨⟨fun {j} hj ↦ ?_, nofun⟩, fun pid tag root child he ↦ ?_⟩
      · change k.sched.currentProcess = some j at hj
        rw [hk.sched] at hj
        cases hj
      · change Event.sqe pid tag root child ∈ k.trace at he
        rw [hk.trace] at he
        cases he
    · obtain ⟨hs, hnote⟩ := System.track_step hs
      have hm := step_cases hctl.orderly hctl.running hs
      exact ⟨hI.1.step hctl hm hnote, hI.2.step hctl hI.1 hok hm⟩
  exact hinv.2

/-- The poller finds an entry of the shell, which has a child, installs the shell's space and drains
it right away: the entry is carried out in the space of the shell. -/
theorem sqe_in_owner_space_poller : ∃ x p q tag, (watched shellOnly).Reach Undisturbed x ∧
    x.1.k.processes = [p, q] ∧ Event.sqe 0 tag p.ttbr0 none ∈ x.1.k.trace ∧ OwnSpace x.1.k := by
  obtain ⟨m, p, q, h, -, -, hpc, -, hshell, hentry⟩ :=
    exists_submitted opNop 0 0 0 (by decide) (by decide) (by decide) (by decide)
  -- the poller has not come to any drain
  obtain ⟨last, hreach⟩ : ∃ last, (watched shellOnly).Reach Undisturbed (m, last) :=
    h.reach.track fun m a last hoff n i p _ _ hpc' ↦ by
      rw [NoDrain, Poller.OffDrain, hpc'] at hoff
      cases hoff
  -- it installs the space, after which no process has run
  have hok : Undisturbed (m, last) .run := fun n i p _ _ hpc' ↦ by
    rw [show m.poller.pc = _ from hpc] at hpc'
    cases hpc'
  have hcur : m.atPoller := by rw [Machine.atPoller, h.sched]
  have hp : m.k.processes[0]? = some p := by rw [h.processes]; rfl
  obtain ⟨m₁, hm₁⟩ : ∃ m₁ : Machine, m₁ = { m with
    k := m.k.activate p.ttbr0, poller := { m.poller with pc := .scanDrain 2 0 } } := ⟨_, rfl⟩
  have h₁ : Scene shellOnly NoDrain m₁ [p, q] pollerTask :=
    hm₁ ▸ h.activates (.of_pc hpc rfl) hpc
  obtain ⟨hk₁, hpc₁⟩ : m₁.k = m.k.activate p.ttbr0 ∧ m₁.poller.pc = .scanDrain 2 0 := by
    rw [hm₁]
    exact ⟨rfl, rfl⟩
  have hactivate : m.step .run = some m₁ := by
    rw [Machine.step_poller hcur, Machine.pollerStep, hpc, hm₁]
    rfl
  have hlast : ranSince last m .run m₁ = none := by
    have hnone : m₁.k.sched.currentProcess = none := by
      rw [h₁.sched]
      rfl
    simp only [ranSince, hnone, hpc, hpc₁]
    rfl
  have hreach₁ := hreach.track_next hok hactivate
  rw [hlast] at hreach₁
  have hroot : m₁.k.ttbr0 = p.ttbr0 := by
    rw [hk₁]
    exact Kernel.activate_ttbr0 h.ctl.orderly.synced (h.ctl.orderly.entry hp).root
  have hmem : m₁.k.mem = m.k.mem := by rw [hk₁, Kernel.mem, Kernel.activate_phys]
  rw [← hmem] at hentry
  obtain ⟨m', hstep, hps, hevent⟩ := h₁.takes hpc₁ hshell.ring hentry
  rw [hroot] at hevent
  have hok₁ : Undisturbed (m₁, none) .run := fun _ _ _ _ _ _ _ _ _ ↦ .inl rfl
  have hreach₂ := hreach₁.track_next hok₁ hstep
  exact ⟨_, p, q, 0, hreach₂, hps, hevent, sqe_in_owner_space hreach₂⟩

/-- The poller has installed the space of the shell; before it drains, the shell's child has a turn,
and the entry of the shell is carried out in the space of the child. -/
theorem sqe_in_foreign_space : ∃ m, (machine shellOnly).Reach System.Free m ∧ ¬ OwnSpace m.k := by
  obtain ⟨m, p, q, h, hel0, hstart, hpc, hlq, hshell, hentry⟩ :=
    exists_submitted opNop 0 0 0 (by decide) (by decide) (by decide) (by decide)
  have hmem : (m.k.activate p.ttbr0).mem = m.k.mem := by rw [Kernel.mem, Kernel.activate_phys]
  rw [← hmem] at hentry
  obtain ⟨m', h', hpoll', hidle, hroot⟩ := (h.free.activates trivial hpc).lap hel0 hstart
  have hmem' : m'.k.mem = (m.k.activate p.ttbr0).mem := congrArg Phys.mem hidle.phys
  rw [← hmem'] at hentry
  obtain ⟨m'', hstep, hps, hevent⟩ := h'.takes (by rw [hpoll']) hshell.ring hentry
  refine ⟨m'', reach_next .run h'.reach trivial hstep, fun hown ↦ ?_⟩
  -- the root that is recorded is the child's
  rw [hroot] at hevent
  have hsame := hown 0 0 q.ttbr0 none hevent
  rw [Processes.ttbr0, hps] at hsame
  have hsame : p.ttbr0 = q.ttbr0 := Option.some.inj hsame
  obtain ⟨L, own, hinv⟩ := h'.inv
  have hp : m'.k.processes[0]? = some p := by rw [h'.processes]; rfl
  have hq : m'.k.processes[1]? = some q := by rw [h'.processes]; rfl
  have hlp := h'.ctl.orderly.live_of_ring hp hshell.ring
  have hids := hinv.roots_inj (Inv.root_of_live hp hlp) (hsame ▸ Inv.root_of_live hq hlq)
  cases hids

end Jatuli

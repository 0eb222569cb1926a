import Jatuli.Counts
import Jatuli.Wakeup

/-!
# No completion is lost or made up

Every entry that `drain` takes up is at every later moment answered, or its completion has been
dropped, or it is parked, and that in one of these ways only (`completions_conserved`).  For that
the process may do with its ring what it likes; only a second wait for a child whose first wait is
still parked is excluded, because it takes the place of the first.

That nothing is dropped is another matter, and there the process has to keep to the protocol: the
counters that are the kernel's are not its to write, it reaps what is there to be reaped, and it
does not publish more than the ring has entries beyond what it has reaped.
-/

set_option autoImplicit false

namespace Jatuli

/-- What a step adds to what process `pid` has published and reaped: the distance its counters have
moved. -/
def Traffic.note (pid : Nat) (u : Traffic) (m : Machine) (_ : Act) (m' : Machine) : Traffic :=
  m.k.processes[pid]?.elim u fun p ↦
    if p.ringPa = 0 then u
    else {
      published :=
        u.published + (sqTail m'.k.mem p.ringPa - sqTail m.k.mem p.ringPa).toNat
      reaped := u.reaped + (cqHead m'.k.mem p.ringPa - cqHead m.k.mem p.ringPa).toNat }

/-- When process `pid` stores, it leaves `sq_head` and `cq_tail` alone, moves `cq_head` no further
than `cq_tail`, and has at most 16 entries published beyond those reaped afterwards. -/
def Protocol (pid : Nat) (x : Machine × Traffic) (a : Act) : Prop :=
  ∀ va n v m' p, a = .user (.store va n v) → x.1.k.sched.currentProcess = some pid →
    x.1.step a = some m' → x.1.k.processes[pid]? = some p → p.ringPa ≠ 0 →
    sqHead m'.k.mem p.ringPa = sqHead x.1.k.mem p.ringPa ∧
    cqTail m'.k.mem p.ringPa = cqTail x.1.k.mem p.ringPa ∧
    cqHead m'.k.mem p.ringPa - cqHead x.1.k.mem p.ringPa ≤
      cqTail x.1.k.mem p.ringPa - cqHead x.1.k.mem p.ringPa ∧
    (x.2.note pid x.1 a m').Within

/-- The books of the ring of `pid` and its counters agree; without a ring there is nothing. -/
structure Tallied (pid : Nat) (m : Machine) (u : Traffic) : Prop where
  within : u.Within
  unused : (∀ p, m.k.processes[pid]? = some p → p.ringPa = 0) → u = ⟨0, 0⟩
  counted : ∀ {p : Process}, m.k.processes[pid]? = some p → p.ringPa ≠ 0 →
    Counted pid p.ringPa u m.k.trace m.k.mem
  head : ∀ {p : Process}, m.k.processes[pid]? = some p → p.ringPa ≠ 0 →
    sqHead m.k.mem p.ringPa = BitVec.ofNat 32 (consumed pid m.k.trace).card

section Steps

variable {L : Layout} {own : Nat → Owner} {m m' : Machine} {a : Act} {pid : Nat} {p : Process}
  {u : Traffic} {k k' : Kernel}

theorem Traffic.note_of_no_ring (h : ∀ p, m.k.processes[pid]? = some p → p.ringPa = 0) :
    u.note pid m a m' = u := by
  rw [Traffic.note]
  cases hp : m.k.processes[pid]? with
  | none => rfl
  | some p => exact if_pos (h p hp)

theorem Traffic.note_of_ring (hp : m.k.processes[pid]? = some p) (hring : p.ringPa ≠ 0) :
    u.note pid m a m' = {
      published :=
        u.published + (sqTail m'.k.mem p.ringPa - sqTail m.k.mem p.ringPa).toNat
      reaped := u.reaped + (cqHead m'.k.mem p.ringPa - cqHead m.k.mem p.ringPa).toNat } := by
  rw [Traffic.note, hp, Option.elim_some, if_neg hring]

/-- A counter that has been moved. -/
theorem counter_moved {x x' : BitVec 32} {n : Nat} (hx : x = BitVec.ofNat 32 n) :
    x' = BitVec.ofNat 32 (n + (x' - x).toNat) := by
  rw [BitVec.ofNat_add, ← hx, BitVec.ofNat_toNat, BitVec.setWidth_eq]
  bv_omega

/-- **A store that keeps to the protocol.** -/
theorem Counted.store {mem mem' : Mem} {t : List Event} {ringPa : Nat}
    (h : Counted pid ringPa u t mem) (hu : u.Within)
    (hle : (posted pid t).card ≤ (consumed pid t).card)
    (hct : Jatuli.cqTail mem' ringPa = Jatuli.cqTail mem ringPa)
    (hch : Jatuli.cqHead mem' ringPa - Jatuli.cqHead mem ringPa ≤
      Jatuli.cqTail mem ringPa - Jatuli.cqHead mem ringPa) :
    Counted pid ringPa
      { published := u.published + (Jatuli.sqTail mem' ringPa - Jatuli.sqTail mem ringPa).toNat
        reaped := u.reaped + (Jatuli.cqHead mem' ringPa - Jatuli.cqHead mem ringPa).toNat }
      t mem' := by
  have htaken := h.taken
  have hreaped := h.reaped
  refine ⟨counter_moved h.sqTail, counter_moved h.cqHead, hct.trans h.cqTail, ?_, ?_, h.kept⟩
  · exact Nat.le_trans htaken (Nat.le_add_right ..)
  · -- not more than 16 are there to be reaped
    rw [BitVec.le_def, h.cqTail, BitVec.toNat_sub (BitVec.ofNat ..)] at hch
    nth_rewrite 2 [h.cqHead] at hch
    rw [BitVec.toNat_ofNat, BitVec.toNat_ofNat] at hch
    rw [Traffic.Within] at hu
    dsimp only
    omega

/-- A ring that has just been set up. -/
theorem Counted.fresh {ringPa : Nat} (hb : Booked m.k pid)
    (hno : ∀ p, m.k.processes[pid]? = some p → p.ringPa = 0) (htrace : k'.trace = m.k.trace)
    (hzero : ∀ x ∈ frameAt ringPa, k'.mem x = 0) :
    Counted pid ringPa ⟨0, 0⟩ k'.trace k'.mem ∧
      sqHead k'.mem ringPa = BitVec.ofNat 32 (consumed pid k'.trace).card := by
  have hcard := hb.balanced.card_le
  rw [hb.unused hno, Multiset.card_zero] at hcard
  have hload : ∀ {off : Nat}, off + 4 ≤ 4096 → k'.mem.load (ringPa + off) 4 = 0 :=
    load_of_zero_frame hzero
  have hposted : (posted pid m.k.trace).card = 0 := by omega
  rw [htrace]
  refine ⟨⟨?_, ?_, ?_, ?_, ?_, Multiset.card_eq_zero.mp (by omega)⟩, ?_⟩
  · exact congrArg (BitVec.ofNat 32) (hload (by decide))
  · exact congrArg (BitVec.ofNat 32) (hload (by decide))
  · rw [hposted]
    exact congrArg (BitVec.ofNat 32) (hload (by decide))
  · rw [hb.unused hno]
    exact Nat.le_refl 0
  · exact Nat.zero_le _
  · rw [hb.unused hno]
    exact congrArg (BitVec.ofNat 32) (hload (by decide))

/-- Something of the kernel's is done to the ring. -/
theorem Tallied.counted_move (h : Tallied pid m u) (hb : Booked m.k pid) (hctl : Ctl m)
    (hmem : MemOk L m) (hoff : m.k.OffRings) (hp : m.k.processes[pid]? = some p)
    (hring : p.ringPa ≠ 0) (hx : m'.k.NotExited pid) (hbook : Booking pid m a m')
    (hstore : ¬ ∃ va n v, a = .user (.store va n v) ∧ m.k.sched.currentProcess = some pid) :
    Counted pid p.ringPa u m'.k.trace m'.k.mem ∧
      sqHead m'.k.mem p.ringPa = BitVec.ofNat 32 (consumed pid m'.k.trace).card := by
  obtain ⟨own, hinv⟩ := hmem.inv
  have hcount := h.counted hp hring
  have hhead := h.head hp hring
  have hsame : ∀ {p' : Process}, m.k.processes[pid]? = some p' → p' = p :=
    fun hp' ↦ Option.some.inj (hp'.symm.trans hp)
  cases hbook with
  | aside hu hc =>
    have hkept := hc hoff hp hring
    exact ⟨hcount.unbooked hu hkept, by rw [hkept.sqHead, hu.consumed, hhead]⟩
  | store hu hs => exact absurd ⟨_, _, _, rfl, hu.process⟩ hstore
  | setup hu hzero hs =>
    rw [hsame hu.entry] at hzero
    exact absurd hzero hring
  | drained hpc hd =>
    obtain ⟨rid, hr⟩ := hmem.root.drain hpc hp (hctl.orderly.live_of_ring hp hring)
    exact hcount.drain hhead h.within hb.balanced hinv hp hring (hoff hp) hr hd
  | @entered _ minComplete p' k' hu hne hs =>
    obtain rfl := hsame hu.entry
    obtain ⟨k₁, hk₁, hd, -⟩ := hctl.orderly.enterSubmit (hctl.idle hu).2 hu.entry hs
    obtain ⟨-, p₂, hu', -⟩ :=
      Proceeds.enterSubmit hctl.orderly hctl.running (hctl.idle hu).2 hu hs
    obtain ⟨hinv₁, hps₁, hr₁, -⟩ := MemOk.lowered hinv hu hne hk₁
    have hp₁ : k₁.processes[pid]? = some p' := hps₁ ▸ hu.entry
    have hu₁ : Unbooked pid m.k k₁ := .lowered hk₁
    have hkept₁ : SameCounters p'.ringPa m.k.mem k₁.mem := by
      rcases hk₁ with rfl | rfl | rfl
      · exact .refl ..
      · exact .flags ..
      · exact .flags ..
    obtain ⟨hcount₂, hhead₂⟩ := (hcount.unbooked hu₁ hkept₁).drain
      (by rw [hkept₁.sqHead, hu₁.consumed, hhead]) h.within (hb.balanced.unbooked hu₁) hinv₁ hp₁ hne
      (hoff hu.entry) hr₁ hd
    obtain ⟨hwait, hmem'⟩ := Unbooked.enterWait (m := m) pid hu' p'.ringPa minComplete
    refine ⟨hcount₂.unbooked hwait (hmem' ▸ .refl ..), ?_⟩
    rw [hwait.consumed, hmem']
    exact hhead₂
  | @polled _ p' input uart i₁ completed k₂ _ hfg hp' hne hloop hafter hmem' =>
    obtain rfl := hsame hp'
    have hio : Unbooked pid m.k { m.k with input, uart, installed := i₁, ttbr0 := p'.ttbr0 } :=
      .of_eq rfl rfl
    have hinv₁ : Inv False L own { m.k with input, uart, installed := i₁, ttbr0 := p'.ttbr0 } :=
      hinv.of_mem_eq ⟨rfl, fun _ ↦ rfl, rfl, rfl, rfl⟩ rfl
    have hr := Inv.root_of_live hp (hctl.orderly.live_of_ring hp hring)
    have hcount₁ : Counted pid p'.ringPa u
      ({ m.k with input, uart, installed := i₁, ttbr0 := p'.ttbr0 } : Kernel).trace m.k.mem :=
        hcount
    obtain ⟨hcount₂, hcons⟩ := hcount₁.pollPendingFrom h.within (hb.balanced.unbooked hio) hinv₁
      hp hne (hoff hp) hr hfg hloop
    have hheader := (hinv₁.pollPendingFrom_header hp hne (hoff hp) hr hfg hloop).1.sqHead
    refine ⟨hcount₂.unbooked hafter (hmem' ▸ .refl ..), ?_⟩
    rw [hmem', hafter.consumed, hheader, hcons]
    exact hhead
  | @exitSeen _ i code _ hs =>
    cases hs with
    | aside hu hpage =>
      have hkept := SameCounters.of_eqOn (hpage hp hring)
      exact ⟨hcount.unbooked hu hkept, by rw [hkept.sqHead, hu.consumed, hhead]⟩
    | @answered tag p' k₀ hp' hparked hne htrace₀ hmem₀ howner htrace hpage =>
      obtain rfl := hsame hp'
      have hroom := hcount.room h.within hb.balanced (Nat.add_pos_left (by
        rw [← hparked, Multiset.card_add, Multiset.card_singleton]
        exact Nat.succ_pos _) _)
      rw [← htrace₀] at hroom
      rw [← htrace₀, ← hmem₀] at hcount
      have hpost := hcount.complete howner hroom tag code (some i)
      have hkept := SameCounters.of_eqOn hpage
      have hheader := (HeaderAt.complete hmem₀ p'.ringPa tag code (some i)).sqHead
      refine ⟨?_, ?_⟩
      · rw [htrace]
        exact hpost.same hkept
      · rw [hkept.sqHead, htrace, (k₀.complete_consumed pid p'.ringPa tag _ _).1, htrace₀, ← hhead]
        exact hheader
    | lost hp' hparked hzero =>
      rw [hsame hp'] at hzero
      exact absurd hzero hring
  | ended hp' hdead =>
    rw [hx _ hp'] at hdead
    cases hdead

/-- **One step**, with the process keeping to the protocol. -/
theorem Tallied.move (h : Tallied pid m u) (hb : Booked m.k pid) (hctl : Ctl m) (hmem : MemOk L m)
    (hoff : m.k.OffRings) (hok : Protocol pid (m, u) a) (hs : m.step a = some m')
    (hx : m'.k.NotExited pid) : Tallied pid m' (u.note pid m a m') := by
  have hm := step_cases hctl.orderly hctl.running hs
  by_cases hno : ∀ p, m.k.processes[pid]? = some p → p.ringPa = 0
  · -- there was no ring
    rw [Traffic.note_of_no_ring hno]
    have hfresh : ∀ {p' : Process}, m'.k.processes[pid]? = some p' → p'.ringPa ≠ 0 →
        Counted pid p'.ringPa u m'.k.trace m'.k.mem ∧
          sqHead m'.k.mem p'.ringPa = BitVec.ofNat 32 (consumed pid m'.k.trace).card := by
      intro p' hp' hring
      rcases ring_of_move pid hctl hmem hm with hback | ⟨p, k', -, hu, hzero, hs', rfl⟩
      · obtain ⟨p, hp, he⟩ := hback.entry hp' hring
        exact absurd (he.symm.trans (hno p hp)) hring
      · obtain ⟨own, hinv⟩ := hmem.inv
        rcases hinv.setupRing hu.entry hu.live hs' with
          ⟨hne, -⟩ | ⟨-, own', frame, phys, rfl, -, -, -, hpage, -⟩
        · exact absurd hzero hne
        · have hentry : (Processes.setRing m.k.processes pid frame)[pid]? = some p' := hp'
          rw [Processes.setRing, List.getElem?_modify_eq, hu.entry] at hentry
          obtain rfl := Option.some.inj hentry
          rw [h.unused hno]
          exact Counted.fresh hb hno rfl hpage
    exact ⟨h.within, fun _ ↦ h.unused hno, fun hp' hring ↦ (hfresh hp' hring).1,
      fun hp' hring ↦ (hfresh hp' hring).2⟩
  · -- it has its ring, and keeps it
    rw [not_forall] at hno
    obtain ⟨p, hno⟩ := hno
    obtain ⟨hp, hring⟩ := Classical.not_imp.mp hno
    obtain ⟨p', hp', he⟩ := (hctl.evolves hm).entries hp
    have hkeep : p'.ringPa = p.ringPa := he.ring (hx p' hp') hring
    have hcount := h.counted hp hring
    obtain ⟨hwithin, hcount', hhead'⟩ : (u.note pid m a m').Within ∧
        Counted pid p.ringPa (u.note pid m a m') m'.k.trace m'.k.mem ∧
        sqHead m'.k.mem p.ringPa = BitVec.ofNat 32 (consumed pid m'.k.trace).card := by
      by_cases hstore : ∃ va n v, a = .user (.store va n v) ∧
          m.k.sched.currentProcess = some pid
      · obtain ⟨va, n, v, rfl, hcur⟩ := hstore
        obtain ⟨hsh, hct, hch, hw⟩ := hok va n v m' p rfl hcur hs hp hring
        have htrace : m'.k.trace = m.k.trace := by
          cases hm with
          | store hu hpc hst =>
            obtain ⟨pa, rfl⟩ := Machine.userStore_cases hst
            rfl
          | exit hact => cases hact
        refine ⟨hw, ?_, ?_⟩
        · rw [Traffic.note_of_ring hp hring, htrace]
          have hcard := hb.balanced.card_le
          exact hcount.store h.within (by omega) hct hch
        · rw [hsh, htrace]
          exact h.head hp hring
      · have hkernel := h.counted_move hb hctl hmem hoff hp hring hx
          (booking_of_move hctl hmem pid hm) hstore
        have hnote : u.note pid m a m' = u := by
          rw [Traffic.note_of_ring hp hring, hkernel.1.sqTail, hcount.sqTail, hkernel.1.cqHead,
            hcount.cqHead, BitVec.sub_self, BitVec.sub_self]
          rfl
        rw [hnote]
        exact ⟨h.within, hkernel⟩
    have hsame : ∀ {q : Process}, m'.k.processes[pid]? = some q → q.ringPa = p.ringPa := by
      intro q hq
      rw [← hkeep, Option.some.inj (hq.symm.trans hp')]
    refine ⟨hwithin, fun hno' ↦ absurd (hkeep ▸ hno' p' hp') hring, fun hq _ ↦ ?_, fun hq _ ↦ ?_⟩
    · rw [hsame hq]
      exact hcount'
    · rw [hsame hq]
      exact hhead'

end Steps

/-- **The counters agree with the books in every run** in which the process keeps to the
protocol. -/
theorem tallied_of_reach {programs : List (String × List UInt8)} {pid : Nat} {m : Machine}
    {u : Traffic} (hprog : ∀ q ∈ programs, Elf.InUserSlot q.2)
    (hoff : ∀ q ∈ programs, Elf.OffRing q.2)
    (h : ((machine programs).track ⟨0, 0⟩ (Traffic.note pid)).Reach (Protocol pid) (m, u))
    (hx : m.k.NotExited pid) : Tallied pid m u := by
  refine h.invariant_of (J := fun x ↦ (machine programs).Reach System.Free x.1)
    (I := fun x ↦ x.1.k.NotExited pid → Tallied pid x.1 x.2) (fun _ h ↦ h.untrack) ?_ ?_ hx
  · rintro ⟨m, u⟩ ⟨⟨mem, kernelEnd, ticks, k, -, hb, hm⟩, hu⟩ -
    obtain rfl : m = bootMachine k := hm
    obtain rfl : u = ⟨0, 0⟩ := hu
    have hnone : ∀ {p : Process}, (bootMachine k).k.processes[pid]? = some p → False := by
      intro p hp
      rw [show (bootMachine k).k.processes = [] from (bootKernel_fresh hb).processes] at hp
      cases hp
    exact ⟨Nat.zero_le _, fun _ ↦ rfl, fun hp ↦ (hnone hp).elim, fun hp ↦ (hnone hp).elim⟩
  · rintro ⟨m, u⟩ a ⟨m', u'⟩ hreach hI hok hs hx
    obtain ⟨hs, hu⟩ := System.track_step hs
    obtain rfl : u' = u.note pid m a m' := hu
    have hctl := ctl_of_reach hreach
    obtain ⟨L, hmem⟩ := memOk_of_reach hprog hreach
    have hx₀ := hx.of_evolves (hctl.evolves (step_cases hctl.orderly hctl.running hs))
    exact (hI hx₀).move (booked_of_reach hprog hreach hx₀) hctl hmem
      (fun hp ↦ offRing_of_reach hoff hreach hp) hok hs hx

/-- **Every entry taken up is accounted for.**  In every run, and for every process that has not
exited and has never waited for a child while an earlier wait for the same child was unanswered, the
entries taken up are those that have been answered, those whose answer was dropped, and those that
are parked in a slot or on a child; so nothing is answered twice, and nothing that was not asked.
And in every run in which the process keeps to the protocol nothing is dropped, and `sq_head` and
`cq_tail` count the entries taken up and the completions posted. -/
theorem completions_conserved {programs : List (String × List UInt8)} {pid : Nat}
    (hprog : ∀ q ∈ programs, Elf.InUserSlot q.2) (hoff : ∀ q ∈ programs, Elf.OffRing q.2) :
    (∀ (m : Machine) (p : Process), (machine programs).Reach System.Free m →
      m.k.processes[pid]? = some p → p.live = true → SoleWaits pid m.k.trace →
      consumed pid m.k.trace =
        posted pid m.k.trace + dropped pid m.k.trace + parkedFor pid m.k.processes) ∧
    ∀ (m : Machine) (p : Process) (u : Traffic),
      ((machine programs).track ⟨0, 0⟩ (Traffic.note pid)).Reach (Protocol pid) (m, u) →
      m.k.processes[pid]? = some p → p.live = true →
      dropped pid m.k.trace = 0 ∧ (p.ringPa ≠ 0 →
        sqHead m.k.mem p.ringPa = BitVec.ofNat 32 (consumed pid m.k.trace).card ∧
        cqTail m.k.mem p.ringPa = BitVec.ofNat 32 (posted pid m.k.trace).card) := by
  have hx : ∀ {m : Machine} {p : Process}, m.k.processes[pid]? = some p → p.live = true →
      m.k.NotExited pid := by
    intro m p hp hl q hq
    rw [← Option.some.inj (hp.symm.trans hq)]
    exact hl
  refine ⟨fun m p h hp hl hsole ↦ ?_, fun m p u h hp hl ↦ ?_⟩
  · obtain ⟨lost, heq, hlost⟩ := (booked_of_reach hprog h (hx hp hl)).balanced.accounts
    rw [heq, hlost hsole, add_zero, add_zero]
  · have htally := tallied_of_reach hprog hoff h (hx hp hl)
    have hbooked : Booked m.k pid := booked_of_reach hprog h.untrack (hx hp hl)
    by_cases hring : p.ringPa = 0
    · have hcard := hbooked.balanced.card_le
      rw [hbooked.unused fun q hq ↦ Option.some.inj (hp.symm.trans hq) ▸ hring,
        Multiset.card_zero] at hcard
      exact ⟨Multiset.card_eq_zero.mp (by omega), absurd hring⟩
    · exact ⟨(htally.counted hp hring).kept, fun _ ↦
        ⟨htally.head hp hring, (htally.counted hp hring).cqTail⟩⟩

/-- A run of which the steps so far were no stores. -/
theorem Protocol.of_storeless {pid : Nat} {x : Machine × Traffic} {a : Act}
    (h : ∀ va n v, a ≠ .user (.store va n v)) : Protocol pid x a :=
  fun va n v _ _ ha ↦ absurd ha (h va n v)

/-- The shell publishes a no-op and enters the kernel: the entry is taken up and answered. -/
theorem completions_conserved_shell : ∃ m p u,
    ((machine shellOnly).track ⟨0, 0⟩ (Traffic.note 0)).Reach (Protocol 0) (m, u) ∧
    m.k.processes[0]? = some p ∧ p.live = true ∧ p.ringPa ≠ 0 ∧ SoleWaits 0 m.k.trace ∧
    consumed 0 m.k.trace = {(none, 0)} ∧
    consumed 0 m.k.trace =
      posted 0 m.k.trace + dropped 0 m.k.trace + parkedFor 0 m.k.processes ∧
    dropped 0 m.k.trace = 0 ∧
    cqTail m.k.mem p.ringPa = BitVec.ofNat 32 (posted 0 m.k.trace).card := by
  obtain ⟨m, p, h, hel0, -, hshell, hzero, htrace, -⟩ :=
    exists_ringed_storeless (fun _ a ↦ ∀ va n v, a ≠ .user (.store va n v)) fun _ _ ha _ _ ↦ ha
  have hring := hshell.ring
  have hu := h.atUser (p := p) rfl
  obtain ⟨L, own, hinv⟩ := h.inv
  obtain ⟨u, hreach⟩ : ∃ u, ((machine shellOnly).track ⟨0, 0⟩ (Traffic.note 0)).Reach (Protocol 0)
      (m, u) := h.reach.track fun _ _ _ ha ↦ .of_storeless ha
  have hload : ∀ {off : Nat}, off + 4 ≤ 4096 → m.k.mem.load (p.ringPa + off) 4 = 0 :=
    load_of_zero_frame hzero
  -- nothing has been published or reaped yet
  obtain rfl : u = ⟨0, 0⟩ := by
    have hx : m.k.NotExited 0 := fun q hq ↦ Option.some.inj (hu.entry.symm.trans hq) ▸ hu.live
    have htally := tallied_of_reach shellOnly_inUserSlot shellOnly_offRing hreach hx
    have hcount : Counted 0 p.ringPa u m.k.trace m.k.mem := htally.counted hu.entry hring
    have hwithin := htally.within
    have hreaped := hcount.reaped
    have htail := congrArg BitVec.toNat hcount.sqTail
    rw [sqTail, hload (by decide), BitVec.toNat_ofNat, BitVec.toNat_ofNat] at htail
    rw [htrace, show (posted 0 []).card = 0 from rfl] at hreaped
    rw [Traffic.Within] at hwithin
    obtain ⟨published, reaped⟩ := u
    dsimp only at hwithin hreaped htail
    rw [show published = 0 by omega, show reaped = 0 by omega]
  -- it moves the tail; the entries are no-ops
  obtain ⟨hhead, htail, hnops, hflags⟩ := publish_nops hzero 1
  obtain ⟨k₁, hk₁⟩ : ∃ k₁ : Kernel,
    k₁ = m.k.setMem (m.k.mem.store (p.ringPa + offSqTail) 4 (1 : BitVec 32).toNat) := ⟨_, rfl⟩
  have hmem₁ : k₁.mem = m.k.mem.store (p.ringPa + offSqTail) 4 (1 : BitVec 32).toNat := by
    rw [hk₁]
    rfl
  have hload₁ : ∀ {off : Nat}, off + 4 ≤ offSqTail ∨ offSqTail + 4 ≤ off → off + 4 ≤ 4096 →
      k₁.mem.load (p.ringPa + off) 4 = 0 := by
    intro off hoff hle
    rw [hmem₁, Mem.load_store_disjoint (by omega), hload hle]
  rw [← hmem₁] at hhead htail hnops hflags
  have hstore : m.step (.user (.store (userRingVa + offSqTail) 4 (1 : BitVec 32).toNat)) =
      some { m with k := k₁ } := by
    rw [Machine.step_user hu hel0, Machine.userStep, Machine.userStore, if_pos (by decide), hu.root,
      hinv.el0WritablePa_ring hu.entry hring offSqTail (by decide), hk₁]
    rfl
  have hprotocol : Protocol 0 (m, ⟨0, 0⟩)
      (.user (.store (userRingVa + offSqTail) 4 (1 : BitVec 32).toNat)) := by
    rintro va n v m' p' - - hs hp' -
    obtain rfl := Option.some.inj (hstore.symm.trans hs)
    obtain rfl := Option.some.inj (hu.entry.symm.trans hp')
    have hword : ∀ {off : Nat}, off + 4 ≤ offSqTail ∨ offSqTail + 4 ≤ off → off + 4 ≤ 4096 →
        BitVec.ofNat 32 (k₁.mem.load (p.ringPa + off) 4) =
          BitVec.ofNat 32 (m.k.mem.load (p.ringPa + off) 4) := fun hoff hle ↦ by
      rw [hload₁ hoff hle, hload hle]
    have hch : cqHead k₁.mem p.ringPa = cqHead m.k.mem p.ringPa := hword (by decide) (by decide)
    have hst : sqTail m.k.mem p.ringPa = 0 := congrArg (BitVec.ofNat 32) (hload (by decide))
    refine ⟨hword (by decide) (by decide), hword (by decide) (by decide), ?_, ?_⟩
    · dsimp only
      rw [hch, BitVec.sub_self]
      exact BitVec.le_def.mpr (Nat.zero_le _)
    · rw [Traffic.note_of_ring hu.entry hring]
      dsimp only
      rw [hch, htail, hst, BitVec.sub_self, Traffic.Within]
      decide
  have hreach₁ := hreach.track_next hprotocol hstore
  -- it enters, and the kernel takes the entry up
  have hu₁ : AtUser k₁ 0 p := by
    rw [hk₁]
    exact ⟨hu.current, hu.process, hu.entry, hu.live, hu.root⟩
  have hpa : Processes.ringPa k₁.processes 0 = some p.ringPa := by
    rw [Processes.ringPa, hu₁.entry, Option.map_some]
  have htag : k₁.mem.load (sqeAddr p.ringPa (slot (sqHead k₁.mem p.ringPa)) + 24) 8 = 0 := by
    rw [hhead, hmem₁, show sqeAddr p.ringPa (slot 0) + 24 = p.ringPa + (offSq + 24) by
      rw [sqeAddr, Nat.add_assoc, Nat.add_assoc]; rfl,
      Mem.load_store_disjoint (by rw [offSq, offSqTail]; omega)]
    exact load_of_zero_frame hzero (by decide)
  have hd := k₁.drain_nop hpa hring (by rw [htail, hhead]; rfl) (hnops _ (slot_lt _))
  rw [htag] at hd
  obtain ⟨k₂, hk₂⟩ : ∃ k₂, k₂ = ((k₁.log (.sqe 0 0 k₁.ttbr0 none)).complete p.ringPa 0 0
    none).ringStore p.ringPa offSqHead 4 (sqHead k₁.mem p.ringPa + 1).toNat := ⟨_, rfl⟩
  rw [← hk₂] at hd
  have henter : (machine shellOnly).step { m with k := k₁ } (.user (.enter 0)) =
      some (Machine.userGoto { m with k := k₂ } .el0) := by
    refine (Machine.step_user (m := { m with k := k₁ }) hu₁ hel0 _).trans ?_
    rw [Machine.userStep, hpa]
    simp only [Option.bind_eq_bind, Option.bind_some, if_neg hring, Kernel.enterSubmit, hflags,
      Nat.zero_and, ne_eq, not_true_eq_false, if_false, hd, Machine.enterWait, Nat.zero_le, if_true]
  have hreach₂ := hreach₁.track_next (a := .user (.enter 0))
    (.of_storeless (by rintro _ _ _ ⟨⟩)) henter
  obtain ⟨hcons, hsole⟩ := (k₁.log (.sqe 0 0 k₁.ttbr0 none)).complete_consumed 0 p.ringPa 0 0 none
  have htrace₁ : k₁.trace = [] := by
    rw [hk₁]
    exact htrace
  have hlog : SoleWaits 0 (k₁.log (.sqe 0 0 k₁.ttbr0 none)).trace ∧
      consumed 0 (k₁.log (.sqe 0 0 k₁.ttbr0 none)).trace = {(none, 0)} := by
    rw [Kernel.log, htrace₁]
    exact ⟨⟨trivial, by simp [Event.opens]⟩, by simp [consumed, Event.opens]⟩
  have hentry₂ : k₂.processes[0]? = some p := by
    rw [hk₂, (Kernel.ringStore_quiet ..).processes, (Kernel.complete_quiet ..).processes]
    exact hu₁.entry
  have hsole₂ : SoleWaits 0 k₂.trace := by
    rw [hk₂]
    exact (soleWaits_cons rfl).mpr (hsole.mpr hlog.1)
  have hcons₂ : consumed 0 k₂.trace = {(none, 0)} := by
    rw [hk₂, (Unbooked.ringStore ..).consumed, hcons, hlog.2]
  obtain ⟨hall, hdropped⟩ :=
    @completions_conserved shellOnly 0 shellOnly_inUserSlot shellOnly_offRing
  obtain ⟨hnone, hcounts⟩ := hdropped _ p _ hreach₂ hentry₂ hu.live
  exact ⟨_, p, _, hreach₂, hentry₂, hu.live, hring, hsole₂, hcons₂,
    hall _ p hreach₂.untrack hentry₂ hu.live hsole₂, hnone, (hcounts hring).2⟩

end Jatuli

import Jatuli.Delivery
import Jatuli.DrainLength
import Jatuli.Submitting

/-!
# The words of a ring header

`drain` publishes the head it has come to after every entry, and `complete` moves `cq_tail`; that is
all the kernel does to the header of a ring while it carries out submissions, provided that no image
has a segment on the ring page, so that buffers cannot be there.  `HeaderAt` says it of one round
and of several, and `Inv.drain_header` of a whole drain: the submission queue is empty afterwards.
-/

set_option autoImplicit false

namespace Jatuli

/-- Of the header, `sq_head` has become `head`, and all but `cq_tail` is as it was. -/
structure HeaderAt (ringPa : Nat) (head : BitVec 32) (m m' : Mem) : Prop where
  sqHead : sqHead m' ringPa = head
  sqTail : sqTail m' ringPa = sqTail m ringPa
  cqHead : cqHead m' ringPa = cqHead m ringPa
  flags : flags m' ringPa = flags m ringPa

namespace HeaderAt

variable {ringPa : Nat} {head head' : BitVec 32} {m m' m'' : Mem}

theorem trans (h : HeaderAt ringPa head m m') (h' : HeaderAt ringPa head' m' m'') :
    HeaderAt ringPa head' m m'' :=
  ⟨h'.sqHead, h'.sqTail.trans h.sqTail, h'.cqHead.trans h.cqHead, h'.flags.trans h.flags⟩

/-- The words other than `cq_tail` are kept. -/
theorem of_load (h : ∀ {off : Nat}, off + 4 ≤ offCqTail ∨ offFlags ≤ off ∧ off + 4 ≤ offCq →
    m'.load (ringPa + off) 4 = m.load (ringPa + off) 4) :
    HeaderAt ringPa (Jatuli.sqHead m ringPa) m m' where
  sqHead := congrArg (BitVec.ofNat 32) (h (by decide))
  sqTail := congrArg (BitVec.ofNat 32) (h (by decide))
  cqHead := congrArg (BitVec.ofNat 32) (h (by decide))
  flags := h (by decide)

theorem refl (ringPa : Nat) (m : Mem) : HeaderAt ringPa (Jatuli.sqHead m ringPa) m m :=
  of_load fun _ ↦ rfl

/-- The whole page is kept. -/
theorem of_eqOn (h : Set.EqOn m' m (frameAt ringPa)) :
    HeaderAt ringPa (Jatuli.sqHead m ringPa) m m' := by
  refine of_load fun {off} hoff ↦ Mem.load_eqOn h (Nat.le_add_right ..) ?_
  have hcq : offCq ≤ frameSize := by decide
  have hct : offCqTail ≤ frameSize := by decide
  omega

theorem complete {k : Kernel} (hk : k.mem = m) (ringPa tag : Nat) (result : Int)
    (child : Option Nat) :
    HeaderAt ringPa (Jatuli.sqHead m ringPa) m (k.complete ringPa tag result child).mem :=
  of_load fun h ↦ (k.complete_load ringPa tag result child h).trans (by rw [hk])

/-- The new head is stored. -/
theorem store (ringPa : Nat) (head : BitVec 32) (m : Mem) :
    HeaderAt ringPa head m (m.store (ringPa + offSqHead) 4 head.toNat) where
  sqHead := sqHead_store m ringPa head
  sqTail := sqTail_store_sqHead m ringPa head.toNat
  cqHead := by
    rw [Jatuli.cqHead, Mem.load_store_disjoint (by rw [offCqHead, offSqHead]; omega)]
    rfl
  flags := by
    rw [Jatuli.flags, Mem.load_store_disjoint (by rw [offFlags, offSqHead]; omega)]
    rfl

end HeaderAt

/-! ## One submission -/

section Header

variable {strict : Prop} {L : Layout} {own : Nat → Owner} {k k' : Kernel} {pid : Nat}
  {rid : Option Nat} {p : Process}

/-- Whatever space is live, what is delivered to a process does not touch a ring page. -/
theorem Inv.delivered_ring (h : Inv strict L own k) (hp : k.processes[pid]? = some p)
    (hne : p.ringPa ≠ 0) {i : Nat} {q : Process} (hq : k.processes[i]? = some q)
    (hoff : q.loaded.OffRing) (hr : k.roots rid = some k.ttbr0) (hd : Delivered i k k') :
    Set.EqOn k'.mem k.mem (frameAt p.ringPa) :=
  fun x hx ↦ (h.userWrites hr hd.writes).2 x (h.ring_not_written hp hne hq hoff hx)

theorem Inv.outcome_header (h : Inv strict L own k) (hp : k.processes[pid]? = some p)
    (hne : p.ringPa ≠ 0) (hoff : p.loaded.OffRing) (hr : k.roots rid = some k.ttbr0) {tag : Nat}
    {child : Option Nat} (ho : SqeOutcome pid p.ringPa tag child k k') :
    HeaderAt p.ringPa (sqHead k.mem p.ringPa) k.mem k'.mem := by
  cases ho with
  | @completed k₁ result hchild hd hin =>
    have h₁ := HeaderAt.of_eqOn (h.delivered_ring hp hne hp hoff hr hd)
    rw [← h₁.sqHead]
    exact h₁.trans (.complete rfl p.ringPa tag result none)
  | parked hchild hd hin hq hi htag =>
    have hpage := h.delivered_ring hp hne hp hoff hr hd
    exact .of_eqOn hpage
  | answered hchild hq hparent hexit => exact .complete rfl p.ringPa tag _ _
  | waiting hchild hq hparent hexit => exact .refl ..
  | @spawned name image root s₁ s₂ loaded frames uart hchild himage hroot hspace =>
    obtain ⟨own', -, hkept, -⟩ := h.create (h.image himage) hroot hspace
      (p := { Process.fresh root loaded frames with parent := some pid }) rfl
    obtain ⟨hm, ho⟩ := h.ofRing hp hne
    have h₁ := HeaderAt.of_eqOn (hkept _ hm (by rw [ho]; nofun) trivial).2
    rw [← h₁.sqHead]
    refine h₁.trans (.complete ?_ p.ringPa tag _ none)
    rfl

/-- One entry is carried out. -/
theorem Inv.processSqe_header (h : Inv strict L own k) (hp : k.processes[pid]? = some p)
    (hne : p.ringPa ≠ 0) (hoff : p.loaded.OffRing) (hr : k.roots rid = some k.ttbr0) {addr : Nat}
    (hs : k.processSqe pid addr = some k') :
    HeaderAt p.ringPa (sqHead k.mem p.ringPa) k.mem k'.mem := by
  obtain ⟨ringPa', child, hring', ho⟩ := Kernel.processSqe_cases hs
  rw [Processes.ringPa, hp, Option.map_some] at hring'
  obtain rfl := Option.some.inj hring'
  have h₀ := h.of_mem_eq (.of_quiet
    (k.log_quiet (.sqe pid (k.mem.load (addr + 24) 8) k.ttbr0 child)))
    rfl
  exact h₀.outcome_header hp hne hoff hr ho

/-! ## A drain -/

/-- The loop of `drain`, with the head it has come to; it goes on only before the tail. -/
theorem Kernel.drainFrom_loop {ringPa : Nat} {tail : BitVec 32} {I : Kernel → BitVec 32 → Prop}
    (hround : ∀ k k' head, head ≠ tail → I k head →
      k.processSqe pid (sqeAddr ringPa (slot head)) = some k' →
      I (k'.ringStore ringPa offSqHead 4 (head + 1).toNat) (head + 1)) :
    ∀ (n : Nat) {k k' : Kernel} {head : BitVec 32}, (tail - head).toNat = n → I k head →
      Kernel.drainFrom pid ringPa tail n k head = some k' → I k' tail
  | 0, k, k', head, hn, hI, h => by
    obtain rfl := Option.some.inj h
    obtain rfl : head = tail := by bv_omega
    exact hI
  | n + 1, k, k', head, hn, hI, h => by
    obtain ⟨hne, hn'⟩ := distance_succ hn
    rw [Kernel.drainFrom, if_neg hne] at h
    obtain ⟨k₁, hk₁, h⟩ := Option.bind_eq_some_iff.mp h
    exact drainFrom_loop hround n hn' (hround k k₁ head hne hI hk₁) h

/-- **A drain empties the submission queue**, and leaves the rest of the header alone except for
`cq_tail`. -/
theorem Inv.drain_header (h : Inv strict L own k) (hp : k.processes[pid]? = some p)
    (hne : p.ringPa ≠ 0) (hoff : p.loaded.OffRing) (hr : k.roots rid = some k.ttbr0)
    (hd : k.drain pid = some k') :
    HeaderAt p.ringPa (sqTail k.mem p.ringPa) k.mem k'.mem := by
  rw [Kernel.drain, Processes.ringPa, hp, Option.map_some] at hd
  simp only [Option.bind_eq_bind, Option.bind_some, if_neg hne] at hd
  have hloop := Kernel.drainFrom_loop
    (I := fun k₁ head ↦ (∃ own₁, Inv strict L own₁ k₁ ∧
        Confined L pid rid p.ringPa own k own₁ k₁) ∧ HeaderAt p.ringPa head k.mem k₁.mem)
    ?_ _ rfl ⟨⟨own, h, .refl ..⟩, .refl ..⟩ hd
  · exact hloop.2
  · rintro k₁ k₂ head - ⟨⟨own₁, h₁, hc₁⟩, hat⟩ hs
    obtain ⟨p₁, hp₁, ht₁⟩ := hc₁.entries hp
    have hring₁ : p₁.ringPa = p.ringPa := by rw [ht₁.rest]
    have hoff₁ : p₁.loaded.OffRing := by rw [ht₁.rest]; exact hoff
    have hr₁ : k₁.roots rid = some k₁.ttbr0 := by rw [hc₁.ttbr0]; exact hc₁.roots hr
    obtain ⟨own₂, h₂, hc₂⟩ := h₁.processSqe hp₁ hring₁ hne hr₁ hs
    have hsqe := h₁.processSqe_header hp₁ (hring₁ ▸ hne) hoff₁ hr₁ hs
    rw [hring₁] at hsqe
    obtain ⟨p₂, hp₂, hring₂⟩ := hc₂.ring hp₁
    obtain ⟨h₃, hc₃⟩ : Inv strict L own₂ (k₂.ringStore p.ringPa offSqHead 4 (head + 1).toNat) ∧
        Confined L pid rid p.ringPa own₂ k₂ own₂
          (k₂.ringStore p.ringPa offSqHead 4 (head + 1).toNat) :=
      h₂.ringWritten hp₂ (hring₂.trans hring₁) hne (k₂.ringStore_quiet ..) rfl
        (k₂.ringStore_eqOn (by decide))
    exact ⟨⟨own₂, h₃, hc₁.trans hp hr (hc₂.trans hp₁ (hc₁.roots hr) hc₃)⟩,
      (hat.trans hsqe).trans (.store p.ringPa (head + 1) k₂.mem)⟩

/-! ## Parked reads -/

/-- **The loop over the parked reads** leaves the header alone except for `cq_tail`, and the whole
page when it completes nothing. -/
theorem Inv.pollPendingFrom_header (h : Inv strict L own k) (hp : k.processes[pid]? = some p)
    (hne : p.ringPa ≠ 0) (hoff : p.loaded.OffRing) (hr : k.roots (some pid) = some k.ttbr0)
    (hfg : Processes.foregroundPid k.processes = some pid)
    {pending : Vector (Option Pending) maxPending} {b' : Bool}
    (hloop : Kernel.pollPendingFrom pid p.ringPa pending maxPending k false = some (b', k')) :
    HeaderAt p.ringPa (sqHead k.mem p.ringPa) k.mem k'.mem ∧
      (b' = false → Set.EqOn k'.mem k.mem (frameAt p.ringPa)) := by
  have hdeliver : ∀ {k₁ k₂ : Kernel} {buf len count : Nat},
      Inv strict L own k₁ ∧ Confined L pid (some pid) p.ringPa own k own k₁ →
      k₁.drainInput pid buf len = some (count, k₂) →
      Set.EqOn k₂.mem k₁.mem (frameAt p.ringPa) := by
    rintro k₁ k₂ buf len count ⟨h₁, hc₁⟩ hd
    obtain ⟨p₁, hp₁, ht₁⟩ := hc₁.entries hp
    have hring₁ : p₁.ringPa = p.ringPa := by rw [ht₁.rest]
    have hoff₁ : p₁.loaded.OffRing := by rw [ht₁.rest]; exact hoff
    rw [← hring₁]
    exact h₁.drainInput_ring hp₁ (hring₁ ▸ hne) hoff₁ (by rw [hc₁.ttbr0]; exact hc₁.roots hr) hd
  refine (Kernel.pollPendingFrom_invariant
    (I := fun _ k₁ b ↦ (Inv strict L own k₁ ∧ Confined L pid (some pid) p.ringPa own k own k₁) ∧
      HeaderAt p.ringPa (sqHead k.mem p.ringPa) k.mem k₁.mem ∧
      (b = false → Set.EqOn k₁.mem k.mem (frameAt p.ringPa)))
    (fun _ _ _ _ hI ↦ hI) ?_ ?_ maxPending le_rfl
    ⟨⟨h, .refl ..⟩, .refl .., fun _ ↦ Set.eqOn_refl _ _⟩ hloop).2
  · rintro i k₁ k₂ b r hslot hd ⟨hI, hat, hpage⟩
    have hsame := hdeliver hI hd
    refine ⟨Inv.pollDeliver hp hr hfg hI hd, ?_, fun hb ↦ hsame.trans (hpage hb)⟩
    have hat' := hat.trans (.of_eqOn hsame)
    rwa [hat.sqHead] at hat'
  · rintro i k₁ k₂ b r count hslot hpos hd ⟨hI, hat, -⟩
    have hsame := hdeliver hI hd
    refine ⟨Inv.pollComplete hp hne hr (Inv.pollDeliver hp hr hfg hI hd) r.userData count i, ?_,
      nofun⟩
    have hat' := (hat.trans (.of_eqOn hsame)).trans (.complete rfl p.ringPa r.userData count none)
    rwa [(HeaderAt.of_eqOn hsame).sqHead, hat.sqHead] at hat'

end Header

end Jatuli

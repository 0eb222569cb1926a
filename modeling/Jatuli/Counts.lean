import Jatuli.Bookings

/-!
# The counters of a ring

The four counters in the header of a ring are the numbers of entries published and taken up and of
completions posted and reaped, up to their width.  For the kernel's two that is because it moves
them by one with every entry and completion; for the other two it is what publishing and reaping
mean.

A process that leaves the kernel's counters alone, reaps only what has been posted and has at no
time published more than 16 entries beyond what it has reaped, never loses a completion: each
completion answers an entry, so fewer than 16 are unreaped when one more is posted (`Counted.room`).
-/

set_option autoImplicit false

namespace Jatuli

/-- What a process has done with its ring: entries published, completions reaped. -/
structure Traffic where
  /-- How far it has moved `sq_tail` in all. -/
  published : Nat
  /-- How far it has moved `cq_head` in all. -/
  reaped : Nat
deriving DecidableEq, Repr

/-- At most as many entries as the ring has are published and not yet reaped. -/
def Traffic.Within (u : Traffic) : Prop := u.published ≤ u.reaped + 16

/-- The header at `ringPa` and the history agree on what has been published, posted and reaped; no
more has been taken up than was published, no more reaped than posted, and nothing dropped. -/
structure Counted (pid ringPa : Nat) (u : Traffic) (t : List Event) (m : Mem) : Prop where
  sqTail : sqTail m ringPa = BitVec.ofNat 32 u.published
  cqHead : cqHead m ringPa = BitVec.ofNat 32 u.reaped
  cqTail : cqTail m ringPa = BitVec.ofNat 32 (posted pid t).card
  taken : (consumed pid t).card ≤ u.published
  reaped : u.reaped ≤ (posted pid t).card
  kept : dropped pid t = 0

namespace Counted

variable {pid ringPa tag root : Nat} {u : Traffic} {t t' : List Event} {m m' : Mem} {k k' : Kernel}
  {child : Option Nat}

theorem same (h : Counted pid ringPa u t m) (hsame : SameCounters ringPa m m') :
    Counted pid ringPa u t m' :=
  ⟨hsame.sqTail.trans h.sqTail, hsame.cqHead.trans h.cqHead, hsame.cqTail.trans h.cqTail, h.taken,
    h.reaped, h.kept⟩

/-- Neither the books nor the counters change. -/
theorem unbooked (h : Counted pid ringPa u k.trace k.mem) (hu : Unbooked pid k k')
    (hsame : SameCounters ringPa k.mem k'.mem) : Counted pid ringPa u k'.trace k'.mem := by
  refine ⟨hsame.sqTail.trans h.sqTail, hsame.cqHead.trans h.cqHead, ?_, hu.consumed ▸ h.taken,
    hu.posted ▸ h.reaped, hu.dropped.trans h.kept⟩
  rw [hsame.cqTail, hu.posted, h.cqTail]

/-- A published entry is taken up. -/
theorem take (h : Counted pid ringPa u t m) (hlt : (consumed pid t).card < u.published) :
    Counted pid ringPa u (.sqe pid tag root child :: t) m := by
  obtain ⟨hconsumed, hposted, hdropped⟩ :=
    Kernel.Balanced.sqe_opens pid tag root child t
  refine ⟨h.sqTail, h.cqHead, by rw [hposted]; exact h.cqTail, ?_, by rw [hposted]; exact h.reaped,
    hdropped.trans h.kept⟩
  rw [hconsumed, Multiset.card_add, Multiset.card_singleton]
  omega

/-- **With room in the queue a completion is posted.** -/
theorem complete (h : Counted pid ringPa u k.trace k.mem) (howner : k.ringOwner ringPa = some pid)
    (hroom : (posted pid k.trace).card < u.reaped + 16) (tag : Nat) (result : Int)
    (child : Option Nat) :
    Counted pid ringPa u (k.complete ringPa tag result child).trace
      (k.complete ringPa tag result child).mem := by
  have hle := h.reaped
  have hheader := HeaderAt.complete rfl ringPa tag result child (k := k)
  rcases k.complete_cases ringPa tag result child with ⟨hfull, -⟩ | ⟨-, htail, htrace⟩
  · -- the queue is not full
    have hentries : ringEntries.toNat = 16 := rfl
    rw [h.cqTail, h.cqHead, BitVec.le_def, BitVec.toNat_sub, BitVec.toNat_ofNat, BitVec.toNat_ofNat,
      hentries] at hfull
    omega
  · rw [htrace]
    refine ⟨hheader.sqTail.trans h.sqTail, hheader.cqHead.trans h.cqHead, ?_, ?_, ?_, ?_⟩
    · rw [htail, h.cqTail]
      simp only [posted_cons, Event.posts, if_pos howner, zero_add, Multiset.card_add,
        Multiset.card_singleton]
      rw [Nat.add_comm, BitVec.ofNat_add]
      rfl
    · simp only [consumed_cons, Event.opens, zero_add]
      exact h.taken
    · simp only [posted_cons, Event.posts, if_pos howner, zero_add, Multiset.card_add,
        Multiset.card_singleton]
      omega
    · simp only [dropped_cons, Event.drops, zero_add]
      exact h.kept

/-- **There is room for the answer to an entry** that is in hand or parked. -/
theorem room (h : Counted pid ringPa u k.trace m) (hu : u.Within) {hand : Multiset Item}
    (hb : k.Balanced pid hand) (hopen : 0 < (parkedFor pid k.processes).card + hand.card) :
    (posted pid k.trace).card < u.reaped + 16 := by
  have hcard := hb.card_le
  have htaken := h.taken
  rw [Traffic.Within] at hu
  omega

end Counted

/-! ## Submissions -/

section Submission

variable {strict : Prop} {L : Layout} {own : Nat → Owner} {k k' : Kernel} {pid tag : Nat}
  {rid : Option Nat} {p : Process} {child : Option Nat} {u : Traffic}

/-- What becomes of an entry, as far as the ring is concerned: it is left, or it is completed. -/
theorem Inv.outcome_posts (h : Inv strict L own k) (hp : k.processes[pid]? = some p)
    (hne : p.ringPa ≠ 0) (hoff : p.loaded.OffRing) (hr : k.roots rid = some k.ttbr0)
    (howner : k.ringOwner p.ringPa = some pid) (ho : SqeOutcome pid p.ringPa tag child k k') :
    ∃ k₁ : Kernel, k₁.trace = k.trace ∧ Set.EqOn k₁.mem k.mem (frameAt p.ringPa) ∧
      k₁.ringOwner p.ringPa = some pid ∧
      (k'.trace = k₁.trace ∧ k'.mem = k₁.mem ∨
        ∃ result, k' = k₁.complete p.ringPa tag result child) := by
  cases ho with
  | @completed k₁ result hchild hd hin =>
    refine ⟨k₁, hd.trace, h.delivered_ring hp hne hp hoff hr hd, ?_, .inr ⟨result, hchild ▸ rfl⟩⟩
    rw [Kernel.ringOwner, hd.quiet.processes]
    exact howner
  | @parked k₁ q i r hchild hd hin hq hi htag =>
    refine ⟨k₁, hd.trace, h.delivered_ring hp hne hp hoff hr hd, ?_, .inl ⟨rfl, rfl⟩⟩
    rw [Kernel.ringOwner, hd.quiet.processes]
    exact howner
  | @answered c q code hchild hq hparent hexit =>
    exact ⟨k, rfl, Set.eqOn_refl _ _, howner, .inr ⟨code, hchild ▸ rfl⟩⟩
  | waiting hchild hq hparent hexit =>
    exact ⟨k, rfl, Set.eqOn_refl _ _, howner, .inl ⟨rfl, rfl⟩⟩
  | @spawned name image root s₁ s₂ loaded frames uart hchild himage hroot hspace =>
    obtain ⟨own', -, hkept, -⟩ := h.create (h.image himage) hroot hspace
      (p := { Process.fresh root loaded frames with parent := some pid }) rfl
    obtain ⟨hm, hown⟩ := h.ofRing hp hne
    subst hchild
    refine ⟨_, ?_, ?_, ?_, .inr ⟨k.processes.length, rfl⟩⟩
    · rfl
    · exact (hkept _ hm (by rw [hown]; rintro ⟨⟩) trivial).2
    · exact Kernel.ringOwner_concat howner rfl

/-- **An entry is carried out**: it is counted, and if it is answered there is room for that. -/
theorem Counted.processSqe (h : Counted pid p.ringPa u k.trace k.mem) (hu : u.Within)
    (hb : k.Balanced pid 0) (hlt : (consumed pid k.trace).card < u.published)
    (hinv : Inv strict L own k) (hp : k.processes[pid]? = some p)
    (hne : p.ringPa ≠ 0) (hoff : p.loaded.OffRing) (hr : k.roots rid = some k.ttbr0) {addr : Nat}
    (hs : k.processSqe pid addr = some k') :
    Counted pid p.ringPa u k'.trace k'.mem ∧
      (consumed pid k'.trace).card = (consumed pid k.trace).card + 1 := by
  obtain ⟨ringPa', child, hring', ho⟩ := Kernel.processSqe_cases hs
  rw [Processes.ringPa, hp, Option.map_some] at hring'
  obtain rfl := Option.some.inj hring'
  obtain ⟨tag, htag⟩ : ∃ tag, tag = k.mem.load (addr + 24) 8 := ⟨_, rfl⟩
  have hfits : tag < 2 ^ 64 := htag ▸ k.mem.load_lt 8 _
  rw [← htag] at ho
  have hinv₀ : Inv strict L own (k.log (.sqe pid tag k.ttbr0 child)) :=
    hinv.of_mem_eq (.of_quiet (k.log_quiet _)) rfl
  have h₀ : Counted pid p.ringPa u (k.log (.sqe pid tag k.ttbr0 child)).trace k.mem := h.take hlt
  have hroom := h₀.room hu (hb.take hfits k.ttbr0 child) (by rw [Multiset.card_singleton]; omega)
  have hcount : (consumed pid (k.log (.sqe pid tag k.ttbr0 child)).trace).card =
      (consumed pid k.trace).card + 1 := by
    rw [Kernel.log, (Kernel.Balanced.sqe_opens ..).1, Multiset.card_add, Multiset.card_singleton,
      Nat.add_comm]
  obtain ⟨k₁, htrace₁, hpage, howner, hcases⟩ :=
    hinv₀.outcome_posts hp hne hoff hr (hinv.ringOwner_eq hp hne) ho
  have h₁ : Counted pid p.ringPa u k₁.trace k₁.mem := by
    rw [htrace₁]
    exact h₀.same (.of_eqOn hpage)
  rw [← htrace₁] at hroom hcount
  rcases hcases with ⟨htrace, hmem⟩ | ⟨result, rfl⟩
  · rw [htrace, hmem]
    exact ⟨h₁, hcount⟩
  · refine ⟨h₁.complete howner hroom tag result child, ?_⟩
    rw [(k₁.complete_consumed pid p.ringPa tag result child).1, hcount]

/-- **A drain** counts what it takes up. -/
theorem Counted.drain (h : Counted pid p.ringPa u k.trace k.mem)
    (hhead : sqHead k.mem p.ringPa = BitVec.ofNat 32 (consumed pid k.trace).card) (hu : u.Within)
    (hb : k.Balanced pid 0) (hinv : Inv strict L own k) (hp : k.processes[pid]? = some p)
    (hne : p.ringPa ≠ 0) (hoff : p.loaded.OffRing) (hr : k.roots rid = some k.ttbr0)
    (hd : k.drain pid = some k') :
    Counted pid p.ringPa u k'.trace k'.mem ∧
      sqHead k'.mem p.ringPa = BitVec.ofNat 32 (consumed pid k'.trace).card := by
  rw [Kernel.drain, Processes.ringPa, hp, Option.map_some] at hd
  simp only [Option.bind_eq_bind, Option.bind_some, if_neg hne] at hd
  have hloop := Kernel.drainFrom_loop
    (I := fun k₁ head ↦ (∃ own₁, Inv strict L own₁ k₁ ∧
        Confined L pid rid p.ringPa own k own₁ k₁) ∧ k₁.Balanced pid 0 ∧
      Counted pid p.ringPa u k₁.trace k₁.mem ∧ sqHead k₁.mem p.ringPa = head ∧
      head = BitVec.ofNat 32 (consumed pid k₁.trace).card)
    ?_ _ rfl ⟨⟨own, hinv, .refl ..⟩, hb, h, rfl, hhead⟩ hd
  · exact ⟨hloop.2.2.1, hloop.2.2.2.1.trans hloop.2.2.2.2⟩
  · rintro k₁ k₂ head hmore ⟨⟨own₁, h₁, hc₁⟩, hb₁, hcount₁, -, hhead₁⟩ hs
    obtain ⟨p₁, hp₁, ht₁⟩ := hc₁.entries hp
    have hring₁ : p₁.ringPa = p.ringPa := by rw [ht₁.rest]
    have hoff₁ : p₁.loaded.OffRing := by rw [ht₁.rest]; exact hoff
    have hr₁ : k₁.roots rid = some k₁.ttbr0 := by rw [hc₁.ttbr0]; exact hc₁.roots hr
    -- there is an entry that has been published and not been taken up
    have hlt : (consumed pid k₁.trace).card < u.published := by
      refine Nat.lt_of_le_of_ne hcount₁.taken fun he ↦ hmore ?_
      rw [hhead₁, he, h.sqTail]
    obtain ⟨own₂, h₂, hc₂⟩ := h₁.processSqe hp₁ hring₁ hne hr₁ hs
    have hb₂ := hb₁.processSqe (.of_inv h₁) hp₁ (hring₁ ▸ hne) hs
    rw [← hring₁] at hcount₁
    obtain ⟨hcount₂, hcard⟩ := hcount₁.processSqe hu hb₁ hlt h₁ hp₁ (hring₁ ▸ hne) hoff₁
      hr₁ hs
    rw [hring₁] at hcount₂
    obtain ⟨p₂, hp₂, hring₂⟩ := hc₂.ring hp₁
    obtain ⟨h₃, hc₃⟩ : Inv strict L own₂ (k₂.ringStore p.ringPa offSqHead 4 (head + 1).toNat) ∧
        Confined L pid rid p.ringPa own₂ k₂ own₂
          (k₂.ringStore p.ringPa offSqHead 4 (head + 1).toNat) :=
      h₂.ringWritten hp₂ (hring₂.trans hring₁) hne (k₂.ringStore_quiet ..) rfl
        (k₂.ringStore_eqOn (by decide))
    have hstored := HeaderAt.store p.ringPa (head + 1) k₂.mem
    have hunbooked := Unbooked.ringStore pid k₂ p.ringPa offSqHead 4 (head + 1).toNat
    obtain ⟨k₃, hk₃⟩ : ∃ k₃, k₃ = k₂.ringStore p.ringPa offSqHead 4 (head + 1).toNat := ⟨_, rfl⟩
    have hmem₃ : k₃.mem = k₂.mem.store (p.ringPa + offSqHead) 4 (head + 1).toNat := by
      rw [hk₃, Kernel.ringStore_mem]
    have hct : Jatuli.cqTail k₃.mem p.ringPa = Jatuli.cqTail k₂.mem p.ringPa := by
      rw [Jatuli.cqTail, hmem₃, Mem.load_store_disjoint (by rw [offCqTail, offSqHead]; omega)]
      rfl
    rw [← hk₃] at h₃ hc₃ hunbooked ⊢
    rw [← hmem₃] at hstored
    refine ⟨⟨own₂, h₃, hc₁.trans hp hr (hc₂.trans hp₁ (hc₁.roots hr) hc₃)⟩, hb₂.unbooked hunbooked,
      ⟨hstored.sqTail.trans hcount₂.sqTail, hstored.cqHead.trans hcount₂.cqHead, ?_, ?_, ?_,
        hunbooked.dropped.trans hcount₂.kept⟩, hstored.sqHead, ?_⟩
    · rw [hunbooked.posted, hct, hcount₂.cqTail]
    · rw [hunbooked.consumed]
      exact hcount₂.taken
    · rw [hunbooked.posted]
      exact hcount₂.reaped
    · rw [hunbooked.consumed, hcard, hhead₁, BitVec.ofNat_add]
      rfl

end Submission

/-! ## Parked entries -/

/-- Something is parked when a slot is taken. -/
theorem parkedFor_pos {ps : List Process} {i : Nat} {p : Process} (hp : ps[i]? = some p)
    {j : Fin maxPending} {r : Pending} (hslot : getElem p.pending j j.isLt = some r) :
    0 < (parkedFor i ps).card := by
  have hset := congrArg Multiset.card (p.parked_set j none)
  rw [hslot, Multiset.card_add, Multiset.card_add] at hset
  have hsome : (slotItem (some r)).card = 1 := rfl
  have hnone : (slotItem none).card = 0 := rfl
  rw [parkedFor, hp, Option.elim_some, Multiset.card_add]
  omega

section Parked

variable {strict : Prop} {L : Layout} {own : Nat → Owner} {k k' : Kernel} {pid : Nat} {p : Process}
  {u : Traffic}

/-- **The parked reads are completed.** -/
theorem Counted.pollPendingFrom (h : Counted pid p.ringPa u k.trace k.mem) (hu : u.Within)
    (hb : k.Balanced pid 0) (hinv : Inv strict L own k) (hp : k.processes[pid]? = some p)
    (hne : p.ringPa ≠ 0) (hoff : p.loaded.OffRing) (hr : k.roots (some pid) = some k.ttbr0)
    (hfg : Processes.foregroundPid k.processes = some pid) {b' : Bool}
    (hloop : Kernel.pollPendingFrom pid p.ringPa p.pending maxPending k false = some (b', k')) :
    Counted pid p.ringPa u k'.trace k'.mem ∧ consumed pid k'.trace = consumed pid k.trace := by
  refine (Kernel.pollPendingFrom_kept (C := fun k₁ ↦
    (Inv strict L own k₁ ∧ Confined L pid (some pid) p.ringPa own k own k₁) ∧
      k₁.Balanced pid 0 ∧ Counted pid p.ringPa u k₁.trace k₁.mem ∧
      consumed pid k₁.trace = consumed pid k.trace) (.of_inv hinv) hp hne ?_ ?_
    ⟨⟨hinv, .refl ..⟩, hb, h, rfl⟩ hloop).2.2
  · rintro k₁ k₂ buf len count ⟨hI, hb₁, h₁, hcons₁⟩ hd
    obtain ⟨p₁, hp₁, ht₁⟩ := hI.2.entries hp
    have hring₁ : p₁.ringPa = p.ringPa := by rw [ht₁.rest]
    have hoff₁ : p₁.loaded.OffRing := by rw [ht₁.rest]; exact hoff
    have hpage := hI.1.drainInput_ring hp₁ (hring₁ ▸ hne) hoff₁
      (by rw [hI.2.ttbr0]; exact hI.2.roots hr) hd
    rw [hring₁] at hpage
    have hquiet : Unbooked pid k₁ k₂ := by
      have hd := Kernel.drainInput_delivered hd
      exact .of_eq hd.trace hd.quiet.processes
    exact ⟨Inv.pollDeliver hp hr hfg hI hd, hb₁.unbooked hquiet,
      h₁.unbooked hquiet (.of_eqOn hpage), hquiet.consumed.trans hcons₁⟩
  · rintro k₁ p₁ j r result hp₁ howner hslot ⟨hI, hb₁, h₁, hcons₁⟩
    have hroom := h₁.room hu hb₁ (Nat.add_pos_left (parkedFor_pos hp₁ hslot) _)
    exact ⟨Inv.pollComplete hp hne hr hI r.userData result j,
      hb₁.unpark howner hp₁ j hslot result, h₁.complete howner hroom r.userData result none,
      (k₁.complete_consumed pid p.ringPa r.userData result none).1.trans hcons₁⟩

end Parked

end Jatuli

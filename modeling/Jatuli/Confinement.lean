import Jatuli.Progress
import Jatuli.Service
import Mathlib.Data.List.Nodup

/-!
# What a ring can do to the rest of the machine

The frame conditions of everything that is done on behalf of a process `pid`: carrying out its
submissions and completing its parked reads.  User memory is written through the live address
space, so what can be written depends on whose space that is; `rid` names it.  In the intended case
it is `pid`'s own.

`Confined` relates the kernel before and after.  It is reflexive and transitive, and both loops
(`drain` and `poll_pending`) are shown to be confined by composing their rounds.
-/

set_option autoImplicit false

namespace Jatuli

/-- The address `x` backs a user address of the space `rid` that process `pid` may have written
to. -/
def Written (k : Kernel) (pid : Nat) (rid : Option Nat) (x : Nat) : Prop :=
  ∃ q p va va' f, rid = some q ∧ k.processes[q]? = some p ∧ (va', f) ∈ p.frames ∧
    va' / 4096 = va / 4096 ∧ x = f + va % 4096 ∧
    Processes.isUserRange k.processes pid va 1 true = some true

/-- Memory in use is as it was, as far as `P` says so. -/
def KeptBytes (start : Nat) (P : Nat → Prop) (own own' : Nat → Owner) (m m' : Mem) : Prop :=
  ∀ g, Managed start g → own g ≠ .free → own' g = own g ∧ ∀ x ∈ frameAt g, P x → m' x = m x

/-- What may change on behalf of process `pid`, with its ring at `ringPa`, while the space `rid` is
live. -/
structure Confined (L : Layout) (pid : Nat) (rid : Option Nat) (ringPa : Nat)
    (own : Nat → Owner) (k : Kernel) (own' : Nat → Owner) (k' : Kernel) : Prop
    extends Served pid k k' where
  kept : KeptBytes L.start (fun x ↦ x ∉ frameAt ringPa ∧ ¬ Written k pid rid x) own own'
    k.mem k'.mem

theorem Touched.space {pid i : Nat} {p p' : Process} (h : Touched pid i p p') :
    p'.space = p.space := by rw [h.rest]; rfl

namespace Confined

variable {L : Layout} {pid ringPa : Nat} {rid : Option Nat} {own own' own'' : Nat → Owner}
  {k k' k'' : Kernel}

/-- A change of memory only. -/
theorem of_quiet (hq : Quiet k k')
    (hm : ∀ x, x ∉ frameAt ringPa ∧ ¬ Written k pid rid x → k'.mem x = k.mem x)
    (hin : k'.input ≠ k.input → Processes.foregroundPid k.processes = some pid) :
    Confined L pid rid ringPa own k own k' :=
  ⟨.of_quiet hq hin, fun _ _ _ ↦ ⟨rfl, fun x _ hP ↦ hm x hP⟩⟩

theorem refl (L : Layout) (pid : Nat) (rid : Option Nat) (ringPa : Nat) (own : Nat → Owner)
    (k : Kernel) : Confined L pid rid ringPa own k own k :=
  of_quiet (.refl k) (fun _ _ ↦ rfl) (absurd rfl)

/-- The spaces there were are still there. -/
theorem roots (h : Confined L pid rid ringPa own k own' k') {id : Option Nat} {r : Nat}
    (hr : k.roots id = some r) : k'.roots id = some r := by
  cases id with
  | none => rw [← hr, Kernel.roots, Kernel.roots, h.kernelTtbr0]
  | some i =>
    obtain ⟨p, hp, hl, hroot⟩ := Kernel.roots_some.mp hr
    obtain ⟨p', hp', ht⟩ := h.entries hp
    refine Kernel.roots_some.mpr ⟨p', hp', ?_, ?_⟩
    · rw [← hl, Process.live, Process.live, ht.rest]
    · rw [← hroot, ht.rest]

theorem isUserRange (h : Confined L pid rid ringPa own k own' k') {p : Process}
    (hp : k.processes[pid]? = some p) (va len : Nat) (w : Bool) :
    Processes.isUserRange k'.processes pid va len w =
      Processes.isUserRange k.processes pid va len w := by
  obtain ⟨p', hp', ht⟩ := h.entries hp
  rw [Processes.isUserRange, Processes.isUserRange, hp, hp', Option.map_some, Option.map_some,
    ht.rest]

/-- What may be written later may be written now. -/
theorem written (h : Confined L pid rid ringPa own k own' k') {p : Process}
    (hp : k.processes[pid]? = some p) {r x : Nat} (hr : k.roots rid = some r)
    (hw : Written k' pid rid x) : Written k pid rid x := by
  obtain ⟨q, pq', va, va', f, rfl, hq', hf, hva, hx, hrange⟩ := hw
  obtain ⟨pq, hq, -, -⟩ := Kernel.roots_some.mp hr
  obtain ⟨pq₁, hq₁, ht⟩ := h.entries hq
  rw [hq'] at hq₁
  cases hq₁
  refine ⟨q, pq, va, va', f, rfl, hq, ?_, hva, hx, ?_⟩
  · rwa [ht.rest] at hf
  · rwa [h.isUserRange hp] at hrange

theorem trans {p : Process} (hp : k.processes[pid]? = some p) {r : Nat}
    (hr : k.roots rid = some r) (h : Confined L pid rid ringPa own k own' k')
    (h' : Confined L pid rid ringPa own' k' own'' k'') :
    Confined L pid rid ringPa own k own'' k'' := by
  refine ⟨h.toServed.trans hp h'.toServed, fun g hg hog ↦ ?_⟩
  obtain ⟨ho, hm⟩ := h.kept g hg hog
  obtain ⟨ho', hm'⟩ := h'.kept g hg (by rwa [ho])
  refine ⟨ho'.trans ho, fun x hx hP ↦ (hm' x hx ?_).trans (hm x hx hP)⟩
  exact ⟨hP.1, fun hw ↦ hP.2 (h.written hp hr hw)⟩

end Confined

/-! ## Single effects -/

section Effects

variable {strict : Prop} {L : Layout} {own : Nat → Owner} {k k' : Kernel} {pid ringPa : Nat}
  {rid : Option Nat} {p : Process}

/-- Stores into writable memory of `pid` through the live space land in pages of that space. -/
theorem Inv.userWrites (h : Inv strict L own k) (hr : k.roots rid = some k.ttbr0) {m : Mem}
    (hw : UserWrites k.processes pid k.ttbr0 k.mem m) :
    Inv strict L own (k.setMem m) ∧ ∀ x, ¬ Written k pid rid x → m x = k.mem x := by
  induction hw with
  | refl => exact ⟨h.of_mem_eq ⟨rfl, fun _ ↦ rfl, rfl, rfl, rfl⟩ rfl, fun _ _ ↦ rfl⟩
  | @step m va pa b hw hrange hpa ih =>
    obtain ⟨hinv, hm⟩ := ih
    obtain ⟨q, pq, va', f, hrid, hq, hf, hva, rfl⟩ := hinv.el0Writable hr hpa
    have hout : Set.EqOn (m.fill (f + va % 4096) [b]) m (frameAt f)ᶜ :=
      Mem.fill_eqOn (by omega) (by rw [List.length_singleton, frameSize]; omega)
    refine ⟨hinv.write_page ⟨rfl, fun _ ↦ rfl, rfl, rfl, rfl⟩ hq hf hout, fun x hx ↦ ?_⟩
    rw [← hm x hx]
    have hne : x ≠ f + va % 4096 := fun e ↦ hx ⟨q, pq, va, va', f, hrid, hq, hf, hva, e, hrange⟩
    rcases Nat.lt_or_gt_of_ne hne with hlt | hgt
    · exact Mem.fill_of_lt _ _ hlt
    · exact Mem.fill_of_ge _ _ (by rw [List.length_singleton]; omega)

theorem Inv.delivered (h : Inv strict L own k) (hr : k.roots rid = some k.ttbr0)
    (hd : Delivered pid k k')
    (hin : k'.input ≠ k.input → Processes.foregroundPid k.processes = some pid) :
    Inv strict L own k' ∧ Confined L pid rid ringPa own k own k' := by
  obtain ⟨hinv, hm⟩ := h.userWrites hr hd.writes
  have hq := hd.quiet
  exact ⟨hinv.of_mem_eq ⟨hq.frames, fun _ ↦ by rw [hq.processes]; rfl, hq.kernelL1,
    hq.kernelTtbr0, hq.programs⟩ rfl, .of_quiet hq (fun x hP ↦ hm x hP.2) hin⟩

/-- A change of the ring page of `pid`. -/
theorem Inv.ringWritten (h : Inv strict L own k) (hp : k.processes[pid]? = some p)
    (hring : p.ringPa = ringPa) (hne : ringPa ≠ 0) (hq : Quiet k k') (hin : k'.input = k.input)
    (hm : Set.EqOn k'.mem k.mem (frameAt ringPa)ᶜ) :
    Inv strict L own k' ∧ Confined L pid rid ringPa own k own k' := by
  subst hring
  have hf := ((h.proc hp).ring hne).1
  exact ⟨h.write_page (.of_quiet hq) hp hf hm, .of_quiet hq (fun x hP ↦ hm hP.1) (absurd hin)⟩

/-- A permitted change of one entry of the table. -/
theorem Inv.touched (h : Inv strict L own k) {i : Nat} {q q' : Process}
    (hq : k.processes[i]? = some q) (ht : Touched pid i q q') :
    Inv strict L own { k with processes := k.processes.set i q' } ∧
      Confined L pid rid ringPa own k own { k with processes := k.processes.set i q' } := by
  have hi : i < k.processes.length := (List.getElem?_eq_some_iff.mp hq).1
  refine ⟨h.of_mem_eq ⟨rfl, fun j ↦ ?_, rfl, rfl, rfl⟩ rfl, .of_set hq ht,
    fun g _ _ ↦ ⟨rfl, fun _ _ _ ↦ rfl⟩⟩
  by_cases hij : i = j
  · subst hij
    rw [List.getElem?_set_self hi, hq, Option.map_some, Option.map_some, ht.space]
  · rw [List.getElem?_set_ne hij]

/-- A new process, child of `pid`. -/
theorem Inv.spawned (h : Inv strict L own k) {root : Nat} {s₁ s₂ : Phys} {image : List UInt8}
    {loaded : Loaded} {frames : List (Nat × Nat)} {uart : Uart}
    (himg : Elf.InUserSlot image)
    (hroot : newAddressSpace k.phys k.kernelL1 = some (root, s₁))
    (hspace : createSpace s₁ image root = some (loaded, frames, s₂))
    (hk' : k' = { k with
      phys := s₂
      uart
      processes := k.processes ++ [{ Process.fresh root loaded frames with parent := some pid }]
      sched := k.sched.spawnInner (some k.processes.length) (some root) }) :
    ∃ own', Inv strict L own' k' ∧ Confined L pid rid ringPa own k own' k' := by
  subst hk'
  obtain ⟨own', hinv, hkept, -⟩ := h.create himg hroot hspace
    (p := { Process.fresh root loaded frames with parent := some pid }) rfl
  refine ⟨own', hinv.of_mem_eq ⟨rfl, fun _ ↦ rfl, rfl, rfl, rfl⟩ rfl,
    .spawned (newAddressSpace_ne_zero hroot), fun g hg hog ↦ ?_⟩
  obtain ⟨hsame, hm⟩ := hkept g hg hog trivial
  exact ⟨hsame, fun x hx _ ↦ hm hx⟩

end Effects

/-! ## The loops -/

section Loops

variable {strict : Prop} {L : Layout} {own : Nat → Owner} {k k' : Kernel} {pid ringPa : Nat}
  {rid : Option Nat} {p : Process}

/-- `complete` on the ring of `pid`. -/
theorem Inv.complete (h : Inv strict L own k) (hp : k.processes[pid]? = some p)
    (hring : p.ringPa = ringPa) (hne : ringPa ≠ 0) (tag : Nat) (result : Int)
    (child : Option Nat) : Inv strict L own (k.complete ringPa tag result child) ∧
      Confined L pid rid ringPa own k own (k.complete ringPa tag result child) :=
  h.ringWritten hp hring hne (k.complete_quiet ..) (k.complete_input ..) (k.complete_eqOn ..)

theorem Inv.outcome (h : Inv strict L own k) (hp : k.processes[pid]? = some p)
    (hring : p.ringPa = ringPa) (hne : ringPa ≠ 0) (hr : k.roots rid = some k.ttbr0) {tag : Nat}
    {child : Option Nat} (ho : SqeOutcome pid ringPa tag child k k') :
    ∃ own', Inv strict L own' k' ∧ Confined L pid rid ringPa own k own' k' := by
  cases ho with
  | @completed k₁ result hchild hd hin =>
    have ⟨h₁, hc₁⟩ : Inv strict L own k₁ ∧ Confined L pid rid ringPa own k own k₁ :=
      h.delivered hr hd hin
    obtain ⟨p₁, hp₁, hring₁⟩ := hc₁.ring hp
    obtain ⟨h₂, hc₂⟩ := h₁.complete hp₁ (hring₁.trans hring) hne tag result none
    exact ⟨own, h₂, hc₁.trans hp hr hc₂⟩
  | @parked k₁ q i r hchild hd hin hq hi htag =>
    have ⟨h₁, hc₁⟩ : Inv strict L own k₁ ∧ Confined L pid rid ringPa own k own k₁ :=
      h.delivered hr hd hin
    have hps : k₁.processes = k.processes := hd.quiet.processes
    have ht : Touched pid pid q { q with pending := q.pending.set i (some r) } :=
      ⟨rfl, fun hx ↦ absurd rfl hx, fun hx ↦ absurd rfl hx⟩
    rw [← hps] at hq ⊢
    obtain ⟨h₂, hc₂⟩ := h₁.touched hq ht
    exact ⟨own, h₂, hc₁.trans hp hr hc₂⟩
  | @answered c q code hchild hq hparent hexit =>
    obtain ⟨h₁, hc₁⟩ := h.complete hp hring hne tag code (some c)
    exact ⟨own, h₁, hc₁⟩
  | @waiting c q hchild hq hparent hexit =>
    have ht : Touched pid c q { q with exitWaiter := some tag } :=
      ⟨rfl, fun _ ↦ rfl, fun _ ↦ hparent⟩
    obtain ⟨h₁, hc₁⟩ := h.touched hq ht
    rw [Processes.registerWait, modify_eq_set hq]
    exact ⟨own, h₁, hc₁⟩
  | @spawned name image root s₁ s₂ loaded frames uart hchild himage hroot hspace =>
    have himg := h.image himage
    obtain ⟨own₁, h₁, hc₁⟩ : ∃ own₁, Inv strict L own₁ _ ∧
      Confined L pid rid ringPa own k own₁ _ := h.spawned himg hroot hspace rfl
    obtain ⟨p₁, hp₁, hring₁⟩ := hc₁.ring hp
    obtain ⟨h₂, hc₂⟩ := h₁.complete hp₁ (hring₁.trans hring) hne tag _ none
    exact ⟨own₁, h₂, hc₁.trans hp hr hc₂⟩

/-- One submission. -/
theorem Inv.processSqe (h : Inv strict L own k) (hp : k.processes[pid]? = some p)
    (hring : p.ringPa = ringPa) (hne : ringPa ≠ 0) (hr : k.roots rid = some k.ttbr0) {addr : Nat}
    (hs : k.processSqe pid addr = some k') :
    ∃ own', Inv strict L own' k' ∧ Confined L pid rid ringPa own k own' k' := by
  obtain ⟨ringPa', child, hring', ho⟩ := Kernel.processSqe_cases hs
  rw [Processes.ringPa, hp, Option.map_some, hring] at hring'
  cases hring'
  have hlog : ∀ e, Inv strict L own (k.log e) ∧ Confined L pid rid ringPa own k own (k.log e) :=
    fun e ↦ ⟨h.of_mem_eq (.of_quiet (k.log_quiet e)) rfl,
      .of_quiet (k.log_quiet e) (fun _ _ ↦ rfl) (absurd rfl)⟩
  obtain ⟨h₀, hc₀⟩ := hlog (.sqe pid (k.mem.load (addr + 24) 8) k.ttbr0 child)
  obtain ⟨own', h', hc'⟩ := h₀.outcome hp hring hne hr ho
  exact ⟨own', h', hc₀.trans hp hr hc'⟩

/-- **`drain` is confined**: whatever is on the ring page, consuming the submissions of a process
keeps the invariant and stays within what may change on behalf of that process. -/
theorem Inv.drain (h : Inv strict L own k) (hp : k.processes[pid]? = some p)
    (hr : k.roots rid = some k.ttbr0) (hd : k.drain pid = some k') :
    ∃ own', Inv strict L own' k' ∧ Confined L pid rid p.ringPa own k own' k' := by
  rw [Kernel.drain, Processes.ringPa, hp, Option.map_some] at hd
  simp only [Option.bind_eq_bind, Option.bind_some] at hd
  split at hd
  · cases hd
    exact ⟨own, h, .refl _ _ _ _ _ _⟩
  · rename_i hne
    -- the loop invariant: what happened so far is confined
    refine Kernel.drainFrom_invariant
      (I := fun k₁ ↦ ∃ own₁, Inv strict L own₁ k₁ ∧ Confined L pid rid p.ringPa own k own₁ k₁)
      ?_ ?_ _ ⟨own, h, .refl _ _ _ _ _ _⟩ hd
    · rintro k₁ k₂ addr ⟨own₁, h₁, hc₁⟩ hs
      obtain ⟨p₁, hp₁, hring₁⟩ := hc₁.ring hp
      have hr₁ : k₁.roots rid = some k₁.ttbr0 := by rw [hc₁.ttbr0]; exact hc₁.roots hr
      obtain ⟨own₂, h₂, hc₂⟩ := h₁.processSqe hp₁ hring₁ hne hr₁ hs
      exact ⟨own₂, h₂, hc₁.trans hp hr hc₂⟩
    · rintro k₁ v ⟨own₁, h₁, hc₁⟩
      obtain ⟨p₁, hp₁, hring₁⟩ := hc₁.ring hp
      obtain ⟨h₂, hc₂⟩ : Inv strict L own₁ (k₁.ringStore p.ringPa offSqHead 4 v) ∧
          Confined L pid rid p.ringPa own₁ k₁ own₁ (k₁.ringStore p.ringPa offSqHead 4 v) :=
        h₁.ringWritten hp₁ hring₁ hne (k₁.ringStore_quiet ..) rfl (k₁.ringStore_eqOn (by decide))
      exact ⟨own₁, h₂, hc₁.trans hp hr hc₂⟩

/-- A delivery in the loop of `poll_pending`. -/
theorem Inv.pollDeliver {k₁ k₂ : Kernel} (hp : k.processes[pid]? = some p)
    (hr : k.roots (some pid) = some k.ttbr0)
    (hfg : Processes.foregroundPid k.processes = some pid)
    (hI : Inv strict L own k₁ ∧ Confined L pid (some pid) ringPa own k own k₁) {buf len count : Nat}
    (hd : k₁.drainInput pid buf len = some (count, k₂)) :
    Inv strict L own k₂ ∧ Confined L pid (some pid) ringPa own k own k₂ := by
  obtain ⟨h₁, hc₁⟩ := hI
  have hr₁ : k₁.roots (some pid) = some k₁.ttbr0 := by rw [hc₁.ttbr0]; exact hc₁.roots hr
  have ⟨h₂, hc₂⟩ : Inv strict L own k₂ ∧ Confined L pid (some pid) ringPa own k₁ own k₂ :=
    h₁.delivered hr₁ (Kernel.drainInput_delivered hd) fun _ ↦ by rw [hc₁.foregroundPid, hfg]
  exact ⟨h₂, hc₁.trans hp hr hc₂⟩

/-- The completion after it. -/
theorem Inv.pollComplete {k₂ : Kernel} (hp : k.processes[pid]? = some p) (hne : p.ringPa ≠ 0)
    (hr : k.roots (some pid) = some k.ttbr0)
    (hI : Inv strict L own k₂ ∧ Confined L pid (some pid) p.ringPa own k own k₂) (tag : Nat)
    (result : Int) (i : Fin maxPending) :
    Inv strict L own { k₂.complete p.ringPa tag result none with
        processes := Processes.clearPending k₂.processes pid i } ∧
      Confined L pid (some pid) p.ringPa own k own { k₂.complete p.ringPa tag result none with
        processes := Processes.clearPending k₂.processes pid i } := by
  obtain ⟨h₂, hc₂⟩ := hI
  obtain ⟨p₂, hp₂, hring₂⟩ := hc₂.ring hp
  obtain ⟨h₃, hc₃⟩ := h₂.complete hp₂ hring₂ hne tag result none
  have hq := (k₂.complete_quiet p.ringPa tag result none).processes
  have hp₃ : (k₂.complete p.ringPa tag result none).processes[pid]? = some p₂ := by
    rw [hq, hp₂]
  have ht : Touched pid pid p₂ { p₂ with pending := p₂.pending.set i none } :=
    ⟨rfl, fun hx ↦ absurd rfl hx, fun hx ↦ absurd rfl hx⟩
  have ⟨h₄, hc₄⟩ : Inv strict L own _ ∧ Confined L pid (some pid) p.ringPa own _ own _ :=
    h₃.touched hp₃ ht
  rw [hq, ← modify_eq_set hp₂ (fun q ↦ { q with pending := q.pending.set i none })] at h₄ hc₄
  exact ⟨h₄, hc₂.trans hp hr (hc₃.trans hp₂ (by rw [hc₂.roots hr]) hc₄)⟩

/-- The loop is confined to the foreground process. -/
theorem Inv.pollPendingFrom (h : Inv strict L own k) (hp : k.processes[pid]? = some p)
    (hne : p.ringPa ≠ 0) (hr : k.roots (some pid) = some k.ttbr0)
    (hfg : Processes.foregroundPid k.processes = some pid)
    {pending : Vector (Option Pending) maxPending} {b b' : Bool}
    (hloop : Kernel.pollPendingFrom pid p.ringPa pending maxPending k b = some (b', k')) :
    Inv strict L own k' ∧ Confined L pid (some pid) p.ringPa own k own k' :=
  Kernel.pollPendingFrom_invariant
    (I := fun _ k₁ _ ↦ Inv strict L own k₁ ∧ Confined L pid (some pid) p.ringPa own k own k₁)
    (fun _ _ _ _ hI ↦ hI) (fun _ _ _ _ _ _ hd hI ↦ Inv.pollDeliver hp hr hfg hI hd)
    (fun i _ _ _ r count _ _ hd hI ↦ Inv.pollComplete hp hne hr (Inv.pollDeliver hp hr hfg hI hd)
      r.userData count i) maxPending le_rfl ⟨h, .refl _ _ _ _ _ _⟩ hloop

/-- In its own space a process cannot have a frame written that is not a page of its own. -/
theorem Inv.frame_kept (h : Inv strict L own k) (hp : k.processes[pid]? = some p)
    {own' : Nat → Owner} (hc : Confined L pid (some pid) p.ringPa own k own' k') {g : Nat}
    (hg : Managed L.start g) (hfree : own g ≠ .free) (hpage : own g ≠ .page (some pid)) :
    Set.EqOn k'.mem k.mem (frameAt g) := by
  refine fun x hx ↦ (hc.kept g hg hfree).2 x hx ⟨?_, ?_⟩
  · by_cases hzero : p.ringPa = 0
    · rw [hzero]
      refine frameAt_disjoint hg.aligned rfl (fun e ↦ ?_) hx
      have := hg.2.1
      have := h.owned.start_pos
      omega
    · obtain ⟨hmr, hor⟩ := h.ofRing hp hzero
      exact frameAt_disjoint hg.aligned hmr.aligned (fun e ↦ hpage (e ▸ hor)) hx
  · rintro ⟨q, pq, va, va', f, hq, hpq, hf, -, rfl, -⟩
    cases hq
    rw [hp] at hpq
    cases hpq
    obtain ⟨hmf, hof⟩ := h.ofFrames hp hf
    refine frameAt_disjoint hg.aligned hmf.aligned (fun e ↦ hpage (e ▸ hof)) hx ?_
    rw [mem_frameAt]
    omega

/-- What is accepted lies in the stack, or in a range that may be used that way. -/
theorem isUserRange_cases {ps : List Process} {ptr len : Nat} {w : Bool} (hp : ps[pid]? = some p)
    (h : Processes.isUserRange ps pid ptr len w = some true) :
    ptr + len < 2 ^ 64 ∧ ((userStackVa ≤ ptr ∧ ptr + len ≤ userStackVa + userStackSize) ∨
      ∃ rg ∈ p.loaded.ranges, (w = true → rg.writable = true) ∧ rg.start ≤ ptr ∧
        ptr + len ≤ rg.stop) := by
  rw [Processes.isUserRange] at h
  split_ifs at h with h64 hstack
  · cases h
  · exact ⟨Nat.lt_of_not_le h64, .inl hstack⟩
  · rw [hp, Option.map_some, Option.some.injEq, Processes.rangeOk] at h
    split at h
    · rename_i rg hrg
      have hin := List.find?_some hrg
      simp only [Bool.decide_and, Bool.and_eq_true, decide_eq_true_eq] at hin
      refine ⟨Nat.lt_of_not_le h64, .inr ⟨rg, List.mem_of_find?_eq_some hrg, fun hw ↦ ?_, hin⟩⟩
      simpa [hw] using h
    · cases h

/-- Where a process may have a byte written. -/
theorem isUserRange_writable {ps : List Process} {va : Nat} (hp : ps[pid]? = some p)
    (h : Processes.isUserRange ps pid va 1 true = some true) :
    (userStackVa ≤ va ∧ va < userStackVa + userStackSize) ∨
      ∃ rg ∈ p.loaded.ranges, rg.writable = true ∧ rg.start ≤ va ∧ va < rg.stop := by
  rcases (isUserRange_cases hp h).2 with hstack | ⟨rg, hrg, hw, hstart, hstop⟩
  · exact .inl hstack
  · exact .inr ⟨rg, hrg, hw rfl, hstart, hstop⟩

/-- A frame is recorded for one address only. -/
theorem Inv.frames_inj (h : Inv strict L own k) (hp : k.processes[pid]? = some p) {va va' f : Nat}
    (hf : (va, f) ∈ p.frames) (hf' : (va', f) ∈ p.frames) : va = va' := by
  have hnd := (h.owned.page (some pid)).1
  have hpages : k.pages L.heap (some pid) = p.frames := by simp [Kernel.pages, hp]
  rw [hpages] at hnd
  exact (Prod.mk.inj (List.inj_on_of_nodup_map hnd hf hf' rfl)).1

/-- **A hostile ring page is confined.**  Carrying out the submissions of a process in its own
address space, whatever they are, leaves the pages and tables of every other live process alone,
and its table entry too, up to a wait parked on a child.  Input is taken only for the foreground
process, and of its own memory the process can have nothing written to but its writable segments
and its stack. -/
theorem drain_confined (h : Inv strict L own k) (hp : k.processes[pid]? = some p)
    (hl : p.live = true) (hroot : k.ttbr0 = p.ttbr0) (hd : k.drain pid = some k') :
    (∀ q pq, q ≠ pid → k.processes[q]? = some pq →
      (∃ pq', k'.processes[q]? = some pq' ∧
        (pq' = pq ∨ pq.parent = some pid ∧ pq' = { pq with exitWaiter := pq'.exitWaiter })) ∧
      (pq.live = true →
        (∀ va f, (va, f) ∈ pq.frames → Set.EqOn k'.mem k.mem (frameAt f)) ∧
        ∀ path t, InTree (some q) path → walk k.mem pq.ttbr0 path = some t →
          Set.EqOn k'.mem k.mem (frameAt t))) ∧
    (k'.input ≠ k.input → Processes.foregroundPid k.processes = some pid) ∧
    ∀ va f, (va, f) ∈ p.frames → f ≠ p.ringPa → ∀ o < 4096, k'.mem (f + o) ≠ k.mem (f + o) →
      (userStackVa ≤ va + o ∧ va + o < userStackVa + userStackSize) ∨
        ∃ rg ∈ p.loaded.ranges, rg.writable = true ∧ rg.start ≤ va + o ∧ va + o < rg.stop := by
  have hr : k.roots (some pid) = some k.ttbr0 := by rw [hroot]; exact Inv.root_of_live hp hl
  obtain ⟨own', h', hc⟩ := h.drain hp hr hd
  refine ⟨fun q pq hq hpq ↦ ⟨?_, fun hlq ↦ ⟨fun va f hf ↦ ?_, fun path t hin ht ↦ ?_⟩⟩, hc.input,
    fun va f hf hne o ho hch ↦ ?_⟩
  · obtain ⟨pq', hpq', htouch⟩ := hc.entries hpq
    refine ⟨pq', hpq', ?_⟩
    have hrest := htouch.rest
    rw [htouch.pending hq] at hrest
    by_cases he : pq'.exitWaiter = pq.exitWaiter
    · rw [he] at hrest
      exact .inl hrest
    · exact .inr ⟨htouch.exitWaiter he, hrest⟩
  · obtain ⟨hmf, hof⟩ := h.ofFrames hpq hf
    exact h.frame_kept hp hc hmf (by simp [hof]) (by simpa [hof] using hq)
  · obtain ⟨hmt, hot⟩ := h.owned.tree.node (Inv.root_of_live hpq hlq) hin ht
    exact h.frame_kept hp hc hmt (by simp [hot]) (by simp [hot])
  · obtain ⟨hmf, hof⟩ := h.ofFrames hp hf
    have hx : f + o ∈ frameAt f := mem_frameAt.mpr ⟨by omega, by omega⟩
    have hring : f + o ∉ frameAt p.ringPa := by
      refine frameAt_disjoint hmf.aligned ?_ hne hx
      by_cases hzero : p.ringPa = 0
      · rw [hzero]
      · exact (h.ofRing hp hzero).1.aligned
    have hw := of_not_not fun hw ↦ hch ((hc.kept f hmf (by simp [hof])).2 _ hx ⟨hring, hw⟩)
    obtain ⟨q, pq, va₁, va', f₁, hq, hpq, hf₁, hva, hfo, hrange⟩ := hw
    cases hq
    rw [hp] at hpq
    cases hpq
    -- the frame and the offset determine the user address
    have hal₁ := (h.ofFrames hp hf₁).1.aligned
    have hal := hmf.aligned
    have hff : f₁ = f := by omega
    subst hff
    have hva' : va = va' := h.frames_inj hp hf hf₁
    have halva := ((h.proc hp).pagesOf va f₁ hf).1
    rw [show va + o = va₁ by omega]
    exact isUserRange_writable hp hrange

end Loops

/-- A process with a neighbour asks for input to be read to where a page of the neighbour lies in
memory, an address that the kernel could write to.  The request is taken up, and the page stays as
it is. -/
theorem drain_confined_hostile : ∃ L own k k' p q f, Inv True L own k ∧ k.processes = [p, q] ∧
    k.ttbr0 = p.ttbr0 ∧ q.live = true ∧ (userBase, f) ∈ q.frames ∧
    k.mem.load (sqeAddr p.ringPa 0) 8 = opRead ∧ k.mem.load (sqeAddr p.ringPa 0 + 8) 8 = f ∧
    k.mem.load (sqeAddr p.ringPa 0 + 16) 8 = 8 ∧
    k.drain 0 = some k' ∧ sqHead k'.mem p.ringPa ≠ sqHead k.mem p.ringPa ∧
    (∃ q', k'.processes[1]? = some q' ∧
      (q' = q ∨ q.parent = some 0 ∧ q' = { q with exitWaiter := q'.exitWaiter })) ∧
    Set.EqOn k'.mem k.mem (frameAt f) ∧
    (k'.input ≠ k.input → Processes.foregroundPid k.processes = some 0) ∧
    ∀ va f, (va, f) ∈ p.frames → f ≠ p.ringPa → ∀ o < 4096, k'.mem (f + o) ≠ k.mem (f + o) →
      (userStackVa ≤ va + o ∧ va + o < userStackVa + userStackSize) ∨
        ∃ rg ∈ p.loaded.ranges, rg.writable = true ∧ rg.start ≤ va + o ∧ va + o < rg.stop := by
  obtain ⟨L, own, k, p, q, h, hps, hl, hroot, hloaded, hne, hzero, hlq, hvas⟩ := exists_neighbours
  have hp : k.processes[0]? = some p := by rw [hps]; rfl
  have hq : k.processes[1]? = some q := by rw [hps]; rfl
  obtain ⟨f, hf⟩ : ∃ f, (userBase, f) ∈ q.frames := by
    have hmem : userBase ∈ q.frames.map Prod.fst := by rw [hvas]; exact List.mem_cons_self
    obtain ⟨⟨va, f⟩, hf, hva⟩ := List.mem_map.mp hmem
    exact ⟨f, hva ▸ hf⟩
  have htop : f + 4096 ≤ ramTop := (h.ofFrames hq hf).1.2.2
  have hlow : ramTop < userBase ∧ ramTop < userStackVa ∧ ramTop < 2 ^ 48 := by decide
  -- the entry
  have hhead := sqHead_of_zero hzero
  have htail := sqTail_of_zero hzero
  obtain ⟨k₁, hk₁⟩ : ∃ k₁ : Kernel, k₁ = k.setMem (submitted k.mem p.ringPa opRead f 8 7) :=
    ⟨_, rfl⟩
  have h₁ : Inv True L own k₁ := by
    rw [hk₁]
    exact h.write_page (.of_quiet (k.setMem_quiet _)) hp ((h.proc hp).ring hne).1
      (submitted_eqOn ..)
  have hmem : k₁.mem = submitted k.mem p.ringPa opRead f 8 7 := by rw [hk₁]; rfl
  have hps₁ : k₁.processes = [p, q] := by rw [hk₁]; exact hps
  have hp₁ : k₁.processes[0]? = some p := by rw [hps₁]; rfl
  have hpa : Processes.ringPa k₁.processes 0 = some p.ringPa := by
    rw [Processes.ringPa, hp₁, Option.map_some]
  have hhead₁ : sqHead k₁.mem p.ringPa = 0 := by rw [hmem, submitted_sqHead, hhead]
  have htail₁ : sqTail k₁.mem p.ringPa = sqHead k₁.mem p.ringPa + 1 := by
    rw [hmem, submitted_sqTail, submitted_sqHead, hhead, htail]
  obtain ⟨hop, harg0, harg1, htag⟩ := submitted_entry k.mem p.ringPa opRead f 8 7 (by decide)
    (by omega) (by decide) (by decide) (a := sqeAddr p.ringPa 0) (by rw [htail]; rfl)
  rw [← hmem] at hop harg0 harg1 htag
  -- it is answered with an error
  have hrange : Processes.isUserRange k₁.processes 0 f 8 true = some false := by
    obtain ⟨b, hb⟩ : ∃ b, Processes.isUserRange k₁.processes 0 f 8 true = some b := by
      rw [Processes.isUserRange, hp₁]
      split_ifs
      · exact ⟨_, rfl⟩
      · exact ⟨_, rfl⟩
      · exact ⟨_, rfl⟩
    cases b with
    | false => exact hb
    | true =>
      rcases (isUserRange_cases hp₁ hb).2 with ⟨hstack, -⟩ | ⟨rg, hrg, -, hstart, -⟩
      · omega
      · rw [hloaded] at hrg
        rw [List.mem_singleton.mp hrg] at hstart
        dsimp only at hstart
        omega
  obtain ⟨k₂, hk₂⟩ : ∃ k₂ : Kernel, k₁.processSqe 0 (sqeAddr p.ringPa 0) = some k₂ := by
    rw [Kernel.processSqe, hpa]
    simp only [Option.bind_eq_bind, Option.bind_some, hop, harg0, harg1, htag]
    rw [if_neg (by decide), if_neg (by decide), if_pos trivial, Kernel.read]
    exact ⟨_, by rw [show (k₁.log _).processes = k₁.processes from rfl, hrange]; rfl⟩
  have hd : k₁.drain 0 = some (k₂.ringStore p.ringPa offSqHead 4 (0 + 1 : BitVec 32).toNat) := by
    rw [k₁.drain_one hpa hne htail₁, hhead₁, show slot 0 = 0 from rfl, hk₂, Option.map_some]
  have hconf := drain_confined h₁ hp₁ hl (by rw [hk₁]; exact hroot) hd
  obtain ⟨hentry, hpages⟩ := hconf.1 1 q (by decide) (by rw [hps₁]; rfl)
  refine ⟨L, own, k₁, _, p, q, f, h₁, hps₁, by rw [hk₁]; exact hroot, hlq, hf, hop, harg0,
    harg1, hd, ?_, hentry, (hpages hlq).1 _ f hf, hconf.2.1, hconf.2.2⟩
  rw [hhead₁, Kernel.ringStore_mem, sqHead_store]
  decide

end Jatuli

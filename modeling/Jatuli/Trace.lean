import Jatuli.Control

/-!
# What is recorded

The events that the kernel's functions add to the trace.  Whatever is done with a ring is recorded
with the owner of that ring, and there is one as long as the process has not been torn down.
-/

set_option autoImplicit false

namespace Jatuli

/-- An event of the ring at `ringPa`, recorded with its owner. -/
def Event.About (ringPa : Nat) (owner : Option Nat) : Event → Prop
  | .ringStore pa o => pa = ringPa ∧ o = owner
  | .cqe o _ _ _ => o = owner
  | .overflow o _ _ => o = owner
  | .sqe .. => False

/-- Every event that `k'` has more than `k` satisfies `P`. -/
def NewEvents (P : Event → Prop) (k k' : Kernel) : Prop := ∀ e ∈ k'.trace, e ∈ k.trace ∨ P e

namespace NewEvents

variable {P : Event → Prop} {k k' k'' : Kernel}

theorem of_eq (h : k'.trace = k.trace) : NewEvents P k k' := fun _ he ↦ .inl (h ▸ he)

theorem trans (h : NewEvents P k k') (h' : NewEvents P k' k'') : NewEvents P k k'' := by
  intro e he
  rcases h' e he with he | he
  · exact h e he
  · exact .inr he

theorem cons {e : Event} (h : k'.trace = e :: k.trace) (he : P e) : NewEvents P k k' := by
  intro e' he'
  rw [h] at he'
  rcases List.mem_cons.mp he' with rfl | he'
  · exact .inr he
  · exact .inl he'

end NewEvents

section Complete

variable {P : Event → Prop} {k k' : Kernel} {pid : Nat} {p : Process}

variable (hp : k.processes[pid]? = some p) (hl : p.live = true) (hne : p.ringPa ≠ 0)
  (hP : ∀ o e, o ≠ none → Event.About p.ringPa o e → P e)
include hp hl hne hP

theorem ringStore_events (off n v : Nat) : NewEvents P k (k.ringStore p.ringPa off n v) :=
  .cons rfl (hP _ _ (Kernel.ringOwner_ne_none hp hl hne) ⟨rfl, rfl⟩)

theorem complete_events (tag : Nat) (result : Int) (child : Option Nat) :
    NewEvents P k (k.complete p.ringPa tag result child) := by
  have howner := Kernel.ringOwner_ne_none hp hl hne
  intro e he
  rcases k.complete_cases p.ringPa tag result child with ⟨-, -, ht⟩ | ⟨-, -, ht⟩
  · rw [ht] at he
    rcases List.mem_cons.mp he with rfl | he
    · exact .inr (hP _ _ howner rfl)
    · exact .inl he
  · rw [ht] at he
    simp only [List.mem_cons] at he
    rcases he with rfl | rfl | rfl | rfl | he
    · exact .inr (hP _ _ howner rfl)
    · exact .inr (hP _ _ howner ⟨rfl, rfl⟩)
    · exact .inr (hP _ _ howner ⟨rfl, rfl⟩)
    · exact .inr (hP _ _ howner ⟨rfl, rfl⟩)
    · exact .inl he

end Complete

/-- The entry keeps its ring and its life. -/
theorem Touched.ring {pid i : Nat} {p p' : Process} (h : Touched pid i p p') :
    p'.ringPa = p.ringPa ∧ p'.live = p.live := by
  rw [h.rest]
  exact ⟨rfl, rfl⟩

section Loops

variable {P : Event → Prop} {k k' : Kernel} {pid : Nat} {p : Process}
  (hP : ∀ o e, o ≠ none → Event.About p.ringPa o e → P e)
include hP

/-- The same for an entry that has changed meanwhile. -/
theorem complete_events_of_touched {p' : Process} (hp' : k.processes[pid]? = some p')
    (ht : Touched pid pid p p') (hl : p.live = true) (hne : p.ringPa ≠ 0) (tag : Nat) (result : Int)
    (child : Option Nat) : NewEvents P k (k.complete p.ringPa tag result child) := by
  obtain ⟨hring, hlive⟩ := ht.ring
  rw [← hring] at hne ⊢
  exact complete_events hp' (hlive.trans hl) hne (by rwa [hring]) tag result child

theorem outcome_events (hp : k.processes[pid]? = some p) (hl : p.live = true) (hne : p.ringPa ≠ 0)
    {tag : Nat} {child : Option Nat} (ho : SqeOutcome pid p.ringPa tag child k k') :
    NewEvents P k k' := by
  have hpost : ∀ {k₁ : Kernel} (result : Int) (c : Option Nat), Served pid k k₁ →
      k₁.trace = k.trace → NewEvents P k (k₁.complete p.ringPa tag result c) := by
    intro k₁ result c hs htrace
    obtain ⟨p₁, hp₁, ht₁⟩ := hs.entries hp
    exact (NewEvents.of_eq htrace).trans (complete_events_of_touched hP hp₁ ht₁ hl hne tag result c)
  cases ho with
  | completed result hchild hd hin => exact hpost result none (.of_quiet hd.quiet hin) hd.trace
  | parked hchild hd hin hq hi htag => exact .of_eq hd.trace
  | answered hchild hq hparent hexit => exact hpost _ _ (.refl pid k) rfl
  | waiting hchild hq hparent hexit => exact .of_eq rfl
  | spawned hchild himage hroot hspace =>
    exact hpost _ none (.spawned (newAddressSpace_ne_zero hroot)) rfl

theorem processSqe_events (hsqe : ∀ tag child, P (.sqe pid tag k.ttbr0 child))
    (hp : k.processes[pid]? = some p) (hl : p.live = true) (hne : p.ringPa ≠ 0) {addr : Nat}
    (h : k.processSqe pid addr = some k') : NewEvents P k k' := by
  obtain ⟨ringPa, child, hring, ho⟩ := Kernel.processSqe_cases h
  rw [Processes.ringPa, hp, Option.map_some] at hring
  cases hring
  have hlog : NewEvents P k (k.log (.sqe pid (k.mem.load (addr + 24) 8) k.ttbr0 child)) :=
    .cons rfl (hsqe _ _)
  exact hlog.trans (outcome_events (k := k.log _) hP hp hl hne ho)

/-- What `drain` records: entries taken up in the live space, and events of the process's ring. -/
theorem drain_events (hsqe : ∀ tag child, P (.sqe pid tag k.ttbr0 child))
    (hp : k.processes[pid]? = some p) (hl : p.ringPa ≠ 0 → p.live = true)
    (h : k.drain pid = some k') : NewEvents P k k' := by
  rw [Kernel.drain, Processes.ringPa, hp, Option.map_some] at h
  simp only [Option.bind_eq_bind, Option.bind_some] at h
  split_ifs at h with hne
  · cases h
    exact .of_eq rfl
  · have hl := hl hne
    refine (Kernel.drainFrom_invariant (I := fun k₁ ↦ Served pid k k₁ ∧ NewEvents P k k₁)
      ?_ ?_ _ ⟨.refl pid k, .of_eq rfl⟩ h).2
    · rintro k₁ k₂ addr ⟨hs, hev⟩ hk₂
      obtain ⟨p₁, hp₁, ht₁⟩ := hs.entries hp
      obtain ⟨hring, hlive⟩ := ht₁.ring
      refine ⟨hs.trans hp (Kernel.processSqe_served hp₁ hk₂), hev.trans ?_⟩
      exact processSqe_events (by rwa [hring]) (by rwa [hs.ttbr0]) hp₁ (hlive.trans hl)
        (hring ▸ hne) hk₂
    · rintro k₁ v ⟨hs, hev⟩
      obtain ⟨p₁, hp₁, ht₁⟩ := hs.entries hp
      obtain ⟨hring, hlive⟩ := ht₁.ring
      refine ⟨hs.trans hp (.of_quiet (k₁.ringStore_quiet ..) (absurd rfl)), hev.trans ?_⟩
      rw [← hring]
      exact ringStore_events hp₁ (hlive.trans hl) (hring ▸ hne) (by rwa [hring]) _ _ _

theorem pollPendingFrom_events (hp : k.processes[pid]? = some p) (hl : p.live = true)
    (hne : p.ringPa ≠ 0) {pending : Vector (Option Pending) maxPending} {b b' : Bool}
    (h : Kernel.pollPendingFrom pid p.ringPa pending maxPending k b = some (b', k')) :
    NewEvents P k k' := by
  refine (Kernel.pollPendingFrom_invariant (I := fun _ k₁ _ ↦
    (∃ p₁, k₁.processes[pid]? = some p₁ ∧ Touched pid pid p p₁) ∧ NewEvents P k k₁)
    (fun _ _ _ _ hI ↦ hI) ?_ ?_ maxPending le_rfl ⟨⟨p, hp, .refl _ _ _⟩, .of_eq rfl⟩ h).2
  · rintro i k₁ k₂ b r - hd ⟨⟨p₁, hp₁, ht₁⟩, hev⟩
    have hd := Kernel.drainInput_delivered hd
    exact ⟨⟨p₁, by rw [hd.quiet.processes, hp₁], ht₁⟩, hev.trans (.of_eq hd.trace)⟩
  · rintro i k₁ k₂ b r count - - hd ⟨⟨p₁, hp₁, ht₁⟩, hev⟩
    have hd := Kernel.drainInput_delivered hd
    rw [← hd.quiet.processes] at hp₁
    have hpost := complete_events_of_touched hP hp₁ ht₁ hl hne r.userData count none
    refine ⟨⟨{ p₁ with pending := p₁.pending.set i none }, ?_, ht₁.trans ⟨rfl, ?_, ?_⟩⟩,
      hev.trans ((NewEvents.of_eq hd.trace).trans hpost)⟩
    · show (List.modify ..)[pid]? = _
      rw [List.getElem?_modify_eq, hp₁]
      rfl
    · exact fun hx ↦ absurd rfl hx
    · exact fun hx ↦ absurd rfl hx

end Loops

section Ends

variable {P : Event → Prop} {k k' : Kernel} {pid : Nat} {p : Process} (ho : Orderly k)
  (hP : ∀ (i : Nat) (q : Process), k.processes[i]? = some q → q.live = true →
    ∀ o e, o ≠ none → Event.About q.ringPa o e → P e)
include ho hP

/-- What `poll_pending` records are events of the foreground process's ring. -/
theorem pollPending_events (h : k.pollPending = some k') : NewEvents P k k' := by
  rcases Kernel.pollPending_cases ho.synced (fun hp _ ↦ (ho.entry hp).root) h with
    rfl | ⟨pid, p, i₁, k₂, completed, i₃, hfg, hp, hne, hi₁, hloop, hi₃, rfl⟩
  · exact .of_eq rfl
  · have hl := ho.live_of_ring hp hne
    have hev : NewEvents P k k₂ := pollPendingFrom_events
      (k := { k with installed := i₁, ttbr0 := p.ttbr0 }) (hP _ _ hp hl) hp hl hne hloop
    exact hev.trans (.of_eq rfl)

/-- What the end of a process records are events of its parent's ring. -/
theorem teardown_events (hp : k.processes[pid]? = some p) {code : Int}
    (h : k.teardown pid code = some k') : NewEvents P k k' := by
  have hne := ho.parent_ne hp
  obtain ⟨k₁, msg, hrep, rfl⟩ := Kernel.teardown_cases hp hne h
  have hrest : (Kernel.kprintln (Kernel.activate { k₁ with
      phys := freeAddressSpace (Kernel.reclaim k₁.ttbr0 p.frames k₁.phys) p.ttbr0
      processes := k₁.processes.set pid (p.husk code) } k₁.kernelTtbr0) msg).trace = k₁.trace :=
    Kernel.activate_trace ..
  refine NewEvents.trans ?_ (.of_eq hrest)
  cases hrep with
  | silent h => exact .of_eq rfl
  | @answered parent tag q htag hparent hq hring =>
    have hq₀ : k.processes[parent]? = some q := by
      rwa [List.getElem?_set_ne fun he ↦ hne (by rw [hparent, he])] at hq
    have hl := ho.live_of_ring hq₀ hring
    exact complete_events (k := { k with processes := k.processes.set pid (p.exited code) }) hq hl
      hring (hP _ _ hq₀ hl) tag code (some pid)
  | lost htag hparent hq hring => exact .of_eq rfl

/-- What `enter` records: entries of the running process, taken up in the live space, and events of
its ring. -/
theorem enterSubmit_events (hsqe : ∀ tag child, P (.sqe pid tag k.ttbr0 child))
    (hstaff : Staffed k) (hp : k.processes[pid]? = some p) (hl : p.live = true)
    (hne : p.ringPa ≠ 0) (h : k.enterSubmit pid p.ringPa = some k') : NewEvents P k k' := by
  obtain ⟨k₁, hk₁, hd, -, -, -, -, -⟩ := ho.enterSubmit hstaff hp h
  have hps : k₁.processes = k.processes := by rcases hk₁ with rfl | rfl | rfl <;> rfl
  have hroot : k₁.ttbr0 = k.ttbr0 := by rcases hk₁ with rfl | rfl | rfl <;> rfl
  have hfirst : NewEvents P k k₁ := by
    rcases hk₁ with rfl | rfl | rfl
    · exact .of_eq rfl
    · exact ringStore_events hp hl hne (hP _ _ hp hl) _ _ _
    · exact ringStore_events hp hl hne (hP _ _ hp hl) _ _ _
  exact hfirst.trans
    (drain_events (hP _ _ hp hl) (by rwa [hroot]) (by rw [hps, hp]) (fun _ ↦ hl) hd)

end Ends

end Jatuli

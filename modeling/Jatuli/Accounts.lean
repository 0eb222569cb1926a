import Jatuli.Bystanders
import Jatuli.Ledger

/-!
# The accounts along the runs of the machine

Every function of the kernel keeps the accounts of every process.  What is done on behalf of another
process is booked to that one, because completions are booked to the owner of the ring they are
posted to and no two processes have the same ring (`Rings`).  What is left to look at are the
entries a process has itself submitted, its parked reads, and the exits of its children.

At the exit of a process what is parked for it is dropped, so the accounts are kept for processes
that have not exited.
-/

set_option autoImplicit false

namespace Jatuli

/-! ## Who has which ring -/

/-- Rings belong to live processes, and no two of them have the same. -/
structure Rings (k : Kernel) : Prop where
  live : ∀ {i : Nat} {p : Process}, k.processes[i]? = some p → p.ringPa ≠ 0 → p.live = true
  inj : ∀ {i j : Nat} {p q : Process}, k.processes[i]? = some p → k.processes[j]? = some q →
    p.ringPa ≠ 0 → q.ringPa = p.ringPa → j = i

namespace Rings

variable {k k' : Kernel} {i : Nat} {p : Process}

theorem of_inv {strict : Prop} {L : Layout} {own : Nat → Owner} (h : Inv strict L own k) :
    Rings k where
  live hp hne := (h.proc hp).live hne
  inj {i j p q} hp hq hne he := by
    have howner := (h.ofRing hq (he ▸ hne)).2
    rw [he, (h.ofRing hp hne).2] at howner
    cases howner
    rfl

/-- Nobody else has the ring of a process. -/
theorem owner (h : Rings k) (hp : k.processes[i]? = some p) (hne : p.ringPa ≠ 0) :
    k.ringOwner p.ringPa = some i :=
  Kernel.ringOwner_of_inj hp (h.live hp hne) hne fun hq _ he ↦ h.inj hp hq hne he

/-- No process gets a ring. -/
theorem of_back (h : Rings k) (hback : ∀ {i : Nat} {p' : Process}, k'.processes[i]? = some p' →
    p'.ringPa ≠ 0 → ∃ p, k.processes[i]? = some p ∧ p.ringPa = p'.ringPa ∧ p.live = p'.live) :
    Rings k' where
  live hp' hne := by
    obtain ⟨p, hp, hring, hlive⟩ := hback hp' hne
    rw [← hlive]
    exact h.live hp (hring ▸ hne)
  inj hp' hq' hne he := by
    obtain ⟨p, hp, hring, -⟩ := hback hp' hne
    obtain ⟨q, hq, hring', -⟩ := hback hq' (he ▸ hne)
    exact h.inj hp hq (hring ▸ hne) (by rw [hring, hring', he])

theorem of_eq (h : Rings k) (hps : k'.processes = k.processes) : Rings k' :=
  h.of_back fun {_ p'} hp' _ ↦ ⟨p', hps ▸ hp', rfl, rfl⟩

/-- What is done for a process does not change who has which ring. -/
theorem served (h : Rings k) (hs : Served i k k') : Rings k' := by
  refine h.of_back fun {j p'} hp' hne ↦ ?_
  rcases Nat.lt_or_ge j k.processes.length with hlt | hge
  · obtain ⟨q, hq, ht⟩ := hs.entries (List.getElem?_eq_getElem hlt)
    obtain rfl := Option.some.inj (hp'.symm.trans hq)
    exact ⟨_, List.getElem?_eq_getElem hlt, by rw [ht.rest], ht.ring.2.symm⟩
  · rw [(hs.fresh hge hp').fresh] at hne
    exact absurd rfl hne

end Rings

/-! ## One submission -/

section Submission

variable {k k' : Kernel} {pid i : Nat} {p q : Process} {hand : Multiset Item}

/-- Nothing is parked in a new process. -/
theorem parked_fresh {p : Process} (h : p.pending = Vector.replicate maxPending none) :
    p.parked = 0 := by
  rw [Process.parked, h]
  rfl

/-- A submission of another process. -/
theorem Unbooked.outcome {ringPa tag : Nat} {child : Option Nat} (hi : i ≠ pid)
    (howner : k.ringOwner ringPa = some i) (ho : SqeOutcome i ringPa tag child k k') :
    Unbooked pid k k' := by
  have hother : ∀ {k₁ : Kernel}, k₁.ringOwner ringPa = some i → k₁.ringOwner ringPa ≠ some pid :=
    fun h ↦ by rw [h]; exact fun e ↦ hi (Option.some.inj e)
  cases ho with
  | @completed k₁ result hchild hd hin =>
    have howner₁ : k₁.ringOwner ringPa = some i := by
      rw [Kernel.ringOwner, hd.quiet.processes]
      exact howner
    exact (of_eq hd.trace hd.quiet.processes).trans (.complete (hother howner₁) ..)
  | @parked k₁ p j r hchild hd hin hp hj htag =>
    exact of_trace hd.trace (parkedFor_set_of_eq hp (fun e ↦ absurd e hi) rfl)
  | answered hchild hp hparent hexit => exact .complete (hother howner) ..
  | @waiting c p hchild hp hparent hexit =>
    refine of_trace rfl ?_
    rw [Processes.registerWait, modify_eq_set hp]
    refine parkedFor_set_of_eq hp (fun _ ↦ rfl) ?_
    have hne : p.parent ≠ some pid := by
      rw [hparent]
      exact fun e ↦ hi (Option.some.inj e)
    rw [Process.waiter, Process.waiter, if_neg hne, if_neg hne]
  | @spawned name image root s₁ s₂ loaded frames uart hchild himage hroot hspace =>
    have hadd : Unbooked pid k { k with
        phys := s₂
        uart
        processes := k.processes ++ [{ Process.fresh root loaded frames with parent := some i }]
        sched := k.sched.spawnInner (some k.processes.length) (some root) } := by
      refine of_trace rfl (parkedFor_concat _ (parked_fresh rfl) ?_)
      rw [Process.waiter]
      split_ifs <;> rfl
    exact hadd.trans (.complete (hother (Kernel.ringOwner_concat howner rfl)) ..)

/-- **A submission of `pid`**, once its entry has been taken up. -/
theorem Kernel.Balanced.outcome {ringPa tag root : Nat} {child : Option Nat}
    (h : k.Balanced pid 0) (htag : tag < 2 ^ 64) (howner : k.ringOwner ringPa = some pid)
    (ho : SqeOutcome pid ringPa tag child (k.log (.sqe pid tag root child)) k') :
    k'.Balanced pid 0 := by
  have htaken := h.take htag root child
  have hset : ∀ {k₁ : Kernel} (result : Int), k₁.trace = (k.log (.sqe pid tag root child)).trace →
      k₁.ringOwner ringPa = some pid → parkedFor pid k₁.processes = parkedFor pid k.processes →
      (k₁.complete ringPa tag result child).Balanced pid 0 := by
    intro k₁ result htrace howner₁ hparked
    refine htaken.settle result htrace howner₁ rfl ?_
    rw [(k₁.complete_quiet ..).processes, hparked, add_zero]
    rfl
  cases ho with
  | @completed k₁ result hchild hd hin =>
    subst hchild
    refine hset result hd.trace ?_ (by rw [hd.quiet.processes]; rfl)
    rw [Kernel.ringOwner, hd.quiet.processes]
    exact howner
  | @parked k₁ p j r hchild hd hin hp hj hr =>
    subst hchild
    refine htaken.repark hd.trace ?_
    have hset := parkedFor_set pid hp { p with pending := p.pending.set j (some r) j.isLt }
    have hslot := p.parked_set j (some r)
    rw [hj] at hslot
    rw [if_pos rfl, if_pos rfl] at hset
    have hitem : slotItem (some r) = {(none, tag)} := by rw [← hr]; rfl
    have hnone : slotItem none = 0 := rfl
    rw [hitem, hnone, add_zero] at hslot
    have hwaiter : Process.waiter pid pid { p with pending := p.pending.set j (some r) j.isLt } =
        p.waiter pid pid := rfl
    rw [hslot, hwaiter] at hset
    have hsum := add_right_cancel hset
    rw [← add_assoc, add_right_comm] at hsum
    rw [add_zero]
    exact add_right_cancel hsum
  | answered hchild hp hparent hexit =>
    subst hchild
    exact hset _ rfl howner rfl
  | waiting hchild hp hparent hexit =>
    subst hchild
    exact h.wait htag hp hparent
  | @spawned name image root' s₁ s₂ loaded frames uart hchild himage hroot hspace =>
    subst hchild
    refine hset _ rfl (Kernel.ringOwner_concat howner rfl)
      (parkedFor_concat _ (parked_fresh rfl) ?_)
    rw [Process.waiter]
    split_ifs <;> rfl

/-- One entry of another process is carried out. -/
theorem Unbooked.processSqe (hi : i ≠ pid) (hr : Rings k) (hq : k.processes[i]? = some q)
    (hne : q.ringPa ≠ 0) {addr : Nat} (hs : k.processSqe i addr = some k') :
    Unbooked pid k k' := by
  obtain ⟨ringPa, child, hring, ho⟩ := Kernel.processSqe_cases hs
  rw [Processes.ringPa, hq, Option.map_some] at hring
  obtain rfl := Option.some.inj hring
  have hlog : Unbooked pid k (k.log (.sqe i (k.mem.load (addr + 24) 8) k.ttbr0 child)) :=
    .log (if_neg hi) rfl rfl
  exact hlog.trans (.outcome hi (hr.owner hq hne) ho)

/-- One entry of `pid` is carried out. -/
theorem Kernel.Balanced.processSqe (h : k.Balanced pid 0) (hr : Rings k)
    (hp : k.processes[pid]? = some p) (hne : p.ringPa ≠ 0) {addr : Nat}
    (hs : k.processSqe pid addr = some k') : k'.Balanced pid 0 := by
  obtain ⟨ringPa, child, hring, ho⟩ := Kernel.processSqe_cases hs
  rw [Processes.ringPa, hp, Option.map_some] at hring
  obtain rfl := Option.some.inj hring
  exact h.outcome (k.mem.load_lt 8 _) (hr.owner hp hne) ho

/-- What is kept by the submissions of process `i`, and by the stores of its head, is kept by a
drain. -/
theorem Kernel.drain_invariant {C : Kernel → Prop} (hr : Rings k)
    (hsqe : ∀ {k₁ k₂ : Kernel} {q : Process} {addr : Nat}, Rings k₁ → k₁.processes[i]? = some q →
      q.ringPa ≠ 0 → C k₁ → k₁.processSqe i addr = some k₂ → C k₂)
    (hstore : ∀ (k₁ : Kernel) (ringPa v : Nat), C k₁ → C (k₁.ringStore ringPa offSqHead 4 v))
    (h : C k) (hd : k.drain i = some k') : C k' := by
  rw [Kernel.drain] at hd
  obtain ⟨ringPa, hring, hd⟩ := Option.bind_eq_some_iff.mp hd
  obtain ⟨q, hq, rfl⟩ := ringPa_eq_some hring
  split_ifs at hd with hne
  · exact Option.some.inj hd ▸ h
  refine (Kernel.drainFrom_invariant (I := fun k₁ ↦ Served i k k₁ ∧ C k₁) ?_ ?_ _
    ⟨.refl i k, h⟩ hd).2
  · rintro k₁ k₂ addr ⟨hs₁, h₁⟩ hs
    obtain ⟨q₁, hq₁, hring₁⟩ := hs₁.ring hq
    exact ⟨hs₁.trans hq (Kernel.processSqe_served hq₁ hs),
      hsqe (hr.served hs₁) hq₁ (hring₁ ▸ hne) h₁ hs⟩
  · rintro k₁ v ⟨hs₁, h₁⟩
    exact ⟨hs₁.trans hq (.of_quiet (k₁.ringStore_quiet ..) (absurd rfl)), hstore k₁ _ v h₁⟩

/-- **A drain for another process is no matter of `pid`.** -/
theorem Unbooked.drain (hi : i ≠ pid) (hr : Rings k) (hd : k.drain i = some k') :
    Unbooked pid k k' :=
  Kernel.drain_invariant (C := Unbooked pid k) hr
    (fun hr₁ hq₁ hne₁ h₁ hs ↦ h₁.trans (.processSqe hi hr₁ hq₁ hne₁ hs))
    (fun k₁ ringPa v h₁ ↦ h₁.trans (.ringStore pid k₁ ringPa offSqHead 4 v)) (.refl pid k) hd

/-- **A drain keeps the accounts.** -/
theorem Kernel.Balanced.drain (h : k.Balanced pid 0) (hr : Rings k) (hd : k.drain pid = some k') :
    k'.Balanced pid 0 :=
  Kernel.drain_invariant (C := fun k₁ ↦ k₁.Balanced pid 0) hr
    (fun hr₁ hp₁ hne₁ h₁ hs ↦ h₁.processSqe hr₁ hp₁ hne₁ hs)
    (fun k₁ ringPa v h₁ ↦ h₁.unbooked (.ringStore pid k₁ ringPa offSqHead 4 v)) h hd

end Submission

/-! ## Parked reads -/

section Polling

variable {k k' : Kernel} {pid i : Nat} {p : Process}

/-- A parked read is completed. -/
theorem Kernel.Balanced.unpark (h : k.Balanced i 0) {ringPa : Nat}
    (howner : k.ringOwner ringPa = some i) (hp : k.processes[i]? = some p) (j : Fin maxPending)
    {r : Pending} (hslot : getElem p.pending j j.isLt = some r) (result : Int) :
    ({ k.complete ringPa r.userData result none with
      processes := Processes.clearPending k.processes i j } : Kernel).Balanced i 0 := by
  refine h.settle result rfl howner rfl ?_
  have htable : Processes.clearPending k.processes i j =
      k.processes.set i { p with pending := p.pending.set j none j.isLt } := modify_eq_set hp _
  have hset := parkedFor_set i hp { p with pending := p.pending.set j none j.isLt }
  have hread := p.parked_set j none
  have hitem : slotItem (some r) = {(none, r.userData)} := rfl
  have hnone : slotItem none = 0 := rfl
  have hwaiter : Process.waiter i i { p with pending := p.pending.set j none j.isLt } =
      p.waiter i i := rfl
  rw [hslot, hitem, hnone, add_zero] at hread
  rw [if_pos rfl, if_pos rfl, hwaiter, ← hread] at hset
  have hsum := add_right_cancel hset
  rw [← add_assoc, add_right_comm] at hsum
  rw [add_zero, add_zero, ← add_right_cancel hsum]
  show parkedFor i (Processes.clearPending k.processes i j) + _ = _
  rw [htable]

/-- What is kept by the delivery of input to process `i`, and by the completion of a read that is
parked there, is kept by the loop over its parked reads. -/
theorem Kernel.pollPendingFrom_kept {C : Kernel → Prop} (hr : Rings k)
    (hp : k.processes[i]? = some p) (hne : p.ringPa ≠ 0)
    (hdeliver : ∀ {k₁ k₂ : Kernel} {buf len count : Nat}, C k₁ →
      k₁.drainInput i buf len = some (count, k₂) → C k₂)
    (hpost : ∀ {k₁ : Kernel} {p₁ : Process} {j : Fin maxPending} {r : Pending} (result : Int),
      k₁.processes[i]? = some p₁ → k₁.ringOwner p.ringPa = some i →
      getElem p₁.pending j j.isLt = some r → C k₁ →
      C { k₁.complete p.ringPa r.userData result none with
        processes := Processes.clearPending k₁.processes i j })
    (h : C k) {b b' : Bool}
    (hloop : Kernel.pollPendingFrom i p.ringPa p.pending maxPending k b = some (b', k')) :
    C k' := by
  -- the slots the loop has not come to are as they were in the snapshot
  refine (Kernel.pollPendingFrom_invariant (I := fun n k₁ _ ↦
    (∃ p₁, k₁.processes = k.processes.set i p₁ ∧ p₁.ringPa = p.ringPa ∧ p₁.live = p.live ∧
      ∀ j : Fin maxPending, n ≤ j.val → getElem p₁.pending j j.isLt = getElem p.pending j j.isLt) ∧
    C k₁) ?_ ?_ ?_ maxPending le_rfl ?_ hloop).2
  · rintro j k₁ b - ⟨⟨p₁, hps, hring, hlive, hrest⟩, h₁⟩
    exact ⟨⟨p₁, hps, hring, hlive, fun j' hj' ↦ hrest j' (by omega)⟩, h₁⟩
  · rintro j k₁ k₂ b r - hd ⟨⟨p₁, hps, hring, hlive, hrest⟩, h₁⟩
    refine ⟨⟨p₁, (Kernel.drainInput_delivered hd).quiet.processes.trans hps, hring, hlive,
      fun j' hj' ↦ hrest j' (by omega)⟩, hdeliver h₁ hd⟩
  · rintro j k₁ k₂ b r count hslot - hd ⟨⟨p₁, hps, hring, hlive, hrest⟩, h₁⟩
    have hps₂ : k₂.processes = k.processes.set i p₁ :=
      (Kernel.drainInput_delivered hd).quiet.processes.trans hps
    have hlt : i < k.processes.length := (List.getElem?_eq_some_iff.mp hp).1
    have hp₂ : k₂.processes[i]? = some p₁ := by rw [hps₂, List.getElem?_set_self hlt]
    have hr₂ : Rings k₂ := by
      refine hr.of_back fun {n q} hq _ ↦ ?_
      by_cases hn : i = n
      · subst hn
        obtain rfl := Option.some.inj (hp₂.symm.trans hq)
        exact ⟨p, hp, hring.symm, hlive.symm⟩
      · rw [hps₂, List.getElem?_set_ne hn] at hq
        exact ⟨q, hq, rfl, rfl⟩
    refine ⟨⟨{ p₁ with pending := p₁.pending.set j none j.isLt }, ?_, hring, hlive,
      fun j' hj' ↦ ?_⟩, ?_⟩
    · show Processes.clearPending k₂.processes i j = _
      rw [Processes.clearPending, modify_eq_set hp₂, hps₂, List.set_set]
    · rw [← hrest j' (by omega)]
      exact Vector.getElem_set_ne j.isLt j'.isLt (by omega)
    · exact hpost count hp₂ (hring ▸ hr₂.owner hp₂ (hring ▸ hne)) ((hrest j le_rfl).trans hslot)
        (hdeliver h₁ hd)
  · refine ⟨⟨p, ?_, rfl, rfl, fun _ _ ↦ rfl⟩, h⟩
    obtain ⟨hlt, rfl⟩ := List.getElem?_eq_some_iff.mp hp
    rw [List.set_getElem_self]

/-- **The parked reads of another process are no matter of `pid`.** -/
theorem Unbooked.pollPendingFrom (hi : i ≠ pid) (hr : Rings k) (hp : k.processes[i]? = some p)
    (hne : p.ringPa ≠ 0) {b b' : Bool}
    (hloop : Kernel.pollPendingFrom i p.ringPa p.pending maxPending k b = some (b', k')) :
    Unbooked pid k k' := by
  refine Kernel.pollPendingFrom_kept (C := Unbooked pid k) hr hp hne (fun h₁ hd ↦ ?_) ?_
    (.refl pid k) hloop
  · have hd := Kernel.drainInput_delivered hd
    exact h₁.trans (.of_eq hd.trace hd.quiet.processes)
  · intro k₁ p₁ j r result hp₁ howner hslot h₁
    have hother : k₁.ringOwner p.ringPa ≠ some pid := by
      rw [howner]
      exact fun e ↦ hi (Option.some.inj e)
    refine (h₁.trans (.complete hother r.userData result none)).trans (.of_trace rfl ?_)
    rw [(k₁.complete_quiet ..).processes]
    show parkedFor pid (Processes.clearPending k₁.processes i j) = _
    rw [Processes.clearPending, modify_eq_set hp₁]
    exact parkedFor_set_of_eq hp₁ (fun e ↦ absurd e hi) rfl

/-- **The loop over the parked reads keeps the accounts.** -/
theorem Kernel.Balanced.pollPendingFrom (h : k.Balanced i 0) (hr : Rings k)
    (hp : k.processes[i]? = some p) (hne : p.ringPa ≠ 0) {b b' : Bool}
    (hloop : Kernel.pollPendingFrom i p.ringPa p.pending maxPending k b = some (b', k')) :
    k'.Balanced i 0 := by
  refine Kernel.pollPendingFrom_kept (C := fun k₁ ↦ k₁.Balanced i 0) hr hp hne (fun h₁ hd ↦ ?_)
    (fun result hp₁ howner hslot h₁ ↦ h₁.unpark howner hp₁ _ hslot result) h hloop
  have hd := Kernel.drainInput_delivered hd
  exact h₁.unbooked (.of_eq hd.trace hd.quiet.processes)

end Polling

/-! ## Ends -/

/-- What the exit of process `i` is to another process `pid`. -/
inductive ExitSeen (pid i : Nat) (code : Int) (k k' : Kernel) : Prop
  /-- Nothing: `pid` does not wait for it. -/
  | aside (hu : Unbooked pid k k')
      (hpage : ∀ {p : Process}, k.processes[pid]? = some p → p.ringPa ≠ 0 →
        Set.EqOn k'.mem k.mem (frameAt p.ringPa))
  /-- The answer to its wait. -/
  | answered {tag : Nat} {p : Process} {k₀ : Kernel} (hp : k.processes[pid]? = some p)
      (hparked : parkedFor pid k'.processes + {(some i, tag)} = parkedFor pid k.processes)
      (hring : p.ringPa ≠ 0) (htrace₀ : k₀.trace = k.trace) (hmem₀ : k₀.mem = k.mem)
      (howner : k₀.ringOwner p.ringPa = some pid)
      (htrace : k'.trace = (k₀.complete p.ringPa tag code (some i)).trace)
      (hpage : Set.EqOn k'.mem (k₀.complete p.ringPa tag code (some i)).mem (frameAt p.ringPa))
  /-- It waits but has no ring to get the answer. -/
  | lost {tag : Nat} {p : Process} (hp : k.processes[pid]? = some p)
      (hparked : parkedFor pid k'.processes + {(some i, tag)} = parkedFor pid k.processes)
      (hring : p.ringPa = 0)

section Ends

variable {strict : Prop} {L : Layout} {own : Nat → Owner} {k k' : Kernel} {pid i : Nat}
  {p q : Process} {code : Int}

/-- The line on the console comes before it. -/
theorem ExitSeen.of_kprintln {s : String} (h : ExitSeen pid i code (k.kprintln s) k') :
    ExitSeen pid i code k k' := by
  cases h with
  | aside hu hpage => exact .aside ⟨hu.consumed, hu.posted, hu.dropped, hu.sole, hu.parked⟩ hpage
  | answered hp hparked hring htrace₀ hmem₀ howner htrace hpage =>
    exact .answered hp hparked hring htrace₀ hmem₀ howner htrace hpage
  | lost hp hparked hring => exact .lost hp hparked hring

/-- What is parked once the exit has been reported and the entry emptied. -/
theorem ExitReport.parkedFor {k₁ : Kernel} (hi : i ≠ pid) (hq : k.processes[i]? = some q)
    (hne : q.parent ≠ some i)
    (hrep : ExitReport i q code { k with processes := k.processes.set i (q.exited code) } k₁) :
    parkedFor pid (k₁.processes.set i (q.husk code)) + q.waiter pid i =
      parkedFor pid k.processes := by
  have hcolumns : Jatuli.parkedFor pid (k₁.processes.set i (q.husk code)) =
      Jatuli.parkedFor pid (k.processes.set i (q.husk code)) := by
    refine parkedFor_congr fun j ↦ ?_
    by_cases hj : j = i
    · subst hj
      rw [hrep.getElem?_husk hq hne, List.getElem?_set_self (List.getElem?_eq_some_iff.mp hq).1]
    · rw [hrep.map_of_ne Process.parking (fun _ ↦ rfl) hj, List.getElem?_set_ne (Ne.symm hj)]
  have hset := parkedFor_set pid hq (q.husk code)
  have hzero : (q.husk code).waiter pid i = 0 := by
    rw [Process.waiter]
    split_ifs <;> rfl
  rwa [if_neg hi, if_neg hi, hzero, add_zero, add_zero, add_zero, ← hcolumns] at hset

/-- The page of a ring is still its owner's when the exit of another process has been recorded. -/
theorem Rings.owner_exited (hr : Rings k) (hq : k.processes[i]? = some q)
    (hp : k.processes[pid]? = some p) (hne : i ≠ pid) (hring : p.ringPa ≠ 0) {k₀ : Kernel}
    (hps : k₀.processes = k.processes.set i (q.exited code)) :
    k₀.ringOwner p.ringPa = some pid := by
  have hp₀ : k₀.processes[pid]? = some p := by rwa [hps, List.getElem?_set_ne hne]
  refine Kernel.ringOwner_of_inj hp₀ (hr.live hp hring) hring fun {j r} hr' hl he ↦ ?_
  rw [hps] at hr'
  by_cases hj : i = j
  · subst hj
    rw [List.getElem?_set_self (List.getElem?_eq_some_iff.mp hq).1] at hr'
    obtain rfl := Option.some.inj hr'
    cases hl
  · rw [List.getElem?_set_ne hj] at hr'
    exact hr.inj hp hr' hring he

/-- What the report of the exit of process `i` is to `pid`. -/
theorem Inv.reportSeen (h : Inv strict L own k) (hr : Rings k) (hi : i ≠ pid)
    (hq : k.processes[i]? = some q) (hne : q.parent ≠ some i) {k₁ : Kernel}
    (hrep : ExitReport i q code { k with processes := k.processes.set i (q.exited code) } k₁)
    (htrace : k'.trace = k₁.trace) (hps : k'.processes = k₁.processes.set i (q.husk code))
    (hmem : ∀ {p : Process}, k.processes[pid]? = some p → p.ringPa ≠ 0 →
      Set.EqOn k'.mem k₁.mem (frameAt p.ringPa)) : ExitSeen pid i code k k' := by
  have hparked := hrep.parkedFor hi hq hne
  rw [← hps] at hparked
  have hmine : ∀ {tag : Nat}, q.exitWaiter = some tag → q.parent = some pid →
      q.waiter pid i = {(some i, tag)} := by
    intro tag htag hparent
    rw [Process.waiter, if_pos hparent, htag, Option.elim_some]
  have hother : ∀ {parent : Nat}, q.parent = some parent → parent ≠ pid → q.waiter pid i = 0 := by
    intro parent hparent hne
    rw [Process.waiter, if_neg (by rw [hparent]; exact fun e ↦ hne (Option.some.inj e))]
  -- a wait of another process, or none
  have haside : ∀ k₀ : Kernel, q.waiter pid i = 0 → Unbooked pid k k₀ → k₁.trace = k₀.trace →
      (∀ {p : Process}, k.processes[pid]? = some p → p.ringPa ≠ 0 →
        Set.EqOn k₁.mem k.mem (frameAt p.ringPa)) → ExitSeen pid i code k k' := by
    intro k₀ hzero hu htrace₀ hpage
    rw [hzero, add_zero] at hparked
    rw [htrace₀] at htrace
    refine .aside ⟨htrace ▸ hu.consumed, htrace ▸ hu.posted, htrace ▸ hu.dropped, htrace ▸ hu.sole,
      hparked⟩ fun hp hring ↦ (hmem hp hring).trans (hpage hp hring)
  obtain ⟨k₀, hk₀⟩ : ∃ k₀ : Kernel,
    k₀ = { k with processes := k.processes.set i (q.exited code) } := ⟨_, rfl⟩
  obtain ⟨htrace₀, hmem₀, hps₀⟩ : k₀.trace = k.trace ∧ k₀.mem = k.mem ∧
      k₀.processes = k.processes.set i (q.exited code) := by
    rw [hk₀]
    exact ⟨rfl, rfl, rfl⟩
  rw [← hk₀] at hrep
  cases hrep with
  | silent hno =>
    refine haside k ?_ (.refl pid k) htrace₀ fun _ _ ↦ hmem₀ ▸ Set.eqOn_refl _ _
    rw [Process.waiter]
    rcases hno with hno | hno
    · rw [hno, Option.elim_none, ite_self]
    · rw [hno, if_neg (by rintro ⟨⟩)]
  | @answered parent tag r htag hparent hr₀ hring =>
    have hentry : k.processes[parent]? = some r := by
      rwa [hps₀, List.getElem?_set_ne fun e ↦ hne (by rw [hparent, e])] at hr₀
    have howner : k₀.ringOwner r.ringPa = some parent :=
      hr.owner_exited hq hentry (fun e ↦ hne (by rw [hparent, e])) hring hps₀
    by_cases hpar : parent = pid
    · subst hpar
      rw [hmine htag hparent] at hparked
      exact .answered hentry hparked hring htrace₀ hmem₀ howner htrace (hmem hentry hring)
    · have hforeign : k₀.ringOwner r.ringPa ≠ some pid := by
        rw [howner]
        exact fun e ↦ hpar (Option.some.inj e)
      have hu : Unbooked pid k { k₀.complete r.ringPa tag code (some i) with
          processes := k.processes } := by
        have hu := Unbooked.complete hforeign tag code (some i)
        refine ⟨?_, ?_, ?_, ?_, rfl⟩ <;> rw [← htrace₀]
        · exact hu.consumed
        · exact hu.posted
        · exact hu.dropped
        · exact hu.sole
      refine haside _ (hother hparent hpar) hu rfl fun {p} hp hring' ↦ ?_
      have hout := k₀.complete_eqOn r.ringPa tag code (some i)
      rw [hmem₀] at hout
      exact eqOn_frameAt (h.ofRing hentry hring).1.aligned (h.ofRing hp hring').1.aligned
        (h.ring_ne_frame hp hring' hentry hpar ((h.proc hentry).ring hring).1) hout
  | @lost parent tag r htag hparent hr₀ hring =>
    have hentry : k.processes[parent]? = some r := by
      rwa [hps₀, List.getElem?_set_ne fun e ↦ hne (by rw [hparent, e])] at hr₀
    by_cases hpar : parent = pid
    · subst hpar
      rw [hmine htag hparent] at hparked
      exact .lost hentry hparked hring
    · exact haside k (hother hparent hpar) (.refl pid k) htrace₀
        fun _ _ ↦ hmem₀ ▸ Set.eqOn_refl _ _

/-- **Another process ends.** -/
theorem Inv.exitSeen (h : Inv strict L own k) (hr : Rings k) (hi : i ≠ pid)
    (hq : k.processes[i]? = some q) (hl : q.live = true) (hne : q.parent ≠ some i)
    (hroot : k.ttbr0 = q.ttbr0) (ht : k.teardown i code = some k') :
    ExitSeen pid i code k k'.taskExit := by
  obtain ⟨k₁, msg, hrep, rfl⟩ := Kernel.teardown_cases hq hne ht
  rw [Kernel.taskExit, Kernel.activate_eq, Kernel.schedule_eq]
  refine h.reportSeen hr hi hq hne hrep rfl rfl fun hp hring ↦ ?_
  exact h.giveBack_page hq hl hne hroot hrep (h.ofRing hp hring).1 (h.ofRing hp hring).2
    (Ne.symm hi)

end Ends

end Jatuli

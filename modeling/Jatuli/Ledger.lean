import Jatuli.Headers
import Jatuli.Lib.Tally
import Mathlib.Algebra.Order.Group.Multiset
import Mathlib.Tactic.Abel

/-!
# What becomes of an entry

Once `drain` has taken up an entry, it is answered by a completion, or the completion is dropped, or
it is parked: a read in one of the slots of its process, a wait on the child it is for.  The trace
says which entries have been taken up and which completions have been posted or dropped, and the
tables say what is parked; the two sides have to agree.

A wait is parked in the one place its child has for it.  So a process that waits for a child a
second time before the first wait is answered loses the first.  The accounts (`Balanced`) therefore
have a column for what is lost, which stays empty for a process that does not do that (`SoleWaits`).
-/

set_option autoImplicit false

namespace Jatuli

/-! ## The two sides -/

/-- What an entry is about: the child a wait is for, and the tag. -/
abbrev Item := Option Nat × Nat

namespace Event

/-- The entry of `pid` that is taken up. -/
def opens (pid : Nat) : Event → Multiset Item
  | .sqe i tag _ child => if i = pid then {(child, tag)} else 0
  | _ => 0

/-- The completion that is posted to the ring of `pid`. -/
def posts (pid : Nat) : Event → Multiset Item
  | .cqe owner tag _ child => if owner = some pid then {(child, tag)} else 0
  | _ => 0

/-- The completion for `pid` that is dropped. -/
def drops (pid : Nat) : Event → Multiset Item
  | .overflow owner tag child => if owner = some pid then {(child, tag)} else 0
  | _ => 0

end Event

section History

variable (pid : Nat)

/-- All entries of `pid` that have been taken up. -/
def consumed (t : List Event) : Multiset Item := (t.map (Event.opens pid)).sum

/-- All completions posted to the ring of `pid`. -/
def posted (t : List Event) : Multiset Item := (t.map (Event.posts pid)).sum

/-- All completions for `pid` that were dropped. -/
def dropped (t : List Event) : Multiset Item := (t.map (Event.drops pid)).sum

/-- A wait for a child is taken up only when every earlier one for the same child has been
answered. -/
def SoleWaits : List Event → Prop
  | [] => True
  | e :: t => SoleWaits t ∧ ∀ c tag, (some c, tag) ∈ e.opens pid →
      (consumed pid t).filter (·.1 = some c) ≤ (posted pid t + dropped pid t).filter (·.1 = some c)

@[simp] theorem consumed_cons (e : Event) (t : List Event) :
    consumed pid (e :: t) = e.opens pid + consumed pid t := rfl

@[simp] theorem posted_cons (e : Event) (t : List Event) :
    posted pid (e :: t) = e.posts pid + posted pid t := rfl

@[simp] theorem dropped_cons (e : Event) (t : List Event) :
    dropped pid (e :: t) = e.drops pid + dropped pid t := rfl

/-- Only entries taken up matter. -/
theorem soleWaits_cons {pid : Nat} {e : Event} {t : List Event} (h : e.opens pid = 0) :
    SoleWaits pid (e :: t) ↔ SoleWaits pid t := by
  rw [SoleWaits, h]
  simp

end History

/-! ## What is parked -/

/-- What a slot for a parked read holds. -/
def slotItem (r : Option Pending) : Multiset Item := r.elim 0 fun r ↦ {(none, r.userData)}

/-- The reads that are parked in a process. -/
def Process.parked (p : Process) : Multiset Item := p.pending.toList.tally fun _ r ↦ slotItem r

/-- The wait of `pid` that is parked on process `c`. -/
def Process.waiter (pid c : Nat) (q : Process) : Multiset Item :=
  if q.parent = some pid then q.exitWaiter.elim 0 fun tag ↦ {(some c, tag)} else 0

/-- The waits of `pid` that are parked on its children. -/
def waiters (pid : Nat) (ps : List Process) : Multiset Item := ps.tally (Process.waiter pid)

/-- The columns of the table in which something may be parked. -/
def Process.parking (p : Process) : Vector (Option Pending) maxPending × Option Nat × Option Nat :=
  (p.pending, p.parent, p.exitWaiter)

/-- What is parked for `pid`. -/
def parkedFor (pid : Nat) (ps : List Process) : Multiset Item :=
  (ps[pid]?.elim 0 Process.parked) + waiters pid ps

section Parked

variable {pid : Nat} {ps ps' : List Process} {p q : Process}

/-- Filling or clearing a slot. -/
theorem Process.parked_set (p : Process) (i : Fin maxPending) (r : Option Pending) :
    { p with pending := p.pending.set i r i.isLt }.parked +
        slotItem (getElem p.pending i i.isLt) = p.parked + slotItem r := by
  rw [Process.parked, Process.parked, Vector.toList_set]
  refine List.tally_set ?_
  rw [Vector.getElem?_toList]
  exact Vector.getElem?_eq_getElem i.isLt

/-- **One entry of the table changes.** -/
theorem parkedFor_set (pid : Nat) {j : Nat} (hq : ps[j]? = some p) (q : Process) :
    parkedFor pid (ps.set j q) + (if j = pid then p.parked else 0) + p.waiter pid j =
      parkedFor pid ps + (if j = pid then q.parked else 0) + q.waiter pid j := by
  have htally : waiters pid (ps.set j q) + p.waiter pid j = waiters pid ps + q.waiter pid j :=
    List.tally_set hq
  by_cases hj : j = pid
  · subst hj
    rw [parkedFor, parkedFor, List.getElem?_set_self (List.getElem?_eq_some_iff.mp hq).1, hq,
      if_pos rfl, if_pos rfl, Option.elim_some, Option.elim_some]
    calc q.parked + waiters j (ps.set j q) + p.parked + p.waiter j j
        = q.parked + p.parked + (waiters j (ps.set j q) + p.waiter j j) := by abel
      _ = q.parked + p.parked + (waiters j ps + q.waiter j j) := by rw [htally]
      _ = p.parked + waiters j ps + q.parked + q.waiter j j := by abel
  · rw [parkedFor, parkedFor, List.getElem?_set_ne hj, if_neg hj, if_neg hj, add_zero, add_zero,
      add_assoc, htally, add_assoc]

/-- Nothing is parked or unparked for `pid` by the change. -/
theorem parkedFor_set_of_eq {j : Nat} (hq : ps[j]? = some p) {q : Process}
    (hparked : j = pid → q.parked = p.parked) (hwaiter : q.waiter pid j = p.waiter pid j) :
    parkedFor pid (ps.set j q) = parkedFor pid ps := by
  have hset := parkedFor_set pid hq q
  rw [hwaiter] at hset
  have hif : (if j = pid then q.parked else 0) = if j = pid then p.parked else 0 := by
    split_ifs with hj
    · exact hparked hj
    · rfl
  rw [hif] at hset
  exact add_right_cancel (add_right_cancel hset)

/-- What is parked on a child is part of what is parked. -/
theorem waiter_le (pid : Nat) {c : Nat} (hq : ps[c]? = some q) :
    q.waiter pid c ≤ parkedFor pid ps := by
  have hset := parkedFor_set pid hq { q with exitWaiter := none }
  have hzero : Process.waiter pid c { q with exitWaiter := none } = 0 := by
    rw [Process.waiter]
    split_ifs <;> rfl
  have hcolumn : ({ q with exitWaiter := none } : Process).parked = q.parked := rfl
  rw [hzero, hcolumn, add_zero, add_right_comm] at hset
  rw [← add_right_cancel hset]
  exact Multiset.le_add_left _ _

/-- **A process is added.** -/
theorem parkedFor_concat (ps : List Process) {q : Process} (hparked : q.parked = 0)
    (hwaiter : q.waiter pid ps.length = 0) : parkedFor pid (ps ++ [q]) = parkedFor pid ps := by
  have htally : waiters pid (ps ++ [q]) = waiters pid ps := by
    rw [waiters, List.tally_concat, hwaiter, add_zero, waiters]
  rw [parkedFor, parkedFor, htally]
  congr 1
  rcases Nat.lt_trichotomy pid ps.length with hlt | rfl | hgt
  · rw [List.getElem?_append_left hlt]
  · rw [List.getElem?_concat_length, List.getElem?_eq_none le_rfl, Option.elim_some, hparked]
    rfl
  · rw [List.getElem?_eq_none (by rw [List.length_append, List.length_singleton]; omega),
      List.getElem?_eq_none hgt.le]

/-- What is parked depends on these three columns of the table only. -/
theorem parkedFor_congr (h : ∀ j : Nat, ps'[j]?.map Process.parking = ps[j]?.map Process.parking) :
    parkedFor pid ps' = parkedFor pid ps := by
  have hfun {β : Type} (f : Process → β) (hf : ∀ p q : Process, p.parking = q.parking → f p = f q)
      (j : Nat) : ps'[j]?.map f = ps[j]?.map f := by
    have hj := h j
    cases hp : ps[j]? with
    | none =>
      rw [hp, Option.map_none, Option.map_eq_none_iff] at hj
      rw [hj, Option.map_none]
    | some q =>
      rw [hp, Option.map_some, Option.map_eq_some_iff] at hj
      obtain ⟨p', hp', he⟩ := hj
      rw [hp', Option.map_some, Option.map_some, hf p' q he]
  have htally : waiters pid ps' = waiters pid ps := List.tally_congr fun j ↦ by
    refine hfun (Process.waiter pid j) (fun p q he ↦ ?_) j
    obtain ⟨-, he⟩ := Prod.mk.inj he
    obtain ⟨hparent, hwaiter⟩ := Prod.mk.inj he
    rw [Process.waiter, Process.waiter, hparent, hwaiter]
  have hparked : ps'[pid]?.map Process.parked = ps[pid]?.map Process.parked := by
    refine hfun Process.parked (fun p q he ↦ ?_) pid
    rw [Process.parked, Process.parked, (Prod.mk.inj he).1]
  rw [parkedFor, parkedFor, htally]
  congr 1
  calc ps'[pid]?.elim 0 Process.parked = (ps'[pid]?.map Process.parked).elim 0 id := by
        cases ps'[pid]? <;> rfl
    _ = (ps[pid]?.map Process.parked).elim 0 id := by rw [hparked]
    _ = ps[pid]?.elim 0 Process.parked := by cases ps[pid]? <;> rfl

end Parked

/-! ## The accounts -/

/-- **The accounts of `pid`**: what has been taken up has been answered, or is parked, or is still
in hand, or is lost; and nothing is lost as long as there is never a second wait for a child.  Tags
fit into the word of a completion entry that they are stored to. -/
structure Kernel.Balanced (k : Kernel) (pid : Nat) (hand : Multiset Item) : Prop where
  accounts : ∃ lost, consumed pid k.trace =
      posted pid k.trace + dropped pid k.trace + parkedFor pid k.processes + hand + lost ∧
    (SoleWaits pid k.trace → lost = 0)
  tags : ∀ x ∈ consumed pid k.trace, x.2 < 2 ^ 64

/-- The books of `pid` are not touched. -/
structure Unbooked (pid : Nat) (k k' : Kernel) : Prop where
  consumed : consumed pid k'.trace = consumed pid k.trace
  posted : posted pid k'.trace = posted pid k.trace
  dropped : dropped pid k'.trace = dropped pid k.trace
  sole : SoleWaits pid k'.trace → SoleWaits pid k.trace
  parked : parkedFor pid k'.processes = parkedFor pid k.processes

namespace Unbooked

variable {pid : Nat} {k k' k'' : Kernel}

/-- Nothing is recorded. -/
theorem of_trace (htrace : k'.trace = k.trace)
    (hparked : parkedFor pid k'.processes = parkedFor pid k.processes) : Unbooked pid k k' := by
  refine ⟨?_, ?_, ?_, ?_, hparked⟩ <;> rw [htrace]
  exact id

theorem of_eq (htrace : k'.trace = k.trace) (hps : k'.processes = k.processes) :
    Unbooked pid k k' := of_trace htrace (by rw [hps])

theorem refl (pid : Nat) (k : Kernel) : Unbooked pid k k := of_eq rfl rfl

theorem trans (h : Unbooked pid k k') (h' : Unbooked pid k' k'') : Unbooked pid k k'' where
  consumed := h'.consumed.trans h.consumed
  posted := h'.posted.trans h.posted
  dropped := h'.dropped.trans h.dropped
  sole hs := h.sole (h'.sole hs)
  parked := h'.parked.trans h.parked

/-- An event of no account. -/
theorem log {e : Event} (hopens : e.opens pid = 0) (hposts : e.posts pid = 0)
    (hdrops : e.drops pid = 0) : Unbooked pid k (k.log e) where
  consumed := by rw [Kernel.log, consumed_cons, hopens, zero_add]
  posted := by rw [Kernel.log, posted_cons, hposts, zero_add]
  dropped := by rw [Kernel.log, dropped_cons, hdrops, zero_add]
  sole := (soleWaits_cons hopens).mp
  parked := rfl

theorem ringStore (pid : Nat) (k : Kernel) (ringPa off n v : Nat) :
    Unbooked pid k (k.ringStore ringPa off n v) := by
  have hmem : Unbooked pid k (k.setMem (k.mem.store (ringPa + off) n v)) := of_eq rfl rfl
  exact hmem.trans (log rfl rfl rfl)

end Unbooked

/-- `complete` takes up nothing. -/
theorem Kernel.complete_consumed (k : Kernel) (pid ringPa tag : Nat) (result : Int)
    (child : Option Nat) :
    consumed pid (k.complete ringPa tag result child).trace = consumed pid k.trace ∧
      (SoleWaits pid (k.complete ringPa tag result child).trace ↔ SoleWaits pid k.trace) := by
  rcases k.complete_cases ringPa tag result child with ⟨-, -, ht⟩ | ⟨-, -, ht⟩
  · rw [ht, soleWaits_cons rfl]
    exact ⟨zero_add _, Iff.rfl⟩
  · rw [ht, soleWaits_cons rfl, soleWaits_cons rfl, soleWaits_cons rfl, soleWaits_cons rfl]
    refine ⟨?_, Iff.rfl⟩
    simp only [consumed_cons, Event.opens, zero_add]

/-- What `complete` adds to the accounts, for a tag that fits into the entry. -/
theorem Kernel.complete_answers (k : Kernel) (pid ringPa : Nat) {tag : Nat} (htag : tag < 2 ^ 64)
    (result : Int) (child : Option Nat) :
    posted pid (k.complete ringPa tag result child).trace +
        dropped pid (k.complete ringPa tag result child).trace =
      posted pid k.trace + dropped pid k.trace +
        (if k.ringOwner ringPa = some pid then {(child, tag)} else 0) := by
  rcases k.complete_cases ringPa tag result child with ⟨-, -, ht⟩ | ⟨-, -, ht⟩
  · rw [ht]
    simp only [posted_cons, dropped_cons, Event.posts, Event.drops, zero_add]
    rw [add_comm (ite ..), add_assoc]
  · rw [ht, Nat.mod_eq_of_lt htag]
    simp only [posted_cons, dropped_cons, Event.posts, Event.drops, zero_add]
    rw [add_comm (ite ..), add_right_comm]

/-- A completion for somebody else. -/
theorem Unbooked.complete {pid : Nat} {k : Kernel} {ringPa : Nat}
    (howner : k.ringOwner ringPa ≠ some pid) (tag : Nat) (result : Int) (child : Option Nat) :
    Unbooked pid k (k.complete ringPa tag result child) := by
  have hparked : parkedFor pid (k.complete ringPa tag result child).processes =
      parkedFor pid k.processes := by rw [(k.complete_quiet ..).processes]
  rcases k.complete_cases ringPa tag result child with ⟨-, -, ht⟩ | ⟨-, -, ht⟩
  · refine ⟨?_, ?_, ?_, ?_, hparked⟩ <;> rw [ht]
    · exact zero_add _
    · exact zero_add _
    · rw [dropped_cons, Event.drops, if_neg howner, zero_add]
    · exact (soleWaits_cons rfl).mp
  · refine ⟨?_, ?_, ?_, ?_, hparked⟩ <;> rw [ht]
    · simp only [consumed_cons, Event.opens, zero_add]
    · simp only [posted_cons, Event.posts, if_neg howner, zero_add]
    · simp only [dropped_cons, Event.drops, zero_add]
    · rw [soleWaits_cons rfl, soleWaits_cons rfl, soleWaits_cons rfl, soleWaits_cons rfl]
      exact id

namespace Kernel.Balanced

variable {pid tag : Nat} {k k' : Kernel} {hand hand' : Multiset Item} {child : Option Nat}

theorem unbooked (h : k.Balanced pid hand) (hu : Unbooked pid k k') : k'.Balanced pid hand := by
  obtain ⟨⟨lost, heq, hsole⟩, htags⟩ := h
  refine ⟨⟨lost, ?_, fun hs ↦ hsole (hu.sole hs)⟩, by rwa [hu.consumed]⟩
  rw [hu.consumed, hu.posted, hu.dropped, hu.parked, heq]

/-- No more is answered, parked or in hand than has been taken up. -/
theorem card_le (h : k.Balanced pid hand) :
    (posted pid k.trace).card + (dropped pid k.trace).card + (parkedFor pid k.processes).card +
      hand.card ≤ (consumed pid k.trace).card := by
  obtain ⟨lost, heq, -⟩ := h.accounts
  rw [heq]
  simp only [Multiset.card_add]
  omega

/-- What is parked or in hand has been taken up, and its tag fits. -/
theorem tag_lt (h : k.Balanced pid hand)
    (hx : (child, tag) ∈ parkedFor pid k.processes + hand) : tag < 2 ^ 64 := by
  obtain ⟨lost, heq, -⟩ := h.accounts
  refine h.tags (child, tag) ?_
  rw [heq, add_assoc (posted pid k.trace + _) _ hand]
  exact Multiset.mem_add.mpr (.inl (Multiset.mem_add.mpr (.inr hx)))

/-- What is in hand is parked, or the other way round. -/
theorem repark (h : k.Balanced pid hand) (htrace : k'.trace = k.trace)
    (hparked : parkedFor pid k'.processes + hand' = parkedFor pid k.processes + hand) :
    k'.Balanced pid hand' := by
  obtain ⟨⟨lost, heq, hsole⟩, htags⟩ := h
  refine ⟨⟨lost, ?_, by rwa [htrace]⟩, by rwa [htrace]⟩
  rw [htrace, heq, add_assoc (posted pid k.trace + _) _ hand,
    add_assoc (posted pid k.trace + _) _ hand', hparked]

/-- What taking up an entry adds to the accounts. -/
theorem sqe_opens (pid tag root : Nat) (child : Option Nat) (t : List Event) :
    consumed pid (.sqe pid tag root child :: t) = {(child, tag)} + consumed pid t ∧
      posted pid (.sqe pid tag root child :: t) = posted pid t ∧
      dropped pid (.sqe pid tag root child :: t) = dropped pid t := by
  refine ⟨?_, zero_add _, zero_add _⟩
  rw [consumed_cons, Event.opens, if_pos rfl]

theorem tags_cons {items items' : Multiset Item} (h : items' = {(child, tag)} + items)
    (htag : tag < 2 ^ 64) (htags : ∀ x ∈ items, x.2 < 2 ^ 64) : ∀ x ∈ items', x.2 < 2 ^ 64 := by
  intro x hx
  rw [h, Multiset.mem_add, Multiset.mem_singleton] at hx
  rcases hx with rfl | hx
  · exact htag
  · exact htags x hx

/-- An entry is taken up. -/
theorem take (h : k.Balanced pid 0) (htag : tag < 2 ^ 64) (root : Nat) (child : Option Nat) :
    (k.log (.sqe pid tag root child)).Balanced pid {(child, tag)} := by
  obtain ⟨⟨lost, heq, hsole⟩, htags⟩ := h
  obtain ⟨hconsumed, hposted, hdropped⟩ := sqe_opens pid tag root child k.trace
  refine ⟨⟨lost, ?_, fun hs ↦ hsole hs.1⟩, tags_cons hconsumed htag htags⟩
  show consumed pid (_ :: k.trace) = posted pid (_ :: k.trace) + dropped pid (_ :: k.trace) +
    parkedFor pid k.processes + _ + _
  rw [hconsumed, hposted, hdropped, heq]
  abel

/-- **A completion settles an entry**, one in hand or one that was parked. -/
theorem settle (h : k.Balanced pid hand) {k₀ : Kernel} {ringPa : Nat} (result : Int)
    (htrace₀ : k₀.trace = k.trace) (howner : k₀.ringOwner ringPa = some pid)
    (htrace : k'.trace = (k₀.complete ringPa tag result child).trace)
    (hparked : parkedFor pid k'.processes + hand' + {(child, tag)} =
      parkedFor pid k.processes + hand) : k'.Balanced pid hand' := by
  have htag : tag < 2 ^ 64 := by
    have hmem : (child, tag) ∈ parkedFor pid k.processes + hand := by
      rw [← hparked]
      exact Multiset.mem_add.mpr (.inr (Multiset.mem_singleton_self _))
    exact h.tag_lt hmem
  obtain ⟨⟨lost, heq, hsole⟩, htags⟩ := h
  obtain ⟨hconsumed, hsole'⟩ := k₀.complete_consumed pid ringPa tag result child
  have hanswered := k₀.complete_answers pid ringPa htag result child
  rw [if_pos howner] at hanswered
  rw [htrace₀] at hconsumed hanswered hsole'
  refine ⟨⟨lost, ?_, fun hs ↦ hsole (hsole'.mp (htrace ▸ hs))⟩, by rwa [htrace, hconsumed]⟩
  rw [htrace, hconsumed, hanswered, heq]
  calc posted pid k.trace + dropped pid k.trace + parkedFor pid k.processes + hand + lost
      = posted pid k.trace + dropped pid k.trace + (parkedFor pid k.processes + hand) + lost := by
        abel
    _ = posted pid k.trace + dropped pid k.trace +
          (parkedFor pid k'.processes + hand' + {(child, tag)}) + lost := by rw [hparked]
    _ = _ := by abel

/-- A wait is taken up and parked.  What was parked there before is lost; but there was nothing if
all earlier waits for the child have been answered. -/
theorem wait (h : k.Balanced pid 0) (htag : tag < 2 ^ 64) {c root : Nat} {q : Process}
    (hq : k.processes[c]? = some q) (hparent : q.parent = some pid) :
    ({ k.log (.sqe pid tag root (some c)) with
      processes := Processes.registerWait k.processes c tag } : Kernel).Balanced pid 0 := by
  obtain ⟨⟨lost, heq, hsole⟩, htags⟩ := h
  have hset := parkedFor_set pid hq { q with exitWaiter := some tag }
  have hnew : Process.waiter pid c { q with exitWaiter := some tag } = {(some c, tag)} := by
    rw [Process.waiter, if_pos hparent, Option.elim_some]
  have hcolumn : ({ q with exitWaiter := some tag } : Process).parked = q.parked := rfl
  rw [hnew, hcolumn, add_right_comm, add_right_comm (parkedFor pid k.processes)] at hset
  replace hset := add_right_cancel hset
  have htable : Processes.registerWait k.processes c tag =
      k.processes.set c { q with exitWaiter := some tag } := modify_eq_set hq _
  obtain ⟨hconsumed, hposted, hdropped⟩ := sqe_opens pid tag root (some c) k.trace
  refine ⟨⟨lost + q.waiter pid c, ?_, fun hs ↦ ?_⟩, tags_cons hconsumed htag htags⟩
  · show consumed pid (_ :: k.trace) = posted pid (_ :: k.trace) + dropped pid (_ :: k.trace) +
      parkedFor pid (Processes.registerWait k.processes c tag) + 0 + _
    rw [hconsumed, hposted, hdropped, heq, htable]
    calc {(some c, tag)} + (posted pid k.trace + dropped pid k.trace +
          parkedFor pid k.processes + 0 + lost)
        = posted pid k.trace + dropped pid k.trace +
          (parkedFor pid k.processes + {(some c, tag)}) + lost := by abel
      _ = posted pid k.trace + dropped pid k.trace + (parkedFor pid
          (k.processes.set c { q with exitWaiter := some tag }) + q.waiter pid c) + lost := by
        rw [hset]
      _ = _ := by abel
  · obtain ⟨hs, hle⟩ := hs
    have hbefore := hle c tag (by rw [Event.opens, if_pos rfl]; exact Multiset.mem_singleton_self _)
    rw [hsole hs, add_zero, add_zero] at heq
    rw [heq, Multiset.filter_add] at hbefore
    have hnone := Multiset.le_zero.mp (nonpos_of_add_le_right hbefore)
    have hwaiter : q.waiter pid c ≤ (parkedFor pid k.processes).filter (·.1 = some c) := by
      refine Multiset.le_filter.mpr ⟨waiter_le pid hq, fun a ha ↦ ?_⟩
      rw [Process.waiter, if_pos hparent] at ha
      cases hw : q.exitWaiter with
      | none => simp [hw] at ha
      | some t => simp [hw] at ha; simp [ha]
    rw [hnone, Multiset.le_zero] at hwaiter
    rw [hsole hs, hwaiter, add_zero]

end Kernel.Balanced

end Jatuli

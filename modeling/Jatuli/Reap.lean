import Jatuli.Lib.Stash
import Jatuli.Uring

/-!
# Waiting for a completion by its tag

The library every program links against has a process wait for one of its submissions by the tag it
gave it.  `reap` takes completions off the ring one after the other until it comes to the one with
the tag; the others it puts into `STASH`, which has four slots, and where the next wait looks first.
A completion that finds no empty slot there is dropped.

Here the library is put on top of the ring of `Jatuli.Uring`: every access to the ring page is a
step of its own, with anything the kernel does in between.  With at most five submissions that are
not yet waited for, the one that is being waited for and four others, no completion is ever dropped
(`waits_match`).
-/

set_option autoImplicit false

namespace Jatuli

/-! ## The library -/

/-- Where the process stands in `reap`; while it is in the loop, where it stands in the round is the
business of the ring. -/
inductive ReapPc
  /-- Not in `reap`. -/
  | idle
  /-- In the loop, waiting for `tag`, asleep if there is nothing or spinning. -/
  | loop (tag : BitVec 64) (block : Bool)
  /-- In `enter(1)`. -/
  | enter (tag : BitVec 64)
deriving DecidableEq, Repr

/-- The slots of `STASH`, and their number. -/
def stashSlots : Nat := 4

/-- A process that uses the library, on its ring. -/
structure Reaper where
  u : Uring
  stash : List (BitVec 64 × BitVec 64)
  pc : ReapPc
  /-- The tags that were waited for and what was returned. -/
  returned : List (BitVec 64 × BitVec 64)

/-- What can happen. -/
inductive ReaperAct
  /-- The process calls `sqe`. -/
  | sqe (e : Sqe)
  /-- The process calls `wait` or `wait_spin`. -/
  | reap (tag : BitVec 64) (block : Bool)
  /-- The process takes the next step of the call it is in. -/
  | next
  /-- The kernel does something. -/
  | kernel (act : UringAct)

/-- What the kernel does. -/
def UringAct.byKernel : UringAct → Bool
  | .sqe _ | .reap | .client => false
  | _ => true

/-- The tag of a completion, and the result. -/
def Cqe.pair (c : Cqe) : BitVec 64 × BitVec 64 := (c.userData, c.result)

namespace Reaper

/-- The end of a round of the loop: the entry that was taken off the ring is the one that is waited
for, or it is put into `STASH`. -/
def matchTag (w : Reaper) (tag : BitVec 64) (block : Bool) (u : Uring) : Option Reaper := do
  let c ← u.reaped.getLast?
  if c.userData = tag then
    some { w with u, pc := .idle, returned := w.returned ++ [(tag, c.result)] }
  else some { w with u, pc := .loop tag block, stash := Stash.put 0 c.pair w.stash }

/-- A step of the process. -/
def next (ringPa : Nat) (w : Reaper) : Option Reaper :=
  match w.pc with
  | .idle => (w.u.clientStep ringPa).map fun u ↦ { w with u }
  | .loop tag block =>
    match w.u.client with
    | .idle => (w.u.step ringPa .reap).map fun u ↦ { w with u }
    | .cqTail _ => (w.u.clientStep ringPa).map fun u ↦
        if u.client = .idle then { w with u, pc := if block then .enter tag else .loop tag block }
        else { w with u }
    | .cqHead _ => (w.u.clientStep ringPa).bind (w.matchTag tag block)
    | _ => (w.u.clientStep ringPa).map fun u ↦ { w with u }
  | .enter tag => some { w with pc := .loop tag true }

/-- What an action does. -/
def step (ringPa : Nat) (w : Reaper) : ReaperAct → Option Reaper
  | .sqe e =>
    if w.pc = .idle then (w.u.step ringPa (.sqe e)).map fun u ↦ { w with u } else none
  | .reap tag block =>
    if w.pc = .idle ∧ w.u.client = .idle then
      -- did an earlier wait already reap it?
      match Stash.take 0 tag w.stash with
      | some (result, stash) => some { w with stash, returned := w.returned ++ [(tag, result)] }
      | none => some { w with pc := .loop tag block }
    else none
  | .next => w.next ringPa
  | .kernel act => if act.byKernel then (w.u.step ringPa act).map fun u ↦ { w with u } else none

end Reaper

/-- A process that has just got its ring. -/
def reaper (ringPa : Nat) : System Reaper ReaperAct where
  init w := (uring ringPa).init w.u ∧ w.stash = List.replicate stashSlots (0, 0) ∧
    w.pc = .idle ∧ w.returned = []
  step := Reaper.step ringPa

/-- Tags are not zero and not used twice, and at most five are not yet returned; a process waits for
tags it has submitted and not yet got back; and the kernel completes each submission that it has
seen once. -/
def Reaper.Proper (w : Reaper) : ReaperAct → Prop
  | .sqe e => e.userData ≠ 0 ∧ e.userData ∉ w.u.submitted.map Sqe.userData ∧
      w.u.submitted.length < w.returned.length + 5
  | .reap tag _ => tag ∈ w.u.submitted.map Sqe.userData ∧ tag ∉ w.returned.map Prod.fst
  | .kernel (.complete userData _ _) => .ofNat 64 userData ∈ w.u.seen.map Sqe.userData ∧
      .ofNat 64 userData ∉ w.u.posted.map Cqe.userData
  | _ => True

/-! ## What holds between any two steps -/

namespace Reaper

/-- The entry `reap` has loaded and not yet compared with its tag. -/
def inHand (w : Reaper) : List (BitVec 64 × BitVec 64) :=
  match w.u.client with
  | .cqHead _ => w.u.reaped.getLast?.toList.map Cqe.pair
  | _ => []

/-- `tag` is submitted, and has neither been returned nor is it in `STASH`. -/
structure Waited (w : Reaper) (tag : BitVec 64) : Prop where
  submitted : tag ∈ w.u.submitted.map Sqe.userData
  returned : tag ∉ w.returned.map Prod.fst
  stash : tag ∉ (Stash.held 0 w.stash).map Prod.fst

/-- Where the process stands goes with where it stands in the round. -/
def Stands (w : Reaper) : Prop :=
  match w.pc with
  | .idle => w.u.client = .idle ∨ w.u.client.calling ≠ none
  | .loop tag _ => w.u.client.calling = none ∧ w.Waited tag
  | .enter tag => w.u.client = .idle ∧ w.Waited tag

/-- What holds of the tags that were submitted and completed. -/
structure Tagged (w : Reaper) : Prop where
  submitted : (w.u.submitted.map Sqe.userData).Nodup
  nonzero : 0 ∉ w.u.submitted.map Sqe.userData
  few : w.u.submitted.length ≤ w.returned.length + 5
  posted : (w.u.posted.map Cqe.userData).Nodup
  seen : w.u.posted.map Cqe.userData ⊆ w.u.seen.map Sqe.userData

/-- **The invariant**: what was taken off the ring has been returned, is in `STASH`, or in hand. -/
structure Matched (ringPa : Nat) (w : Reaper) : Prop where
  flow : ∃ q : Passed, q.Flow (ringView w.u.k.mem ringPa) w.u
  slots : w.stash.length = stashSlots
  reaped : (w.u.reaped.map Cqe.pair).Perm (w.returned ++ Stash.held 0 w.stash ++ w.inHand)
  tagged : w.Tagged
  stands : w.Stands

end Reaper

/-- What is seen was submitted, and what is reaped was posted. -/
theorem Passed.Flow.prefixes {q : Passed} {v : RingView} {u : Uring} (h : q.Flow v u) :
    u.seen <+: u.submitted ∧ u.reaped <+: u.posted := by
  refine ⟨?_, ?_⟩
  · rw [h.seen, h.submitted]
    exact (List.take_prefix _ _).trans (List.prefix_append _ _)
  · rw [h.reaped]
    exact List.take_prefix _ _

namespace Reaper

/-! ### Counting -/

section Counts

variable {ringPa : Nat} {w : Reaper}

/-- What was returned, is in `STASH` or in hand was posted; what was posted was seen, and what was
seen was submitted. -/
theorem Matched.lengths (h : w.Matched ringPa) :
    w.returned.length + (Stash.held 0 w.stash).length + w.inHand.length = w.u.reaped.length ∧
      w.u.reaped.length ≤ w.u.posted.length ∧ w.u.posted.length ≤ w.u.seen.length ∧
      w.u.seen.length ≤ w.u.submitted.length := by
  obtain ⟨q, hq⟩ := h.flow
  obtain ⟨hseen, hreaped⟩ := hq.prefixes
  have hperm := h.reaped.length_eq
  have hposted := (h.tagged.posted.subperm h.tagged.seen).length_le
  simp only [List.length_map, List.length_append] at hperm hposted
  exact ⟨hperm.symm, hreaped.length_le, hposted, hseen.length_le⟩

/-- There is room for the next submission. -/
theorem Matched.room (h : w.Matched ringPa)
    (hfew : w.u.submitted.length < w.returned.length + 5) :
    sqTail w.u.k.mem ringPa - sqHead w.u.k.mem ringPa < ringEntries := by
  obtain ⟨q, hq⟩ := h.flow
  have hlen := h.lengths
  have hsub := congrArg List.length hq.submitted
  have hseen := congrArg List.length hq.seen
  have hdist : (sqTail w.u.k.mem ringPa - sqHead w.u.k.mem ringPa).toNat =
    q.published.length - q.consumed := hq.sq_distance
  have hone : w.u.drain.holding ≤ 1 := by
    unfold DrainPc.holding
    split <;> omega
  rw [List.length_append] at hsub
  rw [List.length_take] at hseen
  rw [BitVec.lt_def, hdist, show ringEntries.toNat = 16 from rfl]
  omega

/-- And for every completion. -/
theorem Matched.not_full (h : w.Matched ringPa) : ¬ w.u.full ringPa := by
  obtain ⟨q, hq⟩ := h.flow
  have hlen := h.lengths
  have hfew := h.tagged.few
  have hreap := congrArg List.length hq.reaped
  have hdist : (cqTail w.u.k.mem ringPa - cqHead w.u.k.mem ringPa).toNat =
    w.u.posted.length - q.taken := hq.cq_distance
  have hone : w.u.client.holding ≤ 1 := by
    unfold ClientPc.holding
    split <;> omega
  rw [List.length_take] at hreap
  rw [Uring.full, BitVec.not_le, BitVec.lt_def, hdist, show ringEntries.toNat = 16 from rfl]
  omega

/-- The tags of what was returned, is in `STASH` or in hand are all different, and submitted. -/
theorem Matched.tags (h : w.Matched ringPa) :
    ((w.returned ++ Stash.held 0 w.stash ++ w.inHand).map Prod.fst).Nodup ∧
      (w.returned ++ Stash.held 0 w.stash ++ w.inHand).map Prod.fst ⊆
        w.u.submitted.map Sqe.userData := by
  obtain ⟨q, hq⟩ := h.flow
  obtain ⟨hseen, hreaped⟩ := hq.prefixes
  have hperm := h.reaped.map Prod.fst
  rw [List.map_map] at hperm
  have hpre : w.u.reaped.map (Prod.fst ∘ Cqe.pair) <+: w.u.posted.map Cqe.userData :=
    hreaped.map _
  refine ⟨hperm.nodup_iff.mp (h.tagged.posted.sublist hpre.sublist), fun tag htag ↦ ?_⟩
  have hposted := hpre.subset (hperm.mem_iff.mpr htag)
  exact (hseen.map _).subset (h.tagged.seen hposted)

/-- **There is an empty slot in `STASH`** for every completion but the one that is waited for. -/
theorem Matched.slot (h : w.Matched ringPa) {tag : BitVec 64} (htag : w.Waited tag)
    {c : BitVec 64 × BitVec 64} (hhand : w.inHand = [c]) (hne : c.1 ≠ tag) :
    (Stash.held 0 w.stash).length < w.stash.length := by
  obtain ⟨hnodup, hsub⟩ := h.tags
  rw [hhand] at hnodup hsub
  have hnew : tag ∉ (w.returned ++ Stash.held 0 w.stash ++ [c]).map Prod.fst := by
    simp only [List.map_append, List.mem_append, List.map_cons, List.map_nil, List.mem_singleton,
      not_or]
    exact ⟨⟨htag.returned, htag.stash⟩, hne.symm⟩
  have hlen := ((List.nodup_cons.mpr ⟨hnew, hnodup⟩).subperm
    (List.cons_subset.mpr ⟨htag.submitted, hsub⟩)).length_le
  have hfew := h.tagged.few
  simp only [List.length_cons, List.length_map, List.length_append, List.length_nil] at hlen
  rw [h.slots, stashSlots]
  omega

end Counts

/-! ### The steps -/

section Steps

variable {ringPa : Nat} {w : Reaper} {u' : Uring}

theorem inHand_of_holding (h : w.u.client.holding = 0) : w.inHand = [] := by
  rw [inHand]
  split
  · rename_i head hclient
    rw [hclient] at h
    cases h
  · rfl

/-- A step of the ring that is no business of the library. -/
theorem Matched.ring (h : w.Matched ringPa)
    (hflow : ∃ q : Passed, q.Flow (ringView u'.k.mem ringPa) u')
    (hsub : u'.submitted = w.u.submitted) (hseen : u'.seen = w.u.seen)
    (hpost : u'.posted = w.u.posted) (hreap : u'.reaped = w.u.reaped) {pc : ReapPc}
    (hold : w.inHand = []) (hnew : u'.client.holding = 0)
    (hstands : Stands { w with u := u', pc }) : Matched ringPa { w with u := u', pc } where
  flow := hflow
  slots := h.slots
  reaped := by
    have hhand : inHand { w with u := u', pc } = [] := inHand_of_holding hnew
    rw [hhand, ← hold]
    exact hreap ▸ h.reaped
  tagged := ⟨hsub ▸ h.tagged.submitted, hsub ▸ h.tagged.nonzero, hsub ▸ h.tagged.few,
    hpost ▸ h.tagged.posted, hpost ▸ hseen ▸ h.tagged.seen⟩
  stands := hstands

/-- What a step of `sqe` or `reap` leaves as it is. -/
theorem clientStep_record {u : Uring} (hs : u.clientStep ringPa = some u') :
    u'.submitted = u.submitted ∧ u'.seen = u.seen ∧ u'.posted = u.posted := by
  rw [Uring.clientStep] at hs
  split at hs
  · cases hs
  · obtain rfl := Option.some.inj hs
    exact ⟨rfl, rfl, rfl⟩
  · obtain rfl := Option.some.inj hs
    exact ⟨rfl, rfl, rfl⟩
  · obtain rfl := Option.some.inj hs
    exact ⟨rfl, rfl, rfl⟩
  · obtain rfl := Option.some.inj hs
    exact ⟨rfl, rfl, rfl⟩
  · obtain rfl := Option.some.inj hs
    exact ⟨rfl, rfl, rfl⟩
  · split at hs
    · obtain rfl := Option.some.inj hs
      exact ⟨rfl, rfl, rfl⟩
    · obtain rfl := Option.some.inj hs
      exact ⟨rfl, rfl, rfl⟩
  · obtain rfl := Option.some.inj hs
    exact ⟨rfl, rfl, rfl⟩
  · obtain rfl := Option.some.inj hs
    exact ⟨rfl, rfl, rfl⟩
  · obtain rfl := Option.some.inj hs
    exact ⟨rfl, rfl, rfl⟩

/-- A step of `sqe` takes nothing off the ring, and is followed by another one or is the last. -/
theorem clientStep_calling {u : Uring} (hcall : u.client.calling ≠ none)
    (hs : u.clientStep ringPa = some u') :
    u'.reaped = u.reaped ∧ (u'.client = .idle ∨ u'.client.calling ≠ none) := by
  rw [Uring.clientStep] at hs
  split at hs
  · cases hs
  · obtain rfl := Option.some.inj hs
    exact ⟨rfl, .inr (by rintro ⟨⟩)⟩
  · obtain rfl := Option.some.inj hs
    exact ⟨rfl, .inr (by rintro ⟨⟩)⟩
  · obtain rfl := Option.some.inj hs
    exact ⟨rfl, .inr (by rintro ⟨⟩)⟩
  · obtain rfl := Option.some.inj hs
    exact ⟨rfl, .inr (by rintro ⟨⟩)⟩
  · obtain rfl := Option.some.inj hs
    exact ⟨rfl, .inl rfl⟩
  all_goals
    rename_i hclient
    rw [hclient] at hcall
    exact absurd rfl hcall

theorem holding_of_calling {pc : ClientPc} (h : pc = .idle ∨ pc.calling ≠ none) :
    pc.holding = 0 := by
  cases pc with
  | cqHead head => exact absurd (h.resolve_left nofun) (absurd rfl)
  | _ => rfl

/-- `sqe` is called. -/
theorem Matched.sqe (h : w.Matched ringPa) {e : Sqe} (hproper : w.Proper (.sqe e))
    (hpc : w.pc = .idle) (hs : w.u.step ringPa (.sqe e) = some u') :
    Matched ringPa { w with u := u' } := by
  obtain ⟨hzero, hnew, hfew⟩ := hproper
  obtain ⟨hidle, hs⟩ := Option.ite_none_right_eq_some.mp hs
  obtain rfl := Option.some.inj hs
  obtain ⟨q, hq⟩ := h.flow
  have hhand : w.inHand = [] := inHand_of_holding (holding_of_calling (.inl hidle))
  refine ⟨⟨q, hq.callSqe e hidle (h.room hfew)⟩, h.slots, ?_, ⟨?_, ?_, ?_, h.tagged.posted,
    h.tagged.seen⟩, ?_⟩
  · have hperm := h.reaped
    rw [hhand] at hperm
    exact hperm
  · show ((w.u.submitted ++ [e]).map Sqe.userData).Nodup
    rw [List.map_append]
    refine List.nodup_append.mpr ⟨h.tagged.submitted, List.nodup_singleton _, ?_⟩
    rintro a ha b hb rfl
    exact hnew (List.mem_singleton.mp hb ▸ ha)
  · show 0 ∉ (w.u.submitted ++ [e]).map Sqe.userData
    rw [List.map_append, List.mem_append, not_or]
    exact ⟨h.tagged.nonzero, fun he ↦ hzero (List.mem_singleton.mp he).symm⟩
  · show (w.u.submitted ++ [e]).length ≤ _
    rw [List.length_append, List.length_singleton]
    exact hfew
  · rw [Stands, hpc]
    exact .inr nofun

/-- `wait` is called and finds the tag in `STASH`. -/
theorem Matched.stashed (h : w.Matched ringPa) (hpc : w.pc = .idle) (hidle : w.u.client = .idle)
    {tag result : BitVec 64} {stash : List (BitVec 64 × BitVec 64)}
    (htake : Stash.take 0 tag w.stash = some (result, stash)) :
    Matched ringPa { w with stash, returned := w.returned ++ [(tag, result)] } := by
  obtain ⟨hperm, hlen⟩ := Stash.take_eq_some htake
  refine ⟨h.flow, hlen.trans h.slots, ?_, { h.tagged with few := ?_ }, ?_⟩
  · have hhand : inHand { w with stash, returned := w.returned ++ [(tag, result)] } =
        w.inHand := rfl
    rw [hhand]
    refine h.reaped.trans (List.Perm.append_right _ ?_)
    rw [List.append_assoc]
    exact hperm.append_left _
  · have hfew := h.tagged.few
    dsimp only
    rw [List.length_append]
    omega
  · rw [Stands, hpc]
    exact .inl hidle

/-- `wait` is called and has to take completions off the ring. -/
theorem Matched.call (h : w.Matched ringPa) (hidle : w.u.client = .idle)
    {tag : BitVec 64} (block : Bool) (hproper : w.Proper (.reap tag block))
    (htake : Stash.take 0 tag w.stash = none) :
    Matched ringPa { w with pc := .loop tag block } := by
  obtain ⟨hsub, hret⟩ := hproper
  have hzero : tag ≠ 0 := fun he ↦ h.tagged.nonzero (he ▸ hsub)
  exact ⟨h.flow, h.slots, h.reaped, { h.tagged with },
    by rw [hidle]; rfl, hsub, hret, Stash.take_eq_none hzero htake⟩

/-- What a kernel step leaves as it is, and what it may post. -/
theorem kernel_record {act : UringAct} (hact : act.byKernel = true)
    (hs : w.u.step ringPa act = some u') :
    u'.client = w.u.client ∧ u'.submitted = w.u.submitted ∧ u'.reaped = w.u.reaped ∧
      w.u.seen <+: u'.seen ∧ (u'.posted = w.u.posted ∨ ∃ userData result child,
        act = .complete userData result child ∧
        u'.posted = w.u.posted ++ [⟨.ofNat 64 userData, .ofInt 64 result⟩]) := by
  have hrefl : w.u.seen <+: w.u.seen := List.prefix_rfl
  cases act with
  | sqe | reap | client => cases hact
  | drain =>
    obtain ⟨-, hs⟩ := Option.ite_none_right_eq_some.mp hs
    obtain rfl := Option.some.inj hs
    exact ⟨rfl, rfl, rfl, hrefl, .inl rfl⟩
  | entry =>
    rw [Uring.step] at hs
    split at hs
    · split at hs
      · obtain rfl := Option.some.inj hs
        exact ⟨rfl, rfl, rfl, hrefl, .inl rfl⟩
      · obtain rfl := Option.some.inj hs
        exact ⟨rfl, rfl, rfl, List.prefix_append _ _, .inl rfl⟩
    · cases hs
  | head =>
    rw [Uring.step] at hs
    split at hs
    · obtain rfl := Option.some.inj hs
      exact ⟨rfl, rfl, rfl, hrefl, .inl rfl⟩
    · cases hs
  | complete userData result child =>
    obtain rfl := Option.some.inj hs
    refine ⟨rfl, rfl, rfl, hrefl, ?_⟩
    dsimp only
    split_ifs
    · exact .inl rfl
    · exact .inr ⟨userData, result, child, rfl, rfl⟩
  | flags v =>
    obtain rfl := Option.some.inj hs
    exact ⟨rfl, rfl, rfl, hrefl, .inl rfl⟩
  | elsewhere k =>
    simp only [Uring.step, Option.ite_none_right_eq_some] at hs
    obtain rfl := Option.some.inj hs.2
    exact ⟨rfl, rfl, rfl, hrefl, .inl rfl⟩

theorem Waited.ring {tag : BitVec 64} (h : w.Waited tag) (hsub : u'.submitted = w.u.submitted)
    (pc : ReapPc) : Waited { w with u := u', pc } tag :=
  ⟨hsub ▸ h.submitted, h.returned, h.stash⟩

/-- The kernel does something. -/
theorem Matched.kernel (h : w.Matched ringPa) {act : UringAct} (hact : act.byKernel = true)
    (hproper : w.Proper (.kernel act)) (hs : w.u.step ringPa act = some u') :
    Matched ringPa { w with u := u' } := by
  obtain ⟨q, hq⟩ := h.flow
  have hroom : w.u.HasRoom ringPa act := by
    cases act with
    | sqe e => cases hact
    | _ => trivial
  have hflow := step_flow hq hroom hs
  obtain ⟨hclient, hsub, hreap, hseen, hpost⟩ := kernel_record hact hs
  have htags : (u'.posted.map Cqe.userData).Nodup ∧
      u'.posted.map Cqe.userData ⊆ u'.seen.map Sqe.userData := by
    have hsubset := List.Subset.trans h.tagged.seen (hseen.map Sqe.userData).subset
    rcases hpost with hpost | ⟨userData, result, child, rfl, hpost⟩
    · rw [hpost]
      exact ⟨h.tagged.posted, hsubset⟩
    · obtain ⟨hmem, hnew⟩ := hproper
      rw [hpost, List.map_append]
      refine ⟨List.nodup_append.mpr ⟨h.tagged.posted, List.nodup_singleton _, ?_⟩,
        List.append_subset.mpr ⟨hsubset, ?_⟩⟩
      · rintro a ha b hb rfl
        obtain rfl : a = .ofNat 64 userData := List.mem_singleton.mp hb
        exact hnew ha
      · exact List.cons_subset.mpr ⟨(hseen.map Sqe.userData).subset hmem, List.nil_subset _⟩
  have hhand : inHand { w with u := u' } = w.inHand := by
    rw [inHand, inHand, hclient, hreap]
  refine ⟨hflow, h.slots, ?_, ⟨hsub ▸ h.tagged.submitted, hsub ▸ h.tagged.nonzero,
    hsub ▸ h.tagged.few, htags.1, htags.2⟩, ?_⟩
  · rw [hhand]
    exact hreap ▸ h.reaped
  · have hstands := h.stands
    rw [Stands, ← hclient] at hstands
    rw [Stands]
    dsimp only
    split at hstands
    · exact hstands
    · exact ⟨hstands.1, hstands.2.ring hsub _⟩
    · exact ⟨hstands.1, hstands.2.ring hsub _⟩

/-- A step of the loop of `reap` that takes nothing off the ring. -/
theorem Matched.look (h : w.Matched ringPa) {tag : BitVec 64} {block : Bool}
    (hpc : w.pc = .loop tag block) (hs : w.u.clientStep ringPa = some u')
    (hreap : u'.reaped = w.u.reaped) (hold : w.u.client.holding = 0)
    (hnew : u'.client.holding = 0) (pc : ReapPc)
    (hstands : w.Waited tag → Stands { w with u := u', pc }) :
    Matched ringPa { w with u := u', pc } := by
  obtain ⟨q, hq⟩ := h.flow
  obtain ⟨hsub, hseen, hpost⟩ := clientStep_record hs
  have hwait := h.stands
  rw [Stands, hpc] at hwait
  exact h.ring (clientStep_flow hq hs) hsub hseen hpost hreap (inHand_of_holding hold) hnew
    (hstands hwait.2)

/-- A round of the loop begins with the load of the head. -/
theorem Matched.round (h : w.Matched ringPa) {tag : BitVec 64} {block : Bool}
    (hpc : w.pc = .loop tag block) (hidle : w.u.client = .idle)
    (hs : w.u.step ringPa .reap = some u') : Matched ringPa { w with u := u' } := by
  obtain ⟨q, hq⟩ := h.flow
  have hwait := h.stands
  rw [Stands, hpc] at hwait
  obtain ⟨-, hs⟩ := Option.ite_none_right_eq_some.mp hs
  have hu' := Option.some.inj hs
  have hflow : q.Flow (ringView u'.k.mem ringPa) u' := by
    rw [← hu']
    exact hq.callReap hidle
  refine h.ring ⟨q, hflow⟩ (by rw [← hu']) (by rw [← hu']) (by rw [← hu']) (by rw [← hu'])
    (inHand_of_holding (by rw [hidle]; rfl)) (by rw [← hu']; rfl) ?_
  rw [Stands, hpc, ← hu']
  exact ⟨rfl, hwait.2.submitted, hwait.2.returned, hwait.2.stash⟩

/-- Then the tail is loaded: there is an entry, or the process sleeps or tries again. -/
theorem Matched.test (h : w.Matched ringPa) {tag : BitVec 64} {block : Bool}
    (hpc : w.pc = .loop tag block) {head : BitVec 32} (hclient : w.u.client = .cqTail head)
    (hs : w.u.clientStep ringPa = some u') :
    Matched ringPa (if u'.client = .idle
      then { w with u := u', pc := if block then .enter tag else .loop tag block }
      else { w with u := u' }) := by
  have hsub := (clientStep_record hs).1
  have hlook := h.look hpc hs
  rw [Uring.clientStep, hclient] at hs
  dsimp only at hs
  split_ifs at hs
  · have hu' := Option.some.inj hs
    have hidle : u'.client = .idle := by rw [← hu']
    rw [if_pos hidle]
    refine hlook (by rw [← hu']) (by rw [hclient]; rfl) (by rw [hidle]; rfl) _ fun hw ↦ ?_
    rw [Stands]
    cases block with
    | true => exact ⟨hidle, hw.ring hsub _⟩
    | false => exact ⟨by dsimp only; rw [hidle]; rfl, hw.ring hsub _⟩
  · have hu' := Option.some.inj hs
    have hgot : u'.client = .gotUserData head := by rw [← hu']
    rw [if_neg (by rw [hgot]; rintro ⟨⟩)]
    refine hlook (by rw [← hu']) (by rw [hclient]; rfl) (by rw [hgot]; rfl) w.pc fun hw ↦ ?_
    rw [Stands, hpc]
    exact ⟨by dsimp only; rw [hgot]; rfl, hw.ring hsub _⟩

/-- `reap` loads the tag. -/
theorem Matched.userData (h : w.Matched ringPa) {tag : BitVec 64} {block : Bool}
    (hpc : w.pc = .loop tag block) {head : BitVec 32} (hclient : w.u.client = .gotUserData head)
    (hs : w.u.clientStep ringPa = some u') : Matched ringPa { w with u := u' } := by
  have hsub := (clientStep_record hs).1
  have hlook := h.look hpc hs
  rw [Uring.clientStep, hclient] at hs
  have hu' := Option.some.inj hs
  refine hlook (by rw [← hu']) (by rw [hclient]; rfl) (by rw [← hu']; rfl) w.pc fun hw ↦ ?_
  rw [Stands, hpc]
  exact ⟨by dsimp only; rw [← hu']; rfl, hw.ring hsub _⟩

/-- `reap` loads the result: the entry is in hand. -/
theorem Matched.load (h : w.Matched ringPa) {tag : BitVec 64} {block : Bool}
    (hpc : w.pc = .loop tag block) {head : BitVec 32} {userData : BitVec 64}
    (hclient : w.u.client = .gotResult head userData)
    (hs : w.u.clientStep ringPa = some u') : Matched ringPa { w with u := u' } := by
  obtain ⟨q, hq⟩ := h.flow
  have hflow := clientStep_flow hq hs
  obtain ⟨hsub, hseen, hpost⟩ := clientStep_record hs
  rw [Uring.clientStep, hclient] at hs
  obtain rfl := Option.some.inj hs
  have hhand : w.inHand = [] := inHand_of_holding (by rw [hclient]; rfl)
  have hwait := h.stands
  rw [Stands, hpc] at hwait
  refine ⟨hflow, h.slots, ?_, { h.tagged with }, ?_⟩
  · have hperm := h.reaped
    rw [hhand, List.append_nil] at hperm
    rw [inHand]
    simp only [List.map_append, List.getLast?_concat, Option.toList_some]
    exact hperm.append_right _
  · rw [Stands]
    dsimp only
    rw [hpc]
    exact ⟨rfl, hwait.2.submitted, hwait.2.returned, hwait.2.stash⟩

/-- `reap` lets go of the entry in hand, and returns it or puts it into `STASH`. -/
theorem Matched.compare (h : w.Matched ringPa) {w' : Reaper} {tag : BitVec 64} {block : Bool}
    (hpc : w.pc = .loop tag block) {head : BitVec 32} (hclient : w.u.client = .cqHead head)
    (hs : w.u.clientStep ringPa = some u') (hm : w.matchTag tag block u' = some w') :
    w'.Matched ringPa := by
  obtain ⟨q, hq⟩ := h.flow
  have hflow := clientStep_flow hq hs
  rw [Uring.clientStep, hclient] at hs
  obtain rfl := Option.some.inj hs
  obtain ⟨c, hc, hm⟩ := Option.bind_eq_some_iff.mp hm
  have hlast : w.u.reaped.getLast? = some c := hc
  have hhand : w.inHand = [c.pair] := by
    rw [inHand, hclient, hlast]
    rfl
  have hwait := h.stands
  rw [Stands, hpc] at hwait
  have hperm := h.reaped
  rw [hhand] at hperm
  split_ifs at hm with htag
  · obtain rfl := Option.some.inj hm
    refine ⟨hflow, h.slots, ?_, { h.tagged with few := ?_ }, .inl rfl⟩
    · show (w.u.reaped.map Cqe.pair).Perm (w.returned ++ [(tag, c.result)] ++ _ ++ [])
      rw [← htag, List.append_nil, List.append_assoc]
      rw [List.append_assoc] at hperm
      exact hperm.trans (List.perm_append_comm.append_left _)
    · have hfew := h.tagged.few
      show w.u.submitted.length ≤ (w.returned ++ _).length + 5
      rw [List.length_append]
      omega
  · obtain rfl := Option.some.inj hm
    have hslot := h.slot hwait.2 hhand htag
    have hzero : c.pair.1 ≠ 0 := by
      have hmem : c.pair.1 ∈ (w.returned ++ Stash.held 0 w.stash ++ w.inHand).map Prod.fst := by
        rw [hhand, List.map_append]
        exact List.mem_append_right _ (List.mem_singleton.mpr rfl)
      exact fun he ↦ h.tagged.nonzero (he ▸ h.tags.2 hmem)
    have hput := Stash.held_put hzero hslot
    refine ⟨hflow, (Stash.length_put _ _).trans h.slots, ?_, { h.tagged with }, rfl, ?_⟩
    · show (w.u.reaped.map Cqe.pair).Perm (w.returned ++ Stash.held 0 (Stash.put 0 c.pair _) ++ [])
      rw [List.append_nil]
      rw [List.append_assoc] at hperm
      exact hperm.trans ((List.perm_append_comm.trans hput.symm).append_left _)
    · refine ⟨hwait.2.submitted, hwait.2.returned, fun hmem ↦ ?_⟩
      rcases List.mem_cons.mp ((hput.map Prod.fst).mem_iff.mp hmem) with he | hmem
      · exact htag he.symm
      · exact hwait.2.stash hmem

/-- The next step of the process. -/
theorem Matched.next (h : w.Matched ringPa) {w' : Reaper} (hs : w.next ringPa = some w') :
    w'.Matched ringPa := by
  rw [Reaper.next] at hs
  have hstands := h.stands
  rw [Stands] at hstands
  split at hs
  · -- in `sqe`
    rename_i hpc
    rw [hpc] at hstands
    obtain ⟨u', hu', rfl⟩ := Option.map_eq_some_iff.mp hs
    have hcall : w.u.client.calling ≠ none := by
      refine hstands.resolve_left fun hidle ↦ ?_
      rw [Uring.clientStep, hidle] at hu'
      cases hu'
    obtain ⟨q, hq⟩ := h.flow
    obtain ⟨hsub, hseen, hpost⟩ := clientStep_record hu'
    obtain ⟨hreap, hnext⟩ := clientStep_calling hcall hu'
    refine h.ring (clientStep_flow hq hu') hsub hseen hpost hreap
      (inHand_of_holding (holding_of_calling (.inr hcall))) (holding_of_calling hnext) ?_
    rw [Stands, hpc]
    exact hnext
  · -- in the loop
    rename_i tag block hpc
    rw [hpc] at hstands
    split at hs
    · rename_i hidle
      obtain ⟨u', hu', rfl⟩ := Option.map_eq_some_iff.mp hs
      exact h.round hpc hidle hu'
    · rename_i head hclient
      obtain ⟨u', hu', rfl⟩ := Option.map_eq_some_iff.mp hs
      exact h.test hpc hclient hu'
    · rename_i head hclient
      obtain ⟨u', hu', hm⟩ := Option.bind_eq_some_iff.mp hs
      exact h.compare hpc hclient hu' hm
    · rename_i hidle htail hhead
      obtain ⟨u', hu', rfl⟩ := Option.map_eq_some_iff.mp hs
      cases hclient : w.u.client with
      | idle => exact absurd hclient hidle
      | cqTail head => exact absurd hclient (htail head)
      | cqHead head => exact absurd hclient (hhead head)
      | gotUserData head => exact h.userData hpc hclient hu'
      | gotResult head userData => exact h.load hpc hclient hu'
      | _ =>
        rw [hclient] at hstands
        cases hstands.1
  · rename_i tag hpc
    rw [hpc] at hstands
    obtain rfl := Option.some.inj hs
    exact ⟨h.flow, h.slots, h.reaped, { h.tagged with }, by rw [hstands.1]; rfl,
      hstands.2.submitted, hstands.2.returned, hstands.2.stash⟩

theorem Matched.step (h : w.Matched ringPa) {act : ReaperAct} {w' : Reaper}
    (hproper : w.Proper act) (hs : w.step ringPa act = some w') : w'.Matched ringPa := by
  cases act with
  | sqe e =>
    obtain ⟨hpc, hs⟩ := Option.ite_none_right_eq_some.mp hs
    obtain ⟨u', hu', rfl⟩ := Option.map_eq_some_iff.mp hs
    exact h.sqe hproper hpc hu'
  | reap tag block =>
    obtain ⟨⟨hpc, hidle⟩, hs⟩ := Option.ite_none_right_eq_some.mp hs
    split at hs
    · rename_i result stash htake
      obtain rfl := Option.some.inj hs
      exact h.stashed hpc hidle htake
    · rename_i htake
      obtain rfl := Option.some.inj hs
      exact h.call hidle block hproper htake
  | next => exact h.next hs
  | kernel act =>
    obtain ⟨hact, hs⟩ := Option.ite_none_right_eq_some.mp hs
    obtain ⟨u', hu', rfl⟩ := Option.map_eq_some_iff.mp hs
    exact h.kernel hact hproper hu'

end Steps

/-- It holds in every state. -/
theorem matched_of_reach {ringPa : Nat} {w : Reaper} (h : (reaper ringPa).Reach Proper w) :
    w.Matched ringPa := by
  refine h.invariant ?_ fun w act w' hw hproper hs ↦ hw.step hproper hs
  rintro w ⟨⟨hclient, hdrain, hsub, hseen, hpost, hreap, hsq, hcq⟩, hstash, hpc, hret⟩
  refine ⟨⟨_, Passed.Flow.start hclient hdrain hsub hseen hpost hreap hsq hcq⟩, ?_, ?_, ?_, ?_⟩
  · rw [hstash, List.length_replicate]
  · rw [hreap, hret, hstash, Stash.held_replicate, inHand, hclient]
    exact List.Perm.refl _
  · refine ⟨?_, ?_, ?_, ?_, ?_⟩
    · simp [hsub]
    · simp [hsub]
    · simp [hsub]
    · simp [hpost]
    · simp [hpost]
  · rw [Stands, hpc]
    exact .inl hclient

/-! ## Calls that nothing happens in between -/

/-- The process and the kernel are not at work on the ring, and this has passed through it. -/
structure Rests (ringPa : Nat) (submitted seen : List Sqe) (posted reaped : List Cqe) (w : Reaper) :
    Prop where
  reach : (reaper ringPa).Reach Proper w
  client : w.u.client = .idle
  drain : w.u.drain = .idle
  submitted : w.u.submitted = submitted
  seen : w.u.seen = seen
  posted : w.u.posted = posted
  reaped : w.u.reaped = reaped

section Undisturbed

variable {ringPa : Nat} {w : Reaper} {submitted seen : List Sqe} {posted reaped rest : List Cqe}
  {e : Sqe} {c : Cqe}

/-- A call of `sqe`. -/
theorem Rests.sqe (h : Rests ringPa submitted seen posted reaped w) (hpc : w.pc = .idle) (e : Sqe)
    (hzero : e.userData ≠ 0) (hnew : e.userData ∉ submitted.map Sqe.userData)
    (hfew : submitted.length < w.returned.length + 5) :
    ∃ u', Rests ringPa (submitted ++ [e]) seen posted reaped { w with u := u' } := by
  obtain ⟨hreach, hidle, hdrain, rfl, hseen, hpost, hreap⟩ := h
  have hproper : w.Proper (.sqe e) := ⟨hzero, hnew, hfew⟩
  have hcall : w.step ringPa (.sqe e) = some { w with u := { w.u with
      client := .opcode e (sqTail w.u.k.mem ringPa), submitted := w.u.submitted ++ [e] } } := by
    rw [Reaper.step, if_pos hpc, Uring.step, if_pos hidle]
    rfl
  have hgo {u u' : Uring} (hr : (reaper ringPa).Reach Proper { w with u })
      (hu' : u.clientStep ringPa = some u') : (reaper ringPa).Reach Proper { w with u := u' } := by
    refine hr.step (show Proper _ .next from trivial) ?_
    show Reaper.next ringPa { w with u } = some _
    rw [Reaper.next]
    dsimp only
    rw [hpc, hu']
    rfl
  have hfields := hgo (hgo (hgo (hgo (hreach.step hproper hcall) rfl) rfl) rfl) rfl
  exact ⟨_, hgo hfields rfl, rfl, hdrain, rfl, hseen, hpost, hreap⟩

/-- `drain`, when there is one submission that it has not seen. -/
theorem Rests.drained (h : Rests ringPa submitted seen posted reaped w)
    (hone : submitted = seen ++ [e]) :
    ∃ u', Rests ringPa submitted submitted posted reaped { w with u := u' } := by
  obtain ⟨hreach, hidle, hdrain, hsub, rfl, hpost, hreap⟩ := h
  subst hone
  have hgo (act : UringAct) {u u' : Uring} (hr : (reaper ringPa).Reach Proper { w with u })
      (hact : act.byKernel = true) (hproper : Proper { w with u } (.kernel act))
      (hu' : u.step ringPa act = some u') : (reaper ringPa).Reach Proper { w with u := u' } := by
    refine hr.step hproper ?_
    show Reaper.step ringPa { w with u } (.kernel act) = some _
    rw [Reaper.step, if_pos hact, hu']
    rfl
  obtain ⟨q, hq⟩ := (matched_of_reach hreach).flow
  -- there is one entry between the two indices
  have hnext : sqTail w.u.k.mem ringPa = sqHead w.u.k.mem ringPa + 1 := by
    have hpub : w.u.submitted = q.published ++ [] := (hq.clientAt hidle).2.1
    have hseen : w.u.seen = q.published.take q.consumed := (hq.drainAt hdrain).2
    have hle := hq.sq.le
    have hlen := congrArg List.length hpub
    have hlen' := congrArg List.length hseen
    rw [hsub, List.append_nil, List.length_append, List.length_singleton] at hlen
    rw [List.length_take] at hlen'
    have hsqHead : sqHead w.u.k.mem ringPa = _ := hq.sqHead
    have hsqTail : sqTail w.u.k.mem ringPa = _ := hq.sqTail
    rw [hsqHead, hsqTail, Spsc.index_succ]
    congr 1
    omega
  have hne : sqHead w.u.k.mem ringPa ≠ sqTail w.u.k.mem ringPa := by
    rw [hnext]
    bv_omega
  have h₁ := hgo .drain hreach rfl trivial (if_pos hdrain)
  have h₂ := hgo .entry h₁ rfl trivial (if_neg hne)
  have h₃ := hgo .head h₂ rfl trivial rfl
  have h₄ := hgo .entry h₃ rfl trivial (if_pos hnext.symm)
  obtain ⟨q₄, hq₄⟩ := (matched_of_reach h₄).flow
  refine ⟨_, h₄, hidle, rfl, hsub, ?_, hpost, hreap⟩
  have hpre := hq₄.prefixes.1
  dsimp only at hpre ⊢
  rw [hsub, List.prefix_append_right_inj] at hpre
  rw [hpre.eq_of_length rfl]

/-- `complete` always posts. -/
theorem Rests.complete (h : Rests ringPa submitted seen posted reaped w) (userData : Nat)
    (result : Int) (hseen : .ofNat 64 userData ∈ seen.map Sqe.userData)
    (hnew : .ofNat 64 userData ∉ posted.map Cqe.userData) :
    ∃ u', Rests ringPa submitted seen (posted ++ [⟨.ofNat 64 userData, .ofInt 64 result⟩]) reaped
      { w with u := u' } := by
  obtain ⟨hreach, hidle, hdrain, hsub, rfl, rfl, hreap⟩ := h
  have hproper : w.Proper (.kernel (.complete userData result none)) := ⟨hseen, hnew⟩
  have hact : (UringAct.complete userData result none).byKernel = true := rfl
  have hnext : w.step ringPa (.kernel (.complete userData result none)) = some { w with u :=
      { w.u with
        k := w.u.k.complete ringPa userData result none
        posted := w.u.posted ++ [⟨.ofNat 64 userData, .ofInt 64 result⟩] } } := by
    rw [Reaper.step, if_pos hact, Uring.step, if_neg (matched_of_reach hreach).not_full]
    rfl
  exact ⟨_, hreach.step hproper hnext, hidle, hdrain, hsub, rfl, rfl, hreap⟩

theorem matchTag_isSome (w : Reaper) (tag : BitVec 64) (block : Bool) {u : Uring}
    (hc : u.reaped.getLast? = some c) : ∃ w', w.matchTag tag block u = some w' ∧ w'.u = u := by
  rw [matchTag, hc]
  by_cases htag : c.userData = tag
  · exact ⟨_, if_pos htag, rfl⟩
  · exact ⟨_, if_neg htag, rfl⟩

/-- A round of the loop of `reap`, when there is something on the ring. -/
theorem Rests.round (h : Rests ringPa submitted seen posted reaped w)
    (hmore : posted = reaped ++ c :: rest) {tag : BitVec 64} {block : Bool}
    (hpc : w.pc = .loop tag block) :
    ∃ w', Rests ringPa submitted seen posted (reaped ++ [c]) w' ∧
      w.matchTag tag block w'.u = some w' := by
  obtain ⟨hreach, hidle, hdrain, hsub, hseen, hpost, rfl⟩ := h
  subst hmore
  obtain ⟨q, hq⟩ := (matched_of_reach hreach).flow
  have hne : cqHead w.u.k.mem ringPa ≠ cqTail w.u.k.mem ringPa := by
    have hdist : (cqTail w.u.k.mem ringPa - cqHead w.u.k.mem ringPa).toNat =
      w.u.posted.length - q.taken := hq.cq_distance
    have hreap : w.u.reaped = w.u.posted.take q.taken := (hq.clientAt hidle).2.2
    have hlen := congrArg List.length hreap
    have hlen' := congrArg List.length hpost
    rw [List.length_take] at hlen
    rw [List.length_append, List.length_cons] at hlen'
    intro he
    rw [he, BitVec.sub_self, BitVec.toNat_zero] at hdist
    omega
  have hgo {u : Uring} {w' : Reaper} (hr : (reaper ringPa).Reach Proper { w with u })
      (hw' : Reaper.next ringPa { w with u } = some w') : (reaper ringPa).Reach Proper w' :=
    hr.step (show Proper _ .next from trivial) hw'
  -- the loads of the two indices, of the tag and of the result
  have h₁ : (reaper ringPa).Reach Proper { w with u := { w.u with
      client := .cqTail (cqHead w.u.k.mem ringPa) } } := by
    refine hgo hreach ?_
    simp only [Reaper.next, hpc, hidle, Uring.step, if_true, Option.map_some]
  have h₂ : (reaper ringPa).Reach Proper { w with u := { w.u with
      client := .gotUserData (cqHead w.u.k.mem ringPa) } } := by
    refine hgo h₁ ?_
    simp only [Reaper.next, hpc, Uring.clientStep, if_neg hne, Option.map_some]
    rfl
  have h₃ : (reaper ringPa).Reach Proper { w with u := { w.u with
      client := .gotResult (cqHead w.u.k.mem ringPa) (loadWord w.u.k.mem
        (cqeAddr ringPa (Jatuli.slot (cqHead w.u.k.mem ringPa)))) } } := by
    refine hgo h₂ ?_
    simp only [Reaper.next, hpc, Uring.clientStep, Option.map_some]
  obtain ⟨c', h₄⟩ : ∃ c', (reaper ringPa).Reach Proper { w with u := { w.u with
      client := .cqHead (cqHead w.u.k.mem ringPa), reaped := w.u.reaped ++ [c'] } } := by
    refine ⟨⟨loadWord w.u.k.mem (cqeAddr ringPa (Jatuli.slot (cqHead w.u.k.mem ringPa))),
      loadWord w.u.k.mem (cqeAddr ringPa (Jatuli.slot (cqHead w.u.k.mem ringPa)) + 8)⟩, hgo h₃ ?_⟩
    simp only [Reaper.next, hpc, Uring.clientStep, Option.map_some]
  -- what was loaded is the next entry that was posted
  obtain ⟨q₄, hq₄⟩ := (matched_of_reach h₄).flow
  have hpre := hq₄.prefixes.2
  dsimp only at hpre
  rw [hpost, List.prefix_append_right_inj, List.cons_prefix_cons] at hpre
  obtain rfl := hpre.1
  obtain ⟨u', hu', hlast⟩ : ∃ u', Uring.clientStep ringPa { w.u with
      client := .cqHead (cqHead w.u.k.mem ringPa), reaped := w.u.reaped ++ [c'] } = some u' ∧
      u'.reaped.getLast? = some c' := ⟨_, rfl, List.getLast?_concat⟩
  obtain ⟨w', hw', hsame⟩ := w.matchTag_isSome tag block hlast
  have h₅ : (reaper ringPa).Reach Proper w' := by
    refine hgo h₄ ?_
    simp only [Reaper.next, hpc, hu', Option.bind_some]
    exact hw'
  obtain rfl := Option.some.inj hu'
  refine ⟨w', ⟨h₅, ?_, ?_, ?_, ?_, ?_, ?_⟩, by rw [hsame]; exact hw'⟩
  · rw [hsame]
    rfl
  · rw [hsame]
    exact hdrain
  · rw [hsame]
    exact hsub
  · rw [hsame]
    exact hseen
  · rw [hsame]
    exact hpost
  · rw [hsame]
    rfl

/-- It is the one that is waited for. -/
theorem Rests.found (h : Rests ringPa submitted seen posted reaped w)
    (hmore : posted = reaped ++ c :: rest) {tag : BitVec 64} {block : Bool}
    (hpc : w.pc = .loop tag block) (htag : c.userData = tag) :
    ∃ u', Rests ringPa submitted seen posted (reaped ++ [c])
      { w with u := u', pc := .idle, returned := w.returned ++ [(tag, c.result)] } := by
  obtain ⟨w', h', hm⟩ := h.round hmore hpc
  rw [matchTag, h'.reaped, List.getLast?_concat, Option.bind_eq_bind, Option.bind_some,
    if_pos htag] at hm
  exact ⟨w'.u, by rw [Option.some.inj hm]; exact h'⟩

/-- It is another one. -/
theorem Rests.stashes (h : Rests ringPa submitted seen posted reaped w)
    (hmore : posted = reaped ++ c :: rest) {tag : BitVec 64} {block : Bool}
    (hpc : w.pc = .loop tag block) (htag : c.userData ≠ tag) :
    ∃ u', Rests ringPa submitted seen posted (reaped ++ [c])
      { w with u := u', pc := .loop tag block, stash := Stash.put 0 c.pair w.stash } := by
  obtain ⟨w', h', hm⟩ := h.round hmore hpc
  rw [matchTag, h'.reaped, List.getLast?_concat, Option.bind_eq_bind, Option.bind_some,
    if_neg htag] at hm
  exact ⟨w'.u, by rw [Option.some.inj hm]; exact h'⟩

/-- A call of `wait` for a tag that is in `STASH`. -/
theorem Rests.take (h : Rests ringPa submitted seen posted reaped w) (hpc : w.pc = .idle)
    {tag result : BitVec 64} {stash : List (BitVec 64 × BitVec 64)} (block : Bool)
    (hsub : tag ∈ submitted.map Sqe.userData) (hret : tag ∉ w.returned.map Prod.fst)
    (htake : Stash.take 0 tag w.stash = some (result, stash)) :
    Rests ringPa submitted seen posted reaped
      { w with stash, returned := w.returned ++ [(tag, result)] } := by
  have hproper : w.Proper (.reap tag block) := ⟨h.submitted ▸ hsub, hret⟩
  have hcall : w.step ringPa (.reap tag block) =
      some { w with stash, returned := w.returned ++ [(tag, result)] } := by
    rw [Reaper.step, if_pos ⟨hpc, h.client⟩, htake]
  exact { h with reach := h.reach.step hproper hcall }

/-- A call of `wait` for a tag that is not in `STASH`. -/
theorem Rests.call (h : Rests ringPa submitted seen posted reaped w) (hpc : w.pc = .idle)
    (tag : BitVec 64) (block : Bool) (hsub : tag ∈ submitted.map Sqe.userData)
    (hret : tag ∉ w.returned.map Prod.fst) (htake : Stash.take 0 tag w.stash = none) :
    Rests ringPa submitted seen posted reaped { w with pc := .loop tag block } := by
  have hproper : w.Proper (.reap tag block) := ⟨h.submitted ▸ hsub, hret⟩
  have hcall : w.step ringPa (.reap tag block) = some { w with pc := .loop tag block } := by
    rw [Reaper.step, if_pos ⟨hpc, h.client⟩, htake]
  exact { h with reach := h.reach.step hproper hcall }

end Undisturbed

end Reaper

/-- **Waits match tags.**  Whatever the order in which the kernel completes what was submitted, and
whatever happens in between: what a wait has returned is what was posted with its tag; everything
that was posted, each with a tag of its own, has been returned, is in `STASH`, in hand, or still on
the ring; nothing is ever dropped because the ring is full; and a process that is in `enter(1)` for
a tag that was posted finds something on the ring. -/
theorem waits_match {ringPa : Nat} {w : Reaper} (h : (reaper ringPa).Reach Reaper.Proper w) :
    (∀ x ∈ w.returned, x ∈ w.u.posted.map Cqe.pair) ∧ (w.u.posted.map Cqe.userData).Nodup ∧
    (∃ rest, w.u.posted = w.u.reaped ++ rest ∧ rest.length + w.u.client.holding =
        (cqTail w.u.k.mem ringPa - cqHead w.u.k.mem ringPa).toNat ∧
      (w.u.posted.map Cqe.pair).Perm
        (w.returned ++ Stash.held 0 w.stash ++ w.inHand ++ rest.map Cqe.pair)) ∧
    ¬ w.u.full ringPa ∧
    ∀ tag, w.pc = .enter tag → (tag ∈ w.u.posted.map Cqe.userData ∨
      tag ∈ (Stash.held 0 w.stash).map Prod.fst) →
      cqHead w.u.k.mem ringPa ≠ cqTail w.u.k.mem ringPa := by
  have hw := Reaper.matched_of_reach h
  obtain ⟨q, hq⟩ := hw.flow
  obtain ⟨rest, hrest⟩ := hq.prefixes.2
  have hdist : (cqTail w.u.k.mem ringPa - cqHead w.u.k.mem ringPa).toNat =
    w.u.posted.length - q.taken := hq.cq_distance
  have hperm : (w.u.posted.map Cqe.pair).Perm
      (w.returned ++ Stash.held 0 w.stash ++ w.inHand ++ rest.map Cqe.pair) := by
    rw [← hrest, List.map_append]
    exact hw.reaped.append_right _
  have hlen : rest.length + w.u.client.holding = w.u.posted.length - q.taken := by
    have hreap := congrArg List.length hq.reaped
    have hsum := congrArg List.length hrest
    have hle := hq.client.holding_le hq.cq.le
    rw [List.length_append] at hsum
    rw [List.length_take] at hreap
    omega
  refine ⟨fun x hx ↦ hperm.mem_iff.mpr ?_, hw.tagged.posted,
    ⟨rest, hrest.symm, hlen.trans hdist.symm, hperm⟩, hw.not_full, fun tag hpc hdone he ↦ ?_⟩
  · simp only [List.mem_append]
    exact .inl (.inl (.inl hx))
  · -- with nothing on the ring, the tag has been returned or is in `STASH`
    have hstands := hw.stands
    rw [Reaper.Stands, hpc] at hstands
    obtain ⟨hidle, hwait⟩ := hstands
    rw [he, BitVec.sub_self, BitVec.toNat_zero] at hdist
    have hnil : rest = [] := List.eq_nil_of_length_eq_zero (by omega)
    have hhand : w.inHand = [] := Reaper.inHand_of_holding (by rw [hidle]; rfl)
    have hposted := hdone.resolve_right hwait.stash
    have hmem := (hperm.map Prod.fst).mem_iff.mp (show tag ∈ _ by rwa [List.map_map])
    rw [hnil, hhand, List.map_nil, List.append_nil, List.append_nil, List.map_append,
      List.mem_append] at hmem
    exact hmem.elim hwait.returned hwait.stash

/-- Two submissions are completed in the reverse order: the wait for the first puts the completion
of the second into `STASH`, and the wait for the second finds it there. -/
theorem waits_match_reversed : ∃ w : Reaper, (reaper 0).Reach Reaper.Proper w ∧
    w.returned = [(1, 10), (2, 20)] ∧ w.u.posted = [⟨2, 20⟩, ⟨1, 10⟩] ∧
    (∀ x ∈ w.returned, x ∈ w.u.posted.map Cqe.pair) ∧ ¬ w.u.full 0 := by
  let k : Kernel := ⟨⟨fun _ ↦ 0, ⟨0, 0⟩⟩, [], ⟨[], 0⟩, none, .empty, ⟨[], true, []⟩, 0, 0, 0, 0, 0,
    [], []⟩
  let e₁ : Sqe := ⟨0, 0, 0, 1⟩
  let e₂ : Sqe := ⟨0, 0, 0, 2⟩
  let empty : List (BitVec 64 × BitVec 64) := [(0, 0), (0, 0), (0, 0), (0, 0)]
  have hzero : ∀ off, k.mem.load off 4 = 0 := fun off ↦ Mem.load_of_zero fun _ _ ↦ rfl
  have h₀ : Reaper.Rests 0 [] [] [] [] ⟨⟨k, .idle, .idle, [], [], [], []⟩, empty, .idle, []⟩ := by
    refine ⟨.init ⟨⟨rfl, rfl, rfl, rfl, rfl, rfl, ?_, ?_⟩, rfl, rfl, rfl⟩, rfl, rfl, rfl, rfl, rfl,
      rfl⟩
    · rw [sqHead, sqTail, hzero, hzero]
    · rw [cqHead, cqTail, hzero, hzero]
  -- two submissions, each consumed at once; the second is completed first
  obtain ⟨u₁, h₁⟩ : ∃ u, Reaper.Rests 0 [e₁] [] [] [] ⟨u, empty, .idle, []⟩ :=
    h₀.sqe rfl e₁ (by decide) (by decide) (by decide)
  obtain ⟨u₂, h₂⟩ : ∃ u, Reaper.Rests 0 [e₁] [e₁] [] [] ⟨u, empty, .idle, []⟩ := h₁.drained rfl
  obtain ⟨u₃, h₃⟩ : ∃ u, Reaper.Rests 0 [e₁, e₂] [e₁] [] [] ⟨u, empty, .idle, []⟩ :=
    h₂.sqe rfl e₂ (by decide) (by decide) (show 1 < 5 by decide)
  obtain ⟨u₄, h₄⟩ : ∃ u, Reaper.Rests 0 [e₁, e₂] [e₁, e₂] [] [] ⟨u, empty, .idle, []⟩ :=
    h₃.drained rfl
  obtain ⟨u₅, h₅⟩ : ∃ u, Reaper.Rests 0 [e₁, e₂] [e₁, e₂] [⟨2, 20⟩] [] ⟨u, empty, .idle, []⟩ :=
    h₄.complete 2 20 (by decide) (by decide)
  obtain ⟨u₆, h₆⟩ : ∃ u, Reaper.Rests 0 [e₁, e₂] [e₁, e₂] [⟨2, 20⟩, ⟨1, 10⟩] []
      ⟨u, empty, .idle, []⟩ := h₅.complete 1 10 (by decide) (by decide)
  -- the wait for the first
  have h₇ := h₆.call rfl 1 true (by decide) List.not_mem_nil rfl
  obtain ⟨u₈, h₈⟩ : ∃ u, Reaper.Rests 0 [e₁, e₂] [e₁, e₂] [⟨2, 20⟩, ⟨1, 10⟩] [⟨2, 20⟩]
      ⟨u, [(2, 20), (0, 0), (0, 0), (0, 0)], .loop 1 true, []⟩ := h₇.stashes rfl rfl (by decide)
  obtain ⟨u₉, h₉⟩ : ∃ u, Reaper.Rests 0 [e₁, e₂] [e₁, e₂] [⟨2, 20⟩, ⟨1, 10⟩] [⟨2, 20⟩, ⟨1, 10⟩]
      ⟨u, [(2, 20), (0, 0), (0, 0), (0, 0)], .idle, [(1, 10)]⟩ := h₈.found rfl rfl rfl
  -- and for the second
  have h₁₀ : Reaper.Rests 0 [e₁, e₂] [e₁, e₂] [⟨2, 20⟩, ⟨1, 10⟩] [⟨2, 20⟩, ⟨1, 10⟩]
      ⟨u₉, [(0, 20), (0, 0), (0, 0), (0, 0)], .idle, [(1, 10), (2, 20)]⟩ :=
    h₉.take rfl true (by decide) (show (2 : BitVec 64) ∉ [1] by decide) rfl
  have hmatch := waits_match h₁₀.reach
  exact ⟨_, h₁₀.reach, rfl, h₁₀.posted, hmatch.1, hmatch.2.2.2.1⟩

end Jatuli

import Jatuli.Lib.Parked
import Jatuli.Delivery

/-!
# What becomes of reads

The kernel keeps no record of the reads it has served.  The functions here make one: each follows
the kernel's function of the same name and says what becomes of the `OP_READ`s that are accepted
there.  What is in a buffer when the completion is posted is read back through the live address
space, the way the program would; and what a read is told is taken from the trace, where `complete`
has put what is in the slot of the queue.  `Recorded` says that this is one completion for each,
with the tag of the read and the number of its bytes, in the order of the trace.

For a process and the input it may take, draining its ring and going through its parked reads are
then a sequence of requests and a pass over a table (`Parked.Steps`, `Parked.Scan`): for a process
that is not in the foreground, with nothing in the queue.
-/

set_option autoImplicit false

namespace Jatuli

/-! ## Answers -/

/-- A completion, posted or dropped. -/
def Event.completes : Event → Bool
  | .cqe .. | .overflow .. => true
  | _ => false

/-- The result of a completion that was posted. -/
def Event.result : Event → Option Int
  | .cqe _ _ result _ => some result
  | _ => none

/-- What an `OP_READ` is answered with: the tag of its entry, and the completions that were logged
for it, the oldest first. -/
structure ReadAnswer where
  userData : Nat
  completions : List Event

/-- What becomes of an `OP_READ` that is accepted. -/
abbrev ReadEvent := Parked.Event UInt8 Pending ReadAnswer maxPending

namespace ReadEvent

/-- The completions logged for a read. -/
def completions : ReadEvent → List Event
  | .done _ _ _ answer => answer.completions
  | .parked _ _ _ => []

/-- What a read has been told it has got: of its bytes as many as the result says. -/
def delivered : ReadEvent → List UInt8
  | .done _ _ items answer =>
    answer.completions.flatMap fun e ↦ e.result.elim [] fun result ↦ items.take result.toNat
  | .parked _ _ _ => []

/-- No completion was dropped. -/
def Posted (e : ReadEvent) : Prop := ∀ c ∈ e.completions, c.result ≠ none

/-- A read, if it is answered, is answered by one completion, posted to process `pid` under the tag
of the read.  The result is the number of bytes it has got: no more than it asked for, and one at
least if it asked for any. -/
def Answered (pid : Nat) : ReadEvent → Prop
  | .done _ len items answer => ∃ result : Nat,
      answer.completions = [.cqe (some pid) answer.userData result none] ∧
      items.length = result ∧ result ≤ len ∧ (len ≠ 0 → 1 ≤ result)
  | .parked _ _ _ => True

/-- The same as far as the trace is concerned, if the completion may have been dropped. -/
def Logged (pid : Nat) : ReadEvent → Prop
  | .done _ _ items answer =>
      answer.completions = [.cqe (some pid) answer.userData items.length none] ∨
      answer.completions = [.overflow (some pid) answer.userData none]
  | .parked _ _ _ => True

theorem Logged.answered {pid : Nat} {e : ReadEvent} (h : e.Logged pid) (hb : e.Bounded)
    (hp : e.Posted) : e.Answered pid := by
  cases e with
  | parked slot r table => trivial
  | done slot len items answer =>
    rcases h with h | h
    · exact ⟨items.length, h, rfl, hb⟩
    · have hno := hp (.overflow (some pid) answer.userData none) (by rw [completions, h]; simp)
      exact absurd rfl hno

theorem Answered.delivered {pid : Nat} {e : ReadEvent} (h : e.Answered pid) :
    e.delivered = e.items := by
  cases e with
  | parked slot r table => rfl
  | done slot len items answer =>
    obtain ⟨result, hc, rfl, -⟩ := h
    rw [ReadEvent.delivered, hc, List.flatMap_singleton]
    exact List.take_length

end ReadEvent

/-! ## The record -/

namespace Kernel

/-- The completions logged on the way from `k` to `k'`, the oldest first. -/
def completionsSince (k k' : Kernel) : List Event :=
  ((k'.trace.take (k'.trace.length - k.trace.length)).filter Event.completes).reverse

theorem completionsSince_of_append {k k' : Kernel} (new : List Event)
    (h : new ++ k.trace = k'.trace) :
    k.completionsSince k' = (new.filter Event.completes).reverse := by
  rw [completionsSince, ← h, List.length_append, Nat.add_sub_cancel, List.take_left']
  rfl

/-- A completion for process `pid`, with a result that fits in its slot. -/
theorem completionsSince_complete {k k₁ : Kernel} {pid ringPa userData : Nat} (result : Int)
    (htrace : k₁.trace = k.trace) (howner : k₁.ringOwner ringPa = some pid)
    (htag : userData < 2 ^ 64) (hfits : result.bmod (2 ^ 64) = result) :
    k.completionsSince (k₁.complete ringPa userData result none) =
      [if k₁.unreaped ringPa < ringEntries.toNat then .cqe (some pid) userData result none
        else .overflow (some pid) userData none] := by
  rcases k₁.complete_cases ringPa userData result none with ⟨hfull, -, ht⟩ | ⟨hroom, -, ht⟩
  · rw [htrace, howner] at ht
    rw [completionsSince_of_append [.overflow (some pid) userData none] ht.symm,
      if_neg (show ¬ k₁.unreaped ringPa < ringEntries.toNat from Nat.not_lt.mpr hfull)]
    rfl
  · rw [htrace, howner, Nat.mod_eq_of_lt htag, hfits] at ht
    rw [completionsSince_of_append [.cqe (some pid) userData result none,
      .ringStore ringPa (some pid), .ringStore ringPa (some pid), .ringStore ringPa (some pid)]
      ht.symm, if_pos (show k₁.unreaped ringPa < ringEntries.toNat from hroom)]
    rfl

/-- A completion for which there is room is posted. -/
theorem posted_of_room {k : Kernel} {ringPa : Nat} (hroom : k.unreaped ringPa < ringEntries.toNat)
    (userData : Nat) (result : Int) :
    ∀ c ∈ k.completionsSince (k.complete ringPa userData result none), c.result ≠ none := by
  rcases k.complete_cases ringPa userData result none with ⟨hfull, -⟩ | ⟨-, -, ht⟩
  · exact absurd hroom (Nat.not_lt.mpr hfull)
  · rw [completionsSince_of_append [_, _, _, _] ht.symm]
    simp [Event.completes, Event.result]

/-- The event of an `OP_READ`; none if it is answered with `ERR`. -/
def readEvent (k : Kernel) (pid ringPa buf len userData : Nat) : Option ReadEvent := do
  let answer : ReadAnswer := ⟨userData, k.completionsSince (← k.read pid ringPa buf len userData)⟩
  if !(← Processes.isUserRange k.processes pid buf len true) then none
  else if len = 0 then some (.done none 0 [] answer)
  else
    let (count, k) ← if Processes.foregroundPid k.processes = some pid
      then k.drainInput pid buf len else some (0, k)
    if 0 < count then some (.done none len ((k.readUser buf count).getD []) answer)
    else
      let p ← k.processes[pid]?
      let i ← p.pending.findFinIdx? Option.isNone
      some (.parked i { buf, len, userData } p.pending)

/-- The events of one submission. -/
def sqeEvents (k : Kernel) (pid addr : Nat) : List ReadEvent :=
  let opcode := k.mem.load addr 8
  let arg0 := k.mem.load (addr + 8) 8
  let arg1 := k.mem.load (addr + 16) 8
  let userData := k.mem.load (addr + 24) 8
  if opcode = opRead then
    match Processes.ringPa k.processes pid with
    | none => []
    | some ringPa => ((k.log (.sqe pid userData k.ttbr0 (k.waitsFor pid opcode arg0))).readEvent
        pid ringPa arg0 arg1 userData).toList
  else []

/-- The events of the loop of `drain`. -/
def drainFromEvents (pid ringPa : Nat) (tail : BitVec 32) :
    Nat → Kernel → BitVec 32 → List ReadEvent
  | 0, _, _ => []
  | n + 1, k, head =>
    if head = tail then []
    else match k.processSqe pid (sqeAddr ringPa (slot head)) with
      | none => []
      | some k' => k.sqeEvents pid (sqeAddr ringPa (slot head)) ++
          drainFromEvents pid ringPa tail n (k'.ringStore ringPa offSqHead 4 (head + 1).toNat)
            (head + 1)

/-- The events of `drain`. -/
def drainEvents (k : Kernel) (pid : Nat) : List ReadEvent :=
  match Processes.ringPa k.processes pid with
  | none => []
  | some ringPa =>
    if ringPa = 0 then []
    else
      let head := sqHead k.mem ringPa
      let tail := sqTail k.mem ringPa
      drainFromEvents pid ringPa tail (tail - head).toNat k head

/-- The events of the loop of `poll_pending`. -/
def pollFromEvents (pid ringPa : Nat) (pending : Vector (Option Pending) maxPending) :
    Nat → Kernel → List ReadEvent
  | 0, _ => []
  | n + 1, k =>
    if h : maxPending - (n + 1) < maxPending then
      match pending[maxPending - (n + 1)] with
      | none => pollFromEvents pid ringPa pending n k
      | some p =>
        match k.drainInput pid p.buf p.len with
        | none => []
        | some (count, k) =>
          if 0 < count then
            .done (some ⟨_, h⟩) p.len ((k.readUser p.buf count).getD [])
                ⟨p.userData, k.completionsSince (k.complete ringPa p.userData count none)⟩ ::
              pollFromEvents pid ringPa pending n { k.complete ringPa p.userData count none with
                processes := Processes.clearPending k.processes pid ⟨_, h⟩ }
          else pollFromEvents pid ringPa pending n k
    else []

/-- The events of `poll_pending`. -/
def pollEvents (k : Kernel) : List ReadEvent :=
  match Processes.foregroundPid k.processes with
  | none => []
  | some pid =>
    match k.processes[pid]? with
    | none => []
    | some p =>
      if p.ringPa = 0 then []
      else pollFromEvents pid p.ringPa p.pending maxPending
        (if k.ttbr0 ≠ p.ttbr0 then k.activate p.ttbr0 else k)

/-- With one entry published the events are those of that entry. -/
theorem drainEvents_one {k k₁ : Kernel} {pid ringPa : Nat}
    (hring : Processes.ringPa k.processes pid = some ringPa) (hne : ringPa ≠ 0)
    (htail : sqTail k.mem ringPa = sqHead k.mem ringPa + 1)
    (hsqe : k.processSqe pid (sqeAddr ringPa (slot (sqHead k.mem ringPa))) = some k₁) :
    k.drainEvents pid = k.sqeEvents pid (sqeAddr ringPa (slot (sqHead k.mem ringPa))) := by
  have hn : (sqHead k.mem ringPa + 1 - sqHead k.mem ringPa).toNat = 1 := by bv_omega
  have hdiff : sqHead k.mem ringPa ≠ sqHead k.mem ringPa + 1 := by bv_omega
  rw [drainEvents, hring]
  dsimp only
  rw [if_neg hne, htail, hn, drainFromEvents, if_neg hdiff, hsqe]
  exact List.append_nil _

/-- The rule for the loop of `drain`, with the events. -/
theorem drainFrom_events {pid ringPa : Nat} {tail : BitVec 32} {I : List ReadEvent → Kernel → Prop}
    (hsqe : ∀ es k k' addr, I es k → k.processSqe pid addr = some k' →
      I (es ++ k.sqeEvents pid addr) k')
    (hhead : ∀ es k v, I es k → I es (k.ringStore ringPa offSqHead 4 v)) :
    ∀ (n : Nat) {es : List ReadEvent} {k k' : Kernel} {head : BitVec 32}, I es k →
      drainFrom pid ringPa tail n k head = some k' →
      I (es ++ drainFromEvents pid ringPa tail n k head) k'
  | 0, es, k, k', head, hI, h => by
    obtain rfl := Option.some.inj h
    rw [drainFromEvents, List.append_nil]
    exact hI
  | n + 1, es, k, k', head, hI, h => by
    rw [drainFrom] at h
    rw [drainFromEvents]
    split_ifs at h ⊢ with hend
    · obtain rfl := Option.some.inj h
      rw [List.append_nil]
      exact hI
    · obtain ⟨k₁, hk₁, h⟩ := Option.bind_eq_some_iff.mp h
      rw [hk₁]
      dsimp only
      rw [← List.append_assoc]
      exact drainFrom_events hsqe hhead n (hhead _ _ _ (hsqe _ _ _ _ hI hk₁)) h

/-- The rule for the loop of `poll_pending`, with the events. -/
theorem pollFrom_events {pid ringPa : Nat} {pending : Vector (Option Pending) maxPending}
    {I : Nat → List ReadEvent → Kernel → Prop}
    (hnone : ∀ (i : Fin maxPending) es k, getElem pending i i.isLt = none → I i es k →
      I (i + 1) es k)
    (hempty : ∀ (i : Fin maxPending) es k k' r, getElem pending i i.isLt = some r →
      k.drainInput pid r.buf r.len = some (0, k') → I i es k → I (i + 1) es k')
    (hdone : ∀ (i : Fin maxPending) es k k' r count, getElem pending i i.isLt = some r → 0 < count →
      k.drainInput pid r.buf r.len = some (count, k') → I i es k →
      I (i + 1) (es ++ [.done (some i) r.len ((k'.readUser r.buf count).getD [])
          ⟨r.userData, k'.completionsSince (k'.complete ringPa r.userData count none)⟩])
        { k'.complete ringPa r.userData count none with
          processes := Processes.clearPending k'.processes pid i }) :
    ∀ (n : Nat), n ≤ maxPending → ∀ {es : List ReadEvent} {k k' : Kernel} {b b' : Bool},
      I (maxPending - n) es k → pollPendingFrom pid ringPa pending n k b = some (b', k') →
      I maxPending (es ++ pollFromEvents pid ringPa pending n k) k'
  | 0, _, es, k, k', b, b', hI, h => by
    obtain ⟨-, rfl⟩ := Prod.mk.inj (Option.some.inj h)
    rw [pollFromEvents, List.append_nil]
    exact hI
  | n + 1, hn, es, k, k', b, b', hI, h => by
    have hlt : maxPending - (n + 1) < maxPending := by omega
    have hnext : maxPending - n = maxPending - (n + 1) + 1 := by omega
    have ih : ∀ {es₁ : List ReadEvent} {k₁ : Kernel} {b₁ : Bool},
        I (maxPending - (n + 1) + 1) es₁ k₁ →
        pollPendingFrom pid ringPa pending n k₁ b₁ = some (b', k') →
        I maxPending (es₁ ++ pollFromEvents pid ringPa pending n k₁) k' :=
      hnext ▸ pollFrom_events hnone hempty hdone n (by omega)
    rw [pollPendingFrom, dif_pos hlt] at h
    rw [pollFromEvents, dif_pos hlt]
    cases hslot : pending[maxPending - (n + 1)] with
    | none =>
      rw [hslot] at h
      exact ih (hnone ⟨_, hlt⟩ _ _ hslot hI) h
    | some r =>
      rw [hslot] at h
      obtain ⟨⟨count, k₁⟩, hd, h⟩ := Option.bind_eq_some_iff.mp h
      dsimp only at h ⊢
      rw [hd]
      dsimp only
      rcases Nat.eq_zero_or_pos count with hzero | hpos
      · subst hzero
        exact ih (hempty ⟨_, hlt⟩ _ _ _ _ hslot hd hI) h
      · simp only [if_pos hpos, (complete_quiet ..).processes] at h ⊢
        rw [List.append_cons]
        exact ih (hdone ⟨_, hlt⟩ _ _ _ _ _ hslot hpos hd hI) h

end Kernel

/-! ## What the trace says of reads -/

section Suffix

variable {k k' : Kernel} {pid ringPa tag : Nat} {child : Option Nat}

namespace Kernel

/-- Nothing is ever taken back from the trace. -/
theorem complete_suffix (k : Kernel) (ringPa userData : Nat) (result : Int)
    (child : Option Nat) : k.trace <:+ (k.complete ringPa userData result child).trace := by
  rcases k.complete_cases ringPa userData result child with ⟨-, -, ht⟩ | ⟨-, -, ht⟩
  · rw [ht]
    exact List.suffix_cons _ _
  · rw [ht]
    exact ⟨_ :: _ :: _ :: [_], rfl⟩

theorem outcome_suffix (h : SqeOutcome pid ringPa tag child k k') : k.trace <:+ k'.trace := by
  cases h with
  | @completed k₁ result hchild hd hin => exact hd.trace ▸ k₁.complete_suffix ..
  | parked hchild hd hin hp hi htag => exact hd.trace ▸ List.suffix_rfl
  | answered hchild hp hparent hexit => exact k.complete_suffix ..
  | waiting hchild hp hparent hexit => exact List.suffix_rfl
  | spawned hchild himage hroot hspace =>
    refine List.IsSuffix.trans ?_ (complete_suffix ..)
    exact List.suffix_rfl

theorem processSqe_suffix {addr : Nat} (h : k.processSqe pid addr = some k') :
    k.trace <:+ k'.trace := by
  obtain ⟨ring, child, -, ho⟩ := processSqe_cases h
  exact (List.suffix_cons _ _).trans (outcome_suffix ho)

end Kernel

end Suffix

/-- The trace has, for each read of process `pid` that was answered on the way from `k` to `k'`, its
completion, in the order of the reads. -/
structure Recorded (pid : Nat) (k : Kernel) (es : List ReadEvent) (k' : Kernel) : Prop where
  logged : ∀ e ∈ es, e.Logged pid
  trace : ∃ new, new ++ k.trace = k'.trace ∧
    (es.flatMap ReadEvent.completions).Sublist new.reverse

namespace Recorded

variable {pid ringPa tag : Nat} {k k₁ k' : Kernel} {es es' : List ReadEvent}

theorem of_suffix (h : k.trace <:+ k'.trace) : Recorded pid k [] k' :=
  ⟨by simp, h.imp fun _ hnew ↦ ⟨hnew, List.nil_sublist _⟩⟩

theorem suffix (h : Recorded pid k es k') : k.trace <:+ k'.trace := h.trace.imp fun _ hnew ↦ hnew.1

theorem trans (h : Recorded pid k es k₁) (h' : Recorded pid k₁ es' k') :
    Recorded pid k (es ++ es') k' where
  logged e he := (List.mem_append.mp he).elim (h.logged e) (h'.logged e)
  trace := by
    obtain ⟨new, hnew, hsub⟩ := h.trace
    obtain ⟨new', hnew', hsub'⟩ := h'.trace
    refine ⟨new' ++ new, by rw [List.append_assoc, hnew, hnew'], ?_⟩
    rw [List.flatMap_append, List.reverse_append]
    exact hsub.append hsub'

/-- Nothing is logged before or after. -/
theorem congr (h : Recorded pid k es k₁) (ht : k'.trace = k₁.trace) : Recorded pid k es k' :=
  ⟨h.logged, ht ▸ h.trace⟩

theorem of_eq (ht : k₁.trace = k.trace) (h : Recorded pid k₁ es k') : Recorded pid k es k' :=
  ⟨h.logged, ht ▸ h.trace⟩

/-- Something else is logged afterwards. -/
theorem and_then (h : Recorded pid k es k₁) (ht : k₁.trace <:+ k'.trace) :
    Recorded pid k es k' := by
  have h' := h.trans (of_suffix ht)
  rwa [List.append_nil] at h'

/-- A read is parked. -/
theorem parked (i : Fin maxPending) (r : Pending) (t : Vector (Option Pending) maxPending)
    (h : k.trace <:+ k'.trace) : Recorded pid k [.parked i r t] k' := by
  refine ⟨by simp [ReadEvent.Logged], h.imp fun _ hnew ↦ ⟨hnew, ?_⟩⟩
  rw [List.flatMap_singleton]
  exact List.nil_sublist _

/-- A read is answered. -/
theorem done (items : List UInt8) (slot : Option (Fin maxPending)) (len : Nat)
    (htrace : k₁.trace = k.trace) (howner : k₁.ringOwner ringPa = some pid) (htag : tag < 2 ^ 64)
    (hitems : items.length < inputBufSize) :
    Recorded pid k [.done slot len items
        ⟨tag, k.completionsSince (k₁.complete ringPa tag items.length none)⟩]
      (k₁.complete ringPa tag items.length none) where
  logged := by
    have hfits : (items.length : Int).bmod (2 ^ 64) = items.length := by
      rw [inputBufSize] at hitems
      rw [Int.bmod_eq_of_le] <;> omega
    rw [List.forall_mem_singleton, ReadEvent.Logged,
      Kernel.completionsSince_complete _ htrace howner htag hfits]
    split_ifs
    · exact .inl rfl
    · exact .inr rfl
  trace := by
    obtain ⟨new, hnew⟩ := k₁.complete_suffix ringPa tag items.length none
    rw [htrace] at hnew
    refine ⟨new, hnew, ?_⟩
    rw [List.flatMap_singleton, ReadEvent.completions, Kernel.completionsSince_of_append _ hnew]
    exact List.filter_sublist.reverse

end Recorded

/-! ## Reads as requests -/

/-- The image lets its process have `[ptr, ptr + len)` written. -/
def Loaded.Grants (l : Loaded) (ptr len : Nat) : Prop :=
  ptr + len < 2 ^ 64 ∧ (userStackVa ≤ ptr ∧ ptr + len ≤ userStackVa + userStackSize ∨
    Processes.rangeOk true ptr (ptr + len) l.ranges = true)

theorem isUserRange_iff {ps : List Process} {pid ptr len : Nat} {p : Process}
    (hp : ps[pid]? = some p) :
    Processes.isUserRange ps pid ptr len true = some true ↔ p.loaded.Grants ptr len := by
  rw [Processes.isUserRange, Loaded.Grants, hp]
  split_ifs with h64 hstack
  · exact iff_of_false (by rintro ⟨⟩) fun h ↦ Nat.not_lt.mpr h64 h.1
  · exact iff_of_true rfl ⟨Nat.lt_of_not_le h64, .inl hstack⟩
  · simp only [Option.map_some, Option.some.injEq]
    exact ⟨fun h ↦ ⟨Nat.lt_of_not_le h64, .inr h⟩, fun h ↦ h.2.resolve_left hstack⟩

/-- Reads as requests for bytes, for a process with this image. -/
def readRules (l : Loaded) : Parked.Rules Pending ReadAnswer where
  len r := r.len
  accepts r := 0 < r.len ∧ l.Grants r.buf r.len ∧ r.userData < 2 ^ 64
  answers r answer := answer.userData = r.userData
  first r := l.Grants r.buf 1
  all r := ∀ i < r.len, l.Grants (r.buf + i) 1
  first_of_all _ hacc hall := hall 0 hacc.1

/-- A process whose segments do not overlap takes all bytes. -/
theorem Loaded.NoOverlap.all {l : Loaded} (h : l.NoOverlap) {r : Pending}
    (hr : (readRules l).accepts r) : (readRules l).all r := by
  intro i hi
  have hp : [Process.fresh 0 l []][0]? = some (Process.fresh 0 l []) := rfl
  refine (isUserRange_iff hp).mp (h.subrange hp ((isUserRange_iff hp).mpr hr.2.1) Nat.one_pos ?_ ?_)
  · exact Nat.le_add_right _ _
  · omega

/-- The input a process may take, and its parked reads. -/
def Kernel.reader (k : Kernel) (pid : Nat) (p : Process) :
    Parked.State UInt8 Pending maxPending where
  queue := if Processes.foregroundPid k.processes = some pid then k.input.contents else []
  table := p.pending

theorem Kernel.reader_congr {k k' : Kernel} {pid : Nat} {p p' : Process}
    (hfg : Processes.foregroundPid k'.processes = Processes.foregroundPid k.processes)
    (hin : k'.input = k.input) (hp : p'.pending = p.pending) :
    k'.reader pid p' = k.reader pid p := by
  rw [reader, reader, hfg, hin, hp]

/-- A completion has nothing to do with what can be read. -/
theorem Kernel.reader_complete (k : Kernel) (pid : Nat) (p : Process) (ringPa userData : Nat)
    (result : Int) (child : Option Nat) :
    (k.complete ringPa userData result child).reader pid p = k.reader pid p :=
  reader_congr (by rw [(k.complete_quiet ..).processes]) (k.complete_input ..) rfl

section Read

variable {strict : Prop} {L : Layout} {own : Nat → Owner} {k k' : Kernel} {pid ringPa : Nat}
  {p : Process}

/-- What a delivery gives a request. -/
theorem Moved.filled {r : Pending} {bytes lost : List UInt8}
    (h : Moved pid r.buf r.len k bytes lost k') (hp : k.processes[pid]? = some p)
    (hacc : (readRules p.loaded).accepts r) (hne : bytes ≠ []) :
    Parked.Filled (readRules p.loaded) r bytes k.input.contents k'.input.contents where
  accepts := hacc
  ne_nil := hne
  length_le := h.fits
  suffix := ⟨lost, h.contents, fun hall ↦ h.lossless
    fun i hi ↦ (isUserRange_iff hp).mpr (hall i hi)⟩

/-- A delivery that gives it nothing. -/
theorem Moved.starves {r : Pending} {lost : List UInt8} (h : Moved pid r.buf r.len k [] lost k')
    (hp : k.processes[pid]? = some p) (hacc : (readRules p.loaded).accepts r) :
    Parked.Starved (readRules p.loaded) r k.input.contents k'.input.contents where
  accepts := hacc
  suffix := ⟨lost, h.contents⟩
  first hfirst := (h.starved hacc.1 ((isUserRange_iff hp).mpr hfirst)).2.1

/-- A process that may not take input gets nothing. -/
theorem starved_nil {l : Loaded} {r : Pending} (hacc : (readRules l).accepts r) :
    Parked.Starved (readRules l) r ([] : List UInt8) [] :=
  ⟨hacc, ⟨[], rfl⟩, fun _ ↦ rfl⟩

/-- The end of the `OP_READ` arm when there was nothing to deliver. -/
theorem park_step {k₁ : Kernel} {r : Pending} {tag : Nat} (hp : k.processes[pid]? = some p)
    (hps : k₁.processes = k.processes) (htrace : k₁.trace = k.trace)
    (hstarved : Parked.Starved (readRules p.loaded) r (k.reader pid p).queue
      (k₁.reader pid p).queue)
    (h : (do
      match ← Processes.parkRead k₁.processes pid r with
      | some processes => some { k₁ with processes }
      | none => some (k₁.complete ringPa tag err none)) = some k') :
    ∃ p' es, (do
        let p ← k₁.processes[pid]?
        let i ← p.pending.findFinIdx? Option.isNone
        some (.parked i r p.pending) : Option ReadEvent).toList = es ∧
      k'.processes[pid]? = some p' ∧ p'.loaded = p.loaded ∧
      Parked.Step (readRules p.loaded) (k.reader pid p) es (k'.reader pid p') ∧
      Recorded pid k es k' := by
  have hp₁ : k₁.processes[pid]? = some p := by rw [hps, hp]
  obtain ⟨res, hpark, h⟩ := Option.bind_eq_some_iff.mp h
  rw [Processes.parkRead, hp₁, Option.bind_eq_bind, Option.bind_some] at hpark
  simp only [hp₁, Option.bind_eq_bind, Option.bind_some]
  cases hfind : p.pending.findFinIdx? Option.isNone with
  | none =>
    rw [hfind] at hpark
    obtain rfl := Option.some.inj hpark
    obtain rfl := Option.some.inj h
    refine ⟨p, [], rfl, by rw [(k₁.complete_quiet ..).processes, hp₁], rfl, ?_,
      .of_suffix (htrace ▸ k₁.complete_suffix ..)⟩
    rw [Kernel.reader_complete]
    exact .full hstarved
  | some i =>
    rw [hfind] at hpark
    obtain rfl := Option.some.inj hpark
    obtain rfl := Option.some.inj h
    have hlt : pid < k₁.processes.length := (List.getElem?_eq_some_iff.mp hp₁).1
    have hserved : Served pid k₁ { k₁ with
        processes := k₁.processes.set pid { p with pending := p.pending.set i (some r) } } :=
      .of_set hp₁ ⟨rfl, fun hx ↦ absurd rfl hx, fun hx ↦ absurd rfl hx⟩
    refine ⟨{ p with pending := p.pending.set i (some r) }, [.parked i r p.pending], rfl,
      List.getElem?_set_self hlt, rfl, ?_, .parked i r p.pending (htrace ▸ List.suffix_rfl)⟩
    have hqueue := hstarved
    rw [Kernel.reader, Kernel.reader] at hqueue
    rw [Kernel.reader, Kernel.reader, hserved.foregroundPid]
    exact .park (Kernel.getElem_of_findFinIdx? hfind) hqueue

/-- **An `OP_READ` is a request**; in the space of its owner it is the one that is read off, and
what it is answered is logged. -/
theorem Kernel.read_step (hp : k.processes[pid]? = some p) {buf len tag : Nat}
    (htag : tag < 2 ^ 64) (hs : k.read pid p.ringPa buf len tag = some k') :
    ∃ p' es, k'.processes[pid]? = some p' ∧ p'.loaded = p.loaded ∧
      Parked.Step (readRules p.loaded) (k.reader pid p) es (k'.reader pid p') ∧
      ∀ {strict : Prop} {L : Layout} {own : Nat → Owner}, Inv strict L own k → p.ringPa ≠ 0 →
        k.roots (some pid) = some k.ttbr0 →
        (k.readEvent pid p.ringPa buf len tag).toList = es ∧ Recorded pid k es k' := by
  rw [readEvent, hs, Option.bind_eq_bind, Option.bind_some]
  rw [read] at hs
  obtain ⟨valid, hvalid, hs⟩ := Option.bind_eq_some_iff.mp hs
  rw [hvalid, Option.bind_eq_bind, Option.bind_some]
  have hcomplete : ∀ result, ∃ p', (k.complete p.ringPa tag result none).processes[pid]? = some p' ∧
      p'.loaded = p.loaded ∧
      (k.complete p.ringPa tag result none).reader pid p' = k.reader pid p := fun result ↦
    ⟨p, by rw [(k.complete_quiet ..).processes, hp], rfl, k.reader_complete ..⟩
  cases valid with
  | false =>
    obtain rfl := Option.some.inj hs
    obtain ⟨p', hp', hl, hreader⟩ := hcomplete err
    exact ⟨p', [], hp', hl, hreader ▸ .pass, fun _ _ _ ↦ ⟨rfl, .of_suffix (k.complete_suffix ..)⟩⟩
  | true =>
    simp only [Bool.not_true, Bool.false_eq_true, if_false] at hs ⊢
    by_cases hlen : len = 0
    · rw [if_pos hlen] at hs ⊢
      obtain rfl := Option.some.inj hs
      obtain ⟨p', hp', hl, hreader⟩ := hcomplete 0
      have hanswers : (readRules p.loaded).answers ⟨buf, 0, tag⟩
        ⟨tag, k.completionsSince (k.complete p.ringPa tag 0 none)⟩ := rfl
      exact ⟨p', _, hp', hl, hreader ▸ .empty rfl hanswers, fun h hne _ ↦
        ⟨rfl, .done [] none 0 rfl (h.ringOwner_eq hp hne) htag (by decide)⟩⟩
    rw [if_neg hlen] at hs ⊢
    have hacc : (readRules p.loaded).accepts ⟨buf, len, tag⟩ :=
      ⟨Nat.pos_of_ne_zero hlen, (isUserRange_iff hp).mp hvalid, htag⟩
    by_cases hfg : Processes.foregroundPid k.processes = some pid
    · rw [if_pos hfg] at hs ⊢
      obtain ⟨⟨count, k₁⟩, hd, hs⟩ := Option.bind_eq_some_iff.mp hs
      rw [hd, Option.bind_eq_bind, Option.bind_some]
      dsimp only at hs ⊢
      have hps : k₁.processes = k.processes := (drainInput_delivered hd).quiet.processes
      have htrace : k₁.trace = k.trace := (drainInput_delivered hd).trace
      obtain ⟨bytes, lost, rfl, hmoved, hread⟩ := drainInput_moved hd
      have hqueue : (k.reader pid p).queue = k.input.contents := if_pos hfg
      have hqueue₁ : (k₁.reader pid p).queue = k₁.input.contents := if_pos (by rw [hps, hfg])
      by_cases hpos : 0 < bytes.length
      · rw [if_pos hpos] at hs ⊢
        obtain rfl := Option.some.inj hs
        have hfilled := hmoved.filled (r := ⟨buf, len, tag⟩) hp hacc (List.length_pos_iff.mp hpos)
        rw [← hqueue, ← hqueue₁] at hfilled
        refine ⟨p, [.done none len bytes
          ⟨tag, k.completionsSince (k₁.complete p.ringPa tag bytes.length none)⟩],
          by rw [(k₁.complete_quiet ..).processes, hps, hp], rfl, ?_, fun h hne hr ↦ ⟨?_, ?_⟩⟩
        · rw [reader_complete]
          exact .fill rfl hfilled
        · rw [hread h hr]
          rfl
        · exact .done _ none len htrace (by rw [ringOwner_congr hps, h.ringOwner_eq hp hne]) htag
            hmoved.length_lt
      · rw [if_neg hpos] at hs ⊢
        obtain rfl : bytes = [] := List.eq_nil_of_length_eq_zero (by omega)
        have hstarved := hmoved.starves (r := ⟨buf, len, tag⟩) hp hacc
        rw [← hqueue, ← hqueue₁] at hstarved
        obtain ⟨p', es, hes, hp', hl, hstep, hrec⟩ := park_step hp hps htrace hstarved hs
        exact ⟨p', es, hp', hl, hstep, fun _ _ _ ↦ ⟨hes, hrec⟩⟩
    · rw [if_neg hfg] at hs ⊢
      simp only [Option.bind_eq_bind, Option.bind_some, Nat.lt_irrefl, if_false] at hs ⊢
      have hqueue : (k.reader pid p).queue = [] := if_neg hfg
      have hstarved : Parked.Starved (readRules p.loaded) ⟨buf, len, tag⟩ (k.reader pid p).queue
          (k.reader pid p).queue := by
        rw [hqueue]
        exact starved_nil hacc
      obtain ⟨p', es, hes, hp', hl, hstep, hrec⟩ := park_step hp rfl rfl hstarved hs
      simp only [Option.bind_eq_bind] at hes
      exact ⟨p', es, hp', hl, hstep, fun _ _ _ ↦ ⟨hes, hrec⟩⟩

end Read

/-! ## Other submissions -/

/-- Nothing is read for process `pid`. -/
structure Idle (pid : Nat) (k k' : Kernel) : Prop where
  input : k'.input = k.input
  entry : ∀ {p : Process}, k.processes[pid]? = some p →
    ∃ p', k'.processes[pid]? = some p' ∧ p'.loaded = p.loaded ∧ p'.pending = p.pending

section Idle

variable {k k' k'' : Kernel} {pid ringPa tag : Nat}

theorem Idle.of_processes (hin : k'.input = k.input)
    (hps : k'.processes = k.processes) : Idle pid k k' :=
  ⟨hin, fun {p} hp ↦ ⟨p, by rw [hps, hp], rfl, rfl⟩⟩

theorem Idle.trans (h : Idle pid k k') (h' : Idle pid k' k'') : Idle pid k k'' where
  input := h'.input.trans h.input
  entry hp := by
    obtain ⟨p', hp', hl', hpend'⟩ := h.entry hp
    obtain ⟨p'', hp'', hl'', hpend''⟩ := h'.entry hp'
    exact ⟨p'', hp'', hl''.trans hl', hpend''.trans hpend'⟩

namespace Kernel

theorem complete_idle (k : Kernel) (pid ringPa userData : Nat) (result : Int)
    (child : Option Nat) : Idle pid k (k.complete ringPa userData result child) :=
  Idle.of_processes (k.complete_input ..) (k.complete_quiet ..).processes

theorem print_idle {ptr len : Nat} (h : k.print pid ringPa ptr len tag = some k') :
    Idle pid k k' := by
  rw [print] at h
  obtain ⟨valid, -, h⟩ := Option.bind_eq_some_iff.mp h
  split_ifs at h
  · obtain rfl := Option.some.inj h
    exact k.complete_idle ..
  · obtain ⟨bytes, -, h⟩ := Option.bind_eq_some_iff.mp h
    obtain rfl := Option.some.inj h
    refine Idle.trans ?_ (complete_idle ..)
    split_ifs
    · exact .of_processes rfl rfl
    · exact .of_processes rfl rfl

theorem spawn_idle {namePtr nameLen : Nat} (h : k.spawn pid namePtr nameLen tag = some k') :
    Idle pid k k' := by
  rw [spawn] at h
  obtain ⟨ringPa, -, h⟩ := Option.bind_eq_some_iff.mp h
  obtain ⟨valid, -, h⟩ := Option.bind_eq_some_iff.mp h
  split_ifs at h
  · obtain rfl := Option.some.inj h
    exact k.complete_idle ..
  · obtain ⟨bytes, -, h⟩ := Option.bind_eq_some_iff.mp h
    dsimp only at h
    split at h
    · obtain rfl := Option.some.inj h
      exact k.complete_idle ..
    · obtain ⟨⟨root, s⟩, -, h⟩ := Option.bind_eq_some_iff.mp h
      obtain ⟨⟨child, k₁⟩, hcreate, h⟩ := Option.bind_eq_some_iff.mp h
      obtain ⟨⟨loaded, frames, s'⟩, -, hcreate⟩ := Option.bind_eq_some_iff.mp hcreate
      obtain ⟨rfl, rfl⟩ := Prod.mk.inj (Option.some.inj hcreate)
      obtain ⟨parentRoot, -, h⟩ := Option.bind_eq_some_iff.mp h
      obtain ⟨_, -, h⟩ := Option.bind_eq_some_iff.mp h
      obtain rfl := Option.some.inj h
      refine Idle.trans ?_ (complete_idle ..)
      refine ⟨rfl, fun {p} hp ↦ ⟨p, ?_, rfl, rfl⟩⟩
      -- the new entry is behind all others
      show (Processes.setParent (k.processes ++ [_]) k.processes.length pid)[pid]? = some p
      rw [setParent_append, List.getElem?_append_left (List.getElem?_eq_some_iff.mp hp).1, hp]

theorem wait_idle {handle : Nat} (h : k.wait pid handle tag = some k') : Idle pid k k' := by
  rw [wait] at h
  obtain ⟨ringPa, -, h⟩ := Option.bind_eq_some_iff.mp h
  split at h
  · obtain rfl := Option.some.inj h
    exact k.complete_idle ..
  · split_ifs at h
    · obtain rfl := Option.some.inj h
      exact k.complete_idle ..
    · split at h
      · obtain rfl := Option.some.inj h
        exact k.complete_idle ..
      · obtain rfl := Option.some.inj h
        refine ⟨rfl, fun {p} hp ↦ ?_⟩
        rw [Processes.registerWait, List.getElem?_modify, hp]
        split_ifs
        · exact ⟨_, rfl, rfl, rfl⟩
        · exact ⟨_, rfl, rfl, rfl⟩

/-- A submission that is not an `OP_READ` reads nothing. -/
theorem processSqe_idle {addr : Nat} (h : k.processSqe pid addr = some k')
    (hop : k.mem.load addr 8 ≠ opRead) : Idle pid k k' := by
  rw [processSqe] at h
  obtain ⟨ringPa, -, h⟩ := Option.bind_eq_some_iff.mp h
  dsimp only at h
  have hlog : ∀ e, Idle pid k (k.log e) := fun e ↦ .of_processes rfl rfl
  rw [if_neg hop] at h
  split_ifs at h
  · obtain rfl := Option.some.inj h
    exact (hlog _).trans (complete_idle ..)
  · exact (hlog _).trans (print_idle h)
  · exact (hlog _).trans (spawn_idle h)
  · exact (hlog _).trans (wait_idle h)
  · obtain rfl := Option.some.inj h
    exact (hlog _).trans (complete_idle ..)

end Kernel

end Idle

/-! ## The loops -/

section Loops

variable {strict : Prop} {L : Layout} {own : Nat → Owner} {k k' : Kernel} {pid ringPa : Nat}
  {p : Process}

/-- Every submission is a request, or none; and in the space of its owner what is read off and
logged is just that. -/
theorem Kernel.sqe_step (hp : k.processes[pid]? = some p) {addr : Nat}
    (hs : k.processSqe pid addr = some k') :
    ∃ p' es, k'.processes[pid]? = some p' ∧ p'.loaded = p.loaded ∧
      Parked.Step (readRules p.loaded) (k.reader pid p) es (k'.reader pid p') ∧
      ∀ {strict : Prop} {L : Layout} {own : Nat → Owner}, Inv strict L own k → p.ringPa ≠ 0 →
        k.roots (some pid) = some k.ttbr0 →
        k.sqeEvents pid addr = es ∧ Recorded pid k es k' := by
  by_cases hop : k.mem.load addr 8 = opRead
  · rw [sqeEvents, if_pos hop]
    rw [processSqe] at hs
    obtain ⟨ring, hring, hs⟩ := Option.bind_eq_some_iff.mp hs
    rw [hring]
    rw [Processes.ringPa, hp, Option.map_some] at hring
    obtain rfl := Option.some.inj hring
    dsimp only at hs ⊢
    rw [hop, if_neg (by decide), if_neg (by decide), if_pos rfl] at hs
    rw [hop]
    obtain ⟨k₁, hk₁⟩ : ∃ k₁ : Kernel, k₁ = k.log (.sqe pid (k.mem.load (addr + 24) 8) k.ttbr0
      (k.waitsFor pid opRead (k.mem.load (addr + 8) 8))) := ⟨_, rfl⟩
    rw [← hk₁] at hs ⊢
    have hp₁ : k₁.processes[pid]? = some p := by rw [hk₁]; exact hp
    have hreader : k₁.reader pid p = k.reader pid p := by rw [hk₁]; rfl
    obtain ⟨p', es, hp', hl, hstep, hrest⟩ := read_step hp₁ (k.mem.load_lt 8 _) hs
    refine ⟨p', es, hp', hl, hreader ▸ hstep, fun {strict L own} h hne hr ↦ ?_⟩
    have h₁ : Inv strict L own k₁ := by
      rw [hk₁]
      exact h.of_mem_eq (.of_quiet (k.log_quiet _)) rfl
    have hr₁ : k₁.roots (some pid) = some k₁.ttbr0 := by rw [hk₁]; exact hr
    have hlog : Recorded pid k [] k₁ := .of_suffix (by rw [hk₁]; exact List.suffix_cons _ _)
    obtain ⟨hes, hrec⟩ := hrest h₁ hne hr₁
    exact ⟨hes, hlog.trans hrec⟩
  · have hidle := processSqe_idle hs hop
    obtain ⟨p', hp', hl, hpend⟩ := hidle.entry hp
    rw [sqeEvents, if_neg hop]
    refine ⟨p', [], hp', hl, ?_, fun _ _ _ ↦ ⟨rfl, .of_suffix (processSqe_suffix hs)⟩⟩
    rw [reader_congr (processSqe_served hp hs).foregroundPid hidle.input hpend]
    exact .pass

/-- Draining a ring is a sequence of requests, in whatever space it is done. -/
theorem Kernel.drain_steps (hp : k.processes[pid]? = some p) (hd : k.drain pid = some k') :
    ∃ p' es, k'.processes[pid]? = some p' ∧ p'.loaded = p.loaded ∧
      Parked.Steps (readRules p.loaded) (k.reader pid p) es (k'.reader pid p') := by
  rw [drain, Processes.ringPa, hp, Option.map_some, Option.bind_eq_bind, Option.bind_some] at hd
  dsimp only at hd
  split_ifs at hd with hne
  · obtain rfl := Option.some.inj hd
    exact ⟨p, [], hp, rfl, .refl⟩
  refine drainFrom_invariant
    (I := fun k₁ ↦ ∃ p₁ es, k₁.processes[pid]? = some p₁ ∧ p₁.loaded = p.loaded ∧
      Parked.Steps (readRules p.loaded) (k.reader pid p) es (k₁.reader pid p₁))
    ?_ (fun k₁ v hI ↦ hI) _ ⟨p, [], hp, rfl, .refl⟩ hd
  rintro k₁ k₂ addr ⟨p₁, es, hp₁, hl₁, hsteps⟩ hs
  obtain ⟨p₂, es₂, hp₂, hl₂, hstep, -⟩ := sqe_step hp₁ hs
  rw [hl₁] at hstep
  exact ⟨p₂, _, hp₂, hl₂.trans hl₁, hsteps.step hstep⟩

/-- A drain takes from the input ring at most. -/
theorem Kernel.drain_silent (hp : k.processes[pid]? = some p) (hd : k.drain pid = some k')
    (h : k.input.contents = []) : k'.input.contents = [] := by
  obtain ⟨p', es, -, -, hsteps⟩ := drain_steps hp hd
  have hserved := drain_served hp hd
  by_cases hfg : Processes.foregroundPid k.processes = some pid
  · have hsub := hsteps.flow.sublist
    rw [reader, reader, hserved.foregroundPid, if_pos hfg, if_pos hfg, h, List.sublist_nil,
      List.append_eq_nil_iff] at hsub
    exact hsub.2
  · rw [of_not_not fun hne ↦ hfg (hserved.input hne), h]

/-- **Draining a ring is a sequence of requests**, and what they are answered is logged. -/
theorem Inv.drain_steps (h : Inv strict L own k) (hp : k.processes[pid]? = some p)
    (hr : k.roots (some pid) = some k.ttbr0) (hd : k.drain pid = some k') :
    ∃ p', k'.processes[pid]? = some p' ∧ p'.loaded = p.loaded ∧
      Parked.Steps (readRules p.loaded) (k.reader pid p) (k.drainEvents pid)
        (k'.reader pid p') ∧ Recorded pid k (k.drainEvents pid) k' := by
  have hring : Processes.ringPa k.processes pid = some p.ringPa := by
    rw [Processes.ringPa, hp, Option.map_some]
  rw [Kernel.drain, hring, Option.bind_eq_bind, Option.bind_some] at hd
  rw [Kernel.drainEvents, hring]
  dsimp only at hd ⊢
  split_ifs at hd ⊢ with hne
  · obtain rfl := Option.some.inj hd
    exact ⟨p, hp, rfl, .refl, .of_suffix List.suffix_rfl⟩
  refine Exists.elim (Kernel.drainFrom_events
    (I := fun es k₁ ↦ ∃ own₁ p₁, Inv strict L own₁ k₁ ∧
      Confined L pid (some pid) p.ringPa own k own₁ k₁ ∧ k₁.processes[pid]? = some p₁ ∧
      p₁.loaded = p.loaded ∧
      Parked.Steps (readRules p.loaded) (k.reader pid p) es (k₁.reader pid p₁) ∧
      Recorded pid k es k₁)
    ?_ ?_ _ ⟨own, p, h, .refl _ _ _ _ _ _, hp, rfl, .refl, .of_suffix List.suffix_rfl⟩ hd)
    fun own₁ hlast ↦ hlast.imp fun p' hrest ↦ hrest.2.2
  · rintro es k₁ k₂ addr ⟨own₁, p₁, h₁, hc₁, hp₁, hl₁, hsteps, hrec⟩ hs
    obtain ⟨q, hq, hring₁⟩ := hc₁.ring hp
    obtain rfl := Option.some.inj (hp₁.symm.trans hq)
    have hr₁ : k₁.roots (some pid) = some k₁.ttbr0 := by rw [hc₁.ttbr0]; exact hc₁.roots hr
    obtain ⟨own₂, h₂, hc₂⟩ := h₁.processSqe hp₁ hring₁ hne hr₁ hs
    obtain ⟨p₂, es₂, hp₂, hl₂, hstep, hrest⟩ := Kernel.sqe_step hp₁ hs
    obtain ⟨rfl, hrec₂⟩ := hrest h₁ (hring₁ ▸ hne) hr₁
    rw [hl₁] at hstep
    exact ⟨own₂, p₂, h₂, hc₁.trans hp hr hc₂, hp₂, hl₂.trans hl₁, hsteps.step hstep,
      hrec.trans hrec₂⟩
  · rintro es k₁ v ⟨own₁, p₁, h₁, hc₁, hp₁, hl₁, hsteps, hrec⟩
    obtain ⟨q, hq, hring₁⟩ := hc₁.ring hp
    obtain rfl := Option.some.inj (hp₁.symm.trans hq)
    obtain ⟨h₂, hc₂⟩ : Inv strict L own₁ (k₁.ringStore p.ringPa offSqHead 4 v) ∧
        Confined L pid (some pid) p.ringPa own₁ k₁ own₁ (k₁.ringStore p.ringPa offSqHead 4 v) :=
      h₁.ringWritten hp₁ hring₁ hne (k₁.ringStore_quiet ..) rfl (k₁.ringStore_eqOn (by decide))
    exact ⟨own₁, p₁, h₂, hc₁.trans hp hr hc₂, hp₁, hl₁, hsteps,
      hrec.and_then (List.suffix_cons _ _)⟩

/-- The loop of `poll_pending` for process `pid`, started in `k`, before slot `i`: it has passed
over the slots before, and the reads in the others are still there. -/
structure Polled (strict : Prop) (L : Layout) (own : Nat → Owner) (k : Kernel) (pid : Nat)
    (p : Process) (i : Nat) (es : List ReadEvent) (k₁ : Kernel) : Prop where
  inv : Inv strict L own k₁ ∧ Confined L pid (some pid) p.ringPa own k own k₁
  recorded : Recorded pid k es k₁
  entry : ∃ p₁, k₁.processes[pid]? = some p₁ ∧ p₁.loaded = p.loaded ∧
    (∀ j : Fin maxPending, i ≤ j.val → getElem p₁.pending j j.isLt = getElem p.pending j j.isLt) ∧
    Parked.Scan (readRules p.loaded) (k.reader pid p) i es (k₁.reader pid p₁)

section Polled

variable {es : List ReadEvent} {k₁ k₂ : Kernel} {i : Fin maxPending} {r : Pending}

theorem Polled.free (h : Polled strict L own k pid p i es k₁)
    (hslot : getElem p.pending i i.isLt = none) : Polled strict L own k pid p (i + 1) es k₁ := by
  obtain ⟨hinv, hrec, p₁, hp₁, hl₁, hrest, hscan⟩ := h
  refine ⟨hinv, hrec, p₁, hp₁, hl₁, fun j hj ↦ hrest j (by omega), ?_⟩
  rw [← List.append_nil es]
  exact hscan.visit (.free ((hrest i le_rfl).trans hslot))

variable (hp : k.processes[pid]? = some p) (hr : k.roots (some pid) = some k.ttbr0)
  (hfg : Processes.foregroundPid k.processes = some pid)
  (hslot : getElem p.pending i i.isLt = some r) (hacc : (readRules p.loaded).accepts r)
include hp hr hfg hslot hacc

theorem Polled.starve (h : Polled strict L own k pid p i es k₁)
    (hd : k₁.drainInput pid r.buf r.len = some (0, k₂)) :
    Polled strict L own k pid p (i + 1) es k₂ := by
  obtain ⟨hinv, hrec, p₁, hp₁, hl₁, hrest, hscan⟩ := h
  have hinv₂ := Inv.pollDeliver hp hr hfg hinv hd
  have hps : k₂.processes = k₁.processes := (Kernel.drainInput_delivered hd).quiet.processes
  have hfg₁ : Processes.foregroundPid k₁.processes = some pid := by
    rw [hinv.2.foregroundPid, hfg]
  obtain ⟨bytes, lost, hcount, hmoved, -⟩ := Kernel.drainInput_moved hd
  obtain rfl := List.eq_nil_of_length_eq_zero hcount.symm
  refine ⟨hinv₂, hrec.congr (Kernel.drainInput_delivered hd).trace, p₁, by rw [hps, hp₁], hl₁,
    fun j hj ↦ hrest j (by omega), ?_⟩
  have hstarved := hmoved.starves hp₁ (hl₁ ▸ hacc)
  rw [hl₁] at hstarved
  have hreader : k₂.reader pid p₁ = ⟨k₂.input.contents, p₁.pending⟩ := by
    rw [Kernel.reader, hps, if_pos hfg₁]
  rw [← List.append_nil es, hreader]
  refine hscan.visit (.starve ((hrest i le_rfl).trans hslot) ?_)
  rw [Kernel.reader, if_pos hfg₁]
  exact hstarved

theorem Polled.fill (hne : p.ringPa ≠ 0) (h : Polled strict L own k pid p i es k₁) {count : Nat}
    (hpos : 0 < count) (hd : k₁.drainInput pid r.buf r.len = some (count, k₂)) :
    Polled strict L own k pid p (i + 1) (es ++ [.done (some i) r.len
        ((k₂.readUser r.buf count).getD [])
        ⟨r.userData, k₂.completionsSince (k₂.complete p.ringPa r.userData count none)⟩])
      { k₂.complete p.ringPa r.userData count none with
        processes := Processes.clearPending k₂.processes pid i } := by
  obtain ⟨hinv, hrec, p₁, hp₁, hl₁, hrest, hscan⟩ := h
  have hinv₃ := Inv.pollComplete hp hne hr (Inv.pollDeliver hp hr hfg hinv hd) r.userData count i
  have hps : k₂.processes = k₁.processes := (Kernel.drainInput_delivered hd).quiet.processes
  have hfg₁ : Processes.foregroundPid k₁.processes = some pid := by
    rw [hinv.2.foregroundPid, hfg]
  have hr₁ : k₁.roots (some pid) = some k₁.ttbr0 := by
    rw [hinv.2.ttbr0]
    exact hinv.2.roots hr
  obtain ⟨bytes, lost, rfl, hmoved, hread⟩ := Kernel.drainInput_moved hd
  obtain ⟨k₃, hk₃⟩ : ∃ k₃ : Kernel, k₃ = { k₂.complete p.ringPa r.userData bytes.length none with
    processes := Processes.clearPending k₂.processes pid i } := ⟨_, rfl⟩
  have hring₁ : p₁.ringPa = p.ringPa := by
    obtain ⟨q, hq, hring⟩ := hinv.2.ring hp
    rw [Option.some.inj (hp₁.symm.trans hq), hring]
  have howner : k₂.ringOwner p.ringPa = some pid := by
    rw [Kernel.ringOwner_congr hps, ← hring₁]
    exact hinv.1.ringOwner_eq hp₁ (hring₁ ▸ hne)
  have hrec₃ : Recorded pid k₂ [.done (some i) r.len bytes
      ⟨r.userData, k₂.completionsSince (k₂.complete p.ringPa r.userData bytes.length none)⟩] k₃ :=
    (Recorded.done bytes (some i) r.len rfl howner hacc.2.2 hmoved.length_lt).congr (by rw [hk₃])
  rw [← hk₃] at hinv₃ ⊢
  have hp₃ : k₃.processes[pid]? = some { p₁ with pending := p₁.pending.set i none } := by
    rw [hk₃]
    dsimp only
    rw [Processes.clearPending, List.getElem?_modify, hps, hp₁]
    exact congrArg some (if_pos rfl)
  rw [hread hinv.1 hr₁]
  refine ⟨hinv₃, (hrec.congr (Kernel.drainInput_delivered hd).trace).trans hrec₃, _, hp₃, hl₁,
    fun j hj ↦ ?_, ?_⟩
  · show (p₁.pending.set i none)[j] = p.pending[j]
    rw [Parked.getElem_set_fin, if_neg (fun hij ↦ by subst hij; omega)]
    exact hrest j (by omega)
  · have hfilled := hmoved.filled hp₁ (hl₁ ▸ hacc) (List.length_pos_iff.mp hpos)
    rw [hl₁] at hfilled
    have hreader : k₃.reader pid { p₁ with pending := p₁.pending.set i none } =
        ⟨k₂.input.contents, p₁.pending.set i none⟩ := by
      rw [Kernel.reader, hinv₃.2.foregroundPid, if_pos hfg, hk₃]
      dsimp only
      rw [k₂.complete_input]
    rw [hreader]
    refine hscan.visit (.fill rfl ((hrest i le_rfl).trans hslot) ?_)
    rw [Kernel.reader, if_pos hfg₁]
    exact hfilled

end Polled

/-- **Going through the parked reads is a pass over the table**, and what they are answered is
logged. -/
theorem Inv.poll_scan (h : Inv strict L own k) (hp : k.processes[pid]? = some p)
    (hne : p.ringPa ≠ 0) (hr : k.roots (some pid) = some k.ttbr0)
    (hfg : Processes.foregroundPid k.processes = some pid)
    (hacc : ∀ (i : Fin maxPending) (r : Pending), getElem p.pending i i.isLt = some r →
      (readRules p.loaded).accepts r) {b b' : Bool}
    (hloop : Kernel.pollPendingFrom pid p.ringPa p.pending maxPending k b = some (b', k')) :
    ∃ p', k'.processes[pid]? = some p' ∧ p'.loaded = p.loaded ∧
      Parked.Scan (readRules p.loaded) (k.reader pid p) maxPending
        (Kernel.pollFromEvents pid p.ringPa p.pending maxPending k) (k'.reader pid p') ∧
      Recorded pid k (Kernel.pollFromEvents pid p.ringPa p.pending maxPending k) k' := by
  have hstart : Polled strict L own k pid p (maxPending - maxPending) [] k :=
    ⟨⟨h, .refl _ _ _ _ _ _⟩, .of_suffix List.suffix_rfl, p, hp, rfl, fun _ _ ↦ rfl, .refl⟩
  obtain ⟨-, hrec, p', hp', hl, -, hscan⟩ := Kernel.pollFrom_events
    (fun i es k₁ hslot hI ↦ Polled.free hI hslot)
    (fun i es k₁ k₂ r hslot hd hI ↦ hI.starve hp hr hfg hslot (hacc i r hslot) hd)
    (fun i es k₁ k₂ r count hslot hpos hd hI ↦
      hI.fill hp hr hfg hslot (hacc i r hslot) hne hpos hd) maxPending le_rfl hstart hloop
  exact ⟨p', hp', hl, hscan, hrec⟩

/-- Where everything is mapped, the loop of `poll_pending` runs through. -/
theorem Inv.pollPendingFrom_isSome (hp : k.processes[pid]? = some p) (hne : p.ringPa ≠ 0)
    (hr : k.roots (some pid) = some k.ttbr0)
    (hfg : Processes.foregroundPid k.processes = some pid)
    {pending : Vector (Option Pending) maxPending} :
    ∀ (n : Nat) {k₁ : Kernel} (b : Bool), n ≤ maxPending →
      Inv strict L own k₁ ∧ Confined L pid (some pid) p.ringPa own k own k₁ → k₁.Backed pid →
      ∃ b' k', Kernel.pollPendingFrom pid p.ringPa pending n k₁ b = some (b', k')
  | 0, k₁, b, _, _, _ => ⟨b, k₁, rfl⟩
  | n + 1, k₁, b, hn, hI, hb => by
    have hlt : maxPending - (n + 1) < maxPending := by omega
    rw [Kernel.pollPendingFrom, dif_pos hlt]
    cases hslot : pending[maxPending - (n + 1)] with
    | none => exact Inv.pollPendingFrom_isSome hp hne hr hfg n b (by omega) hI hb
    | some r =>
      obtain ⟨p₁, hp₁, -⟩ := hI.2.ring hp
      have hr₁ : k₁.roots (some pid) = some k₁.ttbr0 := by rw [hI.2.ttbr0]; exact hI.2.roots hr
      obtain ⟨count, k₂, hd, hb₂⟩ := Inv.drainInputFrom_isSome hp₁ r.len 0 rfl hI.1 hr₁ hb
      have hI₂ := Inv.pollDeliver hp hr hfg hI hd
      dsimp only
      rw [show k₁.drainInput pid r.buf r.len = some (count, k₂) from hd, Option.bind_eq_bind,
        Option.bind_some]
      dsimp only
      split_ifs with hpos
      · obtain ⟨p₂, hp₂, hring₂⟩ := hI₂.2.ring hp
        have hr₂ : k₂.roots (some pid) = some k₂.ttbr0 := by rw [hI₂.2.ttbr0]; exact hI₂.2.roots hr
        have hI₃ := Inv.pollComplete hp hne hr hI₂ r.userData count ⟨_, hlt⟩
        have hf := ((hI₂.1.proc hp₂).ring (hring₂ ▸ hne)).1
        rw [hring₂] at hf
        rw [(k₂.complete_quiet ..).processes]
        refine Inv.pollPendingFrom_isSome hp hne hr hfg n true (by omega) hI₃ ?_
        refine hI₂.1.backed_write hp₂ hr₂ hb₂ hf (k₂.complete_eqOn ..) ?_ fun x ↦ ?_
        · exact (k₂.complete_quiet ..).ttbr0
        · rw [hI₃.2.isUserRange hp, hI₂.2.isUserRange hp]
      · exact Inv.pollPendingFrom_isSome hp hne hr hfg n b (by omega) hI₂ hb₂

end Loops

end Jatuli

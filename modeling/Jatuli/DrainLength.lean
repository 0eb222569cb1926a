import Jatuli.Progress
import Jatuli.Trace

/-!
# How long a drain takes

`drain` runs with interrupts masked and consumes entries until its head meets the tail it has read
from the ring page.  Both indices are the user's to write, so the number of entries it carries out
is the modular distance between them, whatever that is: it stays within the ring exactly when the
page claims no more entries than there are (`drain_bounded_iff`), and nothing checks that it does
(`hostile_drain`).
-/

set_option autoImplicit false

namespace Jatuli

namespace Kernel

/-- How many entries the ring page at `ringPa` claims to hold. -/
def published (k : Kernel) (ringPa : Nat) : Nat :=
  (sqTail k.mem ringPa - sqHead k.mem ringPa).toNat

/-- The calls of `process_sqe` in the loop of `drain`; the last of them may be one that panics. -/
def drainCallsFrom (pid ringPa : Nat) (tail : BitVec 32) : Nat → Kernel → BitVec 32 → Nat
  | 0, _, _ => 0
  | n + 1, k, head =>
    if head = tail then 0
    else match k.processSqe pid (sqeAddr ringPa (slot head)) with
      | none => 1
      | some k =>
        drainCallsFrom pid ringPa tail n (k.ringStore ringPa offSqHead 4 (head + 1).toNat)
          (head + 1) + 1

/-- The number of times `drain` calls `process_sqe`, whether it returns or not. -/
def drainCalls (k : Kernel) (pid : Nat) : Nat :=
  match Processes.ringPa k.processes pid with
  | none => 0
  | some ringPa =>
    if ringPa = 0 then 0
    else drainCallsFrom pid ringPa (sqTail k.mem ringPa) (k.published ringPa) k
      (sqHead k.mem ringPa)

section Loop

variable {k k' : Kernel} {pid ringPa n : Nat} {head tail : BitVec 32}

/-- While there is a distance to go, the loop goes on, and the distance gets smaller. -/
theorem distance_succ (h : (tail - head).toNat = n + 1) :
    head ≠ tail ∧ (tail - (head + 1)).toNat = n := by
  refine ⟨?_, ?_⟩
  · rintro rfl
    rw [BitVec.sub_self] at h
    cases h
  · bv_omega

/-- The loop stops early only by a panic: it makes more than `c` calls exactly when the distance is
longer than that and it survives the first `c` of them. -/
theorem drainCallsFrom_le_iff (h : (tail - head).toNat = n) (c : Nat) :
    drainCallsFrom pid ringPa tail n k head ≤ c ↔
      n ≤ c ∨ drainFrom pid ringPa tail c k head = none := by
  induction n generalizing k head c with
  | zero => simp [drainCallsFrom]
  | succ n ih =>
    obtain ⟨hne, hn⟩ := distance_succ h
    rw [drainCallsFrom, if_neg hne]
    cases c with
    | zero =>
      cases k.processSqe pid (sqeAddr ringPa (slot head)) <;> simp [drainFrom]
    | succ c =>
      rw [drainFrom, if_neg hne]
      cases k.processSqe pid (sqeAddr ringPa (slot head)) with
      | none => simp
      | some k₁ =>
        simp only [Nat.add_le_add_iff_right, Option.bind_eq_bind, Option.bind_some]
        exact ih hn c

/-- One that comes to its end has made as many calls as there was distance. -/
theorem drainCallsFrom_of_drainFrom (h : (tail - head).toNat = n)
    (hd : drainFrom pid ringPa tail n k head = some k') :
    drainCallsFrom pid ringPa tail n k head = n := by
  induction n generalizing k head with
  | zero => rfl
  | succ n ih =>
    obtain ⟨hne, hn⟩ := distance_succ h
    rw [drainFrom, if_neg hne] at hd
    obtain ⟨k₁, hk₁, hd⟩ := Option.bind_eq_some_iff.mp hd
    rw [drainCallsFrom, if_neg hne]
    simp only [hk₁]
    rw [ih hn hd]

end Loop

theorem drainCalls_le_iff (k : Kernel) {pid ringPa : Nat}
    (hring : Processes.ringPa k.processes pid = some ringPa) (hne : ringPa ≠ 0) (c : Nat) :
    k.drainCalls pid ≤ c ↔ k.published ringPa ≤ c ∨
      drainFrom pid ringPa (sqTail k.mem ringPa) c k (sqHead k.mem ringPa) = none := by
  simp only [drainCalls, hring]
  rw [if_neg hne]
  exact drainCallsFrom_le_iff rfl c

theorem drainCalls_of_drain {k k' : Kernel} {pid ringPa : Nat}
    (hring : Processes.ringPa k.processes pid = some ringPa) (hne : ringPa ≠ 0)
    (hd : k.drain pid = some k') : k.drainCalls pid = k.published ringPa := by
  simp only [drain, hring, Option.bind_eq_bind, Option.bind_some] at hd
  rw [if_neg hne] at hd
  simp only [drainCalls, hring]
  rw [if_neg hne]
  exact drainCallsFrom_of_drainFrom rfl hd

/-! ## The calls are the entries taken up -/

/-- The number of entries that have been taken up, by any `drain`. -/
def taken (k : Kernel) : Nat := k.trace.countP fun e ↦ match e with
  | .sqe .. => true
  | _ => false

section Taken

variable {k k' : Kernel} {pid ringPa n : Nat} {head tail : BitVec 32}

theorem taken_of_trace (h : k'.trace = k.trace) : k'.taken = k.taken := by
  rw [taken, taken, h]

theorem taken_complete (k : Kernel) (ringPa tag : Nat) (result : Int) (child : Option Nat) :
    (k.complete ringPa tag result child).taken = k.taken := by
  rcases k.complete_cases ringPa tag result child with ⟨-, -, ht⟩ | ⟨-, -, ht⟩
  · simp [taken, ht]
  · simp [taken, ht]

/-- Carrying out an entry does not take up another one. -/
theorem taken_outcome {tag : Nat} {child : Option Nat} (h : SqeOutcome pid ringPa tag child k k') :
    k'.taken = k.taken := by
  cases h with
  | completed result hchild hd hin => exact (taken_complete ..).trans (taken_of_trace hd.trace)
  | parked hchild hd hin hq hi htag => exact taken_of_trace hd.trace
  | answered hchild hq hparent hexit => exact taken_complete ..
  | waiting hchild hq hparent hexit => exact taken_of_trace rfl
  | spawned hchild himage hroot hspace => exact (taken_complete ..).trans (taken_of_trace rfl)

theorem taken_processSqe {addr : Nat} (h : k.processSqe pid addr = some k') :
    k'.taken = k.taken + 1 := by
  obtain ⟨ringPa, child, -, ho⟩ := processSqe_cases h
  rw [taken_outcome ho]
  simp [taken, log]

/-- A loop that comes to its end has taken up one entry a call. -/
theorem taken_drainFrom (h : drainFrom pid ringPa tail n k head = some k') :
    k'.taken = k.taken + drainCallsFrom pid ringPa tail n k head := by
  induction n generalizing k head with
  | zero =>
    obtain rfl := Option.some.inj h
    rfl
  | succ n ih =>
    rw [drainFrom] at h
    rw [drainCallsFrom]
    split_ifs at h ⊢
    · obtain rfl := Option.some.inj h
      rfl
    · obtain ⟨k₁, hk₁, h⟩ := Option.bind_eq_some_iff.mp h
      have hstore : (k₁.ringStore ringPa offSqHead 4 (head + 1).toNat).taken = k₁.taken := by
        simp [taken, ringStore, log, setMem]
      simp only [hk₁]
      rw [ih h, hstore, taken_processSqe hk₁]
      omega

/-- What `drainCalls` counts: the entries a `drain` that returns has taken up. -/
theorem taken_drain (h : k.drain pid = some k') : k'.taken = k.taken + k.drainCalls pid := by
  rw [drain] at h
  obtain ⟨ringPa, hring, h⟩ := Option.bind_eq_some_iff.mp h
  simp only [drainCalls, hring]
  split_ifs at h ⊢
  · obtain rfl := Option.some.inj h
    rfl
  · exact taken_drainFrom h

end Taken

/-! ## No-ops -/

/-- A ring full of no-ops can be drained for as long as one likes. -/
theorem drainFrom_nops {k : Kernel} {pid ringPa : Nat} (n : Nat) (tail head : BitVec 32)
    (hring : Processes.ringPa k.processes pid = some ringPa) (hnops : Nops k.mem ringPa) :
    ∃ k', drainFrom pid ringPa tail n k head = some k' := by
  induction n generalizing k head with
  | zero => exact ⟨k, rfl⟩
  | succ n ih =>
    rw [drainFrom]
    split_ifs
    · exact ⟨k, rfl⟩
    rw [processSqe_nop hring (hnops _ (slot_lt head)), Option.bind_eq_bind, Option.bind_some]
    refine ih _ ?_ fun i hi ↦ ?_
    · rw [(ringStore_quiet ..).processes, (complete_quiet ..).processes]
      exact hring
    · have haddr : sqeAddr ringPa i = ringPa + (offSq + 32 * i) := Nat.add_assoc ..
      have hoff : offSqHead + 4 ≤ offSq + 32 * i ∧ offFlags ≤ offSq + 32 * i ∧
          offSq + 32 * i + 8 ≤ offCq := by
        rw [offSqHead, offFlags, offSq, offCq]
        omega
      rw [haddr, ringStore_mem, Mem.load_store_disjoint (.inr (by omega)),
        complete_load _ _ _ _ _ (.inr hoff.2), ← haddr]
      exact hnops i hi

end Kernel

/-- **A drain is as long as the ring page says.**  One that returns has carried out at most as many
entries as the ring has exactly when the page claimed no more of them.  One that panics has done so
also when it was over one of the first sixteen. -/
theorem drain_bounded_iff {k : Kernel} {pid ringPa : Nat}
    (hring : Processes.ringPa k.processes pid = some ringPa) (hne : ringPa ≠ 0) :
    (∀ k', k.drain pid = some k' →
      (k.drainCalls pid ≤ ringEntries.toNat ↔ k.published ringPa ≤ ringEntries.toNat)) ∧
    (k.drain pid = none →
      (k.drainCalls pid ≤ ringEntries.toNat ↔ k.published ringPa ≤ ringEntries.toNat ∨
        Kernel.drainFrom pid ringPa (sqTail k.mem ringPa) ringEntries.toNat k
          (sqHead k.mem ringPa) = none)) := by
  refine ⟨fun k' hd ↦ ?_, fun _ ↦ k.drainCalls_le_iff hring hne _⟩
  rw [Kernel.drainCalls_of_drain hring hne hd]

/-- One entry is published and carried out. -/
theorem short_drain : ∃ (k k' : Kernel) (ringPa : Nat),
    Processes.ringPa k.processes 0 = some ringPa ∧ k.drain 0 = some k' ∧
    k.published ringPa = 1 ∧ k'.taken = k.taken + 1 ∧ k.drainCalls 0 ≤ 16 := by
  obtain ⟨L, own, k, p, h, hp, -, -, hne, hhead, htail, hop⟩ := exists_published 1
  have hring : Processes.ringPa k.processes 0 = some p.ringPa := by
    rw [Processes.ringPa, hp, Option.map_some]
  have hpub : k.published p.ringPa = 1 := by
    rw [Kernel.published, hhead, htail]
    rfl
  have hd := k.drain_nop hring hne (by rw [htail, hhead]; rfl)
    (by rw [hhead]; exact hop 0 (by decide))
  refine ⟨k, _, p.ringPa, hring, hd, hpub, ?_,
    ((drain_bounded_iff hring hne).1 _ hd).mpr (by rw [hpub]; decide)⟩
  rw [Kernel.taken_drain hd, Kernel.drainCalls_of_drain hring hne hd, hpub]

/-- A process that moves its tail by seventeen makes one drain carry out seventeen entries. -/
theorem hostile_drain : ∃ L own k p k', Inv True L own k ∧ k.processes[0]? = some p ∧
    p.live = true ∧ k.ttbr0 = p.ttbr0 ∧ k.drain 0 = some k' ∧ k'.taken = k.taken + 17 ∧
    ¬ k.drainCalls 0 ≤ ringEntries.toNat := by
  obtain ⟨L, own, k, p, h, hp, hl, hroot, hne, hhead, htail, hnops⟩ := exists_published 17
  have hring : Processes.ringPa k.processes 0 = some p.ringPa := by
    rw [Processes.ringPa, hp, Option.map_some]
  have hdist : k.published p.ringPa = 17 := by
    rw [Kernel.published, hhead, htail]
    rfl
  obtain ⟨k', hk'⟩ : ∃ k', k.drain 0 = some k' := by
    simp only [Kernel.drain, hring, Option.bind_eq_bind, Option.bind_some]
    rw [if_neg hne]
    exact Kernel.drainFrom_nops _ _ _ hring hnops
  have hcalls : k.drainCalls 0 = 17 := (Kernel.drainCalls_of_drain hring hne hk').trans hdist
  refine ⟨L, own, k, p, k', h, hp, hl, hroot, hk', ?_, ?_⟩
  · rw [Kernel.taken_drain hk', hcalls]
  · rw [hcalls]
    decide

end Jatuli

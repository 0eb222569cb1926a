import Jatuli.Effects

/-!
# Entries of a submission queue

What a process does to submit, seen from the memory of its ring page: it writes an entry into the
slot at the tail and moves the tail (`submitted`).  Draining the ring afterwards carries out that
entry (`Kernel.drain_one`).  A page of zeros is full of no-ops, so that moving the tail is enough to
submit some.
-/

set_option autoImplicit false

namespace Jatuli

/-! ## Entries in memory -/

/-- Memory once an entry has been written at `a`. -/
def writeSqe (m : Mem) (a op arg0 arg1 tag : Nat) : Mem :=
  (((m.store a 8 op).store (a + 8) 8 arg0).store (a + 16) 8 arg1).store (a + 24) 8 tag

/-- Memory once an entry has been submitted: it is written at the tail, and the tail moved on. -/
def submitted (m : Mem) (ringPa op arg0 arg1 tag : Nat) : Mem :=
  (writeSqe m (sqeAddr ringPa (slot (sqTail m ringPa))) op arg0 arg1 tag).store
    (ringPa + offSqTail) 4 (sqTail m ringPa + 1).toNat

section Memory

variable (m : Mem) (ringPa op arg0 arg1 tag : Nat)

theorem sqTail_store (m : Mem) (ringPa : Nat) (t : BitVec 32) :
    sqTail (m.store (ringPa + offSqTail) 4 t.toNat) ringPa = t := by
  rw [sqTail, Mem.load_store_of_lt _ (by have := t.isLt; omega), BitVec.ofNat_toNat,
    BitVec.setWidth_eq]

theorem sqHead_store (m : Mem) (ringPa : Nat) (t : BitVec 32) :
    sqHead (m.store (ringPa + offSqHead) 4 t.toNat) ringPa = t := by
  rw [sqHead, Mem.load_store_of_lt _ (by have := t.isLt; omega), BitVec.ofNat_toNat,
    BitVec.setWidth_eq]

theorem sqTail_store_sqHead (m : Mem) (ringPa v : Nat) :
    sqTail (m.store (ringPa + offSqHead) 4 v) ringPa = sqTail m ringPa := by
  rw [sqTail, Mem.load_store_disjoint (by rw [offSqTail, offSqHead]; omega)]
  rfl

theorem sqHead_store_flags (m : Mem) (ringPa v : Nat) :
    sqHead (m.store (ringPa + offFlags) 4 v) ringPa = sqHead m ringPa := by
  rw [sqHead, Mem.load_store_disjoint (by rw [offSqHead, offFlags]; omega)]
  rfl

theorem sqTail_store_flags (m : Mem) (ringPa v : Nat) :
    sqTail (m.store (ringPa + offFlags) 4 v) ringPa = sqTail m ringPa := by
  rw [sqTail, Mem.load_store_disjoint (by rw [offSqTail, offFlags]; omega)]
  rfl

/-- On a page of zeros the submission queue is at its beginning. -/
theorem sqHead_of_zero {m : Mem} {f : Nat} (h : ∀ x ∈ frameAt f, m x = 0) : sqHead m f = 0 :=
  congrArg (BitVec.ofNat 32) (load_of_zero_frame h (by decide))

theorem sqTail_of_zero {m : Mem} {f : Nat} (h : ∀ x ∈ frameAt f, m x = 0) : sqTail m f = 0 :=
  congrArg (BitVec.ofNat 32) (load_of_zero_frame h (by decide))

theorem writeSqe_load {a b n : Nat} (h : b + n ≤ a ∨ a + 32 ≤ b) :
    (writeSqe m a op arg0 arg1 tag).load b n = m.load b n := by
  rw [writeSqe, Mem.load_store_disjoint (by omega), Mem.load_store_disjoint (by omega),
    Mem.load_store_disjoint (by omega), Mem.load_store_disjoint (by omega)]

/-- What a submission leaves alone in the ring page. -/
theorem submitted_load {off n : Nat} (h : off + n ≤ offSqTail ∨ offCqHead ≤ off ∧ off + n ≤ offSq ∨
    offCq ≤ off) :
    (submitted m ringPa op arg0 arg1 tag).load (ringPa + off) n = m.load (ringPa + off) n := by
  have hslot := slot_lt (sqTail m ringPa)
  rw [offSqTail, offCqHead, offSq, offCq] at h
  rw [submitted, Mem.load_store_disjoint (by rw [offSqTail]; omega), writeSqe_load]
  rw [sqeAddr, offSq]
  omega

/-- Nothing but the ring page is written. -/
theorem submitted_eqOn :
    Set.EqOn (submitted m ringPa op arg0 arg1 tag) m (frameAt ringPa)ᶜ := by
  have hslot := slot_lt (sqTail m ringPa)
  have hstore : ∀ {m : Mem} {a n v : Nat}, ringPa ≤ a → a + n ≤ ringPa + 4096 →
      Set.EqOn (m.store a n v) m (frameAt ringPa)ᶜ := Mem.store_eqOn
  rw [submitted, writeSqe, sqeAddr, offSq, offSqTail]
  refine (hstore (by omega) (by omega)).trans ((hstore (by omega) (by omega)).trans
    ((hstore (by omega) (by omega)).trans ((hstore (by omega) (by omega)).trans
      (hstore (by omega) (by omega)))))

theorem submitted_sqTail :
    sqTail (submitted m ringPa op arg0 arg1 tag) ringPa = sqTail m ringPa + 1 :=
  sqTail_store ..

theorem submitted_sqHead :
    sqHead (submitted m ringPa op arg0 arg1 tag) ringPa = sqHead m ringPa := by
  rw [sqHead, submitted_load m ringPa op arg0 arg1 tag (by decide)]
  rfl

/-- The fields of the entry read back. -/
theorem submitted_entry (hop : op < 2 ^ 64) (h0 : arg0 < 2 ^ 64) (h1 : arg1 < 2 ^ 64)
    (htag : tag < 2 ^ 64) {a : Nat} (ha : a = sqeAddr ringPa (slot (sqTail m ringPa))) :
    (submitted m ringPa op arg0 arg1 tag).load a 8 = op ∧
    (submitted m ringPa op arg0 arg1 tag).load (a + 8) 8 = arg0 ∧
    (submitted m ringPa op arg0 arg1 tag).load (a + 16) 8 = arg1 ∧
    (submitted m ringPa op arg0 arg1 tag).load (a + 24) 8 = tag := by
  have hfield : ∀ {b : Nat}, a ≤ b → (submitted m ringPa op arg0 arg1 tag).load b 8 =
      (writeSqe m a op arg0 arg1 tag).load b 8 := by
    intro b hb
    rw [submitted, ← ha, Mem.load_store_disjoint]
    rw [sqeAddr, offSq] at ha
    rw [offSqTail]
    omega
  rw [hfield le_rfl, hfield (by omega), hfield (by omega), hfield (by omega), writeSqe]
  refine ⟨?_, ?_, ?_, ?_⟩
  · rw [Mem.load_store_disjoint (by omega), Mem.load_store_disjoint (by omega),
      Mem.load_store_disjoint (by omega), Mem.load_store_of_lt _ hop]
  · rw [Mem.load_store_disjoint (by omega), Mem.load_store_disjoint (by omega),
      Mem.load_store_of_lt _ h0]
  · rw [Mem.load_store_disjoint (by omega), Mem.load_store_of_lt _ h1]
  · rw [Mem.load_store_of_lt _ htag]

/-- One entry is published and not yet taken up, with these fields. -/
structure OneEntry (m : Mem) (ringPa op arg0 arg1 tag : Nat) : Prop where
  tail : sqTail m ringPa = sqHead m ringPa + 1
  opcode : m.load (sqeAddr ringPa (slot (sqHead m ringPa))) 8 = op
  arg0 : m.load (sqeAddr ringPa (slot (sqHead m ringPa)) + 8) 8 = arg0
  arg1 : m.load (sqeAddr ringPa (slot (sqHead m ringPa)) + 16) 8 = arg1
  tag : m.load (sqeAddr ringPa (slot (sqHead m ringPa)) + 24) 8 = tag

/-- It is when it has been submitted to an empty queue. -/
theorem submitted_oneEntry (hop : op < 2 ^ 64) (h0 : arg0 < 2 ^ 64) (h1 : arg1 < 2 ^ 64)
    (htag : tag < 2 ^ 64) (hempty : sqHead m ringPa = sqTail m ringPa) :
    OneEntry (submitted m ringPa op arg0 arg1 tag) ringPa op arg0 arg1 tag := by
  obtain ⟨hop, h0, h1, htag⟩ := submitted_entry m ringPa op arg0 arg1 tag hop h0 h1 htag
    (a := sqeAddr ringPa (slot (sqHead m ringPa))) (by rw [hempty])
  exact ⟨by rw [submitted_sqTail, submitted_sqHead, hempty], by rwa [submitted_sqHead],
    by rwa [submitted_sqHead], by rwa [submitted_sqHead], by rwa [submitted_sqHead]⟩

end Memory

/-- All submission entries of the ring are no-ops. -/
def Nops (m : Mem) (ringPa : Nat) : Prop := ∀ i < 16, m.load (sqeAddr ringPa i) 8 = opNop

/-- On a page of zeros, moving the tail publishes no-ops. -/
theorem publish_nops {m : Mem} {f : Nat} (h : ∀ x ∈ frameAt f, m x = 0) (n : BitVec 32) :
    sqHead (m.store (f + offSqTail) 4 n.toNat) f = 0 ∧
      sqTail (m.store (f + offSqTail) 4 n.toNat) f = n ∧
      Nops (m.store (f + offSqTail) 4 n.toNat) f ∧
      flags (m.store (f + offSqTail) 4 n.toNat) f = 0 := by
  have hzero : ∀ {off k}, (off + k ≤ offSqTail ∨ offSqTail + 4 ≤ off) → off + k ≤ 4096 →
      (m.store (f + offSqTail) 4 n.toNat).load (f + off) k = 0 := by
    intro off k hoff hle
    rw [Mem.load_store_disjoint (by omega)]
    exact load_of_zero_frame h hle
  refine ⟨?_, ?_, ?_, ?_⟩
  · rw [sqHead, hzero (by decide) (by decide)]
    rfl
  · rw [sqTail, Mem.load_store_of_lt _ (by have := n.isLt; omega), BitVec.ofNat_toNat,
      BitVec.setWidth_eq]
  · intro i hi
    rw [sqeAddr, Nat.add_assoc, hzero (.inr ?_) ?_]
    · rfl
    · rw [offSqTail, offSq]
      omega
    · rw [offSq]
      omega
  · rw [flags, hzero (by decide) (by decide)]

/-! ## Draining what was submitted -/

namespace Kernel

/-- With one entry published, `drain` carries out that one. -/
theorem drain_one {k : Kernel} {pid ringPa : Nat}
    (hring : Processes.ringPa k.processes pid = some ringPa) (hne : ringPa ≠ 0)
    (htail : sqTail k.mem ringPa = sqHead k.mem ringPa + 1) :
    k.drain pid = (k.processSqe pid (sqeAddr ringPa (slot (sqHead k.mem ringPa)))).map
      fun k₁ ↦ k₁.ringStore ringPa offSqHead 4 (sqHead k.mem ringPa + 1).toNat := by
  have hn : (sqHead k.mem ringPa + 1 - sqHead k.mem ringPa).toNat = 1 := by bv_omega
  have hdiff : sqHead k.mem ringPa ≠ sqHead k.mem ringPa + 1 := by bv_omega
  rw [drain, hring, Option.bind_eq_bind, Option.bind_some, if_neg hne]
  dsimp only
  rw [htail, hn, drainFrom, if_neg hdiff]
  cases k.processSqe pid (sqeAddr ringPa (slot (sqHead k.mem ringPa))) with
  | none => rfl
  | some k₁ => rfl

/-- A no-op is carried out by completing it. -/
theorem processSqe_nop {k : Kernel} {pid ringPa addr : Nat}
    (hring : Processes.ringPa k.processes pid = some ringPa)
    (hop : k.mem.load addr 8 = opNop) :
    k.processSqe pid addr =
      some ((k.log (.sqe pid (k.mem.load (addr + 24) 8) k.ttbr0 none)).complete
      ringPa (k.mem.load (addr + 24) 8) 0 none) := by
  have hwaits : ∀ a, k.waitsFor pid opNop a = none := fun a ↦ if_neg fun hw ↦ by
    have := hw.1
    cases this
  rw [processSqe, hring]
  simp only [Option.bind_eq_bind, Option.bind_some, hop, hwaits, if_true]

/-- A no-op is taken up by completing it. -/
theorem drain_nop {k : Kernel} {pid ringPa : Nat}
    (hring : Processes.ringPa k.processes pid = some ringPa) (hne : ringPa ≠ 0)
    (htail : sqTail k.mem ringPa = sqHead k.mem ringPa + 1)
    (hop : k.mem.load (sqeAddr ringPa (slot (sqHead k.mem ringPa))) 8 = opNop) :
    k.drain pid = some (((k.log (.sqe pid
        (k.mem.load (sqeAddr ringPa (slot (sqHead k.mem ringPa)) + 24) 8) k.ttbr0 none)).complete
        ringPa (k.mem.load (sqeAddr ringPa (slot (sqHead k.mem ringPa)) + 24) 8) 0 none).ringStore
      ringPa offSqHead 4 (sqHead k.mem ringPa + 1).toNat) := by
  rw [drain_one hring hne htail, processSqe_nop hring hop, Option.map_some]

end Kernel

end Jatuli

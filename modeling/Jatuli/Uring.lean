import Jatuli.Lib.Spsc
import Jatuli.Lib.Transition
import Jatuli.Effects

/-!
# The two ends of a ring

The process and the kernel share the ring page and nothing else: the process writes submissions and
reaps completions one load or store at a time, in between anything the kernel does; the kernel
consumes submissions and posts completions with interrupts masked.  Here both ends are put together
over the kernel's memory, with a record of what went in and what came out of each of the two queues.

The page is seen through `RingView`, which says for every store of either side which part of the
page it changes.  Each queue then is an instance of `Spsc.Holds`: the free-running indices of the
page are the two indices of the ring, its 16 slots hold what was sent and not yet taken.
-/

set_option autoImplicit false

namespace Jatuli

/-! ## Entries -/

/-- `Sqe` -/
structure Sqe where
  opcode : BitVec 64
  arg0 : BitVec 64
  arg1 : BitVec 64
  userData : BitVec 64
deriving DecidableEq, Repr

/-- `Cqe` -/
structure Cqe where
  userData : BitVec 64
  result : BitVec 64
deriving DecidableEq, Repr

/-- A 64-bit field. -/
def loadWord (m : Mem) (a : Nat) : BitVec 64 := .ofNat 64 (m.load a 8)

/-- The four loads of `process_sqe`. -/
def loadSqe (m : Mem) (a : Nat) : Sqe :=
  ⟨loadWord m a, loadWord m (a + 8), loadWord m (a + 16), loadWord m (a + 24)⟩

/-- The two loads of `reap`. -/
def loadCqe (m : Mem) (a : Nat) : Cqe := ⟨loadWord m a, loadWord m (a + 8)⟩

/-! ## Both ends -/

/-- Where the process stands: in `sqe`, which has loaded `tail`, in a round of the loop of `reap`,
which has loaded `head`, or elsewhere. -/
inductive ClientPc
  | idle
  /-- `sqe`, before the store of each field of the entry. -/
  | opcode (e : Sqe) (tail : BitVec 32)
  | arg0 (e : Sqe) (tail : BitVec 32)
  | arg1 (e : Sqe) (tail : BitVec 32)
  | userData (e : Sqe) (tail : BitVec 32)
  /-- `sqe`, before the store of the tail. -/
  | sqTail (e : Sqe) (tail : BitVec 32)
  /-- `reap`, before the load of the tail. -/
  | cqTail (head : BitVec 32)
  /-- `reap`, before the load of each field of the entry. -/
  | gotUserData (head : BitVec 32)
  | gotResult (head : BitVec 32) (userData : BitVec 64)
  /-- `reap`, before the store of the head. -/
  | cqHead (head : BitVec 32)
deriving DecidableEq, Repr

/-- Where `drain` stands, with the head it has come to and the tail it has read. -/
inductive DrainPc
  | idle
  /-- Before the test of its loop. -/
  | loop (head tail : BitVec 32)
  /-- Past the loads of `process_sqe`, before the store of the head. -/
  | sqHead (head tail : BitVec 32)
deriving DecidableEq, Repr

/-- Both ends of a ring, and what has passed through it. -/
structure Uring where
  k : Kernel
  client : ClientPc
  drain : DrainPc
  /-- The entries passed to `sqe`. -/
  submitted : List Sqe
  /-- The entries `process_sqe` has seen. -/
  seen : List Sqe
  /-- The entries `complete` has posted. -/
  posted : List Cqe
  /-- The entries `reap` has loaded. -/
  reaped : List Cqe

/-- What can happen to a ring. -/
inductive UringAct
  /-- The process calls `sqe`. -/
  | sqe (e : Sqe)
  /-- The process enters a round of the loop of `reap`. -/
  | reap
  /-- The process takes the next step of the call it is in. -/
  | client
  /-- The kernel enters `drain`. -/
  | drain
  /-- The test of its loop and, unless that ends it, the loads of `process_sqe`. -/
  | entry
  /-- The store of the head. -/
  | head
  /-- `complete` -/
  | complete (userData : Nat) (result : Int) (child : Option Nat)
  /-- A store to `flags`. -/
  | flags (v : BitVec 32)
  /-- The kernel or the process does anything that leaves the ring page as it is. -/
  | elsewhere (k : Kernel)

namespace Uring

/-- A user store to the ring page. -/
def store (u : Uring) (a n v : Nat) (client : ClientPc) : Uring :=
  { u with k := u.k.setMem (u.k.mem.store a n v), client }

/-- A step of `sqe` or of `reap`. -/
def clientStep (ringPa : Nat) (u : Uring) : Option Uring :=
  match u.client with
  | .idle => none
  | .opcode e tail =>
    some (u.store (sqeAddr ringPa (slot tail)) 8 e.opcode.toNat (.arg0 e tail))
  | .arg0 e tail =>
    some (u.store (sqeAddr ringPa (slot tail) + 8) 8 e.arg0.toNat (.arg1 e tail))
  | .arg1 e tail =>
    some (u.store (sqeAddr ringPa (slot tail) + 16) 8 e.arg1.toNat (.userData e tail))
  | .userData e tail =>
    some (u.store (sqeAddr ringPa (slot tail) + 24) 8 e.userData.toNat (.sqTail e tail))
  | .sqTail _ tail => some (u.store (ringPa + offSqTail) 4 (tail + 1).toNat .idle)
  | .cqTail head =>
    if head = cqTail u.k.mem ringPa then some { u with client := .idle }
    else some { u with client := .gotUserData head }
  | .gotUserData head =>
    some { u with client := .gotResult head (loadWord u.k.mem (cqeAddr ringPa (slot head))) }
  | .gotResult head userData =>
    some { u with
      client := .cqHead head
      reaped := u.reaped ++ [⟨userData, loadWord u.k.mem (cqeAddr ringPa (slot head) + 8)⟩] }
  | .cqHead head => some (u.store (ringPa + offCqHead) 4 (head + 1).toNat .idle)

/-- Whether `complete` drops the completion. -/
def full (ringPa : Nat) (u : Uring) : Prop :=
  ringEntries ≤ cqTail u.k.mem ringPa - cqHead u.k.mem ringPa

instance (ringPa : Nat) (u : Uring) : Decidable (u.full ringPa) :=
  inferInstanceAs (Decidable (_ ≤ _))

/-- What an action does. -/
def step (ringPa : Nat) (u : Uring) : UringAct → Option Uring
  | .sqe e =>
    if u.client = .idle then
      some { u with
        client := .opcode e (sqTail u.k.mem ringPa)
        submitted := u.submitted ++ [e] }
    else none
  | .reap =>
    if u.client = .idle then some { u with client := .cqTail (cqHead u.k.mem ringPa) } else none
  | .client => u.clientStep ringPa
  | .drain =>
    if u.drain = .idle then
      some { u with drain := .loop (sqHead u.k.mem ringPa) (sqTail u.k.mem ringPa) }
    else none
  | .entry =>
    match u.drain with
    | .loop head tail =>
      if head = tail then some { u with drain := .idle }
      else some { u with
        drain := .sqHead head tail
        seen := u.seen ++ [loadSqe u.k.mem (sqeAddr ringPa (slot head))] }
    | _ => none
  | .head =>
    match u.drain with
    | .sqHead head tail =>
      some { u with
        k := u.k.ringStore ringPa offSqHead 4 (head + 1).toNat
        drain := .loop (head + 1) tail }
    | _ => none
  | .complete userData result child =>
    some { u with
      k := u.k.complete ringPa userData result child
      posted := if u.full ringPa then u.posted
        else u.posted ++ [⟨.ofNat 64 userData, .ofInt 64 result⟩] }
  | .flags v => some { u with k := u.k.ringStore ringPa offFlags 4 v.toNat }
  | .elsewhere k =>
    if ∀ i < frameSize, k.mem (ringPa + i) = u.k.mem (ringPa + i) then some { u with k } else none

end Uring

/-- The ring page at `ringPa` with both queues empty and nobody at work, whatever the indices
are. -/
def uring (ringPa : Nat) : System Uring UringAct where
  init u := u.client = .idle ∧ u.drain = .idle ∧ u.submitted = [] ∧ u.seen = [] ∧
    u.posted = [] ∧ u.reaped = [] ∧ sqHead u.k.mem ringPa = sqTail u.k.mem ringPa ∧
    cqHead u.k.mem ringPa = cqTail u.k.mem ringPa
  step := Uring.step ringPa

/-- Each call of `sqe` finds fewer than `RING_ENTRIES` entries that are not consumed. -/
def Uring.HasRoom (ringPa : Nat) (u : Uring) : UringAct → Prop
  | .sqe _ => sqTail u.k.mem ringPa - sqHead u.k.mem ringPa < ringEntries
  | _ => True

/-! ## The page and the stores to it -/

/-- What a ring page holds. -/
@[ext] structure RingView where
  sqHead : BitVec 32
  sqTail : BitVec 32
  cqHead : BitVec 32
  cqTail : BitVec 32
  sq : Fin 16 → Sqe
  cq : Fin 16 → Cqe

/-- The page at `ringPa`. -/
def ringView (m : Mem) (ringPa : Nat) : RingView where
  sqHead := sqHead m ringPa
  sqTail := sqTail m ringPa
  cqHead := cqHead m ringPa
  cqTail := cqTail m ringPa
  sq i := loadSqe m (sqeAddr ringPa i)
  cq i := loadCqe m (cqeAddr ringPa i)

theorem loadWord_store_same (m : Mem) (a v : Nat) :
    loadWord (m.store a 8 v) a = .ofNat 64 v := by
  rw [loadWord, Mem.load_store_same]
  exact BitVec.eq_of_toNat_eq (by simp)

theorem loadWord_store_word (m : Mem) (a : Nat) (w : BitVec 64) :
    loadWord (m.store a 8 w.toNat) a = w := by
  rw [loadWord_store_same, BitVec.ofNat_toNat, BitVec.setWidth_eq]

theorem loadWord_store_disjoint {m : Mem} {a b n v : Nat} (h : a + 8 ≤ b ∨ b + n ≤ a) :
    loadWord (m.store b n v) a = loadWord m a := by
  rw [loadWord, loadWord, Mem.load_store_disjoint h]

theorem loadSqe_store_disjoint {m : Mem} {a b n v : Nat} (h : a + 32 ≤ b ∨ b + n ≤ a) :
    loadSqe (m.store b n v) a = loadSqe m a := by
  unfold loadSqe
  rw [loadWord_store_disjoint (by omega), loadWord_store_disjoint (by omega),
    loadWord_store_disjoint (by omega), loadWord_store_disjoint (by omega)]

theorem loadCqe_store_disjoint {m : Mem} {a b n v : Nat} (h : a + 16 ≤ b ∨ b + n ≤ a) :
    loadCqe (m.store b n v) a = loadCqe m a := by
  unfold loadCqe
  rw [loadWord_store_disjoint (by omega), loadWord_store_disjoint (by omega)]

/-- The view only depends on the bytes of the page. -/
theorem ringView_congr {m m' : Mem} {ringPa : Nat}
    (h : ∀ i < frameSize, m' (ringPa + i) = m (ringPa + i)) :
    ringView m' ringPa = ringView m ringPa := by
  have hload {o n : Nat} (hlt : o + n ≤ frameSize) :
      m'.load (ringPa + o) n = m.load (ringPa + o) n := by
    refine Mem.load_congr fun i hi ↦ ?_
    rw [Nat.add_assoc]
    exact h (o + i) (by omega)
  have hword {o : Nat} (hlt : o + 8 ≤ frameSize) :
      loadWord m' (ringPa + o) = loadWord m (ringPa + o) := congrArg _ (hload hlt)
  rw [frameSize] at hload hword
  ext : 1
  · exact congrArg (BitVec.ofNat 32) (hload (by decide))
  · exact congrArg (BitVec.ofNat 32) (hload (by decide))
  · exact congrArg (BitVec.ofNat 32) (hload (by decide))
  · exact congrArg (BitVec.ofNat 32) (hload (by decide))
  · funext i
    simp only [ringView, loadSqe, sqeAddr, offSq, Nat.add_assoc]
    rw [hword (by omega), hword (by omega), hword (by omega), hword (by omega)]
  · funext i
    simp only [ringView, loadCqe, cqeAddr, offCq, Nat.add_assoc]
    rw [hword (by omega), hword (by omega)]

section Stores

variable (m : Mem) (ringPa : Nat)

/-- A word of the header after a store to one. -/
theorem load_header {off o : Nat} (hoff : off % 4 = 0) (ho : o % 4 = 0) (v : BitVec 32) :
    BitVec.ofNat 32 ((m.store (ringPa + off) 4 v.toNat).load (ringPa + o) 4) =
      if off = o then v else .ofNat 32 (m.load (ringPa + o) 4) := by
  split
  · rename_i heq
    rw [← heq, Mem.load_store_of_lt _ (by have := v.isLt; omega), BitVec.ofNat_toNat,
      BitVec.setWidth_eq]
  · rw [Mem.load_store_disjoint (by omega)]

/-- A store to the header changes the index that it is a store to, if it is one. -/
theorem ringView_store_header {off : Nat} (hoff : off % 4 = 0) (hlt : off + 4 ≤ offSq)
    (v : BitVec 32) : ringView (m.store (ringPa + off) 4 v.toNat) ringPa =
      { ringView m ringPa with
        sqHead := if off = offSqHead then v else (ringView m ringPa).sqHead
        sqTail := if off = offSqTail then v else (ringView m ringPa).sqTail
        cqHead := if off = offCqHead then v else (ringView m ringPa).cqHead
        cqTail := if off = offCqTail then v else (ringView m ringPa).cqTail } := by
  rw [offSq] at hlt
  ext : 1
  · exact load_header m ringPa hoff rfl v
  · exact load_header m ringPa hoff rfl v
  · exact load_header m ringPa hoff rfl v
  · exact load_header m ringPa hoff rfl v
  · funext i
    exact loadSqe_store_disjoint (by rw [sqeAddr, offSq]; omega)
  · funext i
    exact loadCqe_store_disjoint (by rw [cqeAddr, offCq]; omega)

theorem ringView_store_sqHead (v : BitVec 32) :
    ringView (m.store (ringPa + offSqHead) 4 v.toNat) ringPa =
      { ringView m ringPa with sqHead := v } :=
  ringView_store_header m ringPa rfl (by decide) v

theorem ringView_store_sqTail (v : BitVec 32) :
    ringView (m.store (ringPa + offSqTail) 4 v.toNat) ringPa =
      { ringView m ringPa with sqTail := v } :=
  ringView_store_header m ringPa rfl (by decide) v

theorem ringView_store_cqHead (v : BitVec 32) :
    ringView (m.store (ringPa + offCqHead) 4 v.toNat) ringPa =
      { ringView m ringPa with cqHead := v } :=
  ringView_store_header m ringPa rfl (by decide) v

theorem ringView_store_cqTail (v : BitVec 32) :
    ringView (m.store (ringPa + offCqTail) 4 v.toNat) ringPa =
      { ringView m ringPa with cqTail := v } :=
  ringView_store_header m ringPa rfl (by decide) v

theorem ringView_store_flags (v : BitVec 32) :
    ringView (m.store (ringPa + offFlags) 4 v.toNat) ringPa = ringView m ringPa :=
  ringView_store_header m ringPa rfl (by decide) v

/-- The header after a store to an entry. -/
theorem load_header_of_ge {o a n : Nat} (ho : o + 4 ≤ offSq) (ha : ringPa + offSq ≤ a) (v : Nat) :
    BitVec.ofNat 32 ((m.store a n v).load (ringPa + o) 4) = .ofNat 32 (m.load (ringPa + o) 4) := by
  rw [Mem.load_store_disjoint (by omega)]

/-- A store to a submission entry changes that entry only. -/
theorem ringView_store_sq (i : Fin 16) {off n : Nat} (h : off + n ≤ 32) (v : Nat) :
    ringView (m.store (sqeAddr ringPa i + off) n v) ringPa =
      { ringView m ringPa with
        sq := Function.update (ringView m ringPa).sq i
          (loadSqe (m.store (sqeAddr ringPa i + off) n v) (sqeAddr ringPa i)) } := by
  have ha : ringPa + offSq ≤ sqeAddr ringPa i + off := by rw [sqeAddr]; omega
  have hi := i.isLt
  ext : 1
  · exact load_header_of_ge m ringPa (by decide) ha v
  · exact load_header_of_ge m ringPa (by decide) ha v
  · exact load_header_of_ge m ringPa (by decide) ha v
  · exact load_header_of_ge m ringPa (by decide) ha v
  · refine Function.eq_update_iff.mpr ⟨rfl, fun j hne ↦ ?_⟩
    have hval : (j : Nat) ≠ i := fun he ↦ hne (Fin.ext he)
    exact loadSqe_store_disjoint (by rw [sqeAddr, sqeAddr]; omega)
  · funext j
    exact loadCqe_store_disjoint (by rw [sqeAddr, cqeAddr, offSq, offCq]; omega)

/-- A store to a completion entry changes that entry only. -/
theorem ringView_store_cq (i : Fin 16) {off n : Nat} (h : off + n ≤ 16) (v : Nat) :
    ringView (m.store (cqeAddr ringPa i + off) n v) ringPa =
      { ringView m ringPa with
        cq := Function.update (ringView m ringPa).cq i
          (loadCqe (m.store (cqeAddr ringPa i + off) n v) (cqeAddr ringPa i)) } := by
  have ha : ringPa + offSq ≤ cqeAddr ringPa i + off := by rw [cqeAddr, offSq, offCq]; omega
  ext : 1
  · exact load_header_of_ge m ringPa (by decide) ha v
  · exact load_header_of_ge m ringPa (by decide) ha v
  · exact load_header_of_ge m ringPa (by decide) ha v
  · exact load_header_of_ge m ringPa (by decide) ha v
  · funext j
    have hj := j.isLt
    exact loadSqe_store_disjoint (by rw [sqeAddr, cqeAddr, offSq, offCq]; omega)
  · refine Function.eq_update_iff.mpr ⟨rfl, fun j hne ↦ ?_⟩
    have hval : (j : Nat) ≠ i := fun he ↦ hne (Fin.ext he)
    exact loadCqe_store_disjoint (by rw [cqeAddr, cqeAddr]; omega)

end Stores

/-- The slot of an index. -/
theorem slot_index (a : BitVec 32) (i : Nat) : slot (Spsc.index a i) = Spsc.slotOf 16 a i := by
  rw [slot, BitVec.toNat_and, Spsc.slotOf, Fin.val_ofNat]
  exact Nat.and_two_pow_sub_one_eq_mod _ 4

/-! ## What holds between any two steps -/

/-- The entry `sqe` is about to publish, while the process is in it. -/
def ClientPc.calling : ClientPc → Option Sqe
  | .opcode e _ => some e
  | .arg0 e _ => some e
  | .arg1 e _ => some e
  | .userData e _ => some e
  | .sqTail e _ => some e
  | _ => none

/-- `1` while `reap` has loaded an entry and not let go of it. -/
def ClientPc.holding : ClientPc → Nat
  | .cqHead _ => 1
  | _ => 0

/-- `1` while `process_sqe` has seen an entry and `drain` has not let go of it. -/
def DrainPc.holding : DrainPc → Nat
  | .sqHead _ _ => 1
  | _ => 0

/-- What has been published to the submission queue that started at `a` and to the completion queue
that started at `b`, and how much of it has been let go of. -/
structure Passed where
  a : BitVec 32
  b : BitVec 32
  published : List Sqe
  consumed : Nat
  taken : Nat

namespace Passed

variable (q : Passed)

/-- The slot the next submission goes to. -/
def next : Fin 16 := Spsc.slotOf 16 q.a q.published.length

/-- `tail` is where `sqe` may write. -/
def Scratch (tail : BitVec 32) : Prop :=
  tail = Spsc.index q.a q.published.length ∧ q.published.length < q.consumed + 16

/-- What the process's local variables hold; `e` is what it has written so far. -/
def ClientOk (v : RingView) (posted : List Cqe) : ClientPc → Prop
  | .idle => True
  | .opcode _ tail => q.Scratch tail
  | .arg0 e tail => q.Scratch tail ∧ (v.sq q.next).opcode = e.opcode
  | .arg1 e tail => q.Scratch tail ∧ (v.sq q.next).opcode = e.opcode ∧
      (v.sq q.next).arg0 = e.arg0
  | .userData e tail => q.Scratch tail ∧ (v.sq q.next).opcode = e.opcode ∧
      (v.sq q.next).arg0 = e.arg0 ∧ (v.sq q.next).arg1 = e.arg1
  | .sqTail e tail => q.Scratch tail ∧ v.sq q.next = e
  | .cqTail head => head = Spsc.index q.b q.taken
  | .gotUserData head => head = Spsc.index q.b q.taken ∧ q.taken < posted.length
  | .gotResult head userData => head = Spsc.index q.b q.taken ∧
      ∃ c, posted[q.taken]? = some c ∧ c.userData = userData
  | .cqHead head => head = Spsc.index q.b q.taken ∧ q.taken < posted.length

/-- What the local variables of `drain` hold: the tail it read was published. -/
def DrainOk : DrainPc → Prop
  | .idle => True
  | .loop head tail => head = Spsc.index q.a q.consumed ∧
      ∃ t, tail = Spsc.index q.a t ∧ q.consumed ≤ t ∧ t ≤ q.published.length
  | .sqHead head tail => head = Spsc.index q.a q.consumed ∧
      ∃ t, tail = Spsc.index q.a t ∧ q.consumed < t ∧ t ≤ q.published.length

/-- The page, the local variables of both sides and the record of the past agree. -/
structure Flow (v : RingView) (u : Uring) : Prop where
  sqHead : v.sqHead = Spsc.index q.a q.consumed
  sqTail : v.sqTail = Spsc.index q.a q.published.length
  sq : Spsc.Holds 16 q.a v.sq q.published q.consumed
  cqHead : v.cqHead = Spsc.index q.b q.taken
  cqTail : v.cqTail = Spsc.index q.b u.posted.length
  cq : Spsc.Holds 16 q.b v.cq u.posted q.taken
  client : q.ClientOk v u.posted u.client
  drain : q.DrainOk u.drain
  submitted : u.submitted = q.published ++ u.client.calling.toList
  seen : u.seen = q.published.take (q.consumed + u.drain.holding)
  reaped : u.reaped = u.posted.take (q.taken + u.client.holding)

variable {q} in
theorem DrainOk.holding_le {pc : DrainPc} (h : q.DrainOk pc)
    (hle : q.consumed ≤ q.published.length) : q.consumed + pc.holding ≤ q.published.length := by
  cases pc with
  | idle => exact hle
  | loop head tail => exact hle
  | sqHead head tail =>
    obtain ⟨-, t, -, hlt, ht⟩ := h
    exact Nat.le_trans hlt ht

variable {q} in
theorem ClientOk.holding_le {v : RingView} {posted : List Cqe} {pc : ClientPc}
    (h : q.ClientOk v posted pc) (hle : q.taken ≤ posted.length) :
    q.taken + pc.holding ≤ posted.length := by
  cases pc with
  | cqHead head => exact h.2
  | _ => exact hle

variable {q} in
/-- A completion does not disturb the process, wherever it stands. -/
theorem ClientOk.post {v v' : RingView} {posted : List Cqe} {pc : ClientPc} (c : Cqe)
    (h : q.ClientOk v posted pc) (hsq : v'.sq = v.sq) : q.ClientOk v' (posted ++ [c]) pc := by
  have hlen : posted.length < (posted ++ [c]).length := by simp
  cases pc with
  | idle => exact trivial
  | opcode e tail => exact h
  | arg0 e tail => rwa [ClientOk, hsq]
  | arg1 e tail => rwa [ClientOk, hsq]
  | userData e tail => rwa [ClientOk, hsq]
  | sqTail e tail => rwa [ClientOk, hsq]
  | cqTail head => exact h
  | gotUserData head => exact ⟨h.1, h.2.trans hlen⟩
  | gotResult head userData =>
    obtain ⟨hhead, c', hc', hdata⟩ := h
    have hlt := (List.getElem?_eq_some_iff.mp hc').1
    exact ⟨hhead, c', by rwa [List.getElem?_append_left hlt], hdata⟩
  | cqHead head => exact ⟨h.1, h.2.trans hlen⟩

variable {q} in
/-- Nor does `drain` when it lets go of an entry. -/
theorem ClientOk.consume {v : RingView} {posted : List Cqe} {pc : ClientPc} (i : BitVec 32)
    (h : q.ClientOk v posted pc) :
    ClientOk { q with consumed := q.consumed + 1 } { v with sqHead := i } posted pc := by
  have hscratch {tail : BitVec 32} (hs : q.Scratch tail) :
      Scratch { q with consumed := q.consumed + 1 } tail :=
    ⟨hs.1, Nat.lt_of_lt_of_le hs.2 (by show _ ≤ q.consumed + 1 + 16; omega)⟩
  cases pc with
  | idle => exact trivial
  | opcode e tail => exact hscratch h
  | arg0 e tail => exact ⟨hscratch h.1, h.2⟩
  | arg1 e tail => exact ⟨hscratch h.1, h.2⟩
  | userData e tail => exact ⟨hscratch h.1, h.2⟩
  | sqTail e tail => exact ⟨hscratch h.1, h.2⟩
  | cqTail head => exact h
  | gotUserData head => exact h
  | gotResult head userData => exact h
  | cqHead head => exact h

end Passed

namespace Passed.Flow

variable {q : Passed} {v : RingView} {u : Uring}

/-- Both queues are empty. -/
theorem start (hclient : u.client = .idle) (hdrain : u.drain = .idle) (hsub : u.submitted = [])
    (hseen : u.seen = []) (hpost : u.posted = []) (hreap : u.reaped = [])
    (hsq : v.sqHead = v.sqTail) (hcq : v.cqHead = v.cqTail) :
    Flow ⟨v.sqHead, v.cqHead, [], 0, 0⟩ v u where
  sqHead := Spsc.index_zero.symm
  sqTail := by rw [← hsq]; exact Spsc.index_zero.symm
  sq := .nil _ _
  cqHead := Spsc.index_zero.symm
  cqTail := by rw [hpost, ← hcq]; exact Spsc.index_zero.symm
  cq := by rw [hpost]; exact .nil _ _
  client := by rw [hclient]; exact trivial
  drain := by rw [hdrain]; exact trivial
  submitted := by rw [hsub, hclient]; rfl
  seen := by rw [hseen]; exact (List.take_nil).symm
  reaped := by rw [hreap, hpost]; exact (List.take_nil).symm

/-- The facts about the process, where it stands. -/
theorem clientAt (h : q.Flow v u) {pc : ClientPc} (hpc : u.client = pc) :
    q.ClientOk v u.posted pc ∧ u.submitted = q.published ++ pc.calling.toList ∧
      u.reaped = u.posted.take (q.taken + pc.holding) :=
  hpc ▸ ⟨h.client, h.submitted, h.reaped⟩

/-- The facts about `drain`, where it stands. -/
theorem drainAt (h : q.Flow v u) {pc : DrainPc} (hpc : u.drain = pc) :
    q.DrainOk pc ∧ u.seen = q.published.take (q.consumed + pc.holding) :=
  hpc ▸ ⟨h.drain, h.seen⟩

/-- The number of submissions that are not consumed. -/
theorem sq_distance (h : q.Flow v u) :
    (v.sqTail - v.sqHead).toNat = q.published.length - q.consumed := by
  rw [h.sqHead, h.sqTail, h.sq.distance (by decide)]

/-- The number of completions that are not reaped. -/
theorem cq_distance (h : q.Flow v u) : (v.cqTail - v.cqHead).toNat = u.posted.length - q.taken := by
  rw [h.cqHead, h.cqTail, h.cq.distance (by decide)]

/-! ### The process -/

theorem callSqe (h : q.Flow v u) (e : Sqe) (hidle : u.client = .idle)
    (hroom : v.sqTail - v.sqHead < ringEntries) :
    q.Flow v { u with client := .opcode e v.sqTail, submitted := u.submitted ++ [e] } := by
  have hlt : (v.sqTail - v.sqHead).toNat < 16 := BitVec.lt_def.mp hroom
  rw [h.sq_distance] at hlt
  have hle := h.sq.le
  obtain ⟨-, hsub, hreap⟩ := h.clientAt hidle
  refine { h with client := ⟨h.sqTail, by omega⟩, submitted := ?_, reaped := hreap }
  rw [hsub]
  exact List.append_assoc ..

theorem callReap (h : q.Flow v u) (hidle : u.client = .idle) :
    q.Flow v { u with client := .cqTail v.cqHead } := by
  obtain ⟨-, hsub, hreap⟩ := h.clientAt hidle
  exact { h with client := h.cqHead, submitted := hsub, reaped := hreap }

/-- A store to a field of the slot `sqe` has to itself. -/
theorem storeField (h : q.Flow v u) {e e' : Sqe} {tail : BitVec 32} {pc : ClientPc} {k : Kernel}
    (hslot : q.Scratch tail) (hold : u.client.calling = some e) (hnew : pc.calling = some e)
    (hheld : pc.holding = u.client.holding)
    (hpc : q.ClientOk { v with sq := Function.update v.sq q.next e' } u.posted pc) :
    q.Flow { v with sq := Function.update v.sq q.next e' } { u with k, client := pc } where
  sqHead := h.sqHead
  sqTail := h.sqTail
  sq := h.sq.scratch (by decide) hslot.2 fun i hi ↦ Function.update_of_ne hi _ _
  cqHead := h.cqHead
  cqTail := h.cqTail
  cq := h.cq
  client := hpc
  drain := h.drain
  submitted := by rw [h.submitted, hold, hnew]
  seen := h.seen
  reaped := by rw [h.reaped, hheld]

/-- `sqe` publishes its entry. -/
theorem publish (h : q.Flow v u) {e : Sqe} {tail : BitVec 32} (k : Kernel)
    (hpc : u.client = .sqTail e tail) :
    Flow { q with published := q.published ++ [e] } { v with sqTail := tail + 1 }
      { u with k, client := .idle } := by
  obtain ⟨hclient, hsub, hreap⟩ := h.clientAt hpc
  obtain ⟨⟨htail, hroom⟩, hentry⟩ := hclient
  have hlen : (q.published ++ [e]).length = q.published.length + 1 := List.length_append
  have hseen := h.drain.holding_le h.sq.le
  exact {
    sqHead := h.sqHead
    sqTail := by rw [htail, Spsc.index_succ, hlen]
    sq := h.sq.send hroom hentry
    cqHead := h.cqHead
    cqTail := h.cqTail
    cq := h.cq
    client := trivial
    drain := by
      have hdrain := h.drain
      revert hdrain
      cases u.drain with
      | idle => exact id
      | loop head tail =>
        rintro ⟨hhead, t, ht, hle, hlt⟩
        exact ⟨hhead, t, ht, hle, by rw [hlen]; omega⟩
      | sqHead head tail =>
        rintro ⟨hhead, t, ht, hle, hlt⟩
        exact ⟨hhead, t, ht, hle, by rw [hlen]; omega⟩
    submitted := by rw [hsub]; exact (List.append_nil _).symm
    seen := by rw [h.seen]; exact (List.take_append_of_le_length hseen).symm
    reaped := hreap }

/-- `reap` finds no completion. -/
theorem reapEmpty (h : q.Flow v u) {head : BitVec 32} (hpc : u.client = .cqTail head) :
    q.Flow v { u with client := .idle } := by
  obtain ⟨-, hsub, hreap⟩ := h.clientAt hpc
  exact { h with client := trivial, submitted := hsub, reaped := hreap }

/-- `reap` finds a completion. -/
theorem reapFound (h : q.Flow v u) {head : BitVec 32} (hpc : u.client = .cqTail head)
    (hne : head ≠ v.cqTail) : q.Flow v { u with client := .gotUserData head } := by
  obtain ⟨hclient, hsub, hreap⟩ := h.clientAt hpc
  have hlt : q.taken ≠ u.posted.length := by
    intro he
    exact hne (by rw [h.cqTail, ← he]; exact hclient)
  exact { h with
    client := ⟨hclient, lt_of_le_of_ne h.cq.le hlt⟩
    submitted := hsub
    reaped := hreap }

theorem reapUserData (h : q.Flow v u) {head : BitVec 32} (hpc : u.client = .gotUserData head) :
    q.Flow v { u with
      client := .gotResult head (v.cq (Spsc.slotOf 16 q.b q.taken)).userData } := by
  obtain ⟨hclient, hsub, hreap⟩ := h.clientAt hpc
  obtain ⟨hhead, hlt⟩ := hclient
  have hc := List.getElem?_eq_getElem hlt
  have hentry := h.cq.entry q.taken _ le_rfl hc
  exact { h with
    client := ⟨hhead, _, hc, by rw [hentry]⟩
    submitted := hsub
    reaped := hreap }

theorem reapResult (h : q.Flow v u) {head : BitVec 32} {userData : BitVec 64}
    (hpc : u.client = .gotResult head userData) :
    q.Flow v { u with
      client := .cqHead head
      reaped := u.reaped ++ [⟨userData, (v.cq (Spsc.slotOf 16 q.b q.taken)).result⟩] } := by
  obtain ⟨hclient, hsub, hreap⟩ := h.clientAt hpc
  obtain ⟨hhead, c, hc, rfl⟩ := hclient
  have hlt := (List.getElem?_eq_some_iff.mp hc).1
  have hentry := h.cq.entry q.taken c le_rfl hc
  refine { h with client := ⟨hhead, hlt⟩, submitted := hsub, reaped := ?_ }
  show u.reaped ++ [_] = u.posted.take (q.taken + 1)
  rw [hreap, hentry, List.take_add_one, hc]
  rfl

/-- `reap` lets go of the entry it has loaded. -/
theorem reapHead (h : q.Flow v u) {head : BitVec 32} (k : Kernel) (hpc : u.client = .cqHead head) :
    Flow { q with taken := q.taken + 1 } { v with cqHead := head + 1 }
      { u with k, client := .idle } := by
  obtain ⟨hclient, hsub, hreap⟩ := h.clientAt hpc
  obtain ⟨hhead, hlt⟩ := hclient
  exact { h with
    cqHead := by rw [hhead, Spsc.index_succ]
    cq := h.cq.take hlt
    client := trivial
    drain := h.drain
    submitted := hsub
    reaped := hreap }

/-! ### The kernel -/

theorem startDrain (h : q.Flow v u) (hidle : u.drain = .idle) :
    q.Flow v { u with drain := .loop v.sqHead v.sqTail } := by
  obtain ⟨-, hseen⟩ := h.drainAt hidle
  exact { h with
    drain := ⟨h.sqHead, _, h.sqTail, h.sq.le, le_rfl⟩
    seen := hseen }

/-- `drain` has come to the tail it read. -/
theorem endDrain (h : q.Flow v u) {head tail : BitVec 32} (hpc : u.drain = .loop head tail) :
    q.Flow v { u with drain := .idle } := by
  obtain ⟨-, hseen⟩ := h.drainAt hpc
  exact { h with drain := trivial, seen := hseen }

/-- `process_sqe` sees the next entry. -/
theorem seeEntry (h : q.Flow v u) {head tail : BitVec 32} (hpc : u.drain = .loop head tail)
    (hne : head ≠ tail) :
    q.Flow v { u with
      drain := .sqHead head tail
      seen := u.seen ++ [v.sq (Spsc.slotOf 16 q.a q.consumed)] } := by
  obtain ⟨hdrain, hseen⟩ := h.drainAt hpc
  obtain ⟨hhead, t, ht, hle, hlt⟩ := hdrain
  have hmore : q.consumed ≠ t := by
    intro he
    exact hne (by rw [hhead, ht, he])
  have hc := List.getElem?_eq_getElem (show q.consumed < q.published.length by omega)
  have hentry := h.sq.entry q.consumed _ le_rfl hc
  refine { h with drain := ⟨hhead, t, ht, by omega, hlt⟩, seen := ?_ }
  show u.seen ++ [_] = q.published.take (q.consumed + 1)
  rw [hseen, hentry, List.take_add_one, hc]
  rfl

/-- `drain` lets go of the entry. -/
theorem storeHead (h : q.Flow v u) {head tail : BitVec 32} (k : Kernel)
    (hpc : u.drain = .sqHead head tail) :
    Flow { q with consumed := q.consumed + 1 } { v with sqHead := head + 1 }
      { u with k, drain := .loop (head + 1) tail } := by
  obtain ⟨hdrain, hseen⟩ := h.drainAt hpc
  obtain ⟨hhead, t, ht, hlt, hle⟩ := hdrain
  have hnext : head + 1 = Spsc.index q.a (q.consumed + 1) := by rw [hhead, Spsc.index_succ]
  exact { h with
    sqHead := hnext
    sq := h.sq.take (Nat.lt_of_lt_of_le hlt hle)
    client := h.client.consume (head + 1)
    drain := ⟨hnext, t, ht, hlt, hle⟩
    seen := hseen }

/-- `complete` posts an entry. -/
theorem post (h : q.Flow v u) (k : Kernel) (c : Cqe) (hroom : u.posted.length < q.taken + 16) :
    q.Flow { v with
      cq := Function.update v.cq (Spsc.slotOf 16 q.b u.posted.length) c
      cqTail := v.cqTail + 1 } { u with k, posted := u.posted ++ [c] } := by
  have hlen : (u.posted ++ [c]).length = u.posted.length + 1 := List.length_append
  have hreap := h.client.holding_le h.cq.le
  have hscratch := h.cq.scratch (by decide) hroom fun i hi ↦ Function.update_of_ne hi c v.cq
  exact { h with
    cqTail := by rw [h.cqTail, Spsc.index_succ, hlen]
    cq := hscratch.send hroom (Function.update_self ..)
    client := h.client.post c rfl
    reaped := by rw [h.reaped]; exact (List.take_append_of_le_length hreap).symm }

end Passed.Flow

/-! ## The queues -/

section Steps

variable {ringPa : Nat} {q : Passed} {u u' : Uring}

/-- The two stores of an entry. -/
theorem ringView_store_cqe (m : Mem) (ringPa : Nat) (i : Fin 16) (userData result : Nat) :
    ringView ((m.store (cqeAddr ringPa i) 8 userData).store (cqeAddr ringPa i + 8) 8 result)
      ringPa = { ringView m ringPa with
        cq := Function.update (ringView m ringPa).cq i
          ⟨.ofNat 64 userData, .ofNat 64 result⟩ } := by
  have hfirst := ringView_store_cq m ringPa i (show 0 + 8 ≤ 16 by decide) userData
  rw [Nat.add_zero] at hfirst
  have hentry : loadCqe ((m.store (cqeAddr ringPa i) 8 userData).store (cqeAddr ringPa i + 8) 8
      result) (cqeAddr ringPa i) = ⟨.ofNat 64 userData, .ofNat 64 result⟩ := by
    rw [loadCqe, loadWord_store_same, loadWord_store_disjoint (by omega), loadWord_store_same]
  rw [ringView_store_cq _ ringPa i (show 8 + 8 ≤ 16 by decide), hfirst, hentry]
  simp only [Function.update_idem]

/-- What `complete` does to the page when it posts its entry. -/
theorem ringView_complete (k : Kernel) (userData : Nat) (result : Int) (child : Option Nat)
    (hroom : cqTail k.mem ringPa - cqHead k.mem ringPa < ringEntries) {b : BitVec 32} {n : Nat}
    (htail : cqTail k.mem ringPa = Spsc.index b n) :
    ringView (k.complete ringPa userData result child).mem ringPa =
      { ringView k.mem ringPa with
        cq := Function.update (ringView k.mem ringPa).cq (Spsc.slotOf 16 b n)
          ⟨.ofNat 64 userData, .ofInt 64 result⟩
        cqTail := (ringView k.mem ringPa).cqTail + 1 } := by
  have haddr : cqeAddr ringPa (Spsc.slotOf 16 b n) =
      ringPa + (offCq + 16 * slot (cqTail k.mem ringPa)) := by
    rw [cqeAddr, htail, slot_index]
    omega
  have hstores := ringView_store_cqe k.mem ringPa (Spsc.slotOf 16 b n) userData (i64Bits result)
  rw [haddr, Kernel.ofNat_i64Bits] at hstores
  rw [Kernel.complete, if_neg (BitVec.not_le.mpr hroom)]
  refine (ringView_store_cqTail _ ringPa _).trans ?_
  simp only [Kernel.ringStore_mem, ← Nat.add_assoc] at hstores ⊢
  rw [hstores]
  rfl

/-- `sqe` stores a field: its local variables stay as they are, and the slot holds that field
too. -/
theorem Passed.Flow.storeWord (h : q.Flow (ringView u.k.mem ringPa) u) {e : Sqe}
    {tail : BitVec 32} {pc : ClientPc} {off : Nat} (hoff : off + 8 ≤ 32) (w : BitVec 64)
    (hslot : q.Scratch tail) (hold : u.client.calling = some e) (hnew : pc.calling = some e)
    (hheld : pc.holding = u.client.holding)
    (hpc : ∀ v : RingView, v.sq q.next = loadSqe (u.k.mem.store
      (sqeAddr ringPa q.next + off) 8 w.toNat) (sqeAddr ringPa q.next) → q.ClientOk v u.posted pc) :
    q.Flow (ringView (u.store (sqeAddr ringPa (slot tail) + off) 8 w.toNat pc).k.mem ringPa)
      (u.store (sqeAddr ringPa (slot tail) + off) 8 w.toNat pc) := by
  have hslotEq : slot tail = q.next := by rw [hslot.1, slot_index, Passed.next]
  have hview := ringView_store_sq u.k.mem ringPa q.next hoff w.toNat
  rw [hslotEq]
  show q.Flow (ringView (u.k.mem.store _ 8 w.toNat) ringPa) _
  rw [hview]
  exact h.storeField hslot hold hnew hheld (hpc _ (Function.update_self ..))

/-- A step of the process. -/
theorem clientStep_flow (h : q.Flow (ringView u.k.mem ringPa) u)
    (hs : u.clientStep ringPa = some u') :
    ∃ q' : Passed, q'.Flow (ringView u'.k.mem ringPa) u' := by
  rw [Uring.clientStep] at hs
  split at hs
  · cases hs
  · rename_i e tail hpc
    obtain ⟨hslot, -, -⟩ := h.clientAt hpc
    obtain rfl := Option.some.inj hs
    refine ⟨q, h.storeWord (show 0 + 8 ≤ 32 by decide) _ hslot (by rw [hpc]; rfl) rfl
      (by rw [hpc]; rfl) fun v hv ↦ ⟨hslot, ?_⟩⟩
    rw [hv]
    exact loadWord_store_word ..
  · rename_i e tail hpc
    obtain ⟨⟨hslot, hop⟩, -, -⟩ := h.clientAt hpc
    obtain rfl := Option.some.inj hs
    refine ⟨q, h.storeWord (show 8 + 8 ≤ 32 by decide) _ hslot (by rw [hpc]; rfl) rfl
      (by rw [hpc]; rfl) fun v hv ↦ ⟨hslot, ?_, ?_⟩⟩
    · rw [hv, ← hop]
      exact loadWord_store_disjoint (by omega)
    · rw [hv]
      exact loadWord_store_word ..
  · rename_i e tail hpc
    obtain ⟨⟨hslot, hop, harg0⟩, -, -⟩ := h.clientAt hpc
    obtain rfl := Option.some.inj hs
    refine ⟨q, h.storeWord (show 16 + 8 ≤ 32 by decide) _ hslot (by rw [hpc]; rfl) rfl
      (by rw [hpc]; rfl) fun v hv ↦ ⟨hslot, ?_, ?_, ?_⟩⟩
    · rw [hv, ← hop]
      exact loadWord_store_disjoint (by omega)
    · rw [hv, ← harg0]
      exact loadWord_store_disjoint (by omega)
    · rw [hv]
      exact loadWord_store_word ..
  · rename_i e tail hpc
    obtain ⟨⟨hslot, hop, harg0, harg1⟩, -, -⟩ := h.clientAt hpc
    obtain rfl := Option.some.inj hs
    refine ⟨q, h.storeWord (show 24 + 8 ≤ 32 by decide) _ hslot (by rw [hpc]; rfl) rfl
      (by rw [hpc]; rfl) fun v hv ↦ ⟨hslot, ?_⟩⟩
    rw [hv, loadSqe, loadWord_store_disjoint (by omega), loadWord_store_disjoint (by omega),
      loadWord_store_disjoint (by omega), loadWord_store_word]
    change loadWord u.k.mem (sqeAddr ringPa q.next) = _ at hop
    change loadWord u.k.mem (sqeAddr ringPa q.next + 8) = _ at harg0
    change loadWord u.k.mem (sqeAddr ringPa q.next + 16) = _ at harg1
    rw [hop, harg0, harg1]
  · rename_i e tail hpc
    obtain rfl := Option.some.inj hs
    refine ⟨{ q with published := q.published ++ [e] }, ?_⟩
    show Passed.Flow _ (ringView (u.k.mem.store _ 4 _) ringPa) _
    rw [ringView_store_sqTail]
    exact h.publish _ hpc
  · rename_i head hpc
    split at hs
    · obtain rfl := Option.some.inj hs
      exact ⟨q, h.reapEmpty hpc⟩
    · rename_i hne
      obtain rfl := Option.some.inj hs
      exact ⟨q, h.reapFound hpc hne⟩
  · rename_i head hpc
    obtain ⟨⟨hhead, -⟩, -, -⟩ := h.clientAt hpc
    obtain rfl := Option.some.inj hs
    rw [hhead] at hpc ⊢
    rw [slot_index]
    exact ⟨q, h.reapUserData hpc⟩
  · rename_i head userData hpc
    obtain ⟨⟨hhead, -⟩, -, -⟩ := h.clientAt hpc
    obtain rfl := Option.some.inj hs
    rw [hhead] at hpc ⊢
    rw [slot_index]
    exact ⟨q, h.reapResult hpc⟩
  · rename_i head hpc
    obtain rfl := Option.some.inj hs
    refine ⟨{ q with taken := q.taken + 1 }, ?_⟩
    show Passed.Flow _ (ringView (u.k.mem.store _ 4 _) ringPa) _
    rw [ringView_store_cqHead]
    exact h.reapHead _ hpc

/-- Any step. -/
theorem step_flow {act : UringAct} (h : q.Flow (ringView u.k.mem ringPa) u)
    (hroom : u.HasRoom ringPa act) (hs : u.step ringPa act = some u') :
    ∃ q' : Passed, q'.Flow (ringView u'.k.mem ringPa) u' := by
  cases act with
  | sqe e =>
    obtain ⟨hidle, hs⟩ := Option.ite_none_right_eq_some.mp hs
    obtain rfl := Option.some.inj hs
    exact ⟨q, h.callSqe e hidle hroom⟩
  | reap =>
    obtain ⟨hidle, hs⟩ := Option.ite_none_right_eq_some.mp hs
    obtain rfl := Option.some.inj hs
    exact ⟨q, h.callReap hidle⟩
  | client => exact clientStep_flow h hs
  | drain =>
    obtain ⟨hidle, hs⟩ := Option.ite_none_right_eq_some.mp hs
    obtain rfl := Option.some.inj hs
    exact ⟨q, h.startDrain hidle⟩
  | entry =>
    rw [Uring.step] at hs
    split at hs
    · rename_i head tail hpc
      obtain ⟨⟨hhead, -⟩, -⟩ := h.drainAt hpc
      split at hs
      · obtain rfl := Option.some.inj hs
        exact ⟨q, h.endDrain hpc⟩
      · rename_i hne
        obtain rfl := Option.some.inj hs
        rw [hhead] at hpc hne ⊢
        rw [slot_index]
        exact ⟨q, h.seeEntry hpc hne⟩
    · cases hs
  | head =>
    rw [Uring.step] at hs
    split at hs
    · rename_i head tail hpc
      obtain rfl := Option.some.inj hs
      refine ⟨{ q with consumed := q.consumed + 1 }, ?_⟩
      show Passed.Flow _ (ringView (u.k.mem.store _ 4 _) ringPa) _
      rw [ringView_store_sqHead]
      exact h.storeHead _ hpc
    · cases hs
  | complete userData result child =>
    obtain rfl := Option.some.inj hs
    by_cases hfull : u.full ringPa
    · have hmem : (u.k.complete ringPa userData result child).mem = u.k.mem := by
        rw [Kernel.complete, if_pos (show ringEntries ≤ _ from hfull)]
        rfl
      rw [if_pos hfull]
      refine ⟨q, ?_⟩
      show Passed.Flow _ (ringView (u.k.complete ..).mem ringPa) _
      rw [hmem]
      exact { h with }
    · have hcq : (cqTail u.k.mem ringPa - cqHead u.k.mem ringPa).toNat < 16 :=
        BitVec.lt_def.mp (BitVec.not_le.mp hfull)
      have hdist := h.cq_distance
      rw [if_neg hfull]
      refine ⟨q, ?_⟩
      show Passed.Flow _ (ringView (u.k.complete ..).mem ringPa) _
      rw [ringView_complete u.k userData result child (BitVec.not_le.mp hfull) h.cqTail]
      exact h.post _ _ (by have := hdist.symm.trans_lt hcq; omega)
  | flags v =>
    obtain rfl := Option.some.inj hs
    refine ⟨q, ?_⟩
    show Passed.Flow _ (ringView (u.k.mem.store _ 4 _) ringPa) _
    rw [ringView_store_flags]
    exact { h with }
  | elsewhere k =>
    simp only [Uring.step, Option.ite_none_right_eq_some] at hs
    obtain ⟨hpage, hs⟩ := hs
    obtain rfl := Option.some.inj hs
    refine ⟨q, ?_⟩
    rw [ringView_congr hpage]
    exact { h with }

end Steps

/-! ## Undisturbed runs -/

/-- The four indices. -/
def RingView.indices (v : RingView) : BitVec 32 × BitVec 32 × BitVec 32 × BitVec 32 :=
  (v.sqHead, v.sqTail, v.cqHead, v.cqTail)

namespace Uring

/-- The four indices of the page. -/
def indices (ringPa : Nat) (u : Uring) : BitVec 32 × BitVec 32 × BitVec 32 × BitVec 32 :=
  (ringView u.k.mem ringPa).indices

section Runs

variable {ringPa : Nat} {u : Uring} {sqHead sqTail cqHead cqTail : BitVec 32}

/-- A whole call of `sqe`. -/
theorem sqe_run (h : (uring ringPa).Reach (HasRoom ringPa) u) (hidle : u.client = .idle)
    (hind : u.indices ringPa = (sqHead, sqTail, cqHead, cqTail))
    (hroom : sqTail - sqHead < ringEntries) (e : Sqe) :
    ∃ u', (uring ringPa).Reach (HasRoom ringPa) u' ∧ u'.client = .idle ∧ u'.drain = u.drain ∧
      u'.submitted = u.submitted ++ [e] ∧ u'.posted = u.posted ∧
      u'.indices ringPa = (sqHead, sqTail + 1, cqHead, cqTail) := by
  simp only [indices, RingView.indices, Prod.mk.injEq] at hind
  obtain ⟨rfl, rfl, rfl, rfl⟩ := hind
  have hok : HasRoom ringPa u (.sqe e) := hroom
  have hcall := h.step hok (if_pos hidle)
  have hgo (u : Uring) : HasRoom ringPa u .client := trivial
  have hfields := (((hcall.step (hgo _) rfl).step (hgo _) rfl).step (hgo _) rfl).step (hgo _) rfl
  refine ⟨_, hfields.step (hgo _) rfl, rfl, rfl, rfl, rfl, ?_⟩
  -- only the last store is to an index
  have hentry (m : Mem) (off : Nat) (hoff : off + 8 ≤ 32) (w : BitVec 64) :
      (ringView (m.store (sqeAddr ringPa (slot (ringView u.k.mem ringPa).sqTail) + off) 8 w.toNat)
        ringPa).indices = (ringView m ringPa).indices := by
    rw [ringView_store_sq m ringPa ⟨_, slot_lt _⟩ hoff]
    rfl
  refine (congrArg RingView.indices (ringView_store_sqTail ..)).trans ?_
  have hsame := (((hentry _ 24 (by decide) e.userData).trans
    (hentry _ 16 (by decide) e.arg1)).trans (hentry _ 8 (by decide) e.arg0)).trans
    (hentry u.k.mem 0 (by decide) e.opcode)
  simp only [RingView.indices, Prod.mk.injEq] at hsame ⊢
  exact ⟨hsame.1, rfl, hsame.2.2⟩

/-- A `drain` that finds one entry and completes it. -/
theorem drain_run (h : (uring ringPa).Reach (HasRoom ringPa) u) (hidle : u.drain = .idle)
    (hind : u.indices ringPa = (sqHead, sqHead + 1, cqHead, cqTail))
    (hroom : cqTail - cqHead < ringEntries) (userData : Nat) (result : Int) :
    ∃ u', (uring ringPa).Reach (HasRoom ringPa) u' ∧ u'.client = u.client ∧ u'.drain = .idle ∧
      u'.submitted = u.submitted ∧
      u'.posted = u.posted ++ [⟨.ofNat 64 userData, .ofInt 64 result⟩] ∧
      u'.indices ringPa = (sqHead + 1, sqHead + 1, cqHead, cqTail + 1) := by
  simp only [indices, RingView.indices, Prod.mk.injEq] at hind
  obtain ⟨rfl, hone, rfl, rfl⟩ := hind
  have hne : (ringView u.k.mem ringPa).sqHead ≠ (ringView u.k.mem ringPa).sqTail := by
    rw [hone]
    bv_omega
  have hgo (u : Uring) : HasRoom ringPa u .drain ∧ HasRoom ringPa u .entry ∧
      HasRoom ringPa u .head ∧ HasRoom ringPa u (.complete userData result none) :=
    ⟨trivial, trivial, trivial, trivial⟩
  have h₁ := h.step (hgo _).1 (if_pos hidle)
  have h₂ := h₁.step (hgo _).2.1 (if_neg hne)
  have h₃ := h₂.step (hgo _).2.2.2 rfl
  have h₄ := h₃.step (hgo _).2.2.1 rfl
  have h₅ := h₄.step (hgo _).2.1 (if_pos hone.symm)
  refine ⟨_, h₅, rfl, rfl, rfl, if_neg (BitVec.not_le.mpr hroom), ?_⟩
  refine (congrArg RingView.indices (ringView_store_sqHead ..)).trans ?_
  rw [ringView_complete u.k userData result none hroom Spsc.index_zero.symm]
  exact Prod.ext rfl (Prod.ext hone rfl)

/-- A call of `reap` that finds an entry. -/
theorem reap_run (h : (uring ringPa).Reach (HasRoom ringPa) u) (hidle : u.client = .idle)
    (hind : u.indices ringPa = (sqHead, sqTail, cqHead, cqTail)) (hne : cqHead ≠ cqTail) :
    ∃ u', (uring ringPa).Reach (HasRoom ringPa) u' ∧ u'.client = .idle ∧ u'.drain = u.drain ∧
      u'.submitted = u.submitted ∧ u'.posted = u.posted ∧
      u'.indices ringPa = (sqHead, sqTail, cqHead + 1, cqTail) := by
  simp only [indices, RingView.indices, Prod.mk.injEq] at hind
  obtain ⟨rfl, rfl, rfl, rfl⟩ := hind
  have hgo (u : Uring) : HasRoom ringPa u .reap ∧ HasRoom ringPa u .client := ⟨trivial, trivial⟩
  have h₁ := h.step (hgo _).1 (if_pos hidle)
  have h₂ := h₁.step (hgo _).2 (if_neg hne)
  have h₃ := ((h₂.step (hgo _).2 rfl).step (hgo _).2 rfl).step (hgo _).2 rfl
  refine ⟨_, h₃, rfl, rfl, rfl, rfl, ?_⟩
  exact congrArg RingView.indices (ringView_store_cqHead ..)

end Runs

end Uring

/-- **The rings are lossless queues**, whatever the indices start from and however they wrap.  What
`process_sqe` has seen is what was passed to `sqe`, in order, up to the entries that are still
between the two indices (one of which `process_sqe` may be at work on) or are being written; what
`reap` has loaded is what `complete` has posted, in order, up to the entries that are still between
the two indices (one of which `reap` may be about to let go of). -/
theorem rings_lossless {ringPa : Nat} {u : Uring}
    (h : (uring ringPa).Reach (Uring.HasRoom ringPa) u) :
    (∃ rest, u.submitted = u.seen ++ rest ∧ rest.length + u.drain.holding =
      (sqTail u.k.mem ringPa - sqHead u.k.mem ringPa).toNat + u.client.calling.toList.length) ∧
    ∃ rest, u.posted = u.reaped ++ rest ∧ rest.length + u.client.holding =
      (cqTail u.k.mem ringPa - cqHead u.k.mem ringPa).toNat := by
  have hflow : ∃ q : Passed, q.Flow (ringView u.k.mem ringPa) u := by
    refine h.invariant (I := fun u ↦ ∃ q : Passed, q.Flow (ringView u.k.mem ringPa) u) ?_ ?_
    · rintro u ⟨hclient, hdrain, hsub, hseen, hpost, hreap, hsq, hcq⟩
      exact ⟨_, Passed.Flow.start hclient hdrain hsub hseen hpost hreap hsq hcq⟩
    · rintro u act u' ⟨q, hq⟩ hroom hs
      exact step_flow hq hroom hs
  obtain ⟨q, hq⟩ := hflow
  have hsq : (sqTail u.k.mem ringPa - sqHead u.k.mem ringPa).toNat = _ := hq.sq_distance
  have hcq : (cqTail u.k.mem ringPa - cqHead u.k.mem ringPa).toNat = _ := hq.cq_distance
  have hdrain := hq.drain.holding_le hq.sq.le
  have hclient := hq.client.holding_le hq.cq.le
  refine ⟨⟨q.published.drop (q.consumed + u.drain.holding) ++ u.client.calling.toList, ?_, ?_⟩,
    u.posted.drop (q.taken + u.client.holding), ?_, ?_⟩
  · rw [hq.submitted, hq.seen, ← List.append_assoc, List.take_append_drop]
  · rw [List.length_append, List.length_drop, hsq]
    omega
  · rw [hq.reaped, List.take_append_drop]
  · rw [List.length_drop, hcq]
    omega

/-- From indices that are all about to wrap, an entry is submitted, consumed and completed, and the
completion is reaped: all indices are `0` then, what was submitted has been seen and what was posted
has been reaped. -/
theorem rings_lossless_wrap : ∃ u : Uring, (uring 0).Reach (Uring.HasRoom 0) u ∧
    u.indices 0 = (0, 0, 0, 0) ∧ u.submitted = [⟨0, 0, 0, 1⟩] ∧ u.seen = [⟨0, 0, 0, 1⟩] ∧
    u.posted = [⟨1, 0⟩] ∧ u.reaped = [⟨1, 0⟩] := by
  let last : BitVec 32 := -1
  let m : Mem := (((Mem.store (fun _ ↦ 0) (0 + offSqHead) 4 last.toNat).store (0 + offSqTail) 4
    last.toNat).store (0 + offCqHead) 4 last.toNat).store (0 + offCqTail) 4 last.toNat
  let k : Kernel := ⟨⟨m, ⟨0, 0⟩⟩, [], ⟨[], 0⟩, none, .empty, ⟨[], true, []⟩, 0, 0, 0, 0, 0, [], []⟩
  have hview : ringView k.mem 0 = { ringView (fun _ ↦ 0) 0 with
      sqHead := last, sqTail := last, cqHead := last, cqTail := last } := by
    show ringView m 0 = _
    rw [ringView_store_cqTail, ringView_store_cqHead, ringView_store_sqTail, ringView_store_sqHead]
  have hinit : (uring 0).Reach (Uring.HasRoom 0) ⟨k, .idle, .idle, [], [], [], []⟩ := by
    refine .init ⟨rfl, rfl, rfl, rfl, rfl, rfl, ?_, ?_⟩
    · exact (congrArg RingView.sqHead hview).trans (congrArg RingView.sqTail hview).symm
    · exact (congrArg RingView.cqHead hview).trans (congrArg RingView.cqTail hview).symm
  obtain ⟨u₁, h₁, hc₁, hd₁, hsub₁, hpost₁, hind₁⟩ := Uring.sqe_run hinit rfl
    (congrArg RingView.indices hview) (by decide) ⟨0, 0, 0, 1⟩
  obtain ⟨u₂, h₂, hc₂, hd₂, hsub₂, hpost₂, hind₂⟩ :=
    Uring.drain_run h₁ hd₁ hind₁ (by decide) 1 0
  obtain ⟨u, h, hc, hd, hsub, hpost, hind⟩ :=
    Uring.reap_run h₂ (hc₂.trans hc₁) hind₂ (by decide)
  rw [hsub₂, hsub₁] at hsub
  rw [hpost₂, hpost₁] at hpost
  -- between equal indices there is nothing left
  obtain ⟨⟨rest, hseen, hlen⟩, rest', hreaped, hlen'⟩ := rings_lossless h
  have hwrap : last + 1 = 0 := by decide
  rw [hwrap] at hind
  obtain ⟨hsqHead, hsqTail, hcqHead, hcqTail⟩ : sqHead u.k.mem 0 = 0 ∧ sqTail u.k.mem 0 = 0 ∧
      cqHead u.k.mem 0 = 0 ∧ cqTail u.k.mem 0 = 0 := by
    simpa only [Uring.indices, RingView.indices, ringView, Prod.mk.injEq] using hind
  rw [hsqHead, hsqTail, hc, hd, hd₂] at hlen
  rw [hcqHead, hcqTail, hc] at hlen'
  obtain rfl := List.eq_nil_of_length_eq_zero (show rest.length = 0 from hlen)
  obtain rfl := List.eq_nil_of_length_eq_zero (show rest'.length = 0 from hlen')
  rw [List.append_nil] at hseen hreaped
  exact ⟨u, h, hind, hsub, hseen.symm.trans hsub, hpost, hreaped.symm.trans hpost⟩

end Jatuli

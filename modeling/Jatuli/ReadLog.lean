import Jatuli.Reading
import Jatuli.Submitting

/-!
# The kernel at work, with a record of its reads

`reading` is the kernel at work with a record beside it: the bytes taken from the device, and what
became of the reads of the foreground process and of all others.  The second half of the file says
what happens, step by step, when the foreground process is alone with its ring and reads; these are
the runs the results about reads are tried on.
-/

set_option autoImplicit false

namespace Jatuli

/-! ## The record -/

/-- The bytes the loop of `drain_uart` gets from `try_getc`. -/
def getcFrom : Nat → InputBuf → Uart → List UInt8
  | 0, _, _ => []
  | fuel + 1, b, u =>
    if b.isFull then []
    else match u.tryGetc with
      | some (c, u) => c :: getcFrom fuel
          { b with buf := b.buf.set b.tail c b.tail.isLt, tail := b.tail + 1 } u
      | none => []

theorem drainUartFrom_contents (fuel : Nat) (b : InputBuf) (u : Uart) :
    (drainUartFrom fuel b u).1.contents = b.contents ++ getcFrom fuel b u := by
  induction fuel generalizing b u with
  | zero => exact (List.append_nil _).symm
  | succ fuel ih =>
    rw [drainUartFrom, getcFrom]
    split_ifs with hfull
    · exact (List.append_nil _).symm
    · rw [Bool.not_eq_true] at hfull
      rcases u.tryGetc with - | ⟨c, u'⟩
      · exact (List.append_nil _).symm
      · dsimp only
        rw [ih, InputBuf.contents_store hfull, List.append_assoc, List.singleton_append]

namespace Kernel

/-- The bytes an operation takes from the device. -/
def getcs (k : Kernel) : ServeOp → List UInt8
  | .uart bytes => getcFrom ((k.uart.rx ++ bytes).length + 1) k.input
      { k.uart with rx := k.uart.rx ++ bytes }
  | _ => []

/-- The events of draining the ring of a process in its space. -/
def drainedEvents (k : Kernel) (pid : Nat) : List ReadEvent :=
  match k.processes[pid]? with
  | some p => (k.activate p.ttbr0).drainEvents pid
  | none => []

/-- What an operation does with the reads of the foreground process. -/
def foregroundEvents (k : Kernel) : ServeOp → List ReadEvent
  | .drain pid =>
    if Processes.foregroundPid k.processes = some pid then k.drainedEvents pid else []
  | .uart bytes => (k.received bytes).pollEvents
  | _ => []

/-- What it does with those of the others. -/
def backgroundEvents (k : Kernel) : ServeOp → List ReadEvent
  | .drain pid =>
    if Processes.foregroundPid k.processes = some pid then [] else k.drainedEvents pid
  | _ => []

end Kernel

theorem Kernel.received_contents (k : Kernel) (bytes : List UInt8) :
    (k.received bytes).input.contents = k.input.contents ++ k.getcs (.uart bytes) :=
  drainUartFrom_contents _ _ _

/-- What happened to console input. -/
structure ReadLog where
  /-- The bytes read from the device by `try_getc`. -/
  taken : List UInt8
  /-- What became of the reads of the foreground process. -/
  foreground : List ReadEvent
  /-- What became of the reads of other processes. -/
  background : List ReadEvent

/-- The record after an operation. -/
def ReadLog.note (x : ReadLog) (k : Kernel) (op : ServeOp) (_ : Kernel) : ReadLog where
  taken := x.taken ++ k.getcs op
  foreground := x.foreground ++ k.foregroundEvents op
  background := x.background ++ k.backgroundEvents op

/-- The kernel at work, with the record. -/
def reading (programs : List (String × List UInt8)) : System (Kernel × ReadLog) ServeOp :=
  (serve programs).track ⟨[], [], []⟩ ReadLog.note

/-! ## A process that reads -/

/-- The process is alone, in the foreground and in its own space; it has a ring, and nothing is
published there.  The device is ready to interrupt, and holds nothing yet. -/
structure Attended (k : Kernel) (p : Process) : Prop where
  processes : k.processes = [p]
  live : p.live = true
  ring : p.ringPa ≠ 0
  foreground : p.foreground = true
  placed : p.loaded.Placed
  installed : k.installed = p.ttbr0
  root : k.ttbr0 = p.ttbr0
  drained : sqTail k.mem p.ringPa = sqHead k.mem p.ringPa
  uart : k.uart.rx = [] ∧ k.uart.rxIrq = true

/-- The kernel once the process has submitted an `OP_READ` for its stack. -/
def Kernel.submitRead (k : Kernel) (ringPa len tag : Nat) : Kernel :=
  k.setMem (submitted k.mem ringPa opRead userStackVa len tag)

section Attended

variable {L : Layout} {k k' : Kernel} {p : Process} {len tag : Nat}

theorem Attended.getElem? (h : Attended k p) : k.processes[0]? = some p := by
  rw [h.processes]
  rfl

theorem Attended.foregroundPid (h : Attended k p) :
    Processes.foregroundPid k.processes = some 0 := by
  rw [h.processes, Processes.foregroundPid, List.findIdx?_cons, h.foreground]
  rfl

/-- The process can submit a read. -/
theorem Attended.stores (h : Attended k p) (hlife : LifeInv L k) :
    Stores 0 k (k.submitRead p.ringPa len tag) := by
  have hs := hlife.submit h.getElem? h.ring opRead userStackVa len tag
  rwa [Kernel.activate_of_installed h.installed] at hs

/-- Draining the ring then carries out the read. -/
theorem Attended.drain (h : Attended k p) (hlen : len < 2 ^ 64)
    (htag : tag < 2 ^ 64) {k₁ k₂ : Kernel} (hk₁ : k₁ = (k.submitRead p.ringPa len tag).log
      (.sqe 0 tag k.ttbr0 none))
    (hread : k₁.read 0 p.ringPa userStackVa len tag = some k₂) :
    serveStep (k.submitRead p.ringPa len tag) (.drain 0) =
        some (k₂.ringStore p.ringPa offSqHead 4 (sqHead k.mem p.ringPa + 1).toNat) ∧
      (k.submitRead p.ringPa len tag).foregroundEvents (.drain 0) =
        (k₁.readEvent 0 p.ringPa userStackVa len tag).toList := by
  obtain ⟨k₀, hk₀⟩ : ∃ k₀ : Kernel, k₀ = k.submitRead p.ringPa len tag := ⟨_, rfl⟩
  have hmem : k₀.mem = submitted k.mem p.ringPa opRead userStackVa len tag := by rw [hk₀]; rfl
  have hps : k₀.processes = k.processes := by rw [hk₀]; rfl
  have hroot : k₀.ttbr0 = k.ttbr0 := by rw [hk₀]; rfl
  rw [← hk₀] at hk₁ ⊢
  have hact : k₀.activate p.ttbr0 = k₀ := by
    refine Kernel.activate_of_installed ?_
    rw [hk₀]
    exact h.installed
  have hp₀ : k₀.processes[0]? = some p := by rw [hps, h.getElem?]
  have hring : Processes.ringPa k₀.processes 0 = some p.ringPa := by
    rw [Processes.ringPa, hp₀, Option.map_some]
  have hhead : sqHead k₀.mem p.ringPa = sqHead k.mem p.ringPa := by
    rw [hmem, submitted_sqHead]
  have htail : sqTail k₀.mem p.ringPa = sqHead k₀.mem p.ringPa + 1 := by
    rw [hhead, hmem, submitted_sqTail, h.drained]
  obtain ⟨hop, h0, h1, ht⟩ := submitted_entry k.mem p.ringPa opRead userStackVa len tag (by decide)
    (by decide) hlen htag (a := sqeAddr p.ringPa (slot (sqHead k₀.mem p.ringPa)))
    (by rw [hhead, h.drained])
  rw [← hmem] at hop h0 h1 ht
  have hwait : k₀.waitsFor 0 opRead userStackVa = none := Kernel.waitsFor_of_ne (by decide)
  have hsqe : k₀.processSqe 0 (sqeAddr p.ringPa (slot (sqHead k₀.mem p.ringPa))) = some k₂ := by
    rw [Kernel.processSqe, hring, Option.bind_eq_bind, Option.bind_some, hop, h0, h1, ht, hwait,
      hroot, ← hk₁]
    dsimp only
    rw [if_neg (by decide), if_neg (by decide), if_pos rfl, hread]
  refine ⟨?_, ?_⟩
  · rw [serveStep, lifeStep, Kernel.asProcess, hp₀, Option.bind_eq_bind, Option.bind_some,
      if_pos h.live, hact, Kernel.drain_one hring h.ring htail, hsqe, Option.map_some, hhead]
  · have hfg : Processes.foregroundPid k₀.processes = some 0 := by rw [hps, h.foregroundPid]
    rw [Kernel.foregroundEvents, if_pos hfg, Kernel.drainedEvents, hp₀]
    dsimp only
    rw [hact, Kernel.drainEvents_one hring h.ring htail hsqe, Kernel.sqeEvents, hop, if_pos rfl,
      hring]
    dsimp only
    rw [h0, h1, ht, hwait, hroot, ← hk₁]

/-- Afterwards nothing is published any more. -/
theorem Attended.consumed (h : Attended k p) {k₂ : Kernel} {p' : Process}
    (hps : k₂.processes = [p'])
    (hp' : p' = { p with pending := p'.pending, ringWaiter := p'.ringWaiter })
    (hinst : k₂.installed = k.installed) (hroot : k₂.ttbr0 = k.ttbr0)
    (htail : sqTail k₂.mem p.ringPa = sqHead k.mem p.ringPa + 1)
    (huart : k₂.uart.rx = k.uart.rx ∧ k₂.uart.rxIrq = k.uart.rxIrq) :
    Attended (k₂.ringStore p.ringPa offSqHead 4 (sqHead k.mem p.ringPa + 1).toNat) p' := by
  have hring : p'.ringPa = p.ringPa := by rw [hp']
  refine ⟨hps, by rw [hp']; exact h.live, hring ▸ h.ring, by rw [hp']; exact h.foreground,
    by rw [hp']; exact h.placed, ?_, ?_, ?_, huart.1.trans h.uart.1, huart.2.trans h.uart.2⟩
  · rw [hp']
    exact hinst.trans h.installed
  · rw [hp']
    exact hroot.trans h.root
  · rw [hring, Kernel.ringStore_mem, sqTail_store_sqHead, sqHead_store, htail]

theorem isUserRange_stack (ps : List Process) (pid : Nat) (hlen : len ≤ 4096) :
    Processes.isUserRange ps pid userStackVa len true = some true := by
  have hsize : userStackSize = 4096 := rfl
  have hva : userStackVa = 0x80_0010_0000 := rfl
  rw [Processes.isUserRange, if_neg (by omega), if_pos ⟨le_rfl, by omega⟩]

theorem Kernel.complete_uart (k : Kernel) (ringPa userData : Nat) (result : Int)
    (child : Option Nat) :
    (k.complete ringPa userData result child).uart.rx = k.uart.rx ∧
      (k.complete ringPa userData result child).uart.rxIrq = k.uart.rxIrq := by
  rw [complete]
  split <;> exact ⟨rfl, rfl⟩

/-- A submission takes no room from completions. -/
theorem Kernel.unreaped_submitRead (k : Kernel) {k₁ : Kernel} {ringPa : Nat}
    (hmem : k₁.mem = submitted k.mem ringPa opRead userStackVa len tag) :
    k₁.unreaped ringPa = k.unreaped ringPa := by
  rw [unreaped, unreaped, cqTail, cqHead, hmem,
    submitted_load k.mem ringPa opRead userStackVa len tag (by decide),
    submitted_load k.mem ringPa opRead userStackVa len tag (by decide)]
  rfl

theorem Attended.ringOwner (h : Attended k p) {k₁ : Kernel} (hps : k₁.processes = k.processes) :
    k₁.ringOwner p.ringPa = some 0 := by
  refine Kernel.ringOwner_of_inj (by rw [hps, h.getElem?]) h.live h.ring fun {j q} hq _ _ ↦ ?_
  rw [hps, h.processes, List.getElem?_singleton] at hq
  split_ifs at hq with hj
  exact hj

theorem findFinIdx?_isNone {α : Type} {n : Nat} {v : Vector (Option α) n} {i : Fin n}
    (hi : getElem v i i.isLt = none) (hbelow : ∀ j < i, getElem v j j.isLt ≠ none) :
    v.findFinIdx? Option.isNone = some i := by
  obtain ⟨xs, rfl⟩ := v
  rw [Vector.findFinIdx?_mk, Option.map_eq_some_iff]
  refine ⟨i, Array.findFinIdx?_eq_some_iff.mpr ⟨?_, fun j hj ↦ ?_⟩, rfl⟩
  · exact Option.isNone_iff_eq_none.mpr hi
  · exact fun hnone ↦ hbelow j hj (Option.isNone_iff_eq_none.mp hnone)

/-- There is nothing to deliver when nothing has come in. -/
theorem Kernel.drainInput_empty {k : Kernel} (h : k.input.contents = []) (pid buf : Nat)
    (hpos : 0 < len) : k.drainInput pid buf len = some (0, k) := by
  obtain ⟨n, rfl⟩ := Nat.exists_eq_succ_of_ne_zero hpos.ne'
  rw [drainInput, drainInputFrom, popInput_eq_none.mpr h]

/-- A read to the stack of the foreground process is then parked. -/
theorem Kernel.read_parks {k : Kernel} {pid : Nat} (hp : k.processes[pid]? = some p)
    (hfg : Processes.foregroundPid k.processes = some pid) (hempty : k.input.contents = [])
    (hpos : 0 < len) (hlen : len ≤ 4096) {i : Fin maxPending}
    (hi : p.pending.findFinIdx? Option.isNone = some i) (ringPa : Nat) :
    k.read pid ringPa userStackVa len tag = some { k with processes := k.processes.set pid {
      p with pending := p.pending.set i (some ⟨userStackVa, len, tag⟩) i.isLt } } := by
  rw [read, isUserRange_stack _ _ hlen, Option.bind_eq_bind, Option.bind_some,
    if_neg (by decide), if_neg hpos.ne', if_pos hfg, drainInput_empty hempty _ _ hpos,
    Option.bind_eq_bind, Option.bind_some]
  simp only [Nat.lt_irrefl, if_false, Processes.parkRead, hp, Option.bind_eq_bind,
    Option.bind_some, hi]

/-- A read that finds nothing is parked. -/
theorem Attended.park (h : Attended k p) (htag : tag < 2 ^ 64)
    (hpos : 0 < len) (hlen : len ≤ 4096) (hempty : k.input.contents = []) {i : Fin maxPending}
    (hi : p.pending.findFinIdx? Option.isNone = some i) :
    ∃ k', serveStep (k.submitRead p.ringPa len tag) (.drain 0) = some k' ∧
      Attended k' { p with pending := p.pending.set i (some ⟨userStackVa, len, tag⟩) i.isLt } ∧
      k'.input = k.input ∧ k'.unreaped p.ringPa = k.unreaped p.ringPa ∧
      (k.submitRead p.ringPa len tag).foregroundEvents (.drain 0) =
        [.parked i ⟨userStackVa, len, tag⟩ p.pending] := by
  obtain ⟨k₁, hk₁⟩ : ∃ k₁ : Kernel, k₁ = (k.submitRead p.ringPa len tag).log
    (.sqe 0 tag k.ttbr0 none) := ⟨_, rfl⟩
  have hmem : k₁.mem = submitted k.mem p.ringPa opRead userStackVa len tag := by rw [hk₁]; rfl
  have hroom := k.unreaped_submitRead hmem
  have hps : k₁.processes = [p] := by rw [hk₁]; exact h.processes
  have hp₁ : k₁.processes[0]? = some p := by rw [hps]; rfl
  have hfg : Processes.foregroundPid k₁.processes = some 0 := by
    rw [hps, ← h.processes, h.foregroundPid]
  have hempty₁ : k₁.input.contents = [] := by rw [hk₁]; exact hempty
  have hdeliver := Kernel.drainInput_empty hempty₁ 0 userStackVa hpos
  obtain ⟨k₂, hk₂⟩ : ∃ k₂ : Kernel, k₂ = { k₁ with processes :=
    [{ p with pending := p.pending.set i (some ⟨userStackVa, len, tag⟩) }] } := ⟨_, rfl⟩
  have hread : k₁.read 0 p.ringPa userStackVa len tag = some k₂ := by
    rw [Kernel.read_parks hp₁ hfg hempty₁ hpos hlen hi, hk₂, hps]
    rfl
  have hevent : k₁.readEvent 0 p.ringPa userStackVa len tag =
      some (.parked i ⟨userStackVa, len, tag⟩ p.pending) := by
    rw [Kernel.readEvent, hread, Option.bind_eq_bind, Option.bind_some,
      isUserRange_stack _ _ hlen, Option.bind_eq_bind, Option.bind_some,
      if_neg (by decide), if_neg hpos.ne', if_pos hfg, hdeliver, Option.bind_eq_bind,
      Option.bind_some]
    simp only [Nat.lt_irrefl, if_false, hp₁, Option.bind_eq_bind, Option.bind_some, hi]
  obtain ⟨hstep, hevents⟩ := h.drain (by omega) htag hk₁ hread
  refine ⟨_, hstep, h.consumed ?_ rfl ?_ ?_ ?_ ?_, ?_, ?_, by rw [hevents, hevent]; rfl⟩
  · rw [hk₂]
  · rw [hk₂, hk₁]
    rfl
  · rw [hk₂, hk₁]
    rfl
  · rw [← h.drained, hk₂]
    show sqTail k₁.mem p.ringPa = _
    rw [hmem, submitted_sqTail]
  · rw [hk₂, hk₁]
    exact ⟨rfl, rfl⟩
  · rw [Kernel.ringStore_input, hk₂, hk₁]
    rfl
  · have hmem₂ : k₂.mem = k₁.mem := by rw [hk₂]
    rw [Kernel.unreaped, Kernel.ringStore_mem, hmem₂, cqTail, cqHead,
      Mem.load_store_disjoint (by rw [offSqHead, offCqTail]; omega),
      Mem.load_store_disjoint (by rw [offSqHead, offCqHead]; omega)]
    exact hroom

/-! ### A byte arrives -/

/-- Delivering bytes takes none from the device, and does not mask its interrupt. -/
theorem drainInputFrom_uart {pid buf : Nat} : ∀ (n : Nat) {k k' : Kernel} {count c : Nat},
    Kernel.drainInputFrom pid buf n k count = some (c, k') →
    k'.uart.rx = k.uart.rx ∧ (k.uart.rxIrq = true → k'.uart.rxIrq = true)
  | 0, k, k', count, c, h => by
    obtain ⟨-, rfl⟩ := Prod.mk.inj (Option.some.inj h)
    exact ⟨rfl, id⟩
  | n + 1, k, k', count, c, h => by
    rw [Kernel.drainInputFrom] at h
    split at h
    · obtain ⟨-, rfl⟩ := Prod.mk.inj (Option.some.inj h)
      exact ⟨rfl, id⟩
    · rename_i b input uart hpop
      obtain ⟨-, hrx, -, hirq⟩ := popInput_eq_some hpop
      obtain ⟨⟨ok, k₁⟩, hcopy, h⟩ := Option.bind_eq_some_iff.mp h
      have huart : k₁.uart = uart := by
        obtain ⟨valid, -, hcopy⟩ := Option.bind_eq_some_iff.mp hcopy
        split_ifs at hcopy
        · obtain ⟨k₂, hk₂, hcopy⟩ := Option.bind_eq_some_iff.mp hcopy
          obtain ⟨-, rfl⟩ := Prod.mk.inj (Option.some.inj hcopy)
          obtain ⟨k₃, hs, hk₂⟩ := Option.bind_eq_some_iff.mp hk₂
          obtain rfl := Option.some.inj hk₂
          obtain ⟨pa, -, rfl⟩ := Option.map_eq_some_iff.mp hs
          rfl
        · obtain ⟨-, rfl⟩ := Prod.mk.inj (Option.some.inj hcopy)
          rfl
      have hend : k'.uart.rx = k₁.uart.rx ∧ (k₁.uart.rxIrq = true → k'.uart.rxIrq = true) := by
        dsimp only at h
        split_ifs at h
        · exact drainInputFrom_uart n h
        · obtain ⟨-, rfl⟩ := Prod.mk.inj (Option.some.inj h)
          exact ⟨rfl, id⟩
      rw [huart] at hend
      refine ⟨hend.1.trans hrx, fun hon ↦ hend.2 ?_⟩
      rw [hirq, hon, Bool.true_or]

theorem pollPendingFrom_uart {pid ringPa : Nat} {pending : Vector (Option Pending) maxPending}
    {b b' : Bool} (h : Kernel.pollPendingFrom pid ringPa pending maxPending k b = some (b', k')) :
    k'.uart.rx = k.uart.rx ∧ (k.uart.rxIrq = true → k'.uart.rxIrq = true) := by
  have htrans : ∀ {k₁ k₂ : Kernel}, (k₁.uart.rx = k.uart.rx ∧
      (k.uart.rxIrq = true → k₁.uart.rxIrq = true)) → (k₂.uart.rx = k₁.uart.rx ∧
      (k₁.uart.rxIrq = true → k₂.uart.rxIrq = true)) → k₂.uart.rx = k.uart.rx ∧
      (k.uart.rxIrq = true → k₂.uart.rxIrq = true) := fun h₁ h₂ ↦
    ⟨h₂.1.trans h₁.1, fun hon ↦ h₂.2 (h₁.2 hon)⟩
  refine Kernel.pollPendingFrom_invariant (I := fun _ k₁ _ ↦ k₁.uart.rx = k.uart.rx ∧
    (k.uart.rxIrq = true → k₁.uart.rxIrq = true)) (fun _ _ _ _ hI ↦ hI)
    (fun i k₁ k₂ b r _ hd hI ↦ htrans hI (drainInputFrom_uart _ hd))
    (fun i k₁ k₂ b r count _ _ hd hI ↦ ?_) maxPending le_rfl ⟨rfl, id⟩ h
  have hc := k₂.complete_uart ringPa r.userData count none
  refine htrans (htrans hI (drainInputFrom_uart _ hd)) ⟨hc.1, fun hon ↦ ?_⟩
  exact hc.2.trans hon

end Attended

section Header

variable {strict : Prop} {L : Layout} {own : Nat → Owner} {k k' : Kernel} {pid : Nat} {p : Process}

/-- While the parked reads are gone through, the kernel stores in the ring page only what it
completes; the first completion is posted if there is room for it. -/
structure RingKept (p : Process) (k : Kernel) (es : List ReadEvent) (k₁ : Kernel) : Prop where
  header : ∀ {off n : Nat}, off + n ≤ offCqTail →
    k₁.mem.load (p.ringPa + off) n = k.mem.load (p.ringPa + off) n
  page : es = [] → Set.EqOn k₁.mem k.mem (frameAt p.ringPa)
  first : ∀ e, es = [e] → k.unreaped p.ringPa < ringEntries.toNat →
    e.Posted ∧ k₁.unreaped p.ringPa = k.unreaped p.ringPa + 1

theorem RingKept.delivered {es : List ReadEvent} {k₁ k₂ : Kernel} (h : RingKept p k es k₁)
    (hm : Set.EqOn k₂.mem k₁.mem (frameAt p.ringPa)) : RingKept p k es k₂ where
  header {off n} hoff := by
    rw [offCqTail] at hoff
    rw [Mem.load_eqOn hm (by omega) (by rw [frameSize]; omega)]
    exact h.header hoff
  page hes := hm.trans (h.page hes)
  first e he hroom := Kernel.unreaped_of_eqOn hm ▸ h.first e he hroom

theorem RingKept.completed {es : List ReadEvent} {k₁ k₂ : Kernel} (h : RingKept p k es k₁)
    {slot : Option (Fin maxPending)} {len count tag : Nat} {items : List UInt8}
    (hk₂ : k₂.mem = (k₁.complete p.ringPa tag count none).mem) :
    RingKept p k (es ++ [.done slot len items
      ⟨tag, k₁.completionsSince (k₁.complete p.ringPa tag count none)⟩]) k₂ where
  header {off n} hoff := by
    rw [hk₂, k₁.complete_load p.ringPa tag count none (.inl hoff)]
    exact h.header hoff
  page hes := absurd hes (List.append_ne_nil_of_right_ne_nil _ (List.cons_ne_nil _ _))
  first e he hroom := by
    cases es with
    | nil =>
      obtain rfl := (List.cons.inj he).1
      rw [← Kernel.unreaped_of_eqOn (h.page rfl)] at hroom ⊢
      refine ⟨Kernel.posted_of_room hroom tag count, ?_⟩
      rw [← k₁.unreaped_complete p.ringPa tag count none hroom, Kernel.unreaped, Kernel.unreaped,
        hk₂]
    | cons e' es => simp at he

theorem Inv.poll_ringKept (h : Inv strict L own k) (hp : k.processes[pid]? = some p)
    (hne : p.ringPa ≠ 0) (hoff : p.loaded.OffRing) (hr : k.roots (some pid) = some k.ttbr0)
    (hfg : Processes.foregroundPid k.processes = some pid)
    {pending : Vector (Option Pending) maxPending} {b b' : Bool}
    (hloop : Kernel.pollPendingFrom pid p.ringPa pending maxPending k b = some (b', k')) :
    RingKept p k (Kernel.pollFromEvents pid p.ringPa pending maxPending k) k' := by
  -- a delivery on the way, in the space of the process
  have hdeliver : ∀ {k₁ k₂ : Kernel} {buf len count : Nat},
      Inv strict L own k₁ ∧ Confined L pid (some pid) p.ringPa own k own k₁ →
      k₁.drainInput pid buf len = some (count, k₂) →
      Set.EqOn k₂.mem k₁.mem (frameAt p.ringPa) := by
    rintro k₁ k₂ buf len count ⟨h₁, hc₁⟩ hd
    obtain ⟨p₁, hp₁, ht⟩ := hc₁.entries hp
    have hring₁ : p₁.ringPa = p.ringPa := by rw [ht.rest]
    have hr₁ : k₁.roots (some pid) = some k₁.ttbr0 := by rw [hc₁.ttbr0]; exact hc₁.roots hr
    rw [← hring₁]
    refine h₁.drainInput_ring hp₁ (hring₁ ▸ hne) ?_ hr₁ hd
    rw [ht.rest]
    exact hoff
  have hstart : (Inv strict L own k ∧ Confined L pid (some pid) p.ringPa own k own k) ∧
      RingKept p k [] k :=
    ⟨⟨h, .refl _ _ _ _ _ _⟩, fun _ ↦ rfl, fun _ ↦ Set.eqOn_refl _ _, by rintro _ ⟨⟩⟩
  exact (Kernel.pollFrom_events (I := fun _ es k₁ ↦
      (Inv strict L own k₁ ∧ Confined L pid (some pid) p.ringPa own k own k₁) ∧ RingKept p k es k₁)
    (fun _ _ _ _ hI ↦ hI)
    (fun i es k₁ k₂ r _ hd hI ↦
      ⟨Inv.pollDeliver hp hr hfg hI.1 hd, hI.2.delivered (hdeliver hI.1 hd)⟩)
    (fun i es k₁ k₂ r count _ _ hd hI ↦
      ⟨Inv.pollComplete hp hne hr (Inv.pollDeliver hp hr hfg hI.1 hd) r.userData count i,
        (hI.2.delivered (hdeliver hI.1 hd)).completed rfl⟩)
    maxPending le_rfl hstart hloop).2

end Header

section Byte

variable {L : Layout} {k k' : Kernel} {p : Process}

/-- One byte comes in when there is nothing. -/
theorem Attended.received (h : Attended k p) (hempty : k.input.contents = []) (b : UInt8) :
    k.getcs (.uart [b]) = [b] ∧ (k.received [b]).input.contents = [b] ∧
      (k.received [b]).uart.rx = [] ∧ (k.received [b]).uart.rxIrq = true := by
  have hin := k.received_contents [b]
  have hdrained : Drained k.input { k.uart with rx := k.uart.rx ++ [b] } (k.received [b]).input
    (k.received [b]).uart := drainUart_drained ..
  obtain ⟨k₁, hk₁⟩ : ∃ k₁ : Kernel, k₁ = k.received [b] := ⟨_, rfl⟩
  rw [← hk₁] at hdrained hin ⊢
  rw [hempty, List.nil_append] at hin
  obtain ⟨⟨taken, hrx, hcontents⟩, hstops, hirq, -⟩ := hdrained
  dsimp only at hrx hirq
  rw [h.uart.1, List.nil_append] at hrx
  rw [hempty, List.nil_append] at hcontents
  have hlen : taken.length ≤ 1 := by
    have := congrArg List.length hrx
    rw [List.length_append, List.length_singleton] at this
    omega
  have hfull : k₁.input.isFull = false := by
    rw [← Bool.not_eq_true, InputBuf.isFull_iff, hcontents, inputBufSize]
    omega
  have hrest := hstops.resolve_left (by rw [hfull]; exact Bool.false_ne_true)
  rw [hrest, List.append_nil] at hrx
  rw [← hrx] at hcontents
  refine ⟨hin.symm.trans hcontents, hcontents, hrest, ?_⟩
  rw [hirq, hfull, h.uart.2]
  rfl

/-- **A byte for a process that waits for one** goes to the first of its parked reads. -/
theorem Attended.byte (h : Attended k p) (hlife : LifeInv L k) (hg : k.Granting)
    (hacc : ∀ (i : Fin maxPending) (r : Pending), getElem p.pending i i.isLt = some r →
      (readRules p.loaded).accepts r) (hempty : k.input.contents = []) (b : UInt8)
    {i : Fin maxPending} {r : Pending} (hi : getElem p.pending i i.isLt = some r)
    (hbelow : ∀ j < i, getElem p.pending j j.isLt = none)
    (hroom : k.unreaped p.ringPa < ringEntries.toNat) :
    ∃ k' p', serveStep k (.uart [b]) = some k' ∧ Attended k' p' ∧
      p'.pending = p.pending.set i none i.isLt ∧ k'.input.contents = [] ∧
      k.foregroundEvents (.uart [b]) =
        [.done (some i) r.len [b] ⟨r.userData, [.cqe (some 0) r.userData 1 none]⟩] ∧
      k'.unreaped p'.ringPa = k.unreaped p.ringPa + 1 := by
  obtain ⟨-, hin₁, hrx₁, hirq₁⟩ := h.received hempty b
  have hlife₁ := hlife.received [b]
  obtain ⟨k₁, hk₁⟩ : ∃ k₁ : Kernel, k₁ = k.received [b] := ⟨_, rfl⟩
  have hq₁ : Quiet k k₁ := hk₁ ▸ received_quiet k [b]
  have hmem₁ : k₁.mem = k.mem := by rw [hk₁]; rfl
  rw [← hk₁] at hin₁ hrx₁ hirq₁ hlife₁
  have hp₁ : k₁.processes[0]? = some p := by rw [hq₁.processes, h.getElem?]
  have hfg₁ : Processes.foregroundPid k₁.processes = some 0 := by
    rw [hq₁.processes, h.foregroundPid]
  have hroot₁ : k₁.ttbr0 = p.ttbr0 := hq₁.ttbr0.trans h.root
  obtain ⟨own, hinv₁⟩ := hlife₁.inv
  have hr₁ : k₁.roots (some 0) = some k₁.ttbr0 := by
    rw [hroot₁]
    exact Inv.root_of_live hp₁ h.live
  have hg₁ : k₁.Granting := hg.of_same (.of_quiet hq₁) hmem₁
  have hback := hg₁.backed hinv₁ hp₁ h.live h.placed hroot₁
  -- the loop runs through, and serves one read
  obtain ⟨completed, k₂, hloop⟩ : ∃ completed k₂, Kernel.pollPendingFrom 0 p.ringPa p.pending
      maxPending k₁ false = some (completed, k₂) :=
    Inv.pollPendingFrom_isSome hp₁ h.ring hr₁ hfg₁ maxPending false le_rfl
      ⟨hinv₁, .refl _ _ _ _ _ _⟩ hback
  obtain ⟨hinv₂, hc₂⟩ := hinv₁.pollPendingFrom hp₁ h.ring hr₁ hfg₁ hloop
  obtain ⟨p₂, hp₂, -, hscan, hrec⟩ := hinv₁.poll_scan hp₁ h.ring hr₁ hfg₁ hacc hloop
  have hkept := hinv₁.poll_ringKept hp₁ h.ring h.placed.offRing hr₁ hfg₁ hloop
  have hfirst : (k₁.reader 0 p).Firsts (readRules p.loaded) := fun j s hs ↦
    (readRules p.loaded).first_of_all s (hacc j s hs) (h.placed.noOverlap.all (hacc j s hs))
  have hqueue : (k₁.reader 0 p).queue = [b] := by
    rw [Kernel.reader, if_pos hfg₁, hin₁]
  obtain ⟨answer, htag, hevents, hreader⟩ := (hscan.single hqueue hfirst hi hbelow).2 i.isLt
  -- there was room for the completion
  have hunreaped : k₁.unreaped p.ringPa = k.unreaped p.ringPa := by
    rw [Kernel.unreaped, Kernel.unreaped, hmem₁]
  rw [hevents] at hkept hrec
  rw [← hunreaped] at hroom ⊢
  obtain ⟨hposted, hone₂⟩ := hkept.first _ rfl hroom
  obtain rfl : answer = ⟨r.userData, [.cqe (some 0) r.userData 1 none]⟩ := by
    obtain ⟨result, hanswer, rfl, -⟩ := ((List.forall_mem_singleton.mp hrec.logged).answered
      (List.forall_mem_singleton.mp (hevents ▸ hscan.flow.bounded)) hposted)
    obtain ⟨userData, completions⟩ := answer
    obtain rfl : userData = r.userData := htag
    rw [show completions = _ from hanswer]
    rfl
  rw [Kernel.reader, hc₂.foregroundPid, if_pos hfg₁, Parked.State.mk.injEq] at hreader
  have hstep := Kernel.pollPending_own hfg₁ hp₁ h.ring hroot₁ hloop
  have hone : k₂.processes = [p₂] := by
    have hlen := Kernel.pollPendingFrom_length hloop
    rw [hq₁.processes, h.processes] at hlen
    obtain ⟨q, hq⟩ := List.length_eq_one_iff.mp hlen
    rw [hq] at hp₂ ⊢
    rw [Option.some.inj hp₂]
  have huart := pollPendingFrom_uart hloop
  have hin₂ : k₂.input.contents = [] := hreader.1
  -- the waiter may have been taken
  obtain ⟨p', hp', hps⟩ : ∃ p' : Process, p' = { p₂ with ringWaiter := p'.ringWaiter } ∧
      (if completed then (Processes.takeWaiter k₂.processes 0).2 else k₂.processes) = [p'] := by
    rw [hone]
    cases completed with
    | false => exact ⟨p₂, rfl, rfl⟩
    | true => exact ⟨{ p₂ with ringWaiter := none }, rfl, rfl⟩
  obtain ⟨q, hq, ht⟩ := hc₂.entries hp₁
  obtain rfl := Option.some.inj (hp₂.symm.trans hq)
  have huartIrq : serveStep k (.uart [b]) = k₁.pollPending := by
    rw [serveStep, if_pos h.uart.2, uartIrq_eq, ← hk₁]
  refine ⟨_, p', huartIrq.trans hstep,
    ⟨hps, ?_, ?_, ?_, ?_, ?_, ?_, ?_, ?_, ?_⟩, ?_, hin₂, ?_, ?_⟩
  · rw [hp', ht.rest]
    exact h.live
  · rw [hp', ht.rest]
    exact h.ring
  · rw [hp', ht.rest]
    exact h.foreground
  · rw [hp', ht.rest]
    exact h.placed
  · rw [hp', ht.rest]
    exact hc₂.installed.trans (hq₁.installed.trans h.installed)
  · rw [hp', ht.rest]
    exact hc₂.ttbr0.trans hroot₁
  · rw [hp', ht.rest]
    show sqTail k₂.mem p.ringPa = sqHead k₂.mem p.ringPa
    rw [sqTail, sqHead, hkept.header (by decide), hkept.header (by decide), hmem₁]
    exact h.drained
  · exact huart.1.trans hrx₁
  · exact huart.2 hirq₁
  · rw [hp']
    exact hreader.2
  · rw [Kernel.foregroundEvents, ← hk₁, Kernel.pollEvents, hfg₁]
    dsimp only
    rw [hp₁]
    dsimp only
    rw [if_neg h.ring, if_neg (not_not.mpr hroot₁), hevents]
    rfl
  · rw [hp', ht.rest]
    exact hone₂

end Byte

end Jatuli

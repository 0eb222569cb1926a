import Jatuli.UserRange
import Jatuli.Console

/-!
# What `drain_input` delivers

`drain_input` takes bytes off the front of the input ring and stores each where the buffer has room
for it.  Its result is the number of bytes that are in the buffer afterwards, in the order of the
ring.  It stops when the buffer is full or the ring is empty; or at a byte whose place is refused,
and that byte is gone.  Where the segments of the process do not overlap nothing is refused, since
every place in an accepted buffer is accepted by itself (`Loaded.NoOverlap.subrange`).
-/

set_option autoImplicit false

namespace Jatuli

/-! ## Bytes in user memory -/

/-- Through the live address space the byte `b` is found at `va`, in a page EL0 may write to. -/
def Kernel.Holds (k : Kernel) (va : Nat) (b : UInt8) : Prop :=
  ∃ pa, el0WritablePa k.mem k.ttbr0 va = some pa ∧ k.mem pa = b

/-- A list of results from the results one by one. -/
theorem mapM_range_eq_some {β : Type} {f : Nat → Option β} {l : List β}
    (h : ∀ (i : Nat) (b : β), l[i]? = some b → f i = some b) :
    (List.range l.length).mapM f = some l := by
  induction l generalizing f with
  | nil => rfl
  | cons b l ih =>
    have htail : ((List.range l.length).map Nat.succ).mapM f = some l := by
      rw [List.mapM_map]
      exact ih fun i c hc ↦ h (i + 1) c hc
    rw [List.length_cons, List.range_succ_eq_map, List.mapM_cons, h 0 b rfl, htail]
    rfl

/-- What the kernel reads where bytes are held. -/
theorem Kernel.readUser_of_holds {k : Kernel} {buf : Nat} {bytes : List UInt8}
    (h : ∀ (i : Nat) (b : UInt8), bytes[i]? = some b → k.Holds (buf + i) b) :
    k.readUser buf bytes.length = some bytes := by
  refine mapM_range_eq_some fun i b hb ↦ ?_
  obtain ⟨pa, hpa, rfl⟩ := h i b hb
  obtain ⟨e, he, hpa⟩ := Option.bind_eq_some_iff.mp hpa
  rw [Option.ite_none_right_eq_some] at hpa
  rw [readablePa, he, Option.map_some, Option.some.inj hpa.2]
  rfl

section Delivery

variable {strict : Prop} {L : Layout} {own : Nat → Owner} {k k' : Kernel} {pid : Nat} {p : Process}

/-- A write to a page of a process moves nothing in its address space. -/
theorem Inv.el0WritablePa_kept (h : Inv strict L own k) (hp : k.processes[pid]? = some p) {r : Nat}
    (hr : k.roots (some pid) = some r) {va f : Nat} (hf : (va, f) ∈ p.frames) {m : Mem}
    (hm : Set.EqOn m k.mem (frameAt f)ᶜ) {x pa : Nat} (hx : el0WritablePa k.mem r x = some pa) :
    el0WritablePa m r x = some pa := by
  obtain ⟨q, pq, va', g, hq, hpq, hg, hpage, -⟩ := h.el0Writable hr hx
  obtain rfl := Option.some.inj hq
  have hslot : tableIndex x 39 = slotOf (some pid) := by
    have hpath := pagePath_of_page hpage
    rw [← (h.owned.slot _ va' g ((Kernel.mem_pages hpq).mpr hg)).2]
    exact (List.cons.inj hpath).1.symm
  obtain ⟨e, he, hpa⟩ := Option.bind_eq_some_iff.mp hx
  obtain ⟨hlt, t, ht, hentry, hc⟩ := descriptorAt_eq_some (h.root_mask hr) he
  have htables : ∀ g q, Managed L.start g → own g = .node (some pid) q →
      Set.EqOn m k.mem (frameAt g) := by
    intro g q hmg hog
    obtain ⟨hmf, hof⟩ := h.ofFrames hp hf
    refine eqOn_frameAt hmf.aligned hmg.aligned (fun e ↦ ?_) hm
    rw [← e, hof] at hog
    cases hog
  obtain ⟨ht', hentry'⟩ := h.owned.tree.leafEntry_congr hr htables hslot ht
  have htype : e &&& descPage = descPage := by
    rw [← hentry]
    exact (child_eq_some.mp hc).1
  rw [el0WritablePa, descriptorAt_of_entry (h.root_mask hr) rfl ht' (hentry'.trans hentry) htype
    hlt]
  exact hpa

/-- **One `STTRB`** puts the byte there, and leaves all other bytes where they were. -/
theorem Inv.sttrb (h : Inv strict L own k) (hr : k.roots (some pid) = some k.ttbr0) {va : Nat}
    {b : UInt8} (hs : k.sttrb va b = some k') : Inv strict L own k' ∧ k'.Holds va b ∧
      ∀ x c, x ≠ va → k.Holds x c → k'.Holds x c := by
  obtain ⟨pa, hpa, rfl⟩ := Option.map_eq_some_iff.mp hs
  obtain ⟨q, p, va', f, hq, hp, hf, hpage, rfl⟩ := h.el0Writable hr hpa
  obtain rfl := Option.some.inj hq
  have hout : Set.EqOn (k.mem.fill (f + va % 4096) [b]) k.mem (frameAt f)ᶜ :=
    Mem.fill_eqOn (by omega) (by rw [List.length_singleton, frameSize]; omega)
  refine ⟨h.write_page (.of_quiet (k.setMem_quiet _)) hp hf hout,
    ⟨_, h.el0WritablePa_kept hp hr hf hout hpa, Mem.fill_get [b] _ _ 0 Nat.one_pos⟩, ?_⟩
  rintro x c hne ⟨px, hpx, rfl⟩
  refine ⟨px, h.el0WritablePa_kept hp hr hf hout hpx, ?_⟩
  -- the other byte is in another frame, or elsewhere in the same one
  obtain ⟨q, p', vx, fx, hq, hp', hfx, hpagex, rfl⟩ := h.el0Writable hr hpx
  obtain rfl := Option.some.inj hq
  obtain rfl := Option.some.inj (hp.symm.trans hp')
  have hal := (h.ofFrames hp hf).1.aligned
  have halx := (h.ofFrames hp hfx).1.aligned
  have hdiff : fx + x % 4096 ≠ f + va % 4096 := by
    intro he
    obtain rfl : fx = f := by omega
    obtain rfl := h.frames_inj hp hf hfx
    omega
  rcases Nat.lt_or_gt_of_ne hdiff with hlt | hgt
  · exact Mem.fill_of_lt _ _ hlt
  · exact Mem.fill_of_ge _ _ (by rw [List.length_singleton]; omega)

/-- Everything process `pid` may have written is mapped for writing. -/
def Kernel.Backed (k : Kernel) (pid : Nat) : Prop :=
  ∀ va, Processes.isUserRange k.processes pid va 1 true = some true →
    ∃ pa, el0WritablePa k.mem k.ttbr0 va = some pa

/-- A process whose image is placed well is backed. -/
theorem Kernel.Granting.backed (hg : k.Granting) (h : Inv strict L own k)
    (hp : k.processes[pid]? = some p) (hl : p.live = true) (hplaced : p.loaded.Placed)
    (hroot : k.ttbr0 = p.ttbr0) : k.Backed pid := by
  intro va hva
  obtain ⟨e, he, haccess⟩ := hg.descriptor h hp hl hplaced hva le_rfl (Nat.lt_succ_self va)
  refine ⟨(e &&& addrMask) ||| (va &&& 0xFFF), ?_⟩
  rw [el0WritablePa, hroot, he, Option.bind_some, if_pos (haccess.2 rfl)]

/-- It stays so when a page of the process is written. -/
theorem Inv.backed_write (h : Inv strict L own k) (hp : k.processes[pid]? = some p)
    (hr : k.roots (some pid) = some k.ttbr0) (hb : k.Backed pid) {va f : Nat}
    (hf : (va, f) ∈ p.frames) (hm : Set.EqOn k'.mem k.mem (frameAt f)ᶜ)
    (hroot : k'.ttbr0 = k.ttbr0)
    (hps : ∀ x, Processes.isUserRange k'.processes pid x 1 true =
      Processes.isUserRange k.processes pid x 1 true) : k'.Backed pid := by
  intro x hx
  obtain ⟨px, hpx⟩ := hb x (hps x ▸ hx)
  rw [hroot]
  exact ⟨px, h.el0WritablePa_kept hp hr hf hm hpx⟩

theorem Inv.backed_sttrb (h : Inv strict L own k) (hr : k.roots (some pid) = some k.ttbr0)
    (hb : k.Backed pid) {va : Nat} {b : UInt8} (hs : k.sttrb va b = some k') : k'.Backed pid := by
  obtain ⟨pa, hpa, rfl⟩ := Option.map_eq_some_iff.mp hs
  obtain ⟨q, p, va', f, hq, hp, hf, hpage, rfl⟩ := h.el0Writable hr hpa
  obtain rfl := Option.some.inj hq
  exact h.backed_write hp hr hb hf (Mem.fill_eqOn (by omega)
    (by rw [List.length_singleton, frameSize]; omega)) rfl fun _ ↦ rfl

/-! ## The loop -/

/-- What a delivery to a buffer with room for `n` bytes from `dst` on has moved: `bytes` are off the
front of the ring; and it has stopped with the buffer full, with the ring empty, or at a byte that
was refused and is lost. -/
structure Moved (pid dst n : Nat) (k : Kernel) (bytes lost : List UInt8) (k' : Kernel) : Prop where
  contents : k.input.contents = bytes ++ lost ++ k'.input.contents
  fits : bytes.length ≤ n
  stops : lost = [] ∧ (bytes.length = n ∨ k'.input.contents = []) ∨ bytes.length < n ∧
    Processes.isUserRange k.processes pid (dst + bytes.length) 1 true = some false

/-- Going on after a first byte. -/
theorem Moved.cons {dst n : Nat} {k₁ : Kernel} {b : UInt8} {bytes lost : List UInt8}
    (h : Moved pid (dst + 1) n k₁ bytes lost k') (hb : k.input.contents = b :: k₁.input.contents)
    (hps : k₁.processes = k.processes) :
    Moved pid dst (n + 1) k (b :: bytes) lost k' where
  contents := by
    rw [hb, h.contents]
    rfl
  fits := Nat.succ_le_succ h.fits
  stops := by
    rw [List.length_cons, ← hps, show dst + (bytes.length + 1) = dst + 1 + bytes.length by omega]
    exact h.stops.imp (And.imp_right (Or.imp_left (congrArg (· + 1))))
      (And.imp_left Nat.succ_lt_succ)

/-- No more bytes are moved than the ring can hold. -/
theorem Moved.length_lt {dst n : Nat} {bytes lost : List UInt8}
    (h : Moved pid dst n k bytes lost k') : bytes.length < inputBufSize := by
  have hlt := k.input.contents_length_lt
  rw [h.contents, List.length_append, List.length_append] at hlt
  omega

/-- Where nothing was delivered although the first place is accepted, there was nothing. -/
theorem Moved.starved {buf len : Nat} {lost : List UInt8} (h : Moved pid buf len k [] lost k')
    (hlen : 0 < len) (hok : Processes.isUserRange k.processes pid buf 1 true = some true) :
    lost = [] ∧ k.input.contents = [] ∧ k'.input.contents = [] := by
  rcases h.stops with ⟨rfl, hfull | hempty⟩ | ⟨-, hrefused⟩
  · exact absurd hfull hlen.ne
  · exact ⟨rfl, h.contents.trans hempty, hempty⟩
  · rw [List.length_nil, Nat.add_zero, hok] at hrefused
    cases hrefused

/-- Where every place is accepted nothing is lost. -/
theorem Moved.lossless {buf len : Nat} {bytes lost : List UInt8}
    (h : Moved pid buf len k bytes lost k')
    (hok : ∀ i < len, Processes.isUserRange k.processes pid (buf + i) 1 true = some true) :
    lost = [] := by
  rcases h.stops with ⟨rfl, -⟩ | ⟨hlt, hrefused⟩
  · rfl
  · rw [hok _ hlt] at hrefused
    cases hrefused

/-- The loop of `drain_input`: what it counts has been moved; and in the space of the process it is
in the buffer, in that order. -/
theorem Kernel.drainInputFrom_moved {buf : Nat} : ∀ (n : Nat) {k k' : Kernel} {count c : Nat},
    Kernel.drainInputFrom pid buf n k count = some (c, k') →
    ∃ bytes lost, c = count + bytes.length ∧ Moved pid (buf + count) n k bytes lost k' ∧
      ∀ {strict : Prop} {L : Layout} {own : Nat → Owner}, Inv strict L own k →
        k.roots (some pid) = some k.ttbr0 →
        (∀ (i : Nat) (b : UInt8), bytes[i]? = some b → k'.Holds (buf + count + i) b) ∧
        ∀ x b, x < buf + count → k.Holds x b → k'.Holds x b
  | 0, k, k', count, c, hd => by
    obtain ⟨rfl, rfl⟩ := Prod.mk.inj (Option.some.inj hd)
    exact ⟨[], [], rfl, ⟨rfl, le_rfl, .inl ⟨rfl, .inl rfl⟩⟩, fun _ _ ↦
      ⟨by simp, fun _ _ _ hx ↦ hx⟩⟩
  | n + 1, k, k', count, c, hd => by
    rw [Kernel.drainInputFrom] at hd
    split at hd
    · rename_i hpop
      obtain ⟨rfl, rfl⟩ := Prod.mk.inj (Option.some.inj hd)
      have hempty := popInput_eq_none.mp hpop
      exact ⟨[], [], rfl, ⟨rfl, Nat.zero_le _, .inl ⟨rfl, .inr hempty⟩⟩, fun _ _ ↦
        ⟨by simp, fun _ _ _ hx ↦ hx⟩⟩
    · rename_i b input uart hpop
      obtain ⟨hcontents, -⟩ := popInput_eq_some hpop
      obtain ⟨⟨ok, k₁⟩, hcopy, hd⟩ := Option.bind_eq_some_iff.mp hd
      obtain ⟨valid, hvalid, hcopy⟩ := Option.bind_eq_some_iff.mp hcopy
      cases valid with
      | false =>
        -- the byte is off the ring, and not in the buffer
        obtain ⟨rfl, rfl⟩ := Prod.mk.inj (Option.some.inj hcopy)
        obtain ⟨rfl, rfl⟩ := Prod.mk.inj (Option.some.inj hd)
        exact ⟨[], [b], rfl, ⟨hcontents, Nat.zero_le _, .inr ⟨Nat.succ_pos n, hvalid⟩⟩, fun _ _ ↦
          ⟨by simp, fun _ _ _ hx ↦ hx⟩⟩
      | true =>
        obtain ⟨k₂, hk₂, hcopy⟩ := Option.bind_eq_some_iff.mp hcopy
        obtain ⟨rfl, rfl⟩ := Prod.mk.inj (Option.some.inj hcopy)
        obtain ⟨k₃, hs, hk₂⟩ := Option.bind_eq_some_iff.mp hk₂
        obtain rfl := Option.some.inj hk₂
        have hcopied := hs
        obtain ⟨pa, -, rfl⟩ := Option.map_eq_some_iff.mp hs
        obtain ⟨bytes, lost, rfl, hmoved, hrest⟩ := drainInputFrom_moved n hd
        refine ⟨b :: bytes, lost, by rw [List.length_cons]; omega, hmoved.cons hcontents rfl,
          fun h hr ↦ ?_⟩
        have hpopped : Inv _ _ _ { k with input, uart } :=
          h.of_mem_eq ⟨rfl, fun _ ↦ rfl, rfl, rfl, rfl⟩ rfl
        have hr₁ : ({ k with input, uart } : Kernel).roots (some pid) = some k.ttbr0 := hr
        obtain ⟨h₃, hheld, hkept⟩ := hpopped.sttrb hr₁ hcopied
        obtain ⟨hheld', hkept'⟩ := hrest h₃ hr
        refine ⟨fun i c hc ↦ ?_, fun x c hx hc ↦ ?_⟩
        · rcases i with - | i
          · obtain rfl := Option.some.inj hc
            exact hkept' _ _ (by omega) hheld
          · have := hheld' i c hc
            rwa [show buf + (count + 1) + i = buf + count + (i + 1) by omega] at this
        · exact hkept' x c (by omega) (hkept x c (by omega) hc)

/-- Where everything is mapped, the loop runs through. -/
theorem Inv.drainInputFrom_isSome {buf : Nat} (hp : k.processes[pid]? = some p) :
    ∀ (n : Nat) {k₁ : Kernel} (count : Nat), k₁.processes = k.processes →
    Inv strict L own k₁ → k₁.roots (some pid) = some k₁.ttbr0 → k₁.Backed pid →
    ∃ c k', Kernel.drainInputFrom pid buf n k₁ count = some (c, k') ∧ k'.Backed pid
  | 0, k₁, count, _, _, _, hb => ⟨count, k₁, rfl, hb⟩
  | n + 1, k₁, count, hps, h, hr, hb => by
    rw [Kernel.drainInputFrom]
    cases hpop : popInput k₁.input k₁.uart with
    | none => exact ⟨count, k₁, rfl, hb⟩
    | some x =>
      obtain ⟨b, input, uart⟩ := x
      obtain ⟨k₂, hk₂⟩ : ∃ k₂ : Kernel, k₂ = { k₁ with input, uart } := ⟨_, rfl⟩
      have h₂ : Inv strict L own k₂ := by
        rw [hk₂]
        exact h.of_mem_eq ⟨rfl, fun _ ↦ rfl, rfl, rfl, rfl⟩ rfl
      have hr₂ : k₂.roots (some pid) = some k₂.ttbr0 := by rw [hk₂]; exact hr
      have hb₂ : k₂.Backed pid := by rw [hk₂]; exact hb
      have hps₂ : k₂.processes = k.processes := by rw [hk₂]; exact hps
      dsimp only
      rw [← hk₂, Kernel.copyToUser]
      cases hvalid : Processes.isUserRange k₂.processes pid (buf + count) [b].length true with
      | none =>
        rw [Processes.isUserRange, hps₂, hp] at hvalid
        split_ifs at hvalid
        cases hvalid
      | some valid =>
        cases valid with
        | false => exact ⟨count, k₂, rfl, hb₂⟩
        | true =>
          obtain ⟨pa, hpa⟩ := hb₂ _ hvalid
          have hs : k₂.sttrb (buf + count) b = some (k₂.setMem (k₂.mem.fill pa [b])) := by
            rw [Kernel.sttrb, hpa, Option.map_some]
          obtain ⟨h₃, -⟩ := h₂.sttrb hr₂ hs
          have hb₃ := h₂.backed_sttrb hr₂ hb₂ hs
          have hps₃ : (k₂.setMem (k₂.mem.fill pa [b])).processes = k.processes := hps₂
          obtain ⟨c, k', hk', hb'⟩ := drainInputFrom_isSome hp n (count + 1) hps₃ h₃ hr₂ hb₃
          refine ⟨c, k', ?_, hb'⟩
          simp only [Kernel.sttrbs, hs, Option.bind_eq_bind, Option.bind_some, if_true]
          exact hk'

/-- **What `drain_input` does**: it moves bytes off the front of the ring, and its result says how
many; in the space of the process they are in the buffer. -/
theorem Kernel.drainInput_moved {buf len count : Nat}
    (hd : k.drainInput pid buf len = some (count, k')) :
    ∃ bytes lost, count = bytes.length ∧ Moved pid buf len k bytes lost k' ∧
      ∀ {strict : Prop} {L : Layout} {own : Nat → Owner}, Inv strict L own k →
        k.roots (some pid) = some k.ttbr0 → k'.readUser buf count = some bytes := by
  obtain ⟨bytes, lost, hcount, hmoved, hheld⟩ := drainInputFrom_moved len hd
  rw [Nat.zero_add] at hcount
  refine ⟨bytes, lost, hcount, hmoved, fun h hr ↦ ?_⟩
  rw [hcount]
  exact readUser_of_holds (hheld h hr).1

/-! ## The ring page -/

/-- No part of the ring page is in a segment. -/
def Loaded.OffRing (l : Loaded) : Prop :=
  ∀ rg ∈ l.ranges, ∀ x, rg.start ≤ x → x < rg.stop → x / 4096 ≠ userRingVa / 4096

theorem Loaded.Placed.offRing {l : Loaded} (h : l.Placed) : l.OffRing := by
  intro rg hrg x hstart hstop he
  have hva : x / 4096 * 4096 = userRingVa := by
    rw [he]
    decide
  refine List.disjoint_of_nodup_append h.apart
    (List.mem_flatMap.mpr ⟨rg, hrg, hva ▸ Range.mem_pageVas hstart hstop⟩) ?_
  exact List.mem_cons_of_mem _ List.mem_cons_self

/-- Then the process cannot have a ring page written as a buffer, in whatever space. -/
theorem Inv.ring_not_written (h : Inv strict L own k) (hp : k.processes[pid]? = some p)
    (hne : p.ringPa ≠ 0) {i : Nat} {q : Process} (hq : k.processes[i]? = some q)
    (hoff : q.loaded.OffRing) {rid : Option Nat} {x : Nat} (hx : x ∈ frameAt p.ringPa) :
    ¬ Written k i rid x := by
  rintro ⟨j, pj, va, va', f, rfl, hj, hf, hpage, rfl, hrange⟩
  obtain ⟨hmr, hor⟩ := h.ofRing hp hne
  obtain ⟨hmf, hof⟩ := h.ofFrames hj hf
  have hal := hmf.aligned
  have halr := hmr.aligned
  rw [mem_frameAt] at hx
  obtain rfl : f = p.ringPa := by omega
  -- the frame is that of the ring, so the space is that of the ring's owner
  rw [hor] at hof
  obtain rfl : pid = j := by cases hof; rfl
  obtain rfl := Option.some.inj (hp.symm.trans hj)
  obtain rfl := h.frames_inj hp hf ((h.proc hp).ring hne).1
  rcases isUserRange_writable hq hrange with ⟨hlo, hhi⟩ | ⟨rg, hrg, -, hstart, hstop⟩
  · have hsize : userStackSize = 4096 := rfl
    have hva : userStackVa = 0x80_0010_0000 := rfl
    have hva' : userRingVa = 0x80_0030_0000 := rfl
    omega
  · exact hoff rg hrg va hstart hstop hpage.symm

/-- A delivery leaves the ring page alone. -/
theorem Inv.drainInput_ring (h : Inv strict L own k) (hp : k.processes[pid]? = some p)
    (hne : p.ringPa ≠ 0) (hoff : p.loaded.OffRing) (hr : k.roots (some pid) = some k.ttbr0)
    {buf len count : Nat} (hd : k.drainInput pid buf len = some (count, k')) :
    Set.EqOn k'.mem k.mem (frameAt p.ringPa) :=
  fun x hx ↦ (h.userWrites hr (Kernel.drainInput_delivered hd).writes).2 x
    (h.ring_not_written hp hne hp hoff hx)

end Delivery

end Jatuli

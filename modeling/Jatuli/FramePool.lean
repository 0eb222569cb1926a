import Jatuli.Lib.FreeList
import Jatuli.Lib.Transition
import Jatuli.PageTable
import Mathlib.Data.Finset.Basic

/-!
# The frame allocator on its own

The free list lives in the memory it manages: pushing a frame writes into it, and whoever holds a
frame may write anything there.  `pool` is the allocator over some region with clients that take
frames, give them back and write into those they hold; beside the allocator's state it keeps the
frames the clients hold and the moment each frame was freed last.  The free list is then, after any
sequence of these actions, exactly the list of the other frames, the one freed last first.
-/

set_option autoImplicit false

namespace Jatuli

/-- A whole frame of the region `[start, stop)`. -/
def WholeFrame (start stop f : Nat) : Prop := f % 4096 = 0 ∧ start ≤ f ∧ f + 4096 ≤ stop

/-- The allocator and its clients. -/
structure Pool where
  phys : Phys
  /-- The frames the clients hold. -/
  allocated : Finset Nat
  /-- When a frame was pushed on the free list last. -/
  freedAt : Nat → Nat
  clock : Nat

/-- What the clients can do. -/
inductive PoolAct
  /-- `alloc_frame` -/
  | alloc
  /-- `free_frame`, `free_frame_at` -/
  | free (f : Nat)
  /-- Write a byte of a frame that is held. -/
  | write (f off : Nat) (b : UInt8)

namespace Pool

/-- What an action does. -/
def step (p : Pool) : PoolAct → Option Pool
  | .alloc =>
    match p.phys.allocFrame with
    | none => some p
    | some (f, phys) => some { p with phys, allocated := insert f p.allocated }
  | .free f =>
    if f ∈ p.allocated then
      some {
        phys := p.phys.freeFrame f
        allocated := p.allocated.erase f
        freedAt := Function.update p.freedAt f p.clock
        clock := p.clock + 1 }
    else none
  | .write f off b =>
    if f ∈ p.allocated ∧ off < frameSize then
      some { p with phys := { p.phys with mem := p.phys.mem.fill (f + off) [b] } }
    else none

end Pool

/-- The allocator over `[start, stop)`.  `add_region` pushes the frames in the order of their
addresses, so that these do for the moments they are freed first. -/
def pool (start stop : Nat) : System Pool PoolAct where
  init p := ∃ mem, p =
    { phys := Phys.addRegion { mem, frames := { head := 0, freeCount := 0 } } start stop
      allocated := ∅, freedAt := id, clock := stop }
  step := Pool.step

/-! ## The invariant -/

/-- The free list is `fs`, all other frames of the region are held, and `fs` is in the order of
freeing. -/
structure Pool.Ok (start stop : Nat) (p : Pool) (fs : List Nat) : Prop where
  linked : p.phys.mem.Linked p.phys.frames.head fs
  count : p.phys.frames.freeCount = fs.length
  whole : ∀ f, WholeFrame start stop f ↔ f ∈ fs ∨ f ∈ p.allocated
  free : ∀ f ∈ fs, f ∉ p.allocated
  lifo : fs.Pairwise fun f g ↦ p.freedAt g < p.freedAt f
  past : ∀ f ∈ fs, p.freedAt f < p.clock

namespace Pool.Ok

variable {start stop : Nat} {p p' : Pool} {fs : List Nat}

theorem nodup (h : p.Ok start stop fs) : fs.Nodup :=
  h.lifo.imp fun hlt heq ↦ by rw [heq] at hlt; exact Nat.lt_irrefl _ hlt

theorem wholeFrame (h : p.Ok start stop fs) {f : Nat} (hf : f ∈ fs) : WholeFrame start stop f :=
  (h.whole f).mpr (.inl hf)

/-- A frame that is held has no byte in common with one on the list. -/
theorem apart (h : p.Ok start stop fs) {f g : Nat} (hf : f ∈ p.allocated) (hg : g ∈ fs) :
    g + 4096 ≤ f ∨ f + 4096 ≤ g := by
  have hne : g ≠ f := fun e ↦ h.free g hg (e ▸ hf)
  have hfal := ((h.whole f).mpr (.inr hf)).1
  have hgal := (h.wholeFrame hg).1
  omega

/-- `alloc_frame` takes the first frame of the list. -/
theorem allocFrame (h : p.Ok start stop fs) :
    (fs = [] ∧ p.phys.allocFrame = none) ∨ ∃ f rest phys, fs = f :: rest ∧
      p.phys.allocFrame = some (f, phys) ∧
      Ok start stop { p with phys, allocated := insert f p.allocated } rest := by
  rw [Phys.allocFrame, Phys.pop]
  by_cases h0 : p.phys.frames.head = 0
  · rw [if_pos h0]
    have hl := h.linked
    rw [h0] at hl
    exact .inl ⟨hl.eq_nil, rfl⟩
  · rw [if_neg h0]
    obtain ⟨rest, rfl, hrest⟩ := h.linked.exists_cons h0
    have hnd := List.nodup_cons.mp h.nodup
    refine .inr ⟨_, rest, _, rfl, rfl, hrest, ?_, fun f ↦ ?_, fun f hf ↦ ?_,
      (List.pairwise_cons.mp h.lifo).2, fun f hf ↦ h.past f (List.mem_cons_of_mem _ hf)⟩
    · show p.phys.frames.freeCount - 1 = _
      rw [h.count, List.length_cons, Nat.add_sub_cancel]
    · rw [h.whole f, List.mem_cons, Finset.mem_insert]
      tauto
    · rw [Finset.mem_insert, not_or]
      exact ⟨fun e ↦ hnd.1 (e ▸ hf), h.free f (List.mem_cons_of_mem _ hf)⟩

/-- A frame that is given back comes first. -/
theorem push (hpos : 0 < start) (hstop : stop ≤ 2 ^ 64) (h : p.Ok start stop fs) {f : Nat}
    (hf : f ∈ p.allocated) : Ok start stop {
      phys := p.phys.freeFrame f
      allocated := p.allocated.erase f
      freedAt := Function.update p.freedAt f p.clock
      clock := p.clock + 1 } (f :: fs) := by
  have hwhole := (h.whole f).mpr (.inr hf)
  have hnot : f ∉ fs := fun hin ↦ h.free f hin hf
  have hat (g : Nat) (hg : g ∈ fs) : Function.update p.freedAt f p.clock g = p.freedAt g := by
    have hne : g ≠ f := fun e ↦ hnot (e ▸ hg)
    exact Function.update_of_ne hne ..
  have hhead : p.phys.frames.head < 2 ^ 64 := by
    cases fs with
    | nil =>
      rw [(Mem.linked_nil _ _).mp h.linked]
      decide
    | cons g rest =>
      have hg := (h.wholeFrame List.mem_cons_self).2.2
      rw [h.linked.1]
      omega
  refine ⟨?_, ?_, fun g ↦ ?_, fun g hg ↦ ?_, ?_, fun g hg ↦ ?_⟩
  · refine h.linked.push (by have := hwhole.2.1; omega) hhead fun g hg ↦ ?_
    have hapart := h.apart hf hg
    omega
  · show p.phys.frames.freeCount + 1 = _
    rw [h.count, List.length_cons]
  · rw [h.whole g, List.mem_cons, Finset.mem_erase]
    by_cases hgf : g = f
    · simp [hgf, hf]
    · simp [hgf]
  · rw [Finset.mem_erase]
    rintro ⟨hne, hin⟩
    exact h.free g ((List.mem_cons.mp hg).resolve_left hne) hin
  · dsimp only
    refine List.pairwise_cons.mpr ⟨fun g hg ↦ ?_, ?_⟩
    · rw [hat g hg, Function.update_self]
      exact h.past g hg
    · exact h.lifo.imp_of_mem fun hf' hg' hlt ↦ by rwa [hat _ hf', hat _ hg']
  · dsimp only
    rcases List.mem_cons.mp hg with rfl | hg
    · rw [Function.update_self]
      exact Nat.lt_succ_self _
    · rw [hat g hg]
      exact Nat.lt_succ_of_lt (h.past g hg)

/-- What a client writes into a frame it holds does not touch the list. -/
theorem write (h : p.Ok start stop fs) {f off : Nat} (hf : f ∈ p.allocated) (hoff : off < frameSize)
    (b : UInt8) :
    Ok start stop { p with phys := { p.phys with mem := p.phys.mem.fill (f + off) [b] } } fs := by
  refine ⟨h.linked.congr fun g hg ↦ Mem.load_congr fun i hi ↦ ?_, h.count, h.whole, h.free, h.lifo,
    h.past⟩
  have hapart := h.apart hf hg
  rw [frameSize] at hoff
  rcases hapart with hlt | hge
  · exact Mem.fill_of_lt _ _ (by omega)
  · exact Mem.fill_of_ge _ _ (by rw [List.length_singleton]; omega)

theorem step (hpos : 0 < start) (hstop : stop ≤ 2 ^ 64) (h : p.Ok start stop fs) {a : PoolAct}
    (hs : p.step a = some p') : ∃ fs', p'.Ok start stop fs' := by
  cases a with
  | alloc =>
    rw [Pool.step] at hs
    rcases h.allocFrame with ⟨-, hnone⟩ | ⟨f, rest, phys, -, hsome, hok⟩
    · rw [hnone] at hs
      obtain rfl := Option.some.inj hs
      exact ⟨fs, h⟩
    · rw [hsome] at hs
      obtain rfl := Option.some.inj hs
      exact ⟨rest, hok⟩
  | free f =>
    rw [Pool.step, Option.ite_none_right_eq_some] at hs
    obtain rfl := Option.some.inj hs.2
    exact ⟨_, h.push hpos hstop hs.1⟩
  | write f off b =>
    rw [Pool.step, Option.ite_none_right_eq_some] at hs
    obtain rfl := Option.some.inj hs.2
    exact ⟨fs, h.write hs.1.1 hs.1.2 b⟩

end Pool.Ok

/-! ## `add_region` -/

/-- The loop of `add_region`, when it has come to `frame`: what lies below is on the list, the
highest address first. -/
theorem addRegionFrom_linked {start stop : Nat} (hpos : 0 < start) (hstop : stop ≤ 2 ^ 64) :
    ∀ (fuel frame : Nat) (s : Phys) (fs : List Nat), frame % 4096 = 0 → start ≤ frame →
      (stop - frame) / 4096 < fuel → s.mem.Linked s.frames.head fs →
      s.frames.freeCount = fs.length → fs.Pairwise (fun f g ↦ g < f) →
      (∀ f, f ∈ fs ↔ WholeFrame start stop f ∧ f < frame) →
      ∃ fs', (Phys.addRegionFrom fuel s frame stop).mem.Linked
          (Phys.addRegionFrom fuel s frame stop).frames.head fs' ∧
        (Phys.addRegionFrom fuel s frame stop).frames.freeCount = fs'.length ∧
        fs'.Pairwise (fun f g ↦ g < f) ∧ ∀ f, f ∈ fs' ↔ WholeFrame start stop f
  | 0, _, _, _, _, _, hfuel, _, _, _, _ => absurd hfuel (Nat.not_lt_zero _)
  | fuel + 1, frame, s, fs, hal, hst, hfuel, hlinked, hcount, hsorted, hmem => by
    rw [Phys.addRegionFrom, frameSize]
    by_cases hle : frame + 4096 ≤ stop
    · rw [if_pos hle]
      have hlt (g : Nat) (hg : g ∈ fs) : g + 4096 ≤ frame := by
        obtain ⟨⟨hgal, -⟩, hlt⟩ := (hmem g).mp hg
        omega
      have hhead : s.frames.head < 2 ^ 64 := by
        cases fs with
        | nil =>
          rw [(Mem.linked_nil _ _).mp hlinked]
          decide
        | cons g rest =>
          rw [hlinked.1]
          have := hlt g List.mem_cons_self
          omega
      refine addRegionFrom_linked hpos hstop fuel (frame + 4096) (s.push frame) (frame :: fs)
        (by omega) (by omega) (by omega) ?_ ?_ ?_ fun f ↦ ?_
      · refine hlinked.push (by omega) hhead fun g hg ↦ ?_
        have := hlt g hg
        omega
      · rw [List.length_cons, ← hcount]
        rfl
      · refine List.pairwise_cons.mpr ⟨fun g hg ↦ ?_, hsorted⟩
        have := hlt g hg
        omega
      · rw [List.mem_cons, hmem f]
        constructor
        · rintro (rfl | ⟨hwhole, hf⟩)
          · exact ⟨⟨hal, hst, hle⟩, by omega⟩
          · exact ⟨hwhole, by omega⟩
        · rintro ⟨hwhole, hf⟩
          have hfal := hwhole.1
          rcases Nat.lt_or_ge f frame with hlt | hge
          · exact .inr ⟨hwhole, hlt⟩
          · exact .inl (by omega)
    · rw [if_neg hle]
      refine ⟨fs, hlinked, hcount, hsorted, fun f ↦ ?_⟩
      rw [hmem f, and_iff_left_iff_imp]
      rintro ⟨hfal, -, hfle⟩
      omega

theorem addRegion_ok {start stop : Nat} (hpos : 0 < start) (hstop : stop ≤ 2 ^ 64) (mem : Mem) :
    ∃ fs, Pool.Ok start stop
      { phys := Phys.addRegion { mem, frames := { head := 0, freeCount := 0 } } start stop
        allocated := ∅, freedAt := id, clock := stop } fs := by
  have hal : frameAlignUp start % 4096 = 0 := by
    rw [frameAlignUp, frameSize]
    omega
  have hle : start ≤ frameAlignUp start ∧ frameAlignUp start < start + 4096 := by
    rw [frameAlignUp, frameSize]
    omega
  have hfuel : (stop - frameAlignUp start) / 4096 < stop / frameSize + 1 := by
    rw [frameSize]
    omega
  obtain ⟨fs, hlinked, hcount, hsorted, hmem⟩ := addRegionFrom_linked hpos hstop
    (stop / frameSize + 1) (frameAlignUp start) { mem, frames := { head := 0, freeCount := 0 } } []
    hal hle.1 hfuel rfl rfl .nil fun f ↦ by
      refine iff_of_false List.not_mem_nil ?_
      rintro ⟨⟨hfal, hst, -⟩, hlt⟩
      omega
  refine ⟨fs, hlinked, hcount, fun f ↦ ?_, fun f _ ↦ Finset.notMem_empty f, hsorted, fun f hf ↦ ?_⟩
  · rw [hmem f]
    simp
  · have := ((hmem f).mp hf).2.2
    show f < stop
    omega

/-! ## Any sequence of actions -/

theorem pool_ok {start stop : Nat} (hpos : 0 < start) (hstop : stop ≤ 2 ^ 64) {p : Pool}
    (h : (pool start stop).Reach System.Free p) : ∃ fs, p.Ok start stop fs := by
  refine h.invariant (I := fun p ↦ ∃ fs, p.Ok start stop fs) ?_ ?_
  · rintro p ⟨mem, rfl⟩
    exact addRegion_ok hpos hstop mem
  · rintro p a p' ⟨fs, hok⟩ - hs
    exact hok.step hpos hstop hs

/-- **The free list is exact.**  After any sequence of actions, the links lead from the head through
the free frames, each once, to zero; their number is the count; free and held frames are the whole
frames of the region, and no frame is both.  `alloc_frame` fails exactly when all of them are held;
what it returns is not held, and of the free frames the one that was freed last. -/
theorem free_list_exact {start stop : Nat} (hpos : 0 < start) (hstop : stop ≤ 2 ^ 64) {p : Pool}
    (h : (pool start stop).Reach System.Free p) :
    ∃ fs, p.phys.mem.Linked p.phys.frames.head fs ∧ fs.Nodup ∧
      p.phys.frames.freeCount = fs.length ∧
      (∀ f, WholeFrame start stop f ↔ f ∈ fs ∨ f ∈ p.allocated) ∧ (∀ f ∈ fs, f ∉ p.allocated) ∧
      (p.phys.allocFrame = none ↔ ∀ f, WholeFrame start stop f → f ∈ p.allocated) ∧
      ∀ f phys, p.phys.allocFrame = some (f, phys) → f ∉ p.allocated ∧ f ∈ fs ∧
        ∀ g ∈ fs, g ≠ f → p.freedAt g < p.freedAt f := by
  obtain ⟨fs, hok⟩ := pool_ok hpos hstop h
  refine ⟨fs, hok.linked, hok.nodup, hok.count, hok.whole, hok.free, ?_, fun f phys halloc ↦ ?_⟩
  · rcases hok.allocFrame with ⟨rfl, hnone⟩ | ⟨f, rest, phys, rfl, hsome, -⟩
    · refine iff_of_true hnone fun f hf ↦ ?_
      exact ((hok.whole f).mp hf).resolve_left List.not_mem_nil
    · rw [hsome]
      refine iff_of_false nofun fun hall ↦ ?_
      exact hok.free f List.mem_cons_self (hall f (hok.wholeFrame List.mem_cons_self))
  · rcases hok.allocFrame with ⟨-, hnone⟩ | ⟨f', rest, phys', rfl, hsome, -⟩
    · rw [hnone] at halloc
      cases halloc
    · rw [hsome] at halloc
      obtain ⟨rfl, -⟩ := Prod.mk.inj (Option.some.inj halloc)
      refine ⟨hok.free f' List.mem_cons_self, List.mem_cons_self, fun g hg hne ↦ ?_⟩
      exact (List.pairwise_cons.mp hok.lifo).1 g ((List.mem_cons.mp hg).resolve_left hne)

/-- A region with the two whole frames at `8192` and `12288`, one of them taken. -/
theorem free_list_exact_one_taken : ∃ p f fs, (pool 5000 20000).Reach System.Free p ∧
    p.allocated = {f} ∧ p.phys.mem.Linked p.phys.frames.head fs ∧
    p.phys.frames.freeCount = fs.length ∧ (8192 ∈ fs ∨ 12288 ∈ fs) ∧ f ∉ fs := by
  obtain ⟨p, hinit, hempty⟩ : ∃ p, (pool 5000 20000).Reach System.Free p ∧ p.allocated = ∅ :=
    ⟨_, .init ⟨fun _ ↦ 0, rfl⟩, rfl⟩
  obtain ⟨fs₀, -, -, -, -, -, hnone, -⟩ := free_list_exact (by decide) (by decide) hinit
  have hwhole : WholeFrame 5000 20000 8192 ∧ WholeFrame 5000 20000 12288 :=
    ⟨⟨by decide, by decide, by decide⟩, ⟨by decide, by decide, by decide⟩⟩
  obtain ⟨⟨f, phys⟩, hf⟩ : ∃ x, p.phys.allocFrame = some x := by
    refine Option.ne_none_iff_exists'.mp fun h ↦ ?_
    have hin := hnone.mp h 8192 hwhole.1
    rw [hempty] at hin
    exact Finset.notMem_empty _ hin
  have hstep : (pool 5000 20000).step p .alloc =
      some { p with phys, allocated := insert f p.allocated } := by
    show p.step .alloc = _
    rw [Pool.step, hf]
  have hreach := hinit.step trivial hstep
  obtain ⟨fs, hlinked, -, hcount, hcover, hfree, -⟩ :=
    free_list_exact (by decide) (by decide) hreach
  rw [hempty] at hcover hfree
  refine ⟨_, f, fs, hreach, by rw [hempty]; rfl, hlinked, hcount, ?_, fun hin ↦ ?_⟩
  · by_contra hnot
    rw [not_or] at hnot
    have h₁ := ((hcover 8192).mp hwhole.1).resolve_left hnot.1
    have h₂ := ((hcover 12288).mp hwhole.2).resolve_left hnot.2
    rw [Finset.mem_insert] at h₁ h₂
    have h₁' := h₁.resolve_right (Finset.notMem_empty _)
    have h₂' := h₂.resolve_right (Finset.notMem_empty _)
    omega
  · exact hfree f hin (Finset.mem_insert_self f _)

end Jatuli

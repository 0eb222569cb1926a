import Jatuli.Lib.FreeList
import Jatuli.PageTable
import Mathlib.Logic.Function.Basic

/-!
# Who owns which frame

Every frame the allocator manages has one use at a time: it is free, or a table of one address
space, or a page of one, or it has just been taken off the free list and is about to become one
of these.  The source keeps no record of this; `own` here is that record, and `Owned` says that
memory, the free list, the trees of tables and the lists of pages agree with it.

An address space is named by an `Option Nat`: `none` is the kernel's own, `some pid` that of
process `pid`.  The kernel's tables hang below slot 0 of its root and a process's below slot 1;
slot 0 of a process's root is the kernel's L1 and is not part of the process's tree.

The lemmas of this file are the elementary moves: a frame leaves or joins the free list, a zeroed
frame becomes a table, an entry of a last-level table is written or cleared, a space begins or
ends.  What the functions of the source do is put together from them in `Jatuli.Spaces`.
-/

set_option autoImplicit false

namespace Jatuli

/-- The frames the allocator was given. -/
def Managed (start f : Nat) : Prop := f % 4096 = 0 ∧ start ≤ f ∧ f + 4096 ≤ ramTop

/-- The use of a frame. -/
inductive Owner
  /-- On the free list. -/
  | free
  /-- Taken off the free list and not put to use yet, or about to be put back. -/
  | held
  /-- The table at this path of an address space. -/
  | node (id : Option Nat) (path : List Nat)
  /-- A page recorded as an address space's own. -/
  | page (id : Option Nat)

/-- The slot of the root below which a space has its own tables. -/
def slotOf : Option Nat → Nat
  | none => 0
  | some _ => userL0Idx

/-- A path of indices that stays in the space's own slot. -/
def Inside (id : Option Nat) (path : List Nat) : Prop :=
  (∀ i ∈ path, i < 512) ∧ ∀ i ∈ path.head?, i = slotOf id

/-- Where pages may come to be mapped: anywhere in a process's slot, and in the kernel's heap window
(slot 4 of its L1; the identity map next to it is made of blocks). -/
def Mappable : Option Nat → List Nat → Prop
  | none, path => path <+: [0, 4] ∨ [0, 4] <+: path
  | some _, _ => True

/-- The path of a table. -/
def InTree (id : Option Nat) (path : List Nat) : Prop := path.length ≤ 3 ∧ Inside id path

/-- The free list holds exactly the free frames. -/
def FreeOk (start : Nat) (own : Nat → Owner) (s : Phys) : Prop :=
  ∃ fs : List Nat, s.mem.Linked s.frames.head fs ∧ fs.Nodup ∧ fs.length = s.frames.freeCount ∧
    ∀ f, f ∈ fs ↔ Managed start f ∧ own f = .free

/-- The trees below the roots consist of frames that are tables; if `strict`, of all of them. -/
structure TreeOk (strict : Prop) (start kernelL1 : Nat) (roots : Option Nat → Option Nat)
    (own : Nat → Owner) (m : Mem) : Prop where
  /-- A walk from a root ends at the table with that path. -/
  node : ∀ {id r path f}, roots id = some r → InTree id path → walk m r path = some f →
    Managed start f ∧ own f = .node id path
  /-- A table belongs to a space that exists. -/
  inSpace : ∀ {f id path}, Managed start f → own f = .node id path →
    (∃ r, roots id = some r) ∧ InTree id path
  /-- A table can be reached. -/
  full : strict → ∀ {f id path r}, Managed start f → own f = .node id path → roots id = some r →
    walk m r path = some f
  /-- Where pages may be mapped an entry is either invalid or of table type: there are no
  blocks. -/
  typed : strict → ∀ {id r path t i}, roots id = some r → path.length ≤ 3 →
    Inside id (path ++ [i]) → Mappable id (path ++ [i]) → walk m r path = some t →
    entry m t i &&& descValid ≠ 0 → entry m t i &&& descTable = descTable
  /-- Slot 0 of a process's root is the kernel's L1. -/
  slot0 : ∀ {pid r}, roots (some pid) = some r → entry m r 0 = kernelL1 ||| descTable
  /-- Beside slot 0 and its own slot a root has nothing. -/
  slots : ∀ {id r j}, roots id = some r → j < 512 → j ≠ 0 → j ≠ slotOf id → child m r j = none

/-- The lists of pages name each frame that is a page, once. -/
def PageOk (start : Nat) (pages : Option Nat → List (Nat × Nat)) (own : Nat → Owner) : Prop :=
  ∀ id, ((pages id).map Prod.snd).Nodup ∧
    ∀ f, f ∈ (pages id).map Prod.snd ↔ Managed start f ∧ own f = .page id

/-- What is mapped in a space's own slot is a page of that space, recorded for that address. -/
def LeafOk (roots : Option Nat → Option Nat) (pages : Option Nat → List (Nat × Nat))
    (m : Mem) : Prop :=
  ∀ id r path f, roots id = some r → path.length = 4 → Inside id path →
    walk m r path = some f → ∃ va, (va, f) ∈ pages id ∧ pagePath va = path

/-- Memory, free list, tables and page lists agree with the record `own`.  With `strict` the record
is exact; without it a table may have lost the entry that led to another one, so that there are
tables and held frames nothing leads to any more. -/
structure Owned (strict : Prop) (start kernelL1 : Nat) (roots : Option Nat → Option Nat)
    (pages : Option Nat → List (Nat × Nat)) (own : Nat → Owner) (s : Phys) : Prop where
  /-- Address `0` is not managed: the allocator uses it for the empty list. -/
  start_pos : 0 < start
  free : FreeOk start own s
  tree : TreeOk strict start kernelL1 roots own s.mem
  page : PageOk start pages own
  leaf : LeafOk roots pages s.mem
  /-- The pages of a space are recorded for addresses in its own slot. -/
  slot : ∀ id va f, (va, f) ∈ pages id → va < 2 ^ 48 ∧ tableIndex va 39 = slotOf id

/-! ## Paths and frames -/

theorem Managed.aligned {start f : Nat} (h : Managed start f) : f % 4096 = 0 := h.1

theorem Managed.lt {start f : Nat} (h : Managed start f) : f < 2 ^ 48 := by
  have hle : f + 4096 ≤ ramTop := h.2.2
  have htop : ramTop < 2 ^ 48 := by decide
  omega

theorem Inside.of_append {id : Option Nat} {p q : List Nat} (h : Inside id (p ++ q)) :
    Inside id p := by
  refine ⟨fun i hi ↦ h.1 i (List.mem_append_left _ hi), fun i hi ↦ h.2 i ?_⟩
  cases p with
  | nil => simp at hi
  | cons j p => simpa using hi

theorem Inside.index_lt {id : Option Nat} {p q : List Nat} {i : Nat}
    (h : Inside id (p ++ i :: q)) : i < 512 := h.1 i (by simp)

theorem InTree.nil (id : Option Nat) : InTree id [] := ⟨by simp, by simp [Inside]⟩

theorem InTree.of_append {id : Option Nat} {p q : List Nat} (h : InTree id (p ++ q)) :
    InTree id p := by
  refine ⟨?_, h.2.of_append⟩
  have := h.1
  rw [List.length_append] at this
  omega

/-! ## Change of memory or of the record -/

section Congr

variable {strict : Prop} {start kernelL1 : Nat} {roots : Option Nat → Option Nat}
  {pages : Option Nat → List (Nat × Nat)} {own own' : Nat → Owner}

theorem FreeOk.congr {s s' : Phys} (h : FreeOk start own s) (hfr : s'.frames = s.frames)
    (hown : ∀ f, Managed start f → (own' f = .free ↔ own f = .free))
    (hm : ∀ f, Managed start f → own f = .free → Set.EqOn s'.mem s.mem (frameAt f)) :
    FreeOk start own' s' := by
  obtain ⟨fs, hl, hnd, hlen, hmem⟩ := h
  refine ⟨fs, ?_, hnd, by rw [hfr, hlen], fun f ↦ ?_⟩
  · rw [hfr]
    refine hl.congr fun f hf ↦ ?_
    obtain ⟨hmf, hof⟩ := (hmem f).mp hf
    exact Mem.load_eqOn (hm f hmf hof) (by omega) (by rw [frameSize]; omega)
  · rw [hmem f]
    exact and_congr_right fun hmf ↦ (hown f hmf).symm

/-- A walk inside a space's tree sees only the frames of its tables. -/
theorem TreeOk.walk_congr {m m' : Mem} (h : TreeOk strict start kernelL1 roots own m)
    {id : Option Nat} {r : Nat} (hr : roots id = some r)
    (hm : ∀ f p, Managed start f → own f = .node id p → Set.EqOn m' m (frameAt f))
    {path : List Nat} (hlen : path.length ≤ 4) (hin : Inside id path) :
    walk m' r path = walk m r path := by
  refine Radix.walk_congr path r fun p j q hp u hu ↦ ?_
  subst hp
  have hp3 : InTree id p := by
    refine ⟨?_, hin.of_append⟩
    simp only [List.length_append, List.length_cons] at hlen
    omega
  obtain ⟨hmu, hou⟩ := h.node hr hp3 hu
  exact child_congr (hm u p hmu hou) hin.index_lt

/-- The trees only depend on the frames that are tables, and on which frames those are. -/
theorem TreeOk.congr {m m' : Mem} (h : TreeOk strict start kernelL1 roots own m)
    (hown : ∀ f id p, Managed start f → (own' f = .node id p ↔ own f = .node id p))
    (hm : ∀ f id p, Managed start f → own f = .node id p → Set.EqOn m' m (frameAt f)) :
    TreeOk strict start kernelL1 roots own' m' where
  node {id r path f} hr hp hw := by
    rw [h.walk_congr hr (fun f p ↦ hm f id p) (by have := hp.1; omega) hp.2] at hw
    obtain ⟨hmf, hof⟩ := h.node hr hp hw
    exact ⟨hmf, (hown f id path hmf).mpr hof⟩
  inSpace {f id path} hmf hof := h.inSpace hmf ((hown f id path hmf).mp hof)
  full hs {f id path r} hmf hof hr := by
    have hof' := (hown f id path hmf).mp hof
    have hp := (h.inSpace hmf hof').2
    rw [h.walk_congr hr (fun f p ↦ hm f id p) (by have := hp.1; omega) hp.2]
    exact h.full hs hmf hof' hr
  typed hs {id r path t i} hr hlen hin hmap hw := by
    rw [h.walk_congr hr (fun f p ↦ hm f _ p) (by omega) hin.of_append] at hw
    obtain ⟨hmt, hot⟩ := h.node hr ⟨hlen, hin.of_append⟩ hw
    rw [entry_congr (hm t _ _ hmt hot) hin.index_lt]
    exact h.typed hs hr hlen hin hmap hw
  slot0 {pid r} hr := by
    obtain ⟨hmr, hor⟩ := h.node hr (.nil _) rfl
    rw [entry_congr (hm r _ _ hmr hor) (by decide), h.slot0 hr]
  slots {id r j} hr hj h0 h1 := by
    obtain ⟨hmr, hor⟩ := h.node hr (.nil _) rfl
    rw [child_congr (hm r _ _ hmr hor) hj, h.slots hr hj h0 h1]

theorem LeafOk.congr {m m' : Mem} (h : LeafOk roots pages m)
    (ht : TreeOk strict start kernelL1 roots own m)
    (hm : ∀ f id p, Managed start f → own f = .node id p → Set.EqOn m' m (frameAt f)) :
    LeafOk roots pages m' := by
  intro id r path f hr hlen hin hw
  rw [ht.walk_congr hr (fun f p ↦ hm f id p) (by omega) hin] at hw
  exact h id r path f hr hlen hin hw

theorem PageOk.congr (h : PageOk start pages own)
    (hown : ∀ f id, Managed start f → (own' f = .page id ↔ own f = .page id)) :
    PageOk start pages own' := by
  intro id
  refine ⟨(h id).1, fun f ↦ ?_⟩
  rw [(h id).2 f]
  exact and_congr_right fun hmf ↦ (hown f id hmf).symm

end Congr

/-- Giving `f` a new use does not matter to a use that is neither its old nor its new one. -/
theorem update_eq_iff {own : Nat → Owner} {f : Nat} {o x : Owner} (hold : own f ≠ x) (hnew : o ≠ x)
    (g : Nat) : Function.update own f o g = x ↔ own g = x := by
  by_cases hg : g = f
  · subst hg
    rw [Function.update_self]
    exact ⟨fun h ↦ absurd h hnew, fun h ↦ absurd h hold⟩
  · rw [Function.update_of_ne hg]

namespace Owned

variable {strict : Prop} {start kernelL1 : Nat} {roots : Option Nat → Option Nat}
  {pages : Option Nat → List (Nat × Nat)} {own : Nat → Owner} {s s' : Phys} {f : Nat}

/-- Only the use of managed frames matters. -/
theorem congrOwner (h : Owned strict start kernelL1 roots pages own s) {own' : Nat → Owner}
    (hown : ∀ g, Managed start g → own' g = own g) :
    Owned strict start kernelL1 roots pages own' s where
  start_pos := h.start_pos
  free := h.free.congr rfl (fun g hg ↦ by rw [hown g hg]) fun _ _ _ _ _ ↦ rfl
  tree := h.tree.congr (fun g _ _ hg ↦ by rw [hown g hg]) fun _ _ _ _ _ _ _ ↦ rfl
  page := h.page.congr fun g _ hg ↦ by rw [hown g hg]
  leaf := h.leaf
  slot := h.slot

/-- An exact record is also one that need not be. -/
theorem weaken (h : Owned True start kernelL1 roots pages own s) :
    Owned strict start kernelL1 roots pages own s where
  start_pos := h.start_pos
  free := h.free
  tree := ⟨h.tree.node, h.tree.inSpace, fun _ ↦ h.tree.full trivial, fun _ ↦ h.tree.typed trivial,
    h.tree.slot0, h.tree.slots⟩
  page := h.page
  leaf := h.leaf
  slot := h.slot

/-! ## Frames that are neither free nor tables may be written at will -/

theorem write (h : Owned strict start kernelL1 roots pages own s) {m' : Mem}
    (hfree : ∀ g, Managed start g → own g = .free → Set.EqOn m' s.mem (frameAt g))
    (hnode : ∀ g id p, Managed start g → own g = .node id p → Set.EqOn m' s.mem (frameAt g)) :
    Owned strict start kernelL1 roots pages own { s with mem := m' } where
  start_pos := h.start_pos
  free := h.free.congr rfl (fun _ _ ↦ Iff.rfl) hfree
  tree := h.tree.congr (fun _ _ _ _ ↦ Iff.rfl) hnode
  page := h.page
  leaf := h.leaf.congr h.tree hnode
  slot := h.slot

/-- A write confined to one frame that is neither free nor a table. -/
theorem write_frame (h : Owned strict start kernelL1 roots pages own s) {m' : Mem}
    (hf : Managed start f)
    (hfree : own f ≠ .free) (hnode : ∀ id p, own f ≠ .node id p)
    (hm : Set.EqOn m' s.mem (frameAt f)ᶜ) :
    Owned strict start kernelL1 roots pages own { s with mem := m' } := by
  refine h.write (fun g hg hog ↦ eqOn_frameAt hf.aligned hg.aligned ?_ hm)
    fun g id p hg hog ↦ eqOn_frameAt hf.aligned hg.aligned ?_ hm
  · exact fun e ↦ hfree (e ▸ hog)
  · exact fun e ↦ hnode id p (e ▸ hog)

/-! ## The free list -/

/-- Taking a frame off the free list. -/
theorem allocFrame (h : Owned strict start kernelL1 roots pages own s)
    (hp : s.allocFrame = some (f, s')) :
    (Managed start f ∧ own f = .free) ∧
      (s'.mem = s.mem ∧ s'.frames.freeCount + 1 = s.frames.freeCount) ∧
      Owned strict start kernelL1 roots pages (Function.update own f .held) s' := by
  obtain ⟨fs, hl, hnd, hlen, hmem⟩ := h.free
  rw [Phys.allocFrame, Phys.pop] at hp
  split at hp
  · cases hp
  rename_i h0
  obtain ⟨rest, rfl, hrest⟩ := hl.exists_cons h0
  cases hp
  have hhead := (hmem s.frames.head).mp (by simp)
  have hne : ∀ x, x ≠ .free → own s.frames.head ≠ x := fun x hx e ↦ hx (e ▸ hhead.2)
  rw [List.nodup_cons] at hnd
  refine ⟨hhead, ⟨rfl, by simp [← hlen]⟩, h.start_pos, ⟨rest, hrest, hnd.2, ?_, fun g ↦ ?_⟩,
    ?_, ?_, h.leaf, h.slot⟩
  · simp [← hlen]
  · by_cases hg : g = s.frames.head
    · subst hg
      simp [hnd.1]
    · rw [Function.update_of_ne hg, ← hmem g]
      simp [hg]
  · exact h.tree.congr (fun g id p _ ↦ update_eq_iff (hne _ (by simp)) (by simp) g)
      fun _ _ _ _ _ _ _ ↦ rfl
  · exact h.page.congr fun g id _ ↦ update_eq_iff (hne _ (by simp)) (by simp) g

/-- There is a frame to take while the count is positive. -/
theorem allocFrame_isSome (h : Owned strict start kernelL1 roots pages own s)
    (hc : 0 < s.frames.freeCount) : ∃ f s', s.allocFrame = some (f, s') := by
  obtain ⟨fs, hl, -, hlen, -⟩ := h.free
  have h0 : s.frames.head ≠ 0 := by
    intro h0
    rw [h0] at hl
    rw [hl.eq_nil] at hlen
    simp only [List.length_nil] at hlen
    omega
  rw [Phys.allocFrame, Phys.pop, if_neg h0]
  exact ⟨_, _, rfl⟩

/-- Putting a frame back on the free list. -/
theorem freeFrame (h : Owned strict start kernelL1 roots pages own s) (hf : Managed start f)
    (hof : own f = .held) :
    Owned strict start kernelL1 roots pages (Function.update own f .free) (s.freeFrame f) := by
  obtain ⟨fs, hl, hnd, hlen, hmem⟩ := h.free
  have hout : Set.EqOn (s.freeFrame f).mem s.mem (frameAt f)ᶜ :=
    Mem.store_eqOn (by omega) (by rw [frameSize]; omega)
  have hother : ∀ g, Managed start g → own g ≠ .held →
      Set.EqOn (s.freeFrame f).mem s.mem (frameAt g) := fun g hg hog ↦
    eqOn_frameAt hf.aligned hg.aligned (fun e ↦ hog (e ▸ hof)) hout
  have hnotin : f ∉ fs := fun hin ↦ by simpa [hof] using ((hmem f).mp hin).2
  refine ⟨h.start_pos, ⟨f :: fs, ⟨rfl, ?_, ?_⟩, ?_, ?_, fun g ↦ ?_⟩, ?_, ?_, ?_, h.slot⟩
  · have := hf.2.1
    have := h.start_pos
    omega
  · have hhead : s.frames.head < 256 ^ 8 := by
      cases fs with
      | nil => rw [(Mem.linked_nil _ _).mp hl]; decide
      | cons g gs =>
        rw [hl.1]
        have := ((hmem g).mp (by simp)).1.lt
        omega
    rw [show (s.freeFrame f).mem.load f 8 = s.frames.head from Mem.load_store_of_lt _ hhead]
    refine hl.congr fun g hg ↦ ?_
    obtain ⟨hmg, hog⟩ := (hmem g).mp hg
    exact Mem.load_eqOn (hother g hmg (by simp [hog])) (by omega) (by rw [frameSize]; omega)
  · exact List.nodup_cons.mpr ⟨hnotin, hnd⟩
  · rw [List.length_cons, hlen]
    rfl
  · by_cases hg : g = f
    · subst hg
      simp [hf]
    · rw [Function.update_of_ne hg, ← hmem g]
      simp [hg]
  · exact h.tree.congr (fun g id p _ ↦ update_eq_iff (by simp [hof]) (by simp) g)
      fun g id p hg hog ↦ hother g hg (by simp [hog])
  · exact h.page.congr fun g id _ ↦ update_eq_iff (by simp [hof]) (by simp) g
  · exact h.leaf.congr h.tree fun g id p hg hog ↦ hother g hg (by simp [hog])

end Owned

/-! ## Writing an entry of a table -/

section SetEntry

variable {strict : Prop} {start kernelL1 : Nat} {roots : Option Nat → Option Nat}
  {pages : Option Nat → List (Nat × Nat)} {own : Nat → Owner} {m : Mem}
  {id : Option Nat} {r t i v : Nat} {p : List Nat}

/-- Only the walks that pass through the entry notice that it is written. -/
theorem TreeOk.walk_setEntry (h : TreeOk strict start kernelL1 roots own m) (hr : roots id = some r)
    (hp : InTree id p) (hi : i < 512) (ht : walk m r p = some t) {id' : Option Nat} {r' : Nat}
    {path : List Nat} (hr' : roots id' = some r') (hlen : path.length ≤ 4) (hin : Inside id' path)
    (hnot : id' = id → ¬ p ++ [i] <+: path) :
    walk (setEntry m t i v) r' path = walk m r' path := by
  obtain ⟨hmt, hot⟩ := h.node hr hp ht
  refine Radix.walk_congr path r' fun p' j q hpath u hu ↦ ?_
  subst hpath
  have hp' : InTree id' p' := by
    refine ⟨?_, hin.of_append⟩
    simp only [List.length_append, List.length_cons] at hlen
    omega
  obtain ⟨hmu, hou⟩ := h.node hr' hp' hu
  by_cases hut : u = t
  · subst hut
    rw [hot] at hou
    cases hou
    refine child_setEntry_ne fun hij ↦ hnot rfl ?_
    subst hij
    exact ⟨q, by simp⟩
  · exact child_congr (eqOn_frameAt hmt.aligned hmu.aligned (Ne.symm hut) (setEntry_eqOn hi))
      hin.index_lt

/-- An entry other than the one written reads as before. -/
theorem TreeOk.entry_setEntry (h : TreeOk strict start kernelL1 roots own m)
    (hr : roots id = some r)
    (hp : InTree id p) (hi : i < 512) (ht : walk m r p = some t) {id' : Option Nat} {r' : Nat}
    {path : List Nat} {u j : Nat} (hr' : roots id' = some r') (hp' : InTree id' path)
    (hu : walk m r' path = some u) (hj : j < 512) (hnot : id' = id → path = p → i ≠ j) :
    entry (setEntry m t i v) u j = entry m u j := by
  obtain ⟨hmt, hot⟩ := h.node hr hp ht
  obtain ⟨hmu, hou⟩ := h.node hr' hp' hu
  by_cases hut : u = t
  · subst hut
    rw [hot] at hou
    cases hou
    exact entry_setEntry_ne (hnot rfl rfl)
  · exact entry_congr (eqOn_frameAt hmt.aligned hmu.aligned (Ne.symm hut) (setEntry_eqOn hi)) hj

/-- A path is not the beginning of a shorter one. -/
theorem not_isPrefix_of_length {p path : List Nat} {i : Nat} (h : path.length ≤ p.length) :
    ¬ p ++ [i] <+: path := by
  intro hpre
  have := hpre.length_le
  simp only [List.length_append, List.length_cons, List.length_nil] at this
  omega

/-- The other slots of a process's root are not below the slot its tables are in. -/
theorem TreeOk.rootEntry_setEntry (h : TreeOk strict start kernelL1 roots own m)
    (hr : roots id = some r) (hp : InTree id p) (hin : Inside id (p ++ [i]))
    (ht : walk m r p = some t) {id' : Option Nat} {r' j : Nat} (hr' : roots id' = some r')
    (hj : j < 512) (hne : j ≠ slotOf id') : entry (setEntry m t i v) r' j = entry m r' j := by
  refine h.entry_setEntry hr hp hin.index_lt ht hr' (.nil _) rfl hj ?_
  rintro rfl rfl rfl
  exact hne (hin.2 i (by simp))

theorem TreeOk.slot0_setEntry (h : TreeOk strict start kernelL1 roots own m)
    (hr : roots id = some r) (hp : InTree id p) (hin : Inside id (p ++ [i]))
    (ht : walk m r p = some t) {pid r' : Nat} (hr' : roots (some pid) = some r') :
    entry (setEntry m t i v) r' 0 = kernelL1 ||| descTable := by
  rw [h.rootEntry_setEntry hr hp hin ht hr' (by decide) (by decide : 0 ≠ userL0Idx), h.slot0 hr']

theorem TreeOk.slots_setEntry (h : TreeOk strict start kernelL1 roots own m)
    (hr : roots id = some r) (hp : InTree id p) (hin : Inside id (p ++ [i]))
    (ht : walk m r p = some t) {id' : Option Nat} {r' j : Nat} (hr' : roots id' = some r')
    (hj : j < 512) (h0 : j ≠ 0) (h1 : j ≠ slotOf id') : child (setEntry m t i v) r' j = none := by
  rw [child, h.rootEntry_setEntry hr hp hin ht hr' hj h1]
  exact h.slots hr' hj h0 h1

/-- Writing an entry of a last-level table leaves the tree of tables as it was. -/
theorem TreeOk.setLeaf (h : TreeOk strict start kernelL1 roots own m) (hr : roots id = some r)
    (hlen : p.length = 3) (hin : Inside id (p ++ [i])) (ht : walk m r p = some t)
    (hv : v < 2 ^ 64) (htype : v &&& descValid ≠ 0 → v &&& descTable = descTable) :
    TreeOk strict start kernelL1 roots own (setEntry m t i v) := by
  have hp : InTree id p := ⟨by omega, hin.of_append⟩
  have hwalk : ∀ {id' r' path}, roots id' = some r' → InTree id' path →
      walk (setEntry m t i v) r' path = walk m r' path := fun hr' hp' ↦
    h.walk_setEntry hr hp hin.index_lt ht hr' (by have := hp'.1; omega) hp'.2
      fun _ ↦ not_isPrefix_of_length (by have := hp'.1; omega)
  refine ⟨fun hr' hp' hw ↦ ?_, h.inSpace, fun hs {f id' path r'} hmf hof hr' ↦ ?_,
    fun hs {id' r' path u j} hr' hlen' hin' hmap hu hvalid ↦ ?_,
    h.slot0_setEntry hr hp hin ht, h.slots_setEntry hr hp hin ht⟩
  · rw [hwalk hr' hp'] at hw
    exact h.node hr' hp' hw
  · rw [hwalk hr' (h.inSpace hmf hof).2]
    exact h.full hs hmf hof hr'
  · rw [hwalk hr' ⟨hlen', hin'.of_append⟩] at hu
    by_cases hsame : id' = id ∧ path = p ∧ i = j
    · obtain ⟨rfl, rfl, rfl⟩ := hsame
      rw [hr] at hr'
      cases hr'
      rw [ht] at hu
      cases hu
      rw [entry_setEntry_same hv] at hvalid ⊢
      exact htype hvalid
    · have hkeep := h.entry_setEntry (v := v) hr hp hin.index_lt ht hr' ⟨hlen', hin'.of_append⟩ hu
        hin'.index_lt fun h1 h2 h3 ↦ hsame ⟨h1, h2, h3⟩
      rw [hkeep] at hvalid ⊢
      exact h.typed hs hr' hlen' hin' hmap hu hvalid

end SetEntry

namespace Owned

variable {strict : Prop} {start kernelL1 : Nat} {roots : Option Nat → Option Nat}
  {pages : Option Nat → List (Nat × Nat)} {own : Nat → Owner} {s : Phys}
  {id : Option Nat} {r t i f : Nat} {p : List Nat}

/-- A write to a table leaves the free list alone. -/
theorem free_setEntry (h : Owned strict start kernelL1 roots pages own s) (hr : roots id = some r)
    (hp : InTree id p) (hi : i < 512) (ht : walk s.mem r p = some t) {v : Nat}
    {own' : Nat → Owner} (hown : ∀ g, Managed start g → (own' g = .free ↔ own g = .free)) :
    FreeOk start own' { s with mem := setEntry s.mem t i v } := by
  obtain ⟨hmt, hot⟩ := h.tree.node hr hp ht
  refine h.free.congr rfl hown fun g hg hog ↦ ?_
  exact eqOn_frameAt hmt.aligned hg.aligned (fun e ↦ by simp [← e, hot] at hog) (setEntry_eqOn hi)

/-- An entry of a last-level table is pointed at a held frame, which thereby becomes a page. -/
theorem setLeaf (h : Owned strict start kernelL1 roots pages own s) (hr : roots id = some r)
    (hlen : p.length = 3) (hin : Inside id (p ++ [i])) (ht : walk s.mem r p = some t)
    (hf : Managed start f) (hof : own f = .held) {va flags : Nat} (hlt : va < 2 ^ 48)
    (hva : pagePath va = p ++ [i]) (h3 : flags &&& 3 = 3) (hm : flags &&& addrMask = 0)
    (h64 : flags < 2 ^ 64) :
    Owned strict start kernelL1 roots (Function.update pages id (pages id ++ [(va, f)]))
      (Function.update own f (.page id))
      { s with mem := setEntry s.mem t i ((f &&& addrMask) ||| flags) } := by
  have hp : InTree id p := ⟨by omega, hin.of_append⟩
  rw [and_addrMask_of_aligned hf.aligned hf.lt]
  have htree := h.tree.setLeaf (v := f ||| flags) hr hlen hin ht (or_lt_of_lt hf.lt h64)
    fun _ ↦ or_and_three hf.aligned h3
  refine ⟨h.start_pos, h.free_setEntry hr hp hin.index_lt ht fun g _ ↦
    update_eq_iff (by simp [hof]) (by simp) g, ?_, ?_, ?_, ?_⟩
  · exact htree.congr (fun g id' q _ ↦ update_eq_iff (by simp [hof]) (by simp) g)
      fun _ _ _ _ _ _ _ ↦ rfl
  · intro id'
    by_cases hid : id' = id
    · subst hid
      have hnotin : f ∉ (pages id').map Prod.snd := fun hin ↦ by
        simpa [hof] using (((h.page id').2 f).mp hin).2
      simp only [Function.update_self, List.map_append, List.map_cons, List.map_nil]
      refine ⟨?_, fun g ↦ ?_⟩
      · exact List.nodup_append.mpr ⟨(h.page id').1, by simp, fun a ha b hb ↦ by
          rw [List.mem_singleton] at hb
          exact fun hab ↦ hnotin (hb ▸ hab ▸ ha)⟩
      · by_cases hg : g = f
        · subst hg
          simp [hf]
        · rw [Function.update_of_ne hg, ← (h.page id').2 g]
          simp [hg]
    · rw [Function.update_of_ne hid]
      refine ⟨(h.page id').1, fun g ↦ ?_⟩
      rw [update_eq_iff (by simp [hof]) (by simpa using Ne.symm hid) g]
      exact (h.page id').2 g
  · intro id' r' path g hr' hlen' hin' hw
    by_cases hsame : id' = id ∧ path = p ++ [i]
    · -- the entry just written
      obtain ⟨rfl, rfl⟩ := hsame
      rw [hr] at hr'
      cases hr'
      obtain ⟨u, hu, hc⟩ := Radix.walk_concat_eq_some hw
      have hut : u = t := by
        have hwp := (h.tree.walk_setEntry (v := f ||| flags) hr hp hin.index_lt ht hr (by omega)
          hp.2 fun _ ↦ not_isPrefix_of_length le_rfl).trans ht
        exact Option.some.inj (hu.symm.trans hwp)
      subst hut
      rw [child_setEntry_or hf.aligned hf.lt h3 hm h64] at hc
      cases hc
      exact ⟨va, by simp, hva⟩
    · rw [h.tree.walk_setEntry hr hp hin.index_lt ht hr' (by omega) hin' fun hid hpre ↦
        hsame ⟨hid, (hpre.eq_of_length (by simp; omega)).symm⟩] at hw
      obtain ⟨va', hva', hpath⟩ := h.leaf id' r' path g hr' hlen' hin' hw
      refine ⟨va', ?_, hpath⟩
      by_cases hid : id' = id
      · subst hid
        simp [hva']
      · rwa [Function.update_of_ne hid]
  · intro id' va' g hmem
    by_cases hid : id' = id
    · subst hid
      rw [Function.update_self, List.mem_append, List.mem_singleton] at hmem
      rcases hmem with hmem | heq
      · exact h.slot id' va' g hmem
      · cases heq
        rw [← hva] at hin
        exact ⟨hlt, hin.2 _ (by simp [pagePath, tablePath])⟩
    · rw [Function.update_of_ne hid] at hmem
      exact h.slot id' va' g hmem

/-- An entry of a last-level table is cleared. -/
theorem clearLeaf (h : Owned strict start kernelL1 roots pages own s) (hr : roots id = some r)
    (hlen : p.length = 3) (hin : Inside id (p ++ [i])) (ht : walk s.mem r p = some t) :
    Owned strict start kernelL1 roots pages own { s with mem := setEntry s.mem t i 0 } ∧
      walk (setEntry s.mem t i 0) r (p ++ [i]) = none := by
  have hp : InTree id p := ⟨by omega, hin.of_append⟩
  have htree := h.tree.setLeaf (v := 0) hr hlen hin ht (by decide) (by decide)
  have hcleared : walk (setEntry s.mem t i 0) r (p ++ [i]) = none := by
    rw [walk_concat, h.tree.walk_setEntry hr hp hin.index_lt ht hr (by omega) hp.2
      fun _ ↦ not_isPrefix_of_length le_rfl, ht]
    exact child_setEntry_zero
  refine ⟨⟨h.start_pos, h.free_setEntry hr hp hin.index_lt ht fun _ _ ↦ Iff.rfl, htree, h.page,
    fun id' r' path g hr' hlen' hin' hw ↦ ?_, h.slot⟩, hcleared⟩
  by_cases hsame : id' = id ∧ path = p ++ [i]
  · obtain ⟨rfl, rfl⟩ := hsame
    rw [hr] at hr'
    cases hr'
    rw [hcleared] at hw
    cases hw
  · rw [h.tree.walk_setEntry hr hp hin.index_lt ht hr' (by omega) hin' fun hid hpre ↦
      hsame ⟨hid, (hpre.eq_of_length (by simp; omega)).symm⟩] at hw
    exact h.leaf id' r' path g hr' hlen' hin' hw

/-- The walks through an entry that has just been pointed at a table without entries. -/
theorem walk_attach (h : Owned strict start kernelL1 roots pages own s) (hr : roots id = some r)
    (hin : InTree id (p ++ [i])) (ht : walk s.mem r p = some t) (hf : Managed start f)
    (hof : own f = .held) (hz : ∀ j < 512, entry s.mem f j = 0) {q : List Nat}
    (hq : ∀ j ∈ q, j < 512) :
    walk (setEntry s.mem t i (f ||| descTable)) r (p ++ i :: q) =
      if q = [] then some f else none := by
  have hp := hin.of_append
  obtain ⟨hmt, hot⟩ := h.tree.node hr hp ht
  have hwalk : walk (setEntry s.mem t i (f ||| descTable)) r p = some t := by
    rw [h.tree.walk_setEntry hr hp hin.2.index_lt ht hr (by have := hp.1; omega) hp.2
      fun _ ↦ not_isPrefix_of_length le_rfl, ht]
  have hchild : child (setEntry s.mem t i (f ||| descTable)) t i = some f :=
    child_setEntry_or hf.aligned hf.lt (by decide) (by decide) (by decide)
  rw [walk_append, hwalk, Option.bind_some, walk, Radix.walk_cons, hchild, Option.bind_some]
  cases q with
  | nil => rfl
  | cons j q =>
    have hne : t ≠ f := fun e ↦ by simp [e, hof] at hot
    have hj : child (setEntry s.mem t i (f ||| descTable)) f j = none := by
      rw [child_congr (eqOn_frameAt hmt.aligned hf.aligned hne (setEntry_eqOn hin.2.index_lt))
        (hq j (by simp))]
      exact child_of_zero (hz j (hq j (by simp)))
    rw [Radix.walk_cons, hj]
    rfl

/-- A zeroed frame is hung below an entry that pointed nowhere, and so becomes a table. -/
theorem attach (h : Owned strict start kernelL1 roots pages own s) (hr : roots id = some r)
    (hin : InTree id (p ++ [i])) (ht : walk s.mem r p = some t) (hc : child s.mem t i = none)
    (hf : Managed start f) (hof : own f = .held) (hz : ∀ j < 512, entry s.mem f j = 0) :
    Owned strict start kernelL1 roots pages (Function.update own f (.node id (p ++ [i])))
      { s with mem := setEntry s.mem t i (f ||| descTable) } := by
  have hp := hin.of_append
  have hi := hin.2.index_lt
  obtain ⟨hmt, hot⟩ := h.tree.node hr hp ht
  have hnone : ∀ q, walk s.mem r (p ++ i :: q) = none := fun q ↦ by
    rw [walk_append, ht, Option.bind_some, walk, Radix.walk_cons, hc]
    rfl
  -- the walks of the new memory: through the new entry, or as before
  have hthrough : ∀ q, (∀ j ∈ q, j < 512) →
      walk (setEntry s.mem t i (f ||| descTable)) r (p ++ i :: q) =
        if q = [] then some f else none := fun q hq ↦ h.walk_attach hr hin ht hf hof hz hq
  have hother : ∀ {id' r' path}, roots id' = some r' → path.length ≤ 4 → Inside id' path →
      (id' = id → ¬ p ++ [i] <+: path) →
      walk (setEntry s.mem t i (f ||| descTable)) r' path = walk s.mem r' path :=
    fun hr' hlen' hin' hnot ↦ h.tree.walk_setEntry hr hp hi ht hr' hlen' hin' hnot
  refine ⟨h.start_pos, h.free_setEntry hr hp hi ht fun g _ ↦
    update_eq_iff (by simp [hof]) (by simp) g, ⟨?_, ?_, ?_, ?_, ?_, ?_⟩, ?_, ?_, h.slot⟩
  · intro id' r' path g hr' hp' hw
    by_cases hpre : id' = id ∧ p ++ [i] <+: path
    · obtain ⟨rfl, q, rfl⟩ := hpre
      rw [hr] at hr'
      cases hr'
      rw [List.append_assoc, List.singleton_append] at hp' hw ⊢
      rw [hthrough q fun j hj ↦ hp'.2.1 j (by simp [hj])] at hw
      split at hw
      · rename_i hq
        cases hw
        rw [hq, Function.update_self]
        exact ⟨hf, rfl⟩
      · cases hw
    · rw [hother hr' (by have := hp'.1; omega) hp'.2 fun e hpre' ↦ hpre ⟨e, hpre'⟩] at hw
      obtain ⟨hmg, hog⟩ := h.tree.node hr' hp' hw
      have hgf : g ≠ f := fun e ↦ by simp [e, hof] at hog
      rw [Function.update_of_ne hgf]
      exact ⟨hmg, hog⟩
  · intro g id' path hg hog
    by_cases hgf : g = f
    · subst hgf
      rw [Function.update_self] at hog
      cases hog
      exact ⟨⟨r, hr⟩, hin⟩
    · rw [Function.update_of_ne hgf] at hog
      exact h.tree.inSpace hg hog
  · intro hs g id' path r' hg hog hr'
    by_cases hgf : g = f
    · subst hgf
      rw [Function.update_self] at hog
      cases hog
      rw [hr] at hr'
      cases hr'
      exact (hthrough [] (by simp)).trans rfl
    · rw [Function.update_of_ne hgf] at hog
      have hw := h.tree.full hs hg hog hr'
      have hp' := (h.tree.inSpace hg hog).2
      rw [hother hr' (by have := hp'.1; omega) hp'.2, hw]
      rintro rfl ⟨q, rfl⟩
      rw [hr] at hr'
      cases hr'
      rw [List.append_assoc, List.singleton_append, hnone] at hw
      cases hw
  · intro hs id' r' path u j hr' hlen' hin' hmap hu hvalid
    by_cases hpre : id' = id ∧ p ++ [i] <+: path
    · -- the entries of the new table are all invalid
      obtain ⟨rfl, q, rfl⟩ := hpre
      rw [hr] at hr'
      cases hr'
      rw [List.append_assoc, List.singleton_append] at hu
      rw [hthrough q fun j hj ↦ hin'.of_append.1 j (by simp [hj])] at hu
      split at hu
      · cases hu
        have hne : t ≠ f := fun e ↦ by simp [e, hof] at hot
        rw [entry_congr (eqOn_frameAt hmt.aligned hf.aligned hne (setEntry_eqOn hi))
          hin'.index_lt, hz j hin'.index_lt] at hvalid
        exact absurd rfl hvalid
      · cases hu
    · rw [hother hr' (by omega) hin'.of_append fun e hpre' ↦ hpre ⟨e, hpre'⟩] at hu
      by_cases hsame : id' = id ∧ path = p ∧ i = j
      · obtain ⟨rfl, rfl, rfl⟩ := hsame
        rw [hr] at hr'
        cases hr'
        rw [ht] at hu
        cases hu
        rw [entry_setEntry_same (or_lt_of_lt hf.lt (by decide))]
        exact or_and_three hf.aligned (by decide)
      · have hkeep := h.tree.entry_setEntry (v := f ||| descTable) hr hp hi ht hr'
          ⟨hlen', hin'.of_append⟩ hu hin'.index_lt fun h1 h2 h3 ↦ hsame ⟨h1, h2, h3⟩
        rw [hkeep] at hvalid ⊢
        exact h.tree.typed hs hr' hlen' hin' hmap hu hvalid
  · exact h.tree.slot0_setEntry hr hp hin.2 ht
  · exact h.tree.slots_setEntry hr hp hin.2 ht
  · exact h.page.congr fun g id' _ ↦ update_eq_iff (by simp [hof]) (by simp) g
  · intro id' r' path g hr' hlen' hin' hw
    by_cases hpre : id' = id ∧ p ++ [i] <+: path
    · obtain ⟨rfl, q, rfl⟩ := hpre
      rw [hr] at hr'
      cases hr'
      rw [List.append_assoc, List.singleton_append] at hw
      rw [hthrough q fun j hj ↦ hin'.1 j (by simp [hj]), if_neg] at hw
      · cases hw
      · have := hin.1
        rintro rfl
        simp only [List.length_append, List.length_cons, List.length_nil] at this hlen'
        omega
    · rw [hother hr' (by omega) hin' fun e hpre' ↦ hpre ⟨e, hpre'⟩] at hw
      exact h.leaf id' r' path g hr' hlen' hin' hw

/-! ## A space begins and ends -/

open Classical in
/-- A tree made of held frames, without pages, becomes the tree of a new space. -/
theorem adopt (h : Owned strict start kernelL1 roots pages own s) (hid : roots id = none)
    (hheld : ∀ q g, InTree id q → walk s.mem r q = some g → Managed start g ∧ own g = .held)
    (hinj : ∀ q q' g, InTree id q → InTree id q' → walk s.mem r q = some g →
      walk s.mem r q' = some g → q = q')
    (hleaf : ∀ q, q.length = 4 → Inside id q → walk s.mem r q = none)
    (htyped : strict → ∀ q t i, q.length ≤ 3 → Inside id (q ++ [i]) → Mappable id (q ++ [i]) →
      walk s.mem r q = some t → entry s.mem t i &&& descValid ≠ 0 →
      entry s.mem t i &&& descTable = descTable)
    (hslot0 : id.isSome → entry s.mem r 0 = kernelL1 ||| descTable)
    (hslots : ∀ j < 512, j ≠ 0 → j ≠ slotOf id → child s.mem r j = none) :
    ∃ own', Owned strict start kernelL1 (Function.update roots id (some r)) pages own' s ∧
      (∀ q g, InTree id q → walk s.mem r q = some g → own' g = .node id q) ∧
      ∀ g, (∀ q, InTree id q → walk s.mem r q ≠ some g) → own' g = own g := by
  let own' : Nat → Owner := fun g ↦
    if hg : ∃ q, InTree id q ∧ walk s.mem r q = some g then .node id hg.choose else own g
  have hin : ∀ q g, InTree id q → walk s.mem r q = some g → own' g = .node id q := by
    intro q g hq hw
    have hex : ∃ q, InTree id q ∧ walk s.mem r q = some g := ⟨q, hq, hw⟩
    simp only [own', dif_pos hex]
    rw [hinj _ q g hex.choose_spec.1 hq hex.choose_spec.2 hw]
  have hout : ∀ g, (∀ q, InTree id q → walk s.mem r q ≠ some g) → own' g = own g := by
    intro g hg
    exact dif_neg fun ⟨q, hq, hw⟩ ↦ hg q hq hw
  -- a use other than "table of the new space" belongs to the same frames as before
  have hiff : ∀ g x, x ≠ .held → (∀ q, x ≠ .node id q) → (own' g = x ↔ own g = x) := by
    intro g x hx hxn
    by_cases hg : ∃ q, InTree id q ∧ walk s.mem r q = some g
    · obtain ⟨q, hq, hw⟩ := hg
      rw [hin q g hq hw, (hheld q g hq hw).2]
      exact iff_of_false (Ne.symm (hxn q)) (Ne.symm hx)
    · rw [hout g fun q hq hw ↦ hg ⟨q, hq, hw⟩]
  refine ⟨own', ⟨h.start_pos, ?_, ⟨?_, ?_, ?_, ?_, ?_, ?_⟩, ?_, ?_, h.slot⟩, hin, hout⟩
  · exact h.free.congr rfl (fun g _ ↦ hiff g _ (by simp) (by simp)) fun _ _ _ _ _ ↦ rfl
  · intro id' r' path g hr' hp' hw
    by_cases hid' : id' = id
    · subst hid'
      rw [Function.update_self] at hr'
      cases hr'
      exact ⟨(hheld path g hp' hw).1, hin path g hp' hw⟩
    · rw [Function.update_of_ne hid'] at hr'
      obtain ⟨hmg, hog⟩ := h.tree.node hr' hp' hw
      exact ⟨hmg, (hiff g _ (by simp) fun q e ↦ hid' (by cases e; rfl)).mpr hog⟩
  · intro g id' path hg hog
    by_cases hex : ∃ q, InTree id q ∧ walk s.mem r q = some g
    · obtain ⟨q, hq, hw⟩ := hex
      rw [hin q g hq hw] at hog
      cases hog
      exact ⟨⟨r, Function.update_self ..⟩, hq⟩
    · rw [hout g fun q hq hw ↦ hex ⟨q, hq, hw⟩] at hog
      obtain ⟨⟨r', hr'⟩, hp'⟩ := h.tree.inSpace hg hog
      refine ⟨⟨r', ?_⟩, hp'⟩
      rwa [Function.update_of_ne]
      rintro rfl
      rw [hid] at hr'
      cases hr'
  · intro hs g id' path r' hg hog hr'
    by_cases hex : ∃ q, InTree id q ∧ walk s.mem r q = some g
    · obtain ⟨q, hq, hw⟩ := hex
      rw [hin q g hq hw] at hog
      cases hog
      rw [Function.update_self] at hr'
      cases hr'
      exact hw
    · rw [hout g fun q hq hw ↦ hex ⟨q, hq, hw⟩] at hog
      obtain ⟨⟨r₀, hr₀⟩, -⟩ := h.tree.inSpace hg hog
      have hid' : id' ≠ id := by
        rintro rfl
        rw [hid] at hr₀
        cases hr₀
      rw [Function.update_of_ne hid'] at hr'
      exact h.tree.full hs hg hog hr'
  · intro hs id' r' path t i hr' hlen hin' hmap hw
    by_cases hid' : id' = id
    · subst hid'
      rw [Function.update_self] at hr'
      cases hr'
      exact htyped hs path t i hlen hin' hmap hw
    · rw [Function.update_of_ne hid'] at hr'
      exact h.tree.typed hs hr' hlen hin' hmap hw
  · intro pid r' hr'
    by_cases hid' : some pid = id
    · subst hid'
      rw [Function.update_self] at hr'
      cases hr'
      exact hslot0 rfl
    · rw [Function.update_of_ne hid'] at hr'
      exact h.tree.slot0 hr'
  · intro id' r' j hr'
    by_cases hid' : id' = id
    · subst hid'
      rw [Function.update_self] at hr'
      cases hr'
      exact hslots j
    · rw [Function.update_of_ne hid'] at hr'
      exact h.tree.slots hr'
  · exact h.page.congr fun g id' _ ↦ hiff g _ (by simp) (by simp)
  · intro id' r' path g hr' hlen hin' hw
    by_cases hid' : id' = id
    · subst hid'
      rw [Function.update_self] at hr'
      cases hr'
      rw [hleaf path hlen hin'] at hw
      cases hw
    · rw [Function.update_of_ne hid'] at hr'
      exact h.leaf id' r' path g hr' hlen hin' hw

open Classical in
/-- A space ends: its tables are held, to be freed one by one. -/
theorem drop (h : Owned strict start kernelL1 roots pages own s) (id : Option Nat) :
    ∃ own', Owned strict start kernelL1 (Function.update roots id none) pages own' s ∧
      (∀ g q, own g = .node id q → own' g = .held) ∧
      ∀ g, (∀ q, own g ≠ .node id q) → own' g = own g := by
  let own' : Nat → Owner := fun g ↦ if ∃ q, own g = .node id q then .held else own g
  have hin : ∀ g q, own g = .node id q → own' g = .held := fun g q hg ↦ if_pos ⟨q, hg⟩
  have hout : ∀ g, (∀ q, own g ≠ .node id q) → own' g = own g := fun g hg ↦
    if_neg fun ⟨q, hq⟩ ↦ hg q hq
  have hiff : ∀ g x, x ≠ .held → (∀ q, x ≠ .node id q) → (own' g = x ↔ own g = x) := by
    intro g x hx hxn
    by_cases hg : ∃ q, own g = .node id q
    · obtain ⟨q, hq⟩ := hg
      rw [hin g q hq, hq]
      exact iff_of_false (Ne.symm hx) (Ne.symm (hxn q))
    · rw [hout g fun q hq ↦ hg ⟨q, hq⟩]
  have hroots : ∀ {id' r'}, Function.update roots id none id' = some r' →
      id' ≠ id ∧ roots id' = some r' := by
    intro id' r' hr'
    by_cases hid' : id' = id
    · subst hid'
      rw [Function.update_self] at hr'
      cases hr'
    · rw [Function.update_of_ne hid'] at hr'
      exact ⟨hid', hr'⟩
  refine ⟨own', ⟨h.start_pos, ?_, ⟨?_, ?_, ?_, ?_, ?_, ?_⟩, ?_, ?_, h.slot⟩, hin, hout⟩
  · exact h.free.congr rfl (fun g _ ↦ hiff g _ (by simp) (by simp)) fun _ _ _ _ _ ↦ rfl
  · intro id' r' path g hr' hp' hw
    obtain ⟨hne, hr'⟩ := hroots hr'
    obtain ⟨hmg, hog⟩ := h.tree.node hr' hp' hw
    exact ⟨hmg, (hiff g _ (by simp) fun q e ↦ hne (by cases e; rfl)).mpr hog⟩
  · intro g id' path hg hog
    by_cases hex : ∃ q, own g = .node id q
    · obtain ⟨q, hq⟩ := hex
      rw [hin g q hq] at hog
      cases hog
    · rw [hout g fun q hq ↦ hex ⟨q, hq⟩] at hog
      obtain ⟨⟨r', hr'⟩, hp'⟩ := h.tree.inSpace hg hog
      refine ⟨⟨r', ?_⟩, hp'⟩
      rwa [Function.update_of_ne]
      rintro rfl
      exact hex ⟨path, hog⟩
  · intro hs g id' path r' hg hog hr'
    obtain ⟨hne, hr'⟩ := hroots hr'
    exact h.tree.full hs hg ((hiff g _ (by simp) fun q e ↦ hne (by cases e; rfl)).mp hog) hr'
  · exact fun hs _ _ _ _ _ hr' ↦ h.tree.typed hs (hroots hr').2
  · exact fun hr' ↦ h.tree.slot0 (hroots hr').2
  · exact fun hr' ↦ h.tree.slots (hroots hr').2
  · exact h.page.congr fun g id' _ ↦ hiff g _ (by simp) (by simp)
  · exact fun id' r' path g hr' ↦ h.leaf id' r' path g (hroots hr').2

/-- The first page of a space's list, mapped nowhere any more, is taken off the list. -/
theorem dropPage (h : Owned strict start kernelL1 roots pages own s) {va : Nat}
    {rest : List (Nat × Nat)} (hpages : pages id = (va, f) :: rest)
    (hun : ∀ r path, roots id = some r → path.length = 4 → Inside id path →
      walk s.mem r path ≠ some f) :
    (Managed start f ∧ own f = .page id) ∧
      Owned strict start kernelL1 roots (Function.update pages id rest)
          (Function.update own f .held) s := by
  have hf : Managed start f ∧ own f = .page id := ((h.page id).2 f).mp (by simp [hpages])
  refine ⟨hf, h.start_pos, ?_, ?_, ?_, ?_, ?_⟩
  · exact h.free.congr rfl (fun g _ ↦ update_eq_iff (by simp [hf.2]) (by simp) g)
      fun _ _ _ _ _ ↦ rfl
  · exact h.tree.congr (fun g id' q _ ↦ update_eq_iff (by simp [hf.2]) (by simp) g)
      fun _ _ _ _ _ _ _ ↦ rfl
  · intro id'
    by_cases hid : id' = id
    · subst hid
      rw [Function.update_self]
      have hpg := h.page id'
      rw [hpages] at hpg
      simp only [List.map_cons, List.nodup_cons] at hpg
      refine ⟨hpg.1.2, fun g ↦ ?_⟩
      by_cases hg : g = f
      · subst hg
        simp only [Function.update_self, reduceCtorEq, and_false, iff_false]
        exact hpg.1.1
      · rw [Function.update_of_ne hg, ← hpg.2 g]
        simp [hg]
    · rw [Function.update_of_ne hid]
      refine ⟨(h.page id').1, fun g ↦ ?_⟩
      rw [update_eq_iff (by simpa [hf.2] using Ne.symm hid) (by simp) g]
      exact (h.page id').2 g
  · intro id' r' path g hr' hlen hin hw
    obtain ⟨va', hva', hpath⟩ := h.leaf id' r' path g hr' hlen hin hw
    refine ⟨va', ?_, hpath⟩
    by_cases hid : id' = id
    · subst hid
      rw [Function.update_self]
      rw [hpages, List.mem_cons] at hva'
      rcases hva' with heq | hmem
      · cases heq
        exact absurd hw (hun r' path hr' hlen hin)
      · exact hmem
    · rwa [Function.update_of_ne hid]
  · intro id' va' g hmem
    by_cases hid : id' = id
    · subst hid
      rw [Function.update_self] at hmem
      exact h.slot id' va' g (by simp [hpages, hmem])
    · rw [Function.update_of_ne hid] at hmem
      exact h.slot id' va' g hmem

end Owned

end Jatuli

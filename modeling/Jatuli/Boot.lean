import Jatuli.Spaces

/-!
# The record after boot

`init_frames` makes every managed frame free, `init_mmu` builds the kernel's root, its L1 and the
L2 of the identity map, and `init_heap` maps the heap window page by page.  What results is the
record with one space, the kernel's own, whose pages are the pages of the heap.
-/

set_option autoImplicit false

namespace Jatuli

/-! ## `init_frames` -/

/-- Before anything is known, nothing is free and there is no space. -/
theorem Owned.init (strict : Prop) {start : Nat} (hs : 0 < start) (kernelL1 : Nat) (mem : Mem) :
    Owned strict start kernelL1 (fun _ ↦ none) (fun _ ↦ []) (fun _ ↦ .held)
      { mem, frames := { head := 0, freeCount := 0 } } where
  start_pos := hs
  free := ⟨[], rfl, by simp, rfl, by simp⟩
  tree := ⟨by simp, by simp, by simp, by simp, by simp, by simp⟩
  page := by simp [PageOk]
  leaf := by simp [LeafOk]
  slot := by simp

/-- The loop of `add_region`, when it has come to `frame`: what lies below is free. -/
theorem Owned.addRegionFrom {strict : Prop} {start kernelL1 : Nat} :
    ∀ (fuel frame : Nat) {s : Phys},
    frame % 4096 = 0 → start ≤ frame → (ramTop - frame) / 4096 < fuel →
    Owned strict start kernelL1 (fun _ ↦ none) (fun _ ↦ [])
    (fun g ↦ if g < frame then .free else .held) s →
    Owned strict start kernelL1 (fun _ ↦ none) (fun _ ↦ []) (fun _ ↦ .free)
        (Phys.addRegionFrom fuel s frame ramTop) ∧
      (Phys.addRegionFrom fuel s frame ramTop).frames.freeCount =
        s.frames.freeCount + (ramTop - frame) / 4096
  | 0, _, _, _, _, hfuel, _ => absurd hfuel (Nat.not_lt_zero _)
  | fuel + 1, frame, s, hal, hst, hfuel, h => by
    rw [Phys.addRegionFrom]
    split
    · rename_i hle
      rw [frameSize] at hle
      have hpush := h.freeFrame ⟨hal, hst, hle⟩ (if_neg (Nat.lt_irrefl frame))
      have hnext : Owned strict start kernelL1 (fun _ ↦ none) (fun _ ↦ [])
          (fun g ↦ if g < frame + 4096 then .free else .held) (s.freeFrame frame) := by
        refine hpush.congrOwner fun g hg ↦ ?_
        by_cases hgf : g = frame
        · simp [hgf]
        · have := hg.aligned
          rw [Function.update_of_ne hgf]
          exact if_congr (by omega) rfl rfl
      obtain ⟨hown, hcount⟩ := Owned.addRegionFrom fuel (frame + 4096) (by omega) (by omega)
        (by omega) hnext
      refine ⟨hown, hcount.trans ?_⟩
      show s.frames.freeCount + 1 + _ = _
      omega
    · rename_i hgt
      rw [frameSize] at hgt
      refine ⟨h.congrOwner fun g hg ↦ ?_, by omega⟩
      have := hg.2.2
      have := hg.aligned
      rw [if_pos (by omega)]

theorem frameAlignUp_aligned (a : Nat) : frameAlignUp a % 4096 = 0 := by
  rw [frameAlignUp, frameSize]
  omega

/-- The first frame the allocator is given. -/
def firstFrame (kernelEnd : Nat) : Nat := frameAlignUp (frameAlignUp kernelEnd)

theorem le_firstFrame (kernelEnd : Nat) : kernelEnd ≤ firstFrame kernelEnd := by
  rw [firstFrame, frameAlignUp, frameAlignUp, frameSize]
  omega

/-- `init_frames`: every managed frame is free. -/
theorem Owned.initFrames (strict : Prop) (kernelL1 : Nat) (mem : Mem) {kernelEnd : Nat}
    (h : 0 < kernelEnd) :
    Owned strict (firstFrame kernelEnd) kernelL1 (fun _ ↦ none) (fun _ ↦ []) (fun _ ↦ .free)
        (initFrames mem kernelEnd) ∧
      (initFrames mem kernelEnd).frames.freeCount = (ramTop - firstFrame kernelEnd) / 4096 := by
  have hpos : 0 < firstFrame kernelEnd := by
    have := le_firstFrame kernelEnd
    omega
  have hinit : Owned strict (firstFrame kernelEnd) kernelL1 (fun _ ↦ none) (fun _ ↦ [])
      (fun g ↦ if g < firstFrame kernelEnd then .free else .held)
      { mem, frames := { head := 0, freeCount := 0 } } := by
    refine (Owned.init strict hpos kernelL1 mem).congrOwner fun g hg ↦ ?_
    rw [if_neg (by have := hg.2.1; omega)]
  have hfuel : (ramTop - firstFrame kernelEnd) / 4096 < ramTop / frameSize + 1 := by
    rw [frameSize]
    omega
  have hloop := Owned.addRegionFrom _ _ (frameAlignUp_aligned _) le_rfl hfuel hinit
  simpa [firstFrame, Jatuli.initFrames, Phys.addRegion] using hloop

/-! ## `init_mmu` -/

/-- Block descriptors have no child. -/
theorem block_type {pa flags : Nat} (hpa : pa % 4096 = 0) (hflags : flags &&& 3 = 1) :
    (pa ||| flags) &&& descTable ≠ descTable := by
  rw [descTable, Nat.and_or_distrib_right, and_three_of_aligned hpa, hflags]
  decide

/-- Filling entries of a table with given values: each entry is one of them or what it was. -/
theorem foldl_setEntry {t : Nat} {v : Nat → Nat} (is : List Nat) {m : Mem}
    (hv : ∀ i ∈ is, i < 512 ∧ v i < 2 ^ 64) :
    (∀ j < 512, entry (is.foldl (fun m i ↦ setEntry m t i (v i)) m) t j = entry m t j ∨
      ∃ i ∈ is, entry (is.foldl (fun m i ↦ setEntry m t i (v i)) m) t j = v i) ∧
      Set.EqOn (is.foldl (fun m i ↦ setEntry m t i (v i)) m) m (frameAt t)ᶜ := by
  induction is generalizing m with
  | nil => exact ⟨fun _ _ ↦ .inl rfl, Set.eqOn_refl _ _⟩
  | cons i is ih =>
    obtain ⟨hi, h64⟩ := hv i (by simp)
    obtain ⟨h1, h2⟩ := ih (m := setEntry m t i (v i)) fun k hk ↦ hv k (by simp [hk])
    rw [List.foldl_cons]
    refine ⟨fun j hj ↦ ?_, h2.trans (setEntry_eqOn hi)⟩
    rcases h1 j hj with h1 | ⟨k, hk, h1⟩
    · by_cases hij : i = j
      · subst hij
        exact .inr ⟨i, by simp, h1.trans (entry_setEntry_same h64)⟩
      · exact .inl (h1.trans (entry_setEntry_ne hij))
    · exact .inr ⟨k, by simp [hk], h1⟩

/-- The tree of the identity map: a root, an L1 below its slot 0, an L2 below slot 1 of that. -/
structure IdentityMap (m : Mem) (l0 l1 l2 : Nat) : Prop where
  root0 : child m l0 0 = some l1
  root_other : ∀ j < 512, j ≠ 0 → child m l0 j = none
  /-- The type of the device block in slot 0, and the empty slot the heap will use. -/
  l1_1 : child m l1 1 = some l2
  l1_other : ∀ j < 512, j ≠ 1 → child m l1 j = none
  l1_heap : entry m l1 4 = 0
  l2_none : ∀ j < 512, child m l2 j = none
  /-- Nothing is accessible from EL0. -/
  noEl0 : ∀ t j, t = l0 ∨ t = l1 ∨ t = l2 → j < 512 → entry m t j &&& apEl0Rw = 0

namespace IdentityMap

variable {m : Mem} {l0 l1 l2 : Nat}

/-- The walks there are. -/
theorem walk_cases (h : IdentityMap m l0 l1 l2) {q : List Nat} {g : Nat} (hq : Inside none q)
    (hw : walk m l0 q = some g) :
    q = [] ∧ g = l0 ∨ q = [0] ∧ g = l1 ∨ q = [0, 1] ∧ g = l2 := by
  cases q with
  | nil => exact .inl ⟨rfl, (Option.some.inj hw).symm⟩
  | cons i q =>
    have hi : i = 0 := hq.2 i (by simp)
    subst hi
    rw [walk_cons_of_child h.root0] at hw
    cases q with
    | nil => exact .inr (.inl ⟨rfl, (Option.some.inj hw).symm⟩)
    | cons j q =>
      have hj := hq.1 j (by simp)
      by_cases hj1 : j = 1
      · subst hj1
        rw [walk_cons_of_child h.l1_1] at hw
        cases q with
        | nil => exact .inr (.inr ⟨rfl, (Option.some.inj hw).symm⟩)
        | cons k q =>
          rw [walk, Radix.walk_cons, h.l2_none k (hq.1 k (by simp))] at hw
          cases hw
      · rw [walk, Radix.walk_cons, h.l1_other j hj hj1] at hw
        cases hw

theorem walk_inj (h : IdentityMap m l0 l1 l2) (h01 : l0 ≠ l1) (h02 : l0 ≠ l2) (h12 : l1 ≠ l2)
    {q q' : List Nat} {g : Nat} (hq : Inside none q) (hq' : Inside none q')
    (hw : walk m l0 q = some g) (hw' : walk m l0 q' = some g) : q = q' := by
  rcases h.walk_cases hq hw with ⟨rfl, rfl⟩ | ⟨rfl, rfl⟩ | ⟨rfl, rfl⟩ <;>
    rcases h.walk_cases hq' hw' with ⟨rfl, e⟩ | ⟨rfl, e⟩ | ⟨rfl, e⟩ <;>
    first | rfl | exact absurd e (by assumption) | exact absurd e.symm (by assumption)

/-- Where the heap will be mapped there is nothing, and no block either. -/
theorem typed (h : IdentityMap m l0 l1 l2) {q : List Nat} {t i : Nat} (hq : Inside none (q ++ [i]))
    (hmap : Mappable none (q ++ [i])) (hw : walk m l0 q = some t)
    (hvalid : entry m t i &&& descValid ≠ 0) : entry m t i &&& descTable = descTable := by
  rcases h.walk_cases hq.of_append hw with ⟨rfl, rfl⟩ | ⟨rfl, rfl⟩ | ⟨rfl, rfl⟩
  · have hi : i = 0 := hq.2 i (by simp)
    subst hi
    exact (child_eq_some.mp h.root0).1
  · have hi : i = 4 := by
      rcases hmap with ⟨q, hq⟩ | ⟨q, hq⟩
      · simp only [List.cons_append, List.nil_append, List.cons.injEq, true_and] at hq
        exact hq.1
      · simp only [List.cons_append, List.nil_append, List.cons.injEq, true_and] at hq
        exact hq.1.symm
    subst hi
    rw [h.l1_heap] at hvalid
    exact absurd rfl hvalid
  · rcases hmap with ⟨q, hq⟩ | ⟨q, hq⟩
    · simp at hq
    · simp at hq

end IdentityMap

section InitMmu

variable {strict : Prop} {start l0 l1 : Nat} {s s' : Phys}

/-- `init_mmu` builds the identity map out of three free frames. -/
theorem Owned.initMmu (h : Owned strict start l1 (fun _ ↦ none) (fun _ ↦ []) (fun _ ↦ .free) s)
    (hi : initMmu s = some ((l0, l1), s')) :
    ∃ own', Owned strict start l1 (Function.update (fun _ ↦ none) none (some l0)) (fun _ ↦ [])
        own' s' ∧ (∀ g, Managed start g → own' g ≠ .held) ∧ walk s'.mem l0 [0] = some l1 ∧
      (∀ g q i, own' g = .node none q → i < 512 → entry s'.mem g i &&& apEl0Rw = 0) ∧
      s.frames.freeCount = s'.frames.freeCount + 3 := by
  rw [Jatuli.initMmu] at hi
  obtain ⟨⟨a, s₁⟩, ha₀, hi⟩ := Option.bind_eq_some_iff.mp hi
  obtain ⟨⟨b, s₂⟩, ha₁, hi⟩ := Option.bind_eq_some_iff.mp hi
  obtain ⟨⟨l2, s₃⟩, ha₂, hi⟩ := Option.bind_eq_some_iff.mp hi
  cases hi
  obtain ⟨⟨hm₀, ho₀⟩, hz₀, hout₀, hc₀, h₁⟩ := h.allocTable ha₀
  obtain ⟨⟨hm₁, ho₁⟩, hz₁, hout₁, hc₁, h₂⟩ := h₁.allocTable ha₁
  obtain ⟨⟨hm₂, ho₂⟩, hz₂, hout₂, hc₂, h₃⟩ := h₂.allocTable ha₂
  have h01 : l0 ≠ l1 := by
    rintro rfl
    simp at ho₁
  have h12 : l1 ≠ l2 := by
    rintro rfl
    simp at ho₂
  have h02 : l0 ≠ l2 := by
    rintro rfl
    simp [Function.update_of_ne h01] at ho₂
  have hz₀' : ∀ j < 512, entry s₃.mem l0 j = 0 := fun j hj ↦ by
    rw [entry_congr (eqOn_frameAt hm₂.aligned hm₀.aligned (Ne.symm h02) hout₂) hj,
      entry_congr (eqOn_frameAt hm₁.aligned hm₀.aligned (Ne.symm h01) hout₁) hj, hz₀ j hj]
  have hz₁' : ∀ j < 512, entry s₃.mem l1 j = 0 := fun j hj ↦ by
    rw [entry_congr (eqOn_frameAt hm₂.aligned hm₁.aligned (Ne.symm h12) hout₂) hj, hz₁ j hj]
  -- the blocks of the identity map
  have hblock : ∀ i ∈ List.range ramBlocks, (ramBase + i * block2mib) % 4096 = 0 ∧
      ramBase + i * block2mib < 2 ^ 48 ∧ i < 512 := by
    intro i hi
    have hi : i < 64 := List.mem_range.mp hi
    rw [ramBase, block2mib]
    omega
  obtain ⟨hl2, hfold⟩ := foldl_setEntry (t := l2)
    (v := fun i ↦ (ramBase + i * block2mib) ||| normalBlock) (List.range ramBlocks) (m := s₃.mem)
    fun i hi ↦ ⟨(hblock i hi).2.2, or_lt_of_lt (hblock i hi).2.1 (by decide)⟩
  generalize (List.range ramBlocks).foldl
    (fun m i ↦ setEntry m l2 i ((ramBase + i * block2mib) ||| normalBlock)) s₃.mem
    = m₁ at hl2 hfold ⊢
  have hd : Set.EqOn (setEntry m₁ l1 0 deviceBlock) m₁ (frameAt l1)ᶜ := setEntry_eqOn (by decide)
  have ht : Set.EqOn (setEntry (setEntry m₁ l1 0 deviceBlock) l1 1 (l2 ||| descTable))
      (setEntry m₁ l1 0 deviceBlock) (frameAt l1)ᶜ := setEntry_eqOn (by decide)
  generalize hm₃ : setEntry (setEntry m₁ l1 0 deviceBlock) l1 1 (l2 ||| descTable) = m₃ at ht ⊢
  have hr : Set.EqOn (setEntry m₃ l0 0 (l1 ||| descTable)) m₃ (frameAt l0)ᶜ :=
    setEntry_eqOn (by decide)
  have hframe₁ := eqOn_frameAt hm₀.aligned hm₁.aligned h01 hr
  have hentry₀ : ∀ j < 512, j ≠ 0 → entry (setEntry m₃ l0 0 (l1 ||| descTable)) l0 j = 0 :=
    fun j hj hj0 ↦ by
      rw [entry_setEntry_ne (Ne.symm hj0),
        entry_congr (eqOn_frameAt hm₁.aligned hm₀.aligned (Ne.symm h01) ht) hj,
        entry_congr (eqOn_frameAt hm₁.aligned hm₀.aligned (Ne.symm h01) hd) hj,
        entry_congr (eqOn_frameAt hm₂.aligned hm₀.aligned (Ne.symm h02) hfold) hj, hz₀' j hj]
  have hentry₁ : ∀ j < 512, j ≠ 0 → j ≠ 1 → entry m₃ l1 j = 0 := fun j hj hj0 hj1 ↦ by
    rw [← hm₃, entry_setEntry_ne (Ne.symm hj1), entry_setEntry_ne (Ne.symm hj0),
      entry_congr (eqOn_frameAt hm₂.aligned hm₁.aligned (Ne.symm h12) hfold) hj, hz₁' j hj]
  have hentry₂ : ∀ j < 512, entry (setEntry m₃ l0 0 (l1 ||| descTable)) l2 j = 0 ∨
      ∃ i ∈ List.range ramBlocks, entry (setEntry m₃ l0 0 (l1 ||| descTable)) l2 j =
        (ramBase + i * block2mib) ||| normalBlock := fun j hj ↦ by
    rw [entry_congr (eqOn_frameAt hm₀.aligned hm₂.aligned h02 hr) hj,
      entry_congr (eqOn_frameAt hm₁.aligned hm₂.aligned h12 ht) hj,
      entry_congr (eqOn_frameAt hm₁.aligned hm₂.aligned h12 hd) hj, ← hz₂ j hj]
    exact hl2 j hj
  have hdevice : entry m₃ l1 0 = deviceBlock := by
    rw [← hm₃, entry_setEntry_ne (by decide), entry_setEntry_same (by decide)]
  have hmap : IdentityMap (setEntry m₃ l0 0 (l1 ||| descTable)) l0 l1 l2 := by
    refine ⟨?_, fun j hj hj0 ↦ child_of_zero (hentry₀ j hj hj0), ?_, fun j hj hj1 ↦ ?_, ?_,
      fun j hj ↦ ?_, fun t j htab hj ↦ ?_⟩
    · exact child_setEntry_or hm₁.aligned hm₁.lt (by decide) (by decide) (by decide)
    · rw [child_congr hframe₁ (by decide), ← hm₃]
      exact child_setEntry_or hm₂.aligned hm₂.lt (by decide) (by decide) (by decide)
    · rw [child_congr hframe₁ hj]
      by_cases hj0 : j = 0
      · subst hj0
        rw [child, hdevice]
        exact if_neg (by decide)
      · exact child_of_zero (hentry₁ j hj hj0 hj1)
    · rw [entry_congr hframe₁ (by decide), hentry₁ 4 (by decide) (by decide) (by decide)]
    · rcases hentry₂ j hj with he | ⟨i, hi, he⟩
      · exact child_of_zero he
      · rw [child, he, if_neg (block_type (hblock i hi).1 (by decide))]
    · rcases htab with rfl | rfl | rfl
      · by_cases hj0 : j = 0
        · subst hj0
          rw [entry_setEntry_same (or_lt_of_lt hm₁.lt (by decide)), or_and_apEl0Rw hm₁.aligned]
          decide
        · rw [hentry₀ j hj hj0]
          decide
      · rw [entry_congr hframe₁ hj]
        by_cases hj0 : j = 0
        · rw [hj0, hdevice]
          decide
        · by_cases hj1 : j = 1
          · rw [hj1, ← hm₃, entry_setEntry_same (or_lt_of_lt hm₂.lt (by decide)),
              or_and_apEl0Rw hm₂.aligned]
            decide
          · rw [hentry₁ j hj hj0 hj1]
            decide
      · rcases hentry₂ j hj with he | ⟨i, hi, he⟩
        · rw [he]
          decide
        · rw [he, or_and_apEl0Rw (hblock i hi).1]
          decide
  -- only the three frames were written, and they are held
  have hheld : ∀ g, g = l0 ∨ g = l1 ∨ g = l2 → Function.update (Function.update (Function.update
      (fun _ ↦ Owner.free) l0 .held) l1 .held) l2 .held g = .held := by
    rintro g (rfl | rfl | rfl)
    · rw [Function.update_of_ne h02, Function.update_of_ne h01, Function.update_self]
    · rw [Function.update_of_ne h12, Function.update_self]
    · rw [Function.update_self]
  have hmem : ∀ g, Managed start g → Function.update (Function.update (Function.update
      (fun _ ↦ Owner.free) l0 .held) l1 .held) l2 .held g ≠ .held →
      Set.EqOn (setEntry m₃ l0 0 (l1 ||| descTable)) s₃.mem (frameAt g) := by
    intro g hg hog
    have hne : g ≠ l0 ∧ g ≠ l1 ∧ g ≠ l2 :=
      ⟨fun e ↦ hog (hheld g (.inl e)), fun e ↦ hog (hheld g (.inr (.inl e))),
        fun e ↦ hog (hheld g (.inr (.inr e)))⟩
    exact (eqOn_frameAt hm₀.aligned hg.aligned (Ne.symm hne.1) hr).trans
      ((eqOn_frameAt hm₁.aligned hg.aligned (Ne.symm hne.2.1) ht).trans
      ((eqOn_frameAt hm₁.aligned hg.aligned (Ne.symm hne.2.1) hd).trans
      (eqOn_frameAt hm₂.aligned hg.aligned (Ne.symm hne.2.2) hfold)))
  have h₄ := h₃.write (fun g hg hog ↦ hmem g hg (by rw [hog]; simp))
    fun g id p hg hog ↦ hmem g hg (by rw [hog]; simp)
  have hframes : ∀ q g, InTree none q → walk (setEntry m₃ l0 0 (l1 ||| descTable)) l0 q = some g →
      Managed start g ∧ (g = l0 ∨ g = l1 ∨ g = l2) := by
    intro q g hq hw
    rcases hmap.walk_cases hq.2 hw with ⟨-, rfl⟩ | ⟨-, rfl⟩ | ⟨-, rfl⟩
    · exact ⟨hm₀, .inl rfl⟩
    · exact ⟨hm₁, .inr (.inl rfl)⟩
    · exact ⟨hm₂, .inr (.inr rfl)⟩
  obtain ⟨own', ho', hnode, hkeep⟩ := h₄.adopt (r := l0) (show _ = none from rfl)
    (fun q g hq hw ↦ ⟨(hframes q g hq hw).1, hheld g (hframes q g hq hw).2⟩)
    (fun q q' g hq hq' hw hw' ↦ hmap.walk_inj h01 h02 h12 hq.2 hq'.2 hw hw')
    (fun q hlen hq ↦ by
      rw [Option.eq_none_iff_forall_ne_some]
      intro g hw
      rcases hmap.walk_cases hq hw with ⟨rfl, -⟩ | ⟨rfl, -⟩ | ⟨rfl, -⟩ <;> cases hlen)
    (fun _ q t i _ hq hmp hw ↦ hmap.typed hq hmp hw)
    (by simp) (fun j hj h0 _ ↦ hmap.root_other j hj h0)
  refine ⟨own', ho', fun g hg hog ↦ ?_, ?_, fun g q i hog hi ↦ ?_, by simp only; omega⟩
  · by_cases hex : ∃ q, InTree none q ∧
        walk (setEntry m₃ l0 0 (l1 ||| descTable)) l0 q = some g
    · obtain ⟨q, hq, hw⟩ := hex
      rw [hnode q g hq hw] at hog
      cases hog
    · rw [hkeep g fun q hq hw ↦ hex ⟨q, hq, hw⟩] at hog
      have hin : g = l0 ∨ g = l1 ∨ g = l2 := by
        by_contra hnot
        rw [not_or, not_or] at hnot
        rw [Function.update_of_ne hnot.2.2, Function.update_of_ne hnot.2.1,
          Function.update_of_ne hnot.1] at hog
        cases hog
      rcases hin with rfl | rfl | rfl
      · exact hex ⟨[], .nil _, rfl⟩
      · exact hex ⟨[0], ⟨by simp, by simp [Inside, slotOf]⟩, walk_cons_of_child hmap.root0 []⟩
      · refine hex ⟨[0, 1], ⟨by simp, by simp [Inside, slotOf]⟩, ?_⟩
        rw [walk_cons_of_child hmap.root0, walk_cons_of_child hmap.l1_1]
        rfl
  · exact walk_cons_of_child hmap.root0 []
  · refine hmap.noEl0 g i ?_ hi
    by_cases hex : ∃ q, InTree none q ∧
        walk (setEntry m₃ l0 0 (l1 ||| descTable)) l0 q = some g
    · obtain ⟨q, hq, hw⟩ := hex
      exact (hframes q g hq hw).2
    · by_contra hnot
      rw [not_or, not_or] at hnot
      rw [hkeep g fun q hq hw ↦ hex ⟨q, hq, hw⟩, Function.update_of_ne hnot.2.2,
        Function.update_of_ne hnot.2.1, Function.update_of_ne hnot.1] at hog
      cases hog

theorem Owned.initMmu_isSome {l1 : Nat}
    (h : Owned strict start l1 (fun _ ↦ none) (fun _ ↦ []) (fun _ ↦ .free) s)
    (hc : 3 ≤ s.frames.freeCount) : ∃ l0 l1 s', Jatuli.initMmu s = some ((l0, l1), s') := by
  obtain ⟨a, s₁, ha₀⟩ := h.allocTable_isSome (by omega)
  obtain ⟨-, -, -, hc₀, h₁⟩ := h.allocTable ha₀
  obtain ⟨b, s₂, ha₁⟩ := h₁.allocTable_isSome (by omega)
  obtain ⟨-, -, -, hc₁, h₂⟩ := h₁.allocTable ha₁
  obtain ⟨c, s₃, ha₂⟩ := h₂.allocTable_isSome (by omega)
  simp only [Jatuli.initMmu, ha₀, ha₁, ha₂, Option.bind_eq_bind, Option.bind_some]
  exact ⟨a, b, _, rfl⟩

end InitMmu

/-! ## `init_heap` -/

/-- The pages of the heap mapped so far, up to offset `off`. -/
def HeapMapped (m : Mem) (l0 off : Nat) (heap : List (Nat × Nat)) : Prop :=
  ∀ va f, (va, f) ∈ heap → heapVbase ≤ va ∧ va < heapVbase + off ∧ va % 4096 = 0 ∧
    ∃ t, walk m l0 (tablePath va) = some t ∧ entry m t (tableIndex va 12) = f ||| pageKernelRw

section InitHeap

variable {strict : Prop} {start kernelL1 l0 : Nat} {roots : Option Nat → Option Nat}

theorem tableIndex_heap {off : Nat} (h : off < heapSize) :
    tableIndex (heapVbase + off) 39 = slotOf none := by
  have hs : slotOf none = 0 := rfl
  have hb : heapVbase = 2 ^ 32 := by decide
  have hz : heapSize = 2 ^ 21 := by decide
  rw [tableIndex_eq, hs]
  omega

theorem mappable_heap {off : Nat} (h : off < heapSize) :
    Mappable none (tablePath (heapVbase + off)) := by
  refine .inr ⟨[tableIndex (heapVbase + off) 21], ?_⟩
  have hb : heapVbase = 2 ^ 32 := by decide
  have hz : heapSize = 2 ^ 21 := by decide
  have h39 : tableIndex (heapVbase + off) 39 = 0 := tableIndex_heap h
  have h30 : tableIndex (heapVbase + off) 30 = 4 := by
    rw [tableIndex_eq]
    omega
  rw [tablePath, h39, h30]
  rfl

/-- The loop of `init_heap`. -/
theorem Owned.initHeapFrom (hr : roots none = some l0) :
    ∀ (n off : Nat) {pages : Option Nat → List (Nat × Nat)} {own : Nat → Owner} {s s' : Phys},
    Owned strict start kernelL1 roots pages own s → off % 4096 = 0 → off + 4096 * n = heapSize →
    HeapMapped s.mem l0 off (pages none) → initHeapFrom n s l0 off = some s' →
    ∃ new, Filled strict start kernelL1 roots pages none own s s' new ∧
      HeapMapped s'.mem l0 heapSize (pages none ++ new)
  | 0, off, pages, own, s, s', h, _, hoff, hm, hi => by
    cases hi
    refine ⟨[], .nil h, ?_⟩
    rw [show heapSize = off by omega]
    simpa using hm
  | n + 1, off, pages, own, s, s', h, hal, hoff, hm, hi => by
    rw [Jatuli.initHeapFrom] at hi
    obtain ⟨⟨f, s₁⟩, ha, hi⟩ := Option.bind_eq_some_iff.mp hi
    obtain ⟨s₂, hmap, hi⟩ := Option.bind_eq_some_iff.mp hi
    have hmap' : Jatuli.mapPageIn { s₁ with mem := s₁.mem.fill f [] } l0 (heapVbase + off) f
        pageKernelRw = some s₂ := hmap
    have hidx : tableIndex (heapVbase + off) 39 = slotOf none := tableIndex_heap (by omega)
    have hlt : heapVbase + off < 2 ^ 48 := by
      have hb : heapVbase = 2 ^ 32 := by decide
      have hz : heapSize = 2 ^ 21 := by decide
      omega
    obtain ⟨⟨own₂, ho₂, hgrown⟩, -, -, ⟨t, ht, he⟩, hkept⟩ :=
      h.addPage hr hlt hidx ha (by simp) pageFlags_kernelRw hmap'
    have hm₂ : HeapMapped s₂.mem l0 (off + 4096) (pages none ++ [(heapVbase + off, f)]) := by
      intro va g hmem
      have hb : heapVbase = 2 ^ 32 := by decide
      have hz : heapSize = 2 ^ 21 := by decide
      rcases List.mem_append.mp hmem with hmem | hmem
      · obtain ⟨h1, h2, h3, u, hu, hue⟩ := hm va g hmem
        have hne : pagePath va ≠ pagePath (heapVbase + off) := by
          intro hp
          have := pagePath_inj (by omega) (by omega) hp
          omega
        obtain ⟨hu', he'⟩ := hkept (tablePath va) u _ rfl
          (inside_pagePath (h.slot none va g hmem).2) hne hu
        exact ⟨h1, by omega, h3, u, hu', he'.trans hue⟩
      · rw [List.mem_singleton, Prod.mk.injEq] at hmem
        obtain ⟨rfl, rfl⟩ := hmem
        clear hlt
        have hal' : (heapVbase + off) % 4096 = 0 := by omega
        exact ⟨Nat.le_add_right _ _, Nat.add_lt_add_left (by omega) _, hal', t, ht, he⟩
    have hstep : ∀ own', Owned strict start kernelL1 roots
        (Function.update pages none (pages none ++ [(heapVbase + off, f)])) own' s₂ →
        ∃ new, Filled strict start kernelL1 roots
            (Function.update pages none (pages none ++ [(heapVbase + off, f)])) none own' s₂
            s' new ∧
          HeapMapped s'.mem l0 heapSize (pages none ++ [(heapVbase + off, f)] ++ new) := by
      intro own' ho'
      simpa using Owned.initHeapFrom hr n (off + 4096) ho' (by omega) (by omega)
        (by simpa using hm₂) hi
    obtain ⟨new, ⟨own₃, ho₃, hgrown₃, hc₃⟩, hmapped⟩ := hstep own₂ ho₂
    refine ⟨(heapVbase + off, f) :: new, ⟨own₃, ?_, hgrown.1.trans hgrown₃, ?_⟩,
      by simpa using hmapped⟩
    · simpa using ho₃
    · have := hgrown.2
      simp only [List.length_cons, List.length_nil] at this hc₃ ⊢
      omega

/-- Four frames a page are enough for the heap. -/
theorem Owned.initHeapFrom_isSome (hs : strict) (hr : roots none = some l0) :
    ∀ (n off : Nat) {pages : Option Nat → List (Nat × Nat)} {own : Nat → Owner} {s : Phys},
    Owned strict start kernelL1 roots pages own s → off + 4096 * n = heapSize →
    4 * n ≤ s.frames.freeCount → ∃ s', Jatuli.initHeapFrom n s l0 off = some s' ∧
      s.frames.freeCount ≤ s'.frames.freeCount + 4 * n
  | 0, _, _, _, s, _, _, _ => ⟨s, rfl, by omega⟩
  | n + 1, off, pages, own, s, h, hoff, hc => by
    have hidx : tableIndex (heapVbase + off) 39 = slotOf none := tableIndex_heap (by omega)
    have hlt : heapVbase + off < 2 ^ 48 := by
      have hb : heapVbase = 2 ^ 32 := by decide
      have hz : heapSize = 2 ^ 21 := by decide
      omega
    obtain ⟨f, s₁, ha⟩ := h.allocFrame_isSome (by omega)
    obtain ⟨-, ⟨-, hc₁⟩, h₁⟩ := h.allocFrame ha
    obtain ⟨s₂, hm⟩ := h₁.mapPageIn_isSome hs hr hidx (mappable_heap (by omega)) (by omega) f
      pageKernelRw
    have hm' : Jatuli.mapPageIn { s₁ with mem := s₁.mem.fill f [] } l0 (heapVbase + off) f
        pageKernelRw = some s₂ := hm
    obtain ⟨⟨own₂, ho₂, -, hc₂⟩, -⟩ := h.addPage hr hlt hidx ha (by simp) pageFlags_kernelRw hm'
    simp only [List.length_cons, List.length_nil] at hc₂
    obtain ⟨s₃, h₃, hc₃⟩ :=
      Owned.initHeapFrom_isSome hs hr n (off + 4096) ho₂ (by omega) (by omega)
    refine ⟨s₃, ?_, by omega⟩
    simp only [Jatuli.initHeapFrom, ha, hm, Option.bind_eq_bind, Option.bind_some]
    exact h₃

end InitHeap

end Jatuli

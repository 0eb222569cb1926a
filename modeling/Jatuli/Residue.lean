import Jatuli.Placement

/-!
# What is left in a frame

The free list hands out frames as they are.  Two runs from states that differ in nothing but what
free frames hold, past the words that link them, are compared step by step: they take the same
frames, and once a frame is overwritten the two memories agree on it.  The one frame that is mapped
for the process and not overwritten is that of its stack.
-/

set_option autoImplicit false

namespace Jatuli

/-- The bytes of a frame past its link word. -/
def beyondLink (f : Nat) : Set Nat := Set.Ico (f + 8) (f + 4096)

/-! ## Two memories, one allocator -/

/-- Two states that agree but for what the frames `fs` on the free list and the frames in `dirty`
hold past their first word.  `path` labels tables with their place in a tree: what a labelled table
points at is labelled accordingly, so that a walk that starts at one stays among frames the two
memories agree on. -/
structure Twin (fs : List Nat) (dirty : Set Nat) (path : Nat → Option (List Nat))
    (s s' : Phys) : Prop where
  frames : s'.frames = s.frames
  linked : s.mem.Linked s.frames.head fs
  nodup : fs.Nodup
  free : ∀ f ∈ fs, f % 4096 = 0 ∧ f < 2 ^ 48 ∧ f ∉ dirty
  dirtyAligned : ∀ f ∈ dirty, f % 4096 = 0
  agree : ∀ x, (∀ f ∈ fs, x ∉ beyondLink f) → (∀ f ∈ dirty, x ∉ beyondLink f) → s'.mem x = s.mem x
  table : ∀ {t q}, path t = some q → t % 4096 = 0 ∧ t ∉ fs ∧ t ∉ dirty
  child : ∀ {t q i}, path t = some q → q.length < 3 → i < 512 →
    entry s.mem t i &&& descTable = descTable →
    path (entry s.mem t i &&& addrMask) = some (q ++ [i])
  /-- What EL0 can read is not on the free list. -/
  leaf : ∀ {t q i}, path t = some q → q.length = 3 → i < 512 →
    entry s.mem t i &&& descPage = descPage → entry s.mem t i &&& apEl0Rw ≠ 0 →
    entry s.mem t i &&& addrMask ∉ fs
  /-- Blocks are for the kernel only. -/
  block : ∀ {t q i}, path t = some q → q.length < 3 → i < 512 →
    entry s.mem t i &&& descTable = descBlock → entry s.mem t i &&& apEl0Rw = 0

/-- What a step does to one of the memories: tables keep their place and their valid entries, except
those at the end of a path in `leaves`; free frames that stay free and frames that are neither free
nor tables keep their contents. -/
structure Extends (leaves : Set (List Nat)) (fs : List Nat) (path : Nat → Option (List Nat))
    (m : Mem) (fs' : List Nat) (path' : Nat → Option (List Nat)) (m' : Mem) : Prop where
  free : fs' ⊆ fs
  freeKept : ∀ f ∈ fs', Set.EqOn m' m (frameAt f)
  label : ∀ {t q}, path t = some q → path' t = some q
  valid : ∀ {t q i}, path t = some q → i < 512 → q ++ [i] ∉ leaves →
    entry m t i &&& descValid ≠ 0 → entry m' t i = entry m t i
  kept : ∀ {g}, g % 4096 = 0 → g ∉ fs → path g = none →
    path' g = none ∧ Set.EqOn m' m (frameAt g)

namespace Extends

variable {leaves : Set (List Nat)} {fs fs' fs'' : List Nat}
  {path path' path'' : Nat → Option (List Nat)} {m m' m'' : Mem}

theorem refl (leaves : Set (List Nat)) (fs : List Nat) (path : Nat → Option (List Nat)) (m : Mem) :
    Extends leaves fs path m fs path m :=
  ⟨fun _ h ↦ h, fun _ _ ↦ Set.eqOn_refl _ _, fun h ↦ h, fun _ _ _ _ ↦ rfl,
    fun _ _ hg ↦ ⟨hg, Set.eqOn_refl _ _⟩⟩

theorem trans (h : Extends leaves fs path m fs' path' m')
    (h' : Extends leaves fs' path' m' fs'' path'' m'') :
    Extends leaves fs path m fs'' path'' m'' where
  free := fun _ hf ↦ h.free (h'.free hf)
  freeKept := fun f hf ↦ (h'.freeKept f hf).trans (h.freeKept f (h'.free hf))
  label := fun ht ↦ h'.label (h.label ht)
  valid := fun ht hi hne hv ↦ by
    have he := h.valid ht hi hne hv
    rw [h'.valid (h.label ht) hi hne (by rwa [he]), he]
  kept := fun hal hg hpath ↦ by
    obtain ⟨hp₁, hm₁⟩ := h.kept hal hg hpath
    obtain ⟨hp₂, hm₂⟩ := h'.kept hal (fun hf ↦ hg (h.free hf)) hp₁
    exact ⟨hp₂, hm₂.trans hm₁⟩

theorem mono {leaves' : Set (List Nat)} (h : Extends leaves fs path m fs' path' m')
    (hsub : leaves ⊆ leaves') : Extends leaves' fs path m fs' path' m' :=
  ⟨h.free, h.freeKept, h.label, fun ht hi hne hv ↦ h.valid ht hi (fun hl ↦ hne (hsub hl)) hv,
    h.kept⟩

/-- The first frame is taken, written and perhaps made a table. -/
theorem take {f : Nat} (leaves : Set (List Nat)) (hal : ∀ g ∈ f :: fs, g % 4096 = 0)
    (htab : ∀ {t q}, path t = some q → t % 4096 = 0 ∧ t ≠ f) (hnot : f ∉ fs)
    (hm : Set.EqOn m' m (frameAt f)ᶜ) (hpath : ∀ t, t ≠ f → path' t = path t) :
    Extends leaves (f :: fs) path m fs path' m' where
  free := List.subset_cons_self f fs
  freeKept := fun g hg ↦ eqOn_frameAt (hal f List.mem_cons_self) (hal g (List.mem_cons_of_mem _ hg))
    (fun e ↦ hnot (e ▸ hg)) hm
  label := fun ht ↦ by rwa [hpath _ (htab ht).2]
  valid := fun ht hi _ _ ↦ entry_congr (eqOn_frameAt (hal f List.mem_cons_self) (htab ht).1
    (htab ht).2.symm hm) hi
  kept := fun {g} hg hgfs hgp ↦ by
    have hne : g ≠ f := fun e ↦ hgfs (e ▸ List.mem_cons_self)
    exact ⟨by rw [hpath g hne, hgp], eqOn_frameAt (hal f List.mem_cons_self) hg hne.symm hm⟩

/-- So what a table points at stays where it is. -/
theorem child {t i n : Nat} {q : List Nat} (h : Extends leaves fs path m fs' path' m')
    (ht : path t = some q) (hi : i < 512) (hne : q ++ [i] ∉ leaves)
    (hc : Jatuli.child m t i = some n) : Jatuli.child m' t i = some n := by
  obtain ⟨htype, rfl⟩ := child_eq_some.mp hc
  have he := h.valid ht hi hne (valid_of_table htype)
  exact child_eq_some.mpr ⟨by rw [he, htype], by rw [he]⟩

/-- An entry of a table is written. -/
theorem setEntry {t i v : Nat} {q : List Nat} (ht : path t = some q) (hi : i < 512)
    (hal : ∀ {t q}, path t = some q → t % 4096 = 0 ∧ t ∉ fs) (hfs : ∀ g ∈ fs, g % 4096 = 0)
    (hv : q ++ [i] ∈ leaves ∨ entry m t i &&& descValid = 0) :
    Extends leaves fs path m fs path (Jatuli.setEntry m t i v) where
  free := fun _ h ↦ h
  freeKept := fun g hg ↦ eqOn_frameAt (hal ht).1 (hfs g hg) (fun e ↦ (hal ht).2 (e ▸ hg))
    (setEntry_eqOn hi)
  label := fun h ↦ h
  valid := fun {t' q' j} ht' hj hne hvalid ↦ by
    by_cases htt : t' = t
    · subst htt
      rw [ht] at ht'
      cases ht'
      by_cases hij : i = j
      · subst hij
        rcases hv with hv | hv
        · exact absurd hv hne
        · exact absurd hv hvalid
      · exact entry_setEntry_ne hij
    · exact entry_congr (eqOn_frameAt (hal ht).1 (hal ht').1 (Ne.symm htt) (setEntry_eqOn hi)) hj
  kept := fun {g} hg hgfs hgp ↦ by
    refine ⟨hgp, eqOn_frameAt (hal ht).1 hg (fun e ↦ ?_) (setEntry_eqOn hi)⟩
    rw [← e, ht] at hgp
    cases hgp

end Extends

/-- Zeroing a table leaves nothing of what was there. -/
theorem zeroTable_congr (m m' : Mem) (t : Nat) : ∀ (n : Nat) {x : Nat}, t ≤ x → x < t + 8 * n →
    zeroTable m t n x = zeroTable m' t n x
  | 0, x, h, h' => absurd h' (by omega)
  | n + 1, x, h, h' => by
    show Mem.store _ _ _ _ x = Mem.store _ _ _ _ x
    rw [Mem.store, Mem.store]
    split
    · rfl
    · exact zeroTable_congr m m' t n h (by omega)

/-- Nor does filling a whole frame. -/
theorem fill_congr (m m' : Mem) {f : Nat} {bytes : List UInt8} (hlen : bytes.length = 4096) :
    Set.EqOn (m.fill f bytes) (m'.fill f bytes) (frameAt f) := by
  intro x hx
  obtain ⟨h1, h2⟩ := mem_frameAt.mp hx
  obtain ⟨i, rfl⟩ := Nat.exists_eq_add_of_le h1
  rw [Mem.fill_get _ _ _ i (by omega), Mem.fill_get _ _ _ i (by omega)]

section Twin

variable {fs : List Nat} {dirty : Set Nat} {path : Nat → Option (List Nat)} {s s' : Phys}

namespace Twin

/-- The two memories agree on a frame that is neither free nor dirty. -/
theorem eqOn (h : Twin fs dirty path s s') {t : Nat} (ht : t % 4096 = 0) (hfs : t ∉ fs)
    (hd : t ∉ dirty) : Set.EqOn s'.mem s.mem (frameAt t) := by
  intro x hx
  have hx' := mem_frameAt.mp hx
  refine h.agree x (fun f hf hxf ↦ hfs ?_) (fun f hf hxf ↦ hd ?_)
  · have hal := (h.free f hf).1
    rw [beyondLink, Set.mem_Ico] at hxf
    rwa [show t = f by omega]
  · have hal := h.dirtyAligned f hf
    rw [beyondLink, Set.mem_Ico] at hxf
    rwa [show t = f by omega]

/-- And so on a table. -/
theorem entry_eq (h : Twin fs dirty path s s') {t : Nat} {q : List Nat} (ht : path t = some q)
    {i : Nat} (hi : i < 512) : entry s'.mem t i = entry s.mem t i := by
  obtain ⟨hal, hfs, hd⟩ := h.table ht
  exact entry_congr (h.eqOn hal hfs hd) hi

/-- Taking a frame: both take the same one, or none. -/
theorem alloc (h : Twin fs dirty path s s') :
    (s.allocFrame = none ∧ s'.allocFrame = none) ∨
    ∃ f fs₁ s₁ s₁', fs = f :: fs₁ ∧ s.allocFrame = some (f, s₁) ∧ s'.allocFrame = some (f, s₁') ∧
      s₁.mem = s.mem ∧ s₁'.mem = s'.mem ∧ Twin fs₁ (insert f dirty) path s₁ s₁' := by
  rw [Phys.allocFrame, Phys.allocFrame, Phys.pop, Phys.pop, h.frames]
  by_cases h0 : s.frames.head = 0
  · rw [if_pos h0, if_pos h0]
    exact .inl ⟨rfl, rfl⟩
  · rw [if_neg h0, if_neg h0]
    obtain ⟨fs₁, rfl, hrest⟩ := h.linked.exists_cons h0
    obtain ⟨hal, hlt, hd⟩ := h.free _ List.mem_cons_self
    obtain ⟨hnot, hnodup⟩ := List.nodup_cons.mp h.nodup
    -- the link word is the same in both
    have hlink : s'.mem.load s.frames.head 8 = s.mem.load s.frames.head 8 := by
      refine Mem.load_congr fun i hi ↦ h.agree _ (fun f hf hx ↦ ?_) (fun f hf hx ↦ ?_)
      · have := (h.free f hf).1
        rw [beyondLink, Set.mem_Ico] at hx
        omega
      · have := h.dirtyAligned f hf
        rw [beyondLink, Set.mem_Ico] at hx
        omega
    refine .inr ⟨_, fs₁, _, _, rfl, rfl, rfl, rfl, rfl, ⟨?_, hrest, hnodup, fun f hf ↦ ?_,
      fun f hf ↦ ?_, fun x hx hx' ↦ ?_, fun ht ↦ ?_, h.child, fun ht hq hi hp he hf ↦ ?_, h.block⟩⟩
    · rw [hlink]
    · obtain ⟨hal', hlt', hd'⟩ := h.free f (List.mem_cons_of_mem _ hf)
      exact ⟨hal', hlt', fun hm ↦ (Set.mem_insert_iff.mp hm).elim (fun e ↦ hnot (e ▸ hf)) hd'⟩
    · rcases Set.mem_insert_iff.mp hf with rfl | hf
      · exact hal
      · exact h.dirtyAligned f hf
    · refine h.agree x (fun f hf ↦ ?_) fun f hf ↦ hx' f (Set.mem_insert_of_mem _ hf)
      rcases List.mem_cons.mp hf with rfl | hf
      · exact hx' _ (Set.mem_insert _ _)
      · exact hx f hf
    · obtain ⟨hal', hfs', hd'⟩ := h.table ht
      rw [List.mem_cons, not_or] at hfs'
      exact ⟨hal', hfs'.2, fun hm ↦ (Set.mem_insert_iff.mp hm).elim hfs'.1 hd'⟩
    · exact h.leaf ht hq hi hp he (List.mem_cons_of_mem _ hf)

/-- A dirty frame that is overwritten with the same contents in both is dirty no more. -/
theorem overwrite {f : Nat} (h : Twin fs (insert f dirty) path s s') (hf : f ∉ dirty) {m m' : Mem}
    (hm : Set.EqOn m s.mem (frameAt f)ᶜ) (hm' : Set.EqOn m' s'.mem (frameAt f)ᶜ)
    (heq : Set.EqOn m' m (frameAt f)) :
    Twin fs dirty path { s with mem := m } { s' with mem := m' } := by
  have hal := h.dirtyAligned f (Set.mem_insert _ _)
  have htab : ∀ {t q}, path t = some q → Set.EqOn m s.mem (frameAt t) := by
    intro t q ht
    obtain ⟨hal', -, hd⟩ := h.table ht
    exact eqOn_frameAt hal hal' (fun e ↦ hd (e ▸ Set.mem_insert _ _)) hm
  have hentry : ∀ {t q i}, path t = some q → i < 512 → entry m t i = entry s.mem t i :=
    fun ht hi ↦ entry_congr (htab ht) hi
  refine ⟨h.frames, h.linked.congr fun g hg ↦ ?_, h.nodup, fun g hg ↦ ?_, fun g hg ↦ ?_,
    fun x hx hx' ↦ ?_, fun ht ↦ ?_, fun ht hq hi he ↦ ?_, fun ht hq hi hp he ↦ ?_,
    fun ht hq hi hb ↦ ?_⟩
  · obtain ⟨hal', -, hd⟩ := h.free g hg
    exact Mem.load_eqOn (eqOn_frameAt hal hal' (fun e ↦ hd (e ▸ Set.mem_insert _ _)) hm) le_rfl
      (by rw [frameSize]; omega)
  · obtain ⟨hal', hlt, hd⟩ := h.free g hg
    exact ⟨hal', hlt, fun hg' ↦ hd (Set.mem_insert_of_mem _ hg')⟩
  · exact h.dirtyAligned g (Set.mem_insert_of_mem _ hg)
  · by_cases hxf : x ∈ frameAt f
    · exact heq hxf
    · show m' x = m x
      rw [hm hxf, hm' hxf]
      refine h.agree x hx fun g hg ↦ ?_
      rcases Set.mem_insert_iff.mp hg with rfl | hg
      · rw [mem_frameAt] at hxf
        rw [beyondLink, Set.mem_Ico]
        omega
      · exact hx' g hg
  · obtain ⟨hal', hfs, hd⟩ := h.table ht
    exact ⟨hal', hfs, fun hd' ↦ hd (Set.mem_insert_of_mem _ hd')⟩
  · rw [hentry ht hi] at he ⊢
    exact h.child ht hq hi he
  · rw [hentry ht hi] at hp he ⊢
    exact h.leaf ht hq hi hp he
  · rw [hentry ht hi] at hb ⊢
    exact h.block ht hq hi hb

/-- A zeroed frame that is neither free nor dirty may become a table. -/
theorem label (h : Twin fs dirty path s s') {f : Nat} (hal : f % 4096 = 0) (hfs : f ∉ fs)
    (hd : f ∉ dirty) (hpath : path f = none) (hzero : ∀ i < 512, entry s.mem f i = 0)
    (q : List Nat) : Twin fs dirty (Function.update path f (some q)) s s' := by
  have hold : ∀ {t q'}, t ≠ f → Function.update path f (some q) t = some q' → path t = some q' :=
    fun hne ht ↦ by rwa [Function.update_of_ne hne] at ht
  refine ⟨h.frames, h.linked, h.nodup, h.free, h.dirtyAligned, h.agree, fun {t _} ht ↦ ?_,
    fun {t _ i} ht hq hi he ↦ ?_, fun {t _ i} ht hq hi hp he ↦ ?_, fun {t _ i} ht hq hi hb ↦ ?_⟩
  · by_cases hne : t = f
    · exact hne ▸ ⟨hal, hfs, hd⟩
    · exact h.table (hold hne ht)
  · by_cases hne : t = f
    · rw [hne, hzero i hi] at he
      exact absurd he (by decide)
    · have hc := h.child (hold hne ht) hq hi he
      rw [Function.update_of_ne, hc]
      intro e
      rw [e, hpath] at hc
      cases hc
  · by_cases hne : t = f
    · rw [hne, hzero i hi] at hp
      exact absurd hp (by decide)
    · exact h.leaf (hold hne ht) hq hi hp he
  · by_cases hne : t = f
    · rw [hne, hzero i hi]
      rfl
    · exact h.block (hold hne ht) hq hi hb

/-- The same entry is written to a table in both. -/
theorem setEntry (h : Twin fs dirty path s s') {t i v : Nat} {q : List Nat} (ht : path t = some q)
    (hi : i < 512) (hv : v < 2 ^ 64)
    (hchild : q.length < 3 → v &&& descTable = descTable → path (v &&& addrMask) = some (q ++ [i]))
    (hleaf : q.length = 3 → v &&& descPage = descPage → v &&& apEl0Rw ≠ 0 → v &&& addrMask ∉ fs)
    (hblock : q.length < 3 → v &&& descTable = descBlock → v &&& apEl0Rw = 0) :
    Twin fs dirty path { s with mem := Jatuli.setEntry s.mem t i v }
      { s' with mem := Jatuli.setEntry s'.mem t i v } := by
  obtain ⟨hal, hfs, hd⟩ := h.table ht
  have hout : ∀ m : Mem, Set.EqOn (Jatuli.setEntry m t i v) m (frameAt t)ᶜ := fun m ↦
    setEntry_eqOn hi
  have hentry : ∀ {t' q' j}, path t' = some q' → j < 512 →
      entry (Jatuli.setEntry s.mem t i v) t' j = entry s.mem t' j ∨
      t' = t ∧ j = i ∧ entry (Jatuli.setEntry s.mem t i v) t' j = v := by
    intro t' q' j ht' hj
    by_cases hne : t' = t
    · by_cases hij : j = i
      · exact .inr ⟨hne, hij, by rw [hne, hij, entry_setEntry_same hv]⟩
      · exact .inl (by rw [hne, entry_setEntry_ne (Ne.symm hij)])
    · refine .inl (entry_congr (eqOn_frameAt hal (h.table ht').1 (Ne.symm hne) (hout _)) hj)
  have hq : ∀ {q'}, path t = some q' → q' = q := fun ht' ↦ by
    rw [ht] at ht'
    exact (Option.some.inj ht').symm
  refine ⟨h.frames, h.linked.congr fun g hg ↦ ?_, h.nodup, h.free, h.dirtyAligned,
    fun x hx hx' ↦ ?_, h.table, fun {t' q' j} ht' hlen hj he ↦ ?_,
    fun {t' q' j} ht' hlen hj hp he ↦ ?_,
    fun {t' q' j} ht' hlen hj hb ↦ ?_⟩
  · have hal' := (h.free g hg).1
    exact Mem.load_eqOn (eqOn_frameAt hal hal' (fun e ↦ hfs (e ▸ hg)) (hout _)) le_rfl
      (by rw [frameSize]; omega)
  · -- the store writes the same bytes at the same place
    show Mem.store _ _ _ _ x = Mem.store _ _ _ _ x
    rw [Mem.store, Mem.store, h.agree x hx hx']
  · rcases hentry ht' hj with hsame | ⟨rfl, rfl, hnew⟩
    · rw [hsame] at he ⊢
      exact h.child ht' hlen hj he
    · rw [hnew] at he ⊢
      rw [hq ht'] at hlen ⊢
      exact hchild hlen he
  · rcases hentry ht' hj with hsame | ⟨rfl, rfl, hnew⟩
    · rw [hsame] at hp he ⊢
      exact h.leaf ht' hlen hj hp he
    · rw [hnew] at hp he ⊢
      rw [hq ht'] at hlen
      exact hleaf hlen hp he
  · rcases hentry ht' hj with hsame | ⟨rfl, rfl, hnew⟩
    · rw [hsame] at hb ⊢
      exact h.block ht' hlen hj hb
    · rw [hnew] at hb ⊢
      rw [hq ht'] at hlen
      exact hblock hlen hb

/-- Two runs of an operation on states that agree: both fail, or both return the same value and
states that agree in turn, with the tables and the free list extended as the parameters say. -/
def Both {α : Type} (leaves : Set (List Nat)) (fs : List Nat) (path : Nat → Option (List Nat))
    (s s' : Phys) (x x' : Option (α × Phys))
    (post : α → List Nat → (Nat → Option (List Nat)) → Phys → Phys → Prop) : Prop :=
  (x = none ∧ x' = none) ∨ ∃ a s₁ s₁' fs₁ path₁, x = some (a, s₁) ∧ x' = some (a, s₁') ∧
    Extends leaves fs path s.mem fs₁ path₁ s₁.mem ∧
    Extends leaves fs path s'.mem fs₁ path₁ s₁'.mem ∧ post a fs₁ path₁ s₁ s₁'

/-- A zeroed frame is taken and becomes the table at `q`. -/
theorem allocTable (h : Twin fs dirty path s s') (leaves : Set (List Nat)) (q : List Nat) :
    Both leaves fs path s s' (Jatuli.allocTable s) (Jatuli.allocTable s')
      fun f fs₁ path₁ s₁ s₁' ↦ Twin fs₁ dirty path₁ s₁ s₁' ∧ path₁ f = some q ∧
        f ∈ fs ∧ f % 4096 = 0 ∧ f < 2 ^ 48 ∧ (∀ i < 512, entry s₁.mem f i = 0) ∧
        Set.EqOn s₁.mem s.mem (frameAt f)ᶜ ∧ Set.EqOn s₁'.mem s'.mem (frameAt f)ᶜ := by
  rcases h.alloc with ⟨hn, hn'⟩ | ⟨f, fs₁, s₁, s₁', rfl, ha, ha', hmem, hmem', h₁⟩
  · exact .inl ⟨by rw [Jatuli.allocTable, hn]; rfl, by rw [Jatuli.allocTable, hn']; rfl⟩
  · obtain ⟨hal, hlt, hd⟩ := h.free f List.mem_cons_self
    have hnot := (List.nodup_cons.mp h.nodup).1
    have hpath : path f = none := by
      cases hp : path f with
      | none => rfl
      | some q => exact absurd List.mem_cons_self (h.table hp).2.1
    have hout : ∀ m : Mem, Set.EqOn (zeroTable m f entries) m (frameAt f)ᶜ :=
      fun m ↦ zeroTable_eqOn m f le_rfl
    have hzero : ∀ i < 512, entry (zeroTable s₁.mem f entries) f i = 0 :=
      fun i hi ↦ entry_zeroTable s₁.mem f hi
    have h₂ := h₁.overwrite hd (hout _) (hout _) fun x hx ↦ by
      obtain ⟨h1, h2⟩ := mem_frameAt.mp hx
      exact zeroTable_congr _ _ f 512 h1 (by omega)
    have hext : ∀ m : Mem, Extends leaves (f :: fs₁) path m fs₁ (Function.update path f (some q))
        (zeroTable m f entries) := fun m ↦
      .take leaves (fun g hg ↦ (h.free g hg).1)
        (fun ht ↦ ⟨(h.table ht).1, fun e ↦ (h.table ht).2.1 (e ▸ List.mem_cons_self)⟩) hnot (hout m)
        fun t hne ↦ Function.update_of_ne hne ..
    refine .inr ⟨f, _, _, fs₁, Function.update path f (some q), by rw [Jatuli.allocTable, ha]; rfl,
      by rw [Jatuli.allocTable, ha']; rfl, hmem ▸ hext _, hmem' ▸ hext _,
      h₂.label hal hnot hd hpath hzero q, Function.update_self .., List.mem_cons_self, hal, hlt,
      hzero, hmem ▸ hout _, hmem' ▸ hout _⟩

/-- `get_or_create` finds the same table in both, or both hang a new one there. -/
theorem getOrCreate (h : Twin fs dirty path s s') (leaves : Set (List Nat)) {t i : Nat}
    {q : List Nat} (ht : path t = some q) (hq : q.length < 3) (hi : i < 512) :
    Both leaves fs path s s' (Jatuli.getOrCreate s t i) (Jatuli.getOrCreate s' t i)
      fun n fs₁ path₁ s₁ s₁' ↦ Twin fs₁ dirty path₁ s₁ s₁' ∧ path₁ n = some (q ++ [i]) ∧
        Jatuli.child s₁.mem t i = some n := by
  have he := h.entry_eq ht hi
  rw [Jatuli.getOrCreate, Jatuli.getOrCreate, he]
  simp only
  by_cases hvalid : entry s.mem t i &&& descValid ≠ 0
  · rw [if_pos hvalid, if_pos hvalid]
    by_cases htype : entry s.mem t i &&& descTable = descTable
    · rw [if_pos htype, if_pos htype]
      exact .inr ⟨_, _, _, fs, path, rfl, rfl, .refl .., .refl .., h, h.child ht hq hi htype,
        child_eq_some.mpr ⟨htype, rfl⟩⟩
    · rw [if_neg htype, if_neg htype]
      exact .inl ⟨rfl, rfl⟩
  · rw [if_neg hvalid, if_neg hvalid]
    rw [not_not] at hvalid
    rcases h.allocTable leaves (q ++ [i]) with
      ⟨hn, hn'⟩ |
      ⟨f, s₁, s₁', fs₁, path₁, ha, ha', hx, hx', h₁, hf, hmem, hal, hlt, -, hout, hout'⟩
    · exact .inl ⟨by rw [hn]; rfl, by rw [hn']; rfl⟩
    · have ht₁ := hx.label ht
      have htal := (h.table ht).1
      have hne : f ≠ t := fun e ↦ (h.table ht).2.1 (e ▸ hmem)
      have htype : (f ||| descTable) &&& descTable = descTable := or_and_three hal (by decide)
      have haddr : (f ||| descTable) &&& addrMask = f := or_and_addrMask hal hlt (by decide)
      have hlt' : f ||| descTable < 2 ^ 64 := or_lt_of_lt hlt (by decide)
      have hnone : entry s₁.mem t i &&& descValid = 0 := by
        rw [entry_congr (eqOn_frameAt hal htal hne hout) hi]
        exact hvalid
      have hnone' : entry s₁'.mem t i &&& descValid = 0 := by
        rw [entry_congr (eqOn_frameAt hal htal hne hout') hi, he]
        exact hvalid
      have h₂ := h₁.setEntry ht₁ hi hlt' (fun _ _ ↦ by rw [haddr, hf])
        (fun hq' ↦ absurd hq' (by omega))
        fun _ hb ↦ by rw [htype] at hb; exact absurd hb (by decide)
      have hset : ∀ m : Mem, entry m t i &&& descValid = 0 →
          Extends leaves fs₁ path₁ m fs₁ path₁ (Jatuli.setEntry m t i (f ||| descTable)) := by
        intro m hv
        exact .setEntry ht₁ hi (fun ht ↦ ⟨(h₁.table ht).1, (h₁.table ht).2.1⟩)
          (fun g hg ↦ (h₁.free g hg).1) (.inr hv)
      refine .inr ⟨f, _, _, fs₁, path₁, by rw [ha]; rfl, by rw [ha']; rfl, hx.trans (hset _ hnone),
        hx'.trans (hset _ hnone'), h₂, hf, ?_⟩
      exact child_eq_some.mpr ⟨by rw [entry_setEntry_same hlt', htype],
        by rw [entry_setEntry_same hlt', haddr]⟩

/-- `map_page_in`, in a space whose root is labelled. -/
theorem mapPageIn (h : Twin fs dirty path s s') {root : Nat} (hroot : path root = some [])
    {va f flags : Nat} (hf : f % 4096 = 0) (hlt : f < 2 ^ 48) (hfs : f ∉ fs)
    (hflags : PageFlags flags) :
    (Jatuli.mapPageIn s root va f flags = none ∧ Jatuli.mapPageIn s' root va f flags = none) ∨
    ∃ s₁ s₁' fs₁ path₁, Jatuli.mapPageIn s root va f flags = some s₁ ∧
      Jatuli.mapPageIn s' root va f flags = some s₁' ∧
      Extends {pagePath va} fs path s.mem fs₁ path₁ s₁.mem ∧
      Extends {pagePath va} fs path s'.mem fs₁ path₁ s₁'.mem ∧ Twin fs₁ dirty path₁ s₁ s₁' ∧
      ∃ t, walk s₁.mem root (tablePath va) = some t ∧
        entry s₁.mem t (tableIndex va 12) = f ||| flags := by
  rw [Jatuli.mapPageIn, Jatuli.mapPageIn]
  rcases h.getOrCreate {pagePath va} hroot (Nat.succ_pos 2) (tableIndex_lt va 39) with
    ⟨hn, hn'⟩ | ⟨l1, s₁, s₁', fs₁, path₁, h1, h1', hx₁, hx₁', h₁, hl1, hc1⟩
  · exact .inl ⟨by rw [hn]; rfl, by rw [hn']; rfl⟩
  rw [h1, h1']
  simp only [Option.bind_eq_bind, Option.bind_some]
  rcases h₁.getOrCreate {pagePath va} hl1 (by simp) (tableIndex_lt va 30) with
    ⟨hn, hn'⟩ | ⟨l2, s₂, s₂', fs₂, path₂, h2, h2', hx₂, hx₂', h₂, hl2, hc2⟩
  · exact .inl ⟨by rw [hn]; rfl, by rw [hn']; rfl⟩
  rw [h2, h2']
  simp only [Option.bind_some]
  rcases h₂.getOrCreate {pagePath va} hl2 (by simp) (tableIndex_lt va 21) with
    ⟨hn, hn'⟩ | ⟨l3, s₃, s₃', fs₃, path₃, h3, h3', hx₃, hx₃', h₃, hl3, hc3⟩
  · exact .inl ⟨by rw [hn]; rfl, by rw [hn']; rfl⟩
  rw [h3, h3']
  simp only [Option.bind_some]
  rw [and_addrMask_of_aligned hf hlt]
  have haddr : (f ||| flags) &&& addrMask = f := or_and_addrMask hf hlt hflags.addr
  have hv : f ||| flags < 2 ^ 64 := or_lt_of_lt hlt hflags.lt
  have hsub : fs₃ ⊆ fs := fun g hg ↦ hx₁.free (hx₂.free (hx₃.free hg))
  have h₄ := h₃.setEntry hl3 (tableIndex_lt va 12) hv (fun hq ↦ absurd hq (by simp))
    (fun _ _ _ ↦ by rw [haddr]; exact fun hg ↦ hfs (hsub hg)) (fun hq ↦ absurd hq (by simp))
  have hset : ∀ m : Mem, Extends {pagePath va} fs₃ path₃ m fs₃ path₃
      (Jatuli.setEntry m l3 (tableIndex va 12) (f ||| flags)) := fun m ↦
    .setEntry hl3 (tableIndex_lt va 12) (fun ht ↦ ⟨(h₃.table ht).1, (h₃.table ht).2.1⟩)
      (fun g hg ↦ (h₃.free g hg).1) (.inl rfl)
  refine .inr ⟨_, _, fs₃, path₃, rfl, rfl, ((hx₁.trans hx₂).trans hx₃).trans (hset _),
    ((hx₁'.trans hx₂').trans hx₃').trans (hset _), h₄, l3, ?_, entry_setEntry_same hv⟩
  -- the three entries on the way stay as they are from when they were found or made
  have hlen : ∀ {q : List Nat} {i : Nat}, q.length < 3 →
      q ++ [i] ∉ ({pagePath va} : Set (List Nat)) := by
    intro q i hq he
    have := congrArg List.length (Set.mem_singleton_iff.mp he)
    rw [List.length_append, List.length_singleton, show (pagePath va).length = 4 from rfl] at this
    omega
  have hc1' := (hx₂.trans (hx₃.trans (hset _))).child (hx₁.label hroot)
    (tableIndex_lt va 39) (hlen (by simp)) hc1
  have hc2' := (hx₃.trans (hset _)).child (hx₂.label hl1) (tableIndex_lt va 30) (hlen (by simp)) hc2
  have hc3' := (hset _).child (hx₃.label hl2) (tableIndex_lt va 21) (hlen (by simp)) hc3
  rw [tablePath, walk_cons_of_child hc1', walk_cons_of_child hc2', walk_cons_of_child hc3']
  rfl

/-- A page of which both memories hold the same once it is filled.  Unless `bytes` fill it, its
frame stays dirty. -/
theorem addPage (h : Twin fs dirty path s s') {root : Nat} (hroot : path root = some [])
    (pg : PageSpec) (hlen : pg.bytes = [] ∨ pg.bytes.length = 4096) (hflags : PageFlags pg.flags) :
    Both {pagePath pg.va} fs path s s' (Jatuli.addPage root s pg) (Jatuli.addPage root s' pg)
      fun f fs₁ path₁ s₁ s₁' ↦
        Twin fs₁ (if pg.bytes = [] then insert f dirty else dirty) path₁ s₁ s₁' ∧
        (f ∈ fs ∧ f ∉ fs₁ ∧ path₁ f = none) ∧
        (pg.bytes = [] → Set.EqOn s₁.mem s.mem (frameAt f) ∧ Set.EqOn s₁'.mem s'.mem (frameAt f)) ∧
        ∃ t, walk s₁.mem root (tablePath pg.va) = some t ∧
          entry s₁.mem t (tableIndex pg.va 12) = f ||| pg.flags := by
  rw [Jatuli.addPage, Jatuli.addPage]
  rcases h.alloc with ⟨hn, hn'⟩ | ⟨f, fs₁, s₁, s₁', rfl, ha, ha', hmem, hmem', h₁⟩
  · exact .inl ⟨by rw [hn]; rfl, by rw [hn']; rfl⟩
  rw [ha, ha']
  simp only [Option.bind_eq_bind, Option.bind_some]
  obtain ⟨hal, hlt, hd⟩ := h.free f List.mem_cons_self
  have hnot := (List.nodup_cons.mp h.nodup).1
  have hpath : path f = none := by
    cases hp : path f with
    | none => rfl
    | some q => exact absurd List.mem_cons_self (h.table hp).2.1
  have hout : ∀ m : Mem, Set.EqOn (m.fill f pg.bytes) m (frameAt f)ᶜ := fun m ↦
    Mem.fill_eqOn le_rfl (by rcases hlen with e | e <;> simp [e, frameSize])
  have h₂ : Twin fs₁ (if pg.bytes = [] then insert f dirty else dirty) path
      { s₁ with mem := s₁.mem.fill f pg.bytes } { s₁' with mem := s₁'.mem.fill f pg.bytes } := by
    rcases hlen with e | e
    · rw [if_pos e, e]
      exact h₁
    · rw [if_neg (fun e' ↦ by simp [e'] at e)]
      exact h₁.overwrite hd (hout _) (hout _) (fill_congr _ _ e)
  have hext : ∀ m : Mem, Extends {pagePath pg.va} (f :: fs₁) path m fs₁ path (m.fill f pg.bytes) :=
    fun m ↦ .take _ (fun g hg ↦ (h.free g hg).1)
      (fun ht ↦ ⟨(h.table ht).1, fun e ↦ (h.table ht).2.1 (e ▸ List.mem_cons_self)⟩) hnot (hout m)
      fun _ _ ↦ rfl
  rcases h₂.mapPageIn hroot hal hlt hnot hflags with
    ⟨hn, hn'⟩ | ⟨s₂, s₂', fs₂, path₂, hm, hm', hx, hx', h₃, hleaf⟩
  · exact .inl ⟨by rw [hn]; rfl, by rw [hn']; rfl⟩
  obtain ⟨hp₂, hkept⟩ := hx.kept hal hnot hpath
  refine .inr ⟨f, s₂, s₂', fs₂, path₂, by rw [hm]; rfl, by rw [hm']; rfl, ?_, ?_, h₃,
    ⟨List.mem_cons_self, fun hf ↦ hnot (hx.free hf), hp₂⟩, fun e ↦ ⟨?_, ?_⟩, hleaf⟩
  · rw [← hmem]
    exact (hext _).trans hx
  · rw [← hmem']
    exact (hext _).trans hx'
  · rw [e] at hkept
    rw [← hmem]
    exact hkept
  · have hkept' := (hx'.kept hal hnot hpath).2
    rw [e] at hkept'
    rw [← hmem']
    exact hkept'

/-- Pages that are filled. -/
theorem addPages {root : Nat} {pgs : List PageSpec} (h : Twin fs dirty path s s')
    (hroot : path root = some [])
    (hpgs : ∀ pg ∈ pgs, pg.bytes.length = 4096 ∧ PageFlags pg.flags) :
    Both Set.univ fs path s s' (Jatuli.addPages root pgs s) (Jatuli.addPages root pgs s')
      fun _ fs₁ path₁ s₁ s₁' ↦ Twin fs₁ dirty path₁ s₁ s₁' := by
  induction pgs generalizing fs path s s' with
  | nil => exact .inr ⟨_, s, s', fs, path, rfl, rfl, .refl .., .refl .., h⟩
  | cons pg pgs ih =>
    obtain ⟨⟨hlen, hflags⟩, hpgs'⟩ := List.forall_mem_cons.mp hpgs
    rw [Jatuli.addPages, Jatuli.addPages]
    rcases h.addPage hroot pg (.inr hlen) hflags with
      ⟨hn, hn'⟩ | ⟨f, s₁, s₁', fs₁, path₁, ha, ha', hx, hx', h₁, -⟩
    · exact .inl ⟨by rw [hn]; rfl, by rw [hn']; rfl⟩
    rw [if_neg (fun e ↦ by simp [e] at hlen)] at h₁
    rw [ha, ha']
    simp only [Option.bind_eq_bind, Option.bind_some]
    rcases ih h₁ (hx.label hroot) hpgs' with
      ⟨hn, hn'⟩ | ⟨new, s₂, s₂', fs₂, path₂, hr, hr', hy, hy', h₂⟩
    · exact .inl ⟨by rw [hn]; rfl, by rw [hn']; rfl⟩
    rw [hr, hr']
    exact .inr ⟨_, s₂, s₂', fs₂, path₂, rfl, rfl, (hx.mono (Set.subset_univ _)).trans hy,
      (hx'.mono (Set.subset_univ _)).trans hy', h₂⟩

/-! ## What a process reads -/

/-- A walk from a labelled table is the same in both, and ends at a labelled table. -/
theorem walk_eq (h : Twin fs dirty path s s') : ∀ {p q : List Nat} {t : Nat}, path t = some q →
    q.length + p.length ≤ 3 → (∀ i ∈ p, i < 512) →
    walk s'.mem t p = walk s.mem t p ∧ ∀ u, walk s.mem t p = some u → path u = some (q ++ p)
  | [], q, t, ht, _, _ => by
    rw [walk, walk, Radix.walk_nil, Radix.walk_nil, List.append_nil]
    exact ⟨rfl, fun u hu ↦ Option.some.inj hu ▸ ht⟩
  | i :: p, q, t, ht, hlen, hlt => by
    rw [List.length_cons] at hlen
    have hi := hlt i List.mem_cons_self
    have hc : Jatuli.child s'.mem t i = Jatuli.child s.mem t i := by
      rw [Jatuli.child, Jatuli.child, h.entry_eq ht hi]
    rw [walk, walk, Radix.walk_cons, Radix.walk_cons, hc]
    cases hc' : Jatuli.child s.mem t i with
    | none =>
      rw [Option.bind_none, Option.bind_none]
      exact ⟨rfl, by rintro _ ⟨⟩⟩
    | some u =>
      obtain ⟨htype, rfl⟩ := child_eq_some.mp hc'
      have hu := h.child ht (by omega) hi htype
      have ih := h.walk_eq hu (p := p) (by rw [List.length_append, List.length_singleton]; omega)
        (fun j hj ↦ hlt j (List.mem_cons_of_mem _ hj))
      rw [List.append_assoc, List.singleton_append] at ih
      exact ih

/-- A walk among the tables survives a step that keeps to the last level. -/
theorem walk_extends {leaves : Set (List Nat)} {fs' : List Nat} {path' : Nat → Option (List Nat)}
    {m' : Mem} (h : Twin fs dirty path s s') (hx : Extends leaves fs path s.mem fs' path' m')
    (hleaves : ∀ l ∈ leaves, l.length = 4) : ∀ {p q : List Nat} {t u : Nat}, path t = some q →
    q.length + p.length ≤ 3 → (∀ i ∈ p, i < 512) → walk s.mem t p = some u → walk m' t p = some u
  | [], _, _, _, _, _, _, hw => by
    rwa [walk, Radix.walk_nil] at hw ⊢
  | i :: p, q, t, u, ht, hlen, hlt, hw => by
    rw [List.length_cons] at hlen
    have hi := hlt i List.mem_cons_self
    rw [walk, Radix.walk_cons] at hw
    obtain ⟨c, hc, hw⟩ := Option.bind_eq_some_iff.mp hw
    have hne : q ++ [i] ∉ leaves := by
      intro hl
      have := hleaves _ hl
      rw [List.length_append, List.length_singleton] at this
      omega
    obtain ⟨htype, rfl⟩ := child_eq_some.mp hc
    rw [walk_cons_of_child (hx.child ht hi hne hc)]
    exact h.walk_extends hx hleaves (h.child ht (by omega) hi htype)
      (by rw [List.length_append, List.length_singleton]; omega)
      (fun j hj ↦ hlt j (List.mem_cons_of_mem _ hj)) hw

/-- The page descriptor of an address is the same in both; if it grants access to EL0, its frame is
not free. -/
theorem descriptorAt_eq (h : Twin fs dirty path s s') {root : Nat} (hroot : path root = some [])
    (hmask : root &&& addrMask = root) (va : Nat) :
    descriptorAt s'.mem root va = descriptorAt s.mem root va ∧
      ∀ e, descriptorAt s.mem root va = some e → e &&& apEl0Rw ≠ 0 → e &&& addrMask ∉ fs := by
  obtain ⟨hw, hlabel⟩ := h.walk_eq hroot (p := tablePath va) le_rfl fun i hi ↦ tablePath_lt hi
  rw [descriptorAt, descriptorAt, l0Ptr, hmask, walkVa_tablePath, walkVa_tablePath, hw]
  split
  · rcases Option.eq_none_or_eq_some (walk s.mem root (tablePath va)) with ht | ⟨t, ht⟩
    · simp [ht]
    · have htab := hlabel t ht
      have hi := tableIndex_lt va 12
      simp only [ht, Option.bind_eq_bind, Option.bind_some, h.entry_eq htab hi, true_and]
      intro e he hel0
      split at he
      · rename_i hpage
        obtain rfl := Option.some.inj he
        exact h.leaf htab rfl hi hpage hel0
      · cases he
  · exact ⟨rfl, by rintro _ ⟨⟩⟩

end Twin
end Twin

/-- The byte user code reads at `va`, if it may. -/
def el0Byte (m : Mem) (ttbr0 va : Nat) : Option UInt8 :=
  (descriptorAt m ttbr0 va).bind fun e ↦
    if e &&& apEl0Rw ≠ 0 then some (m ((e &&& addrMask) ||| (va &&& 0xFFF))) else none

section Read

variable {fs : List Nat} {dirty : Set Nat} {path : Nat → Option (List Nat)} {s s' : Phys}
  {root : Nat}

/-- If the dirty frames hold the same in both, a process reads the same. -/
theorem Twin.el0Byte_eq (h : Twin fs dirty path s s') (hroot : path root = some [])
    (hmask : root &&& addrMask = root) (hdirty : ∀ f ∈ dirty, Set.EqOn s'.mem s.mem (frameAt f))
    (va : Nat) : el0Byte s'.mem root va = el0Byte s.mem root va := by
  obtain ⟨hdesc, hfree⟩ := h.descriptorAt_eq hroot hmask va
  rw [el0Byte, el0Byte, hdesc]
  cases he : descriptorAt s.mem root va with
  | none => rfl
  | some e =>
    simp only [Option.bind_some]
    split
    · rename_i hel0
      have hal : (e &&& addrMask) % 4096 = 0 := by
        rw [and_addrMask]
        omega
      have heq : Set.EqOn s'.mem s.mem (frameAt (e &&& addrMask)) := by
        by_cases hd : e &&& addrMask ∈ dirty
        · exact hdirty _ hd
        · exact h.eqOn hal (hfree e he hel0) hd
      rw [or_and_low hal, heq (mem_frameAt.mpr ⟨by omega, by omega⟩)]
    · rfl

/-- What grants access to EL0 is a page: blocks are for the kernel. -/
theorem Twin.descriptorAt_of_leaf (h : Twin fs dirty path s s') (hroot : path root = some [])
    (hmask : root &&& addrMask = root) {va e : Nat} (hl : leafDescriptor s.mem root va = some e)
    (hel0 : e &&& apEl0Rw ≠ 0) : descriptorAt s.mem root va = some e := by
  have hva : va < 2 ^ 48 := by
    by_contra hge
    rw [leafDescriptor, if_neg hge] at hl
    cases hl
  rcases leafDescriptor_eq_some hmask hl with ⟨t, ht, he, hpage⟩ | ⟨p, t, i, hp, hlt, hi,
    ht, he, hb⟩
  · rw [descriptorAt, if_pos hva, l0Ptr, hmask, walkVa_tablePath, ht]
    simp only [Option.bind_eq_bind, Option.bind_some, he]
    rw [if_pos hpage]
  · exfalso
    have hidx : ∀ j ∈ tableIndex va 39 :: p, j < 512 :=
      List.forall_mem_cons.mpr ⟨tableIndex_lt _ _, hlt⟩
    have hlen : (tableIndex va 39 :: p).length < 3 := by
      rw [List.length_cons]
      omega
    have hlabel := (h.walk_eq hroot (p := tableIndex va 39 :: p) (by simpa using hlen.le) hidx).2
      t ht
    rw [List.nil_append] at hlabel
    rw [← he] at hb hel0
    exact hel0 (h.block hlabel hlen hi hb)

/-- What is read in a page mapped read-write for EL0. -/
theorem el0Byte_of_entry {m : Mem} {va t f off : Nat} (hmask : root &&& addrMask = root)
    (hva : va % 4096 = 0) (hlt : va + 4096 ≤ 2 ^ 48) (hf : f % 4096 = 0) (hflt : f < 2 ^ 48)
    (ht : walk m root (tablePath va) = some t)
    (he : entry m t (tableIndex va 12) = f ||| pageUserRw)
    (hoff : off < 4096) : el0Byte m root (va + off) = some (m (f + off)) := by
  have hidx : ∀ shift, 12 ≤ shift → tableIndex (va + off) shift = tableIndex va shift := by
    intro shift hshift
    rw [tableIndex_eq, tableIndex_eq, show shift = 12 + (shift - 12) by omega, Nat.pow_add,
      ← Nat.div_div_eq_div_mul, ← Nat.div_div_eq_div_mul,
      show (va + off) / 2 ^ 12 = va / 2 ^ 12 by omega]
  have hpath : tablePath (va + off) = tablePath va := by
    rw [tablePath, tablePath, hidx 39 (by decide), hidx 30 (by decide), hidx 21 (by decide)]
  have htype : (f ||| pageUserRw) &&& descPage = descPage := or_and_three hf (by decide)
  have hel0 : (f ||| pageUserRw) &&& apEl0Rw ≠ 0 := by
    rw [or_and_apEl0Rw hf]
    decide
  rw [el0Byte, descriptorAt, if_pos (by omega), l0Ptr, hmask, walkVa_tablePath, hpath, ht]
  simp only [Option.bind_eq_bind, Option.bind_some]
  rw [hidx 12 le_rfl, he, if_pos htype, Option.bind_some, if_pos hel0,
    or_and_addrMask hf hflt (by decide), or_and_low hf, show (va + off) % 4096 = off by omega]

end Read

/-! ## Starting a process -/

/-- `new_address_space`, `create` and the new process's `setup`. -/
def Kernel.startProcess (k : Kernel) (image : List UInt8) : Option (Nat × Kernel) := do
  let (root, phys) ← newAddressSpace k.phys k.kernelL1
  let (pid, k) ← { k with phys }.create image root
  let k ← k.setupRing pid
  some (pid, k)

/-- The process that results from it. -/
def Process.started (root : Nat) (loaded : Loaded) (frames : List (Nat × Nat)) (stack ring : Nat) :
    Process :=
  { Process.fresh root loaded (frames ++ [(userStackVa, stack)]) with
    ringPa := ring, frames := frames ++ [(userStackVa, stack)] ++ [(userRingVa, ring)] }

theorem addPages_concat (l0 : Nat) (pgs : List PageSpec) (pg : PageSpec) (s : Phys) :
    addPages l0 (pgs ++ [pg]) s = (addPages l0 pgs s).bind fun x ↦
      (addPage l0 x.2 pg).map fun y ↦ (x.1 ++ [(pg.va, y.1)], y.2) := by
  rw [addPages_append]
  refine congrArg _ (funext fun x ↦ ?_)
  rw [addPages]
  cases addPage l0 x.2 pg <;> rfl

/-- Starting a process, as the pages it builds. -/
theorem startProcess_eq (k : Kernel) (image : List UInt8) : k.startProcess image = (do
    let (root, s) ← newAddressSpace k.phys k.kernelL1
    let (loaded, pgs) ← Elf.plan image
    let (frames, s) ← addPages (l0Ptr root) pgs s
    let (stack, s) ← addPage (l0Ptr root) s stackPage
    let (ring, s) ← addPage (l0Ptr root) s ringPage
    some (k.processes.length, { k with
      phys := s
      processes := k.processes ++ [Process.started root loaded frames stack ring] })) := by
  rw [Kernel.startProcess]
  refine congrArg _ (funext fun x ↦ ?_)
  obtain ⟨root, s⟩ := x
  simp only [Kernel.create, createSpace_eq, addPages_concat]
  cases Elf.plan image with
  | none => rfl
  | some pl =>
    simp only [Option.bind_eq_bind, Option.bind_some]
    cases addPages (l0Ptr root) pl.2 s with
    | none => rfl
    | some x =>
      simp only [Option.bind_some]
      cases addPage (l0Ptr root) x.2 stackPage with
      | none => rfl
      | some y =>
        simp only [Option.map_some, Option.bind_some]
        rw [setupRing_eq (p := Process.fresh root pl.1 (x.1 ++ [(stackPage.va, y.1)]))
          (by simp) rfl]
        simp only [Process.fresh]
        cases addPage (l0Ptr root) y.2 ringPage with
        | none => rfl
        | some z =>
          simp only [Option.map_some, Option.bind_some, Processes.setRing, Kernel.modify_concat]
          simp [Process.started, Process.fresh, stackPage]

/-! ## From a state of the kernel -/

/-- The states are the same but for what the free frames hold past their link words. -/
def SameButFree (k k' : Kernel) : Prop :=
  k' = k.setMem k'.mem ∧ ∀ x, (∀ f ∈ k.freeList, x ∉ beyondLink f) → k'.mem x = k.mem x

instance (start f : Nat) : Decidable (Managed start f) :=
  inferInstanceAs (Decidable (f % 4096 = 0 ∧ start ≤ f ∧ f + 4096 ≤ ramTop))

/-- The kernel's tables, below its root, by their place. -/
def kernelPath (start : Nat) (own : Nat → Owner) (t : Nat) : Option (List Nat) :=
  match own t with
  | .node none q => if Managed start t ∧ q ≠ [] then some q else none
  | _ => none

theorem kernelPath_eq_some {start : Nat} {own : Nat → Owner} {t : Nat} {q : List Nat} :
    kernelPath start own t = some q ↔ Managed start t ∧ q ≠ [] ∧ own t = .node none q := by
  rw [kernelPath]
  split
  · rename_i q' ho
    rw [ho, Option.ite_none_right_eq_some, Option.some.injEq, Owner.node.injEq]
    refine ⟨?_, ?_⟩
    · rintro ⟨⟨hm, hne⟩, rfl⟩
      exact ⟨hm, hne, rfl, rfl⟩
    · rintro ⟨hm, hne, -, rfl⟩
      exact ⟨⟨hm, hne⟩, rfl⟩
  · rename_i hno
    exact ⟨nofun, fun h ↦ absurd h.2.2 (hno q)⟩

section Start

variable {L : Layout} {own : Nat → Owner} {k k' : Kernel}

/-- States that are the same but for free frames agree in the sense of `Twin`. -/
theorem Inv.twin (h : Inv True L own k) (hsame : SameButFree k k') :
    Twin k.freeList ∅ (kernelPath L.start own) k.phys k'.phys := by
  obtain ⟨hk', hagree⟩ := hsame
  obtain ⟨hnodup, hmem⟩ := h.mem_freeList
  have hroot : k.roots none = some k.kernelTtbr0 := rfl
  have hlink : k.mem.Linked k.phys.frames.head k.freeList := by
    obtain ⟨fs, hl, -, hlen, -⟩ := h.owned.free
    rw [Kernel.freeList, ← hlen, followLinks_of_linked hl]
    exact hl
  -- a table of the kernel, and an entry of it
  have hstep : ∀ {t q i}, kernelPath L.start own t = some q → i < 512 → q.length ≤ 3 →
      entry k.mem t i &&& descTable = descTable → Inside none (q ++ [i]) ∧
      walk k.mem k.kernelTtbr0 (q ++ [i]) = some (entry k.mem t i &&& addrMask) := by
    intro t q i ht hi hlen htype
    obtain ⟨hm, hne, ho⟩ := kernelPath_eq_some.mp ht
    obtain ⟨-, hin⟩ := h.owned.tree.inSpace hm ho
    have hw := h.owned.tree.full trivial hm ho hroot
    refine ⟨⟨fun j hj ↦ ?_, fun j hj ↦ ?_⟩, ?_⟩
    · rcases List.mem_append.mp hj with hj | hj
      · exact hin.2.1 j hj
      · rwa [List.mem_singleton.mp hj]
    · rw [List.head?_append_of_ne_nil _ hne] at hj
      exact hin.2.2 j hj
    · rw [walk_concat, hw, Option.bind_some, child_eq_some]
      exact ⟨htype, rfl⟩
  refine ⟨by rw [hk']; rfl, hlink, hnodup, fun f hf ↦ ?_, fun f hf ↦ hf.elim, fun x hx _ ↦
    hagree x hx,
    fun {t q} ht ↦ ?_, fun {t q i} ht hlen hi htype ↦ ?_, fun {t q i} ht hlen hi hpage hel0 ↦ ?_,
    fun {t q i} ht hlen hi hb ↦ ?_⟩
  · have hm := ((hmem f).mp hf).1
    exact ⟨hm.aligned, hm.lt, Set.notMem_empty f⟩
  · obtain ⟨hm, -, ho⟩ := kernelPath_eq_some.mp ht
    refine ⟨hm.aligned, fun hf ↦ ?_, Set.notMem_empty t⟩
    have := ((hmem t).mp hf).2
    rw [ho] at this
    cases this
  · obtain ⟨hin, hw⟩ := hstep ht hi (by omega) htype
    have hlen' : (q ++ [i]).length ≤ 3 := by
      rw [List.length_append, List.length_singleton]
      omega
    obtain ⟨hm, ho⟩ := h.owned.tree.node hroot ⟨hlen', hin⟩ hw
    exact kernelPath_eq_some.mpr ⟨hm, by simp, ho⟩
  · -- the pages of the heap are not for EL0
    exfalso
    obtain ⟨hin, hw⟩ := hstep ht hi hlen.le hpage
    obtain ⟨va, hmem', hpath⟩ := h.owned.leaf none _ _ _ hroot (by simp [hlen]) hin hw
    obtain ⟨-, -, -, u, hu, he⟩ := h.kernel.heap va _ hmem'
    obtain ⟨hq, hidx⟩ := List.append_inj hpath (by rw [hlen]; rfl)
    obtain ⟨hm, -, ho⟩ := kernelPath_eq_some.mp ht
    rw [hq, h.owned.tree.full trivial hm ho hroot] at hu
    cases hu
    rw [List.singleton_inj.mp hidx] at he
    have hal : (entry k.mem t i &&& addrMask) % 4096 = 0 := by
      rw [and_addrMask]
      omega
    rw [he, or_and_apEl0Rw hal] at hel0
    exact hel0 (by decide)
  · obtain ⟨hm, -, ho⟩ := kernelPath_eq_some.mp ht
    exact h.kernel.blocks t ((h.tables t hm).mp ⟨q, ho⟩) hm i hi hb

/-- `new_address_space`: both have the same root, whose slot 0 leads to the kernel's L1. -/
theorem Twin.newAddressSpace {fs : List Nat} {dirty : Set Nat} {path : Nat → Option (List Nat)}
    {s s' : Phys} (h : Twin fs dirty path s s') {kernelL1 : Nat} (hl1 : path kernelL1 = some [0])
    (hlt : kernelL1 < 2 ^ 48) :
    Both Set.univ fs path s s' (Jatuli.newAddressSpace s kernelL1)
      (Jatuli.newAddressSpace s' kernelL1)
      fun root fs₁ path₁ s₁ s₁' ↦ Twin fs₁ dirty path₁ s₁ s₁' ∧ path₁ root = some [] ∧
        root &&& addrMask = root := by
  have hal := (h.table hl1).1
  rw [Jatuli.newAddressSpace, Jatuli.newAddressSpace]
  rcases h.allocTable Set.univ [] with
    ⟨hn, hn'⟩ | ⟨f, s₁, s₁', fs₁, path₁, ha, ha', hx, hx', h₁, hf, -, hfal, hflt, -⟩
  · exact .inl ⟨by rw [hn]; rfl, by rw [hn']; rfl⟩
  have htype : (kernelL1 ||| descTable) &&& descTable = descTable := or_and_three hal (by decide)
  have haddr : (kernelL1 ||| descTable) &&& addrMask = kernelL1 :=
    or_and_addrMask hal hlt (by decide)
  have hlt' : kernelL1 ||| descTable < 2 ^ 64 := or_lt_of_lt hlt (by decide)
  have h₂ := h₁.setEntry (i := 0) hf (by decide) hlt'
    (fun _ _ ↦ by rw [haddr]; exact hx.label hl1) (fun hq ↦ absurd hq (by simp))
    fun _ hb ↦ by rw [htype] at hb; exact absurd hb (by decide)
  have hset : ∀ m : Mem, Extends Set.univ fs₁ path₁ m fs₁ path₁
      (Jatuli.setEntry m f 0 (kernelL1 ||| descTable)) := fun m ↦
    .setEntry hf (by decide) (fun ht ↦ ⟨(h₁.table ht).1, (h₁.table ht).2.1⟩)
      (fun g hg ↦ (h₁.free g hg).1) (.inl trivial)
  rw [ha, ha']
  exact .inr ⟨f, _, _, fs₁, path₁, rfl, rfl, hx.trans (hset _), hx'.trans (hset _), h₂, hf,
    and_addrMask_of_aligned hfal hflt⟩

/-- What two runs that start a process lead to: the frame of the stack is the only dirty one, and it
holds what it held. -/
structure Started (k k' k₂ k₂' : Kernel) (pid : Nat) : Prop where
  processes : k₂'.processes = k₂.processes
  space : ∃ p stack fs path t, k₂.processes[pid]? = some p ∧ path p.ttbr0 = some [] ∧
    p.ttbr0 &&& addrMask = p.ttbr0 ∧ Twin fs {stack} path k₂.phys k₂'.phys ∧
    (stack ∈ k.freeList ∧ stack % 4096 = 0 ∧ stack < 2 ^ 48) ∧
    Set.EqOn k₂.mem k.mem (frameAt stack) ∧ Set.EqOn k₂'.mem k'.mem (frameAt stack) ∧
    walk k₂.mem p.ttbr0 (tablePath userStackVa) = some t ∧
    entry k₂.mem t (tableIndex userStackVa 12) = stack ||| pageUserRw

/-- **Both runs start the process, or neither does.** -/
theorem Inv.started (h : Inv True L own k) (hsame : SameButFree k k') (image : List UInt8) :
    (k.startProcess image = none ∧ k'.startProcess image = none) ∨
    ∃ pid k₂ k₂', k.startProcess image = some (pid, k₂) ∧ k'.startProcess image = some (pid, k₂') ∧
      Started k k' k₂ k₂' pid := by
  have hl1 : kernelPath L.start own k.kernelL1 = some [0] := by
    have hroot : k.roots none = some k.kernelTtbr0 := rfl
    obtain ⟨hm, ho⟩ := h.owned.tree.node hroot ⟨by simp, by simp [Inside, slotOf]⟩ h.kernel.l1
    exact kernelPath_eq_some.mpr ⟨hm, by simp, ho⟩
  have hk1 : k'.kernelL1 = k.kernelL1 := by rw [hsame.1]; rfl
  have hlen : k'.processes = k.processes := by rw [hsame.1]; rfl
  rw [startProcess_eq, startProcess_eq, hk1, hlen]
  rcases (h.twin hsame).newAddressSpace hl1 h.kernelL1_managed.lt with
    ⟨hn, hn'⟩ | ⟨root, s₁, s₁', fs₁, path₁, ha, ha', hx₁, hx₁', h₁, hroot, hmask⟩
  · exact .inl ⟨by rw [hn]; rfl, by rw [hn']; rfl⟩
  rw [ha, ha']
  simp only [Option.bind_eq_bind, Option.bind_some, l0Ptr, hmask]
  cases hplan : Elf.plan image with
  | none => exact .inl ⟨rfl, rfl⟩
  | some pl =>
  simp only [Option.bind_some]
  have hpgs : ∀ pg ∈ pl.2, pg.bytes.length = 4096 ∧ PageFlags pg.flags := by
    intro pg hpg
    obtain ⟨segs, -, hpages⟩ := Elf.mem_plan hplan
    obtain ⟨seg, -, hhas, -⟩ := hpages pg hpg
    exact ⟨hhas.length, hhas.flags ▸ seg.pageFlags_perms⟩
  rcases h₁.addPages hroot hpgs with
    ⟨hn, hn'⟩ | ⟨frames, s₂, s₂', fs₂, path₂, hb, hb', hx₂, hx₂', h₂⟩
  · exact .inl ⟨by rw [hn]; rfl, by rw [hn']; rfl⟩
  rw [hb, hb']
  simp only [Option.bind_some]
  rcases h₂.addPage (hx₂.label hroot) stackPage (.inl rfl) pageFlags_userRw with
    ⟨hn, hn'⟩ | ⟨stack, s₃, s₃', fs₃, path₃, hc, hc', hx₃, hx₃', h₃, ⟨hin, hout, hsp⟩, hkept, t,
      ht, he⟩
  · exact .inl ⟨by rw [hn]; rfl, by rw [hn']; rfl⟩
  rw [hc, hc']
  simp only [Option.bind_some]
  rw [if_pos (show stackPage.bytes = [] from rfl)] at h₃
  rcases h₃.addPage (hx₃.label (hx₂.label hroot)) ringPage
      (.inr (List.length_replicate ..)) pageFlags_userRw with
    ⟨hn, hn'⟩ | ⟨ring, s₄, s₄', fs₄, path₄, hd, hd', hx₄, hx₄', h₄, -⟩
  · exact .inl ⟨by rw [hn]; rfl, by rw [hn']; rfl⟩
  rw [hd, hd']
  simp only [Option.bind_some]
  refine .inr ⟨k.processes.length, _, _, rfl, rfl, rfl, _, stack, fs₄, path₄, t,
    List.getElem?_concat_length .., hx₄.label (hx₃.label (hx₂.label hroot)), hmask, ?_, ?_, ?_, ?_,
      ?_, ?_⟩
  · have hbytes : ringPage.bytes ≠ [] := by
      intro e
      have := congrArg List.length e
      rw [ringPage, List.length_replicate] at this
      cases this
    rwa [if_neg hbytes, insert_empty_eq] at h₄
  · exact ⟨hx₁.free (hx₂.free hin), (h₂.free stack hin).1, (h₂.free stack hin).2.1⟩
  · exact (((hx₄.kept (h₂.free stack hin).1 hout hsp).2.trans (hkept rfl).1).trans
      (hx₂.freeKept stack hin)).trans (hx₁.freeKept stack (hx₂.free hin))
  · exact (((hx₄'.kept (h₂.free stack hin).1 hout hsp).2.trans (hkept rfl).2).trans
      (hx₂'.freeKept stack hin)).trans (hx₁'.freeKept stack (hx₂'.free hin))
  · exact h₃.walk_extends hx₄ (by simp [pagePath, tablePath]) (hx₃.label (hx₂.label hroot)) le_rfl
      (fun i hi ↦ tablePath_lt hi) ht
  · have hlabel := (h₃.walk_eq (hx₃.label (hx₂.label hroot)) le_rfl
      fun i hi ↦ tablePath_lt hi).2 t ht
    have hvalid : entry s₃.mem t (tableIndex userStackVa 12) &&& descValid ≠ 0 := by
      refine valid_of_table ?_
      rw [show entry s₃.mem t (tableIndex userStackVa 12) = stack ||| pageUserRw from he]
      exact or_and_three (h₂.free stack hin).1 (by decide)
    have hne : [] ++ tablePath stackPage.va ++ [tableIndex userStackVa 12] ∉
        ({pagePath ringPage.va} : Set (List Nat)) := by
      rw [Set.mem_singleton_iff]
      decide
    exact (hx₄.valid hlabel (tableIndex_lt _ _) hne hvalid).trans he

end Start

/-- What a new process reads depends, of the free frames, on the one its stack comes to lie in. -/
theorem Inv.residue {L : Layout} {own : Nat → Owner} {k k' : Kernel} (h : Inv True L own k)
    (hsame : SameButFree k k') (image : List UInt8) :
    (k.startProcess image = none ↔ k'.startProcess image = none) ∧
    ∀ pid k₂, k.startProcess image = some (pid, k₂) →
      ∃ k₂' p stack, k'.startProcess image = some (pid, k₂') ∧ k₂.processes[pid]? = some p ∧
        k₂'.processes[pid]? = some p ∧ stack ∈ k.freeList ∧
        translate k₂.mem p.ttbr0 userStackVa = some stack ∧
        (∀ va e, leafDescriptor k₂.mem p.ttbr0 va = some e → e &&& apEl0Rw ≠ 0 →
          descriptorAt k₂.mem p.ttbr0 va = some e) ∧
        ((∀ va, el0Byte k₂'.mem p.ttbr0 va = el0Byte k₂.mem p.ttbr0 va) ↔
          Set.EqOn k'.mem k.mem (frameAt stack)) := by
  rcases h.started hsame image with ⟨hn, hn'⟩ | ⟨pid, k₂, k₂', hs, hs', hst⟩
  · rw [hn, hn']
    exact ⟨Iff.rfl, nofun⟩
  rw [hs, hs']
  refine ⟨by simp, fun pid' k₃ he ↦ ?_⟩
  cases he
  obtain ⟨p, stack, fs, path, t, hp, hroot, hmask, htwin, ⟨hfree, hal, hlt⟩, hkept, hkept', hw,
    he⟩ := hst.space
  have htype : (stack ||| pageUserRw) &&& descPage = descPage := or_and_three hal (by decide)
  have hstack : translate k₂.mem p.ttbr0 userStackVa = some stack := by
    rw [translate, l0Ptr, hmask, walkVa_tablePath, hw]
    simp only [Option.bind_eq_bind, Option.bind_some, he]
    rw [if_neg (valid_of_table htype), or_and_addrMask hal hlt (by decide), or_and_low hal]
    rfl
  refine ⟨k₂', p, stack, rfl, hp, by rw [hst.processes, hp], hfree, hstack,
    fun va e hl hel0 ↦ htwin.descriptorAt_of_leaf hroot hmask hl hel0, fun hread x hx ↦ ?_,
    fun heq va ↦ htwin.el0Byte_eq hroot hmask (fun f hf ↦ ?_) va⟩
  · -- read the stack page, byte by byte
    obtain ⟨h1, h2⟩ := mem_frameAt.mp hx
    obtain ⟨off, rfl⟩ := Nat.exists_eq_add_of_le h1
    obtain ⟨hw', hlabel⟩ := htwin.walk_eq hroot (p := tablePath userStackVa) le_rfl
      fun i hi ↦ tablePath_lt hi
    have he' := htwin.entry_eq (hlabel t hw) (tableIndex_lt userStackVa 12)
    have hbyte := el0Byte_of_entry hmask (by decide) (by decide) hal hlt hw he
      (show off < 4096 by omega)
    have hbyte' := el0Byte_of_entry hmask (by decide) (by decide) hal hlt (hw'.trans hw)
      (he'.trans he) (show off < 4096 by omega)
    have hsame := hread (userStackVa + off)
    rw [hbyte, hbyte', Option.some.injEq] at hsame
    exact (hkept' hx).symm.trans (hsame.trans (hkept hx))
  · rw [Set.mem_singleton_iff.mp hf]
    exact (hkept'.trans heq).trans hkept.symm

theorem SameButFree.refl (k : Kernel) : SameButFree k k := ⟨rfl, fun _ _ ↦ rfl⟩

/-- Changing one byte of a free frame, past its link word. -/
theorem SameButFree.poke {k : Kernel} {f : Nat} (hf : f ∈ k.freeList) (v : UInt8) :
    SameButFree k (k.setMem (Function.update k.mem (f + 8) v)) := by
  refine ⟨rfl, fun x hx ↦ Function.update_of_ne (fun e ↦ hx f hf ?_) ..⟩
  rw [e, beyondLink, Set.mem_Ico]
  omega

theorem exists_byte_ne (b : UInt8) : ∃ v, v ≠ b := by
  by_cases h : b = 0
  · exact ⟨1, by rw [h]; decide⟩
  · exact ⟨0, Ne.symm h⟩

/-- From boot, a process of one page can be started, and there is more than one free frame. -/
theorem boot_starts : ∃ k pid k₂, (life ramBase []).Reach LifeOp.Linked k ∧
    k.startProcess (pageImage userBase) = some (pid, k₂) ∧ 2 ≤ k.freeList.length := by
  obtain ⟨k, hb, hps, hc⟩ := bootKernel_isSome ramBase 13 (by decide) (by decide) (fun _ ↦ 0) 0 []
  obtain ⟨L, own, -, h⟩ := Inv.boot (by decide) (by simp) hb
  obtain ⟨root, s, frames, s₁, own₁, hroot, hspace, -, hc₁, h₁⟩ :=
    h.newProcess inUserSlot_pageImage_userBase plan_pageImage_userBase hc
  have hp : (k.processes ++ [Process.fresh root (pageLoaded userBase) frames])[0]? =
      some (Process.fresh root (pageLoaded userBase) frames) := by
    rw [hps]
    rfl
  obtain ⟨k₂, hk₂⟩ := h₁.setupRing_isSome hp rfl (processFrames_le hc hc₁)
  have hzero : k.processes.length = 0 := by
    rw [hps]
    rfl
  refine ⟨k, 0, k₂, .init ⟨_, _, hb⟩, ?_, ?_⟩
  · simp only [Kernel.startProcess, Kernel.create, hroot, hspace, Option.bind_eq_bind,
      Option.bind_some, hzero, hk₂]
  · obtain ⟨fs, hl, -, hlen, -⟩ := h.owned.free
    rw [Kernel.freeList, ← hlen, followLinks_of_linked hl, hlen]
    omega

/-- **Residual data reaches a new process through its stack page, and in no other way.**  Two runs
from states that differ in nothing but the contents of free frames either both start the process or
neither does; whatever grants access to EL0 is a page; and the new process reads the same at every
address exactly when the frame its stack comes to lie in held the same. -/
theorem residue_only_in_stack {kernelEnd : Nat} {programs : List (String × List UInt8)}
    (hend : ramBase ≤ kernelEnd) (hprog : ∀ q ∈ programs, Elf.InUserSlot q.2)
    {k k' : Kernel} (hk : (life kernelEnd programs).Reach LifeOp.Linked k)
    (hsame : SameButFree k k') (image : List UInt8) :
    (k.startProcess image = none ↔ k'.startProcess image = none) ∧
    ∀ pid k₂, k.startProcess image = some (pid, k₂) →
      ∃ k₂' p stack, k'.startProcess image = some (pid, k₂') ∧ k₂.processes[pid]? = some p ∧
        k₂'.processes[pid]? = some p ∧ stack ∈ k.freeList ∧
        translate k₂.mem p.ttbr0 userStackVa = some stack ∧
        (∀ va e, leafDescriptor k₂.mem p.ttbr0 va = some e → e &&& apEl0Rw ≠ 0 →
          descriptorAt k₂.mem p.ttbr0 va = some e) ∧
        ((∀ va, el0Byte k₂'.mem p.ttbr0 va = el0Byte k₂.mem p.ttbr0 va) ↔
          Set.EqOn k'.mem k.mem (frameAt stack)) := by
  obtain ⟨L, -, hlife⟩ := lifeInv_of_reach hend hprog hk
  obtain ⟨own, h⟩ := hlife.inv
  exact h.residue hsame image

/-- A byte changed in a free frame that the stack does not come to lie in is not seen. -/
theorem residue_elsewhere_unseen : ∃ k k' pid k₂ k₂' p, (life ramBase []).Reach LifeOp.Linked k ∧
    SameButFree k k' ∧ k'.mem ≠ k.mem ∧
    k.startProcess (pageImage userBase) = some (pid, k₂) ∧
    k'.startProcess (pageImage userBase) = some (pid, k₂') ∧ k₂.processes[pid]? = some p ∧
    ∀ va, el0Byte k₂'.mem p.ttbr0 va = el0Byte k₂.mem p.ttbr0 va := by
  obtain ⟨k, pid, k₂, hk, hs, hlen⟩ := boot_starts
  obtain ⟨L, -, hlife⟩ := lifeInv_of_reach le_rfl (by simp) hk
  obtain ⟨own, h⟩ := hlife.inv
  obtain ⟨hnodup, hmem⟩ := h.mem_freeList
  obtain ⟨-, p, stack, -, hp, -, hfree, hstack, -⟩ := (h.residue (.refl k) _).2 pid k₂ hs
  -- another free frame
  obtain ⟨f, hf, hne⟩ : ∃ f ∈ k.freeList, f ≠ stack := by
    by_contra hall
    push Not at hall
    have hrep := List.eq_replicate_of_mem hall
    rw [hrep, List.nodup_replicate] at hnodup
    omega
  have hal := ((hmem f).mp hf).1.aligned
  have hal' := ((hmem stack).mp hfree).1.aligned
  obtain ⟨v, hv⟩ := exists_byte_ne (k.mem (f + 8))
  have hsame := SameButFree.poke hf v
  obtain ⟨k₂', p', stack', hs', hp', -, -, hstack', -, hiff⟩ :=
    (residue_only_in_stack le_rfl (by simp) hk hsame _).2 pid k₂ hs
  rw [hp] at hp'
  cases hp'
  rw [hstack] at hstack'
  cases hstack'
  refine ⟨k, _, pid, k₂, k₂', p, hk, hsame, fun he ↦ hv ?_, hs, hs', hp, hiff.mpr fun x hx ↦ ?_⟩
  · exact (Function.update_self (f + 8) v k.mem).symm.trans (congrFun he (f + 8))
  · have hne' : x ≠ f + 8 := by
      rintro rfl
      rw [mem_frameAt] at hx
      omega
    show Function.update k.mem (f + 8) v x = k.mem x
    rw [Function.update_of_ne hne']

/-- **A new process can read what a free frame held**: the frame of its stack is mapped as it is. -/
theorem stack_page_leaks : ∃ k k' pid k₂ k₂' p va, (life ramBase []).Reach LifeOp.Linked k ∧
    SameButFree k k' ∧ k.startProcess (pageImage userBase) = some (pid, k₂) ∧
    k'.startProcess (pageImage userBase) = some (pid, k₂') ∧ k₂.processes[pid]? = some p ∧
    k₂'.processes[pid]? = some p ∧ el0Byte k₂'.mem p.ttbr0 va ≠ el0Byte k₂.mem p.ttbr0 va := by
  obtain ⟨k, pid, k₂, hk, hs, -⟩ := boot_starts
  obtain ⟨L, -, hlife⟩ := lifeInv_of_reach le_rfl (by simp) hk
  obtain ⟨own, h⟩ := hlife.inv
  obtain ⟨-, p, stack, -, hp, -, hfree, hstack, -⟩ := (h.residue (.refl k) _).2 pid k₂ hs
  obtain ⟨v, hv⟩ := exists_byte_ne (k.mem (stack + 8))
  obtain ⟨k₂', p', stack', hs', hp', hp'', -, hstack', -, hiff⟩ :=
    (h.residue (.poke hfree v) _).2 pid k₂ hs
  rw [hp] at hp'
  cases hp'
  rw [hstack] at hstack'
  cases hstack'
  have hdiff : ¬ Set.EqOn (Function.update k.mem (stack + 8) v) k.mem (frameAt stack) := by
    intro he
    have hbyte := he (x := stack + 8) (mem_frameAt.mpr ⟨by omega, by omega⟩)
    rw [Function.update_self] at hbyte
    exact hv hbyte
  obtain ⟨va, hva⟩ := not_forall.mp fun hall ↦ hdiff (hiff.mp hall)
  exact ⟨k, _, pid, k₂, k₂', p, va, hk, .poke hfree v, hs, hs', hp, hp'', hva⟩

end Jatuli

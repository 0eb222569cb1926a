import Jatuli.Ownership
import Jatuli.Process

/-!
# Building and destroying address spaces

What the functions that build, fill and free an address space do to the ownership record.  Each
function has one lemma that says in which state it leaves the record, and for the functions that
can run out of frames one that says how many are enough.
-/

set_option autoImplicit false

namespace Jatuli

/-! ## What building may change -/

/-- What building in the space `id` does: free frames become tables or pages of `id`; a frame in
use keeps its use, and its contents too unless it is a table of `id`. -/
structure Grown (start : Nat) (id : Option Nat) (own own' : Nat → Owner) (m m' : Mem) : Prop where
  keep : ∀ g, Managed start g → own g ≠ .free → own' g = own g
  mem : ∀ g, Managed start g → own g ≠ .free → (∀ q, own g ≠ .node id q) →
    Set.EqOn m' m (frameAt g)
  fresh : ∀ g, Managed start g → own g = .free →
    own' g = .free ∨ own' g = .page id ∨ ∃ q, own' g = .node id q
  /-- No block descriptor has come to be. -/
  blocks : ∀ g q i, Managed start g → own' g = .node id q → i < 512 →
    entry m' g i &&& descTable = descBlock → own g = .node id q ∧ entry m' g i = entry m g i

namespace Grown

variable {start : Nat} {id : Option Nat} {own own' own'' : Nat → Owner} {m m' m'' : Mem}

theorem refl (start : Nat) (id : Option Nat) (own : Nat → Owner) (m : Mem) :
    Grown start id own own m m :=
  ⟨fun _ _ _ ↦ rfl, fun _ _ _ _ _ _ ↦ rfl, fun _ _ h ↦ .inl h, fun _ _ _ _ h _ _ ↦ ⟨h, rfl⟩⟩

theorem trans (h : Grown start id own own' m m') (h' : Grown start id own' own'' m' m'') :
    Grown start id own own'' m m'' where
  keep g hg hog := by
    have hsame := h.keep g hg hog
    rw [h'.keep g hg (by rwa [hsame]), hsame]
  mem g hg hog hq := by
    have hsame := h.keep g hg hog
    have h2 := h'.mem g hg (by rwa [hsame]) fun q ↦ by rw [hsame]; exact hq q
    exact h2.trans (h.mem g hg hog hq)
  fresh g hg hog := by
    rcases h.fresh g hg hog with hfree | hpage | ⟨q, hq⟩
    · exact h'.fresh g hg hfree
    · exact .inr (.inl (by rw [h'.keep g hg (by simp [hpage]), hpage]))
    · exact .inr (.inr ⟨q, by rw [h'.keep g hg (by simp [hq]), hq]⟩)
  blocks g q i hg hog hi hb := by
    obtain ⟨ho', he'⟩ := h'.blocks g q i hg hog hi hb
    obtain ⟨ho, he⟩ := h.blocks g q i hg ho' hi (by rwa [← he'])
    exact ⟨ho, he'.trans he⟩

/-- The same growth, with a held frame counted as a page before and after. -/
theorem asPage (h : Grown start id own own' m m') {f : Nat} (hf : own f = .held) :
    Grown start id (Function.update own f (.page id)) (Function.update own' f (.page id)) m m' where
  keep g hg hog := by
    by_cases hgf : g = f
    · subst hgf
      simp
    · rw [Function.update_of_ne hgf] at hog
      rw [Function.update_of_ne hgf, Function.update_of_ne hgf, h.keep g hg hog]
  mem g hg hog hq := by
    by_cases hgf : g = f
    · subst hgf
      exact h.mem g hg (by simp [hf]) (by simp [hf])
    · simp only [Function.update_of_ne hgf] at hog hq
      exact h.mem g hg hog hq
  fresh g hg hog := by
    by_cases hgf : g = f
    · subst hgf
      simp at hog
    · rw [Function.update_of_ne hgf] at hog ⊢
      exact h.fresh g hg hog
  blocks g q i hg hog hi hb := by
    by_cases hgf : g = f
    · subst hgf
      simp at hog
    · rw [Function.update_of_ne hgf] at hog ⊢
      exact h.blocks g q i hg hog hi hb

/-- A write to a table of the space. -/
theorem of_setEntry {t i v : Nat} {q : List Nat} (ht : Managed start t) (hot : own t = .node id q)
    (hi : i < 512) (hv : v < 2 ^ 64) (htype : v &&& descTable ≠ descBlock) :
    Grown start id own own m (setEntry m t i v) where
  keep _ _ _ := rfl
  mem g hg _ hq := by
    have hne : t ≠ g := fun e ↦ hq q (e ▸ hot)
    exact eqOn_frameAt ht.aligned hg.aligned hne (setEntry_eqOn hi)
  fresh _ _ hog := .inl hog
  blocks g q j hg hog hj hb := by
    refine ⟨hog, ?_⟩
    by_cases hgt : t = g
    · subst hgt
      by_cases hij : i = j
      · subst hij
        rw [entry_setEntry_same hv] at hb
        exact absurd hb htype
      · exact entry_setEntry_ne hij
    · exact entry_congr (eqOn_frameAt ht.aligned hg.aligned hgt (setEntry_eqOn hi)) hj

/-- A frame is held afterwards only if it was before. -/
theorem held (h : Grown start id own own' m m') {g : Nat} (hg : Managed start g)
    (hog : own' g = .held) : own g = .held := by
  by_cases hfree : own g = .free
  · rcases h.fresh g hg hfree with h1 | h1 | ⟨q, h1⟩ <;> rw [h1] at hog <;> cases hog
  · rw [← h.keep g hg hfree, hog]

/-- The tables of other spaces are what they were. -/
theorem node_iff (h : Grown start id own own' m m') {g : Nat} (hg : Managed start g)
    {id' : Option Nat} (hne : id' ≠ id) (q : List Nat) :
    own' g = .node id' q ↔ own g = .node id' q := by
  by_cases hfree : own g = .free
  · have hnot : own' g ≠ .node id' q := by
      rcases h.fresh g hg hfree with h1 | h1 | ⟨q', h1⟩ <;> rw [h1] <;> simp [hne.symm]
    simp [hfree, hnot]
  · rw [h.keep g hg hfree]

end Grown

/-! ## Paths of addresses -/

theorem Mappable.of_append {id : Option Nat} {p q : List Nat} (h : Mappable id (p ++ q)) :
    Mappable id p := by
  cases id with
  | some _ => trivial
  | none =>
    rcases h with h | h
    · exact .inl ((List.prefix_append p q).trans h)
    · exact (List.prefix_or_prefix_of_prefix (List.prefix_append p q) h)

theorem inside_pagePath {id : Option Nat} {va : Nat} (h : tableIndex va 39 = slotOf id) :
    Inside id (pagePath va) := by
  refine ⟨fun i hi ↦ ?_, fun i hi ↦ ?_⟩
  · rw [pagePath, List.mem_append, List.mem_singleton] at hi
    rcases hi with hi | rfl
    · exact tablePath_lt hi
    · exact tableIndex_lt _ _
  · simp only [pagePath, tablePath, List.cons_append, List.head?_cons, Option.mem_def,
      Option.some.injEq] at hi
    rw [← hi, h]

/-! ## Tables -/

section Build

variable {strict : Prop} {start kernelL1 : Nat} {roots : Option Nat → Option Nat}
  {pages : Option Nat → List (Nat × Nat)} {own : Nat → Owner} {s s' : Phys}
  {id : Option Nat} {r t i f : Nat} {p : List Nat}

/-- `alloc_table` hands out a free frame with all entries invalid. -/
theorem Owned.allocTable (h : Owned strict start kernelL1 roots pages own s)
    (ha : allocTable s = some (t, s')) :
    (Managed start t ∧ own t = .free) ∧ (∀ j < 512, entry s'.mem t j = 0) ∧
      Set.EqOn s'.mem s.mem (frameAt t)ᶜ ∧ s'.frames.freeCount + 1 = s.frames.freeCount ∧
      Owned strict start kernelL1 roots pages (Function.update own t .held) s' := by
  rw [Jatuli.allocTable] at ha
  obtain ⟨⟨t₀, s₁⟩, hp, ha⟩ := Option.bind_eq_some_iff.mp ha
  cases ha
  obtain ⟨⟨hm, ho⟩, ⟨hmem, hcount⟩, hown⟩ := h.allocFrame hp
  have hout := zeroTable_eqOn s₁.mem t (n := 512) le_rfl
  refine ⟨⟨hm, ho⟩, fun j hj ↦ entry_zeroTable _ _ hj, hmem ▸ hout, hcount, ?_⟩
  exact hown.write_frame hm (by simp) (by simp) hout

theorem Owned.allocTable_isSome (h : Owned strict start kernelL1 roots pages own s)
    (hc : 0 < s.frames.freeCount) : ∃ t s', Jatuli.allocTable s = some (t, s') := by
  obtain ⟨f, s₁, hf⟩ := h.allocFrame_isSome hc
  exact ⟨f, _, by rw [Jatuli.allocTable, hf]; rfl⟩

/-- The entries of the last-level tables below `r` are the same in `m'` as in `m`, except the one
at `path`. -/
def LeavesKept (id : Option Nat) (r : Nat) (path : List Nat) (m m' : Mem) : Prop :=
  ∀ p t j, p.length = 3 → Inside id (p ++ [j]) → p ++ [j] ≠ path → walk m r p = some t →
    walk m' r p = some t ∧ entry m' t j = entry m t j

theorem LeavesKept.trans {path path' : List Nat} {m m' m'' : Mem}
    (h : LeavesKept id r path m m') (h' : LeavesKept id r path' m' m'')
    (hpath : path = [] ∨ path = path') : LeavesKept id r path' m m'' := by
  intro p t j hlen hin hne hw
  have hne' : p ++ [j] ≠ path := by
    rcases hpath with rfl | rfl
    · simp
    · exact hne
  obtain ⟨hw₁, he₁⟩ := h p t j hlen hin hne' hw
  obtain ⟨hw₂, he₂⟩ := h' p t j hlen hin hne hw₁
  exact ⟨hw₂, he₂.trans he₁⟩

/-- `get_or_create` finds the table below an entry or hangs a new one there. -/
theorem Owned.getOrCreate (h : Owned strict start kernelL1 roots pages own s)
    (hr : roots id = some r)
    (hin : InTree id (p ++ [i])) (ht : walk s.mem r p = some t) {n : Nat}
    (hg : getOrCreate s t i = some (n, s')) :
    ∃ own', Owned strict start kernelL1 roots pages own' s' ∧ walk s'.mem r (p ++ [i]) = some n ∧
      Grown start id own own' s.mem s'.mem ∧ LeavesKept id r [] s.mem s'.mem ∧
      s.frames.freeCount ≤ s'.frames.freeCount + 1 := by
  rw [Jatuli.getOrCreate] at hg
  split at hg
  · -- the entry is there already
    split at hg
    · rename_i htab
      cases hg
      refine ⟨own, h, ?_, .refl .., fun _ _ _ _ _ _ hw ↦ ⟨hw, rfl⟩, by omega⟩
      rw [walk_concat, ht]
      exact child_eq_some.mpr ⟨htab, rfl⟩
    · cases hg
  · rename_i hinv
    rw [not_not] at hinv
    obtain ⟨⟨n₀, s₁⟩, ha, hg⟩ := Option.bind_eq_some_iff.mp hg
    cases hg
    obtain ⟨⟨hmn, hon⟩, hz, hout, hcount, h₁⟩ := h.allocTable ha
    obtain ⟨hmt, hot⟩ := h.tree.node hr hin.of_append ht
    have hne : n ≠ t := fun e ↦ by simp [e, hot] at hon
    have hnodes : ∀ g q, Managed start g → own g = .node id q →
        Set.EqOn s₁.mem s.mem (frameAt g) := fun g q hg hog ↦
      eqOn_frameAt hmn.aligned hg.aligned (fun e ↦ by simp [e, hog] at hon) hout
    have hwalk : ∀ {q}, InTree id q → walk s₁.mem r q = walk s.mem r q := fun hq ↦
      h.tree.walk_congr hr hnodes (by have := hq.1; omega) hq.2
    have ht₁ : walk s₁.mem r p = some t := (hwalk hin.of_append).trans ht
    have hc : child s₁.mem t i = none := by
      rw [child_congr (eqOn_frameAt hmn.aligned hmt.aligned hne hout) hin.2.index_lt]
      exact child_of_invalid hinv
    have hheld : Function.update own n .held n = .held := Function.update_self ..
    have h₂ := h₁.attach hr hin ht₁ hc hmn hheld hz
    rw [Function.update_idem] at h₂
    refine ⟨_, h₂, ?_, ⟨fun g _ hog ↦ ?_, fun g hmg hog hq ↦ ?_, fun g _ hog ↦ ?_,
      fun g q j hmg hog hj hb ↦ ?_⟩, fun p' t' j hlen hin' _ hw ↦ ?_,
      by simp only [← hcount]; omega⟩
    · exact (h₁.walk_attach hr hin ht₁ hmn hheld hz (q := []) (by simp)).trans rfl
    · have hgn : g ≠ n := fun e ↦ hog (e ▸ hon)
      rw [Function.update_of_ne hgn]
    · have hgn : n ≠ g := fun e ↦ hog (e ▸ hon)
      have hgt : t ≠ g := fun e ↦ hq p (e ▸ hot)
      exact (eqOn_frameAt hmt.aligned hmg.aligned hgt (setEntry_eqOn hin.2.index_lt)).trans
        (eqOn_frameAt hmn.aligned hmg.aligned hgn hout)
    · by_cases hgn : g = n
      · subst hgn
        exact .inr (.inr ⟨_, Function.update_self ..⟩)
      · rw [Function.update_of_ne hgn]
        exact .inl hog
    · -- the new table is empty, and the new entry is of table type
      by_cases hgn : g = n
      · subst hgn
        rw [entry_congr (eqOn_frameAt hmt.aligned hmg.aligned (Ne.symm hne)
          (setEntry_eqOn hin.2.index_lt)) hj, hz j hj] at hb
        cases hb
      · rw [Function.update_of_ne hgn] at hog
        have hold : entry s₁.mem g j = entry s.mem g j :=
          entry_congr (eqOn_frameAt hmn.aligned hmg.aligned (Ne.symm hgn) hout) hj
        obtain ⟨-, he⟩ := (Grown.of_setEntry (m := s₁.mem) hmt hot hin.2.index_lt
          (or_lt_of_lt hmn.lt (by decide)) (by rw [or_descTable]; decide)).blocks g q
            j hmg hog hj hb
        exact ⟨hog, he.trans hold⟩
    · -- a last-level table is neither the new one nor the one written
      have hp' : InTree id p' := ⟨hlen.le, hin'.of_append⟩
      obtain ⟨hmt', hot'⟩ := h.tree.node hr hp' hw
      have hn' : n ≠ t' := fun e ↦ by simp [e, hot'] at hon
      have ht' : t ≠ t' := by
        rintro rfl
        rw [hot] at hot'
        cases hot'
        have := hin.1
        simp only [List.length_append, List.length_cons, List.length_nil] at this
        omega
      refine ⟨?_, entry_congr ?_ hin'.index_lt⟩
      · refine (h₁.tree.walk_setEntry hr hin.of_append hin.2.index_lt ht₁ hr (by omega)
          hp'.2 ?_).trans ((hwalk hp').trans hw)
        rintro - ⟨q, rfl⟩
        rw [← hwalk hp', walk_append, walk_concat, ht₁, Option.bind_some, hc] at hw
        cases hw
      · exact (eqOn_frameAt hmt.aligned hmt'.aligned ht' (setEntry_eqOn hin.2.index_lt)).trans
          (eqOn_frameAt hmn.aligned hmt'.aligned hn' hout)

theorem Owned.getOrCreate_isSome (h : Owned strict start kernelL1 roots pages own s) (hs : strict)
    (hr : roots id = some r) (hin : InTree id (p ++ [i])) (hmap : Mappable id (p ++ [i]))
    (ht : walk s.mem r p = some t) (hc : 0 < s.frames.freeCount) :
    ∃ n s', Jatuli.getOrCreate s t i = some (n, s') := by
  rw [Jatuli.getOrCreate]
  split
  · rename_i hvalid
    rw [if_pos (h.tree.typed hs hr hin.of_append.1 hin.2 hmap ht hvalid)]
    exact ⟨_, _, rfl⟩
  · obtain ⟨n, s₁, ha⟩ := h.allocTable_isSome hc
    rw [ha]
    exact ⟨_, _, rfl⟩

/-! ## Mapping a page -/

/-- What the attribute bits of a page descriptor have to be like: page type, no address bits. -/
structure PageFlags (flags : Nat) : Prop where
  type : flags &&& 3 = 3
  addr : flags &&& addrMask = 0
  lt : flags < 2 ^ 64

theorem pageFlags_kernelRw : PageFlags pageKernelRw := ⟨by decide, by decide, by decide⟩

theorem pageFlags_userRw : PageFlags pageUserRw := ⟨by decide, by decide, by decide⟩

theorem pageFlags_userRx : PageFlags pageUserRx := ⟨by decide, by decide, by decide⟩

/-- `map_page_in` maps a held frame, which becomes a page of the space. -/
theorem Owned.mapPageIn (h : Owned strict start kernelL1 roots pages own s) (hr : roots id = some r)
    {va flags : Nat} (hlt : va < 2 ^ 48) (hva : tableIndex va 39 = slotOf id) (hf : Managed start f)
    (hof : own f = .held) (hfl : PageFlags flags) (hm : mapPageIn s r va f flags = some s') :
    ∃ own', Owned strict start kernelL1 roots (Function.update pages id (pages id ++ [(va, f)]))
      own' s' ∧ Grown start id (Function.update own f (.page id)) own' s.mem s'.mem ∧
      (∃ t, walk s'.mem r (tablePath va) = some t ∧
        entry s'.mem t (tableIndex va 12) = f ||| flags) ∧
      LeavesKept id r (pagePath va) s.mem s'.mem ∧
      s.frames.freeCount ≤ s'.frames.freeCount + 3 := by
  have hin : Inside id (tablePath va ++ [tableIndex va 12]) := inside_pagePath hva
  have htp : InTree id (tablePath va) := ⟨le_rfl, hin.of_append⟩
  rw [Jatuli.mapPageIn] at hm
  obtain ⟨⟨l1, s₁⟩, h1, hm⟩ := Option.bind_eq_some_iff.mp hm
  obtain ⟨⟨l2, s₂⟩, h2, hm⟩ := Option.bind_eq_some_iff.mp hm
  obtain ⟨⟨l3, s₃⟩, h3, hm⟩ := Option.bind_eq_some_iff.mp hm
  cases hm
  obtain ⟨own₁, ho₁, hw₁, hg₁, hl₁, hc₁⟩ := h.getOrCreate hr (p := [])
    (htp.of_append (q := [tableIndex va 30, tableIndex va 21])) rfl h1
  obtain ⟨own₂, ho₂, hw₂, hg₂, hl₂, hc₂⟩ := ho₁.getOrCreate hr (p := [tableIndex va 39])
    (htp.of_append (q := [tableIndex va 21])) hw₁ h2
  obtain ⟨own₃, ho₃, hw₃, hg₃, hl₃, hc₃⟩ := ho₂.getOrCreate hr
    (p := [tableIndex va 39, tableIndex va 30]) htp hw₂ h3
  have hgrown := (hg₁.trans hg₂).trans hg₃
  have hof₃ : own₃ f = .held := by rw [hgrown.keep f hf (by simp [hof]), hof]
  have hpath : pagePath va = tablePath va ++ [tableIndex va 12] := rfl
  have hleaf := ho₃.setLeaf hr rfl hin hw₃ hf hof₃ hlt hpath hfl.type hfl.addr hfl.lt
  obtain ⟨hmt, hot⟩ := ho₃.tree.node hr htp hw₃
  have hne : l3 ≠ f := fun e ↦ by simp [e, hof₃] at hot
  have hot' : Function.update own₃ f (.page id) l3 = .node id (tablePath va) := by
    rw [Function.update_of_ne hne, hot]
  have hwalk : ∀ {q v}, InTree id q →
      walk (setEntry s₃.mem l3 (tableIndex va 12) v) r q = walk s₃.mem r q := fun hq ↦
    ho₃.tree.walk_setEntry hr htp (tableIndex_lt _ _) hw₃ hr (by have := hq.1; omega) hq.2
      fun _ ↦ not_isPrefix_of_length hq.1
  refine ⟨_, hleaf, (hgrown.asPage hof).trans (.of_setEntry hmt hot' (tableIndex_lt _ _)
      (or_lt_of_lt (Nat.lt_of_le_of_lt Nat.and_le_left hf.lt) hfl.lt) ?_),
    ⟨l3, (hwalk htp).trans hw₃, ?_⟩, ?_, ?_⟩
  · rw [and_addrMask_of_aligned hf.aligned hf.lt, or_and_three hf.aligned hfl.type]
    decide
  · rw [and_addrMask_of_aligned hf.aligned hf.lt]
    exact entry_setEntry_same (or_lt_of_lt hf.lt hfl.lt)
  · refine ((hl₁.trans hl₂ (.inl rfl)).trans hl₃ (.inl rfl)).trans (fun p t j hlen hin' hne hw ↦ ?_)
      (.inl rfl)
    have hp : InTree id p := ⟨hlen.le, hin'.of_append⟩
    refine ⟨(hwalk hp).trans hw, ?_⟩
    · refine ho₃.tree.entry_setEntry hr htp (tableIndex_lt _ _) hw₃ hr hp hw hin'.index_lt ?_
      rintro - rfl rfl
      exact hne rfl
  · simp only
    omega

/-- Three frames are enough to map a page. -/
theorem Owned.mapPageIn_isSome (h : Owned strict start kernelL1 roots pages own s) (hs : strict)
    (hr : roots id = some r) {va : Nat} (hva : tableIndex va 39 = slotOf id)
    (hmap : Mappable id (tablePath va)) (hc : 3 ≤ s.frames.freeCount) (pa flags : Nat) :
    ∃ s', Jatuli.mapPageIn s r va pa flags = some s' := by
  have htp : InTree id (tablePath va) := ⟨le_rfl, (inside_pagePath hva).of_append⟩
  obtain ⟨l1, s₁, h1⟩ := h.getOrCreate_isSome hs hr (p := [])
    (htp.of_append (q := [tableIndex va 30, tableIndex va 21]))
    (hmap.of_append (p := [tableIndex va 39])) rfl (by omega)
  obtain ⟨own₁, ho₁, hw₁, -, -, hc₁⟩ := h.getOrCreate hr (p := [])
    (htp.of_append (q := [tableIndex va 30, tableIndex va 21])) rfl h1
  obtain ⟨l2, s₂, h2⟩ := ho₁.getOrCreate_isSome hs hr (p := [tableIndex va 39])
    (htp.of_append (q := [tableIndex va 21]))
    (hmap.of_append (p := [tableIndex va 39, tableIndex va 30])) hw₁ (by omega)
  obtain ⟨own₂, ho₂, hw₂, -, -, hc₂⟩ := ho₁.getOrCreate hr (p := [tableIndex va 39])
    (htp.of_append (q := [tableIndex va 21])) hw₁ h2
  obtain ⟨l3, s₃, h3⟩ := ho₂.getOrCreate_isSome hs hr
    (p := [tableIndex va 39, tableIndex va 30]) htp hmap hw₂ (by omega)
  refine ⟨{ s₃ with
    mem := setEntry s₃.mem l3 (tableIndex va 12) ((pa &&& addrMask) ||| flags) }, ?_⟩
  rw [Jatuli.mapPageIn, h1]
  simp only [Option.bind_eq_bind, Option.bind_some]
  rw [h2]
  simp only [Option.bind_some]
  rw [h3]
  rfl

/-! ## A new space -/

/-- Below a root whose own slot is empty there is only the root. -/
theorem walk_of_empty_slot {m : Mem} (hc : child m r (slotOf id) = none) {q : List Nat} {g : Nat}
    (hq : Inside id q) (hw : walk m r q = some g) : q = [] ∧ g = r := by
  cases q with
  | nil => exact ⟨rfl, (Option.some.inj hw).symm⟩
  | cons j q =>
    have hj : j = slotOf id := hq.2 j (by simp)
    rw [walk, Radix.walk_cons, hj, hc] at hw
    cases hw

/-- `new_address_space` begins the space of process `pid` with a root of its own. -/
theorem Owned.newAddressSpace (h : Owned strict start kernelL1 roots pages own s) {pid : Nat}
    (hid : roots (some pid) = none) (hk : kernelL1 < 2 ^ 48)
    (hn : newAddressSpace s kernelL1 = some (r, s')) :
    ∃ own', Owned strict start kernelL1 (Function.update roots (some pid) (some r)) pages own' s' ∧
      Grown start (some pid) own own' s.mem s'.mem ∧
      s.frames.freeCount = s'.frames.freeCount + 1 ∧ Managed start r := by
  rw [Jatuli.newAddressSpace] at hn
  obtain ⟨⟨r₀, s₁⟩, ha, hn⟩ := Option.bind_eq_some_iff.mp hn
  cases hn
  obtain ⟨⟨hmr, hor⟩, hz, hout, hcount, h₁⟩ := h.allocTable ha
  have hwrite : Set.EqOn (setEntry s₁.mem r 0 (kernelL1 ||| descTable)) s₁.mem (frameAt r)ᶜ :=
    setEntry_eqOn (by decide)
  have h₂ := h₁.write_frame hmr (by simp) (by simp) hwrite
  have hentry : ∀ j, j < 512 → j ≠ 0 →
      entry (setEntry s₁.mem r 0 (kernelL1 ||| descTable)) r j = 0 := fun j hj hj0 ↦ by
    rw [entry_setEntry_ne (Ne.symm hj0), hz j hj]
  have hslot : child (setEntry s₁.mem r 0 (kernelL1 ||| descTable)) r (slotOf (some pid)) = none :=
    child_of_zero (hentry _ (by decide : userL0Idx < 512) (by decide : userL0Idx ≠ 0))
  obtain ⟨own', ho', hnode, hkeep⟩ := h₂.adopt (r := r) hid
    (fun q g hq hw ↦ by
      obtain ⟨-, rfl⟩ := walk_of_empty_slot hslot hq.2 hw
      exact ⟨hmr, Function.update_self ..⟩)
    (fun q q' g hq hq' hw hw' ↦ by
      rw [(walk_of_empty_slot hslot hq.2 hw).1, (walk_of_empty_slot hslot hq'.2 hw').1])
    (fun q hlen hq ↦ by
      rw [Option.eq_none_iff_forall_ne_some]
      intro g hw
      rw [(walk_of_empty_slot hslot hq hw).1] at hlen
      cases hlen)
    (fun _ q t j _ hq _ hw hvalid ↦ by
      obtain ⟨rfl, rfl⟩ := walk_of_empty_slot hslot hq.of_append hw
      have hj : j = userL0Idx := hq.2 j (by simp)
      rw [hentry j hq.index_lt (by rw [hj]; decide)] at hvalid
      exact absurd rfl hvalid)
    (fun _ ↦ entry_setEntry_same (or_lt_of_lt hk (by decide)))
    (fun j hj hj0 _ ↦ child_of_zero (hentry j hj hj0))
  have hother : ∀ g, g ≠ r → own' g = own g := fun g hg ↦ by
    rw [hkeep g fun q hq hw ↦ hg (walk_of_empty_slot hslot hq.2 hw).2, Function.update_of_ne hg]
  refine ⟨own', ho', ⟨fun g _ hog ↦ ?_, fun g hmg hog _ ↦ ?_, fun g _ hog ↦ ?_,
    fun g q i hmg hog hi hb ↦ ?_⟩, hcount.symm, hmr⟩
  · exact hother g fun e ↦ hog (e ▸ hor)
  · have hgr : r ≠ g := fun e ↦ hog (e ▸ hor)
    exact (eqOn_frameAt hmr.aligned hmg.aligned hgr hwrite).trans
      (eqOn_frameAt hmr.aligned hmg.aligned hgr hout)
  · by_cases hgr : g = r
    · subst hgr
      exact .inr (.inr ⟨[], hnode [] g (.nil _) rfl⟩)
    · rw [hother g hgr]
      exact .inl hog
  · by_cases hgr : g = r
    · -- the root has one entry, and it is of table type
      subst hgr
      by_cases hi0 : i = 0
      · subst hi0
        rw [entry_setEntry_same (or_lt_of_lt hk (by decide)), or_descTable] at hb
        cases hb
      · rw [hentry i hi hi0] at hb
        cases hb
    · rw [hother g hgr] at hog
      exact ⟨hog, entry_congr ((eqOn_frameAt hmr.aligned hmg.aligned (Ne.symm hgr) hwrite).trans
        (eqOn_frameAt hmr.aligned hmg.aligned (Ne.symm hgr) hout)) hi⟩

theorem Owned.newAddressSpace_isSome (h : Owned strict start kernelL1 roots pages own s)
    (hc : 0 < s.frames.freeCount) :
    ∃ r s', Jatuli.newAddressSpace s kernelL1 = some (r, s') := by
  obtain ⟨r, s₁, ha⟩ := h.allocTable_isSome hc
  exact ⟨r, _, by rw [Jatuli.newAddressSpace, ha]; rfl⟩

/-! ## Adding pages -/

/-- The space `id` got the pages `new`, at the cost of at most four frames each. -/
def Filled (strict : Prop) (start kernelL1 : Nat) (roots : Option Nat → Option Nat)
    (pages : Option Nat → List (Nat × Nat)) (id : Option Nat) (own : Nat → Owner) (s s' : Phys)
    (new : List (Nat × Nat)) : Prop :=
  ∃ own', Owned strict start kernelL1 roots (Function.update pages id (pages id ++ new)) own' s' ∧
    Grown start id own own' s.mem s'.mem ∧
    s.frames.freeCount ≤ s'.frames.freeCount + 4 * new.length

theorem Filled.nil (h : Owned strict start kernelL1 roots pages own s) :
    Filled strict start kernelL1 roots pages id own s s [] :=
  ⟨own, by simpa using h, .refl .., by simp⟩

theorem Filled.trans {s'' : Phys} {new new' : List (Nat × Nat)}
    (h : Filled strict start kernelL1 roots pages id own s s' new)
    (h' : ∀ own', Owned strict start kernelL1 roots (Function.update pages id (pages id ++ new))
      own' s' →
      Filled strict start kernelL1 roots (Function.update pages id (pages id ++ new)) id own'
        s' s'' new') :
    Filled strict start kernelL1 roots pages id own s s'' (new ++ new') := by
  obtain ⟨own', ho', hg', hc'⟩ := h
  obtain ⟨own'', ho'', hg'', hc''⟩ := h' own' ho'
  rw [Function.update_self, Function.update_idem, List.append_assoc] at ho''
  refine ⟨own'', ho'', hg'.trans hg'', ?_⟩
  rw [List.length_append]
  omega

/-- Take a frame, fill it, map it: one more page, with the contents it was filled with. -/
theorem Owned.addPage (h : Owned strict start kernelL1 roots pages own s) (hr : roots id = some r)
    {s₁ : Phys} {va flags : Nat} {bytes : List UInt8} (hlt : va < 2 ^ 48)
    (hva : tableIndex va 39 = slotOf id) (ha : s.allocFrame = some (f, s₁))
    (hlen : bytes.length ≤ 4096) (hfl : PageFlags flags)
    (hm : Jatuli.mapPageIn { s₁ with mem := s₁.mem.fill f bytes } r va f flags = some s') :
    Filled strict start kernelL1 roots pages id own s s' [(va, f)] ∧
      (Managed start f ∧ own f = .free) ∧
      Set.EqOn s'.mem (s₁.mem.fill f bytes) (frameAt f) ∧
      (∃ t, walk s'.mem r (tablePath va) = some t ∧
        entry s'.mem t (tableIndex va 12) = f ||| flags) ∧
      LeavesKept id r (pagePath va) s.mem s'.mem := by
  obtain ⟨⟨hmf, hof⟩, ⟨hmem, hcount⟩, h₁⟩ := h.allocFrame ha
  have hfill : Set.EqOn (s₁.mem.fill f bytes) s₁.mem (frameAt f)ᶜ :=
    Mem.fill_eqOn le_rfl (by rw [frameSize]; omega)
  have h₂ := h₁.write_frame hmf (by simp) (by simp) hfill
  obtain ⟨own', ho', hg', hleaf, hkept, hc'⟩ :=
    h₂.mapPageIn hr hlt hva hmf (Function.update_self ..) hfl hm
  rw [Function.update_idem] at hg'
  have hpage : Function.update own f (.page id) f = .page id := Function.update_self ..
  refine ⟨⟨own', ho', ⟨fun g hmg hog ↦ ?_, fun g hmg hog hq ↦ ?_, fun g hmg hog ↦ ?_,
    fun g q i hmg hog hi hb ↦ ?_⟩, ?_⟩, ⟨hmf, hof⟩, hg'.mem f hmf (by simp) (by simp), hleaf,
    fun p t j hlen hin hne hw ↦ ?_⟩
  · have hgf : g ≠ f := fun e ↦ hog (e ▸ hof)
    rw [hg'.keep g hmg (by rwa [Function.update_of_ne hgf]), Function.update_of_ne hgf]
  · have hgf : g ≠ f := fun e ↦ hog (e ▸ hof)
    have hsame := hg'.mem g hmg (by rwa [Function.update_of_ne hgf])
      (by simpa only [Function.update_of_ne hgf] using hq)
    rw [← hmem]
    exact hsame.trans (eqOn_frameAt hmf.aligned hmg.aligned (Ne.symm hgf) hfill)
  · by_cases hgf : g = f
    · subst hgf
      exact .inr (.inl (by rw [hg'.keep g hmg (by simp), hpage]))
    · exact hg'.fresh g hmg (by rwa [Function.update_of_ne hgf])
  · obtain ⟨hog', he⟩ := hg'.blocks g q i hmg hog hi hb
    have hgf : g ≠ f := fun e ↦ by simp [e] at hog'
    rw [Function.update_of_ne hgf] at hog'
    refine ⟨hog', he.trans ?_⟩
    rw [← hmem]
    exact entry_congr (eqOn_frameAt hmf.aligned hmg.aligned (Ne.symm hgf) hfill) hi
  · simp only [List.length_cons, List.length_nil] at hc' ⊢
    omega
  · -- filling the frame does not show in the tables
    have hp : InTree id p := ⟨hlen.le, hin.of_append⟩
    obtain ⟨hmt, hot⟩ := h.tree.node hr hp hw
    have htf : f ≠ t := fun e ↦ by simp [e, hot] at hof
    have hw₂ : walk (s₁.mem.fill f bytes) r p = some t := by
      refine (h.tree.walk_congr hr (fun g q hg hog ↦ ?_) (by omega) hp.2).trans hw
      rw [← hmem]
      exact eqOn_frameAt hmf.aligned hg.aligned (fun e ↦ by simp [e, hog] at hof) hfill
    obtain ⟨hw', he'⟩ := hkept p t j hlen hin hne hw₂
    refine ⟨hw', he'.trans ?_⟩
    rw [← hmem]
    exact entry_congr (eqOn_frameAt hmf.aligned hmt.aligned htf hfill) hin.index_lt

end Build

/-! ## Freeing tables -/

/-- The tables below `t`, down to `n` levels: what `free_subtree` frees. -/
def InSub (m : Mem) (t n g : Nat) : Prop :=
  ∃ q : List Nat, q.length ≤ n ∧ (∀ i ∈ q, i < 512) ∧ walk m t q = some g

/-- A tree of held frames in which no frame occurs twice. -/
structure HeldTree (start : Nat) (own : Nat → Owner) (m : Mem) (t n : Nat) : Prop where
  held : ∀ {g}, InSub m t n g → Managed start g ∧ own g = .held
  inj : ∀ {q q' g}, q.length ≤ n → q'.length ≤ n → (∀ i ∈ q, i < 512) → (∀ i ∈ q', i < 512) →
    walk m t q = some g → walk m t q' = some g → q = q'

/-- The frames in `P`, and only they, were put back on the free list. -/
structure Freed (strict : Prop) (start kernelL1 : Nat) (roots : Option Nat → Option Nat)
    (pages : Option Nat → List (Nat × Nat)) (own : Nat → Owner) (s : Phys) (P : Nat → Prop)
    (own' : Nat → Owner) (s' : Phys) : Prop where
  owned : Owned strict start kernelL1 roots pages own' s'
  freed : ∀ {g}, Managed start g → P g → own' g = .free
  keep : ∀ {g}, Managed start g → ¬ P g → own' g = own g
  mem : ∀ {g}, Managed start g → ¬ P g → Set.EqOn s'.mem s.mem (frameAt g)

section Free

variable {strict : Prop} {start kernelL1 : Nat} {roots : Option Nat → Option Nat}
  {pages : Option Nat → List (Nat × Nat)} {own own' own'' : Nat → Owner} {s s' s'' : Phys}
  {id : Option Nat} {r t f : Nat} {P Q : Nat → Prop}

theorem Freed.refl (h : Owned strict start kernelL1 roots pages own s) (hP : ∀ g, ¬ P g) :
    Freed strict start kernelL1 roots pages own s P own s :=
  ⟨h, fun _ hp ↦ absurd hp (hP _), fun _ _ ↦ rfl, fun _ _ _ _ ↦ rfl⟩

theorem Freed.trans (h : Freed strict start kernelL1 roots pages own s P own' s')
    (h' : Freed strict start kernelL1 roots pages own' s' Q own'' s'') :
    Freed strict start kernelL1 roots pages own s (fun g ↦ P g ∨ Q g) own'' s'' where
  owned := h'.owned
  freed {g} hg hpq := by
    by_cases hq : Q g
    · exact h'.freed hg hq
    · rw [h'.keep hg hq]
      exact h.freed hg (hpq.resolve_right hq)
  keep {g} hg hpq := by
    rw [not_or] at hpq
    rw [h'.keep hg hpq.2, h.keep hg hpq.1]
  mem {g} hg hpq := by
    rw [not_or] at hpq
    exact (h'.mem hg hpq.2).trans (h.mem hg hpq.1)

theorem Freed.congr (h : Freed strict start kernelL1 roots pages own s P own' s')
    (hpq : ∀ g, P g ↔ Q g) :
    Freed strict start kernelL1 roots pages own s Q own' s' := by
  have : P = Q := funext fun g ↦ propext (hpq g)
  rwa [← this]

theorem Freed.frame (h : Owned strict start kernelL1 roots pages own s) (hf : Managed start f)
    (hof : own f = .held) :
    Freed strict start kernelL1 roots pages own s (· = f) (Function.update own f .free)
      (s.freeFrame f) where
  owned := h.freeFrame hf hof
  freed {g} _ hg := by rw [hg, Function.update_self]
  keep {g} _ hg := Function.update_of_ne hg ..
  mem {g} hmg hg := by
    refine eqOn_frameAt hf.aligned hmg.aligned (Ne.symm hg) ?_
    exact Mem.store_eqOn le_rfl (by rw [frameSize]; omega)

theorem walk_cons_of_child {m : Mem} {i c : Nat} (hc : child m t i = some c) (q : List Nat) :
    walk m t (i :: q) = walk m c q := by
  rw [walk, Radix.walk_cons, hc]
  rfl

theorem inSub_succ {m : Mem} {n g : Nat} : InSub m t (n + 1) g ↔
    g = t ∨ ∃ i < 512, ∃ c, child m t i = some c ∧ InSub m c n g := by
  constructor
  · rintro ⟨q, hlen, hlt, hw⟩
    cases q with
    | nil => exact .inl (Option.some.inj hw).symm
    | cons i q =>
      obtain ⟨c, hc, hw⟩ := Option.bind_eq_some_iff.mp hw
      exact .inr ⟨i, hlt i (by simp), c, hc, q, by simpa using hlen,
        fun j hj ↦ hlt j (by simp [hj]), hw⟩
  · rintro (rfl | ⟨i, hi, c, hc, q, hlen, hlt, hw⟩)
    · exact ⟨[], by simp, by simp, rfl⟩
    · exact ⟨i :: q, by simpa using hlen, by simpa using ⟨hi, hlt⟩,
        (walk_cons_of_child hc q).trans hw⟩

/-- The subtree below one entry of a held tree. -/
theorem HeldTree.child {n : Nat} {m : Mem} (h : HeldTree start own m t (n + 1)) {i c : Nat}
    (hi : i < 512) (hc : Jatuli.child m t i = some c) : HeldTree start own m c n where
  held hg := h.held (inSub_succ.mpr (.inr ⟨i, hi, c, hc, hg⟩))
  inj {q q' g} hlen hlen' hlt hlt' hw hw' := by
    have heq : i :: q = i :: q' := h.inj (by simpa using hlen) (by simpa using hlen')
      (by simpa using ⟨hi, hlt⟩) (by simpa using ⟨hi, hlt'⟩) ((walk_cons_of_child hc q).trans hw)
      ((walk_cons_of_child hc q').trans hw')
    exact (List.cons.inj heq).2

/-- The root of a held tree is not below itself. -/
theorem HeldTree.root_not_inSub {n : Nat} {m : Mem} (h : HeldTree start own m t (n + 1)) {i c : Nat}
    (hi : i < 512) (hc : Jatuli.child m t i = some c) : ¬ InSub m c n t := by
  rintro ⟨q, hlen, hlt, hw⟩
  have heq : [] = i :: q := h.inj (by simp) (by simpa using hlen) (by simp)
    (by simpa using ⟨hi, hlt⟩) rfl ((walk_cons_of_child hc q).trans hw)
  cases heq

/-- The subtrees below different entries of a held tree have no frame in common. -/
theorem HeldTree.not_inSub_both {n : Nat} {m : Mem} (h : HeldTree start own m t (n + 1))
    {i j c d g : Nat} (hi : i < 512) (hj : j < 512) (hij : i ≠ j)
    (hc : Jatuli.child m t i = some c) (hd : Jatuli.child m t j = some d) (hg : InSub m c n g) :
    ¬ InSub m d n g := by
  rintro ⟨q', hlen', hlt', hw'⟩
  obtain ⟨q, hlen, hlt, hw⟩ := hg
  have heq : i :: q = j :: q' := h.inj (by simpa using hlen) (by simpa using hlen')
    (by simpa using ⟨hi, hlt⟩) (by simpa using ⟨hj, hlt'⟩) ((walk_cons_of_child hc q).trans hw)
    ((walk_cons_of_child hd q').trans hw')
  exact hij (List.cons.inj heq).1

/-- Memory that agrees on the frames of a tree has the same tree there. -/
theorem walk_eq_of_inSub {m m' : Mem} {n : Nat}
    (hm : ∀ g, InSub m t n g → Set.EqOn m' m (frameAt g)) {q : List Nat} (hlen : q.length ≤ n)
    (hlt : ∀ i ∈ q, i < 512) : walk m' t q = walk m t q := by
  refine Radix.walk_congr q t fun p j q' hq u hu ↦ ?_
  subst hq
  refine child_congr (hm u ⟨p, ?_, fun i hi ↦ hlt i (by simp [hi]), hu⟩) (hlt j (by simp))
  rw [List.length_append] at hlen
  omega

theorem HeldTree.congr {m m' : Mem} {n : Nat} (h : HeldTree start own m t n)
    (hm : ∀ g, InSub m t n g → Set.EqOn m' m (frameAt g))
    (hown : ∀ g, InSub m t n g → own' g = own g) : HeldTree start own' m' t n where
  held {g} := by
    rintro ⟨q, hlen, hlt, hw⟩
    rw [walk_eq_of_inSub hm hlen hlt] at hw
    have hg : InSub m t n g := ⟨q, hlen, hlt, hw⟩
    rw [hown g hg]
    exact h.held hg
  inj hlen hlen' hlt hlt' hw hw' := by
    rw [walk_eq_of_inSub hm hlen hlt] at hw
    rw [walk_eq_of_inSub hm hlen' hlt'] at hw'
    exact h.inj hlen hlen' hlt hlt' hw hw'

/-- `free_subtree` frees the tables of a held tree and nothing else. -/
theorem Owned.freeSubtree : ∀ (n : Nat) {own : Nat → Owner} {s : Phys} {t : Nat},
    Owned strict start kernelL1 roots pages own s → HeldTree start own s.mem t n →
    ∃ own', Freed strict start kernelL1 roots pages own s (InSub s.mem t n) own' (freeSubtree n s t)
  | 0, own, s, t, h, ht => by
    obtain ⟨hmt, hot⟩ := ht.held ⟨[], by simp, by simp, rfl⟩
    refine ⟨_, (Freed.frame h hmt hot).congr fun g ↦ ⟨?_, ?_⟩⟩
    · rintro rfl
      exact ⟨[], by simp, by simp, rfl⟩
    · rintro ⟨q, hlen, -, hw⟩
      rw [List.length_eq_zero_iff.mp (Nat.le_zero.mp hlen)] at hw
      exact (Option.some.inj hw).symm
  | n + 1, own, s, t, h, ht => by
    -- the entries are visited in order; after `j` of them the first `j` subtrees are free
    have hloop : ∀ j ≤ entries, ∃ own', Freed strict start kernelL1 roots pages own s
        (fun g ↦ ∃ i < j, ∃ c, child s.mem t i = some c ∧ InSub s.mem c n g) own'
        ((List.range j).foldl (fun s i ↦
          let e := entry s.mem t i
          if e &&& descTable = descTable then Jatuli.freeSubtree n s (e &&& addrMask) else s)
          s) := by
      intro j hj
      rw [entries] at hj
      induction j with
      | zero => exact ⟨own, .refl h (by simp)⟩
      | succ j ih =>
        obtain ⟨own₁, h₁⟩ := ih (by omega)
        obtain ⟨hmt, hot⟩ := ht.held ⟨[], by simp, by simp, rfl⟩
        rw [List.range_succ, List.foldl_append, List.foldl_cons, List.foldl_nil]
        generalize (List.range j).foldl (fun s i ↦
          let e := entry s.mem t i
          if e &&& descTable = descTable then Jatuli.freeSubtree n s (e &&& addrMask) else s) s =
            s₁ at h₁
        have hsame : entry s₁.mem t j = entry s.mem t j := by
          refine entry_congr (h₁.mem hmt ?_) (by omega)
          rintro ⟨i, hi, c, hc, hsub⟩
          exact ht.root_not_inSub (by omega) hc hsub
        simp only [hsame]
        split
        · rename_i htab
          have hc : child s.mem t j = some (entry s.mem t j &&& addrMask) :=
            child_eq_some.mpr ⟨htab, rfl⟩
          have hfresh : ∀ g, InSub s.mem (entry s.mem t j &&& addrMask) n g →
              Managed start g ∧ ¬ ∃ i < j, ∃ c, child s.mem t i = some c ∧ InSub s.mem c n g := by
            refine fun g hg ↦ ⟨(ht.held (inSub_succ.mpr (.inr ⟨j, by omega, _, hc, hg⟩))).1, ?_⟩
            rintro ⟨i, hi, c, hci, hsub⟩
            exact ht.not_inSub_both (by omega) (by omega) (by omega) hci hc hsub hg
          have hmem : ∀ g, InSub s.mem (entry s.mem t j &&& addrMask) n g →
              Set.EqOn s₁.mem s.mem (frameAt g) := fun g hg ↦
            h₁.mem (hfresh g hg).1 (hfresh g hg).2
          obtain ⟨own₂, h₂⟩ := Owned.freeSubtree n h₁.owned
            ((ht.child (by omega) hc).congr hmem fun g hg ↦
              h₁.keep (hfresh g hg).1 (hfresh g hg).2)
          refine ⟨own₂, (h₁.trans h₂).congr fun g ↦ ⟨?_, ?_⟩⟩
          · rintro (⟨i, hi, c, hci, hsub⟩ | ⟨q, hlen, hlt, hw⟩)
            · exact ⟨i, by omega, c, hci, hsub⟩
            · rw [walk_eq_of_inSub hmem hlen hlt] at hw
              exact ⟨j, by omega, _, hc, q, hlen, hlt, hw⟩
          · rintro ⟨i, hi, c, hci, hsub⟩
            rcases Nat.lt_or_eq_of_le (Nat.le_of_lt_succ hi) with hlt | rfl
            · exact .inl ⟨i, hlt, c, hci, hsub⟩
            · obtain ⟨q, hlen, hlt, hw⟩ := hsub
              rw [hc] at hci
              cases hci
              exact .inr ⟨q, hlen, hlt, by rw [walk_eq_of_inSub hmem hlen hlt, hw]⟩
        · rename_i htab
          refine ⟨own₁, h₁.congr fun g ↦ ⟨?_, ?_⟩⟩
          · rintro ⟨i, hi, c, hci, hsub⟩
            exact ⟨i, by omega, c, hci, hsub⟩
          · rintro ⟨i, hi, c, hci, hsub⟩
            rcases Nat.lt_or_eq_of_le (Nat.le_of_lt_succ hi) with hlt | rfl
            · exact ⟨i, hlt, c, hci, hsub⟩
            · exact absurd (child_eq_some.mp hci).1 htab
    obtain ⟨own₁, h₁⟩ := hloop entries le_rfl
    obtain ⟨hmt, hot⟩ := ht.held ⟨[], by simp, by simp, rfl⟩
    have hnot : ¬ ∃ i < entries, ∃ c, child s.mem t i = some c ∧ InSub s.mem c n t := by
      rintro ⟨i, hi, c, hc, hsub⟩
      exact ht.root_not_inSub hi hc hsub
    refine ⟨_, (h₁.trans (Freed.frame h₁.owned hmt ((h₁.keep hmt hnot).trans hot))).congr
      fun g ↦ ?_⟩
    rw [inSub_succ, or_comm, entries]

theorem inTree_user (pid : Nat) {q : List Nat} (hlen : q.length ≤ 2) (hlt : ∀ i ∈ q, i < 512) :
    InTree (some pid) (userL0Idx :: q) :=
  ⟨Nat.succ_le_succ hlen, by simpa using ⟨by decide, hlt⟩, by simp [slotOf]⟩

/-- The tables of a process below its L1, once the space has ended. -/
theorem TreeOk.heldTree {m : Mem} (h : TreeOk strict start kernelL1 roots own m) {pid c : Nat}
    (hr : roots (some pid) = some r) (hc : child m r userL0Idx = some c)
    (hheld : ∀ g q, own g = .node (some pid) q → own' g = .held) : HeldTree start own' m c 2 := by
  have hnode : ∀ {q g}, q.length ≤ 2 → (∀ i ∈ q, i < 512) → walk m c q = some g →
      Managed start g ∧ own g = .node (some pid) (userL0Idx :: q) := by
    intro q g hlen hlt hw
    exact h.node hr (inTree_user pid hlen hlt) ((walk_cons_of_child hc q).trans hw)
  refine ⟨?_, fun hlen hlen' hlt hlt' hw hw' ↦ ?_⟩
  · rintro g ⟨q, hlen, hlt, hw⟩
    obtain ⟨hmg, hog⟩ := hnode hlen hlt hw
    exact ⟨hmg, hheld g _ hog⟩
  · have heq := (hnode hlen hlt hw).2.symm.trans (hnode hlen' hlt' hw').2
    cases heq
    rfl

/-- The tables a process can reach: its root and what hangs below slot 1 of it. -/
def TableOf (m : Mem) (r g : Nat) : Prop :=
  (∃ c, child m r userL0Idx = some c ∧ InSub m c 2 g) ∨ g = r

theorem TreeOk.node_of_tableOf {m : Mem} (h : TreeOk strict start kernelL1 roots own m)
    {pid g : Nat} (hr : roots (some pid) = some r) (hg : TableOf m r g) :
    ∃ q, own g = .node (some pid) q := by
  rcases hg with ⟨c, hc, q, hlen, hlt, hw⟩ | rfl
  · have hw' := (walk_cons_of_child hc q).trans hw
    exact ⟨_, (h.node hr (inTree_user pid hlen hlt) hw').2⟩
  · exact ⟨[], (h.node hr (.nil _) rfl).2⟩

theorem TreeOk.tableOf_of_node {m : Mem} (h : TreeOk strict start kernelL1 roots own m)
    (hs : strict) {pid g : Nat} {q : List Nat} (hr : roots (some pid) = some r)
    (hg : Managed start g) (hq : own g = .node (some pid) q) : TableOf m r g := by
  obtain ⟨-, hin⟩ := h.inSpace hg hq
  have hw := h.full hs hg hq hr
  cases q with
  | nil => exact .inr (Option.some.inj hw).symm
  | cons i q =>
    have hi : i = userL0Idx := hin.2.2 i (by simp)
    subst hi
    obtain ⟨c, hc, hw⟩ := Option.bind_eq_some_iff.mp hw
    exact .inl ⟨c, hc, q, Nat.le_of_succ_le_succ hin.1, fun j hj ↦ hin.2.1 j (by simp [hj]), hw⟩

/-- `free_address_space` frees the tables of the process that can be reached, and ends its
space. -/
theorem Owned.freeAddressSpace (h : Owned strict start kernelL1 roots pages own s) {pid : Nat}
    (hr : roots (some pid) = some r) :
    ∃ own', Owned strict start kernelL1 (Function.update roots (some pid) none) pages own'
        (freeAddressSpace s r) ∧
      (∀ g, Managed start g → (∀ q, own g ≠ .node (some pid) q) → own' g = own g ∧
        Set.EqOn (Jatuli.freeAddressSpace s r).mem s.mem (frameAt g)) ∧
      ∀ g q, Managed start g → own g = .node (some pid) q →
        own' g = .free ∨ own' g = .held ∧ ¬ strict := by
  obtain ⟨hmr, hor⟩ := h.tree.node hr (.nil _) rfl
  obtain ⟨own₁, h₁, hheld, hkeep⟩ := h.drop (some pid)
  -- the subtree in slot 1, if there is one
  obtain ⟨own₂, s₂, hs₂, h₂⟩ : ∃ own₂ s₂,
      (if entry s.mem r userL0Idx &&& descTable = descTable
        then Jatuli.freeSubtree 2 s (entry s.mem r userL0Idx &&& addrMask) else s) = s₂ ∧
      Freed strict start kernelL1 (Function.update roots (some pid) none) pages own₁ s
        (fun g ↦ ∃ c, child s.mem r userL0Idx = some c ∧ InSub s.mem c 2 g) own₂ s₂ := by
    split
    · rename_i htab
      have hc := child_eq_some.mpr ⟨htab, rfl⟩
      obtain ⟨own₂, h₂⟩ := Owned.freeSubtree 2 h₁ (h.tree.heldTree hr hc hheld)
      refine ⟨own₂, _, rfl, h₂.congr fun g ↦ ⟨fun hg ↦ ⟨_, hc, hg⟩, ?_⟩⟩
      rintro ⟨c, hc', hg⟩
      rw [hc] at hc'
      cases hc'
      exact hg
    · rename_i htab
      refine ⟨own₁, s, rfl, .refl h₁ ?_⟩
      rintro g ⟨c, hc, -⟩
      exact htab (child_eq_some.mp hc).1
  have hrnot : ¬ ∃ c, child s.mem r userL0Idx = some c ∧ InSub s.mem c 2 r := by
    rintro ⟨c, hc, q, hlen, hlt, hw⟩
    have hnode := h.tree.node hr (inTree_user pid hlen hlt) ((walk_cons_of_child hc q).trans hw)
    rw [hor] at hnode
    cases hnode.2
  have h₃ := h₂.trans (Freed.frame h₂.owned hmr ((h₂.keep hmr hrnot).trans (hheld r [] hor)))
  rw [Jatuli.freeAddressSpace]
  simp only [and_addrMask_of_aligned hmr.aligned hmr.lt, hs₂]
  refine ⟨_, h₃.owned, fun g hmg hg ↦ ?_, fun g q hmg hg ↦ ?_⟩
  · have hnot : ¬ TableOf s.mem r g := fun hP ↦ by
      obtain ⟨q, hq⟩ := h.tree.node_of_tableOf hr hP
      exact hg q hq
    exact ⟨(h₃.keep hmg hnot).trans (hkeep g hg), h₃.mem hmg hnot⟩
  · by_cases hP : TableOf s.mem r g
    · exact .inl (h₃.freed hmg hP)
    · refine .inr ⟨(h₃.keep hmg hP).trans (hheld g q hg), fun hs ↦ hP ?_⟩
      exact h.tree.tableOf_of_node hs hr hmg hg

/-! ## Unmapping a page -/

/-- `unmap_page_in` clears the entry of `va`, if there is one, and touches nothing but a table of
the space. -/
theorem Owned.unmapPageIn (h : Owned strict start kernelL1 roots pages own s)
    (hr : roots id = some r)
    {va : Nat} (hva : tableIndex va 39 = slotOf id) :
    Owned strict start kernelL1 roots pages own { s with mem := unmapPageIn s.mem r va } ∧
      walk (unmapPageIn s.mem r va) r (pagePath va) = none ∧
      ∀ g, Managed start g → (∀ q, own g ≠ .node id q) →
        Set.EqOn (unmapPageIn s.mem r va) s.mem (frameAt g) := by
  have hin : Inside id (tablePath va ++ [tableIndex va 12]) := inside_pagePath hva
  rw [Jatuli.unmapPageIn, walkVa_tablePath]
  cases ht : walk s.mem r (tablePath va) with
  | none =>
    refine ⟨h, ?_, fun _ _ _ _ _ ↦ rfl⟩
    rw [pagePath, walk_concat]
    simp only [ht, Option.bind_none]
  | some t =>
    obtain ⟨hcleared, hnone⟩ := h.clearLeaf hr rfl hin ht
    obtain ⟨hmt, hot⟩ := h.tree.node hr ⟨le_rfl, hin.of_append⟩ ht
    refine ⟨hcleared, hnone, fun g hmg hq ↦ ?_⟩
    have hne : t ≠ g := fun e ↦ hq _ (e ▸ hot)
    exact eqOn_frameAt hmt.aligned hmg.aligned hne (setEntry_eqOn (tableIndex_lt _ _))

/-- Unmapping and freeing the first page of a space. -/
theorem Owned.reclaimPage (h : Owned strict start kernelL1 roots pages own s)
    (hr : roots id = some r)
    {va : Nat} {rest : List (Nat × Nat)} (hpages : pages id = (va, f) :: rest) :
    (Managed start f ∧ own f = .page id) ∧
    Owned strict start kernelL1 roots (Function.update pages id rest) (Function.update own f .free)
      ({ s with mem := Jatuli.unmapPageIn s.mem r va }.freeFrame f) ∧
      ∀ g, Managed start g → g ≠ f → (∀ q, own g ≠ .node id q) →
        Set.EqOn ({ s with mem := Jatuli.unmapPageIn s.mem r va }.freeFrame f).mem s.mem
          (frameAt g) := by
  obtain ⟨h₁, hnone, hmem⟩ := h.unmapPageIn hr (h.slot id va f (by simp [hpages])).2
  have hun : ∀ r' path, roots id = some r' → path.length = 4 → Inside id path →
      walk (Jatuli.unmapPageIn s.mem r va) r' path ≠ some f := by
    intro r' path hr' hlen hin hw
    rw [hr] at hr'
    cases hr'
    obtain ⟨va', hva', hpath⟩ := h₁.leaf id r path f hr hlen hin hw
    have hnd := (h.page id).1
    rw [hpages, List.map_cons, List.nodup_cons] at hnd
    rw [hpages, List.mem_cons] at hva'
    rcases hva' with heq | hrest
    · cases heq
      rw [← hpath] at hw
      rw [hnone] at hw
      cases hw
    · exact hnd.1 (List.mem_map.mpr ⟨_, hrest, rfl⟩)
  obtain ⟨⟨hmf, hof⟩, h₂⟩ := h₁.dropPage hpages hun
  have hfree := h₂.freeFrame hmf (Function.update_self ..)
  rw [Function.update_idem] at hfree
  refine ⟨⟨hmf, hof⟩, hfree, fun g hmg hgf hq ↦ ?_⟩
  refine Set.EqOn.trans (eqOn_frameAt hmf.aligned hmg.aligned (Ne.symm hgf) ?_) (hmem g hmg hq)
  exact Mem.store_eqOn le_rfl (by rw [frameSize]; omega)

end Free

end Jatuli

import Jatuli.Progress

/-!
# The algebra of mapping and unmapping

What `map_page_in`, `unmap_page_in` and `translate` do with one another, for any set of address
spaces whose tables are frames of their own.  Nothing is assumed here of what the pages are, or of
who owns them: a set of roots is `WellFormed` with a free list when no table occurs twice, slot 0
apart, and no table is free.

Writing an entry of a table then matters only to the walks that go through that entry
(`WellFormed.walk_setEntry`), and everything follows from that: a table that `get_or_create` adds is
zeroed and translates nothing, and the last-level entry translates one page of one space.  The
result is `page_table_algebra`; the spaces of a running kernel are well-formed (`Inv.wellFormed`).
-/

set_option autoImplicit false

namespace Jatuli

/-- The path of a table below a root. -/
def IsPath (p : List Nat) : Prop := p.length ≤ 3 ∧ ∀ i ∈ p, i < 512

/-- A set of address spaces, given by their roots, with the free list `fs`. -/
structure WellFormed (roots : Set Nat) (fs : List Nat) (s : Phys) : Prop where
  linked : s.mem.Linked s.frames.head fs
  nodup : fs.Nodup
  free : ∀ f ∈ fs, f % 4096 = 0 ∧ f < 2 ^ 48
  root : ∀ r ∈ roots, r % 4096 = 0 ∧ r < 2 ^ 48
  /-- Tables are not free. -/
  used : ∀ {r p t}, r ∈ roots → IsPath p → walk s.mem r p = some t → t ∉ fs
  /-- Each table is a frame of its own: it has one place in one space, or in slot 0 of several. -/
  distinct : ∀ {r r' p p' t}, r ∈ roots → r' ∈ roots → IsPath p → IsPath p' →
    walk s.mem r p = some t → walk s.mem r' p' = some t → p = p' ∧ (r = r' ∨ p.head? = some 0)
  /-- Slot 0 is shared. -/
  shared : ∀ {r r'}, r ∈ roots → r' ∈ roots → child s.mem r 0 = child s.mem r' 0

/-- There is no block descriptor on the walk of `va`. -/
def Unblocked (m : Mem) (r va : Nat) : Prop :=
  ∀ p i q t, tablePath va = p ++ i :: q → walk m r p = some t → entry m t i &&& descValid ≠ 0 →
    entry m t i &&& descTable = descTable

/-- `x` lies in the page at `va`, as far as the tables can tell: they use the low 48 bits. -/
def InPage (va x : Nat) : Prop := x % 2 ^ 48 / 4096 = va / 4096

/-! ## Paths -/

theorem isPath_nil : IsPath [] := ⟨Nat.zero_le _, fun _ hi ↦ absurd hi List.not_mem_nil⟩

theorem IsPath.of_append {p q : List Nat} (h : IsPath (p ++ q)) : IsPath p := by
  refine ⟨?_, fun i hi ↦ h.2 i (List.mem_append_left _ hi)⟩
  have := h.1
  rw [List.length_append] at this
  omega

theorem head_of_append {p q : List Nat} (h : (p ++ q).head? ≠ some 0) : p.head? ≠ some 0 := by
  intro he
  rw [List.head?_append, he] at h
  exact h rfl

theorem isPath_tablePath (va : Nat) : IsPath (tablePath va) := ⟨le_rfl, fun _ ↦ tablePath_lt⟩

theorem pagePath_eq_iff {va x : Nat} (h : va < 2 ^ 48) :
    pagePath x = pagePath va ↔ InPage va x := by
  simp only [pagePath, tablePath, List.cons_append, List.nil_append, List.cons.injEq, and_true,
    tableIndex_eq, InPage]
  omega

/-- `translate` through the tree. -/
theorem translate_eq {m : Mem} {r : Nat} (hr : r % 4096 = 0 ∧ r < 2 ^ 48) (x : Nat) :
    translate m r x = (walk m r (tablePath x)).bind fun t ↦
      if entry m t (tableIndex x 12) &&& descValid = 0 then none
      else some ((entry m t (tableIndex x 12) &&& addrMask) ||| (x &&& 0xFFF)) := by
  rw [translate, l0Ptr, and_addrMask_of_aligned hr.1 hr.2, walkVa_tablePath]
  rfl

/-- No translation has changed, and no block has come to stand on a walk. -/
structure Unmoved (roots : Set Nat) (m m' : Mem) : Prop where
  translate : ∀ r ∈ roots, ∀ x, translate m' r x = translate m r x
  unblocked : ∀ r ∈ roots, ∀ va, Unblocked m r va → Unblocked m' r va

namespace Unmoved

variable {roots : Set Nat} {m m' m'' : Mem}

theorem refl (roots : Set Nat) (m : Mem) : Unmoved roots m m := ⟨fun _ _ _ ↦ rfl, fun _ _ _ hu ↦ hu⟩

theorem trans (h : Unmoved roots m m') (h' : Unmoved roots m' m'') : Unmoved roots m m'' :=
  ⟨fun r hr x ↦ (h'.translate r hr x).trans (h.translate r hr x),
    fun r hr va hu ↦ h'.unblocked r hr va (h.unblocked r hr va hu)⟩

/-- Where the tables and their entries are the same. -/
theorem of_walk (hroot : ∀ r ∈ roots, r % 4096 = 0 ∧ r < 2 ^ 48)
    (hwalk : ∀ r ∈ roots, ∀ p, IsPath p → walk m' r p = walk m r p)
    (hentry : ∀ r ∈ roots, ∀ p t i, IsPath p → i < 512 → walk m r p = some t →
      entry m' t i = entry m t i) : Unmoved roots m m' where
  translate r hr x := by
    rw [translate_eq (hroot r hr), translate_eq (hroot r hr), hwalk r hr _ (isPath_tablePath x)]
    refine Option.bind_congr fun u hu ↦ ?_
    rw [hentry r hr _ u _ (isPath_tablePath x) (tableIndex_lt _ _) hu]
  unblocked r hr va hu p i q t hpath ht := by
    have hp : IsPath (p ++ [i] ++ q) := by
      rw [List.append_assoc, List.singleton_append, ← hpath]
      exact isPath_tablePath va
    rw [hwalk r hr p hp.of_append.of_append] at ht
    rw [hentry r hr p t i hp.of_append.of_append (hp.2 i (by simp)) ht]
    exact hu p i q t hpath ht

end Unmoved

/-! ## Writing one entry -/

namespace WellFormed

variable {roots : Set Nat} {fs : List Nat} {s : Phys} {r t i v : Nat} {p : List Nat}

/-- The table at `p` below `r` is not met anywhere else, if it is not in slot 0. -/
theorem only (h : WellFormed roots fs s) (hr : r ∈ roots) (hp : IsPath p) (h0 : p.head? ≠ some 0)
    (ht : walk s.mem r p = some t) {r' u : Nat} {q : List Nat} (hr' : r' ∈ roots) (hq : IsPath q)
    (hu : walk s.mem r' q = some u) (hne : r' ≠ r ∨ q ≠ p) : u ≠ t := by
  rintro rfl
  obtain ⟨rfl, rfl | hhead⟩ := h.distinct hr hr' hp hq ht hu
  · simp at hne
  · exact h0 hhead

/-- **A written entry matters to the walks through it**, and to no other. -/
theorem walk_setEntry (h : WellFormed roots fs s) (hr : r ∈ roots) (hp : IsPath p)
    (h0 : p.head? ≠ some 0) (ht : walk s.mem r p = some t) (hi : i < 512) {r' : Nat} {q : List Nat}
    (hr' : r' ∈ roots) (hlen : q.length ≤ 4) (hlt : ∀ j ∈ q, j < 512)
    (hne : r' ≠ r ∨ ¬ p ++ [i] <+: q) :
    walk (setEntry s.mem t i v) r' q = walk s.mem r' q := by
  refine Radix.walk_congr q r' fun a j b hq u hu ↦ ?_
  subst hq
  have ha : IsPath a := by
    refine ⟨?_, fun j hj ↦ hlt j (List.mem_append_left _ hj)⟩
    rw [List.length_append, List.length_cons] at hlen
    omega
  by_cases hsame : r' = r ∧ a = p
  · -- the walk comes through the table, but not through the entry
    obtain ⟨rfl, rfl⟩ := hsame
    obtain rfl : u = t := Option.some.inj (hu.symm.trans ht)
    refine child_setEntry_ne fun hij ↦ ?_
    subst hij
    rcases hne with hne | hne
    · exact hne rfl
    · exact hne ⟨b, by simp⟩
  · have hut : u ≠ t := h.only hr hp h0 ht hr' ha hu (not_and_or.mp hsame)
    refine child_congr (eqOn_frameAt (walk_aligned (h.root r hr).1 ht)
      (walk_aligned (h.root r' hr').1 hu) hut.symm (setEntry_eqOn hi)) (hlt j (by simp))

/-- The free list does not notice. -/
theorem linked_setEntry (h : WellFormed roots fs s) (hr : r ∈ roots) (hp : IsPath p)
    (ht : walk s.mem r p = some t) (hi : i < 512) :
    (setEntry s.mem t i v).Linked s.frames.head fs := by
  refine h.linked.congr fun f hf ↦ Mem.load_eqOn (b := f) (k := frameSize) ?_ le_rfl ?_
  · have hne : t ≠ f := fun he ↦ h.used hr hp ht (he ▸ hf)
    exact eqOn_frameAt (walk_aligned (h.root r hr).1 ht) (h.free f hf).1 hne (setEntry_eqOn hi)
  · rw [frameSize]
    omega

/-- Neither does an entry of another table, or another entry of this one. -/
theorem entry_setEntry (h : WellFormed roots fs s) (hr : r ∈ roots) (hp : IsPath p)
    (h0 : p.head? ≠ some 0) (ht : walk s.mem r p = some t) (hi : i < 512) {r' u j : Nat}
    {q : List Nat} (hr' : r' ∈ roots) (hq : IsPath q) (hu : walk s.mem r' q = some u) (hj : j < 512)
    (hne : r' ≠ r ∨ q ++ [j] ≠ p ++ [i]) : entry (setEntry s.mem t i v) u j = entry s.mem u j := by
  by_cases hsame : r' = r ∧ q = p
  · obtain ⟨rfl, rfl⟩ := hsame
    obtain rfl : u = t := Option.some.inj (hu.symm.trans ht)
    refine entry_setEntry_ne fun hij ↦ ?_
    subst hij
    simp at hne
  · have hut : u ≠ t := h.only hr hp h0 ht hr' hq hu (not_and_or.mp hsame)
    exact entry_congr (eqOn_frameAt (walk_aligned (h.root r hr).1 ht)
      (walk_aligned (h.root r' hr').1 hu) hut.symm (setEntry_eqOn hi)) hj

/-! ## The last level -/

section Leaf

variable {va : Nat}

theorem tablePath_head (h : tableIndex va 39 ≠ 0) : (tablePath va).head? ≠ some 0 :=
  fun he ↦ h (Option.some.inj he)

/-- Writing a last-level entry keeps the tables. -/
theorem walk_leaf (h : WellFormed roots fs s) (hr : r ∈ roots) (hva : tableIndex va 39 ≠ 0)
    (ht : walk s.mem r (tablePath va) = some t) {r' : Nat} {q : List Nat} (hr' : r' ∈ roots)
    (hq : IsPath q) :
    walk (setEntry s.mem t (tableIndex va 12) v) r' q = walk s.mem r' q := by
  refine h.walk_setEntry hr (isPath_tablePath va) (tablePath_head hva) ht (tableIndex_lt _ _) hr'
    (by have := hq.1; omega) hq.2 (.inr fun hpre ↦ ?_)
  have hle := hpre.length_le
  have hlen : (tablePath va ++ [tableIndex va 12]).length = 4 := rfl
  have := hq.1
  omega

/-- **Writing a last-level entry** keeps the spaces well-formed, and every translation but that of
the one page in the one space. -/
theorem leaf (h : WellFormed roots fs s) (hr : r ∈ roots) (hva : tableIndex va 39 ≠ 0)
    (ht : walk s.mem r (tablePath va) = some t) (v : Nat) :
    WellFormed roots fs { s with mem := setEntry s.mem t (tableIndex va 12) v } ∧
      ∀ r' ∈ roots, ∀ x, (r' ≠ r ∨ pagePath x ≠ pagePath va) →
        translate (setEntry s.mem t (tableIndex va 12) v) r' x = translate s.mem r' x := by
  refine ⟨⟨h.linked_setEntry hr (isPath_tablePath va) ht (tableIndex_lt _ _), h.nodup, h.free,
    h.root, fun hr' hq hw ↦ ?_, fun h₁ h₂ hp hp' hw hw' ↦ ?_, fun h₁ h₂ ↦ ?_⟩,
    fun r' hr' x hne ↦ ?_⟩
  · rw [h.walk_leaf hr hva ht hr' hq] at hw
    exact h.used hr' hq hw
  · rw [h.walk_leaf hr hva ht h₁ hp] at hw
    rw [h.walk_leaf hr hva ht h₂ hp'] at hw'
    exact h.distinct h₁ h₂ hp hp' hw hw'
  · have hsingle : ∀ {r'}, r' ∈ roots → child (setEntry s.mem t (tableIndex va 12) v) r' 0 =
        child s.mem r' 0 := by
      intro r' hr'
      have hw := h.walk_leaf (v := v) hr hva ht hr' (q := [0]) ⟨by decide, by decide⟩
      simpa using hw
    rw [hsingle h₁, hsingle h₂]
    exact h.shared h₁ h₂
  · rw [translate_eq (h.root r' hr'), translate_eq (h.root r' hr'),
      h.walk_leaf hr hva ht hr' (isPath_tablePath x)]
    refine Option.bind_congr fun u hu ↦ ?_
    rw [h.entry_setEntry hr (isPath_tablePath va) (tablePath_head hva) ht (tableIndex_lt _ _) hr'
      (isPath_tablePath x) hu (tableIndex_lt _ _) hne]

end Leaf

/-! ## A new table -/

/-- `alloc_table` takes a frame off the free list and zeroes it, which nothing else notices. -/
theorem allocTable (h : WellFormed roots fs s) {n : Nat} {s' : Phys}
    (ha : allocTable s = some (n, s')) : ∃ fs', fs = n :: fs' ∧ WellFormed roots fs' s' ∧
      (∀ j < 512, entry s'.mem n j = 0) ∧
      (∀ r ∈ roots, ∀ p, IsPath p → walk s'.mem r p ≠ some n) ∧
      (∀ r ∈ roots, ∀ p t i, IsPath p → i < 512 → walk s.mem r p = some t →
        entry s'.mem t i = entry s.mem t i) ∧
      ∀ r ∈ roots, ∀ p, IsPath p → walk s'.mem r p = walk s.mem r p := by
  rw [Jatuli.allocTable] at ha
  obtain ⟨⟨f, s₁⟩, hpop, ha⟩ := Option.bind_eq_some_iff.mp ha
  obtain ⟨rfl, rfl⟩ := Prod.mk.inj (Option.some.inj ha)
  rw [Phys.allocFrame, Phys.pop] at hpop
  split_ifs at hpop with hhead
  obtain ⟨rfl, rfl⟩ := Prod.mk.inj (Option.some.inj hpop)
  obtain ⟨fs', rfl, hlinked⟩ := h.linked.exists_cons hhead
  obtain ⟨hnot, hnodup⟩ := List.nodup_cons.mp h.nodup
  have hframe := (h.free _ List.mem_cons_self).1
  have hother : ∀ g, g % 4096 = 0 → g ≠ s.frames.head →
      Set.EqOn (zeroTable s.mem s.frames.head entries) s.mem (frameAt g) :=
    fun g hg hne ↦ eqOn_frameAt hframe hg hne.symm (zeroTable_eqOn _ _ (by decide))
  have htable : ∀ {r p t}, r ∈ roots → IsPath p → walk s.mem r p = some t →
      Set.EqOn (zeroTable s.mem s.frames.head entries) s.mem (frameAt t) :=
    fun hr hp ht ↦ hother _ (walk_aligned (h.root _ hr).1 ht)
      fun he ↦ h.used hr hp ht (he ▸ List.mem_cons_self)
  have hwalk : ∀ r ∈ roots, ∀ p, IsPath p →
      walk (zeroTable s.mem s.frames.head entries) r p = walk s.mem r p := by
    refine fun r hr p hp ↦ Radix.walk_congr p r fun a j b hq u hu ↦ ?_
    subst hq
    exact child_congr (htable hr hp.of_append hu) (hp.2 j (by simp))
  refine ⟨fs', rfl, ⟨?_, hnodup, fun f hf ↦ h.free f (List.mem_cons_of_mem _ hf), h.root, ?_, ?_,
    ?_⟩, fun j hj ↦ entry_zeroTable _ _ hj, fun r hr p hp hw ↦ ?_,
    fun r hr p t i hp hi ht ↦ entry_congr (htable hr hp ht) hi, hwalk⟩
  · refine hlinked.congr fun f hf ↦ Mem.load_eqOn (hother f (h.free f (List.mem_cons_of_mem _ hf)).1
      fun he ↦ hnot (he ▸ hf)) le_rfl (by rw [frameSize]; omega)
  · intro r p t hr hp hw hmem
    rw [hwalk r hr p hp] at hw
    exact h.used hr hp hw (List.mem_cons_of_mem _ hmem)
  · intro r r' p p' t hr hr' hp hp' hw hw'
    rw [hwalk r hr p hp] at hw
    rw [hwalk r' hr' p' hp'] at hw'
    exact h.distinct hr hr' hp hp' hw hw'
  · intro r r' hr hr'
    rw [child_congr (htable hr isPath_nil rfl) (by decide),
      child_congr (htable hr' isPath_nil rfl) (by decide), h.shared hr hr']
  · rw [hwalk r hr p hp] at hw
    exact h.used hr hp hw List.mem_cons_self

/-- What is not a table is not written. -/
theorem eqOn_setEntry {n : Nat} (h : WellFormed roots fs s) (hr : r ∈ roots)
    (hp : IsPath (p ++ [i])) (ht : walk s.mem r p = some t) (hn : n % 4096 = 0 ∧ n < 2 ^ 48)
    (hnode : ∀ r ∈ roots, ∀ p, IsPath p → walk s.mem r p ≠ some n) :
    Set.EqOn (setEntry s.mem t i v) s.mem (frameAt n) :=
  eqOn_frameAt (walk_aligned (h.root r hr).1 ht) hn.1
    (fun he ↦ hnode r hr p hp.of_append (he ▸ ht)) (setEntry_eqOn (hp.2 i (by simp)))

section Attach

variable {n : Nat} (h : WellFormed roots fs s) (hr : r ∈ roots) (hp : IsPath (p ++ [i]))
  (h0 : (p ++ [i]).head? ≠ some 0) (ht : walk s.mem r p = some t)
  (hinvalid : entry s.mem t i &&& descValid = 0) (hn : n % 4096 = 0 ∧ n < 2 ^ 48)
  (hnode : ∀ r ∈ roots, ∀ p, IsPath p → walk s.mem r p ≠ some n)
  (hzero : ∀ j < 512, entry s.mem n j = 0)
include h hr hp h0 ht hinvalid hn hnode hzero

/-- The walks after the zeroed frame `n` has been attached at `p ++ [i]`: that one leads to it, and
none leads further. -/
theorem walk_attach {r' : Nat} {q : List Nat} (hr' : r' ∈ roots) (hlen : q.length ≤ 4)
    (hlt : ∀ j ∈ q, j < 512) :
    walk (setEntry s.mem t i (n ||| descTable)) r' q =
      if r' = r ∧ q = p ++ [i] then some n else walk s.mem r' q := by
  have hi : i < 512 := hp.2 i (by simp)
  have hhead := head_of_append h0
  by_cases hpre : r' = r ∧ p ++ [i] <+: q
  · obtain ⟨rfl, b, rfl⟩ := hpre
    have hold : walk s.mem r' (p ++ [i]) = none := by
      rw [walk_concat, ht, Option.bind_some, child_of_invalid hinvalid]
    have hnew : walk (setEntry s.mem t i (n ||| descTable)) r' (p ++ [i]) = some n := by
      rw [walk_concat, h.walk_setEntry hr hp.of_append hhead ht hi hr
        (by have := hp.of_append.1; omega)
        hp.of_append.2 (.inr fun hpre ↦ ?_), ht, Option.bind_some]
      · exact child_setEntry_or hn.1 hn.2 (by decide) (by decide) (by decide)
      · have := hpre.length_le
        rw [List.length_append, List.length_singleton] at this
        omega
    rw [walk_append _ _ (p ++ [i]), walk_append _ _ (p ++ [i]), hnew, hold, Option.bind_some,
      Option.bind_none]
    cases b with
    | nil => simp
    | cons j b =>
      have hj : child (setEntry s.mem t i (n ||| descTable)) n j = none := by
        have hj := hlt j (by simp)
        rw [child_congr (h.eqOn_setEntry hr hp ht hn hnode) hj, child_of_zero (hzero j hj)]
      rw [walk, Radix.walk_cons, hj, Option.bind_none, if_neg (by simp)]
  · rw [if_neg (show ¬ (r' = r ∧ q = p ++ [i]) from fun he ↦ hpre ⟨he.1, he.2 ▸ List.prefix_rfl⟩)]
    exact h.walk_setEntry hr hp.of_append hhead ht hi hr' hlen hlt (not_and_or.mp hpre)

/-- Attaching a zeroed frame keeps the spaces well-formed and all translations. -/
theorem attach (hfree : n ∉ fs) :
    WellFormed roots fs { s with mem := setEntry s.mem t i (n ||| descTable) } := by
  have hwalk : ∀ {r' q}, r' ∈ roots → IsPath q →
      walk (setEntry s.mem t i (n ||| descTable)) r' q =
        if r' = r ∧ q = p ++ [i] then some n else walk s.mem r' q :=
    fun hr' hq ↦ h.walk_attach hr hp h0 ht hinvalid hn hnode hzero hr' (by have := hq.1; omega) hq.2
  have hi : i < 512 := hp.2 i (by simp)
  refine ⟨h.linked_setEntry hr hp.of_append ht hi, h.nodup, h.free, h.root, ?_, ?_, ?_⟩
  · intro r' q u hr' hq hw
    rw [hwalk hr' hq] at hw
    split_ifs at hw
    · exact Option.some.inj hw ▸ hfree
    · exact h.used hr' hq hw
  · intro r₁ r₂ p₁ p₂ u h₁ h₂ hp₁ hp₂ hw₁ hw₂
    rw [hwalk h₁ hp₁] at hw₁
    rw [hwalk h₂ hp₂] at hw₂
    split_ifs at hw₁ hw₂ with hif₁ hif₂ hif₂
    · exact ⟨hif₁.2.trans hif₂.2.symm, .inl (hif₁.1.trans hif₂.1.symm)⟩
    · exact absurd (hw₂.trans hw₁.symm) (hnode r₂ h₂ p₂ hp₂)
    · exact absurd (hw₁.trans hw₂.symm) (hnode r₁ h₁ p₁ hp₁)
    · exact h.distinct h₁ h₂ hp₁ hp₂ hw₁ hw₂
  · have hslot : ∀ {r'}, r' ∈ roots → child (setEntry s.mem t i (n ||| descTable)) r' 0 =
        child s.mem r' 0 := by
      intro r' hr'
      have hw := hwalk hr' (q := [0]) ⟨by decide, by decide⟩
      rw [if_neg (show ¬ (r' = r ∧ [0] = p ++ [i]) from fun he ↦ h0 (he.2 ▸ rfl))] at hw
      simpa using hw
    intro r₁ r₂ h₁ h₂
    rw [hslot h₁, hslot h₂, h.shared h₁ h₂]

/-- And nothing is translated that was not before. -/
theorem attach_unmoved : Unmoved roots s.mem (setEntry s.mem t i (n ||| descTable)) := by
  have hwalk : ∀ {r' q}, r' ∈ roots → IsPath q →
      walk (setEntry s.mem t i (n ||| descTable)) r' q =
        if r' = r ∧ q = p ++ [i] then some n else walk s.mem r' q :=
    fun hr' hq ↦ h.walk_attach hr hp h0 ht hinvalid hn hnode hzero hr' (by have := hq.1; omega) hq.2
  have hi : i < 512 := hp.2 i (by simp)
  have hfresh : ∀ j < 512, entry (setEntry s.mem t i (n ||| descTable)) n j = 0 := fun j hj ↦ by
    rw [entry_congr (h.eqOn_setEntry hr hp ht hn hnode) hj, hzero j hj]
  have hentry : ∀ {r' q u j}, r' ∈ roots → IsPath q → j < 512 → walk s.mem r' q = some u →
      r' ≠ r ∨ q ++ [j] ≠ p ++ [i] →
      entry (setEntry s.mem t i (n ||| descTable)) u j = entry s.mem u j :=
    fun hr' hq hj hu ↦ h.entry_setEntry hr hp.of_append (head_of_append h0) ht hi hr' hq hu hj
  refine ⟨fun r' hr' x ↦ ?_, fun r' hr' va hu q j b u hpath hw hvalid ↦ ?_⟩
  · rw [translate_eq (h.root r' hr'), translate_eq (h.root r' hr'), hwalk hr' (isPath_tablePath x)]
    split_ifs with hif
    · -- where the table is new, nothing was mapped and nothing is
      obtain ⟨rfl, hx⟩ := hif
      rw [Option.bind_some, hfresh _ (tableIndex_lt _ _), hx, walk_concat, ht, Option.bind_some,
        child_of_invalid hinvalid]
      rfl
    · refine Option.bind_congr fun u hu ↦ ?_
      rw [hentry hr' (isPath_tablePath x) (tableIndex_lt _ _) hu (.inr fun he ↦ ?_)]
      have hlen := congrArg List.length he
      have := hp.1
      rw [List.length_append, List.length_singleton, show (tablePath x).length = 3 from rfl] at hlen
      omega
  · have hq : IsPath (q ++ [j] ++ b) := by
      rw [List.append_assoc, List.singleton_append, ← hpath]
      exact isPath_tablePath va
    have hj : j < 512 := hq.2 j (by simp)
    rw [hwalk hr' hq.of_append.of_append] at hw
    split_ifs at hw with hif
    · obtain rfl := Option.some.inj hw
      rw [hfresh j hj] at hvalid
      exact absurd rfl hvalid
    · by_cases hsame : r' = r ∧ q ++ [j] = p ++ [i]
      · obtain ⟨rfl, hqp⟩ := hsame
        obtain ⟨rfl, hji⟩ := List.append_inj' hqp rfl
        obtain rfl := List.singleton_inj.mp hji
        obtain rfl : u = t := Option.some.inj (hw.symm.trans ht)
        rw [entry_setEntry_same (or_lt_of_lt hn.2 (by decide))]
        exact or_descTable n
      · rw [hentry hr' hq.of_append.of_append hj hw (not_and_or.mp hsame)] at hvalid ⊢
        exact hu q j b u hpath hw hvalid

end Attach

/-! ## Building and mapping -/

/-- `get_or_create` returns the next table, an old one or a new one. -/
theorem getOrCreate (h : WellFormed roots fs s) (hr : r ∈ roots) (hp : IsPath (p ++ [i]))
    (h0 : (p ++ [i]).head? ≠ some 0) (ht : walk s.mem r p = some t) {n : Nat} {s' : Phys}
    (hg : getOrCreate s t i = some (n, s')) :
    (∃ used fs', fs = used ++ fs' ∧ used.length ≤ 1 ∧ WellFormed roots fs' s') ∧
      Unmoved roots s.mem s'.mem ∧ walk s'.mem r (p ++ [i]) = some n := by
  rw [Jatuli.getOrCreate] at hg
  dsimp only at hg
  split_ifs at hg with hvalid htable
  · obtain ⟨rfl, rfl⟩ := Prod.mk.inj (Option.some.inj hg)
    refine ⟨⟨[], fs, rfl, Nat.zero_le _, h⟩, .refl .., ?_⟩
    rw [walk_concat, ht, Option.bind_some]
    exact child_eq_some.mpr ⟨htable, rfl⟩
  · obtain ⟨⟨n', s₁⟩, ha, hg⟩ := Option.bind_eq_some_iff.mp hg
    obtain ⟨rfl, rfl⟩ := Prod.mk.inj (Option.some.inj hg)
    obtain ⟨fs', rfl, h₁, hzero, hnode, hentry, hwalk⟩ := h.allocTable ha
    have ht₁ : walk s₁.mem r p = some t := by rw [hwalk r hr p hp.of_append, ht]
    have hinvalid : entry s₁.mem t i &&& descValid = 0 := by
      rw [hentry r hr p t i hp.of_append (hp.2 i (by simp)) ht]
      exact not_not.mp hvalid
    have hn := h.free n' List.mem_cons_self
    have hnot := (List.nodup_cons.mp h.nodup).1
    refine ⟨⟨[n'], fs', rfl, le_rfl, h₁.attach hr hp h0 ht₁ hinvalid hn hnode hzero hnot⟩,
      (Unmoved.of_walk h.root hwalk hentry).trans
        (h₁.attach_unmoved hr hp h0 ht₁ hinvalid hn hnode hzero), ?_⟩
    rw [h₁.walk_attach hr hp h0 ht₁ hinvalid hn hnode hzero hr (by have := hp.1; omega) hp.2,
      if_pos ⟨rfl, rfl⟩]

theorem getOrCreate_isSome (h : WellFormed roots fs s) (hfs : 0 < fs.length)
    (htype : entry s.mem t i &&& descValid ≠ 0 → entry s.mem t i &&& descTable = descTable) :
    ∃ n s', Jatuli.getOrCreate s t i = some (n, s') := by
  rw [Jatuli.getOrCreate]
  dsimp only
  split_ifs with hvalid htable
  · exact ⟨_, _, rfl⟩
  · exact absurd (htype hvalid) htable
  · obtain ⟨f, fs', rfl⟩ := List.exists_cons_of_length_pos hfs
    have hhead : s.frames.head ≠ 0 := by
      rw [h.linked.1]
      exact h.linked.2.1
    simp only [Jatuli.allocTable, Phys.allocFrame, Phys.pop, if_neg hhead, Option.bind_eq_bind,
      Option.bind_some]
    exact ⟨_, _, rfl⟩

section Map

variable {va pa flags : Nat}

/-- The three levels of `map_page_in`. -/
theorem mapPageIn_eq_some {s' : Phys} (h : WellFormed roots fs s) (hr : r ∈ roots)
    (hva : tableIndex va 39 ≠ 0) (hm : mapPageIn s r va pa flags = some s') :
    ∃ t s₁, (∃ used fs', fs = used ++ fs' ∧ WellFormed roots fs' s₁) ∧ Unmoved roots s.mem s₁.mem ∧
      walk s₁.mem r (tablePath va) = some t ∧
      s' = { s₁ with
        mem := setEntry s₁.mem t (tableIndex va 12) ((pa &&& addrMask) ||| flags) } := by
  rw [mapPageIn] at hm
  obtain ⟨⟨l1, s₁⟩, hg₁, hm⟩ := Option.bind_eq_some_iff.mp hm
  obtain ⟨⟨l2, s₂⟩, hg₂, hm⟩ := Option.bind_eq_some_iff.mp hm
  obtain ⟨⟨l3, s₃⟩, hg₃, hm⟩ := Option.bind_eq_some_iff.mp hm
  have hpath := isPath_tablePath va
  obtain ⟨⟨used₁, fs₁, rfl, -, h₁⟩, hu₁, hw₁⟩ := h.getOrCreate (p := []) hr
    (IsPath.of_append (q := [tableIndex va 30, tableIndex va 21]) hpath)
      (by simpa using hva) rfl hg₁
  obtain ⟨⟨used₂, fs₂, rfl, -, h₂⟩, hu₂, hw₂⟩ := h₁.getOrCreate (p := [tableIndex va 39]) hr
    (IsPath.of_append (q := [tableIndex va 21]) hpath) (by simpa using hva) hw₁ hg₂
  obtain ⟨⟨used₃, fs₃, rfl, -, h₃⟩, hu₃, hw₃⟩ :=
    h₂.getOrCreate hr hpath (by simpa [tablePath] using hva)
    hw₂ hg₃
  refine ⟨l3, s₃, ⟨used₁ ++ used₂ ++ used₃, fs₃, by simp, h₃⟩, (hu₁.trans hu₂).trans hu₃, hw₃, ?_⟩
  exact (Option.some.inj hm).symm

/-- Three free frames are enough where no block stands in the way. -/
theorem mapPageIn_isSome (h : WellFormed roots fs s) (hr : r ∈ roots) (hva : tableIndex va 39 ≠ 0)
    (hfree : Unblocked s.mem r va) (hfs : 3 ≤ fs.length) (pa flags : Nat) :
    ∃ s', mapPageIn s r va pa flags = some s' := by
  have hpath := isPath_tablePath va
  obtain ⟨l1, s₁, hg₁⟩ := h.getOrCreate_isSome (by omega) (hfree [] _ _ r rfl rfl)
  obtain ⟨⟨used₁, fs₁, rfl, hlen₁, h₁⟩, hu₁, hw₁⟩ := h.getOrCreate (p := []) hr
    (IsPath.of_append (q := [tableIndex va 30, tableIndex va 21]) hpath)
      (by simpa using hva) rfl hg₁
  rw [List.length_append] at hfs
  obtain ⟨l2, s₂, hg₂⟩ := h₁.getOrCreate_isSome (by omega)
    (hu₁.unblocked r hr va hfree [tableIndex va 39] _ _ l1 rfl hw₁)
  obtain ⟨⟨used₂, fs₂, rfl, hlen₂, h₂⟩, hu₂, hw₂⟩ := h₁.getOrCreate (p := [tableIndex va 39]) hr
    (IsPath.of_append (q := [tableIndex va 21]) hpath) (by simpa using hva) hw₁ hg₂
  rw [List.length_append] at hfs
  obtain ⟨l3, s₃, hg₃⟩ := h₂.getOrCreate_isSome (by omega) ((hu₁.trans hu₂).unblocked r hr va hfree
    [tableIndex va 39, tableIndex va 30] _ _ l2 rfl hw₂)
  simp only [mapPageIn, hg₁, hg₂, hg₃, Option.bind_eq_bind, Option.bind_some]
  exact ⟨_, rfl⟩

end Map

end WellFormed

/-- What `unmap_page_in` does: it writes zero where the walk ends, if it does. -/
theorem unmapPageIn_cases (m : Mem) (r va : Nat) :
    (walk m r (tablePath va) = none ∧ unmapPageIn m r va = m) ∨
      ∃ t, walk m r (tablePath va) = some t ∧
        unmapPageIn m r va = setEntry m t (tableIndex va 12) 0 := by
  rw [unmapPageIn, walkVa_tablePath]
  cases walk m r (tablePath va) with
  | none => exact .inl ⟨rfl, rfl⟩
  | some t => exact .inr ⟨t, rfl, rfl⟩

/-! ## The algebra -/

/-- **Mapping and unmapping a page.**  In any well-formed set of address spaces, mapping a page of
slot 1 makes every address in it translate to the given frame and changes no other translation of
this or any other space, whatever tables had to be created for it; and it succeeds if there is no
block on the way and there are three free frames for tables.  Unmapping takes away exactly the
translations of the page, and where there is no entry it does nothing at all. -/
theorem page_table_algebra {roots : Set Nat} {fs : List Nat} {s : Phys} (h : WellFormed roots fs s)
    {r va : Nat} (hr : r ∈ roots) (hva : va % 4096 = 0) (hslot : va >>> 39 = userL0Idx) :
    (∀ pa flags, pa % 4096 = 0 → pa < 2 ^ 48 → PageFlags flags →
      (Unblocked s.mem r va → 3 ≤ fs.length → ∃ s', mapPageIn s r va pa flags = some s') ∧
      ∀ s', mapPageIn s r va pa flags = some s' →
        (∃ used fs', fs = used ++ fs' ∧ WellFormed roots fs' s') ∧
        (∀ x, InPage va x → translate s'.mem r x = some (pa + x % 4096)) ∧
        (∀ x, ¬ InPage va x → translate s'.mem r x = translate s.mem r x) ∧
        ∀ r' ∈ roots, r' ≠ r → ∀ x, translate s'.mem r' x = translate s.mem r' x) ∧
    (WellFormed roots fs { s with mem := unmapPageIn s.mem r va } ∧
      (∀ x, InPage va x → translate (unmapPageIn s.mem r va) r x = none) ∧
      (∀ x, ¬ InPage va x → translate (unmapPageIn s.mem r va) r x = translate s.mem r x) ∧
      (∀ r' ∈ roots, r' ≠ r → ∀ x, translate (unmapPageIn s.mem r va) r' x = translate s.mem r' x) ∧
      ((∀ t, walk s.mem r (tablePath va) = some t → entry s.mem t (tableIndex va 12) = 0) →
        unmapPageIn s.mem r va = s.mem)) := by
  have hlt : va < 2 ^ 48 := by
    rw [Nat.shiftRight_eq_div_pow, show userL0Idx = 1 by decide] at hslot
    omega
  have h39 : tableIndex va 39 ≠ 0 := by
    rw [tableIndex, hslot]
    decide
  have hroot := h.root r hr
  have hother : ∀ {r' x}, r' ∈ roots → ¬ InPage va x → r' ≠ r ∨ pagePath x ≠ pagePath va :=
    fun _ hx ↦ .inr fun he ↦ hx ((pagePath_eq_iff hlt).mp he)
  refine ⟨fun pa flags hpa hpalt hflags ↦
    ⟨fun hfree hfs ↦ h.mapPageIn_isSome hr h39 hfree hfs pa flags, fun s' hm ↦ ?_⟩, ?_⟩
  · obtain ⟨t, s₁, ⟨used, fs', hfs, h₁⟩, hun, ht, rfl⟩ := h.mapPageIn_eq_some hr h39 hm
    obtain ⟨h₂, hkeep⟩ := h₁.leaf hr h39 ht ((pa &&& addrMask) ||| flags)
    refine ⟨⟨used, fs', hfs, h₂⟩, fun x hx ↦ ?_, fun x hx ↦ ?_, fun r' hr' hne x ↦ ?_⟩
    · obtain ⟨htable, hindex⟩ := List.append_inj' ((pagePath_eq_iff hlt).mpr hx) rfl
      rw [translate_eq hroot, htable, h₁.walk_leaf hr h39 ht hr (isPath_tablePath va), ht,
        List.singleton_inj.mp hindex, Option.bind_some, and_addrMask_of_aligned hpa hpalt,
        entry_setEntry_same (or_lt_of_lt hpalt hflags.lt),
        if_neg (valid_of_table (or_and_three hpa hflags.type)),
        or_and_addrMask hpa hpalt hflags.addr, or_and_low hpa]
    · exact (hkeep r hr x (hother hr hx)).trans (hun.translate r hr x)
    · exact (hkeep r' hr' x (.inl hne)).trans (hun.translate r' hr' x)
  · rcases unmapPageIn_cases s.mem r va with ⟨hw, hum⟩ | ⟨t, ht, hum⟩
    · rw [hum]
      refine ⟨h, fun x hx ↦ ?_, fun x hx ↦ rfl, fun r' hr' hne x ↦ rfl, fun _ ↦ rfl⟩
      rw [translate_eq hroot, (List.append_inj' ((pagePath_eq_iff hlt).mpr hx) rfl).1, hw,
        Option.bind_none]
    · rw [hum]
      obtain ⟨h₂, hkeep⟩ := h.leaf hr h39 ht 0
      refine ⟨h₂, fun x hx ↦ ?_, fun x hx ↦ hkeep r hr x (hother hr hx),
        fun r' hr' hne x ↦ hkeep r' hr' x (.inl hne), fun hnever ↦ ?_⟩
      · obtain ⟨htable, hindex⟩ := List.append_inj' ((pagePath_eq_iff hlt).mpr hx) rfl
        rw [translate_eq hroot, htable, h.walk_leaf hr h39 ht hr (isPath_tablePath va), ht,
          List.singleton_inj.mp hindex, Option.bind_some, entry_setEntry_same (by decide)]
        rfl
      · rw [← hnever t ht]
        exact Mem.store_load ..

/-! ## The spaces of a kernel -/

section Kernel

variable {strict : Prop} {L : Layout} {own : Nat → Owner} {k : Kernel}

/-- Each table is in the tree of one space: the one whose root the walk starts from or, in slot 0,
the kernel's. -/
theorem Inv.node_of_walk (h : Inv strict L own k) {id : Option Nat} {r t : Nat} {p : List Nat}
    (hr : k.roots id = some r) (hp : IsPath p) (hw : walk k.mem r p = some t) :
    Managed L.start t ∧ (own t = .node id p ∨ p.head? = some 0 ∧ own t = .node none p) := by
  cases p with
  | nil =>
    obtain ⟨hm, ho⟩ := h.owned.tree.node hr (.nil id) hw
    exact ⟨hm, .inl ho⟩
  | cons j p =>
    have hin : ∀ {id'}, j = slotOf id' → InTree id' (j :: p) :=
      fun hj ↦ ⟨hp.1, hp.2, fun i hi ↦ (Option.some.inj hi).symm.trans hj⟩
    by_cases h0 : j = 0
    · subst h0
      rw [h.walk_slot0 hr] at hw
      obtain ⟨hm, ho⟩ := h.owned.tree.node (show k.roots none = _ from rfl) (hin rfl) hw
      exact ⟨hm, .inr ⟨rfl, ho⟩⟩
    · by_cases hj : j = slotOf id
      · obtain ⟨hm, ho⟩ := h.owned.tree.node hr (hin hj) hw
        exact ⟨hm, .inl ho⟩
      · rw [walk, Radix.walk_cons, h.owned.tree.slots hr (hp.2 j (by simp)) h0 hj] at hw
        cases hw

/-- **The address spaces of a kernel are well-formed.** -/
theorem Inv.wellFormed (h : Inv strict L own k) : ∃ fs, fs.length = k.phys.frames.freeCount ∧
    WellFormed { r | ∃ id, k.roots id = some r } fs k.phys := by
  obtain ⟨fs, hlinked, hnodup, hlen, hmem⟩ := h.owned.free
  refine ⟨fs, hlen, hlinked, hnodup, fun f hf ↦ ?_, ?_, ?_, ?_, ?_⟩
  · have hm := ((hmem f).mp hf).1
    exact ⟨hm.aligned, hm.lt⟩
  · rintro r ⟨id, hr⟩
    have hm := (h.node_of_walk hr isPath_nil rfl).1
    exact ⟨hm.aligned, hm.lt⟩
  · rintro r p t ⟨id, hr⟩ hp hw hf
    have hfree := ((hmem t).mp hf).2
    rcases (h.node_of_walk hr hp hw).2 with ho | ⟨-, ho⟩
    · rw [hfree] at ho
      cases ho
    · rw [hfree] at ho
      cases ho
  · rintro r r' p p' t ⟨id, hr⟩ ⟨id', hr'⟩ hp hp' hw hw'
    have h₁ := (h.node_of_walk hr hp hw).2
    have h₂ := (h.node_of_walk hr' hp' hw').2
    rcases h₁ with h₁ | ⟨h0, h₁⟩
    · rcases h₂ with h₂ | ⟨h0, h₂⟩
      · obtain ⟨rfl, rfl⟩ := Owner.node.inj (h₁.symm.trans h₂)
        exact ⟨rfl, .inl (Option.some.inj (hr.symm.trans hr'))⟩
      · obtain ⟨rfl, rfl⟩ := Owner.node.inj (h₁.symm.trans h₂)
        exact ⟨rfl, .inr h0⟩
    · rcases h₂ with h₂ | ⟨-, h₂⟩
      · exact ⟨(Owner.node.inj (h₁.symm.trans h₂)).2, .inr h0⟩
      · exact ⟨(Owner.node.inj (h₁.symm.trans h₂)).2, .inr h0⟩
  · rintro r r' ⟨id, hr⟩ ⟨id', hr'⟩
    rw [h.slot0_child hr, h.slot0_child hr']

/-- In a process's slot there are no blocks. -/
theorem Inv.unblocked (h : Inv True L own k) {pid r va : Nat} (hr : k.roots (some pid) = some r)
    (hslot : tableIndex va 39 = userL0Idx) : Unblocked k.mem r va := by
  intro p i q t hpath ht
  have hin : InTree (some pid) (p ++ [i] ++ q) := by
    rw [List.append_assoc, List.singleton_append, ← hpath]
    exact ⟨le_rfl, (inside_pagePath hslot).of_append⟩
  have := hin.of_append.of_append.1
  exact h.owned.tree.typed trivial hr this hin.of_append.2 trivial ht

end Kernel

/-- The page after that of the image is mapped, and the image's own page stays where it is. -/
theorem map_second_page : ∃ (k : Kernel) (p : Process) (s' : Phys), k.processes[0]? = some p ∧
    mapPageIn k.phys p.ttbr0 (userBase + 4096) ramBase pageUserRw = some s' ∧
    translate s'.mem p.ttbr0 (userBase + 4100) = some (ramBase + 4) ∧
    translate s'.mem p.ttbr0 userBase = translate k.mem p.ttbr0 userBase := by
  obtain ⟨k, hb, hps, hc⟩ := bootKernel_isSome ramBase 13 (by decide) (by decide) (fun _ ↦ 0) 0 []
  obtain ⟨L, own, -, h⟩ := Inv.boot (by decide) (by simp) hb
  obtain ⟨root, s, frames, s₁, own₁, -, -, -, hc₁, h₁⟩ :=
    h.newProcess inUserSlot_pageImage_userBase plan_pageImage_userBase hc
  obtain ⟨k₁, hk₁⟩ : ∃ k₁ : Kernel, k₁ = { k with
    phys := s₁, processes := k.processes ++ [Process.fresh root (pageLoaded userBase) frames] } :=
    ⟨_, rfl⟩
  rw [← hk₁] at h₁
  have hp : k₁.processes[0]? = some (Process.fresh root (pageLoaded userBase) frames) := by
    rw [hk₁, hps]
    rfl
  have hroot : k₁.roots (some 0) = some root := Inv.root_of_live hp rfl
  obtain ⟨fs, hlen, hwf⟩ := h₁.wellFormed
  have halg := page_table_algebra hwf ⟨some 0, hroot⟩
    (show (userBase + 4096) % 4096 = 0 by decide) (by decide)
  obtain ⟨hsome, hmap⟩ := halg.1 ramBase pageUserRw (by decide) (by decide) pageFlags_userRw
  have hfs : 3 ≤ fs.length := by
    rw [hlen, hk₁]
    exact Nat.le_of_succ_le (processFrames_le hc hc₁)
  obtain ⟨s', hs'⟩ := hsome (h₁.unblocked hroot (by decide)) hfs
  obtain ⟨-, hin, hout, -⟩ := hmap s' hs'
  refine ⟨k₁, _, s', hp, hs', ?_, ?_⟩
  · rw [show (Process.fresh root (pageLoaded userBase) frames).ttbr0 = root from rfl,
      hin (userBase + 4100) (by unfold InPage; decide)]
    rfl
  · exact hout userBase (by unfold InPage; decide)

end Jatuli

import Jatuli.Lib.Radix
import Jatuli.Mmu

/-!
# Page tables as trees

What the functions of `Jatuli.Mmu` do to the tree of tables that hangs below a root.  `child` is
the table (or, at the last level, the page) behind one entry, and `walk` follows a path of indices.
A frame is the block of 4096 bytes at an aligned address, and an entry is a matter of its own frame
only.
-/

set_option autoImplicit false

namespace Jatuli

/-! ## Frames as blocks of memory -/

/-- The addresses of the frame at `f`. -/
def frameAt (f : Nat) : Set Nat := Set.Ico f (f + frameSize)

theorem mem_frameAt {f x : Nat} : x ∈ frameAt f ↔ f ≤ x ∧ x < f + 4096 := Iff.rfl

/-- A frame of zeros holds no other word. -/
theorem load_of_zero_frame {m : Mem} {f off n : Nat} (h : ∀ x ∈ frameAt f, m x = 0)
    (hoff : off + n ≤ 4096) : m.load (f + off) n = 0 :=
  Mem.load_of_zero fun _ _ ↦ h _ (mem_frameAt.mpr ⟨by omega, by omega⟩)

/-- Different aligned frames have no address in common. -/
theorem frameAt_disjoint {f g x : Nat} (hf : f % 4096 = 0) (hg : g % 4096 = 0) (hne : f ≠ g)
    (hx : x ∈ frameAt f) : x ∉ frameAt g := by
  rw [mem_frameAt] at *
  omega

/-- A write confined to one frame leaves every other one alone. -/
theorem eqOn_frameAt {m m' : Mem} {f g : Nat} (hf : f % 4096 = 0) (hg : g % 4096 = 0)
    (hne : f ≠ g) (h : Set.EqOn m' m (frameAt f)ᶜ) : Set.EqOn m' m (frameAt g) :=
  fun _ hx ↦ h (frameAt_disjoint hg hf hne.symm hx)

/-! ## Indices and descriptors -/

theorem tableIndex_eq (va shift : Nat) : tableIndex va shift = va / 2 ^ shift % 512 := by
  rw [tableIndex, Nat.shiftRight_eq_div_pow, show 0x1FF = 2 ^ 9 - 1 from rfl,
    Nat.and_two_pow_sub_one_eq_mod]

theorem tableIndex_lt (va shift : Nat) : tableIndex va shift < 512 := by
  rw [tableIndex_eq]
  exact Nat.mod_lt _ (by decide)

/-- The output address is bits 12 to 47. -/
theorem and_addrMask (x : Nat) : x &&& addrMask = x / 2 ^ 12 % 2 ^ 36 * 2 ^ 12 := by
  have hmask : addrMask = (2 ^ 36 - 1) <<< 12 := by decide
  refine Nat.eq_of_testBit_eq fun i ↦ ?_
  rw [hmask, ← Nat.and_two_pow_sub_one_eq_mod, ← Nat.shiftRight_eq_div_pow, ← Nat.shiftLeft_eq,
    Nat.testBit_and, Nat.testBit_shiftLeft, Nat.testBit_shiftLeft, Nat.testBit_and,
    Nat.testBit_shiftRight]
  by_cases hi : 12 ≤ i
  · rw [show 12 + (i - 12) = i by omega]
    simp [hi]
  · simp [hi]

/-- An aligned address that fits is its own output address. -/
theorem and_addrMask_of_aligned {f : Nat} (h : f % 4096 = 0) (hlt : f < 2 ^ 48) :
    f &&& addrMask = f := by
  rw [and_addrMask, Nat.mod_eq_of_lt (by omega)]
  omega

theorem and_three_of_aligned {f : Nat} (h : f % 4096 = 0) : f &&& 3 = 0 := by
  rw [show 3 = 2 ^ 2 - 1 from rfl, Nat.and_two_pow_sub_one_eq_mod]
  omega

/-- A descriptor whose type bits are a table's is valid. -/
theorem valid_of_table {e : Nat} (h : e &&& descTable = descTable) : e &&& descValid ≠ 0 := by
  rw [descTable, show 0b11 = 2 ^ 2 - 1 from rfl, Nat.and_two_pow_sub_one_eq_mod] at h
  rw [descValid, Nat.and_one_is_mod]
  omega

/-- An aligned address has none of the low bits. -/
theorem and_low_of_aligned {f x : Nat} (hf : f % 4096 = 0) (hx : x < 2 ^ 12) : f &&& x = 0 := by
  rw [show f = f / 2 ^ 12 * 2 ^ 12 by omega, ← Nat.shiftLeft_eq]
  refine Nat.eq_of_testBit_eq fun i ↦ ?_
  rw [Nat.testBit_and, Nat.testBit_shiftLeft, Nat.zero_testBit]
  by_cases hi : 12 ≤ i
  · rw [Nat.testBit_lt_two_pow (Nat.lt_of_lt_of_le hx (Nat.pow_le_pow_right (by decide) hi)),
      Bool.and_false]
  · simp [hi]

/-- Setting the two type bits makes a table descriptor of anything. -/
theorem or_descTable (x : Nat) : (x ||| descTable) &&& descTable = descTable := by
  refine Nat.eq_of_testBit_eq fun i ↦ ?_
  rw [Nat.testBit_and, Nat.testBit_or]
  cases Nat.testBit descTable i <;> simp

section Descriptor

variable {f flags : Nat} (hf : f % 4096 = 0) (hlt : f < 2 ^ 48)
include hf

/-- What the type bits of `f | flags` are is decided by the flags. -/
theorem or_and_three (hflags : flags &&& 3 = 3) : (f ||| flags) &&& descTable = descTable := by
  rw [descTable, Nat.and_or_distrib_right, and_three_of_aligned hf, hflags]
  rfl

include hlt

theorem or_and_addrMask (hflags : flags &&& addrMask = 0) : (f ||| flags) &&& addrMask = f := by
  rw [Nat.and_or_distrib_right, and_addrMask_of_aligned hf hlt, hflags, Nat.or_zero]

end Descriptor

/-- The permission bits of `f | flags` are those of the flags. -/
theorem or_and_apMask {f : Nat} (hf : f % 4096 = 0) {flags : Nat} :
    (f ||| flags) &&& apMask = flags &&& apMask := by
  rw [Nat.and_or_distrib_right, and_low_of_aligned hf (by decide), Nat.zero_or]

theorem or_and_apEl0Rw {f : Nat} (hf : f % 4096 = 0) {flags : Nat} :
    (f ||| flags) &&& apEl0Rw = flags &&& apEl0Rw := by
  rw [Nat.and_or_distrib_right, and_low_of_aligned hf (by decide), Nat.zero_or]

theorem or_lt_of_lt {f flags : Nat} (hlt : f < 2 ^ 48) (hflags : flags < 2 ^ 64) :
    f ||| flags < 2 ^ 64 := Nat.or_lt_two_pow (by omega) hflags

/-- An aligned address and an offset within the page. -/
theorem or_and_low {f : Nat} (hf : f % 4096 = 0) (va : Nat) :
    f ||| (va &&& 0xFFF) = f + va % 4096 := by
  rw [show 0xFFF = 2 ^ 12 - 1 from rfl, Nat.and_two_pow_sub_one_eq_mod]
  have hlt : va % 2 ^ 12 < 2 ^ 12 := Nat.mod_lt _ (by decide)
  have hor := Nat.two_pow_add_eq_or_of_lt hlt (f / 2 ^ 12)
  rw [show 2 ^ 12 * (f / 2 ^ 12) = f by omega] at hor
  exact hor.symm

/-! ## Entries -/

section Entry

variable {m m' : Mem} {t i j v : Nat}

theorem entry_congr (h : Set.EqOn m m' (frameAt t)) (hi : i < 512) : entry m t i = entry m' t i :=
  Mem.load_eqOn h (by omega) (by rw [frameSize]; omega)

theorem entry_setEntry_same (hv : v < 2 ^ 64) : entry (setEntry m t i v) t i = v :=
  Mem.load_store_of_lt m (by omega)

theorem entry_setEntry_ne (h : i ≠ j) : entry (setEntry m t i v) t j = entry m t j :=
  Mem.load_store_disjoint (by omega)

theorem setEntry_eqOn (hi : i < 512) : Set.EqOn (setEntry m t i v) m (frameAt t)ᶜ :=
  Mem.store_eqOn (by omega) (by rw [frameSize]; omega)

theorem zeroTable_eqOn (m : Mem) (t : Nat) : ∀ {n : Nat}, n ≤ 512 →
    Set.EqOn (zeroTable m t n) m (frameAt t)ᶜ
  | 0, _ => fun _ _ ↦ rfl
  | n + 1, hn => fun x hx ↦
    (setEntry_eqOn (by omega) hx).trans (zeroTable_eqOn m t (by omega) hx)

theorem entry_zeroTable (m : Mem) (t : Nat) : ∀ {n : Nat}, i < n → entry (zeroTable m t n) t i = 0
  | n + 1, hi => by
    rw [zeroTable]
    rcases Nat.lt_or_eq_of_le (Nat.le_of_lt_succ hi) with hlt | rfl
    · rw [entry_setEntry_ne (by omega), entry_zeroTable m t hlt]
    · exact entry_setEntry_same (by decide)

end Entry

/-! ## The tree below a table -/

/-- What the entry points at, if its type bits say that it points anywhere. -/
def child (m : Mem) (t i : Nat) : Option Nat :=
  if entry m t i &&& descTable = descTable then some (entry m t i &&& addrMask) else none

/-- Follow a path of indices. -/
abbrev walk (m : Mem) (t : Nat) (path : List Nat) : Option Nat := Radix.walk (child m) t path

theorem walk_concat (m : Mem) (t : Nat) (p : List Nat) (i : Nat) :
    walk m t (p ++ [i]) = (walk m t p).bind fun u ↦ child m u i := Radix.walk_concat p i t

theorem walk_append (m : Mem) (t : Nat) (p q : List Nat) :
    walk m t (p ++ q) = (walk m t p).bind fun u ↦ walk m u q := Radix.walk_append p q t

/-- The three table indices of an address. -/
def tablePath (va : Nat) : List Nat := [tableIndex va 39, tableIndex va 30, tableIndex va 21]

/-- All four indices of an address. -/
def pagePath (va : Nat) : List Nat := tablePath va ++ [tableIndex va 12]

section Child

variable {m m' : Mem} {t i j v : Nat}

theorem child_congr (h : Set.EqOn m' m (frameAt t)) (hi : i < 512) :
    child m' t i = child m t i := by
  rw [child, child, entry_congr h hi]

theorem child_of_invalid (h : entry m t i &&& descValid = 0) : child m t i = none := by
  rw [child, if_neg fun hc ↦ valid_of_table hc h]

theorem child_of_zero (h : entry m t i = 0) : child m t i = none :=
  child_of_invalid (by rw [h]; rfl)

theorem child_eq_some {u : Nat} : child m t i = some u ↔
    entry m t i &&& descTable = descTable ∧ entry m t i &&& addrMask = u := by
  rw [child]
  split <;> simp [*]

theorem child_aligned {u : Nat} (h : child m t i = some u) : u % 4096 = 0 := by
  rw [← (child_eq_some.mp h).2, and_addrMask]
  omega

/-- What a walk comes to is aligned, if its start is. -/
theorem walk_aligned {r u : Nat} (hr : r % 4096 = 0) {path : List Nat}
    (h : walk m r path = some u) : u % 4096 = 0 := by
  rcases List.eq_nil_or_concat' path with rfl | ⟨path, i, rfl⟩
  · exact Option.some.inj h ▸ hr
  · obtain ⟨v, -, hv⟩ := Radix.walk_concat_eq_some h
    exact child_aligned hv

theorem child_setEntry_ne (h : i ≠ j) : child (setEntry m t i v) t j = child m t j := by
  rw [child, child, entry_setEntry_ne h]

/-- An entry that points at the aligned frame `f`. -/
theorem child_setEntry_or {f flags : Nat} (hf : f % 4096 = 0) (hlt : f < 2 ^ 48)
    (h3 : flags &&& 3 = 3) (hm : flags &&& addrMask = 0) (h64 : flags < 2 ^ 64) :
    child (setEntry m t i (f ||| flags)) t i = some f := by
  rw [child_eq_some, entry_setEntry_same (or_lt_of_lt hlt h64)]
  exact ⟨or_and_three hf h3, or_and_addrMask hf hlt hm⟩

theorem child_setEntry_zero : child (setEntry m t i 0) t i = none :=
  child_of_zero (entry_setEntry_same (by decide))

end Child

/-- The source's walk by address is the walk along the address's indices. -/
theorem walkVa_eq (m : Mem) (va : Nat) : ∀ (shifts : List Nat) (t : Nat),
    walkVa m va shifts t = walk m t (shifts.map (tableIndex va))
  | [], _ => rfl
  | shift :: shifts, t => by
    rw [walkVa, List.map_cons, walk, Radix.walk_cons, child]
    by_cases h : entry m t (tableIndex va shift) &&& descTable = descTable
    · rw [if_neg (by simpa using h), if_pos h, walkVa_eq m va shifts]
      rfl
    · rw [if_pos h, if_neg h]
      rfl

theorem walkVa_tablePath (m : Mem) (va t : Nat) :
    walkVa m va [39, 30, 21] t = walk m t (tablePath va) := walkVa_eq m va _ t

theorem tablePath_lt {va i : Nat} (h : i ∈ tablePath va) : i < 512 := by
  simp only [tablePath, List.mem_cons, List.not_mem_nil, or_false] at h
  rcases h with rfl | rfl | rfl <;> exact tableIndex_lt _ _

/-- Below 2⁴⁸ the indices determine the page. -/
theorem pagePath_inj {va va' : Nat} (h : va < 2 ^ 48) (h' : va' < 2 ^ 48)
    (hp : pagePath va = pagePath va') : va / 4096 = va' / 4096 := by
  simp only [pagePath, tablePath, List.cons_append, List.nil_append, List.cons.injEq, and_true,
    tableIndex_eq] at hp
  omega

/-- What a page walk finds: a last-level entry of page type on the path of the address. -/
theorem descriptorAt_eq_some {m : Mem} {r va e : Nat} (hr : r &&& addrMask = r)
    (h : descriptorAt m r va = some e) : va < 2 ^ 48 ∧
      ∃ t, walk m r (tablePath va) = some t ∧ entry m t (tableIndex va 12) = e ∧
        child m t (tableIndex va 12) = some (e &&& addrMask) := by
  rw [descriptorAt] at h
  split at h
  · rename_i hva
    rw [l0Ptr, hr, walkVa_tablePath] at h
    obtain ⟨t, ht, h⟩ := Option.bind_eq_some_iff.mp h
    simp only at h
    split at h
    · rename_i htype
      obtain rfl := Option.some.inj h
      exact ⟨hva, t, ht, rfl, child_eq_some.mpr ⟨htype, rfl⟩⟩
    · cases h
  · cases h

/-- What a store with EL0 permissions goes through. -/
theorem el0WritablePa_eq_some {m : Mem} {r va pa : Nat} (hr : r &&& addrMask = r)
    (h : el0WritablePa m r va = some pa) : va < 2 ^ 48 ∧
      ∃ t f, walk m r (tablePath va) = some t ∧ child m t (tableIndex va 12) = some f ∧
        entry m t (tableIndex va 12) &&& apMask = apEl0Rw ∧ pa = f ||| (va &&& 0xFFF) := by
  obtain ⟨e, he, h⟩ := Option.bind_eq_some_iff.mp h
  obtain ⟨hva, t, ht, rfl, hc⟩ := descriptorAt_eq_some hr he
  split at h
  · rename_i hap
    cases h
    exact ⟨hva, t, _, ht, hc, hap, rfl⟩
  · cases h

/-- The descriptor that maps an address is a page at the end of its path, or a block on the way. -/
theorem leafDescriptor_eq_some {m : Mem} {r va e : Nat} (hr : r &&& addrMask = r)
    (h : leafDescriptor m r va = some e) :
    (∃ t, walk m r (tablePath va) = some t ∧ entry m t (tableIndex va 12) = e ∧
      e &&& descPage = descPage) ∨
    ∃ path t i, path.length ≤ 1 ∧ (∀ j ∈ path, j < 512) ∧ i < 512 ∧
      walk m r (tableIndex va 39 :: path) = some t ∧ entry m t i = e ∧
      e &&& descTable = descBlock := by
  have hc : ∀ {t i}, entry m t i &&& descTable = descTable →
      child m t i = some (entry m t i &&& addrMask) := fun ht ↦ child_eq_some.mpr ⟨ht, rfl⟩
  rw [leafDescriptor] at h
  split at h
  · rw [l0Ptr, hr, walkVa_eq] at h
    obtain ⟨l1, hl1, h⟩ := Option.bind_eq_some_iff.mp h
    simp only [leafAt] at h
    split_ifs at h with h30 h21 h12 hb hb'
    · obtain rfl := Option.some.inj h
      refine .inl ⟨_, ?_, rfl, h12⟩
      rw [show tablePath va = [39].map (tableIndex va) ++ [tableIndex va 30] ++ [tableIndex va 21]
        from rfl, walk_concat, walk_concat, hl1, Option.bind_some, hc h30, Option.bind_some, hc h21]
    · obtain rfl := Option.some.inj h
      refine .inr ⟨[tableIndex va 30], _, tableIndex va 21, le_rfl, ?_, tableIndex_lt _ _, ?_, rfl,
        hb⟩
      · simpa using tableIndex_lt va 30
      · rw [show [tableIndex va 39, tableIndex va 30] =
          [39].map (tableIndex va) ++ [tableIndex va 30] from rfl, walk_concat, hl1,
          Option.bind_some, hc h30]
    · obtain rfl := Option.some.inj h
      exact .inr ⟨[], l1, tableIndex va 30, by simp, by simp, tableIndex_lt _ _, hl1, rfl, hb'⟩
  · cases h

end Jatuli

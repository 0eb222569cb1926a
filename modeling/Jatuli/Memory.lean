import Jatuli.Lib.WriteOrder
import Mathlib.Data.List.Range
import Mathlib.Tactic.Ring

/-!
# The memory primitives

`kernel/src/mem.rs` has the four functions that the compiler calls to copy, set and compare blocks
of bytes.  Each is a loop over a byte offset; a pointer plus an offset is taken modulo `2 ^ 64`
here, and the results are about blocks that do not wrap.

`memcpy` copies upwards, which copies the block if no byte of the source is overwritten before it is
read.  `memmove` takes the direction from the order of the two pointers, and copies the block
whichever way the two overlap (`memmove_copies`).
-/

set_option autoImplicit false

namespace Jatuli

open WriteOrder

/-- What a 64-bit pointer can reach. -/
abbrev Bytes64 := BitVec 64 → UInt8

/-- `p.add(i)`. -/
def ptrAdd (p : BitVec 64) (i : Nat) : BitVec 64 := p + BitVec.ofNat 64 i

/-! ## The source -/

/-- The loop of `memcpy` and `memset` and the second one of `memmove`, which assign to
`*dest.add(i)` for each `i` upwards; there are `left` steps to its end. -/
def assignUp (dest : BitVec 64) (byte : Nat → Bytes64 → UInt8) : Nat → Nat → Bytes64 → Bytes64
  | _, 0, m => m
  | i, left + 1, m =>
    assignUp dest byte (i + 1) left (Function.update m (ptrAdd dest i) (byte i m))

/-- The first loop of `memmove`, downwards from `i`. -/
def assignDown (dest : BitVec 64) (byte : Nat → Bytes64 → UInt8) : Nat → Bytes64 → Bytes64
  | 0, m => m
  | i + 1, m => assignDown dest byte i (Function.update m (ptrAdd dest i) (byte i m))

/-- `*src.add(i)`. -/
def byteAt (src : BitVec 64) (i : Nat) (m : Bytes64) : UInt8 := m (ptrAdd src i)

/-- `memcpy`: the memory after it, and what it returns. -/
def memcpy (dest src : BitVec 64) (n : Nat) (m : Bytes64) : Bytes64 × BitVec 64 :=
  (assignUp dest (byteAt src) 0 n m, dest)

/-- `memset`; `value` is an `i32`, of which one byte is used. -/
def memset (dest : BitVec 64) (value : BitVec 32) (n : Nat) (m : Bytes64) : Bytes64 × BitVec 64 :=
  (assignUp dest (fun _ _ ↦ UInt8.ofBitVec (value.truncate 8)) 0 n m, dest)

/-- `memmove`. -/
def memmove (dest src : BitVec 64) (n : Nat) (m : Bytes64) : Bytes64 × BitVec 64 :=
  (if src < dest then assignDown dest (byteAt src) n m else assignUp dest (byteAt src) 0 n m, dest)

/-- The loop of `memcmp`, `left` steps before its end. -/
def compareUp (a b : BitVec 64) (m : Bytes64) : Nat → Nat → Int
  | _, 0 => 0
  | i, left + 1 =>
    if byteAt a i m ≠ byteAt b i m then ((byteAt a i m).toNat : Int) - (byteAt b i m).toNat
    else compareUp a b m (i + 1) left

/-- `memcmp`. -/
def memcmp (a b : BitVec 64) (n : Nat) (m : Bytes64) : Int := compareUp a b m 0 n

/-! ## The loops as lists of writes -/

section Loops

variable {dest : BitVec 64} {byte : Nat → Bytes64 → UInt8}

theorem assignUp_eq (i left : Nat) (m : Bytes64) :
    assignUp dest byte i left m = writes (ptrAdd dest) byte (List.range' i left) m := by
  induction left generalizing i m with
  | zero => rfl
  | succ left ih => exact ih (i + 1) _

theorem assignDown_eq (i : Nat) (m : Bytes64) :
    assignDown dest byte i m = writes (ptrAdd dest) byte (List.range i).reverse m := by
  induction i generalizing m with
  | zero => rfl
  | succ i ih =>
    rw [List.range_succ, List.reverse_append, List.reverse_singleton]
    exact ih _

end Loops

/-! ## Blocks -/

/-- `[p, p + n)` does not wrap the address space. -/
def NoWrap (p : BitVec 64) (n : Nat) : Prop := p.toNat + n ≤ 2 ^ 64

instance (p : BitVec 64) (n : Nat) : Decidable (NoWrap p n) := inferInstanceAs (Decidable (_ ≤ _))

/-- The address is outside `[p, p + n)`. -/
def Outside (p : BitVec 64) (n : Nat) (x : BitVec 64) : Prop :=
  x.toNat < p.toNat ∨ p.toNat + n ≤ x.toNat

section Blocks

variable {p x : BitVec 64} {n i j : Nat}

theorem toNat_ptrAdd (h : NoWrap p n) (hi : i < n) : (ptrAdd p i).toNat = p.toNat + i := by
  rw [NoWrap] at h
  rw [ptrAdd, BitVec.toNat_add, BitVec.toNat_ofNat, Nat.add_mod_mod, Nat.mod_eq_of_lt (by omega)]

theorem Outside.ne (hx : Outside p n x) (h : NoWrap p n) (hi : i < n) : x ≠ ptrAdd p i := by
  rintro rfl
  rw [Outside, toNat_ptrAdd h hi] at hx
  omega

theorem ptrAdd_ne (h : NoWrap p n) (hi : i < n) (hj : j < n) (hne : j ≠ i) :
    ptrAdd p j ≠ ptrAdd p i := by
  intro he
  have heq := congrArg BitVec.toNat he
  rw [toNat_ptrAdd h hi, toNat_ptrAdd h hj] at heq
  omega

end Blocks

/-! ## Copying -/

section Copy

variable {dest src : BitVec 64} {n : Nat}

/-- A list of offsets is a safe order to copy in, if the byte that is written at one of them is not
one that is read at a later one. -/
theorem pairwise_safe {order : Nat → Nat → Prop} {js : List Nat} (hjs : js.Pairwise order)
    (hlt : ∀ j ∈ js, j < n) (hdest : NoWrap dest n) (hsrc : NoWrap src n)
    (hsafe : ∀ j i, order j i → j ≠ i ∧ dest.toNat + j ≠ src.toNat + i) :
    js.Pairwise fun j i ↦ ptrAdd dest j ≠ ptrAdd dest i ∧ ptrAdd dest j ≠ ptrAdd src i := by
  refine hjs.imp_of_mem fun {j i} hj hi hji ↦ ?_
  obtain ⟨hne, hread⟩ := hsafe j i hji
  refine ⟨ptrAdd_ne hdest (hlt i hi) (hlt j hj) hne, fun he ↦ hread ?_⟩
  rw [← toNat_ptrAdd hdest (hlt j hj), ← toNat_ptrAdd hsrc (hlt i hi), he]

/-- The block is a copy of what the source block was, and nothing else has changed. -/
structure Copied (dest src : BitVec 64) (n : Nat) (m m' : Bytes64) : Prop where
  /-- The bytes of the block. -/
  copied : ∀ i, i < n → m' (ptrAdd dest i) = m (ptrAdd src i)
  /-- All others. -/
  kept : ∀ x, Outside dest n x → m' x = m x

/-- Copying in a safe order that has every offset of the block. -/
theorem Copied.of_writes {js : List Nat} (m : Bytes64) (hjs : ∀ j, j ∈ js ↔ j < n)
    (hdest : NoWrap dest n)
    (h : js.Pairwise fun j i ↦ ptrAdd dest j ≠ ptrAdd dest i ∧ ptrAdd dest j ≠ ptrAdd src i) :
    Copied dest src n m (writes (ptrAdd dest) (byteAt src) js m) where
  copied i hi := copies_apply h ((hjs i).mpr hi)
  kept _ hx := writes_of_ne fun j hj ↦ hx.ne hdest ((hjs j).mp hj)

/-- Upwards, if the destination starts at the source, before it or after its end. -/
theorem assignUp_copied (m : Bytes64) (hdest : NoWrap dest n) (hsrc : NoWrap src n)
    (h : dest.toNat ≤ src.toNat ∨ src.toNat + n ≤ dest.toNat) :
    Copied dest src n m (assignUp dest (byteAt src) 0 n m) := by
  rw [assignUp_eq, ← List.range_eq_range']
  refine .of_writes m (fun j ↦ List.mem_range) hdest ?_
  have hmem : (List.range n).Pairwise fun j i ↦ j < i ∧ i < n :=
    List.pairwise_lt_range.imp_of_mem fun _ hi hji ↦ ⟨hji, List.mem_range.mp hi⟩
  exact pairwise_safe hmem (fun j ↦ List.mem_range.mp) hdest hsrc fun j i hji ↦ by omega

/-- Downwards, if the destination starts after the source. -/
theorem assignDown_copied (m : Bytes64) (hdest : NoWrap dest n) (hsrc : NoWrap src n)
    (h : src.toNat < dest.toNat) : Copied dest src n m (assignDown dest (byteAt src) n m) := by
  rw [assignDown_eq]
  refine .of_writes m (fun j ↦ List.mem_reverse.trans List.mem_range) hdest ?_
  have hmem : (List.range n).reverse.Pairwise fun j i ↦ i < j :=
    List.pairwise_reverse.mpr List.pairwise_lt_range
  exact pairwise_safe hmem (fun j hj ↦ List.mem_range.mp (List.mem_reverse.mp hj)) hdest hsrc
    fun j i hji ↦ by omega

/-- `memcpy` copies between blocks that do not overlap. -/
theorem memcpy_copies (m : Bytes64) (hdest : NoWrap dest n) (hsrc : NoWrap src n)
    (h : dest.toNat + n ≤ src.toNat ∨ src.toNat + n ≤ dest.toNat) :
    Copied dest src n m (memcpy dest src n m).1 :=
  assignUp_copied m hdest hsrc (by omega)

/-- **`memmove` is a copy at once**, whichever way the blocks overlap. -/
theorem memmove_copies (dest src : BitVec 64) (n : Nat) (m : Bytes64) (hdest : NoWrap dest n)
    (hsrc : NoWrap src n) : Copied dest src n m (memmove dest src n m).1 := by
  rw [memmove]
  split_ifs with h
  · exact assignDown_copied m hdest hsrc h
  · exact assignUp_copied m hdest hsrc (.inl (Nat.le_of_not_lt h))

/-- Moving four bytes up by two: the first two of them are both read and written. -/
theorem memmove_copies_overlap : NoWrap 0x1002 4 ∧ NoWrap 0x1000 4 ∧
    Copied 0x1002 0x1000 4 (fun x ↦ UInt8.ofBitVec (x.truncate 8))
      (memmove 0x1002 0x1000 4 fun x ↦ UInt8.ofBitVec (x.truncate 8)).1 := by
  have hdest : NoWrap 0x1002 4 := by decide
  have hsrc : NoWrap 0x1000 4 := by decide
  exact ⟨hdest, hsrc, memmove_copies _ _ _ _ hdest hsrc⟩

/-- `memset` sets the bytes of the block and no other. -/
theorem memset_sets (value : BitVec 32) (m : Bytes64) (hdest : NoWrap dest n) :
    (∀ i, i < n → (memset dest value n m).1 (ptrAdd dest i) = UInt8.ofBitVec (value.truncate 8)) ∧
      ∀ x, Outside dest n x → (memset dest value n m).1 x = m x := by
  rw [memset, assignUp_eq, ← List.range_eq_range']
  refine ⟨fun i hi ↦ ?_, fun x hx ↦ writes_of_ne fun j hj ↦ hx.ne hdest (List.mem_range.mp hj)⟩
  refine writes_apply ?_ (List.mem_range.mpr hi)
  refine List.pairwise_lt_range.imp_of_mem fun hj hi hji ↦ ⟨?_, fun _ _ ↦ rfl⟩
  exact ptrAdd_ne hdest (List.mem_range.mp hi) (List.mem_range.mp hj) hji.ne

end Copy

/-! ## Comparing -/

section Compare

variable {a b : BitVec 64} {m : Bytes64}

/-- What the loop returns is decided by the first offset at which the bytes differ. -/
theorem compareUp_cases (i left : Nat) :
    (compareUp a b m i left = 0 ∧ ∀ j, i ≤ j → j < i + left → byteAt a j m = byteAt b j m) ∨
    ∃ j, i ≤ j ∧ j < i + left ∧ (∀ l, i ≤ l → l < j → byteAt a l m = byteAt b l m) ∧
      byteAt a j m ≠ byteAt b j m ∧
      compareUp a b m i left = ((byteAt a j m).toNat : Int) - (byteAt b j m).toNat := by
  induction left generalizing i with
  | zero => exact .inl ⟨rfl, fun j hij hj ↦ by omega⟩
  | succ left ih =>
    rw [compareUp]
    by_cases hne : byteAt a i m ≠ byteAt b i m
    · rw [if_pos hne]
      exact .inr ⟨i, by omega, by omega, fun l hil hl ↦ by omega, hne, rfl⟩
    · rw [if_neg hne]
      have heq := not_not.mp hne
      -- an equal byte in front of what the rest of the loop says
      have hfront : ∀ l, i ≤ l → (i + 1 ≤ l → byteAt a l m = byteAt b l m) →
          byteAt a l m = byteAt b l m := fun l hil hl ↦ by
        rcases Nat.eq_or_lt_of_le hil with rfl | hlt
        · exact heq
        · exact hl hlt
      rcases ih (i + 1) with ⟨h0, hall⟩ | ⟨j, hij, hj, hall, hdiff, hval⟩
      · exact .inl ⟨h0, fun l hil hl ↦ hfront l hil fun h ↦ hall l h (by omega)⟩
      · exact .inr ⟨j, by omega, by omega, fun l hil hl ↦ hfront l hil fun h ↦ hall l h hl, hdiff,
          hval⟩

/-- `memcmp` returns zero exactly for equal blocks. -/
theorem memcmp_eq_zero_iff (n : Nat) :
    memcmp a b n m = 0 ↔ ∀ i, i < n → byteAt a i m = byteAt b i m := by
  rw [memcmp]
  rcases compareUp_cases (a := a) (b := b) (m := m) 0 n with ⟨h0, hall⟩ | ⟨j, -, hj, -, hne, hval⟩
  · exact iff_of_true h0 fun i hi ↦ hall i (Nat.zero_le i) (by omega)
  · refine iff_of_false (fun h0 ↦ hne ?_) fun hall ↦ hne (hall j (by omega))
    exact UInt8.toNat_inj.mp (by omega)

end Compare

end Jatuli

import Mathlib.Data.Nat.Digits.Defs
import Mathlib.Tactic.Common
import Mathlib.Tactic.Ring

/-!
# Printing an integer in decimal

`print_dec` of `user/src/lib.rs` writes the digits of a magnitude from the end of a buffer of 20
bytes towards its front, then the sign, and prints what it has written.  Both the decrement of the
index and the access to the buffer can fail, and so can the addition of a digit to `b'0'`; a failure
is `none` here.

The magnitude of an `i64` is at most `2 ^ 63`, which has 19 digits.  So the digits stop short of the
front of the buffer and there is room for the sign, also for `i64::MIN`, whose magnitude is not an
`i64` (`printDec_numeral`).
-/

set_option autoImplicit false

namespace Jatuli

/-! ## The source -/

/-- The length of `buf`. -/
def decBufLen : Nat := 20

/-- `buf[i] = byte;`, with the check of the index. -/
def putAt (i : Nat) (byte : UInt8) (buf : Vector UInt8 decBufLen) :
    Option (Vector UInt8 decBufLen) :=
  if h : i < decBufLen then some (buf.set i byte h) else none

/-- `b'0' + (v % 10) as u8`, with the check of the addition. -/
def digitByte (v : BitVec 64) : Option UInt8 :=
  let digit := UInt8.ofNat (v % 10).toNat
  if 48 + digit.toNat < 256 then some (48 + digit) else none

/-- The `loop` of `print_dec`; there is no `i -= 1` from `0`. -/
def putDigits (v : BitVec 64) (buf : Vector UInt8 decBufLen) :
    Nat → Option (Nat × Vector UInt8 decBufLen)
  | 0 => none
  | i + 1 => do
    let byte ← digitByte v
    let buf' ← putAt i byte buf
    if v / 10 = 0 then some (i, buf') else putDigits (v / 10) buf' i

/-- `if negative { i -= 1; buf[i] = b'-'; }`. -/
def putSign (negative : Bool) (buf : Vector UInt8 decBufLen) (i : Nat) :
    Option (Nat × Vector UInt8 decBufLen) :=
  if negative then
    match i with
    | 0 => none
    | i' + 1 => (putAt i' 45 buf).map (i', ·)
  else some (i, buf)

/-- The `v` that `print_dec` starts from. -/
def magnitude (n : BitVec 64) : BitVec 64 := if n.slt 0 then ~~~n + 1 else n

/-- `print_dec`: the bytes that it passes to `print_bytes`. -/
def printDec (n : BitVec 64) : Option (List UInt8) := do
  let (i, buf) ← putDigits (magnitude n) (Vector.replicate decBufLen 0) decBufLen
  let (i', buf') ← putSign (n.slt 0) buf i
  some (buf'.toList.drop i')

/-! ## Numerals -/

/-- The digits, the most significant one first, are those of `v` and start with a zero only if they
are that zero. -/
structure IsDigits (v : Nat) (ds : List Nat) : Prop where
  /-- There is at least one. -/
  ne_nil : ds ≠ []
  /-- Each is a digit. -/
  lt : ∀ d ∈ ds, d < 10
  /-- No zero in front of another digit. -/
  head : ds.head? = some 0 → ds = [0]
  /-- They stand for `v`. -/
  value : Nat.ofDigits 10 ds.reverse = v

/-- The bytes are the canonical decimal numeral of `n`. -/
def IsNumeral (n : Int) (bytes : List UInt8) : Prop :=
  ∃ ds, IsDigits n.natAbs ds ∧
    bytes = (if n < 0 then [45] else []) ++ ds.map fun d ↦ UInt8.ofNat (48 + d)

theorem IsDigits.digit {v : Nat} (h : v < 10) : IsDigits v [v] where
  ne_nil := List.cons_ne_nil _ _
  lt d hd := by rwa [List.mem_singleton.mp hd]
  head h0 := by rw [Option.some.inj h0]
  value := Nat.ofDigits_singleton

/-- One more digit at the end. -/
theorem IsDigits.snoc {v : Nat} {ds : List Nat} (h : IsDigits (v / 10) ds) (hv : v / 10 ≠ 0) :
    IsDigits v (ds ++ [v % 10]) where
  ne_nil := List.append_ne_nil_of_right_ne_nil _ (List.cons_ne_nil _ _)
  lt d hd := by
    rcases List.mem_append.mp hd with hd | hd
    · exact h.lt d hd
    · rw [List.mem_singleton.mp hd]
      exact Nat.mod_lt v (by decide)
  head h0 := by
    -- the front digit is one of `ds`, which are not `[0]` because they stand for `v / 10`
    obtain ⟨d, ds', rfl⟩ := List.exists_cons_of_ne_nil h.ne_nil
    have hval := h.value
    rw [h.head h0] at hval
    exact absurd hval.symm hv
  value := by
    rw [List.reverse_append, List.reverse_singleton, List.singleton_append, Nat.ofDigits_cons,
      h.value]
    exact Nat.mod_add_div v 10

/-! ## The loop -/

section Loop

variable {v : BitVec 64} {i : Nat}

theorem digitByte_eq (v : BitVec 64) : digitByte v = some (UInt8.ofNat (48 + v.toNat % 10)) := by
  have hlt : v.toNat % 10 < 10 := Nat.mod_lt _ (by decide)
  have hmod : (v % 10).toNat = v.toNat % 10 := rfl
  have hdigit : (UInt8.ofNat (v.toNat % 10)).toNat = v.toNat % 10 :=
    UInt8.toNat_ofNat_of_lt (show _ < 256 by omega)
  rw [digitByte, hmod, if_pos (by rw [hdigit]; omega), UInt8.ofNat_add]
  rfl

/-- The buffer from the new byte on. -/
theorem exists_putAt (byte : UInt8) (buf : Vector UInt8 decBufLen) (hi : i < decBufLen) :
    ∃ buf', putAt i byte buf = some buf' ∧
      buf'.toList.drop i = byte :: buf.toList.drop (i + 1) := by
  refine ⟨buf.set i byte hi, dif_pos hi, ?_⟩
  have hlen : i < (buf.toList.set i byte).length := by
    rw [List.length_set, Vector.length_toList]
    exact hi
  rw [Vector.toList_set, List.drop_eq_getElem_cons hlen, List.getElem_set_self,
    List.drop_set_of_lt (Nat.lt_succ_self i)]

/-- **The digits of a `v` of at most `m` digits fit into `m` bytes**, and the loop leaves them in
front of what was there. -/
theorem exists_putDigits (buf : Vector UInt8 decBufLen) {m : Nat} (hv : v.toNat < 10 ^ m)
    (hm : 0 < m)
    (hmi : m ≤ i) (hi : i ≤ decBufLen) : ∃ j buf' ds, putDigits v buf i = some (j, buf') ∧
      i ≤ j + m ∧ j ≤ i ∧ IsDigits v.toNat ds ∧
      buf'.toList.drop j = (ds.map fun d ↦ UInt8.ofNat (48 + d)) ++ buf.toList.drop i := by
  -- on the index, which the source counts down
  induction i generalizing v buf m with
  | zero => omega
  | succ i ih =>
    obtain ⟨buf₁, hput, hdrop⟩ := exists_putAt (UInt8.ofNat (48 + v.toNat % 10)) buf (i := i) hi
    have hten : (v / 10).toNat = v.toNat / 10 := rfl
    have hstep : putDigits v buf (i + 1) =
        if v / 10 = 0 then some (i, buf₁) else putDigits (v / 10) buf₁ i := by
      rw [putDigits, digitByte_eq, Option.bind_eq_bind, Option.bind_some, hput]
      rfl
    by_cases hlast : v / 10 = 0
    · have hsmall : v.toNat < 10 := by
        rw [hlast] at hten
        exact Nat.lt_of_div_eq_zero (by decide) hten.symm
      rw [Nat.mod_eq_of_lt hsmall] at hdrop
      rw [hstep, if_pos hlast]
      exact ⟨i, buf₁, [v.toNat], rfl, by omega, by omega, .digit hsmall, hdrop⟩
    · have hne : v.toNat / 10 ≠ 0 := fun h0 ↦ hlast (BitVec.eq_of_toNat_eq (hten.trans h0))
      obtain ⟨m, rfl⟩ := Nat.exists_eq_succ_of_ne_zero hm.ne'
      have hv' : (v / 10).toNat < 10 ^ m := by
        rw [hten, Nat.div_lt_iff_lt_mul (by decide), ← pow_succ]
        exact hv
      have hm' : 0 < m := Nat.pos_of_ne_zero fun h0 ↦ by
        rw [h0, pow_zero, hten] at hv'
        omega
      obtain ⟨j, buf', ds, hrun, hjm, hji, hds, hbytes⟩ := ih buf₁ hv' hm' (by omega) (by omega)
      rw [hstep, if_neg hlast]
      refine ⟨j, buf', ds ++ [v.toNat % 10], hrun, by omega, by omega, hds.snoc hne, ?_⟩
      rw [hbytes, hdrop, List.map_append, List.append_assoc]
      rfl

end Loop

/-! ## The whole function -/

/-- The sign goes in front of what is there, if there is a byte left for it. -/
theorem exists_putSign (negative : Bool) (buf : Vector UInt8 decBufLen) {i : Nat} (hpos : 0 < i)
    (hi : i ≤ decBufLen) : ∃ i' buf', putSign negative buf i = some (i', buf') ∧
      buf'.toList.drop i' = (if negative then [45] else []) ++ buf.toList.drop i := by
  cases negative with
  | false => exact ⟨i, buf, rfl, rfl⟩
  | true =>
    obtain ⟨i, rfl⟩ := Nat.exists_eq_succ_of_ne_zero hpos.ne'
    obtain ⟨buf', hput, hdrop⟩ := exists_putAt 45 buf (show i < decBufLen from hi)
    exact ⟨i, buf', congrArg (Option.map (i, ·)) hput, hdrop⟩

theorem slt_zero_iff (n : BitVec 64) : n.slt 0 = true ↔ n.toInt < 0 := BitVec.slt_iff_toInt_lt

/-- The magnitude is the absolute value, of at most 19 digits. -/
theorem toNat_magnitude (n : BitVec 64) :
    (magnitude n).toNat = n.toInt.natAbs ∧ (magnitude n).toNat < 10 ^ 19 := by
  have hn : n.toNat < 2 ^ 64 := n.isLt
  have hint := BitVec.toInt_eq_toNat_cond n
  by_cases hneg : n.slt 0
  · have hlt := (slt_zero_iff n).mp hneg
    have hmag : magnitude n = -n := (if_pos hneg).trans (BitVec.neg_eq_not_add n).symm
    rw [hmag, BitVec.toNat_neg]
    split_ifs at hint <;> omega
  · have hge : ¬ n.toInt < 0 := mt (slt_zero_iff n).mpr hneg
    rw [magnitude, if_neg hneg]
    split_ifs at hint <;> omega

/-- **`print_dec` prints every `i64` exactly**: no access to the buffer fails, and what it prints is
the numeral of `n`. -/
theorem printDec_numeral (n : BitVec 64) :
    ∃ bytes, printDec n = some bytes ∧ IsNumeral n.toInt bytes := by
  obtain ⟨habs, hlt⟩ := toNat_magnitude n
  obtain ⟨j, buf, ds, hrun, hjm, hji, hds, hbytes⟩ :=
    exists_putDigits (Vector.replicate decBufLen 0) (i := decBufLen) hlt (by decide)
      (by decide) (Nat.le_refl _)
  have hnil : (Vector.replicate decBufLen (0 : UInt8)).toList.drop decBufLen = [] := rfl
  rw [hnil, List.append_nil] at hbytes
  rw [habs] at hds
  have hroom : 0 < j := Nat.pos_of_ne_zero fun h0 ↦ by
    rw [h0] at hjm
    exact absurd hjm (by decide)
  obtain ⟨i, buf', hsign, hdrop⟩ := exists_putSign (n.slt 0) buf hroom hji
  refine ⟨buf'.toList.drop i, ?_, ds, hds, ?_⟩
  · simp only [printDec, hrun, hsign, Option.bind_eq_bind, Option.bind_some]
  · rw [hdrop, hbytes]
    simp only [slt_zero_iff]

/-- `i64::MIN` takes the whole buffer. -/
example : (printDec (BitVec.intMin 64)).map List.length = some 20 := by decide +kernel

end Jatuli

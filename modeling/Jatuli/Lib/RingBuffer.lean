import Mathlib.Data.Fin.Basic
import Mathlib.Data.ZMod.Defs
import Mathlib.Tactic.Common

/-!
# A ring buffer that keeps one slot free

The buffer has `n` slots and two positions on the circle `Fin n`: the next element is read at
`head`, written at `tail`.  Equal positions mean that it is empty, so at most `n - 1` elements are
ever in it.  `contents` is the queue it stands for; writing a slot and moving the tail appends to
that queue (`contents_push`), reading a slot and moving the head takes its first element
(`contents_pop`).
-/

set_option autoImplicit false

namespace RingBuffer

variable {α : Type} {n : Nat}

/-- The number of elements between the two positions. -/
def size (head tail : Fin n) : Nat := (tail - head).val

theorem size_lt (head tail : Fin n) : size head tail < n := (tail - head).isLt

variable [NeZero n]

/-- The queue, the oldest element first. -/
def contents (buf : Vector α n) (head tail : Fin n) : List α :=
  (List.range (size head tail)).map fun i ↦ buf.get (head + Fin.ofNat n i)

theorem length_contents (buf : Vector α n) (head tail : Fin n) :
    (contents buf head tail).length = size head tail := by
  rw [contents, List.length_map, List.length_range]

theorem size_self (head : Fin n) : size head head = 0 := by
  rw [size, Fin.sub_self, Fin.val_zero]

theorem contents_self (buf : Vector α n) (head : Fin n) : contents buf head head = [] := by
  rw [contents, size_self, List.range_zero, List.map_nil]

/-! ## Moving a position -/

theorem add_one_eq_zero_iff {i : Fin n} : i + 1 = 0 ↔ i.val + 1 = n := by
  constructor
  · intro h
    by_contra hne
    have hval : (i + 1).val = i.val + 1 := Fin.val_add_one_of_lt' (by omega)
    rw [h, Fin.val_zero] at hval
    omega
  · intro h
    rw [Fin.ext_iff, Fin.val_add, Fin.val_zero, Fin.val_one', Nat.add_mod_mod, h, Nat.mod_self]

/-- The buffer is full exactly when all slots but one are in use. -/
theorem full_iff {head tail : Fin n} : tail + 1 = head ↔ size head tail + 1 = n := by
  rw [← sub_eq_zero, add_sub_right_comm, add_one_eq_zero_iff, size]

theorem empty_iff {head tail : Fin n} : head = tail ↔ size head tail = 0 := by
  rw [eq_comm, ← sub_eq_zero, Fin.ext_iff, Fin.val_zero, size]

theorem size_push {head tail : Fin n} (h : tail + 1 ≠ head) :
    size head (tail + 1) = size head tail + 1 := by
  have hlt := size_lt head tail
  have hne : size head tail + 1 ≠ n := mt full_iff.mpr h
  rw [size, add_sub_right_comm]
  exact Fin.val_add_one_of_lt' (by rw [size] at hlt hne; omega)

theorem size_pop {head tail : Fin n} (h : head ≠ tail) :
    size head tail = size (head + 1) tail + 1 := by
  have hne : tail - (head + 1) + 1 ≠ 0 := by
    rw [sub_add_eq_sub_sub, sub_add_cancel, Ne, sub_eq_zero]
    exact h.symm
  have hlt := (tail - (head + 1)).isLt
  rw [Ne, add_one_eq_zero_iff] at hne
  rw [size, size, ← Fin.val_add_one_of_lt' (by omega), sub_add_eq_sub_sub, sub_add_cancel]

/-! ## The two operations -/

theorem add_size (head tail : Fin n) : head + Fin.ofNat n (size head tail) = tail := by
  rw [size, Fin.ofNat_val_eq_self, add_sub_cancel]

theorem add_ne {head tail : Fin n} {i : Nat} (hi : i < size head tail) :
    head + Fin.ofNat n i ≠ tail := by
  intro h
  have hlt := size_lt head tail
  have hi' : Fin.ofNat n i = tail - head := by rw [← h, add_sub_cancel_left]
  have hval : i % n = size head tail := congrArg Fin.val hi'
  rw [Nat.mod_eq_of_lt (by omega)] at hval
  omega

theorem contents_push (buf : Vector α n) {head tail : Fin n} (h : tail + 1 ≠ head) (c : α) :
    contents (buf.set tail c tail.isLt) head (tail + 1) = contents buf head tail ++ [c] := by
  rw [contents, contents, size_push h, List.range_succ, List.map_append]
  congr 1
  · refine List.map_congr_left fun i hi ↦ ?_
    have hne := Fin.val_ne_of_ne (add_ne (List.mem_range.mp hi))
    exact Vector.getElem_set_ne _ _ hne.symm
  · rw [List.map_cons, List.map_nil, add_size]
    exact congrArg (fun x ↦ [x]) (Vector.getElem_set_self _)

theorem contents_pop (buf : Vector α n) {head tail : Fin n} (h : head ≠ tail) :
    contents buf head tail = getElem buf head head.isLt :: contents buf (head + 1) tail := by
  rw [contents, contents, size_pop h, List.range_succ_eq_map, List.map_cons, List.map_map]
  congr 1
  · rw [Fin.ofNat_zero, add_zero]
    rfl
  · refine List.map_congr_left fun i _ ↦ ?_
    have hsucc : Fin.ofNat n (i + 1) = 1 + Fin.ofNat n i := by
      rw [Fin.ext_iff, Fin.val_add, Fin.val_ofNat, Fin.val_ofNat, Fin.val_one', Nat.add_comm i,
        Nat.add_mod]
    rw [Function.comp_apply, Nat.succ_eq_add_one, hsucc, add_assoc]

end RingBuffer

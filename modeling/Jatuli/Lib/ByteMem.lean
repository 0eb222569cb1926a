import Mathlib.Data.Set.Function
import Mathlib.Data.Nat.Bitwise
import Mathlib.Order.Interval.Set.Basic
import Mathlib.Tactic.Common
import Mathlib.Tactic.Ring

/-!
# A byte-addressed memory

Memory is a function from addresses to bytes, with little-endian loads and stores of any width on
top of it.  Three kinds of fact are used by everything built over it:

* what a load reads back after a store to the same place (`load_store_same`);
* that a load sees nothing of a store elsewhere (`load_store_disjoint`);
* that a load only depends on the bytes of its own range (`load_congr`, `load_eqOn`), so that an
  agreement of two memories on a block is all a caller has to establish.
-/

set_option autoImplicit false

/-- A memory: the byte at every address. -/
abbrev Mem := Nat → UInt8

namespace Mem

/-- The little-endian value of the `n` bytes at `a`, `a + 1`, … -/
def load (m : Mem) (a : Nat) : Nat → Nat
  | 0 => 0
  | n + 1 => (m a).toNat + 256 * load m (a + 1) n

/-- Store the low `n` bytes of `v` at `a`, little end first. -/
def store (m : Mem) (a n v : Nat) : Mem := fun x ↦
  if a ≤ x ∧ x < a + n then UInt8.ofNat (v / 256 ^ (x - a)) else m x

/-- Write the bytes of `bs` at `a`, `a + 1`, … -/
def fill (m : Mem) (a : Nat) : List UInt8 → Mem
  | [] => m
  | b :: bs => fill (fun x ↦ if x = a then b else m x) (a + 1) bs

/-! ## Loads -/

theorem load_congr {m m' : Mem} : ∀ {n a : Nat}, (∀ i, i < n → m (a + i) = m' (a + i)) →
    load m a n = load m' a n
  | 0, _, _ => rfl
  | n + 1, a, h => by
    have h0 : m a = m' a := by simpa using h 0 (by omega)
    have hs : load m (a + 1) n = load m' (a + 1) n := by
      refine load_congr fun i hi ↦ ?_
      have := h (i + 1) (by omega)
      rwa [show a + 1 + i = a + (i + 1) by omega]
    rw [load, load, h0, hs]

/-- A load inside a block on which two memories agree reads the same value in both. -/
theorem load_eqOn {m m' : Mem} {b k a n : Nat} (h : Set.EqOn m m' (Set.Ico b (b + k)))
    (h1 : b ≤ a) (h2 : a + n ≤ b + k) : load m a n = load m' a n :=
  load_congr fun i hi ↦ h ⟨by omega, by omega⟩

theorem load_of_zero {m : Mem} : ∀ {n a : Nat}, (∀ i, i < n → m (a + i) = 0) → load m a n = 0
  | 0, _, _ => rfl
  | n + 1, a, h => by
    have h0 : m a = 0 := by simpa using h 0 (by omega)
    have hs : load m (a + 1) n = 0 := by
      refine load_of_zero fun i hi ↦ ?_
      have := h (i + 1) (by omega)
      rwa [show a + 1 + i = a + (i + 1) by omega]
    rw [load, h0, hs]
    rfl

theorem load_lt (m : Mem) : ∀ (n a : Nat), load m a n < 256 ^ n
  | 0, _ => by simp [load]
  | n + 1, a => by
    have h := load_lt m n (a + 1)
    have hb : (m a).toNat < 256 := (m a).toNat_lt
    rw [load, pow_succ]
    omega

/-- A load, read in two parts. -/
theorem load_add (m : Mem) (k : Nat) : ∀ (n a : Nat),
    load m a (n + k) = load m a n + 256 ^ n * load m (a + n) k
  | 0, a => by simp [load]
  | n + 1, a => by
    rw [show n + 1 + k = n + k + 1 by omega, load, load, load_add m k n (a + 1), pow_succ',
      show a + 1 + n = a + (n + 1) by omega]
    ring

/-! ## Stores -/

theorem store_of_lt {m : Mem} {a n v x : Nat} (h : x < a) : store m a n v x = m x := by
  rw [store, if_neg (by omega)]

theorem store_of_ge {m : Mem} {a n v x : Nat} (h : a + n ≤ x) : store m a n v x = m x := by
  rw [store, if_neg (by omega)]

/-- A store changes nothing outside a block that contains it. -/
theorem store_eqOn {m : Mem} {b k a n v : Nat} (h1 : b ≤ a) (h2 : a + n ≤ b + k) :
    Set.EqOn (store m a n v) m (Set.Ico b (b + k))ᶜ := by
  intro x hx
  simp only [Set.mem_compl_iff, Set.mem_Ico, not_and, not_lt] at hx
  rcases Nat.lt_or_ge x b with hlt | hge
  · exact store_of_lt (by omega)
  · exact store_of_ge (by have := hx hge; omega)

theorem load_store_disjoint {m : Mem} {a n b k v : Nat} (h : a + n ≤ b ∨ b + k ≤ a) :
    load (store m b k v) a n = load m a n := by
  refine load_congr fun i hi ↦ ?_
  rcases h with h | h
  · exact store_of_lt (by omega)
  · exact store_of_ge (by omega)

/-- The bytes from offset `j` on, of a value stored at `a`. -/
theorem load_store_from (m : Mem) (a k v : Nat) : ∀ (n j : Nat), j + n = k →
    load (store m a k v) (a + j) n = v / 256 ^ j % 256 ^ n
  | 0, j, _ => by simp [load, Nat.mod_one]
  | n + 1, j, h => by
    have hb : store m a k v (a + j) = UInt8.ofNat (v / 256 ^ j) := by
      rw [store, if_pos (by omega), Nat.add_sub_cancel_left]
    have hrest := load_store_from m a k v n (j + 1) (by omega)
    rw [load, hb, show a + j + 1 = a + (j + 1) by omega, hrest, pow_succ 256 j,
      ← Nat.div_div_eq_div_mul,
      pow_succ' 256 n, Nat.mod_mul]
    simp [UInt8.toNat_ofNat']

/-- A load of what was just stored there. -/
theorem load_store_same (m : Mem) (a n v : Nat) : load (store m a n v) a n = v % 256 ^ n := by
  have h := load_store_from m a n v n 0 (by omega)
  simpa using h

/-- The value reads back whole when it fits. -/
theorem load_store_of_lt (m : Mem) {a n v : Nat} (h : v < 256 ^ n) :
    load (store m a n v) a n = v := by
  rw [load_store_same, Nat.mod_eq_of_lt h]

/-- The bytes of a loaded value. -/
theorem load_byte {m : Mem} : ∀ {n a i : Nat}, i < n →
    UInt8.ofNat (load m a n / 256 ^ i) = m (a + i)
  | n + 1, a, 0, _ => by
    show UInt8.ofNat _ = m a
    rw [load, pow_zero, Nat.div_one, ← UInt8.toNat_inj, UInt8.toNat_ofNat',
      Nat.add_mul_mod_self_left, Nat.mod_eq_of_lt (m a).toNat_lt]
  | n + 1, a, i + 1, h => by
    have hb : (m a).toNat < 256 := (m a).toNat_lt
    rw [load, pow_succ', ← Nat.div_div_eq_div_mul, Nat.add_mul_div_left _ _ (by decide),
      Nat.div_eq_of_lt hb, Nat.zero_add, load_byte (Nat.lt_of_succ_lt_succ h), Nat.add_assoc,
      Nat.add_comm 1]

/-- Storing what is there changes nothing. -/
theorem store_load (m : Mem) (a n : Nat) : store m a n (load m a n) = m := by
  funext x
  rw [store]
  split_ifs with hx
  · rw [load_byte (by omega), Nat.add_sub_cancel' hx.1]
  · rfl

/-! ## Filling a range with given bytes -/

theorem fill_of_lt : ∀ (bs : List UInt8) (m : Mem) {a x : Nat}, x < a → fill m a bs x = m x
  | [], _, _, _, _ => rfl
  | b :: bs, m, a, x, h => by
    rw [fill, fill_of_lt bs _ (by omega), if_neg (by omega)]

theorem fill_of_ge : ∀ (bs : List UInt8) (m : Mem) {a x : Nat}, a + bs.length ≤ x →
    fill m a bs x = m x
  | [], _, _, _, _ => rfl
  | b :: bs, m, a, x, h => by
    rw [List.length_cons] at h
    rw [fill, fill_of_ge bs _ (by omega), if_neg (by omega)]

theorem fill_get : ∀ (bs : List UInt8) (m : Mem) (a i : Nat) (h : i < bs.length),
    fill m a bs (a + i) = bs[i]
  | b :: bs, m, a, 0, _ => by
    rw [fill, fill_of_lt bs _ (by omega)]
    simp
  | b :: bs, m, a, i + 1, h => by
    rw [fill, show a + (i + 1) = a + 1 + i by omega,
      fill_get bs _ (a + 1) i (by simpa using h)]
    simp

theorem fill_eqOn {m : Mem} {b k a : Nat} {bs : List UInt8} (h1 : b ≤ a)
    (h2 : a + bs.length ≤ b + k) : Set.EqOn (fill m a bs) m (Set.Ico b (b + k))ᶜ := by
  intro x hx
  simp only [Set.mem_compl_iff, Set.mem_Ico, not_and, not_lt] at hx
  rcases Nat.lt_or_ge x b with hlt | hge
  · exact fill_of_lt bs m (by omega)
  · exact fill_of_ge bs m (by have := hx hge; omega)

-- From here on a load is what the lemmas say of it; without this, comparing two loads makes the
-- unifier spell both of them out byte by byte.
attribute [irreducible] load

end Mem

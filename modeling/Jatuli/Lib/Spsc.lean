import Mathlib.Data.List.Basic
import Mathlib.Data.Nat.ModEq

/-!
# Rings with free-running indices

A ring of `N` slots between one producer and one consumer, each of which has an index of `w` bits
that it only ever increments; an index is taken modulo `N` to find a slot.  As `N` divides `2 ^ w`,
nothing happens when an index wraps.

`Holds` says that the slots between the two indices hold the entries that were sent and not taken
yet.  It is about what is *in* the slots: the producer may write the slot it will publish next in as
many steps as it likes (`Holds.scratch`), publish it (`Holds.send`), and the consumer finds what was
sent (`Holds.entry`) and lets go of it (`Holds.take`).
-/

set_option autoImplicit false

namespace Spsc

variable {E : Type} {w N : Nat} [NeZero N] {base : BitVec w}

/-- The index after `i` increments. -/
def index (base : BitVec w) (i : Nat) : BitVec w := base + BitVec.ofNat w i

/-- The slot of the entry with number `i`. -/
def slotOf (N : Nat) [NeZero N] (base : BitVec w) (i : Nat) : Fin N :=
  Fin.ofNat N (index base i).toNat

@[simp] theorem index_zero : index base 0 = base := by simp [index]

theorem index_succ (i : Nat) : index base i + 1 = index base (i + 1) := by
  rw [index, index, BitVec.add_assoc, BitVec.ofNat_add]
  rfl

theorem toNat_index (i : Nat) : (index base i).toNat = (base.toNat + i) % 2 ^ w := by
  rw [index, BitVec.toNat_add, BitVec.toNat_ofNat, Nat.add_mod_mod]

/-- The distance of two indices is the number of entries between them. -/
theorem toNat_index_sub (base : BitVec w) {i j : Nat} (hij : i ≤ j) (hlt : j < i + 2 ^ w) :
    (index base j - index base i).toNat = j - i := by
  have hj : index base j = index base i + BitVec.ofNat w (j - i) := by
    rw [index, index, BitVec.add_assoc, ← BitVec.ofNat_add, Nat.add_sub_cancel' hij]
  rw [hj, BitVec.add_comm, BitVec.add_sub_cancel, BitVec.toNat_ofNat, Nat.mod_eq_of_lt (by omega)]

theorem val_slotOf (hN : N ∣ 2 ^ w) (i : Nat) :
    (slotOf N base i : Nat) = (base.toNat + i) % N := by
  rw [slotOf, Fin.val_ofNat, toNat_index, Nat.mod_mod_of_dvd _ hN]

/-- Entries less than `N` apart have different slots. -/
theorem slotOf_ne (hN : N ∣ 2 ^ w) {i j : Nat} (hij : i < j) (hlt : j < i + N) :
    slotOf N base i ≠ slotOf N base j := by
  rw [ne_eq, Fin.ext_iff, val_slotOf hN, val_slotOf hN]
  intro he
  have hdvd : N ∣ (base.toNat + j) - (base.toNat + i) := (Nat.modEq_iff_dvd' (by omega)).mp he
  rw [show base.toNat + j - (base.toNat + i) = j - i by omega] at hdvd
  exact absurd (Nat.le_of_dvd (by omega) hdvd) (by omega)

/-- The slots, read by `get`, hold the entries of `sent` from number `taken` on. -/
structure Holds (N : Nat) [NeZero N] (base : BitVec w) (get : Fin N → E) (sent : List E)
    (taken : Nat) : Prop where
  le : taken ≤ sent.length
  room : sent.length ≤ taken + N
  entry : ∀ i e, taken ≤ i → sent[i]? = some e → get (slotOf N base i) = e

namespace Holds

variable {get get' : Fin N → E} {sent : List E} {taken : Nat}

theorem nil (base : BitVec w) (get : Fin N → E) : Holds N base get [] 0 :=
  ⟨le_rfl, Nat.zero_le _, fun _ _ _ h ↦ absurd h (by simp)⟩

/-- The distance of the two indices is the number of entries in the ring. -/
theorem distance (h : Holds N base get sent taken) (hN : N < 2 ^ w) :
    (index base sent.length - index base taken).toNat = sent.length - taken :=
  toNat_index_sub base h.le (by have := h.room; omega)

/-- While there is room, the next slot is not in use. -/
theorem scratch (hN : N ∣ 2 ^ w) (h : Holds N base get sent taken) (hroom : sent.length < taken + N)
    (hget : ∀ i, i ≠ slotOf N base sent.length → get' i = get i) :
    Holds N base get' sent taken := by
  refine ⟨h.le, h.room, fun i e hi he ↦ ?_⟩
  have hlt := (List.getElem?_eq_some_iff.mp he).1
  rw [hget _ (slotOf_ne hN hlt (by omega)), h.entry i e hi he]

/-- Publishing the next slot sends what it holds. -/
theorem send (h : Holds N base get sent taken) (hroom : sent.length < taken + N) {e : E}
    (he : get (slotOf N base sent.length) = e) : Holds N base get (sent ++ [e]) taken := by
  have hlen : (sent ++ [e]).length = sent.length + 1 := List.length_append
  refine ⟨by have := h.le; omega, by omega, fun i e' hi he' ↦ ?_⟩
  rcases Nat.lt_or_ge i sent.length with hlt | hge
  · rw [List.getElem?_append_left hlt] at he'
    exact h.entry i e' hi he'
  · have hlt := (List.getElem?_eq_some_iff.mp he').1
    obtain rfl : i = sent.length := by omega
    rw [List.getElem?_concat_length] at he'
    rw [he, Option.some.inj he']

/-- The consumer lets go of an entry. -/
theorem take (h : Holds N base get sent taken) (hlt : taken < sent.length) :
    Holds N base get sent (taken + 1) :=
  ⟨hlt, by have := h.room; omega, fun i e hi he ↦ h.entry i e (by omega) he⟩

end Holds
end Spsc

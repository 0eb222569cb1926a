import Mathlib.Data.List.Basic
import Mathlib.Tactic.Common

/-!
# Searching in cyclic order

The positions `0, …, n - 1` on a circle, in the order in which one comes to them from `c`: the next
one first, `c` itself last.  A search in this order for a position with some property finds one that
is not behind any other that has it (`find?_after`), which is what makes a round-robin scan fair;
the positions in question are described without remainders, so that `n` may change between two
searches.  Each search that stops before `u` comes nearer to it (`UpTo.ahead_lt`).
-/

set_option autoImplicit false

namespace Cyclic

/-- The positions in the order in which one comes to them from `c`. -/
def after (n c : Nat) : List Nat := (List.range n).map fun i ↦ (c + (i + 1)) % n

/-- Going up from `c`, and on from `0` after the last position, one comes to `x` and not to `u`
before it. -/
def UpTo (c x u : Nat) : Prop := (c < x ∧ x ≤ u) ∨ (u ≤ c ∧ (c < x ∨ x ≤ u))

/-- How far it is from `c` on to `u`; all the way round if they are the same. -/
def ahead (n c u : Nat) : Nat := if c < u then u - c else n - c + u

theorem ahead_pos {n c : Nat} (hc : c < n) (u : Nat) : 0 < ahead n c u := by
  rw [ahead]
  split_ifs <;> omega

theorem ahead_lt {n c u : Nat} (hc : c < n) (hu : u < n) (hne : c ≠ u) : ahead n c u < n := by
  rw [ahead]
  split_ifs <;> omega

theorem UpTo.ahead_lt {n c x u : Nat} (h : UpTo c x u) (hc : c < n) (hx : x < n) (hne : x ≠ u) :
    ahead n x u < ahead n c u := by
  rw [UpTo] at h
  rw [ahead, ahead]
  split_ifs <;> omega

theorem mem_after {n c u : Nat} (hu : u < n) : u ∈ after n c := by
  have hn : 0 < n := Nat.zero_lt_of_lt hu
  have hc := Nat.mod_lt c hn
  have hdiv := Nat.div_add_mod c n
  refine List.mem_map.mpr ⟨(u + (n - 1 - c % n)) % n, List.mem_range.mpr (Nat.mod_lt _ hn), ?_⟩
  rw [show c + ((u + (n - 1 - c % n)) % n + 1) = (c + 1) + (u + (n - 1 - c % n)) % n by omega,
    Nat.add_mod_mod, show c + 1 + (u + (n - 1 - c % n)) = u + n * (c / n + 1) by
      rw [Nat.mul_add]; omega, Nat.add_mul_mod_self_left, Nat.mod_eq_of_lt hu]

theorem getElem?_after {n c i : Nat} (hc : c < n) (hi : i < n) :
    (after n c)[i]? = some (if c + (i + 1) < n then c + (i + 1) else c + (i + 1) - n) := by
  rw [after, List.getElem?_map, List.getElem?_range hi, Option.map_some]
  split_ifs with h
  · rw [Nat.mod_eq_of_lt h]
  · rw [Nat.mod_eq_sub_mod (by omega), Nat.mod_eq_of_lt (by omega)]

/-- **The search stops at `u` at the latest**, if `u` has the property. -/
theorem find?_after {n c u : Nat} {p : Nat → Bool} (hc : c < n) (hu : u < n) (hp : p u = true) :
    ∃ x, (after n c).find? p = some x ∧ x < n ∧ UpTo c x u := by
  obtain ⟨x, hx⟩ := Option.isSome_iff_exists.mp (List.find?_isSome.mpr ⟨u, mem_after hu, hp⟩)
  obtain ⟨-, i, hi, hxi, hbefore⟩ := List.find?_eq_some_iff_getElem.mp hx
  have hin : i < n := by rwa [after, List.length_map, List.length_range] at hi
  have hx' := getElem?_after hc hin
  rw [List.getElem?_eq_getElem hi, hxi, Option.some.injEq] at hx'
  -- where `u` stands in the order
  obtain ⟨j, hj, hju⟩ :
      ∃ j < n, (if c + (j + 1) < n then c + (j + 1) else c + (j + 1) - n) = u := by
    refine ⟨if c < u then u - c - 1 else u + n - c - 1, ?_, ?_⟩
    · split_ifs <;> omega
    · split_ifs <;> omega
  have hle : i ≤ j := by
    by_contra hlt
    have hnot := hbefore j (by omega)
    have hu' := getElem?_after hc hj
    rw [List.getElem?_eq_getElem (by omega), Option.some.injEq, hju] at hu'
    rw [hu', hp] at hnot
    exact absurd hnot (by decide)
  refine ⟨x, hx, by rw [hx']; split_ifs <;> omega, ?_⟩
  rw [UpTo, hx', ← hju]
  split_ifs <;> omega

end Cyclic

import Mathlib.Data.List.Nodup
import Mathlib.Data.List.Perm.Subperm

/-!
# A few slots for things that came too early

A fixed number of slots, each with a key and a value; the key `zero` marks a slot that is empty.
`put` uses the first empty slot, and does nothing if there is none; `take` empties the first slot
with a given key and returns its value.  What is in the slots is a bag: `put` adds to it as long as
a slot is free, and `take` removes from it.
-/

set_option autoImplicit false

namespace Stash

variable {κ ν : Type} [DecidableEq κ] (zero : κ)

/-- What the slots hold. -/
def held (s : List (κ × ν)) : List (κ × ν) := s.filter fun x ↦ x.1 ≠ zero

/-- Store in the first empty slot. -/
def put (x : κ × ν) : List (κ × ν) → List (κ × ν)
  | [] => []
  | y :: s => if y.1 = zero then x :: s else y :: put x s

/-- Empty the first slot with the given key. -/
def take (key : κ) : List (κ × ν) → Option (ν × List (κ × ν))
  | [] => none
  | y :: s =>
    if key ≠ zero ∧ y.1 = key then some (y.2, (zero, y.2) :: s)
    else (take key s).map fun r ↦ (r.1, y :: r.2)

section Lemmas

variable {zero} {x : κ × ν} {key : κ} {v : ν} {s s' : List (κ × ν)}

theorem held_cons_zero (h : x.1 = zero) : held zero (x :: s) = held zero s :=
  List.filter_cons_of_neg (by simp [h])

theorem held_cons (h : x.1 ≠ zero) : held zero (x :: s) = x :: held zero s :=
  List.filter_cons_of_pos (by simp [h])

theorem length_put (x : κ × ν) (s : List (κ × ν)) : (put zero x s).length = s.length := by
  induction s with
  | nil => rfl
  | cons y s ih =>
    rw [put]
    split_ifs
    · rfl
    · rw [List.length_cons, List.length_cons, ih]

/-- While a slot is free, nothing is lost. -/
theorem held_put (hx : x.1 ≠ zero) (hfree : (held zero s).length < s.length) :
    (held zero (put zero x s)).Perm (x :: held zero s) := by
  induction s with
  | nil => exact absurd hfree (Nat.lt_irrefl 0)
  | cons y s ih =>
    rw [put]
    split_ifs with hy
    · rw [held_cons hx, held_cons_zero hy]
    · rw [held_cons hy, List.length_cons, List.length_cons] at hfree
      rw [held_cons hy, held_cons hy]
      exact ((ih (by omega)).cons y).trans (List.Perm.swap x y _)

theorem take_eq_some (h : take zero key s = some (v, s')) :
    (held zero s).Perm ((key, v) :: held zero s') ∧ s'.length = s.length := by
  induction s generalizing s' with
  | nil => cases h
  | cons y s ih =>
    rw [take] at h
    split_ifs at h with hy
    · obtain ⟨hkey, rfl⟩ := hy
      obtain ⟨rfl, rfl⟩ := Prod.mk.inj (Option.some.inj h)
      rw [held_cons hkey, held_cons_zero (x := (zero, y.2)) rfl]
      exact ⟨List.Perm.refl _, rfl⟩
    · obtain ⟨⟨v₁, s₁⟩, hs₁, he⟩ := Option.map_eq_some_iff.mp h
      obtain ⟨rfl, rfl⟩ := Prod.mk.inj he
      obtain ⟨hperm, hlen⟩ := ih hs₁
      refine ⟨?_, by rw [List.length_cons, List.length_cons, hlen]⟩
      by_cases hzero : y.1 = zero
      · rw [held_cons_zero hzero, held_cons_zero hzero]
        exact hperm
      · rw [held_cons hzero, held_cons hzero]
        exact (hperm.cons y).trans (List.Perm.swap _ _ _)

theorem take_eq_none (hkey : key ≠ zero) (h : take zero key s = none) :
    key ∉ (held zero s).map Prod.fst := by
  induction s with
  | nil => exact List.not_mem_nil
  | cons y s ih =>
    rw [take] at h
    split_ifs at h with hy
    have hne : y.1 ≠ key := fun he ↦ hy ⟨hkey, he⟩
    have hrest := ih (Option.map_eq_none_iff.mp h)
    by_cases hzero : y.1 = zero
    · rwa [held_cons_zero hzero]
    · rw [held_cons hzero, List.map_cons, List.mem_cons, not_or]
      exact ⟨hne.symm, hrest⟩

/-- Empty slots hold nothing. -/
theorem held_replicate (n : Nat) (v : ν) : held zero (List.replicate n (zero, v)) = [] := by
  simp [held]

end Lemmas

end Stash

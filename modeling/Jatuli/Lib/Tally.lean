import Mathlib.Algebra.BigOperators.Group.List.Basic
import Mathlib.Algebra.Order.Group.Multiset
import Mathlib.Data.List.Indexes

/-!
# Tallies

What the entries of a list come to, each counted with its position.  A tally follows the changes of
the list: a new entry at the end adds what it comes to, and changing one entry exchanges what it
came to for what it comes to now.
-/

set_option autoImplicit false

namespace List

variable {α β M : Type} [AddCommMonoid M] {f g : Nat → α → M} {l l' : List α} {i : Nat} {a b : α}

/-- The sum over the entries, with their positions. -/
def tally (f : Nat → α → M) (l : List α) : M := (l.mapIdx f).sum

theorem tally_concat (f : Nat → α → M) (l : List α) (a : α) :
    (l ++ [a]).tally f = l.tally f + f l.length a := by
  rw [tally, mapIdx_append_one, sum_append, sum_singleton, tally]

theorem tally_cons (f : Nat → α → M) (a : α) (l : List α) :
    (a :: l).tally f = f 0 a + l.tally fun i ↦ f (i + 1) := by
  rw [tally, mapIdx_cons, sum_cons]
  rfl

/-- Changing one entry. -/
theorem tally_set : ∀ {f : Nat → α → M} {l : List α} {i : Nat}, l[i]? = some a →
    (l.set i b).tally f + f i a = l.tally f + f i b
  | f, x :: l, 0, h => by
    obtain rfl := Option.some.inj h
    rw [set_cons_zero, tally_cons, tally_cons, add_right_comm, add_comm (f 0 b), add_right_comm]
  | f, x :: l, i + 1, h => by
    have ih := tally_set (f := fun i ↦ f (i + 1)) (l := l) (i := i) h
    rw [set_cons_succ, tally_cons, tally_cons, add_assoc, ih, add_assoc]

theorem tally_congr {l : List α} {l' : List β} {f : Nat → α → M} {g : Nat → β → M}
    (h : ∀ i, l[i]?.map (f i) = l'[i]?.map (g i)) : l.tally f = l'.tally g := by
  rw [tally, tally]
  congr 1
  refine ext_getElem? fun i ↦ ?_
  rw [getElem?_mapIdx, getElem?_mapIdx, h i]

/-- What is in a tally of multisets is in what one of the entries comes to. -/
theorem mem_tally {x : β} : ∀ {f : Nat → α → Multiset β} {l : List α}, x ∈ l.tally f →
    ∃ i a, l[i]? = some a ∧ x ∈ f i a
  | f, [], h => absurd h (Multiset.notMem_zero x)
  | f, a :: l, h => by
    rw [tally_cons, Multiset.mem_add] at h
    rcases h with h | h
    · exact ⟨0, a, rfl, h⟩
    · obtain ⟨i, b, hb, hx⟩ := mem_tally h
      exact ⟨i + 1, b, hb, hx⟩

end List

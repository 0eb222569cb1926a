import Mathlib.Logic.Function.Basic
import Mathlib.Data.List.Nodup
import Mathlib.Tactic.Common

/-!
# Writing one entry after another

A memory is written at `dst j` for each `j` of a list, in its order; what is written may depend on
the memory at that time.  If no write changes what a later one writes, and no place is written
twice, then the result is that of all the writes at once: every `dst j` has what `val j` gives in
the memory before the first of them (`writes_apply`), and nothing else has changed (`writes_of_ne`).

A copy within one memory writes what it reads from `src j`; its condition is that no place is read
after it has been written (`copies_apply`).
-/

set_option autoImplicit false

namespace WriteOrder

variable {ι α β : Type} [DecidableEq α] (dst : ι → α) (val : ι → (α → β) → β)

/-- Write the entries of the list, in its order. -/
def writes : List ι → (α → β) → α → β
  | [], m => m
  | j :: js, m => writes js (Function.update m (dst j) (val j m))

variable {dst val}

theorem writes_of_ne {js : List ι} {m : α → β} {x : α} (h : ∀ j ∈ js, x ≠ dst j) :
    writes dst val js m x = m x := by
  induction js generalizing m with
  | nil => rfl
  | cons j js ih =>
    rw [writes, ih fun i hi ↦ h i (List.mem_cons_of_mem j hi)]
    exact Function.update_of_ne (h j List.mem_cons_self) _ _

/-- **Writes that do not disturb each other happen at once.** -/
theorem writes_apply {js : List ι} {m : α → β} (h : js.Pairwise fun j i ↦
      dst j ≠ dst i ∧ ∀ m b, val i (Function.update m (dst j) b) = val i m)
    {j : ι} (hj : j ∈ js) : writes dst val js m (dst j) = val j m := by
  induction js generalizing m with
  | nil => cases hj
  | cons i js ih =>
    obtain ⟨hfirst, hrest⟩ := List.pairwise_cons.mp h
    rw [writes]
    rcases List.mem_cons.mp hj with rfl | hj
    · rw [writes_of_ne fun i hi ↦ (hfirst i hi).1, Function.update_self]
    · rw [ih hrest hj, (hfirst j hj).2]

/-- Copies of which none writes what a later one reads. -/
theorem copies_apply {src : ι → α} {js : List ι} {m : α → β}
    (h : js.Pairwise fun j i ↦ dst j ≠ dst i ∧ dst j ≠ src i) {j : ι} (hj : j ∈ js) :
    writes dst (fun i m ↦ m (src i)) js m (dst j) = m (src j) :=
  writes_apply (h.imp fun hne ↦ ⟨hne.1, fun _ _ ↦ Function.update_of_ne hne.2.symm _ _⟩) hj

end WriteOrder

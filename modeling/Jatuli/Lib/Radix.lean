import Mathlib.Data.List.Basic
import Mathlib.Tactic.Common

/-!
# Trees given by a child function

A radix tree stored in some memory is seen here only through its child function: what node, if
any, hangs below node `t` at index `i`.  `walk c t path` follows a path of indices from `t`.  The
memory behind the tree enters only as two child functions, before and after a write, and the
lemmas say which walks notice the difference.
-/

set_option autoImplicit false

namespace Radix

variable {N I : Type}

/-- Follow a path of indices through the child function `c`. -/
def walk (c : N → I → Option N) : N → List I → Option N
  | t, [] => some t
  | t, i :: path => (c t i).bind fun u ↦ walk c u path

variable {c c' : N → I → Option N}

@[simp] theorem walk_nil (t : N) : walk c t [] = some t := rfl

@[simp] theorem walk_cons (t : N) (i : I) (path : List I) :
    walk c t (i :: path) = (c t i).bind fun u ↦ walk c u path := rfl

theorem walk_append : ∀ (p q : List I) (t : N),
    walk c t (p ++ q) = (walk c t p).bind fun u ↦ walk c u q
  | [], _, _ => rfl
  | i :: p, q, t => by
    rw [List.cons_append, walk_cons, walk_cons, Option.bind_assoc]
    congr 1
    funext u
    exact walk_append p q u

theorem walk_concat (p : List I) (i : I) (t : N) :
    walk c t (p ++ [i]) = (walk c t p).bind fun u ↦ c u i := by
  rw [walk_append]
  congr 1
  funext u
  simp

/-- The last step of a walk that succeeds. -/
theorem walk_concat_eq_some {p : List I} {i : I} {t u : N} (h : walk c t (p ++ [i]) = some u) :
    ∃ v, walk c t p = some v ∧ c v i = some u := by
  rw [walk_concat] at h
  exact Option.bind_eq_some_iff.mp h

/-- **Frame rule**: a walk is the same under two child functions that agree at every step it
takes. -/
theorem walk_congr : ∀ (path : List I) (t : N),
    (∀ p j q, path = p ++ j :: q → ∀ u, walk c t p = some u → c' u j = c u j) →
    walk c' t path = walk c t path
  | [], _, _ => rfl
  | i :: path, t, h => by
    rw [walk_cons, walk_cons, h [] i path rfl t rfl]
    cases hc : c t i with
    | none => rfl
    | some u =>
      refine walk_congr path u fun p j q hp v hv ↦ h (i :: p) j q (by rw [hp]; rfl) v ?_
      rw [walk_cons, hc]
      exact hv

/-- Where children only disappear, walks only disappear. -/
theorem walk_mono : ∀ (path : List I) {t u : N},
    (∀ p j q, path = p ++ j :: q → ∀ v w, walk c t p = some v → c' v j = some w → c v j = some w) →
    walk c' t path = some u → walk c t path = some u
  | [], _, _, _, hw => hw
  | i :: path, t, u, h, hw => by
    obtain ⟨v, hv, hw⟩ := Option.bind_eq_some_iff.mp hw
    have hc := h [] i path rfl t v rfl hv
    rw [walk_cons, hc, Option.bind_some]
    refine walk_mono path (fun p j q hp x w hx ↦ h (i :: p) j q (by rw [hp]; rfl) x w ?_) hw
    rw [walk_cons, hc]
    exact hx

end Radix

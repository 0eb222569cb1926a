import Jatuli.Lib.ByteMem

/-!
# Linked lists threaded through memory

A list of nodes in which the first eight bytes of each node hold the address of the next, `0`
ending the list: the shape of an intrusive free list.  `Linked m h l` says that starting from the
address `h` memory `m` spells out exactly the nodes of `l`.
-/

set_option autoImplicit false

namespace Mem

/-- Memory `m` holds the linked list `l` whose first node is at `h`. -/
def Linked (m : Mem) : Nat → List Nat → Prop
  | h, [] => h = 0
  | h, f :: fs => h = f ∧ f ≠ 0 ∧ Linked m (m.load f 8) fs

@[simp] theorem linked_nil (m : Mem) (h : Nat) : Linked m h [] ↔ h = 0 := Iff.rfl

@[simp] theorem linked_cons (m : Mem) (h f : Nat) (fs : List Nat) :
    Linked m h (f :: fs) ↔ h = f ∧ f ≠ 0 ∧ Linked m (m.load f 8) fs := Iff.rfl

/-- Only the link words of the nodes matter. -/
theorem Linked.congr {m m' : Mem} : ∀ {l : List Nat} {h : Nat},
    (∀ f ∈ l, m'.load f 8 = m.load f 8) → Linked m h l → Linked m' h l
  | [], _, _, hl => hl
  | f :: fs, _, hm, ⟨hf, h0, hl⟩ => by
    refine ⟨hf, h0, ?_⟩
    rw [hm f (by simp)]
    exact hl.congr fun g hg ↦ hm g (by simp [hg])

/-- A new first node, whose link word is the old head. -/
theorem Linked.push {m : Mem} {h f : Nat} {l : List Nat} (hl : Linked m h l) (hf : f ≠ 0)
    (hh : h < 2 ^ 64) (hapart : ∀ g ∈ l, g + 8 ≤ f ∨ f + 8 ≤ g) :
    Linked (m.store f 8 h) f (f :: l) := by
  refine ⟨rfl, hf, ?_⟩
  rw [load_store_of_lt m hh]
  exact hl.congr fun g hg ↦ load_store_disjoint (hapart g hg)

/-- A list that starts at an address other than `0` has a first node. -/
theorem Linked.exists_cons {m : Mem} {h : Nat} {l : List Nat} (hl : Linked m h l) (h0 : h ≠ 0) :
    ∃ fs, l = h :: fs ∧ Linked m (m.load h 8) fs := by
  cases l with
  | nil => exact absurd hl h0
  | cons f fs =>
    obtain ⟨rfl, -, hfs⟩ := hl
    exact ⟨fs, rfl, hfs⟩

/-- A list that starts at `0` is empty. -/
theorem Linked.eq_nil {m : Mem} {l : List Nat} (hl : Linked m 0 l) : l = [] := by
  cases l with
  | nil => rfl
  | cons f fs => exact absurd hl.1.symm hl.2.1

end Mem

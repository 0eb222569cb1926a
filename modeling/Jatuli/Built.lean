import Jatuli.Loading
import Mathlib.Data.List.Nodup

/-!
# What has been built

The pages of a plan, after the plan has been carried out: each is mapped where the plan has it, with
the plan's flags, and its frame holds the plan's bytes.  What is built later does not disturb that,
as long as it goes to other addresses (`Owned.addPages_built`).  From the entry of a page follows
what the hardware and `translate` make of every address in it.
-/

set_option autoImplicit false

namespace Jatuli

/-! ## Addresses in a page -/

/-- Addresses in one page have the same indices. -/
theorem pagePath_of_page {va x : Nat} (h : x / 4096 = va / 4096) : pagePath x = pagePath va := by
  simp only [pagePath, tablePath, List.cons_append, List.nil_append, List.cons.injEq, and_true,
    tableIndex_eq]
  omega

section Entry

variable {m : Mem} {r va x t e : Nat} (hr : r &&& addrMask = r) (hx : x / 4096 = va / 4096)
  (ht : walk m r (tablePath va) = some t) (he : entry m t (tableIndex va 12) = e)
  (htype : e &&& descPage = descPage)
include hr hx ht he htype

/-- The entry for a page translates every address in it. -/
theorem descriptorAt_of_entry (hlt : va < 2 ^ 48) : descriptorAt m r x = some e := by
  obtain ⟨htable, hindex⟩ := List.append_inj' (pagePath_of_page hx) rfl
  rw [descriptorAt, if_pos (by omega), l0Ptr, hr, walkVa_tablePath, htable, ht]
  simp only [Option.bind_eq_bind, Option.bind_some]
  rw [List.singleton_inj.mp hindex, he, if_pos htype]

theorem translate_of_entry : translate m r x = some ((e &&& addrMask) ||| (x &&& 0xFFF)) := by
  obtain ⟨htable, hindex⟩ := List.append_inj' (pagePath_of_page hx) rfl
  rw [translate, l0Ptr, hr, walkVa_tablePath, htable, ht]
  simp only [Option.bind_eq_bind, Option.bind_some]
  rw [List.singleton_inj.mp hindex, he, if_neg (valid_of_table htype)]

end Entry

/-! ## Built pages -/

/-- The page has been built in the space at `r`, with the frame `f`. -/
structure PageSpec.Built (m : Mem) (r : Nat) (pg : PageSpec) (f : Nat) : Prop where
  mapped : ∃ t, walk m r (tablePath pg.va) = some t ∧
    entry m t (tableIndex pg.va 12) = f ||| pg.flags
  bytes : ∀ (i : Nat) (b : UInt8), pg.bytes[i]? = some b → m (f + i) = b

section Build

variable {strict : Prop} {start kernelL1 : Nat} {roots : Option Nat → Option Nat} {id : Option Nat}
  {r : Nat} {pages : Option Nat → List (Nat × Nat)} {own : Nat → Owner} {s s' : Phys}

/-- A built page stays built while its entry and its frame stay as they are. -/
theorem PageSpec.Built.kept {m m' : Mem} {pg : PageSpec} {f : Nat} (h : pg.Built m r f)
    (hok : pg.Ok id) {path : List Nat} (hne : pagePath pg.va ≠ path)
    (hkept : LeavesKept id r path m m') (hm : Set.EqOn m' m (frameAt f)) : pg.Built m' r f where
  mapped := by
    obtain ⟨t, ht, he⟩ := h.mapped
    obtain ⟨ht', he'⟩ := hkept _ t _ rfl (inside_pagePath hok.slot) hne ht
    exact ⟨t, ht', he'.trans he⟩
  bytes i b hb := by
    have hi : i < 4096 := (List.getElem?_eq_some_iff.mp hb).1.trans_le hok.length
    rw [hm (mem_frameAt.mpr ⟨Nat.le_add_right _ _, by omega⟩), h.bytes i b hb]

/-- A page that is being built. -/
theorem Owned.addPage_built (h : Owned strict start kernelL1 roots pages own s)
    (hr : roots id = some r) {pg : PageSpec} (hok : pg.Ok id) {f : Nat}
    (ha : Jatuli.addPage r s pg = some (f, s')) :
    (∃ own', Owned strict start kernelL1 roots
        (Function.update pages id (pages id ++ [(pg.va, f)])) own' s') ∧
      pg.Built s'.mem r f ∧ LeavesKept id r (pagePath pg.va) s.mem s'.mem ∧
      ∀ g, Managed start g → own g = .page id → Set.EqOn s'.mem s.mem (frameAt g) := by
  obtain ⟨⟨f', s₀⟩, halloc, ha⟩ := Option.bind_eq_some_iff.mp ha
  obtain ⟨s₁, hmap, ha⟩ := Option.bind_eq_some_iff.mp ha
  obtain ⟨rfl, rfl⟩ := Prod.mk.inj (Option.some.inj ha)
  obtain ⟨⟨own', ho', hgrown, -⟩, -, hfill, hentry, hkept⟩ :=
    h.addPage hr hok.lt hok.slot halloc hok.length hok.flags hmap
  refine ⟨⟨own', ho'⟩, ⟨hentry, fun i b hb ↦ ?_⟩, hkept, fun g hg hog ↦ ?_⟩
  · obtain ⟨hi, rfl⟩ := List.getElem?_eq_some_iff.mp hb
    have hlen := hok.length
    rw [hfill (mem_frameAt.mpr ⟨Nat.le_add_right _ _, by omega⟩)]
    exact Mem.fill_get _ _ _ _ hi
  · exact hgrown.mem g hg (by rw [hog]; nofun) fun q ↦ by rw [hog]; nofun

/-- **Everything that was to be built has been built**, and what was there before is still there. -/
theorem Owned.addPages_built (hr : roots id = some r) {pgs : List PageSpec} {new : List (Nat × Nat)}
    (h : Owned strict start kernelL1 roots pages own s) (built : List (PageSpec × Nat))
    (hbuilt : ∀ x ∈ built, x.1.Ok id ∧ (x.1.va, x.2) ∈ pages id ∧ x.1.Built s.mem r x.2)
    (hok : ∀ pg ∈ pgs, pg.Ok id)
    (hnodup : (built.map (fun x ↦ pagePath x.1.va) ++ pgs.map (fun pg ↦ pagePath pg.va)).Nodup)
    (ha : Jatuli.addPages r pgs s = some (new, s')) :
    ∃ more : List (PageSpec × Nat), more.map Prod.fst = pgs ∧
      new = more.map (fun x ↦ (x.1.va, x.2)) ∧
      ∀ x ∈ built ++ more, x.1.Built s'.mem r x.2 := by
  induction pgs generalizing built pages own s new with
  | nil =>
    obtain ⟨rfl, rfl⟩ := Prod.mk.inj (Option.some.inj ha)
    refine ⟨[], rfl, rfl, fun x hx ↦ (hbuilt x ?_).2.2⟩
    rwa [List.append_nil] at hx
  | cons pg pgs ih =>
    obtain ⟨⟨f, s₁⟩, hone, ha⟩ := Option.bind_eq_some_iff.mp ha
    obtain ⟨⟨rest, s₂⟩, hrest, ha⟩ := Option.bind_eq_some_iff.mp ha
    obtain ⟨rfl, rfl⟩ := Prod.mk.inj (Option.some.inj ha)
    obtain ⟨hpg, hok'⟩ := List.forall_mem_cons.mp hok
    obtain ⟨⟨own₁, ho₁⟩, hnew, hkept, hpages⟩ := h.addPage_built hr hpg hone
    have hne : ∀ x ∈ built, pagePath x.1.va ≠ pagePath pg.va := fun x hx he ↦
      List.disjoint_of_nodup_append hnodup (List.mem_map.mpr ⟨x, hx, he⟩) List.mem_cons_self
    have hbuilt₁ : ∀ x ∈ built ++ [(pg, f)], x.1.Ok id ∧
        (x.1.va, x.2) ∈ Function.update pages id (pages id ++ [(pg.va, f)]) id ∧
        x.1.Built s₁.mem r x.2 := by
      intro x hx
      rw [Function.update_self, List.mem_append]
      rcases List.mem_append.mp hx with hx | hx
      · obtain ⟨hxok, hxpage, hxbuilt⟩ := hbuilt x hx
        obtain ⟨hmx, hox⟩ := ((h.page id).2 x.2).mp (List.mem_map.mpr ⟨_, hxpage, rfl⟩)
        exact ⟨hxok, .inl hxpage, hxbuilt.kept hxok (hne x hx) hkept (hpages _ hmx hox)⟩
      · obtain rfl := List.mem_singleton.mp hx
        exact ⟨hpg, .inr (List.mem_singleton.mpr rfl), hnew⟩
    have hnodup₁ : ((built ++ [(pg, f)]).map (fun x ↦ pagePath x.1.va) ++
        pgs.map (fun pg ↦ pagePath pg.va)).Nodup := by
      rw [List.map_append, List.append_assoc]
      exact hnodup
    obtain ⟨more, hmore, hrestEq, hall⟩ := ih ho₁ _ hbuilt₁ hok' hnodup₁ hrest
    refine ⟨(pg, f) :: more, by rw [List.map_cons, hmore], by rw [hrestEq, List.map_cons], ?_⟩
    rwa [List.append_cons]

end Build

end Jatuli

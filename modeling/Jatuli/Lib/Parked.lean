import Mathlib.Data.List.FinRange
import Mathlib.Data.List.Sort
import Mathlib.Data.List.Flatten
import Mathlib.Tactic.Common

/-!
# Requests parked in a table, served from a queue

Items arrive in a queue, and requests ask for a number of them.  A request is served at once with
what there is; one that finds nothing is parked in a table, and the table is gone through, slot by
slot, when items have arrived.  Items may be lost on the way to a request that does not take them.

`Step` is what one request, or one visit to a slot, can do; `Steps` and `Scan` are a sequence of
requests and a pass over the table.  What they keep is here: the items come out in the order they
went in, nothing is in the queue while a request is parked (`Calm`), and requests are served in the
order they came in (`turns`) as long as the occupied slots are in that order.
-/

set_option autoImplicit false

namespace Parked

variable {β ρ α : Type} {n : Nat}

/-! ## Tables -/

/-- The slots in use, in ascending order. -/
def occupied (t : Vector (Option ρ) n) : List (Fin n) :=
  (List.finRange n).filter fun i ↦ t[i].isSome

section Occupied

variable {t : Vector (Option ρ) n} {i : Fin n}

theorem mem_occupied : i ∈ occupied t ↔ t[i] ≠ none := by
  rw [occupied, List.mem_filter, Option.isSome_iff_ne_none]
  exact and_iff_right (List.mem_finRange i)

theorem occupied_eq_nil : occupied t = [] ↔ ∀ i : Fin n, t[i] = none := by
  rw [List.eq_nil_iff_forall_not_mem]
  exact forall_congr' fun i ↦ by rw [mem_occupied, not_not]

theorem pairwise_occupied (t : Vector (Option ρ) n) : (occupied t).Pairwise (· < ·) :=
  (List.pairwise_lt_finRange n).filter _

/-- A list in ascending order with the slots in use is the list of them. -/
theorem eq_occupied {l : List (Fin n)} (hl : l.Pairwise (· < ·))
    (hmem : ∀ j : Fin n, j ∈ l ↔ t[j] ≠ none) : l = occupied t :=
  hl.eq_of_mem_iff (pairwise_occupied t) fun j ↦ by rw [hmem, mem_occupied]

theorem getElem_set_fin (x : Option ρ) (j : Fin n) :
    (t.set i x)[j] = if i = j then x else t[j] := by
  rw [Fin.getElem_fin, Fin.getElem_fin, Vector.getElem_set]
  exact if_congr Fin.ext_iff.symm rfl rfl

/-- The first slot in use is freed. -/
theorem occupied_eq_cons (hi : t[i] ≠ none) (hbelow : ∀ j < i, t[j] = none) :
    occupied t = i :: occupied (t.set i none) := by
  refine (eq_occupied (List.pairwise_cons.mpr ⟨fun j hj ↦ ?_, pairwise_occupied _⟩) fun j ↦ ?_).symm
  · rw [mem_occupied, getElem_set_fin] at hj
    rcases lt_trichotomy i j with hlt | rfl | hgt
    · exact hlt
    · exact absurd (if_pos rfl) hj
    · rw [if_neg hgt.ne', hbelow j hgt] at hj
      exact absurd rfl hj
  · rw [List.mem_cons, mem_occupied, getElem_set_fin]
    by_cases hij : i = j
    · subst hij
      exact iff_of_true (.inl rfl) hi
    · rw [if_neg hij]
      exact or_iff_right (Ne.symm hij)

/-- A slot after all that are in use is taken. -/
theorem occupied_set (hi : t[i] = none) (habove : ∀ j, i < j → t[j] = none) (r : ρ) :
    occupied (t.set i (some r)) = occupied t ++ [i] := by
  refine (eq_occupied (List.pairwise_append.mpr ⟨pairwise_occupied _, List.pairwise_singleton _ _,
    fun j hj j' hj' ↦ ?_⟩) fun j ↦ ?_).symm
  · rw [List.mem_singleton.mp hj']
    rw [mem_occupied] at hj
    rcases lt_trichotomy i j with hlt | rfl | hgt
    · exact absurd (habove j hlt) hj
    · exact absurd hi hj
    · exact hgt
  · rw [List.mem_append, mem_occupied, List.mem_singleton, getElem_set_fin]
    by_cases hij : i = j
    · subst hij
      rw [if_pos rfl]
      exact iff_of_true (.inr rfl) (Option.some_ne_none r)
    · rw [if_neg hij]
      exact or_iff_left (Ne.symm hij)

end Occupied

/-! ## What becomes of requests -/

/-- What becomes of a request that is accepted. -/
inductive Event (β ρ α : Type) (n : Nat)
  /-- A request for `len` items has got these, and is answered; `slot` is where it was parked, if it
  was. -/
  | done (slot : Option (Fin n)) (len : Nat) (items : List β) (answer : α)
  /-- The request is parked in a slot of this table. -/
  | parked (slot : Fin n) (r : ρ) (table : Vector (Option ρ) n)

namespace Event

/-- What a request has got. -/
def items : Event β ρ α n → List β
  | .done _ _ items _ => items
  | .parked _ _ _ => []

/-- A request gets no more than it asks for, and one item at least if it asks for any. -/
def Bounded : Event β ρ α n → Prop
  | .done _ len items _ => items.length ≤ len ∧ (len ≠ 0 → 1 ≤ items.length)
  | .parked _ _ _ => True

/-- The slots of the parked requests in the order they came in, after the event; `none` if the
request was not the one whose turn it was: the oldest one, or one that asks for nothing. -/
def turn (q : List (Fin n)) : Event β ρ α n → Option (List (Fin n))
  | .done none len _ _ => if len = 0 ∨ q = [] then some q else none
  | .done (some i) _ _ _ => if q.head? = some i then some q.tail else none
  | .parked i _ _ => some (q ++ [i])

end Event

/-- The slots of the parked requests in the order they came in, after the events, if all got served
in their turn. -/
def turns (q : List (Fin n)) (es : List (Event β ρ α n)) : Option (List (Fin n)) :=
  es.foldlM Event.turn q

theorem turns_append (q : List (Fin n)) (es es' : List (Event β ρ α n)) :
    turns q (es ++ es') = (turns q es).bind fun q' ↦ turns q' es' := List.foldlM_append

theorem turns_singleton (q : List (Fin n)) (e : Event β ρ α n) : turns q [e] = e.turn q := by
  rw [turns, List.foldlM_cons]
  exact bind_pure _

/-! ## What requests do -/

/-- What is known of requests: how many items one asks for, whether it is acceptable, which answers
are meant for it, and whether it is sure to take the first item, or all of them. -/
structure Rules (ρ α : Type) where
  len : ρ → Nat
  accepts : ρ → Prop
  answers : ρ → α → Prop
  first : ρ → Prop
  all : ρ → Prop
  first_of_all : ∀ r, accepts r → all r → first r

/-- The queue and the table. -/
structure State (β ρ : Type) (n : Nat) where
  queue : List β
  table : Vector (Option ρ) n

/-- A request, parked or not, that gets nothing: what was in the queue is lost. -/
structure Starved (R : Rules ρ α) (r : ρ) (queue rest : List β) : Prop where
  accepts : R.accepts r
  suffix : ∃ lost, queue = lost ++ rest
  first : R.first r → queue = []

/-- A request, parked or not, that gets some items. -/
structure Filled (R : Rules ρ α) (r : ρ) (items queue rest : List β) : Prop where
  accepts : R.accepts r
  ne_nil : items ≠ []
  length_le : items.length ≤ R.len r
  suffix : ∃ lost, queue = items ++ lost ++ rest ∧ (R.all r → lost = [])

/-- What a request can do when it comes in. -/
inductive Step (R : Rules ρ α) (s : State β ρ n) : List (Event β ρ α n) → State β ρ n → Prop
  /-- It is refused, or is none. -/
  | pass : Step R s [] s
  /-- It asks for nothing. -/
  | empty {r : ρ} {answer : α} (hlen : R.len r = 0) (ha : R.answers r answer) :
      Step R s [.done none 0 [] answer] s
  /-- It is served. -/
  | fill {r : ρ} {answer : α} {items rest : List β} (ha : R.answers r answer)
      (h : Filled R r items s.queue rest) :
      Step R s [.done none (R.len r) items answer] ⟨rest, s.table⟩
  /-- It gets nothing, and is refused for want of a slot. -/
  | full {r : ρ} {rest : List β} (h : Starved R r s.queue rest) : Step R s [] ⟨rest, s.table⟩
  /-- It is parked. -/
  | park {i : Fin n} {r : ρ} {rest : List β} (hi : s.table[i] = none)
      (h : Starved R r s.queue rest) :
      Step R s [.parked i r s.table] ⟨rest, s.table.set i (some r)⟩

/-- What a visit to a slot can do. -/
inductive Visit (R : Rules ρ α) (i : Fin n) (s : State β ρ n) :
    List (Event β ρ α n) → State β ρ n → Prop
  /-- Nobody is there. -/
  | free (hi : s.table[i] = none) : Visit R i s [] s
  /-- The request is served. -/
  | fill {r : ρ} {answer : α} {items rest : List β} (ha : R.answers r answer)
      (hi : s.table[i] = some r) (h : Filled R r items s.queue rest) :
      Visit R i s [.done (some i) (R.len r) items answer] ⟨rest, s.table.set i none⟩
  /-- It gets nothing. -/
  | starve {r : ρ} {rest : List β} (hi : s.table[i] = some r) (h : Starved R r s.queue rest) :
      Visit R i s [] ⟨rest, s.table⟩

/-- Requests that come in one after the other. -/
inductive Steps (R : Rules ρ α) (s : State β ρ n) : List (Event β ρ α n) → State β ρ n → Prop
  | refl : Steps R s [] s
  | step {es es' : List (Event β ρ α n)} {s₁ s₂ : State β ρ n} (h : Steps R s es s₁)
      (h' : Step R s₁ es' s₂) : Steps R s (es ++ es') s₂

/-- Visits to the slots before the given one, in ascending order. -/
inductive Scan (R : Rules ρ α) (s : State β ρ n) : Nat → List (Event β ρ α n) → State β ρ n → Prop
  | refl : Scan R s 0 [] s
  | visit {i : Fin n} {es es' : List (Event β ρ α n)} {s₁ s₂ : State β ρ n} (h : Scan R s i es s₁)
      (h' : Visit R i s₁ es' s₂) : Scan R s (i + 1) (es ++ es') s₂

/-! ## The stream -/

/-- What all of these do with the queue and the table. -/
structure Flow (R : Rules ρ α) (s : State β ρ n) (es : List (Event β ρ α n)) (s' : State β ρ n) :
    Prop where
  /-- Items come out in the order they went in. -/
  sublist : (es.flatMap Event.items ++ s'.queue).Sublist s.queue
  /-- None is lost if all requests take all of them. -/
  lossless : (∀ r, R.accepts r → R.all r) → es.flatMap Event.items ++ s'.queue = s.queue
  bounded : ∀ e ∈ es, e.Bounded
  /-- What is parked afterwards was parked before, or is parked now. -/
  table : ∀ (i : Fin n) (r : ρ), s'.table[i] = some r →
    s.table[i] = some r ∨ ∃ t, .parked i r t ∈ es
  /-- Only acceptable requests are parked. -/
  accepts : ∀ (i : Fin n) (r : ρ) (t : Vector (Option ρ) n), .parked i r t ∈ es → R.accepts r

section Flow

variable {R : Rules ρ α} {r : ρ} {s s₁ s' : State β ρ n} {es es' : List (Event β ρ α n)}
  {items queue rest : List β}

theorem Starved.sublist (h : Starved R r queue rest) : rest.Sublist queue := by
  obtain ⟨lost, rfl⟩ := h.suffix
  exact List.sublist_append_right lost rest

theorem Starved.eq_nil (h : Starved R r queue rest) (hr : R.first r) : rest = [] := by
  have := h.sublist
  rw [h.first hr] at this
  exact List.sublist_nil.mp this

/-- A request that would take all items has lost none. -/
theorem Starved.lossless (h : Starved R r queue rest) (hr : R.all r) : rest = queue := by
  have hfirst := R.first_of_all r h.accepts hr
  rw [h.eq_nil hfirst, h.first hfirst]

theorem Filled.sublist (h : Filled R r items queue rest) : (items ++ rest).Sublist queue := by
  obtain ⟨lost, rfl, -⟩ := h.suffix
  rw [List.append_assoc]
  exact (List.sublist_append_right lost rest).append_left items

theorem Filled.lossless (h : Filled R r items queue rest) (hr : R.all r) :
    items ++ rest = queue := by
  obtain ⟨lost, rfl, hlost⟩ := h.suffix
  rw [hlost hr, List.append_nil]

theorem Filled.queue_ne_nil (h : Filled R r items queue rest) : queue ≠ [] := by
  rintro rfl
  exact h.ne_nil (List.append_eq_nil_iff.mp (List.sublist_nil.mp h.sublist)).1

theorem Filled.bounded (h : Filled R r items queue rest) (slot : Option (Fin n)) (answer : α) :
    (Event.done slot (R.len r) items answer : Event β ρ α n).Bounded :=
  ⟨h.length_le, fun _ ↦ List.length_pos_iff.mpr h.ne_nil⟩

namespace Flow

theorem refl (R : Rules ρ α) (s : State β ρ n) : Flow R s ([] : List (Event β ρ α n)) s :=
  ⟨List.Sublist.refl _, fun _ ↦ rfl, by simp, fun _ _ h ↦ .inl h, by simp⟩

theorem trans (h : Flow R s es s₁) (h' : Flow R s₁ es' s') : Flow R s (es ++ es') s' where
  sublist := by
    rw [List.flatMap_append, List.append_assoc]
    exact (h'.sublist.append_left _).trans h.sublist
  lossless hall := by
    rw [List.flatMap_append, List.append_assoc, h'.lossless hall, h.lossless hall]
  bounded e he := (List.mem_append.mp he).elim (h.bounded e) (h'.bounded e)
  table i r hr := by
    rcases h'.table i r hr with hr | ⟨t, ht⟩
    · rcases h.table i r hr with hr | ⟨t, ht⟩
      · exact .inl hr
      · exact .inr ⟨t, List.mem_append_left _ ht⟩
    · exact .inr ⟨t, List.mem_append_right _ ht⟩
  accepts i r t ht := (List.mem_append.mp ht).elim (h.accepts i r t) (h'.accepts i r t)

end Flow

theorem Step.flow (h : Step R s es s') : Flow R s es s' := by
  cases h with
  | pass => exact .refl R s
  | empty hlen ha =>
    exact ⟨List.Sublist.refl _, fun _ ↦ rfl, by simp [Event.Bounded], fun _ _ h ↦ .inl h, by simp⟩
  | fill ha h =>
    refine ⟨?_, fun hall ↦ ?_, ?_, fun _ _ h ↦ .inl h, by simp⟩
    · rw [List.flatMap_singleton]
      exact h.sublist
    · rw [List.flatMap_singleton]
      exact h.lossless (hall _ h.accepts)
    · rw [List.forall_mem_singleton]
      exact h.bounded none _
  | full h =>
    exact ⟨h.sublist, fun hall ↦ h.lossless (hall _ h.accepts), by simp, fun _ _ h ↦ .inl h,
      by simp⟩
  | @park i r rest hi h =>
    refine ⟨h.sublist, fun hall ↦ h.lossless (hall _ h.accepts), by simp [Event.Bounded],
      fun j r' hr' ↦ ?_, fun j r' t ht ↦ ?_⟩
    · rw [getElem_set_fin] at hr'
      split_ifs at hr' with hij
      · obtain rfl := Option.some.inj hr'
        exact .inr ⟨s.table, by rw [hij]; exact List.mem_singleton.mpr rfl⟩
      · exact .inl hr'
    · obtain ⟨-, rfl, -⟩ := Event.parked.inj (List.mem_singleton.mp ht)
      exact h.accepts

theorem Visit.flow {i : Fin n} (h : Visit R i s es s') : Flow R s es s' := by
  cases h with
  | free hi => exact .refl R s
  | fill ha hi h =>
    refine ⟨?_, fun hall ↦ ?_, ?_, fun j r' hr' ↦ ?_, by simp⟩
    · rw [List.flatMap_singleton]
      exact h.sublist
    · rw [List.flatMap_singleton]
      exact h.lossless (hall _ h.accepts)
    · rw [List.forall_mem_singleton]
      exact h.bounded (some i) _
    · rw [getElem_set_fin] at hr'
      split_ifs at hr'
      exact .inl hr'
  | starve hi h =>
    exact ⟨h.sublist, fun hall ↦ h.lossless (hall _ h.accepts), by simp, fun _ _ h ↦ .inl h,
      by simp⟩

theorem Steps.flow (h : Steps R s es s') : Flow R s es s' := by
  induction h with
  | refl => exact .refl R s
  | step _ h' ih => exact ih.trans h'.flow

theorem Scan.flow {i : Nat} (h : Scan R s i es s') : Flow R s es s' := by
  induction h with
  | refl => exact .refl R s
  | visit _ h' ih => exact ih.trans h'.flow

end Flow

/-! ## Who waits, and for what -/

/-- Nothing is in the queue while a request is parked. -/
def State.Calm (s : State β ρ n) : Prop := s.queue = [] ∨ ∀ i : Fin n, s.table[i] = none

/-- The same as far as the slots before the given one are concerned. -/
def State.CalmBelow (i : Nat) (s : State β ρ n) : Prop :=
  ∀ j : Fin n, j < i → s.table[j] ≠ none → s.queue = []

/-- The parked requests are sure to take an item. -/
def State.Firsts (R : Rules ρ α) (s : State β ρ n) : Prop :=
  ∀ (i : Fin n) (r : ρ), s.table[i] = some r → R.first r

/-- The same of requests that get parked. -/
def ParksFirst (R : Rules ρ α) (es : List (Event β ρ α n)) : Prop :=
  ∀ (i : Fin n) (r : ρ) (t : Vector (Option ρ) n), .parked i r t ∈ es → R.first r

/-- Requests get parked after all those that are parked already. -/
def ParksLast (es : List (Event β ρ α n)) : Prop :=
  ∀ (i : Fin n) (r : ρ) (t : Vector (Option ρ) n), .parked i r t ∈ es → ∀ j, i < j → t[j] = none

section Calm

variable {R : Rules ρ α} {r : ρ} {s s₁ s' : State β ρ n} {es es' : List (Event β ρ α n)}
  {items queue rest : List β}

theorem State.calm_iff : s.Calm ↔ s.CalmBelow n := by
  refine ⟨fun h j _ hj ↦ h.resolve_right fun hnone ↦ hj (hnone j), fun h ↦ ?_⟩
  by_cases hq : s.queue = []
  · exact .inl hq
  · exact .inr fun j ↦ of_not_not fun hj ↦ hq (h j j.isLt hj)

theorem ParksFirst.append : ParksFirst R (es ++ es') ↔ ParksFirst R es ∧ ParksFirst R es' := by
  simp only [ParksFirst, List.mem_append, or_imp, forall_and]

theorem ParksLast.append : ParksLast (es ++ es') ↔ ParksLast es ∧ ParksLast es' := by
  simp only [ParksLast, List.mem_append, or_imp, forall_and]

theorem Flow.firsts (h : Flow R s es s') (hs : s.Firsts R) (hes : ParksFirst R es) :
    s'.Firsts R := by
  intro i r hr
  rcases h.table i r hr with hr | ⟨t, ht⟩
  · exact hs i r hr
  · exact hes i r t ht

/-- Nobody is served while another request is parked. -/
theorem Step.calm (h : Step R s es s') (hs : s.Calm) (hes : ParksFirst R es) : s'.Calm := by
  cases h with
  | pass => exact hs
  | empty hlen ha => exact hs
  | fill ha h => exact .inr (hs.resolve_left h.queue_ne_nil)
  | full h =>
    rcases hs with hq | hnone
    · have hsub := h.sublist
      rw [hq] at hsub
      exact .inl (List.sublist_nil.mp hsub)
    · exact .inr hnone
  | park hi h => exact .inl (h.eq_nil (hes _ _ _ (List.mem_singleton.mpr rfl)))

theorem Step.turns (h : Step R s es s') (hs : s.Calm) (hes : ParksLast es) :
    turns (occupied s.table) es = some (occupied s'.table) := by
  cases h with
  | pass => rfl
  | empty hlen ha =>
    rw [turns_singleton, Event.turn, if_pos (.inl rfl)]
  | fill ha h =>
    rw [turns_singleton]
    exact if_pos (.inr (occupied_eq_nil.mpr (hs.resolve_left h.queue_ne_nil)))
  | full h => rfl
  | park hi h =>
    rw [occupied_set hi (hes _ _ _ (List.mem_singleton.mpr rfl))]
    rfl

theorem Steps.calm (h : Steps R s es s') (hs : s.Calm) (hes : ParksFirst R es) : s'.Calm := by
  induction h with
  | refl => exact hs
  | step _ h' ih =>
    obtain ⟨hes, hes'⟩ := ParksFirst.append.mp hes
    exact h'.calm (ih hes) hes'

theorem Steps.turns (h : Steps R s es s') (hs : s.Calm) (hfirst : ParksFirst R es)
    (hlast : ParksLast es) : turns (occupied s.table) es = some (occupied s'.table) := by
  induction h with
  | refl => rfl
  | step h h' ih =>
    obtain ⟨hfirst, -⟩ := ParksFirst.append.mp hfirst
    obtain ⟨hlast, hlast'⟩ := ParksLast.append.mp hlast
    rw [turns_append, ih hfirst hlast]
    exact h'.turns (h.calm hs hfirst) hlast'

/-- A visit parks nothing. -/
theorem Visit.parks {i : Fin n} (h : Visit R i s es s') : ParksFirst R es := by
  cases h <;> simp [ParksFirst]

theorem Scan.parks {i : Nat} (h : Scan R s i es s') : ParksFirst R es := by
  induction h with
  | refl => simp [ParksFirst]
  | visit _ h' ih => exact ParksFirst.append.mpr ⟨ih, h'.parks⟩

theorem Visit.calmBelow {i : Fin n} (h : Visit R i s es s') (hs : s.CalmBelow i)
    (hfirst : s.Firsts R) : s'.CalmBelow (i + 1) := by
  intro j hj hne
  cases h with
  | free hi =>
    rcases Nat.lt_succ_iff_lt_or_eq.mp hj with hlt | heq
    · exact hs j hlt hne
    · obtain rfl := Fin.ext heq
      exact absurd hi hne
  | fill ha hi h =>
    -- with an item in the queue, nobody before the slot is parked
    rw [getElem_set_fin] at hne
    split_ifs at hne with hij
    · exact absurd rfl hne
    · have hlt : j < i := lt_of_le_of_ne (Nat.lt_succ_iff.mp hj) (Ne.symm hij)
      exact absurd (hs j hlt hne) h.queue_ne_nil
  | starve hi h => exact h.eq_nil (hfirst i _ hi)

/-- The request that gets items is the first in the table. -/
theorem Visit.turns {i : Fin n} (h : Visit R i s es s') (hs : s.CalmBelow i) :
    turns (occupied s.table) es = some (occupied s'.table) := by
  cases h with
  | free hi => rfl
  | @fill r answer items rest ha hi h =>
    have hbelow : ∀ j < i, s.table[j] = none := fun j hj ↦
      of_not_not fun hne ↦ h.queue_ne_nil (hs j hj hne)
    rw [turns_singleton, occupied_eq_cons (by rw [hi]; exact Option.some_ne_none r) hbelow]
    exact if_pos rfl
  | starve hi h => rfl

theorem Scan.calmBelow {i : Nat} (h : Scan R s i es s') (hfirst : s.Firsts R) :
    s'.CalmBelow i := by
  induction h with
  | refl => exact fun j hj ↦ absurd hj (Nat.not_lt_zero _)
  | visit h h' ih => exact h'.calmBelow ih (h.flow.firsts hfirst h.parks)

theorem Scan.turns {i : Nat} (h : Scan R s i es s') (hfirst : s.Firsts R) :
    turns (occupied s.table) es = some (occupied s'.table) := by
  induction h with
  | refl => rfl
  | visit h h' ih =>
    rw [turns_append, ih]
    exact h'.turns (h.calmBelow hfirst)

/-- **One item in the queue** goes to the first request in the table. -/
theorem Scan.single {b : β} {m : Nat} (h : Scan R s m es s') (hq : s.queue = [b])
    (hfirst : s.Firsts R) {i : Fin n} (hi : s.table[i] = some r)
    (hbelow : ∀ j < i, s.table[j] = none) :
    (m ≤ i → es = [] ∧ s' = s) ∧ (i < m → ∃ answer, R.answers r answer ∧
      es = [.done (some i) (R.len r) [b] answer] ∧ s' = ⟨[], s.table.set i none⟩) := by
  induction h with
  | refl => exact ⟨fun _ ↦ ⟨rfl, rfl⟩, fun hlt ↦ absurd hlt (Nat.not_lt_zero _)⟩
  | @visit j es es' s₁ s₂ h h' ih =>
    refine ⟨fun hle ↦ ?_, fun hlt ↦ ?_⟩
    · -- before the slot nobody is parked
      obtain ⟨rfl, rfl⟩ := ih.1 (by omega)
      have hj : s₁.table[j] = none := hbelow j (Fin.lt_def.mpr (by omega))
      cases h' with
      | free _ => exact ⟨rfl, rfl⟩
      | fill ha hr h => exact absurd (hj.symm.trans hr) nofun
      | starve hr h => exact absurd (hj.symm.trans hr) nofun
    · rcases Nat.lt_succ_iff_lt_or_eq.mp hlt with hlt | heq
      · -- after it there is nothing left
        obtain ⟨answer, ha, rfl, rfl⟩ := ih.2 hlt
        refine ⟨answer, ha, ?_⟩
        cases h' with
        | free _ => exact ⟨rfl, rfl⟩
        | fill ha hr h => exact absurd rfl h.queue_ne_nil
        | starve hr h =>
          rw [List.sublist_nil.mp h.sublist]
          exact ⟨rfl, rfl⟩
      · obtain rfl := Fin.ext heq
        obtain ⟨rfl, rfl⟩ := ih.1 le_rfl
        cases h' with
        | free hnone => exact absurd (hnone.symm.trans hi) nofun
        | @fill r' answer items rest ha hr h =>
          obtain rfl := Option.some.inj (hi.symm.trans hr)
          obtain ⟨lost, hsplit, -⟩ := h.suffix
          rw [hq] at hsplit
          obtain ⟨c, items, rfl⟩ := List.exists_cons_of_ne_nil h.ne_nil
          simp only [List.cons_append, List.cons.injEq, List.nil_eq,
            List.append_eq_nil_iff] at hsplit
          obtain ⟨rfl, ⟨rfl, rfl⟩, rfl⟩ := hsplit
          exact ⟨answer, ha, rfl, rfl⟩
        | @starve r' rest hr h =>
          have := h.first (hfirst i _ hr)
          rw [hq] at this
          cases this

end Calm

end Parked

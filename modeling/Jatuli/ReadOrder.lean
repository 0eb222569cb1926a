import Jatuli.Stream

/-!
# The order in which reads are served

Parked reads wait in a table of slots.  A read takes the first free slot, and when input comes in
the table is gone through from its first slot on.  So reads are served in the order they were
submitted as long as each is parked behind all those that wait already; but a slot that has become
free in front of others is used again, and the read that gets it overtakes them.

`Parked.turns` follows the record of a run and fails at a read that is served out of turn.
`served_in_turn` says that it never fails if reads are parked last, and `served_out_of_turn` is a
run in which it does.
-/

set_option autoImplicit false

namespace Jatuli

/-- The reads an operation parks for the foreground process are parked behind all others, and may
take a byte. -/
def InOrder (x : Kernel × ReadLog) (op : ServeOp) : Prop :=
  op.Linked x.1 ∧ Parked.ParksLast (x.1.foregroundEvents op) ∧
    ∀ q, x.1.processes[0]? = some q → Parked.ParksFirst (readRules q.loaded)
      (x.1.foregroundEvents op)

/-- What holds of the record if reads are parked in order. -/
structure InTurn (k : Kernel) (es : List ReadEvent) : Prop where
  served : (Parked.turns [] es).isSome
  /-- The slots in use, in the order of the table, are those of the reads that wait, in the order
  they came in. -/
  table : ∀ q, k.processes[0]? = some q → q.foreground = true → (k.reader 0 q).Calm ∧
    (k.reader 0 q).Firsts (readRules q.loaded) ∧
    Parked.turns [] es = some (Parked.occupied q.pending)
  /-- Nothing was read before the process got the keyboard. -/
  none : (∀ q, k.processes[0]? = some q → q.foreground = false ∧ q.live = true) → es = []

section InTurn

variable {k k' : Kernel} {op : ServeOp} {es : List ReadEvent} {q q' : Process}

theorem InTurn.unread (h : InTurn k es) (hu : AllUnread k k') : InTurn k' es where
  served := h.served
  table q' hq' hfg' := by
    rcases hu.cases hq' with ⟨q, hq, hl, ⟨hpend, hfg, -⟩ | ⟨-, hfg, -⟩⟩ | ⟨-, hnew⟩
    · have htable := h.table q hq (hfg ▸ hfg')
      rw [reader_zero hq, ← hpend, ← hfg, ← hu.input, ← reader_zero hq', ← hl] at htable
      exact htable
    · exact absurd (hfg.symm.trans hfg') nofun
    · exact absurd (hnew.foreground.symm.trans hfg') nofun
  none hidle := by
    refine h.none fun q hq ↦ ?_
    obtain ⟨q', hq', -, ⟨-, hfg, hlive, -⟩ | ⟨-, -, hlive⟩⟩ := hu.old hq
    · rw [← hfg, ← hlive]
      exact hidle q' hq'
    · exact absurd (hlive.symm.trans (hidle q' hq').2) nofun

/-- The first process gets the keyboard before it has a ring. -/
theorem InTurn.foreground (h : InTurn k es) (hread : ReadInv k) (hp : k.processes = [q])
    (hl : q.live = true) (hring : q.ringPa = 0)
    (hp' : k'.processes = [{ q with foreground := true }]) : InTurn k' es := by
  have hq : k.processes[0]? = some q := by rw [hp]; rfl
  have hq' : k'.processes[0]? = some { q with foreground := true } := by rw [hp']; rfl
  have hnone := hread.not_parked hq hring
  refine ⟨h.served, fun q₁ hq₁ _ ↦ ?_, fun hidle ↦ ?_⟩
  · obtain rfl := Option.some.inj (hq'.symm.trans hq₁)
    refine ⟨.inr hnone, fun j r hr ↦ absurd ((hnone j).symm.trans hr) nofun, ?_⟩
    cases hfg : q.foreground with
    | true => exact (h.table q hq hfg).2.2
    | false =>
      have hnil := h.none fun q₁ hq₁ ↦ by
        obtain rfl := Option.some.inj (hq.symm.trans hq₁)
        exact ⟨hfg, hl⟩
      rw [hnil, Parked.occupied_eq_nil.mpr hnone]
      rfl
  · exact absurd (hidle _ hq').1 nofun

/-- Reads of another process are not noticed. -/
theorem InTurn.other {pid : Nat} (h : InTurn k es) (ht : Reread pid k k') (hpid : pid ≠ 0)
    (hin : Processes.foregroundPid k.processes ≠ some pid → k'.input = k.input) : InTurn k' es where
  served := h.served
  table q' hq' hfg' := by
    rcases ht.cases hq' with ⟨q, hq, hl, hfg, -, -, hpend⟩ | ⟨-, hnew⟩
    · have hpend := hpend (Ne.symm hpid)
      rw [reader_of_other hq hq' hfg hpend hpid hin, hl, hpend]
      exact h.table q hq (hfg ▸ hfg')
    · exact absurd (hnew.foreground.symm.trans hfg') nofun
  none hidle := by
    refine h.none fun q hq ↦ ?_
    obtain ⟨q', hq', -, hfg, hlive, -⟩ := ht.old hq
    rw [← hfg, ← hlive]
    exact hidle q' hq'

/-- Reads of the first process while it is in the background are not noticed either. -/
theorem InTurn.background {pid : Nat} (h : InTurn k es) (hp : k.processes[pid]? = some q)
    (ht : Reread pid k k') (hfg : Processes.foregroundPid k.processes ≠ some pid)
    (hin : k'.input = k.input) : InTurn k' es := by
  by_cases hpid : pid = 0
  · subst hpid
    obtain ⟨q₁, hq₁, -, hfg₁, hlive, -⟩ := ht.old hp
    have hback : q₁.foreground ≠ true := fun he ↦ hfg ((foregroundPid_zero hp).mpr (hfg₁ ▸ he))
    refine ⟨h.served, fun q' hq' hfg' ↦ ?_, fun hidle ↦ h.none fun q' hq' ↦ ?_⟩
    · obtain rfl := Option.some.inj (hq₁.symm.trans hq')
      exact absurd hfg' hback
    · obtain rfl := Option.some.inj (hp.symm.trans hq')
      rw [← hfg₁, ← hlive]
      exact hidle q₁ hq₁
  · exact h.other ht hpid fun _ ↦ hin

/-- Reads of the first process in the foreground. -/
theorem InTurn.append {es' : List ReadEvent} (h : InTurn k es) (hq : k.processes[0]? = some q)
    (hfg : q.foreground = true) (hq' : k'.processes[0]? = some q')
    (hfg' : q'.foreground = q.foreground) (hl : q'.loaded = q.loaded)
    (hcalm : (k'.reader 0 q').Calm) (hfirst : (k'.reader 0 q').Firsts (readRules q.loaded))
    (hturns : Parked.turns (Parked.occupied q.pending) es' = some (Parked.occupied q'.pending)) :
    InTurn k' (es ++ es') := by
  have hnow : Parked.turns [] (es ++ es') = some (Parked.occupied q'.pending) := by
    rw [Parked.turns_append, (h.table q hq hfg).2.2]
    exact hturns
  refine ⟨by rw [hnow]; rfl, fun q₁ hq₁ _ ↦ ?_, fun hidle ↦ ?_⟩
  · obtain rfl := Option.some.inj (hq'.symm.trans hq₁)
    exact ⟨hcalm, hl ▸ hfirst, hnow⟩
  · exact absurd ((hfg'.trans hfg).symm.trans (hidle q' hq').1) nofun

theorem InTurn.step {r : ReadLog} (h : InTurn k es) (hread : ReadInv k) (hop : InOrder (k, r) op)
    (hs : ReadStep k op k') : InTurn k' (es ++ k.foregroundEvents op) := by
  obtain ⟨-, hlast, hfirst⟩ := hop
  cases hs with
  | unread hu hget hfg =>
    rw [hfg, List.append_nil]
    exact h.unread hu
  | foreground hp hl hring hp' hin hget hfg =>
    rw [hfg, List.append_nil]
    exact h.foreground hread hp hl hring hp'
  | @drain pid p p' hp hp' ht hring hin hsteps hget hfg =>
    by_cases hpid : Processes.foregroundPid k.processes = some pid
    · obtain rfl := hread.foregroundPid hpid
      have hfgp := (foregroundPid_zero hp).mp hpid
      rw [if_pos hpid] at hfg
      rw [← hfg] at hsteps
      obtain ⟨q', hq', hl, hfg', -⟩ := ht.old hp
      obtain rfl := Option.some.inj (hp'.symm.trans hq')
      obtain ⟨hcalm, hfirsts, -⟩ := h.table p hp hfgp
      have hparks := hfirst p hp
      exact h.append hp hfgp hp' hfg' hl (hsteps.calm hcalm hparks)
        (hsteps.flow.firsts hfirsts hparks) (hsteps.turns hcalm hparks hlast)
    · rw [if_neg hpid] at hfg
      rw [hfg, List.append_nil]
      exact h.background hp ht hpid (hin hpid)
  | receive hps hno hin hfg =>
    rw [hfg, List.append_nil]
    refine ⟨h.served, fun q hq hfgq ↦ ?_, fun hidle ↦ h.none fun q hq ↦ hidle q (hps ▸ hq)⟩
    rw [hps] at hq
    -- without a ring nothing is parked
    have hring := hno ((foregroundPid_zero hq).mpr hfgq) hq
    exact ⟨.inr (hread.not_parked hq hring), (h.table q hq hfgq).2⟩
  | @poll pid p p' hpid hp hring hp' ht hscan =>
    obtain rfl := hread.foregroundPid hpid
    have hfgp := (foregroundPid_zero hp).mp hpid
    obtain ⟨q', hq', hl, hfg', -⟩ := ht.old hp
    obtain rfl := Option.some.inj (hp'.symm.trans hq')
    obtain ⟨-, hfirsts, -⟩ := h.table p hp hfgp
    have hreader : k'.reader 0 p' = ⟨k'.input.contents, p'.pending⟩ := by
      rw [reader_zero hp', hfg', hfgp]
      rfl
    refine h.append hp hfgp hp' hfg' hl ?_ ?_ (hscan.turns hfirsts)
    · rw [hreader]
      exact Parked.State.calm_iff.mpr (hscan.calmBelow hfirsts)
    · rw [hreader]
      exact hscan.flow.firsts hfirsts hscan.parks

end InTurn

section Runs

variable {programs : List (String × List UInt8)} {x : Kernel × ReadLog}

/-- **Reads are served in the order they were submitted**, in every run in which each read that is
parked goes behind all those that are parked already and may take a byte.  So the bytes that came in
are given to them in that order, followed by what is in the input ring. -/
theorem served_in_turn (hprog : ∀ q ∈ programs, Elf.InUserSlot q.2)
    (h : (reading programs).Reach InOrder x) :
    (Parked.turns [] x.2.foreground).isSome ∧
      (x.2.foreground.flatMap Parked.Event.items ++ x.1.input.contents).Sublist x.2.taken := by
  have hok : ∀ (x : Kernel × ReadLog) op, InOrder x op → op.Linked x.1 := fun _ _ hop ↦ hop.1
  refine ⟨?_, (streamed_of_reading hprog hok h).sublist⟩
  have hturn : InTurn x.1 x.2.foreground := by
    refine h.invariant_of (I := fun x ↦ InTurn x.1 x.2.foreground)
      (fun s hs ↦ serve_of_reading hok hs) ?_ ?_
    · rintro ⟨k, r⟩ ⟨hinit, rfl⟩
      have hps : k.processes = [] := (serve_init hinit).1
      exact ⟨rfl, by simp [hps], fun _ ↦ rfl⟩
    · rintro ⟨k, r⟩ op ⟨k', r'⟩ hreach hturn hop hs
      obtain ⟨hstep, hnote⟩ := System.track_step hs
      obtain ⟨L, hlife⟩ := lifeInv_of_serve hprog hreach
      have hread := readInv_of_serve hprog hreach
      dsimp only at hnote
      rw [hnote]
      exact hturn.step hread hop (hlife.readStep hread hstep)
  exact hturn.served

/-- An operation with which no read is parked is in order. -/
theorem InOrder.of_done {x : Kernel × ReadLog} {op : ServeOp} (hop : op.Linked x.1)
    (hdone : ∀ (i : Fin maxPending) (r : Pending) (t : Vector (Option Pending) maxPending),
      .parked i r t ∉ x.1.foregroundEvents op) : InOrder x op :=
  ⟨hop, fun i r t ht ↦ absurd ht (hdone i r t), fun _ _ i r t ht ↦ absurd ht (hdone i r t)⟩

/-- So is one that parks a read for the stack behind all others. -/
theorem InOrder.of_parked {x : Kernel × ReadLog} {op : ServeOp} (hop : op.Linked x.1)
    {i : Fin maxPending} {len tag : Nat} {t : Vector (Option Pending) maxPending}
    (hevents : x.1.foregroundEvents op = [.parked i ⟨userStackVa, len, tag⟩ t])
    (hlast : ∀ j, i < j → getElem t j j.isLt = none) : InOrder x op := by
  refine ⟨hop, fun i' r t' ht ↦ ?_, fun q _ i' r t' ht ↦ ?_⟩
  all_goals
    rw [hevents, List.mem_singleton, Parked.Event.parked.injEq] at ht
    obtain ⟨rfl, rfl, rfl⟩ := ht
  · exact hlast
  · have hstack : userStackVa + 1 < 2 ^ 64 ∧ userStackVa + 1 ≤ userStackVa + userStackSize := by
      decide
    exact ⟨hstack.1, .inl ⟨le_rfl, hstack.2⟩⟩

/-- Two reads wait, and the two bytes that come in are given to them in turn. -/
theorem served_in_turn_two : ∃ x : Kernel × ReadLog, (reading []).Reach InOrder x ∧
    x.2.taken = [65, 66] ∧ x.2.foreground.length = 4 ∧
    (Parked.turns [] x.2.foreground).isSome ∧
    (x.2.foreground.flatMap Parked.Event.items ++ x.1.input.contents).Sublist x.2.taken := by
  have hok : ∀ (x : Kernel × ReadLog) op, InOrder x op → op.Linked x.1 := fun _ _ hop ↦ hop.1
  have hstore : ∀ {r : ReadLog} {k : Kernel} {va n v : Nat},
    InOrder (k, r) (.store 0 va n v) := .of_done trivial fun _ _ _ ↦ List.not_mem_nil
  obtain ⟨k₀, p₀, h₀, hpend₀, hroom₀⟩ := exists_readScene InOrder fun k op hop ↦
    .of_done hop.linked fun _ _ _ ↦ by
      cases op with
      | create | foreground | setup => exact List.not_mem_nil
      | _ => exact hop.elim
  obtain ⟨k₁, p₁, h₁, hpend₁, hroom₁⟩ := h₀.park hok 1 1 (by decide) (by decide) (by decide)
    (i := 0) (by rw [hpend₀]; decide) (by rw [hpend₀]; decide) hstore
    fun he ↦ .of_parked trivial he (by rw [hpend₀]; decide)
  rw [hpend₀] at hpend₁
  obtain ⟨k₂, p₂, h₂, hpend₂, hroom₂⟩ := h₁.park hok 1 2 (by decide) (by decide) (by decide)
    (i := 1) (by rw [hpend₁]; decide) (by rw [hpend₁]; decide) hstore
    fun he ↦ .of_parked trivial he (by rw [hpend₁]; decide)
  rw [hpend₁] at hpend₂
  obtain ⟨k₃, p₃, h₃, hpend₃, hroom₃⟩ := h₂.byte hok 65 (i := 0) (by rw [hpend₂]; rfl)
    (by rw [hpend₂]; decide) (by rw [hroom₂, hroom₁, hroom₀]; decide)
    fun he ↦ .of_done trivial (by simp [he])
  rw [hpend₂] at hpend₃
  obtain ⟨k₄, p₄, h₄, -, -⟩ := h₃.byte hok 66 (i := 1) (by rw [hpend₃]; rfl)
    (by rw [hpend₃]; decide) (by rw [hroom₃, hroom₂, hroom₁, hroom₀]; decide)
    fun he ↦ .of_done trivial (by simp [he])
  exact ⟨_, h₄.reach, rfl, rfl, served_in_turn (by simp) h₄.reach⟩

/-- **A read that is parked in front of others overtakes them.**  Reads 1 and 2 are parked; a byte
completes read 1, read 3 is parked in the slot that is free now, and the next byte is given to read
3, under its tag, while read 2 still waits. -/
theorem served_out_of_turn : ∃ (x : Kernel × ReadLog)
    (t₁ t₂ t₃ : Vector (Option Pending) maxPending),
    (reading []).Reach (fun x op ↦ op.Linked x.1) x ∧
    x.2.foreground = [.parked 0 ⟨userStackVa, 1, 1⟩ t₁, .parked 1 ⟨userStackVa, 1, 2⟩ t₂,
      .done (some 0) 1 [65] ⟨1, [.cqe (some 0) 1 1 none]⟩, .parked 0 ⟨userStackVa, 1, 3⟩ t₃,
      .done (some 0) 1 [66] ⟨3, [.cqe (some 0) 3 1 none]⟩] ∧
    Parked.turns [] x.2.foreground = none := by
  have hlinked : ∀ (x : Kernel × ReadLog) (op : ServeOp), op.Linked x.1 → op.Linked x.1 :=
    fun _ _ hop ↦ hop
  obtain ⟨k₀, p₀, h₀, hpend₀, hroom₀⟩ :=
    exists_readScene (fun x op ↦ op.Linked x.1) fun _ _ hop ↦ hop.linked
  obtain ⟨k₁, p₁, h₁, hpend₁, hroom₁⟩ := h₀.park hlinked 1 1 (by decide) (by decide) (by decide)
    (i := 0) (by rw [hpend₀]; decide) (by rw [hpend₀]; decide) trivial fun _ ↦ trivial
  rw [hpend₀] at hpend₁
  obtain ⟨k₂, p₂, h₂, hpend₂, hroom₂⟩ := h₁.park hlinked 1 2 (by decide) (by decide) (by decide)
    (i := 1) (by rw [hpend₁]; decide) (by rw [hpend₁]; decide) trivial fun _ ↦ trivial
  rw [hpend₁] at hpend₂
  obtain ⟨k₃, p₃, h₃, hpend₃, hroom₃⟩ := h₂.byte hlinked 65 (i := 0) (by rw [hpend₂]; rfl)
    (by rw [hpend₂]; decide) (by rw [hroom₂, hroom₁, hroom₀]; decide) fun _ ↦ trivial
  rw [hpend₂] at hpend₃
  -- the first slot is free again
  obtain ⟨k₄, p₄, h₄, hpend₄, hroom₄⟩ := h₃.park hlinked 1 3 (by decide) (by decide) (by decide)
    (i := 0) (by rw [hpend₃]; decide) (by rw [hpend₃]; decide) trivial fun _ ↦ trivial
  rw [hpend₃] at hpend₄
  obtain ⟨k₅, p₅, h₅, -, -⟩ := h₄.byte hlinked 66 (i := 0) (by rw [hpend₄]; rfl)
    (by rw [hpend₄]; decide) (by rw [hroom₄, hroom₃, hroom₂, hroom₁, hroom₀]; decide)
    fun _ ↦ trivial
  exact ⟨_, _, _, _, h₅.reach, rfl, rfl⟩

end Runs

end Jatuli

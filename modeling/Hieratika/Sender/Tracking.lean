import Hieratika.Foundations.Runs
import Hieratika.Sender.Sweep

/-!
# No change is forgotten by the scheduler

The main loop together with the subscriber that feeds it. A value of a PV is the serial
number of the callback that wrote it, so "the value changed after the snapshot in which it
was last dispatched" is `sent p ≠ some (memory p)`.

## The model

Three steps: a callback (`GetValueCallback`), the preparation of a cycle and its dispatch.
A cycle is dispatched once every pool thread has finished; the pool is left open, so the
dispatch may come at any moment after the preparation, with callbacks in between.

## What is proved

`no_change_forgotten`: whenever no cycle is prepared, a PV whose last value has not been
dispatched is flagged, or pending, or still to be sent in the running FIFO trip, or `taken`:
`Synchronise` of a FIFO cycle cleared its flag after its position had been sent in that trip.
The FIFO branch never looks at the flags it has cleared, so the last case does occur
(`change_forgotten_two`).

## Honest scope

The byte budget is unlimited and no thread reconnects, as `chunckCounter` would otherwise
be reset by a thread.
-/

namespace Hieratika.Sender

open Foundations Subscriber

/-- The subscriber, the main loop, and what the run remembers about it. -/
structure Sched where
  /-- The subscriber's memory: the serial number of a PV's last callback. -/
  memory : ℕ → ℕ
  /-- `changedFlagMem`. -/
  changedFlagMem : ℕ → Bool
  main : Main (ℕ → ℕ)
  /-- The value in the snapshot in which a PV was last dispatched. -/
  sent : ℕ → Option ℕ
  /-- The positions dispatched in the running trip. -/
  done : ℕ → Bool
  /-- The PVs whose flag a FIFO cycle cleared after their position was done. -/
  taken : ℕ → Bool

variable {c : Config} {s s' : Sched} {p : ℕ}

/-- The PV is at a position that is not yet dispatched in the running trip. -/
def Sched.Undone (c : Config) (s : Sched) (p : ℕ) : Prop :=
  ∃ q < c.numberOfVariables, s.main.indexList q = p ∧ s.done q = false

instance (c : Config) (s : Sched) (p : ℕ) : Decidable (s.Undone c p) :=
  inferInstanceAs (Decidable (∃ q < c.numberOfVariables, _ ∧ _))

/-- The PV is in the cycle that is prepared. -/
def Sched.InCycle (c : Config) (s : Sched) (p : ℕ) : Prop :=
  ∃ d < s.main.nVariables, s.main.indexList (ringPos c.numberOfVariables s.main.currentIdx d) = p

instance (c : Config) (s : Sched) (p : ℕ) : Decidable (s.InCycle c p) :=
  inferInstanceAs (Decidable (∃ d < s.main.nVariables, _))

/-- The state in which the loop starts; the subscriber may already have flagged PVs. -/
def Sched.start (flags : ℕ → Bool) : Sched where
  memory := fun _ => 0
  changedFlagMem := flags
  main := Main.start (fun _ => 0) (fun _ => 0) fun _ => false
  sent := fun _ => none
  done := fun _ => false
  taken := fun _ => false

/-- `GetValueCallback` for the PV `p`. -/
def Sched.callback (s : Sched) (p : ℕ) : Sched :=
  { s with memory := Function.update s.memory p (s.memory p + 1)
           changedFlagMem := Function.update s.changedFlagMem p true }

/-- The preparation begins a new trip. -/
def Sched.restarts (c : Config) (s : Sched) : Bool :=
  (s.main.plan c s.memory s.changedFlagMem).restarts c

/-- A cycle is prepared; `Synchronise` clears every flag. A FIFO cycle takes the flags of the PVs
that are done, a priority cycle sweeps up the flagged ones, a new trip starts from nothing. -/
def Sched.prepare (c : Config) (s : Sched) : Sched :=
  { s with
    changedFlagMem := fun _ => false
    main := s.main.prepare c s.memory s.changedFlagMem
    done := fun q => !s.restarts c && s.done q
    taken := fun p => !s.restarts c &&
      if s.main.chunckCounter < c.numberOfChunks
      then s.taken p || (s.changedFlagMem p && !decide (s.Undone c p))
      else s.taken p && !s.changedFlagMem p }

/-- The prepared cycle is dispatched. -/
def Sched.dispatch (c : Config) (s : Sched) : Sched :=
  { s with
    main := s.main.dispatch c
    sent := fun p => if s.InCycle c p then some (s.main.memory p) else s.sent p
    done := fun q => s.done q ||
      decide (∃ d < s.main.nVariables, ringPos c.numberOfVariables s.main.currentIdx d = q)
    taken := fun p => s.taken p && !decide (s.InCycle c p) }

/-- The steps of the subscriber and the main loop. -/
inductive Sched.Step (c : Config) : Sched → Sched → Prop where
  | callback {s : Sched} {p : ℕ} (hp : p < c.numberOfVariables) : Step c s (s.callback p)
  | prepare {s : Sched} (h : s.main.changed = false) : Step c s (s.prepare c)
  | dispatch {s : Sched} (h : s.main.changed = true) : Step c s (s.dispatch c)

/-- The PV is flagged, pending, or still to be sent in the running trip. -/
def Sched.Tracked (c : Config) (s : Sched) (p : ℕ) : Prop :=
  s.changedFlagMem p = true ∨ s.main.InFront c p ∨
    (s.main.chunckCounter < c.numberOfChunks ∧ s.Undone c p)

/-! ### What a preparation does -/

/-- With no limit on the bytes the budget keeps every PV. -/
theorem fitBudget_unlimited (hb : c.maxBytesPerCycle = 0xFFFFFFFF) (cur : ℕ) :
    ∀ left n total, c.fitBudget cur left n total = n + left := by
  intro left
  induction left with
  | zero => intro n total; rfl
  | succ left ih =>
    intro n total
    have hlt := u32_lt (total + (c.pvDes (c.queueIndex cur n)).totalSize)
    simp only [Config.fitBudget]
    rw [if_neg (by omega), ih]
    omega

theorem budget_unlimited (hb : c.maxBytesPerCycle = 0xFFFFFFFF) {μ : Type*} (m : Main μ) :
    m.budget c = m := by
  unfold Main.budget
  rw [fitBudget_unlimited hb, Nat.zero_add]

variable {μ : Type*} {m : Main μ} {snapshot : μ} {flags : ℕ → Bool}

/-- A FIFO cycle: the queue stays as it is and a whole cycle is sent. -/
theorem plan_fifo (hb : c.maxBytesPerCycle = 0xFFFFFFFF) (hf : m.chunckCounter < c.numberOfChunks) :
    m.plan c snapshot flags = { m with
      memory := snapshot, changeFlag := flags, nVariables := c.maxSignalPerThread,
      chunckCounter := u32 (m.chunckCounter + 1) } := by
  unfold Main.plan
  rw [budget_unlimited hb, Main.select, if_neg (by omega)]
  simp [Main.fifo, Main.clamp, Main.synchronise]

/-- A priority cycle: the queue is swept. -/
theorem plan_priority (hb : c.maxBytesPerCycle = 0xFFFFFFFF) (hp : c.numberOfChunks ≤ m.chunckCounter) :
    m.plan c snapshot flags = ((m.synchronise snapshot flags).priority c).clamp c := by
  unfold Main.plan
  rw [budget_unlimited hb, Main.select, if_pos hp]

/-- Whatever the branch: the queue is a permutation that starts where it did, and the cycle is not
larger than a cycle. -/
theorem plan_spec (hc : c.Fits) (hb : c.maxBytesPerCycle = 0xFFFFFFFF) (hq : m.Queued c)
    (hp : m.currentChangePos ≤ c.numberOfVariables) (snapshot : μ) (flags : ℕ → Bool) :
    (m.plan c snapshot flags).Queued c ∧ (m.plan c snapshot flags).nVariables ≤ c.maxSignalPerThread ∧
      (m.plan c snapshot flags).currentIdx = m.currentIdx ∧
      (m.plan c snapshot flags).memory = snapshot := by
  by_cases hf : m.chunckCounter < c.numberOfChunks
  · rw [plan_fifo hb hf]
    exact ⟨⟨hq.bij, hq.cur⟩, le_rfl, rfl, rfl⟩
  · have hq' : (m.synchronise snapshot flags).Queued c := ⟨hq.bij, hq.cur⟩
    have hs := priority_scanned hq' (hq'.room hc hp)
    rw [plan_priority hb (by omega)]
    refine ⟨⟨hs.queued.bij, hs.queued.cur⟩, clamp_le _, ?_, ?_⟩
    · show ((m.synchronise snapshot flags).priority c).currentIdx = _
      rw [hs.frame]
      rfl
    · show ((m.synchronise snapshot flags).priority c).memory = _
      rw [hs.frame]
      rfl

/-! ### The invariant -/

/-- Between two cycles. -/
structure Idle (c : Config) (s : Sched) : Prop where
  queued : s.main.Queued c
  front_le : s.main.currentChangePos ≤ c.numberOfVariables - c.maxSignalPerThread
  chunk_le : s.main.chunckCounter ≤ c.numberOfChunks
  no_front : s.main.chunckCounter < c.numberOfChunks → s.main.currentChangePos = 0
  /-- What is left of the trip fits in the cycles that are left of it. -/
  trip : ∀ d < c.numberOfVariables,
    s.done (ringPos c.numberOfVariables s.main.currentIdx d) = false →
      d + s.main.chunckCounter * c.maxSignalPerThread < c.numberOfVariables
  tracked : ∀ p < c.numberOfVariables, s.sent p ≠ some (s.memory p) →
    s.Tracked c p ∨ s.taken p = true

/-- A cycle is prepared. -/
structure Ready (c : Config) (s : Sched) : Prop where
  queued : s.main.Queued c
  window : s.main.nVariables ≤ c.maxSignalPerThread
  front_le : s.main.currentChangePos ≤ c.numberOfVariables - c.maxSignalPerThread
  chunk_le : s.main.chunckCounter ≤ c.numberOfChunks
  no_front : s.main.chunckCounter < c.numberOfChunks → s.main.currentChangePos = 0
  /-- The same, of what the trip leaves after this cycle. -/
  trip : ∀ d < c.numberOfVariables, s.main.nVariables ≤ d →
    s.done (ringPos c.numberOfVariables s.main.currentIdx d) = false →
      d - s.main.nVariables + s.main.chunckCounter * c.maxSignalPerThread < c.numberOfVariables
  /-- A value the snapshot does not have is flagged. -/
  fresh : ∀ p, s.memory p ≠ s.main.memory p → s.changedFlagMem p = true
  /-- A value of the snapshot that was not sent goes with this cycle, is pending after it, or comes
  later in the trip. -/
  tracked : ∀ p < c.numberOfVariables, s.sent p ≠ some (s.main.memory p) →
    (∃ d < s.main.nVariables + s.main.currentChangePos,
      s.main.indexList (ringPos c.numberOfVariables s.main.currentIdx d) = p) ∨
    (s.main.chunckCounter < c.numberOfChunks ∧ s.Undone c p) ∨ s.taken p = true

theorem idle_start (hc : c.Fits) (flags : ℕ → Bool) : Idle c (.start flags) where
  queued := ⟨Set.bijOn_id _, hc.vars_pos⟩
  front_le := Nat.zero_le _
  chunk_le := Nat.zero_le _
  no_front := fun _ => rfl
  trip := fun d hd _ => by simpa [Sched.start, Main.start] using hd
  tracked := fun p hp _ => Or.inl (Or.inr (Or.inr ⟨hc.chunks.1, p, hp, rfl, rfl⟩))

theorem Idle.callback (h : Idle c s) : Idle c (s.callback p) where
  queued := h.queued
  front_le := h.front_le
  chunk_le := h.chunk_le
  no_front := h.no_front
  trip := h.trip
  tracked := fun q hq hs => by
    by_cases hqp : q = p
    · subst hqp
      exact Or.inl (Or.inl (by simp [Sched.callback]))
    · have hm : (s.callback p).memory q = s.memory q := Function.update_of_ne hqp _ _
      have hf : (s.callback p).changedFlagMem q = s.changedFlagMem q := Function.update_of_ne hqp _ _
      rw [Sched.Tracked, hf]
      exact h.tracked q hq (hm ▸ hs)

theorem Ready.callback (h : Ready c s) : Ready c (s.callback p) where
  queued := h.queued
  window := h.window
  front_le := h.front_le
  chunk_le := h.chunk_le
  no_front := h.no_front
  trip := h.trip
  fresh := fun q hq => by
    by_cases hqp : q = p
    · subst hqp
      simp [Sched.callback]
    · have hm : (s.callback p).memory q = s.memory q := Function.update_of_ne hqp _ _
      have hf : (s.callback p).changedFlagMem q = s.changedFlagMem q := Function.update_of_ne hqp _ _
      exact hf.trans (h.fresh q (hm ▸ hq))
  tracked := h.tracked

/-! ### Dispatch -/

theorem Ready.dispatch (hc : c.Fits) (h : Ready c s) : Idle c (s.dispatch c) := by
  have hN := hc.vars_pos
  have hsmall := hc.small
  have hcur := h.queued.cur
  have hwin := h.window
  have hK := hc.max_le
  have hnew : (s.dispatch c).main.currentIdx =
      ringPos c.numberOfVariables s.main.currentIdx s.main.nVariables := by
    show u32 (s.main.currentIdx + s.main.nVariables) % c.numberOfVariables = _
    rw [u32_of_lt (by omega)]
    rfl
  refine ⟨⟨h.queued.bij, hnew ▸ ringPos_lt hN⟩, h.front_le, h.chunk_le, h.no_front, fun d hd hnd => ?_,
    fun p hp hs => ?_⟩
  · rw [hnew, ringPos_ringPos] at hnd
    simp only [Sched.dispatch, Bool.or_eq_false_iff, decide_eq_false_iff_not, not_exists, not_and] at hnd
    obtain ⟨hnd, hout⟩ := hnd
    have hlt : s.main.nVariables + d < c.numberOfVariables := by
      by_contra hge
      apply hout (s.main.nVariables + d - c.numberOfVariables) (by omega)
      rw [← ringPos_mod (d := s.main.nVariables + d), Nat.mod_eq_sub_mod (by omega),
        Nat.mod_eq_of_lt (by omega)]
    have := h.trip _ hlt (by omega) hnd
    rwa [Nat.add_sub_cancel_left] at this
  · by_cases hm : s.memory p = s.main.memory p
    · by_cases hin : s.InCycle c p
      · exact absurd (by simp [Sched.dispatch, hin, hm]) hs
      · have hsent : (s.dispatch c).sent p = s.sent p := if_neg hin
        rw [hsent, show (s.dispatch c).memory p = s.main.memory p from hm] at hs
        rcases h.tracked p hp hs with ⟨d, hd, hx⟩ | ⟨hch, q, hq, hx, hnd⟩ | ht
        · have hge : s.main.nVariables ≤ d := by
            by_contra hlt
            exact hin ⟨d, by omega, hx⟩
          refine Or.inl (Or.inr (Or.inl ⟨_, ⟨d - s.main.nVariables, ?_, rfl⟩, ?_⟩))
          · show d - s.main.nVariables < s.main.currentChangePos
            omega
          · rw [hnew, ringPos_ringPos, Nat.add_sub_cancel' hge]
            exact hx
        · refine Or.inl (Or.inr (Or.inr ⟨hch, q, hq, hx, ?_⟩))
          simp only [Sched.dispatch, hnd, Bool.false_or, decide_eq_false_iff_not]
          rintro ⟨d, hd, rfl⟩
          exact hin ⟨d, hd, hx⟩
        · exact Or.inr (by simp [Sched.dispatch, ht, hin])
    · exact Or.inl (Or.inl (h.fresh p hm))

/-! ### Preparation -/

/-- A new trip has every position before it. -/
theorem Idle.prepare_restart (hc : c.Fits) (hb : c.maxBytesPerCycle = 0xFFFFFFFF) (h : Idle c s)
    (hr : s.restarts c = true) : Ready c (s.prepare c) := by
  have hle : s.main.currentChangePos ≤ c.numberOfVariables := h.front_le.trans (Nat.sub_le _ _)
  obtain ⟨hq, hwin, -, hmem⟩ := plan_spec hc hb h.queued hle s.memory s.changedFlagMem
  have hr' : (s.main.plan c s.memory s.changedFlagMem).restarts c = true := hr
  have hmain : (s.prepare c).main = { s.main.plan c s.memory s.changedFlagMem with
      currentChangePos := 0, chunckCounter := 0, changed := true } := by
    show (s.main.plan c s.memory s.changedFlagMem).settle c = _
    rw [settle_eq, if_pos hr', if_pos hr']
  have hdone : ∀ q, (s.prepare c).done q = false := fun q => by simp [Sched.prepare, hr]
  constructor
  · rw [hmain]; exact ⟨hq.bij, hq.cur⟩
  · rw [hmain]; exact hwin
  · rw [hmain]; exact Nat.zero_le _
  · rw [hmain]; exact Nat.zero_le _
  · rw [hmain]; exact fun _ => rfl
  · intro d hd _ _
    rw [hmain]
    dsimp only
    omega
  · intro p hp
    rw [hmain] at hp
    exact absurd hmem.symm fun he => hp (congrFun he p)
  · intro p hp _
    obtain ⟨q, hqn, hx⟩ := hq.bij.surjOn hp
    refine Or.inr (Or.inl ⟨?_, q, hqn, ?_, hdone q⟩)
    · rw [hmain]; exact hc.chunks.1
    · rw [hmain]; exact hx

/-- One more cycle of the trip. -/
theorem Idle.prepare_fifo (hc : c.Fits) (hb : c.maxBytesPerCycle = 0xFFFFFFFF) (h : Idle c s)
    (hf : s.main.chunckCounter < c.numberOfChunks) (hr : s.restarts c = false) : Ready c (s.prepare c) := by
  have hsmall := hc.small
  obtain ⟨hch₀, hch, hcover⟩ := hc.chunks
  have hr' : (s.main.plan c s.memory s.changedFlagMem).restarts c = false := hr
  have hfront := h.no_front hf
  have hmain : (s.prepare c).main = { s.main with
      memory := s.memory, changeFlag := s.changedFlagMem, nVariables := c.maxSignalPerThread,
      chunckCounter := s.main.chunckCounter + 1, currentChangePos := 0, changed := true } := by
    show (s.main.plan c s.memory s.changedFlagMem).settle c = _
    rw [settle_eq, hr', plan_fifo hb hf, u32_of_lt (by omega)]
    simp [Main.pending, hfront]
  have hdone : (s.prepare c).done = s.done := by simp [Sched.prepare, hr]
  have htaken : ∀ p, (s.prepare c).taken p =
      (s.taken p || (s.changedFlagMem p && !decide (s.Undone c p))) := fun p => by
    simp [Sched.prepare, hr, hf]
  have hlater : ∀ p, s.Undone c p → (∃ d < c.maxSignalPerThread,
      s.main.indexList (ringPos c.numberOfVariables s.main.currentIdx d) = p) ∨
      s.main.chunckCounter + 1 < c.numberOfChunks := by
    rintro p ⟨q, hq, hx, hnd⟩
    obtain ⟨d, hd, rfl⟩ := exists_ringPos h.queued.cur hq
    by_cases hdK : d < c.maxSignalPerThread
    · exact Or.inl ⟨d, hdK, hx⟩
    · right
      have htrip := h.trip d hd hnd
      by_contra hge
      have hlast : s.main.chunckCounter + 1 = c.numberOfChunks := by omega
      rw [← hlast, Nat.add_mul] at hcover
      omega
  constructor
  · rw [hmain]; exact ⟨h.queued.bij, h.queued.cur⟩
  · rw [hmain]
  · rw [hmain]; exact Nat.zero_le _
  · rw [hmain]; exact hf
  · rw [hmain]; exact fun _ => rfl
  · rw [hmain, hdone]
    intro d hd hdK hnd
    have htrip := h.trip d hd hnd
    dsimp only at hdK ⊢
    rw [Nat.add_mul]
    omega
  · intro p hp
    rw [hmain] at hp
    exact absurd rfl hp
  · intro p hp hs
    rw [hmain] at hs
    have hund : (s.prepare c).Undone c p ↔ s.Undone c p := by
      unfold Sched.Undone
      rw [hmain, hdone]
    rw [hund, htaken, hmain]
    have hpos : s.Undone c p →
        (∃ d < c.maxSignalPerThread + 0,
          s.main.indexList (ringPos c.numberOfVariables s.main.currentIdx d) = p) ∨
        (s.main.chunckCounter + 1 < c.numberOfChunks ∧ s.Undone c p) ∨
        (s.taken p || (s.changedFlagMem p && !decide (s.Undone c p))) = true := fun hu =>
      (hlater p hu).imp id fun hlt => Or.inl ⟨hlt, hu⟩
    rcases h.tracked p hp hs with (hflag | ⟨_, ⟨d, hd, -⟩, -⟩ | ⟨-, hu⟩) | ht
    · by_cases hu : s.Undone c p
      · exact hpos hu
      · exact Or.inr (Or.inr (by simp [hflag, hu]))
    · omega
    · exact hpos hu
    · exact Or.inr (Or.inr (by simp [ht]))

/-- A priority cycle. -/
theorem Idle.prepare_priority (hc : c.Fits) (hb : c.maxBytesPerCycle = 0xFFFFFFFF) (h : Idle c s)
    (hf : c.numberOfChunks ≤ s.main.chunckCounter) (hr : s.restarts c = false) : Ready c (s.prepare c) := by
  have hle : s.main.currentChangePos ≤ c.numberOfVariables := h.front_le.trans (Nat.sub_le _ _)
  have hcover := hc.chunks.2.2
  have hr' : (s.main.plan c s.memory s.changedFlagMem).restarts c = false := hr
  let swept : Main (ℕ → ℕ) := (s.main.synchronise s.memory s.changedFlagMem).priority c
  have hq₀ : (s.main.synchronise s.memory s.changedFlagMem).Queued c := ⟨h.queued.bij, h.queued.cur⟩
  have hscan : Scanned c _ c.numberOfVariables swept := priority_scanned hq₀ (hq₀.room hc hle)
  have hplan : s.main.plan c s.memory s.changedFlagMem = swept.clamp c := plan_priority hb hf
  have hmain : (s.prepare c).main = { swept.clamp c with
      currentChangePos := (swept.clamp c).pending, changed := true } := by
    show (s.main.plan c s.memory s.changedFlagMem).settle c = _
    rw [settle_eq, hr', hplan]
    rfl
  have hpend := pending_le hc.vars_lt hc.max_le hr'
  rw [hplan] at hpend
  have hcur : swept.currentIdx = s.main.currentIdx := by rw [hscan.frame]; rfl
  have hmem : swept.memory = s.memory := by rw [hscan.frame]; rfl
  have hchunk : swept.chunckCounter = s.main.chunckCounter := by rw [hscan.frame]; rfl
  have hdone : (s.prepare c).done = s.done := by simp [Sched.prepare, hr]
  have htaken : ∀ p, (s.prepare c).taken p = (s.taken p && !s.changedFlagMem p) := fun p => by
    simp [Sched.prepare, hr, Nat.not_lt.mpr hf]
  have hall : s.main.chunckCounter = c.numberOfChunks := le_antisymm h.chunk_le hf
  have hover : ∀ d < c.numberOfVariables,
      s.done (ringPos c.numberOfVariables s.main.currentIdx d) ≠ false := fun d hd hnd => by
    have htrip := h.trip d hd hnd
    rw [hall] at htrip
    omega
  have hin : ∀ p, swept.InFront c p → ∃ d < (swept.clamp c).nVariables + (swept.clamp c).pending,
      swept.indexList (ringPos c.numberOfVariables swept.currentIdx d) = p := by
    rintro p ⟨_, ⟨d, hd, rfl⟩, hx⟩
    refine ⟨d, ?_, hx⟩
    have hcp : (swept.clamp c).currentChangePos = swept.currentChangePos := rfl
    unfold Main.pending
    split_ifs <;> omega
  constructor
  · rw [hmain]; exact ⟨hscan.queued.bij, hscan.queued.cur⟩
  · rw [hmain]; exact clamp_le _
  · rw [hmain]; exact hpend
  · rw [hmain]; exact (hchunk.trans hall).le
  · rw [hmain]
    exact fun hlt => absurd (show swept.chunckCounter < _ from hlt) (by omega)
  · rw [hmain, hdone]
    intro d hd _ hnd
    have hnd' : s.done (ringPos c.numberOfVariables swept.currentIdx d) = false := hnd
    rw [hcur] at hnd'
    exact absurd hnd' (hover d hd)
  · intro p hp
    rw [hmain] at hp
    exact absurd hmem.symm fun he => hp (congrFun he p)
  · intro p hp hs
    rw [hmain, show (swept.clamp c).memory = s.memory from hmem] at hs
    rw [hmain, htaken]
    cases hflag : s.changedFlagMem p with
    | true => exact Or.inl (hin p (priority_flagged hq₀ (hq₀.room hc hle) hp hflag))
    | false =>
      rcases h.tracked p hp hs with (hf' | hpf | ⟨hlt, -⟩) | ht
      · rw [hflag] at hf'
        cases hf'
      · exact Or.inl (hin p (priority_pending hq₀ (hq₀.room hc hle) hpf))
      · omega
      · exact Or.inr (Or.inr (by simp [ht]))

theorem Idle.prepare (hc : c.Fits) (hb : c.maxBytesPerCycle = 0xFFFFFFFF) (h : Idle c s) :
    Ready c (s.prepare c) := by
  cases hr : s.restarts c with
  | true => exact h.prepare_restart hc hb hr
  | false =>
    rcases Nat.lt_or_ge s.main.chunckCounter c.numberOfChunks with hf | hf
    · exact h.prepare_fifo hc hb hf hr
    · exact h.prepare_priority hc hb hf hr

/-! ### Runs -/

/-- The invariant of a run. -/
def Inv (c : Config) (s : Sched) : Prop :=
  (s.main.changed = false ∧ Idle c s) ∨ (s.main.changed = true ∧ Ready c s)

theorem Inv.step (hc : c.Fits) (hb : c.maxBytesPerCycle = 0xFFFFFFFF) (h : Inv c s)
    (hs : Sched.Step c s s') : Inv c s' := by
  cases hs with
  | callback hp => exact h.imp (And.imp id Idle.callback) (And.imp id Ready.callback)
  | prepare hch =>
    rcases h with ⟨-, hi⟩ | ⟨hch', -⟩
    · refine Or.inr ⟨?_, hi.prepare hc hb⟩
      show ((s.main.plan c s.memory s.changedFlagMem).settle c).changed = true
      rw [settle_eq]
    · rw [hch] at hch'
      cases hch'
  | dispatch hch =>
    rcases h with ⟨hch', -⟩ | ⟨-, hr⟩
    · rw [hch] at hch'
      cases hch'
    · exact Or.inl ⟨rfl, hr.dispatch hc⟩

/-- **No change is forgotten**: in every run, whenever no cycle is prepared, a PV whose last value
was not in the snapshot of its last dispatch is tracked, unless a FIFO cycle took its flag. -/
theorem no_change_forgotten (hc : c.Fits) (hb : c.maxBytesPerCycle = 0xFFFFFFFF) {flags : ℕ → Bool}
    (h : Reachable (Sched.Step c) (.start flags) s) (hidle : s.main.changed = false)
    (hp : p < c.numberOfVariables) (hstale : s.sent p ≠ some (s.memory p)) :
    s.Tracked c p ∨ s.taken p = true := by
  have hinv : Inv c s :=
    h.invariant (Or.inl ⟨rfl, idle_start hc flags⟩) fun _ _ hi hs => hi.step hc hb hs
  rcases hinv with ⟨-, hi⟩ | ⟨hch, -⟩
  · exact hi.tracked p hp hstale
  · rw [hidle] at hch
    cases hch

/-! ### The flag a FIFO cycle takes -/

/-- Two PVs, one a cycle. -/
def twoPvs : Config where
  numberOfVariables := 2
  numberOfSignalToBeSent := 1
  numberOfPoolThreads := 1
  maxBytesPerCycle := 0xFFFFFFFF
  maxVarSize := 0xFFFFFFFF
  resetCounter := 120
  sendOnlyChanged := false
  pvDes := fun _ => ⟨[], 1, 4, 0, 0⟩

theorem twoPvs_fits : twoPvs.Fits := ⟨by decide, by decide, by decide⟩

/-- PV 0 is sent in the first cycle of the trip and changes before the second. -/
def twoPvsRun : Sched :=
  (((((Sched.start fun _ => false).prepare twoPvs).dispatch twoPvs).callback 0).prepare twoPvs).dispatch
    twoPvs

theorem twoPvsRun_reachable : Reachable (Sched.Step twoPvs) (.start fun _ => false) twoPvsRun := by
  have h₁ := Reachable.refl.next (Sched.Step.prepare (c := twoPvs) (s := .start fun _ => false) rfl)
  have h₂ := h₁.next (.dispatch (by decide))
  have h₃ := h₂.next (.callback (show 0 < 2 by decide))
  exact (h₃.next (.prepare (by decide))).next (.dispatch (by decide))

/-- After that run PV 0 is accounted for, as `taken`. -/
theorem no_change_forgotten_two : twoPvsRun.Tracked twoPvs 0 ∨ twoPvsRun.taken 0 = true :=
  no_change_forgotten twoPvs_fits rfl twoPvsRun_reachable (by decide) (by decide) (by decide)

/-- But it is neither flagged nor pending nor still to be sent. -/
theorem change_forgotten_two :
    ¬ ∀ c : Config, c.Fits → c.maxBytesPerCycle = 0xFFFFFFFF → ∀ flags s,
      Reachable (Sched.Step c) (.start flags) s → s.main.changed = false →
        ∀ p < c.numberOfVariables, s.sent p ≠ some (s.memory p) → s.Tracked c p := by
  intro h
  have htr := h twoPvs twoPvs_fits rfl _ _ twoPvsRun_reachable (by decide) 0 (by decide) (by decide)
  rcases htr with hflag | ⟨_, ⟨d, hd, -⟩, -⟩ | ⟨hch, -⟩
  · exact absurd hflag (by decide)
  · exact absurd hd (by simp [show twoPvsRun.main.currentChangePos = 0 by decide])
  · exact absurd hch (by decide)

end Hieratika.Sender

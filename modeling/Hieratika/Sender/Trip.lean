import Hieratika.Sender.CycleLoop
import Mathlib.Tactic.IntervalCases

/-!
# FIFO trips

From the start, after a reconnection and after a reset the loop makes a trip: `numberOfChunks` FIFO
cycles, enough for every PV when a cycle sends `maxSignalPerThread` of them. But the trip counts
cycles, and a cycle that exceeds `maxBytesPerCycle` sends less; when it is its second PV that does not
fit, it sends nothing.

## What is proved

As long as no FIFO cycle is cut by the byte budget, nor its positions by a wrap, a sweep decided on a
`chunckCounter` read since the last reset finds every PV dispatched since then (`trip_covers`), at
whatever points of a turn the resets come. A cut cycle is still counted (`trip_misses`).
-/

namespace Hieratika.Sender

open Foundations

variable {μ : Type*} {c : Config} {s s' : Loop μ}

/-- What `Initialise` and `SetDataSource` accept; `SendOnlyChanged` is 0 behind `Initialise`, and
`SetDataSource` divides by the PVs of a cycle. -/
structure Config.Accepted (c : Config) : Prop where
  variables_lt : c.numberOfVariables < 2 ^ 32
  sent_pos : 0 < c.maxSignalPerThread
  dataSource : c.setDataSource = true
  sendAll : c.sendOnlyChanged = false

theorem Config.Accepted.max_le (h : c.Accepted) : c.maxSignalPerThread ≤ c.numberOfVariables := by
  have hle := h.dataSource
  unfold Config.setDataSource at hle
  rw [Nat.mul_comm] at hle
  exact of_decide_eq_true hle

theorem Config.Accepted.vars_pos (h : c.Accepted) : 0 < c.numberOfVariables := h.sent_pos.trans_le h.max_le

/-- `totalSize` behind the first `k` descriptors from the start of the queue. -/
def Config.windowTotal (c : Config) (currentIdx : ℕ) : ℕ → ℕ
  | 0 => 0
  | k + 1 => u32 (c.windowTotal currentIdx k + (c.pvDes (c.queueIndex currentIdx k)).totalSize)

/-- A whole cycle from here is within the byte budget, and its positions do not wrap. -/
def Config.WindowFits (c : Config) (currentIdx : ℕ) : Prop :=
  (∀ k ≤ c.maxSignalPerThread, c.windowTotal currentIdx k ≤ c.maxBytesPerCycle) ∧
    currentIdx + c.maxSignalPerThread < 2 ^ 32

/-- The condition on a step: a FIFO cycle is not cut. -/
def Loop.Uncut (c : Config) (s s' : Loop μ) : Prop :=
  (∃ r b, s.pc = .read r b) → (∃ b, s'.pc = .chosen true b) → c.WindowFits s.main.currentIdx

/-! ### A cycle that is not cut -/

theorem fitBudget_fits {cur : ℕ} :
    ∀ (left n : ℕ), (∀ k ≤ n + left, c.windowTotal cur k ≤ c.maxBytesPerCycle) →
    c.fitBudget cur left n (c.windowTotal cur n) = n + left
  | 0, _, _ => rfl
  | left + 1, n, h => by
    have hnext : u32 (c.windowTotal cur n + (c.pvDes (c.queueIndex cur n)).totalSize) =
      c.windowTotal cur (n + 1) := rfl
    simp only [Config.fitBudget]
    rw [hnext, if_neg (Nat.not_lt.mpr (h (n + 1) (by omega))), fitBudget_fits left (n + 1) fun k hk =>
      h k (by omega)]
    omega

/-- Without `sendOnlyChanged` a cycle is filled up before the budget is looked at. -/
theorem Config.Accepted.clamp (hc : c.Accepted) (m : Main μ) :
    (m.clamp c).nVariables = c.maxSignalPerThread := by
  unfold Main.clamp
  rw [hc.sendAll]
  exact if_neg (lt_irrefl _)

/-- A cycle that fits has `maxSignalPerThread` PVs. -/
theorem finishPlan_full (hc : c.Accepted) {m : Main μ} (h : c.WindowFits m.currentIdx) :
    (m.finishPlan c).nVariables = c.maxSignalPerThread := by
  show c.fitBudget m.currentIdx (m.clamp c).nVariables 0 0 = _
  rw [hc.clamp]
  exact (fitBudget_fits c.maxSignalPerThread 0 fun k hk => h.1 k (by omega)).trans (Nat.zero_add _)

/-! ### The invariant -/

/-- Every PV is dispatched. -/
def Loop.AllDone (c : Config) (s : Loop μ) : Prop := ∀ p < c.numberOfVariables, p ∈ s.dispatched

/-- The `credit` cycles behind the start of the queue are dispatched. -/
def Loop.Credited (c : Config) (s : Loop μ) (credit : ℕ) : Prop :=
  ∀ d < c.numberOfVariables, s.main.indexList (ringPos c.numberOfVariables s.main.currentIdx d) ∉
    s.dispatched →
    d + credit * c.maxSignalPerThread < c.numberOfVariables

/-- A cycle is prepared: a whole one, that `chunckCounter` already counts, if anything is missing. -/
def Loop.Prepared (c : Config) (s : Loop μ) : Prop :=
  s.main.chunckCounter = 0 ∨ s.AllDone c ∨ (s.main.nVariables = c.maxSignalPerThread ∧
    s.main.currentIdx + c.maxSignalPerThread < 2 ^ 32 ∧ s.Credited c (s.main.chunckCounter - 1))

/-- Between two cycles, or with one that is prepared. -/
def Loop.Waiting (c : Config) (s : Loop μ) : Prop :=
  if s.main.changed then s.Prepared c else s.Credited c s.main.chunckCounter

/-- What holds at a point of the turn. -/
def Loop.Phase (c : Config) (s : Loop μ) : Prop :=
  match s.pc with
  | .top => s.Waiting c
  | .read r _ => s.Waiting c ∧ if s.fresh then r = s.main.chunckCounter else s.main.chunckCounter = 0
  | .sweep _ _ => s.main.chunckCounter = 0 ∨ s.AllDone c
  | .chosen true _ => c.WindowFits s.main.currentIdx ∧
      (s.main.chunckCounter = 0 ∨ s.Credited c (s.main.chunckCounter - 1))
  | .chosen false _ => s.main.chunckCounter = 0 ∨ s.AllDone c
  | .ready _ => s.main.changed = true ∧ s.Prepared c

/-- The invariant of a trip. -/
structure Loop.OnTrip (c : Config) (s : Loop μ) : Prop where
  bij : Set.BijOn s.main.indexList (Set.Iio c.numberOfVariables) (Set.Iio c.numberOfVariables)
  cur : s.main.currentIdx < c.numberOfVariables
  count : s.main.chunckCounter ≤ c.numberOfChunks
  phase : s.Phase c

/-- Nothing is claimed of a trip that has just begun. -/
theorem Loop.credited_zero : s.Credited c 0 := fun d hd _ => by simpa using hd

/-- Where a turn decides on a branch: nothing is prepared, and what was read is not older than the
trip. -/
theorem Loop.OnTrip.decides (hs : s.OnTrip c) {r : ℕ} {b : Bool} (hpc : s.pc = .read r b)
    (hch : s.main.changed = false) :
    s.Credited c s.main.chunckCounter ∧
      if s.fresh then r = s.main.chunckCounter else s.main.chunckCounter = 0 := by
  have hphase := hs.phase
  unfold Loop.Phase at hphase
  rw [hpc] at hphase
  obtain ⟨hwait, hread⟩ := hphase
  unfold Loop.Waiting at hwait
  rw [if_neg (by rw [hch]; exact Bool.false_ne_true)] at hwait
  exact ⟨hwait, hread⟩

/-- `numberOfChunks` cycles are all PVs. -/
theorem Loop.OnTrip.allDone (hc : c.Accepted) (hs : s.OnTrip c) (h : s.Credited c s.main.chunckCounter)
    (hfull : c.numberOfChunks ≤ s.main.chunckCounter) : s.AllDone c := by
  intro p hp
  obtain ⟨q, hq, rfl⟩ := hs.bij.surjOn hp
  obtain ⟨d, hd, rfl⟩ := exists_ringPos hs.cur hq
  by_contra hnot
  have hlt := h d hd hnot
  have hcover := (Config.chunks_cover hc.sent_pos hc.max_le).2.2
  have hmul := Nat.mul_le_mul_right c.maxSignalPerThread hfull
  omega

/-- **The dispatch** of a prepared cycle turns it into one more credited cycle. -/
theorem Loop.Prepared.dispatch (hc : c.Accepted) (hs : s.OnTrip c) (h : s.Prepared c) {b : Bool} :
    Loop.Credited c ⟨s.main.dispatch c, .top, s.dispatched ∪ {p | s.main.InRound c p}, b⟩
      s.main.chunckCounter := by
  intro d hd hnot
  obtain ⟨hold, hround⟩ := not_or.mp hnot
  have hn := hc.vars_pos
  rcases h with hzero | hall | ⟨hfull, hwrap, hcredit⟩
  · rw [hzero, Nat.zero_mul]
    exact hd
  · exact absurd (hall _ (hs.bij.mapsTo (ringPos_lt hn))) hold
  · have hcur : (s.main.dispatch c).currentIdx = ringPos c.numberOfVariables s.main.currentIdx
        c.maxSignalPerThread := by
      show u32 (s.main.currentIdx + s.main.nVariables) % c.numberOfVariables = _
      rw [hfull, u32_of_lt hwrap, ringPos]
    have hlist : (s.main.dispatch c).indexList = s.main.indexList := rfl
    simp only [hlist, hcur, ringPos_ringPos] at hold hround
    rcases Nat.lt_or_ge (c.maxSignalPerThread + d) c.numberOfVariables with hlt | hge
    · have hprev := hcredit _ hlt hold
      rcases Nat.eq_zero_or_pos s.main.chunckCounter with hzero | hpos
      · rw [hzero, Nat.zero_mul]
        exact hd
      · obtain ⟨k, hk⟩ := Nat.exists_eq_succ_of_ne_zero hpos.ne'
        rw [hk, Nat.succ_sub_one] at hprev
        rw [hk, Nat.succ_mul]
        omega
    · refine absurd ⟨c.maxSignalPerThread + d - c.numberOfVariables, by omega, ?_⟩ hround
      congr 1
      rw [← ringPos_mod (d := c.maxSignalPerThread + d), Nat.mod_eq_sub_mod hge, ringPos_mod]

/-! ### The steps -/

/-- Behind the end of a preparation that begins no new trip. -/
theorem Loop.OnTrip.settled (hs : s.OnTrip c) (hr : (s.main.finishPlan c).restarts c = false)
    (finished : Bool)
    (h : s.main.chunckCounter = 0 ∨ s.AllDone c ∨ ((s.main.finishPlan c).nVariables = c.maxSignalPerThread ∧
      s.main.currentIdx + c.maxSignalPerThread < 2 ^ 32 ∧ s.Credited c (s.main.chunckCounter - 1))) :
    ((s.main.finishPlan c).settle c).chunckCounter ≤ c.numberOfChunks ∧
      Loop.Phase c { s with main := (s.main.finishPlan c).settle c, pc := .ready finished } := by
  have heq : (s.main.finishPlan c).settle c = { s.main.finishPlan c with
      currentChangePos := (s.main.finishPlan c).pending, changed := true } := by
    rw [settle_eq, hr]
    rfl
  rw [heq]
  exact ⟨hs.count, rfl, h⟩

/-- **One step** keeps the invariant. -/
theorem Loop.OnTrip.step (hc : c.Accepted) (hs : s.OnTrip c) (h : Loop.Step c s s')
    (hg : s.Uncut c s') : s'.OnTrip c := by
  have hphase := hs.phase
  have hn := hc.vars_pos
  obtain ⟨hpos, hle, -⟩ := Config.chunks_cover hc.sent_pos hc.max_le
  have hN := hc.variables_lt
  have hqueue := h.queued hn ⟨hs.bij, hs.cur⟩
  suffices hrest : s'.main.chunckCounter ≤ c.numberOfChunks ∧ s'.Phase c from
      ⟨hqueue.bij, hqueue.cur, hrest.1, hrest.2⟩
  unfold Loop.Phase at hphase
  cases h with
  | read finished hpc =>
    rw [hpc] at hphase
    exact ⟨hs.count, hphase, rfl⟩
  | waiting r finished hpc hch =>
    rw [hpc] at hphase
    have hwait := hphase.1
    unfold Loop.Waiting at hwait
    rw [if_pos hch] at hwait
    exact ⟨hs.count, hch, hwait⟩
  | fifo r finished snapshot flags hpc hch hr =>
    have hfits := hg ⟨r, finished, hpc⟩ ⟨finished, rfl⟩
    obtain ⟨hwait, hread⟩ := hs.decides hpc hch
    have hlt : s.main.chunckCounter < c.numberOfChunks := by
      split_ifs at hread <;> omega
    have hcount : u32 (s.main.chunckCounter + 1) = s.main.chunckCounter + 1 := u32_of_lt (by omega)
    refine ⟨?_, hfits, .inr ?_⟩
    · show u32 (s.main.chunckCounter + 1) ≤ _
      omega
    · show Loop.Credited c _ (u32 (s.main.chunckCounter + 1) - 1)
      rw [hcount, Nat.add_sub_cancel]
      exact hwait
  | priority r finished snapshot flags hpc hch hr =>
    obtain ⟨hwait, hread⟩ := hs.decides hpc hch
    refine ⟨hs.count, ?_⟩
    by_cases hfresh : s.fresh = true
    · rw [if_pos hfresh] at hread
      have hall : s.AllDone c := hs.allDone hc hwait (hread ▸ hr)
      exact .inr hall
    · rw [if_neg hfresh] at hread
      exact .inl hread
  | sweepTurn i finished hpc hi =>
    rw [hpc] at hphase
    have hframe := sweepAt_frame (c := c) s.main i
    refine ⟨?_, ?_⟩
    · rw [hframe]
      exact hs.count
    · rw [hframe]
      exact hphase
  | swept i finished hpc hi =>
    rw [hpc] at hphase
    exact ⟨hs.count, hphase⟩
  | settle fifo finished hpc hr =>
    rw [hpc] at hphase
    apply hs.settled hr finished
    cases fifo with
    | true =>
      obtain ⟨hfits, hzero | hcredit⟩ := hphase
      · exact .inl hzero
      · exact .inr (.inr ⟨finishPlan_full hc hfits, hfits.2, hcredit⟩)
    | false =>
      rcases hphase with hzero | hall
      · exact .inl hzero
      · exact .inr (.inl hall)
  | settleRestart fifo finished hpc hr =>
    rw [settle_eq, hr]
    exact ⟨Nat.zero_le _, rfl, .inl rfl⟩
  | dispatch hpc =>
    rw [hpc] at hphase
    exact ⟨hs.count, hphase.2.dispatch hc hs⟩
  | idle hpc =>
    rw [hpc] at hphase
    refine ⟨hs.count, ?_⟩
    show Loop.Waiting c _
    unfold Loop.Waiting
    rw [if_pos hphase.1]
    exact hphase.2
  | reconnect =>
    refine ⟨Nat.zero_le _, ?_⟩
    have hwait : Loop.Waiting c { s.restart with main := { s.main with chunckCounter := 0 } } := by
      unfold Loop.Waiting
      split_ifs
      · exact .inl rfl
      · exact Loop.credited_zero
    obtain ⟨main, pc, dispatched, fresh⟩ := s
    cases pc with
    | top => exact hwait
    | read r b => exact ⟨hwait, rfl⟩
    | sweep i b => exact .inl rfl
    | chosen fifo b =>
      cases fifo with
      | true => exact ⟨hphase.1, .inl rfl⟩
      | false => exact .inl rfl
    | ready b => exact ⟨hphase.1, .inl rfl⟩

theorem Loop.onTrip_start (hc : c.Accepted) (memory memoryThreads : μ) (flags : ℕ → Bool) :
    (Loop.start memory memoryThreads flags).OnTrip c :=
  ⟨Set.bijOn_id _, hc.vars_pos, Nat.zero_le _, Loop.credited_zero⟩

/-- Whenever a sweep is decided on a `chunckCounter` read since the last reset, every PV is dispatched
since then. -/
def Loop.TripCovers (c : Config) (s : Loop μ) : Prop :=
  ∀ r b, s.pc = .read r b → s.main.changed = false → s.fresh = true → c.numberOfChunks ≤ r → s.AllDone c

/-- **A FIFO trip covers everything** in every run whose FIFO cycles are not cut. -/
theorem trip_covers (c : Config) (hc : c.Accepted) (memory memoryThreads : μ) (flags : ℕ → Bool) (s : Loop μ)
    (hs : Reachable (Guarded (Loop.Step c) (Loop.Uncut c)) (.start memory memoryThreads flags) s) :
    s.TripCovers c := by
  have hinv : s.OnTrip c := hs.invariant (Loop.onTrip_start hc memory memoryThreads flags)
    fun _ _ hinv hstep => hinv.step hc hstep.1 hstep.2
  intro r b hpc hch hfresh hr
  obtain ⟨hwait, hread⟩ := hinv.decides hpc hch
  rw [if_pos hfresh] at hread
  exact hinv.allDone hc hwait (hread ▸ hr)

/-- Two PVs of eight bytes in one cycle. -/
def twoInOne (maxBytesPerCycle : ℕ) : Config :=
  ⟨2, 1, 2, maxBytesPerCycle, 0xFFFFFFFF, 120, false, fun _ => ⟨[65], 1, 8, 0, 9⟩⟩

theorem twoInOne_accepted (n : ℕ) : (twoInOne n).Accepted where
  variables_lt := show 2 < 2 ^ 32 by decide
  sent_pos := show 0 < u32 (1 * 2) by decide
  dataSource := show decide (u32 (2 * 1) ≤ 2) = true by decide
  sendAll := rfl

theorem twoInOne_window : (twoInOne 16).WindowFits 0 := by
  refine ⟨fun k hk => ?_, by decide⟩
  have hk : k ≤ 2 := hk
  interval_cases k <;> decide

/-- With sixteen bytes a cycle the first trip sends both PVs. -/
theorem trip_covers_two :
    ∃ s : Loop Unit, Reachable (Loop.Step (twoInOne 16)) (.start () () fun _ => false) s ∧
    s.pc = .read 1 true ∧ s.AllDone (twoInOne 16) := by
  have h₁ : Reachable (Guarded (Loop.Step (twoInOne 16)) (Loop.Uncut (twoInOne 16)))
      (.start () () fun _ => false) _ :=
    Reachable.refl.next ⟨.read true rfl, fun _ ⟨_, h⟩ => by cases h⟩
  have h₂ := h₁.next ⟨.fifo 0 true () (fun _ => false) rfl rfl (by decide), fun _ _ => twoInOne_window⟩
  have h₃ := h₂.next ⟨.settle true true rfl (by decide), fun ⟨_, _, h⟩ => by cases h⟩
  have h₄ := h₃.next ⟨.dispatch rfl, fun ⟨_, _, h⟩ => by cases h⟩
  have h₅ := h₄.next ⟨.read true rfl, fun ⟨_, _, h⟩ => by cases h⟩
  exact ⟨_, h₅.mono fun _ _ h => h.1, rfl,
    trip_covers (twoInOne 16) (twoInOne_accepted 16) () () _ _ h₅ 1 true rfl rfl rfl (by decide)⟩

/-- With eight the cycle is cut to nothing, and counted: the sweep comes with nothing sent. -/
theorem trip_misses : ¬ ∀ (c : Config), c.Accepted → (∀ p, (c.pvDes p).totalSize ≤ c.maxBytesPerCycle) →
    ∀ s : Loop Unit, Reachable (Loop.Step c) (.start () () fun _ => false) s → s.TripCovers c := by
  intro h
  have h₁ : Reachable (Loop.Step (twoInOne 8)) (.start () () fun _ => false) _ :=
    Reachable.refl.next (.read true rfl)
  have h₂ := h₁.next (.fifo 0 true () (fun _ => false) rfl rfl (by decide))
  have h₃ := h₂.next (.settle true true rfl (by decide))
  have h₄ := h₃.next (.dispatch rfl)
  have h₅ := h₄.next (.read true rfl)
  have hall := h (twoInOne 8) (twoInOne_accepted 8) (fun _ => show u32 (1 * 8) ≤ 8 by decide) _ h₅ 1
    true rfl rfl rfl
    (by decide)
  rcases hall 0 (by decide) with hnone | ⟨d, hd, -⟩
  · exact hnone
  · exact absurd hd (Nat.not_lt_zero d)

end Hieratika.Sender

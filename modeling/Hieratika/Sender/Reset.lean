import Hieratika.Foundations.Bytes
import Hieratika.Sender.Sweep

/-!
# The reset counter

`sendCounter` counts the cycles. Once it has reached `resetCounter` the preparation of a cycle sets
`chunckCounter` back to 0, for a new trip through all the PVs. But `sendCounter` itself is not set
back, so the next cycle does the same, and no trip ever ends.

## What is proved

In a run without reconnections in which not too many PVs change, a reset is followed by a priority
sweep within `numberOfChunks + 1` cycles exactly when `sendCounter` was at `2 ^ 32 - 1` and wraps to 0
behind it. All resets are when `resetCounter` is `2 ^ 32 - 1` (`priority_returns_iff`).
-/

namespace Hieratika.Sender

open Foundations

/-! ### Runs of whole cycles -/

section

variable {μ : Type*}

/-- `tooManyChanged`. -/
def Main.tooManyChanged (c : Config) (m : Main μ) : Bool :=
  sub32 c.numberOfVariables c.maxSignalPerThread < m.pending

/-- A run of cycles, each prepared and dispatched, in which no pool thread reconnects and
`tooManyChanged` is never true. -/
structure CalmRun (c : Config) (run : ℕ → Main μ) : Prop where
  start : ∃ memory memoryThreads flags, run 0 = .start memory memoryThreads flags
  next : ∀ i, ∃ snapshot flags, run (i + 1) = ((run i).prepare c snapshot flags).dispatch c ∧
    ((run i).plan c snapshot flags).tooManyChanged c = false

/-- The cycle prepared from this state runs the priority sweep. -/
def Main.Sweeps (c : Config) (m : Main μ) : Prop := c.numberOfChunks ≤ m.chunckCounter

/-- The cycle prepared from this state is reset by `resetCounter`. -/
def Main.Resets (c : Config) (m : Main μ) : Prop := c.resetCounter ≤ m.sendCounter

/-- Within `numberOfChunks + 1` cycles behind cycle `i` the sweep runs. -/
def SweepFollows (c : Config) (run : ℕ → Main μ) (i : ℕ) : Prop :=
  ∃ j, i < j ∧ j ≤ i + (c.numberOfChunks + 1) ∧ (run j).Sweeps c

variable {c : Config} {m : Main μ} {run : ℕ → Main μ} {i : ℕ}

/-! ### The counters -/

/-- A sweep changes the queue and the count of pending PVs only. -/
theorem sweep_frame (m : Main μ) : ∀ k, (c.sweep m k).chunckCounter = m.chunckCounter ∧
    (c.sweep m k).sendCounter = m.sendCounter
  | 0 => ⟨rfl, rfl⟩
  | k + 1 => by
    obtain ⟨hchunk, hsend⟩ := sweep_frame m k
    rw [Config.sweep, List.range_succ, List.foldl_append, List.foldl_cons, List.foldl_nil]
    show (c.sweepAt (c.sweep m k) k).chunckCounter = _ ∧ (c.sweepAt (c.sweep m k) k).sendCounter = _
    rw [sweepAt_frame]
    exact ⟨hchunk, hsend⟩

theorem plan_counters (snapshot : μ) (flags : ℕ → Bool) :
    (m.plan c snapshot flags).sendCounter = m.sendCounter ∧
      (m.plan c snapshot flags).chunckCounter =
        if c.numberOfChunks ≤ m.chunckCounter then m.chunckCounter else u32 (m.chunckCounter + 1) := by
  have hframe := sweep_frame (c := c) { m.synchronise snapshot flags with nVariables := m.currentChangePos }
    c.numberOfVariables
  show ((m.synchronise snapshot flags).select c m.chunckCounter).sendCounter = _ ∧
    ((m.synchronise snapshot flags).select c m.chunckCounter).chunckCounter = _
  unfold Main.select
  split_ifs
  · exact ⟨hframe.2, hframe.1⟩
  · exact ⟨rfl, rfl⟩

/-- **One cycle**: what it does to the two counters. -/
theorem CalmRun.counters (h : CalmRun c run) (i : ℕ) :
    (run (i + 1)).sendCounter = u32 ((run i).sendCounter + 1) ∧
      (run (i + 1)).chunckCounter = if c.resetCounter ≤ (run i).sendCounter then 0
        else if c.numberOfChunks ≤ (run i).chunckCounter then (run i).chunckCounter
        else u32 ((run i).chunckCounter + 1) := by
  obtain ⟨snapshot, flags, hnext, hcalm⟩ := h.next i
  obtain ⟨hsend, hchunk⟩ := plan_counters (c := c) (m := run i) snapshot flags
  have hrestarts :
      ((run i).plan c snapshot flags).restarts c = decide (c.resetCounter ≤ (run i).sendCounter) := by
    unfold Main.tooManyChanged at hcalm
    rw [Main.restarts, hcalm, hsend, Bool.false_or]
  rw [hnext, Main.prepare, Main.settle, hrestarts]
  by_cases hreset : c.resetCounter ≤ (run i).sendCounter
  · rw [if_pos (decide_eq_true hreset), if_pos hreset]
    exact ⟨congrArg (fun n => u32 (n + 1)) hsend, rfl⟩
  · rw [if_neg (by rw [decide_eq_true_iff]; exact hreset), if_neg hreset]
    exact ⟨congrArg (fun n => u32 (n + 1)) hsend, hchunk⟩

/-- `sendCounter` counts on, modulo `2 ^ 32`. -/
theorem CalmRun.sendCounter_add (h : CalmRun c run) (hi : (run i).sendCounter < 2 ^ 32) :
    ∀ k, (run (i + k)).sendCounter = u32 ((run i).sendCounter + k)
  | 0 => (u32_of_lt hi).symm
  | k + 1 => by
    rw [← Nat.add_assoc, (h.counters (i + k)).1, h.sendCounter_add hi k, u32, u32, u32, Nat.mod_add_mod,
      Nat.add_assoc]

theorem CalmRun.sendCounter_lt (h : CalmRun c run) : ∀ i, (run i).sendCounter < 2 ^ 32
  | 0 => by
    obtain ⟨memory, memoryThreads, flags, hstart⟩ := h.start
    rw [hstart]
    exact Nat.two_pow_pos 32
  | i + 1 => by
    rw [(h.counters i).1]
    exact u32_lt _

/-- Without resets `chunckCounter` climbs from 0, one step a cycle. -/
theorem CalmRun.climb (h : CalmRun c run) (hchunks : c.numberOfChunks < 2 ^ 32)
    (hzero : (run i).chunckCounter = 0) :
    ∀ n ≤ c.numberOfChunks, (∀ k < n, (run (i + k)).sendCounter < c.resetCounter) →
      (run (i + n)).chunckCounter = n
  | 0, _, _ => hzero
  | n + 1, hn, hlow => by
    have hprev := h.climb hchunks hzero n (by omega) fun k hk => hlow k (by omega)
    rw [← Nat.add_assoc, (h.counters (i + n)).2, hprev, if_neg (Nat.not_le.mpr (hlow n (by omega))),
      if_neg (by omega), u32_of_lt (by omega)]

/-- While every cycle is reset, `chunckCounter` stays at 0. -/
theorem CalmRun.chunckCounter_zero (h : CalmRun c run) {k : ℕ} (hk : 0 < k)
    (hreset : (run (i + (k - 1))).Resets c) :
    (run (i + k)).chunckCounter = 0 := by
  obtain ⟨k, rfl⟩ := Nat.exists_eq_succ_of_ne_zero hk.ne'
  rw [Nat.succ_sub_one] at hreset
  rw [Nat.succ_eq_add_one, ← Nat.add_assoc, (h.counters (i + k)).2]
  exact if_pos hreset

/-- **Behind a reset** the sweep runs within `numberOfChunks + 1` cycles exactly when `sendCounter`
wraps. -/
theorem CalmRun.sweepFollows_iff (h : CalmRun c run) (hpos : 1 ≤ c.numberOfChunks)
    (hchunks : c.numberOfChunks < c.resetCounter)
    (hlt : c.resetCounter < 2 ^ 32) (hreset : (run i).Resets c) :
    SweepFollows c run i ↔ (run i).sendCounter = 2 ^ 32 - 1 := by
  have hsend := h.sendCounter_lt i
  have hadd := h.sendCounter_add hsend
  have hreset' : c.resetCounter ≤ (run i).sendCounter := hreset
  have hbefore : ∀ k, (run i).sendCounter + k < 2 ^ 32 → (run (i + k)).Resets c := by
    intro k hk
    unfold Main.Resets
    rw [hadd, u32_of_lt hk]
    omega
  obtain ⟨w, hw⟩ : ∃ w, (run i).sendCounter + w = 2 ^ 32 - 1 := ⟨2 ^ 32 - 1 - (run i).sendCounter, by omega⟩
  have hzero : (run (i + (w + 1))).chunckCounter = 0 :=
    h.chunckCounter_zero (Nat.succ_pos w) (hbefore w (by omega))
  have hafter : ∀ n ≤ c.numberOfChunks, (run (i + (w + 1) + n)).chunckCounter = n := fun n hn =>
    h.climb (by omega) hzero n hn fun k hk => by
      rw [Nat.add_assoc, hadd, u32_add_of_ge hsend (by omega) (by omega)]
      omega
  constructor
  · rintro ⟨j, hij, hj, hsweep⟩
    by_contra hne
    unfold Main.Sweeps at hsweep
    obtain ⟨k, rfl⟩ := Nat.exists_eq_add_of_lt hij
    rcases Nat.lt_or_ge k (w + 1) with hk | hk
    · rw [Nat.add_assoc, h.chunckCounter_zero (Nat.succ_pos k) (hbefore k (by omega))] at hsweep
      omega
    · rw [show i + k + 1 = i + (w + 1) + (k - w) by omega, hafter _ (by omega)] at hsweep
      omega
  · intro heq
    refine ⟨i + (w + 1) + c.numberOfChunks, by omega, by omega, ?_⟩
    unfold Main.Sweeps
    rw [hafter _ le_rfl]

/-! ### A run in which nothing changes -/

/-- The cycles from a state, when no PV changes. -/
def Main.quiet (c : Config) (m : Main μ) (snapshot : μ) : ℕ → Main μ
  | 0 => m
  | i + 1 => ((Main.quiet c m snapshot i).prepare c snapshot fun _ => false).dispatch c

theorem sweep_quiet (hflags : ∀ p, m.changeFlag p = false) : ∀ k, c.sweep m k = m
  | 0 => rfl
  | k + 1 => by
    rw [Config.sweep, List.range_succ, List.foldl_append, List.foldl_cons, List.foldl_nil]
    show c.sweepAt (c.sweep m k) k = m
    rw [sweep_quiet hflags k, Config.sweepAt, hflags]
    rfl

/-- Nothing is pending, and nothing becomes pending. -/
theorem plan_quiet (snapshot : μ) (h : m.currentChangePos = 0) :
    (m.plan c snapshot fun _ => false).pending = 0 := by
  have hpos : (m.plan c snapshot fun _ => false).currentChangePos = 0 := by
    show ((m.synchronise snapshot fun _ => false).select c m.chunckCounter).currentChangePos = 0
    unfold Main.select
    split_ifs
    · rw [Main.priority, sweep_quiet fun _ => rfl]
      exact h
    · exact h
  rw [Main.pending, hpos, if_neg (Nat.not_lt_zero _)]

theorem quiet_currentChangePos (snapshot memory memoryThreads : μ) (flags : ℕ → Bool) : ∀ i,
    (Main.quiet c (.start memory memoryThreads flags) snapshot i).currentChangePos = 0
  | 0 => rfl
  | i + 1 => by
    have hpending :=
      plan_quiet (c := c) snapshot (quiet_currentChangePos snapshot memory memoryThreads flags i)
    rw [Main.quiet, Main.prepare, Main.settle]
    split_ifs
    · rfl
    · exact hpending

theorem calmRun_quiet (snapshot memory memoryThreads : μ) (flags : ℕ → Bool) :
    CalmRun c (Main.quiet c (.start memory memoryThreads flags) snapshot) where
  start := ⟨memory, memoryThreads, flags, rfl⟩
  next i := by
    refine ⟨snapshot, fun _ => false, rfl, ?_⟩
    rw [Main.tooManyChanged,
      plan_quiet snapshot (quiet_currentChangePos snapshot memory memoryThreads flags i)]
    exact decide_eq_false (Nat.not_lt_zero _)

end

/-- The cycles of a sender whose PVs never change, with empty memories. -/
def quietRun (c : Config) : ℕ → Main Memory :=
  Main.quiet c (.start (fun _ => 0) (fun _ => 0) fun _ => false) fun _ => 0

theorem calmRun_quietRun (c : Config) : CalmRun c (quietRun c) := calmRun_quiet _ _ _ _

theorem quietRun_sendCounter (c : Config) {i : ℕ} (hi : i < 2 ^ 32) : (quietRun c i).sendCounter = i := by
  have hrun := calmRun_quietRun c
  have hsend := hrun.sendCounter_add (hrun.sendCounter_lt 0) i
  have hzero : (quietRun c 0).sendCounter = 0 := rfl
  rwa [Nat.zero_add, hzero, Nat.zero_add, u32_of_lt hi] at hsend

/-- **Priority mode comes back** behind a reset exactly when `sendCounter` wraps behind it, and behind
all resets of all runs exactly when `resetCounter` is `2 ^ 32 - 1`. -/
theorem priority_returns_iff (c : Config) (hpos : 1 ≤ c.numberOfChunks)
    (hchunks : c.numberOfChunks < c.resetCounter) (hlt : c.resetCounter < 2 ^ 32) :
    (∀ run : ℕ → Main Memory, CalmRun c run → ∀ i, (run i).Resets c →
        (SweepFollows c run i ↔ (run i).sendCounter = 2 ^ 32 - 1)) ∧
      ((∀ run : ℕ → Main Memory, CalmRun c run → ∀ i, (run i).Resets c → SweepFollows c run i) ↔
        c.resetCounter = 2 ^ 32 - 1) := by
  have hiff : ∀ run : ℕ → Main Memory, CalmRun c run → ∀ i, (run i).Resets c →
      (SweepFollows c run i ↔ (run i).sendCounter = 2 ^ 32 - 1) := fun run h i hreset =>
    h.sweepFollows_iff hpos hchunks hlt hreset
  refine ⟨hiff, fun hall => ?_, fun heq run h i hreset => (hiff run h i hreset).mpr ?_⟩
  · have hsend := quietRun_sendCounter c hlt
    have hreset : (quietRun c c.resetCounter).Resets c := hsend.ge
    have hmax := (hiff _ (calmRun_quietRun c) _ hreset).mp (hall _ (calmRun_quietRun c) _ hreset)
    rwa [hsend] at hmax
  · have hle : c.resetCounter ≤ (run i).sendCounter := hreset
    have := h.sendCounter_lt i
    omega

/-- One PV for each of one thread, and a reset counter of `r`. -/
def onePvCycles (r : ℕ) : Config := ⟨1, 1, 1, 0xFFFFFFFF, 0xFFFFFFFF, r, false, fun _ => ⟨[65], 1, 8, 0, 9⟩⟩

/-- With the largest reset counter priority mode comes back. -/
theorem priority_returns_max : ¬ ∃ (run : ℕ → Main Memory) (i : ℕ), CalmRun (onePvCycles 0xFFFFFFFF) run ∧
    (run i).Resets (onePvCycles 0xFFFFFFFF) ∧ ¬ SweepFollows (onePvCycles 0xFFFFFFFF) run i := by
  rintro ⟨run, i, hrun, hreset, hnot⟩
  exact hnot ((priority_returns_iff (onePvCycles 0xFFFFFFFF) (by decide) (by decide) (by decide)).2.mpr
    rfl run hrun i hreset)

/-- With a reset counter of 2, cycle 2 is reset, and so are the cycles behind it. -/
theorem priority_lost_two : ¬ ∀ c : Config, c.setDataSource = true → 1 ≤ c.numberOfChunks →
    c.numberOfChunks < c.resetCounter → c.maxBytesPerCycle = 0xFFFFFFFF → ∀ run : ℕ → Main Memory,
      CalmRun c run →
    ∀ i, (run i).Resets c → SweepFollows c run i := by
  intro h
  have hsend := quietRun_sendCounter (onePvCycles 2) (i := 2) (by decide)
  have hreset : (quietRun (onePvCycles 2) 2).Resets (onePvCycles 2) := hsend.ge
  have hfollows := h (onePvCycles 2) (by decide) (by decide) (by decide) rfl _ (calmRun_quietRun _) 2 hreset
  have hmax := ((calmRun_quietRun _).sweepFollows_iff (by decide) (by decide) (by decide) hreset).mp hfollows
  rw [hsend] at hmax
  cases hmax

end Hieratika.Sender

import Hieratika.Sender.CycleLoop

/-!
# The queue never loses a PV

The queue is rearranged in place, at positions taken modulo the number of PVs, while the count of
pending PVs grows past the region that is scanned.

## What is proved

In every reachable state of the loop, in the middle of a sweep as well, the queue and its copy for the
pool are permutations of the PVs, the start of the queue is inside, no index that is computed wraps, and
at the end of each cycle the pending PVs leave room for a whole cycle (`queue_never_loses`). The sweep
adds at most one pending PV a turn, so the count stays below twice the number of PVs.
-/

namespace Hieratika.Sender

open Foundations

variable {μ : Type*} {c : Config} {s s' : Loop μ}

/-- The pending PVs leave room for a cycle, and a cycle has at most `maxSignalPerThread` PVs. -/
def Main.AtRest (c : Config) (m : Main μ) : Prop :=
  m.currentChangePos ≤ c.numberOfVariables - c.maxSignalPerThread ∧ m.nVariables ≤ c.maxSignalPerThread

/-- How large the counts can be at a point of the turn. -/
def Loop.Counts (c : Config) (s : Loop μ) : Prop :=
  match s.pc with
  | .sweep i _ => i ≤ c.numberOfVariables ∧
      s.main.currentChangePos ≤ c.numberOfVariables - c.maxSignalPerThread + i ∧
        s.main.nVariables = s.main.currentChangePos
  | .chosen _ _ => s.main.currentChangePos ≤ c.numberOfVariables - c.maxSignalPerThread + c.numberOfVariables
  | _ => s.main.AtRest c

/-- The invariant of the queue. -/
structure Loop.Queued (c : Config) (s : Loop μ) : Prop where
  bij : Set.BijOn s.main.indexList (Set.Iio c.numberOfVariables) (Set.Iio c.numberOfVariables)
  bijThreads : Set.BijOn s.main.indexListThreads (Set.Iio c.numberOfVariables) (Set.Iio c.numberOfVariables)
  cur : s.main.currentIdx < c.numberOfVariables
  counts : s.Counts c

/-- No index that is computed at this point wraps: those of the sweep's turn, those of the budget,
and the new start of the queue. -/
def Loop.NoWrap (c : Config) (s : Loop μ) : Prop :=
  match s.pc with
  | .sweep i _ => i < c.numberOfVariables → s.main.currentIdx + i < 2 ^ 32 ∧
      s.main.currentIdx + s.main.currentChangePos < 2 ^ 32 ∧ s.main.currentChangePos + 1 < 2 ^ 32 ∧
      s.main.nVariables + 1 < 2 ^ 32
  | .chosen _ _ => s.main.currentIdx + (s.main.clamp c).nVariables < 2 ^ 32
  | .ready _ => s.main.currentIdx + s.main.nVariables < 2 ^ 32
  | _ => True

/-! ### The steps -/

/-- A turn of the sweep adds one to both counts, or nothing. -/
theorem sweepAt_counts {m : Main μ} {i : ℕ} (hpos : m.currentChangePos + 1 < 2 ^ 32)
    (hn : m.nVariables + 1 < 2 ^ 32) :
    ((c.sweepAt m i).currentChangePos = m.currentChangePos ∧ (c.sweepAt m i).nVariables = m.nVariables) ∨
      (c.sweepAt m i).currentChangePos = m.currentChangePos + 1 ∧ (c.sweepAt m i).nVariables =
        m.nVariables + 1 := by
  unfold Config.sweepAt
  dsimp only
  split_ifs
  · exact .inr ⟨u32_of_lt hpos, u32_of_lt hn⟩
  · exact .inl ⟨rfl, rfl⟩

/-- Behind the preparation the loop is at rest. -/
theorem settle_atRest (hc : c.Fits) (m : Main μ) : ((m.finishPlan c).settle c).AtRest c := by
  have hle := finishPlan_le c m
  rw [settle_eq]
  refine ⟨?_, hle⟩
  show (if (m.finishPlan c).restarts c then 0 else (m.finishPlan c).pending) ≤ _
  by_cases hr : (m.finishPlan c).restarts c = true
  · rw [if_pos hr]
    exact Nat.zero_le _
  · rw [if_neg hr]
    exact pending_le hc.vars_lt hc.max_le (Bool.eq_false_iff.mpr hr)

/-- What a state at rest says about `Counts`. -/
theorem Loop.Queued.atRest (hs : s.Queued c) (h : ∀ i b, s.pc ≠ .sweep i b) (h' : ∀ a b, s.pc ≠ .chosen a b) :
    s.main.AtRest c := by
  have hcounts := hs.counts
  unfold Loop.Counts at hcounts
  split at hcounts
  · exact absurd ‹_› (h _ _)
  · exact absurd ‹_› (h' _ _)
  · exact hcounts

/-- **One step** keeps the invariant. -/
theorem Loop.Queued.step (hc : c.Fits) (hs : s.Queued c) (h : Loop.Step c s s') : s'.Queued c := by
  have hN := hc.small
  have hK := hc.max_le
  have hqueue := h.queued hc.vars_pos ⟨hs.bij, hs.cur⟩
  have hthreads :
      Set.BijOn s'.main.indexListThreads (Set.Iio c.numberOfVariables) (Set.Iio c.numberOfVariables) := by
    rcases h.round with ⟨-, -, hsent⟩ | ⟨hlist, -⟩
    · rw [hsent]
      exact hs.bij
    · rw [hlist]
      exact hs.bijThreads
  refine ⟨hqueue.bij, hthreads, hqueue.cur, ?_⟩
  have hcounts := hs.counts
  unfold Loop.Counts at hcounts
  cases h with
  | read finished hpc =>
    rw [hpc] at hcounts
    exact hcounts
  | waiting r finished hpc hch =>
    rw [hpc] at hcounts
    exact hcounts
  | fifo r finished snapshot flags hpc hch hr =>
    rw [hpc] at hcounts
    exact hcounts.1.trans (Nat.le_add_right _ _)
  | priority r finished snapshot flags hpc hch hr =>
    rw [hpc] at hcounts
    exact ⟨Nat.zero_le _, hcounts.1, rfl⟩
  | sweepTurn i finished hpc hi =>
    rw [hpc] at hcounts
    obtain ⟨-, hpos, hn⟩ := hcounts
    have hboth := sweepAt_counts (c := c) (m := s.main) (i := i) (by omega) (by omega)
    exact ⟨by omega, by simp only; omega, by simp only; omega⟩
  | swept i finished hpc hi =>
    rw [hpc] at hcounts
    obtain ⟨hle, hpos, -⟩ := hcounts
    exact hpos.trans (Nat.add_le_add_left hle _)
  | settle fifo finished hpc hr => exact settle_atRest hc s.main
  | settleRestart fifo finished hpc hr => exact settle_atRest hc s.main
  | dispatch hpc =>
    rw [hpc] at hcounts
    exact hcounts
  | idle hpc =>
    rw [hpc] at hcounts
    exact hcounts
  | reconnect => exact hs.counts

theorem Loop.queued_start (hc : c.Fits) (memory memoryThreads : μ) (flags : ℕ → Bool) :
    (Loop.start memory memoryThreads flags).Queued c :=
  ⟨Set.bijOn_id _, Set.bijOn_id _, hc.vars_pos, Nat.zero_le _, Nat.zero_le _⟩

/-- The counts stay small enough. -/
theorem Loop.Queued.noWrap (hc : c.Fits) (hs : s.Queued c) : s.NoWrap c := by
  have hN := hc.small
  have hK := hc.max_le
  have hcur := hs.cur
  have hcounts := hs.counts
  unfold Loop.Counts at hcounts
  unfold Loop.NoWrap
  split
  · rename_i i b hpc
    rw [hpc] at hcounts
    obtain ⟨hi, hpos, hn⟩ := hcounts
    exact fun hlt => ⟨by omega, by omega, by omega, by omega⟩
  · have := clamp_le (c := c) s.main
    omega
  · rename_i b hpc
    rw [hpc] at hcounts
    have : s.main.nVariables ≤ c.maxSignalPerThread := hcounts.2
    omega
  · trivial

/-- **The queue never loses or duplicates a PV**, in any reachable state of the loop. -/
theorem queue_never_loses (c : Config) (hc : c.Fits) (memory memoryThreads : μ) (flags : ℕ → Bool)
    (s : Loop μ) (hs : Reachable (Loop.Step c) (.start memory memoryThreads flags) s) :
    Set.BijOn s.main.indexList (Set.Iio c.numberOfVariables) (Set.Iio c.numberOfVariables) ∧
      Set.BijOn s.main.indexListThreads (Set.Iio c.numberOfVariables) (Set.Iio c.numberOfVariables) ∧
      s.main.currentIdx < c.numberOfVariables ∧
      ((∀ i b, s.pc ≠ .sweep i b) → (∀ a b, s.pc ≠ .chosen a b) → s.main.currentChangePos ≤
        c.numberOfVariables - c.numberOfSignalToBeSent * c.numberOfPoolThreads) ∧
      s.NoWrap c := by
  have hq : s.Queued c := hs.invariant (Loop.queued_start hc memory memoryThreads flags)
    fun _ _ hinv hstep => hinv.step hc hstep
  refine ⟨hq.bij, hq.bijThreads, hq.cur, fun h h' => ?_, hq.noWrap hc⟩
  rw [← hc.max_eq]
  exact (hq.atRest h h').1

/-- Three PVs, two in a cycle. -/
def threeInTwo : Config := ⟨3, 1, 2, 0xFFFFFFFF, 0xFFFFFFFF, 120, false, fun _ => ⟨[65], 1, 8, 0, 9⟩⟩

/-- A FIFO cycle that is dispatched at once. -/
theorem Loop.fifo_cycle {s : Loop Unit} (flags : ℕ → Bool) (htop : s.pc = .top)
    (hidle : s.main.changed = false) (hfew : s.main.chunckCounter < c.numberOfChunks)
    (hkeeps : (((s.main.synchronise () flags).fifo c).finishPlan c).restarts c = false) :
    Reachable (Loop.Step c) s { s with
      main := ((((s.main.synchronise () flags).fifo c).finishPlan c).settle c).dispatch c
      pc := .top
      fresh := true
      dispatched := s.dispatched ∪
        {p | ((((s.main.synchronise () flags).fifo c).finishPlan c).settle c).InRound c p} } :=
  (((Reachable.refl.next (.read true htop)).next (.fifo _ true () flags rfl hidle hfew)).next
    (.settle true true rfl hkeeps)).next (.dispatch rfl)

/-- Two FIFO cycles, and a sweep that moves the PV 2 forward. -/
theorem queue_never_loses_three : ∃ s : Loop Unit,
    Reachable (Loop.Step threeInTwo) (.start () () fun _ => false) s ∧ s.pc = .top ∧
      s.main.indexList 1 = 2 ∧ s.main.indexListThreads 2 = 1 ∧
      Set.BijOn s.main.indexList (Set.Iio 3) (Set.Iio 3) ∧
      Set.BijOn s.main.indexListThreads (Set.Iio 3) (Set.Iio 3) := by
  have hone := Loop.fifo_cycle (c := threeInTwo) (s := .start () () fun _ => false) (fun _ => false) rfl rfl
    (by decide) (by decide)
  have htwo := hone.trans (Loop.fifo_cycle (fun _ => false) rfl rfl (by decide) (by decide))
  have hstart := (htwo.next (.read true rfl)).next (.priority _ true () (· == 2) rfl rfl (by decide))
  have hsweep := (((hstart.next (.sweepTurn 0 true rfl (by decide))).next
    (.sweepTurn 1 true rfl (by decide))).next (.sweepTurn 2 true rfl (by decide))).next
    (.swept 3 true rfl (by decide))
  have hend := (hsweep.next (.settle false true rfl (by decide))).next (.dispatch rfl)
  obtain ⟨hbij, hbijThreads, -⟩ :=
    queue_never_loses threeInTwo ⟨by decide, by decide, by decide⟩ () () _ _ hend
  exact ⟨_, hend, rfl, by decide, by decide, hbij, hbijThreads⟩

end Hieratika.Sender

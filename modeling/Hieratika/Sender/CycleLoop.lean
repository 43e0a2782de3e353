import Hieratika.Foundations.Runs
import Hieratika.Sender.Sweep

/-!
# The main loop in small steps

`PrioritySenderCycleLoop` and the pool threads that set `chunckCounter` back when they reconnect. A
turn of the loop reads `chunckCounter` under the lock and acts on what it read, so a reset can come
at any point of the turn. The sweep makes one step for each of its turns.

The pool is left open: whether every thread has finished is read, with any answer, at the top of a
turn. The run remembers which PVs have been dispatched since `chunckCounter` was last set to 0, and
whether `chunkCounterRead` was read after that.
-/

namespace Hieratika.Sender

open Foundations

variable {μ : Type*}

/-- Where the loop is; `finished` is `nThreadsFinishedTmp == arg.numberOfPoolThreads`. -/
inductive Pc where
  | top
  /-- Behind the first locked section. -/
  | read (chunkCounterRead : ℕ) (finished : Bool)
  /-- In the sweep, before turn `i`. -/
  | sweep (i : ℕ) (finished : Bool)
  /-- Behind the choice between sweep and FIFO. -/
  | chosen (fifo finished : Bool)
  /-- Before `if (nThreadsFinishedTmp == arg.numberOfPoolThreads)`. -/
  | ready (finished : Bool)

/-- The loop, with what the run remembers. -/
structure Loop (μ : Type*) where
  main : Main μ
  pc : Pc
  /-- The PVs dispatched since `chunckCounter` was last set to 0. -/
  dispatched : Set ℕ
  /-- `chunkCounterRead` was read since then. -/
  fresh : Bool

/-- The loop as it starts. -/
def Loop.start (memory memoryThreads : μ) (flags : ℕ → Bool) : Loop μ :=
  ⟨.start memory memoryThreads flags, .top, ∅, false⟩

/-- The PV `p` is in the round that is prepared. -/
def Main.InRound (c : Config) (m : Main μ) (p : ℕ) : Prop :=
  ∃ d < m.nVariables, m.indexList (ringPos c.numberOfVariables m.currentIdx d) = p

/-- The state before the first turn of the sweep. -/
def Main.startSweep (m : Main μ) (snapshot : μ) (flags : ℕ → Bool) : Main μ :=
  { m.synchronise snapshot flags with nVariables := m.currentChangePos }

/-- The preparation behind the choice of the branch. -/
def Main.finishPlan (c : Config) (m : Main μ) : Main μ := (m.clamp c).budget c

/-- A new trip begins. -/
def Loop.restart (s : Loop μ) : Loop μ := { s with dispatched := ∅, fresh := false }

/-- The steps of the loop, and the reconnection of a pool thread. -/
inductive Loop.Step (c : Config) : Loop μ → Loop μ → Prop
  | read {s : Loop μ} (finished : Bool) : s.pc = .top →
      Loop.Step c s { s with pc := .read s.main.chunckCounter finished, fresh := true }
  /-- A cycle is prepared and waits for the pool. -/
  | waiting {s : Loop μ} (r : ℕ) (finished : Bool) : s.pc = .read r finished → s.main.changed = true →
      Loop.Step c s { s with pc := .ready finished }
  | fifo {s : Loop μ} (r : ℕ) (finished : Bool) (snapshot : μ) (flags : ℕ → Bool) : s.pc = .read r finished →
      s.main.changed = false → r < c.numberOfChunks →
      Loop.Step c s { s with main := (s.main.synchronise snapshot flags).fifo c, pc := .chosen true finished }
  | priority {s : Loop μ} (r : ℕ) (finished : Bool) (snapshot : μ) (flags : ℕ → Bool) :
      s.pc = .read r finished →
      s.main.changed = false → c.numberOfChunks ≤ r →
      Loop.Step c s { s with main := s.main.startSweep snapshot flags, pc := .sweep 0 finished }
  | sweepTurn {s : Loop μ} (i : ℕ) (finished : Bool) : s.pc = .sweep i finished → i < c.numberOfVariables →
      Loop.Step c s { s with main := c.sweepAt s.main i, pc := .sweep (i + 1) finished }
  | swept {s : Loop μ} (i : ℕ) (finished : Bool) : s.pc = .sweep i finished → c.numberOfVariables ≤ i →
      Loop.Step c s { s with pc := .chosen false finished }
  /-- The rest of the preparation; `settle` may begin a new trip. -/
  | settle {s : Loop μ} (fifo finished : Bool) : s.pc = .chosen fifo finished →
      (s.main.finishPlan c).restarts c = false →
      Loop.Step c s { s with main := (s.main.finishPlan c).settle c, pc := .ready finished }
  | settleRestart {s : Loop μ} (fifo finished : Bool) : s.pc = .chosen fifo finished →
      (s.main.finishPlan c).restarts c = true →
      Loop.Step c s { s.restart with main := (s.main.finishPlan c).settle c, pc := .ready finished }
  | dispatch {s : Loop μ} : s.pc = .ready true →
      Loop.Step c s { s with
        main := s.main.dispatch c
        pc := .top
        dispatched := s.dispatched ∪ {p | s.main.InRound c p} }
  | idle {s : Loop μ} : s.pc = .ready false → Loop.Step c s { s with pc := .top }
  /-- A pool thread connects. -/
  | reconnect {s : Loop μ} : Loop.Step c s { s.restart with main := { s.main with chunckCounter := 0 } }

/-! ### The queue under the sweep -/

variable {c : Config} {m : Main μ}

theorem queueIndex_lt (hn : 0 < c.numberOfVariables) (cur x : ℕ) : c.queueIndex cur x < c.numberOfVariables :=
  Nat.mod_lt _ hn

/-- The insertion loop permutes the queue, wherever its positions are. -/
theorem pushForward_perm (hn : 0 < c.numberOfVariables) (cur pvSize : ℕ) : ∀ (j : ℕ) (list : ℕ → ℕ),
    Rearranged (Set.Iio c.numberOfVariables) list (c.pushForward cur pvSize j list)
  | 0, _ => Rearranged.refl
  | j + 1, list => by
    simp only [Config.pushForward]
    have hj : c.queueIndex cur (j + 1) < c.numberOfVariables := queueIndex_lt hn cur (j + 1)
    split_ifs with hzero hsize hsize
    · exact (Rearranged.exchange (Set.mem_Iio.mpr (by omega)) hj).trans (pushForward_perm hn cur pvSize j _)
    · exact Rearranged.refl
    · exact (Rearranged.exchange (Set.mem_Iio.mpr (by omega)) hj).trans (pushForward_perm hn cur pvSize j _)
    · exact Rearranged.refl

/-- A turn of the sweep permutes the queue. -/
theorem sweepAt_perm (hn : 0 < c.numberOfVariables) (m : Main μ) (i : ℕ) :
    Rearranged (Set.Iio c.numberOfVariables) m.indexList (c.sweepAt m i).indexList := by
  unfold Config.sweepAt
  dsimp only
  split_ifs
  · exact (Rearranged.exchange (Set.mem_Iio.mpr (queueIndex_lt hn _ _))
      (Set.mem_Iio.mpr (queueIndex_lt hn _ _))).trans
      (pushForward_perm hn _ _ _ _)
  · exact Rearranged.refl

/-! ### What a step can do -/

/-- The queue starts as a permutation of the PVs. -/
theorem Main.queued_start (hn : 0 < c.numberOfVariables) (memory memoryThreads : μ) (flags : ℕ → Bool) :
    (Main.start memory memoryThreads flags).Queued c := ⟨Set.bijOn_id _, hn⟩

/-- The preparation leaves the queue alone. -/
theorem Main.Queued.settle (h : m.Queued c) : ((m.finishPlan c).settle c).Queued c := by
  rw [settle_eq]
  exact ⟨h.bij, h.cur⟩

/-- **The queue stays a permutation** whatever step is taken. -/
theorem Loop.Step.queued {s s' : Loop μ} (hn : 0 < c.numberOfVariables) (h : Loop.Step c s s')
    (hs : s.main.Queued c) :
    s'.main.Queued c := by
  cases h with
  | sweepTurn i finished hpc hi =>
    have hcur : (c.sweepAt s.main i).currentIdx = s.main.currentIdx := by rw [sweepAt_frame]
    exact ⟨(sweepAt_perm hn s.main i).bijOn le_rfl hs.bij, hcur.trans_lt hs.cur⟩
  | settle fifo finished hpc hr => exact hs.settle
  | settleRestart fifo finished hpc hr => exact hs.settle
  | dispatch hpc => exact ⟨hs.bij, Nat.mod_lt _ hn⟩
  | _ => exact ⟨hs.bij, hs.cur⟩

/-- A step hands a new round to the pool, or leaves the one that is there. -/
theorem Loop.Step.round {s s' : Loop μ} (h : Loop.Step c s s') :
    (s.pc = .ready true ∧ s'.pc = .top ∧ s'.main = s.main.dispatch c) ∨
      s'.main.indexListThreads = s.main.indexListThreads ∧ s'.main.currentIdxThreads =
        s.main.currentIdxThreads ∧
        s'.main.numberOfChangedVariables = s.main.numberOfChangedVariables ∧
          s'.main.memoryThreads = s.main.memoryThreads := by
  cases h with
  | sweepTurn i finished hpc hi =>
    simp only
    rw [sweepAt_frame]
    exact .inr ⟨rfl, rfl, rfl, rfl⟩
  | settle fifo finished hpc hr =>
    simp only [settle_eq]
    exact .inr ⟨rfl, rfl, rfl, rfl⟩
  | settleRestart fifo finished hpc hr =>
    simp only [settle_eq]
    exact .inr ⟨rfl, rfl, rfl, rfl⟩
  | dispatch hpc => exact .inl ⟨hpc, rfl, rfl⟩
  | _ => exact .inr ⟨rfl, rfl, rfl, rfl⟩

/-- The byte budget only takes PVs away. -/
theorem fitBudget_le (c : Config) (cur : ℕ) : ∀ left n total, c.fitBudget cur left n total ≤ n + left
  | 0, n, _ => le_rfl
  | left + 1, n, total => by
    simp only [Config.fitBudget]
    have := fitBudget_le c cur left (n + 1) (u32 (total + (c.pvDes (c.queueIndex cur n)).totalSize))
    split_ifs <;> omega

/-- Behind the budget a cycle has at most `maxSignalPerThread` PVs. -/
theorem finishPlan_le (c : Config) (m : Main μ) : (m.finishPlan c).nVariables ≤ c.maxSignalPerThread := by
  have hclamp : (m.clamp c).nVariables ≤ c.maxSignalPerThread := clamp_le m
  have hfit := fitBudget_le c (m.clamp c).currentIdx (m.clamp c).nVariables 0 0
  show c.fitBudget (m.clamp c).currentIdx (m.clamp c).nVariables 0 0 ≤ _
  omega

/-! ### A turn without interruption -/

/-- The turns of the sweep, one after the other. -/
theorem Loop.sweepTurns {s : Loop μ} {finished : Bool} (hpc : s.pc = .sweep 0 finished) :
    ∀ k ≤ c.numberOfVariables,
    Reachable (Loop.Step c) s { s with main := c.sweep s.main k, pc := .sweep k finished }
  | 0, _ => by
    rw [← hpc]
    exact .refl
  | k + 1, hk => by
    rw [sweep_succ]
    exact (sweepTurns hpc k (by omega)).next (.sweepTurn k finished rfl (by omega))

/-- The choice of the branch and all that it does. -/
theorem Loop.selects {s : Loop μ} {finished : Bool} (hpc : s.pc = .read s.main.chunckCounter finished)
    (hch : s.main.changed = false) (snapshot : μ) (flags : ℕ → Bool) : ∃ fifo, Reachable (Loop.Step c) s
      { s with
        main := (s.main.synchronise snapshot flags).select c s.main.chunckCounter
        pc := .chosen fifo finished } := by
  unfold Main.select
  by_cases hr : c.numberOfChunks ≤ s.main.chunckCounter
  · rw [if_pos hr]
    have hstart := Reachable.refl.next (Loop.Step.priority _ finished snapshot flags hpc hch hr)
    exact ⟨false,
      (hstart.trans (sweepTurns rfl c.numberOfVariables le_rfl)).next (.swept _ finished rfl le_rfl)⟩
  · rw [if_neg hr]
    exact ⟨true, Reachable.refl.next (.fifo _ finished snapshot flags hpc hch (Nat.lt_of_not_le hr))⟩

/-- **A turn that nothing comes between** prepares a cycle and dispatches it. -/
theorem Loop.turn (c : Config) {s : Loop μ} (hpc : s.pc = .top) (hch : s.main.changed = false)
    (snapshot : μ) (flags : ℕ → Bool) :
    ∃ s', Reachable (Loop.Step c) s s' ∧ s'.pc = .top ∧
      s'.main = (s.main.prepare c snapshot flags).dispatch c := by
  have hread := Reachable.refl.next (Loop.Step.read (c := c) true hpc)
  obtain ⟨fifo, hselect⟩ := selects (c := c)
    (s := { s with pc := .read s.main.chunckCounter true, fresh := true }) rfl hch snapshot flags
  have hchosen := hread.trans hselect
  cases hr : (s.main.plan c snapshot flags).restarts c with
  | false => exact ⟨_, (hchosen.next (.settle fifo true rfl hr)).next (.dispatch rfl), rfl, rfl⟩
  | true => exact ⟨_, (hchosen.next (.settleRestart fifo true rfl hr)).next (.dispatch rfl), rfl, rfl⟩

end Hieratika.Sender

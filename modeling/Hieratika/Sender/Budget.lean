import Hieratika.Sender.SmallestFirst
import Hieratika.Sender.Trip

/-!
# The byte budget

Before a cycle is dispatched its PVs are counted off against `maxBytesPerCycle`. The running total is
kept in 32 bits and takes the sizes of the descriptors with the numbers of the queue positions; the
descriptor that exceeds it takes the PV before it out of the cycle, too.

## What is proved

In every run in which the budget loop lets no PV through that is larger than the descriptor read for it,
and no total wraps, each dispatched cycle is within the budget (`budget_respected`); when the queue is
rearranged it need not be (`budget_exceeded`). In every run in which two descriptors at the start of the
queue always fit together, each dispatched cycle has a PV and the queue moves on (`cycles_progress`);
else a cycle can be empty (`cycle_stuck`).
-/

namespace Hieratika.Sender

open Foundations Subscriber

variable {μ : Type*} {c : Config} {m : Main μ} {s s' : Loop μ} {cur : ℕ}

/-! ### The budget loop -/

/-- It stops within the budget. -/
theorem windowTotal_fitBudget : ∀ {left n : ℕ}, (∀ k ≤ n, c.windowTotal cur k ≤ c.maxBytesPerCycle) →
    ∀ k ≤ c.fitBudget cur left n (c.windowTotal cur n), c.windowTotal cur k ≤ c.maxBytesPerCycle
  | 0, _, h, k, hk => h k hk
  | left + 1, n, h, k, hk => by
    have hnext : u32 (c.windowTotal cur n + (c.pvDes (c.queueIndex cur n)).totalSize) =
      c.windowTotal cur (n + 1) := rfl
    simp only [Config.fitBudget] at hk
    rw [hnext] at hk
    split_ifs at hk with hover hn
    · exact h k (by omega)
    · exact h k hk
    · refine windowTotal_fitBudget (fun j hj => ?_) k hk
      rcases Nat.le_succ_iff.mp hj with hj | rfl
      · exact h j hj
      · exact Nat.le_of_not_lt hover

/-- It takes away one PV at most. -/
theorem le_fitBudget (c : Config) (cur : ℕ) : ∀ left n total, n - 1 ≤ c.fitBudget cur left n total
  | 0, n, _ => Nat.sub_le n 1
  | left + 1, n, total => by
    simp only [Config.fitBudget]
    have := le_fitBudget c cur left (n + 1) (u32 (total + (c.pvDes (c.queueIndex cur n)).totalSize))
    split_ifs <;> omega

/-- The first two descriptors from here fit together, or a cycle has one PV only. -/
def Config.PairFits (c : Config) (currentIdx : ℕ) : Prop :=
  c.maxSignalPerThread = 1 ∨ c.windowTotal currentIdx 2 ≤ c.maxBytesPerCycle

/-- The budget loop leaves a PV in the cycle if the first two descriptors fit. -/
theorem fitBudget_pos (hK : 0 < c.maxSignalPerThread) (hone : c.windowTotal cur 1 ≤ c.maxBytesPerCycle)
    (hpair : c.PairFits cur) : 0 < c.fitBudget cur c.maxSignalPerThread 0 0 := by
  have hfirst : u32 (0 + (c.pvDes (c.queueIndex cur 0)).totalSize) = c.windowTotal cur 1 := rfl
  have hsecond :
    u32 (c.windowTotal cur 1 + (c.pvDes (c.queueIndex cur 1)).totalSize) = c.windowTotal cur 2 := rfl
  obtain ⟨k, hk⟩ := Nat.exists_eq_succ_of_ne_zero hK.ne'
  rw [hk, Config.fitBudget]
  rw [hfirst, if_neg (Nat.not_lt.mpr hone)]
  cases k with
  | zero => exact Nat.one_pos
  | succ k =>
    have htwo : c.windowTotal cur 2 ≤ c.maxBytesPerCycle := hpair.resolve_left (by omega)
    rw [Config.fitBudget, hsecond, if_neg (Nat.not_lt.mpr htwo)]
    exact le_fitBudget c cur k 2 _

/-! ### Between the preparation and the dispatch -/

/-- A cycle that is prepared and not yet dispatched has the property. -/
def Loop.PreparedWith (Q : Main μ → Prop) (s : Loop μ) : Prop :=
  match s.pc with
  | .sweep _ _ => s.main.changed = false
  | .chosen _ _ => s.main.changed = false
  | .ready _ => s.main.changed = true ∧ Q s.main
  | _ => s.main.changed = true → Q s.main

/-- **A prepared cycle stays as it is** until it is dispatched, whoever sets `chunckCounter` back. -/
theorem Loop.PreparedWith.step {Q : Main μ → Prop} (hs : s.PreparedWith Q) (h : Loop.Step c s s')
    (hreset : ∀ m : Main μ, Q m → Q { m with chunckCounter := 0 })
    (hsettle : (∃ fifo b, s.pc = .chosen fifo b) → Q ((s.main.finishPlan c).settle c)) :
    s'.PreparedWith Q := by
  unfold Loop.PreparedWith at hs
  cases h with
  | read finished hpc =>
    rw [hpc] at hs
    exact hs
  | waiting r finished hpc hch =>
    rw [hpc] at hs
    exact ⟨hch, hs hch⟩
  | fifo r finished snapshot flags hpc hch hr => exact hch
  | priority r finished snapshot flags hpc hch hr => exact hch
  | sweepTurn i finished hpc hi =>
    rw [hpc] at hs
    show (c.sweepAt s.main i).changed = false
    rw [sweepAt_frame]
    exact hs
  | swept i finished hpc hi =>
    rw [hpc] at hs
    exact hs
  | settle fifo finished hpc hr => exact ⟨by rw [settle_eq], hsettle ⟨fifo, finished, hpc⟩⟩
  | settleRestart fifo finished hpc hr => exact ⟨by rw [settle_eq], hsettle ⟨fifo, finished, hpc⟩⟩
  | dispatch hpc => exact fun hch => absurd hch Bool.false_ne_true
  | idle hpc =>
    rw [hpc] at hs
    exact fun _ => hs.2
  | reconnect =>
    obtain ⟨main, pc, dispatched, fresh⟩ := s
    cases pc with
    | top => exact fun hch => hreset main (hs hch)
    | read r b => exact fun hch => hreset main (hs hch)
    | sweep i b => exact hs
    | chosen fifo b => exact hs
    | ready b => exact ⟨hs.1, hreset main hs.2⟩

/-- The start has no cycle prepared. -/
theorem Loop.preparedWith_start {Q : Main μ → Prop} (memory memoryThreads : μ) (flags : ℕ → Bool) :
    (Loop.start memory memoryThreads flags).PreparedWith Q := fun hch => absurd hch Bool.false_ne_true

/-! ### The bytes of a cycle -/

/-- The value bytes of the PVs that are to be dispatched. -/
def Main.plannedBytes (c : Config) (m : Main μ) : ℕ :=
  ((List.range m.nVariables).map fun d => c.ownSize (m.queuedAt c d)).sum

/-- The value bytes of the PVs of the round at the pool. -/
def Main.roundBytes (c : Config) (m : Main μ) : ℕ := ((List.range m.numberOfChangedVariables).map fun d =>
  c.ownSize (m.indexListThreads (ringPos c.numberOfVariables m.currentIdxThreads d))).sum

/-- Every PV that the budget loop lets through is no larger than the descriptor read for it, and the total
at it does not wrap. -/
def Main.Measured (c : Config) (m : Main μ) : Prop := ∀ d < c.maxSignalPerThread,
  (∀ k ≤ d + 1, c.windowTotal m.currentIdx k ≤ c.maxBytesPerCycle) →
    c.ownSize (m.queuedAt c d) ≤ (c.pvDes (c.queueIndex m.currentIdx d)).totalSize ∧
      c.windowTotal m.currentIdx d + (c.pvDes (c.queueIndex m.currentIdx d)).totalSize < 2 ^ 32

/-- The condition on a step: where the budget loop runs, it measures the PVs. -/
def Loop.MeasuredStep (c : Config) (s _s' : Loop μ) : Prop :=
  (∃ fifo b, s.pc = .chosen fifo b) → s.main.Measured c

theorem Main.Measured.sum_le (h : m.Measured c) {n : ℕ} (hn : n ≤ c.maxSignalPerThread)
    (hfit : ∀ k ≤ n, c.windowTotal m.currentIdx k ≤ c.maxBytesPerCycle) :
    ((List.range n).map fun d => c.ownSize (m.queuedAt c d)).sum ≤ c.windowTotal m.currentIdx n := by
  induction n with
  | zero => exact Nat.zero_le _
  | succ n ih =>
    have ih := ih (by omega) fun k hk => hfit k (by omega)
    obtain ⟨hsize, hwrap⟩ := h n (by omega) fun k hk => hfit k (by omega)
    rw [List.range_succ, List.map_append, List.sum_append, Config.windowTotal, u32_of_lt hwrap]
    simp only [List.map_cons, List.map_nil, List.sum_cons, List.sum_nil]
    omega

/-- A cycle prepared from such a state is within the budget. -/
theorem planned_le (h : m.Measured c) : ((m.finishPlan c).settle c).plannedBytes c ≤ c.maxBytesPerCycle := by
  have hplan : ((m.finishPlan c).settle c).plannedBytes c =
      ((List.range (m.finishPlan c).nVariables).map fun d => c.ownSize (m.queuedAt c d)).sum := by
    rw [settle_eq]
    rfl
  have hfit : ∀ k ≤ (m.finishPlan c).nVariables, c.windowTotal m.currentIdx k ≤ c.maxBytesPerCycle :=
    windowTotal_fitBudget fun k hk => by
      rw [Nat.le_zero.mp hk]
      exact Nat.zero_le _
  rw [hplan]
  exact (h.sum_le (finishPlan_le c m) hfit).trans (hfit _ le_rfl)

/-- What a run keeps. -/
structure Loop.Budgeted (c : Config) (s : Loop μ) : Prop where
  prepared : s.PreparedWith fun m => m.plannedBytes c ≤ c.maxBytesPerCycle
  round : s.main.roundBytes c ≤ c.maxBytesPerCycle

theorem Loop.Budgeted.step (hs : s.Budgeted c) (h : Loop.Step c s s') (hg : s.MeasuredStep c s') :
    s'.Budgeted c := by
  have hprep := hs.prepared
  refine ⟨hprep.step h (fun _ hm => hm) fun hpc => planned_le (hg hpc), ?_⟩
  rcases h.round with ⟨hpc, -, hsent⟩ | ⟨hlist, hcur, hcount, -⟩
  · unfold Loop.PreparedWith at hprep
    rw [hpc] at hprep
    rw [hsent]
    exact hprep.2
  · rw [Main.roundBytes, hlist, hcur, hcount]
    exact hs.round

/-- **The byte budget is respected** in every state of a run whose steps measure the PVs they let
through. -/
theorem budget_respected (c : Config) (memory memoryThreads : μ) (flags : ℕ → Bool) (s : Loop μ)
    (hs : Reachable (Guarded (Loop.Step c) (Loop.MeasuredStep c)) (.start memory memoryThreads flags) s) :
    s.main.roundBytes c ≤ c.maxBytesPerCycle := by
  have hinv : s.Budgeted c := hs.invariant
    ⟨Loop.preparedWith_start memory memoryThreads flags, Nat.zero_le _⟩ fun _ _ hinv hstep =>
      hinv.step hstep.1 hstep.2
  exact hinv.round

theorem firstCycle_measured :
    ((Main.start () () fun _ => false).fifo (twoInOne 16)).Measured (twoInOne 16) := by
  unfold Main.Measured
  decide

/-- Two PVs of eight bytes in sixteen: the first cycle sends both. -/
theorem budget_respected_two :
    ∃ s : Loop Unit, s.main.numberOfChangedVariables = 2 ∧ s.main.roundBytes (twoInOne 16) ≤ 16 := by
  have h₁ : Reachable (Guarded (Loop.Step (twoInOne 16)) (Loop.MeasuredStep (twoInOne 16)))
      (.start () () fun _ => false) _ :=
    Reachable.refl.next ⟨.read true rfl, fun ⟨_, _, h⟩ => by cases h⟩
  have h₂ := h₁.next ⟨.fifo 0 true () (fun _ => false) rfl rfl (by decide), fun ⟨_, _, h⟩ => by cases h⟩
  have h₃ := h₂.next ⟨.settle true true rfl (by decide), fun _ => firstCycle_measured⟩
  have h₄ := h₃.next ⟨.dispatch rfl, fun ⟨_, _, h⟩ => by cases h⟩
  exact ⟨_, by decide, budget_respected (twoInOne 16) () () (fun _ => false) _ h₄⟩

/-- The queue is rearranged, and two PVs of five bytes are measured by descriptors of five bytes and
one. -/
theorem budget_exceeded : ¬ ∀ c : Config, c.Accepted → c.maxBytesPerCycle < 2 ^ 32 - 1 → ∀ s : Loop Unit,
    Reachable (Loop.Step c) (.start () () fun _ => false) s → s.main.roundBytes c ≤ c.maxBytesPerCycle := by
  intro h
  obtain ⟨s₁, h₁, hpc₁, hm₁⟩ :=
    Loop.turn (sizedPvs [5, 1, 5, 1] 2 6) (s := .start () () fun _ => false) rfl rfl () fun _ => false
  obtain ⟨s₂, h₂, hpc₂, hm₂⟩ :=
    Loop.turn (sizedPvs [5, 1, 5, 1] 2 6) hpc₁ (by rw [hm₁]; rfl) () fun _ => false
  obtain ⟨s₃, h₃, -, hm₃⟩ := Loop.turn (sizedPvs [5, 1, 5, 1] 2 6) hpc₂ (by rw [hm₂]; rfl) () fun p =>
    p % 2 = 0
  have hle := h (sizedPvs [5, 1, 5, 1] 2 6) ⟨by decide, by decide, by decide, rfl⟩ (by decide) s₃
    ((h₁.trans h₂).trans h₃)
  rw [hm₃, hm₂, hm₁] at hle
  revert hle
  decide

/-! ### The PVs of a cycle -/

/-- The condition on a step: where the budget loop runs, the first two descriptors fit. -/
def Loop.PairStep (c : Config) (s _s' : Loop μ) : Prop :=
  (∃ fifo b, s.pc = .chosen fifo b) → c.PairFits s.main.currentIdx

/-- A cycle that is about to be dispatched has a PV, and the queue moves on unless it has all PVs. -/
def Loop.Progresses (c : Config) (s : Loop μ) : Prop := ∀ b, s.pc = .ready b →
  1 ≤ (s.main.dispatch c).numberOfChangedVariables ∧
    ((s.main.dispatch c).currentIdx = s.main.currentIdx → s.main.nVariables = c.numberOfVariables)

/-- The start of the queue moves on by as many positions. -/
theorem dispatch_moves (hN : c.numberOfVariables < 2 ^ 32) (hcur : m.currentIdx < c.numberOfVariables)
    (hpos : 0 < m.nVariables)
    (hle : m.nVariables ≤ c.numberOfVariables) (h : (m.dispatch c).currentIdx = m.currentIdx) :
    m.nVariables = c.numberOfVariables := by
  have hmod : u32 (m.currentIdx + m.nVariables) % c.numberOfVariables = m.currentIdx := h
  rcases Nat.lt_or_ge (m.currentIdx + m.nVariables) (2 ^ 32) with hlt | hge
  · rw [u32_of_lt hlt] at hmod
    rcases Nat.lt_or_ge (m.currentIdx + m.nVariables) c.numberOfVariables with hin | hout
    · rw [Nat.mod_eq_of_lt hin] at hmod
      omega
    · rw [Nat.mod_eq_sub_mod hout, Nat.mod_eq_of_lt (by omega)] at hmod
      omega
  · rw [u32_add_of_ge (by omega) (by omega) hge, Nat.mod_eq_of_lt (by omega)] at hmod
    omega

/-- A prepared cycle that is not empty. -/
def Main.Nonempty (c : Config) (m : Main μ) : Prop := 0 < m.nVariables ∧ m.nVariables ≤ c.maxSignalPerThread

theorem settle_nonempty (hc : c.Accepted)
    (hsize : ∀ p < c.numberOfVariables, (c.pvDes p).totalSize ≤ c.maxBytesPerCycle)
    (hpair : c.PairFits m.currentIdx) : ((m.finishPlan c).settle c).Nonempty c := by
  have hone : c.windowTotal m.currentIdx 1 ≤ c.maxBytesPerCycle :=
    (u32_le _).trans ((Nat.zero_add _).le.trans (hsize _ (queueIndex_lt hc.vars_pos _ _)))
  have hpos : 0 < (m.finishPlan c).nVariables := by
    show 0 < c.fitBudget m.currentIdx (m.clamp c).nVariables 0 0
    rw [hc.clamp]
    exact fitBudget_pos hc.sent_pos hone hpair
  rw [settle_eq]
  exact ⟨hpos, finishPlan_le c m⟩

/-- **Every cycle makes progress** in every run whose budget loops find two descriptors that fit. -/
theorem cycles_progress (c : Config) (hc : c.Accepted)
    (hsize : ∀ p < c.numberOfVariables, (c.pvDes p).totalSize ≤ c.maxBytesPerCycle) (memory memoryThreads : μ)
    (flags : ℕ → Bool) (s : Loop μ)
    (hs : Reachable (Guarded (Loop.Step c) (Loop.PairStep c)) (.start memory memoryThreads flags) s) :
    s.Progresses c := by
  have hinv : s.main.Queued c ∧ s.PreparedWith (Main.Nonempty c) :=
    hs.invariant (I := fun s => s.main.Queued c ∧ s.PreparedWith (Main.Nonempty c))
      ⟨Main.queued_start hc.vars_pos memory memoryThreads flags,
        Loop.preparedWith_start memory memoryThreads flags⟩
      fun _ _ ⟨hq, hprep⟩ hstep =>
        ⟨hstep.1.queued hc.vars_pos hq, hprep.step hstep.1 (fun _ hm => hm) fun hpc =>
          settle_nonempty hc hsize (hstep.2 hpc)⟩
  obtain ⟨hqueue, hprep⟩ := hinv
  intro b hpc
  unfold Loop.PreparedWith at hprep
  rw [hpc] at hprep
  obtain ⟨-, hpos, hle⟩ := hprep
  exact ⟨hpos, dispatch_moves hc.variables_lt hqueue.cur hpos (hle.trans hc.max_le)⟩

/-- With sixteen bytes a cycle both PVs are sent in one. -/
theorem cycles_progress_two : ∃ s : Loop Unit, s.pc = .ready true ∧ s.Progresses (twoInOne 16) := by
  have h₁ : Reachable (Guarded (Loop.Step (twoInOne 16)) (Loop.PairStep (twoInOne 16)))
      (.start () () fun _ => false) _ :=
    Reachable.refl.next ⟨.read true rfl, fun ⟨_, _, h⟩ => by cases h⟩
  have h₂ := h₁.next ⟨.fifo 0 true () (fun _ => false) rfl rfl (by decide), fun ⟨_, _, h⟩ => by cases h⟩
  have h₃ := h₂.next ⟨.settle true true rfl (by decide), fun _ => .inr (by decide)⟩
  exact ⟨_, rfl,
    cycles_progress (twoInOne 16) (twoInOne_accepted 16) (fun _ _ => show u32 (1 * 8) ≤ 16 by decide) () ()
    (fun _ => false) _ h₃⟩

/-- With eight, where each of the two fits, the cycle is empty. -/
theorem cycle_stuck :
    ¬ ∀ c : Config, c.Accepted → (∀ p < c.numberOfVariables, (c.pvDes p).totalSize ≤ c.maxBytesPerCycle) →
    ∀ s : Loop Unit, Reachable (Loop.Step c) (.start () () fun _ => false) s → s.Progresses c := by
  intro h
  have h₁ : Reachable (Loop.Step (twoInOne 8)) (.start () () fun _ => false) _ :=
    Reachable.refl.next (.read true rfl)
  have h₂ := h₁.next (.fifo 0 true () (fun _ => false) rfl rfl (by decide))
  have h₃ := h₂.next (.settle true true rfl (by decide))
  have hprog := h (twoInOne 8) (twoInOne_accepted 8) (fun _ _ => show u32 (1 * 8) ≤ 8 by decide) _ h₃ true rfl
  exact absurd hprog.1 (by decide)

end Hieratika.Sender

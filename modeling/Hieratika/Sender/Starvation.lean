import Hieratika.Foundations.Visits
import Hieratika.Sender.Trip

/-!
# No PV starves

While priority sweeps run, PVs that do not change wait behind those that do. What ends this is the reset
counter: from `resetCounter` cycles on every cycle begins a new trip, so every cycle behind the
first one is a FIFO cycle, and the queue stays as it is.

## The model

`Ages` is the main loop with a count of the rounds dispatched and, for each PV, the last round it was in.

## What is proved

No PV is missing from `resetCounter + 2 * numberOfChunks` rounds in a row, whatever changes and whichever
threads reconnect; and as long as `sendCounter` is past `resetCounter + numberOfChunks` none is missing
from `numberOfChunks` (`no_pv_starves`). As for a trip, the FIFO cycles must not be cut.
-/

namespace Hieratika.Sender

open Foundations

variable {μ : Type*} {c : Config} {l : Loop μ} {t p : ℕ}

instance (c : Config) (m : Main μ) (p : ℕ) : Decidable (m.InRound c p) :=
  inferInstanceAs (Decidable (∃ d < m.nVariables,
    m.indexList (ringPos c.numberOfVariables m.currentIdx d) = p))

/-- The main loop, and the last round each PV was in. -/
structure Ages (μ : Type*) where
  loop : Loop μ
  /-- How many rounds were dispatched. -/
  round : ℕ
  /-- The last round the PV was in, 0 if there was none. -/
  sentIn : ℕ → ℕ

/-- No round was dispatched. -/
def Ages.start (memory memoryThreads : μ) (flags : ℕ → Bool) : Ages μ :=
  ⟨.start memory memoryThreads flags, 0, fun _ => 0⟩

/-- The PVs of the prepared cycle are in the round that begins. -/
def Ages.newRound (c : Config) (s : Ages μ) (l : Loop μ) : Ages μ where
  loop := l
  round := s.round + 1
  sentIn := fun p => if s.loop.main.InRound c p then s.round + 1 else s.sentIn p

/-- The steps of the loop; a round begins with the dispatch. -/
inductive Ages.Step (c : Config) : Ages μ → Ages μ → Prop
  | turn {s : Ages μ} {l : Loop μ} : Loop.Step c s.loop l → (s.loop.pc = .ready true → l.pc ≠ .top) →
      Ages.Step c s { s with loop := l }
  | dispatch {s : Ages μ} {l : Loop μ} : Loop.Step c s.loop l → s.loop.pc = .ready true → l.pc = .top →
      Ages.Step c s (s.newRound c l)

variable {s s' : Ages μ}

theorem Ages.sentIn_newRound (p : ℕ) :
    (s.newRound c l).sentIn p = if s.loop.main.InRound c p then s.round + 1 else s.sentIn p := rfl

/-! ### The invariant -/

/-- The next cycle is a FIFO cycle; if it is prepared, it is a whole one. -/
def Loop.Fifo (c : Config) (l : Loop μ) : Prop :=
  l.main.chunckCounter = 0 ∧ (l.main.changed = true →
    l.main.nVariables = c.maxSignalPerThread ∧ l.main.currentIdx + c.maxSignalPerThread < 2 ^ 32)

/-- No sweep runs, and none is decided on. -/
def Loop.NoSweep (c : Config) (l : Loop μ) : Prop :=
  match l.pc with
  | .top => l.Fifo c
  | .read r _ => l.Fifo c ∧ (l.main.changed = false → r = 0)
  | .sweep _ _ => False
  | .chosen true _ => c.WindowFits l.main.currentIdx
  | .chosen false _ => False
  | .ready _ => l.Fifo c

/-- Behind a cycle that was reset only FIFO cycles come, and a PV is as old as the cycles before that. -/
structure Ages.Inv (c : Config) (s : Ages μ) : Prop where
  queued : s.loop.main.Queued c
  counter_lt : s.loop.main.sendCounter < 2 ^ 32
  sentIn_le : ∀ p, s.sentIn p ≤ s.round
  ready : ∀ b, s.loop.pc = .ready b → s.loop.main.changed = true
  reset : c.resetCounter ≤ s.loop.main.sendCounter → s.loop.main.changed = true →
    s.loop.main.chunckCounter = 0
  noSweep : c.resetCounter < s.loop.main.sendCounter → s.loop.NoSweep c
  visited : ∀ t, c.resetCounter + t < s.loop.main.sendCounter →
    Visited c.numberOfVariables c.maxSignalPerThread s.loop.main.currentIdx s.round
      (s.sentIn ∘ s.loop.main.indexList) t
  age : ∀ p < c.numberOfVariables, s.round ≤ s.sentIn p + c.numberOfChunks + s.loop.main.sendCounter

theorem Ages.inv_start (hc : c.Accepted) (memory memoryThreads : μ) (flags : ℕ → Bool) :
    (Ages.start memory memoryThreads flags).Inv c where
  queued := Main.queued_start hc.vars_pos memory memoryThreads flags
  counter_lt := Nat.two_pow_pos 32
  sentIn_le := fun _ => le_rfl
  ready := fun _ h => by cases h
  reset := fun _ h => by cases h
  noSweep := fun h => absurd h (Nat.not_lt_zero _)
  visited := fun _ h => absurd h (Nat.not_lt_zero _)
  age := fun _ _ => Nat.zero_le _

/-- The turns behind the reset have come past every PV. -/
theorem Ages.Inv.recent (hc : c.Accepted) (hs : s.Inv c)
    (h : c.resetCounter + c.numberOfChunks < s.loop.main.sendCounter) (hp : p < c.numberOfVariables) :
    s.round < s.sentIn p + c.numberOfChunks := by
  obtain ⟨q, hq, rfl⟩ := hs.queued.bij.surjOn hp
  exact visited_all hs.queued.cur (Config.chunks_cover hc.sent_pos hc.max_le).2.2 (hs.visited _ h) hq

/-! ### The steps -/

/-- What the steps of a turn leave alone. -/
theorem Loop.Step.counter {l l' : Loop μ} (h : Loop.Step c l l') (hno : l.pc = .ready true → l'.pc ≠ .top) :
    l'.main.sendCounter = l.main.sendCounter ∧ l'.main.currentIdx = l.main.currentIdx ∧
      ((∃ i b, l.pc = .sweep i b) ∨ l'.main.indexList = l.main.indexList) := by
  cases h with
  | sweepTurn i finished hpc _ =>
    simp only
    rw [sweepAt_frame]
    exact ⟨rfl, rfl, .inl ⟨i, finished, hpc⟩⟩
  | settle _ _ _ _ =>
    simp only [settle_eq]
    exact ⟨rfl, rfl, .inr rfl⟩
  | settleRestart _ _ _ _ =>
    simp only [settle_eq]
    exact ⟨rfl, rfl, .inr rfl⟩
  | dispatch hpc => exact absurd rfl (hno hpc)
  | _ => exact ⟨rfl, rfl, .inr rfl⟩

/-- Where a cycle is prepared. -/
theorem Loop.Step.ready {l l' : Loop μ} (h : Loop.Step c l l')
    (hl : ∀ b, l.pc = .ready b → l.main.changed = true) (b : Bool) (hpc : l'.pc = .ready b) :
    l'.main.changed = true := by
  cases h with
  | waiting _ _ _ hch => exact hch
  | settle _ _ _ _ => simp only [settle_eq]
  | settleRestart _ _ _ _ => simp only [settle_eq]
  | reconnect => exact hl b hpc
  | _ => cases hpc

/-- Once the counter is there, a cycle that is prepared is reset. -/
theorem Loop.Step.reset {l l' : Loop μ} (h : Loop.Step c l l') (hcount : c.resetCounter ≤ l.main.sendCounter)
    (hl : l.main.changed = true → l.main.chunckCounter = 0) (hch : l'.main.changed = true) :
    l'.main.chunckCounter = 0 := by
  cases h with
  | fifo _ _ _ _ _ hno _ => exact absurd (hno.symm.trans hch) Bool.false_ne_true
  | sweepTurn i _ _ _ =>
    simp only at hch ⊢
    rw [sweepAt_frame] at hch ⊢
    exact hl hch
  | settle _ _ _ hr =>
    have hle : (l.main.finishPlan c).restarts c = true :=
      Bool.or_eq_true_iff.mpr (.inr (decide_eq_true hcount))
    exact absurd (hr.symm.trans hle) Bool.false_ne_true
  | settleRestart _ _ _ hr => simp only [settle_eq, hr, if_true]
  | dispatch _ => cases hch
  | reconnect => rfl
  | _ => exact hl hch

/-- **Behind the reset no sweep is decided on**, whoever reconnects. -/
theorem Loop.Step.noSweep (hc : c.Accepted) {l l' : Loop μ} (h : Loop.Step c l l') (hg : l.Uncut c l')
    (hno : l.pc = .ready true → l'.pc ≠ .top) (hcount : c.resetCounter ≤ l.main.sendCounter)
    (hl : l.NoSweep c) : l'.NoSweep c := by
  unfold Loop.NoSweep at hl
  cases h with
  | read finished hpc =>
    rw [hpc] at hl
    exact ⟨hl, fun _ => hl.1⟩
  | waiting r finished hpc _ =>
    rw [hpc] at hl
    exact hl.1
  | fifo r finished snapshot flags hpc _ _ => exact hg ⟨r, finished, hpc⟩ ⟨finished, rfl⟩
  | priority r finished snapshot flags hpc hch hr =>
    rw [hpc] at hl
    have hpos := (Config.chunks_cover hc.sent_pos hc.max_le).1
    have hzero := hl.2 hch
    omega
  | sweepTurn i finished hpc _ =>
    rw [hpc] at hl
    exact hl.elim
  | swept i finished hpc _ =>
    rw [hpc] at hl
    exact hl.elim
  | settle fifo finished hpc hr =>
    have hrestarts : (l.main.finishPlan c).restarts c = true :=
      Bool.or_eq_true_iff.mpr (.inr (decide_eq_true hcount))
    exact absurd (hr.symm.trans hrestarts) Bool.false_ne_true
  | settleRestart fifo finished hpc hr =>
    rw [hpc] at hl
    cases fifo with
    | true =>
      simp only [Loop.NoSweep, Loop.Fifo, settle_eq, hr, if_true]
      exact ⟨trivial, fun _ => ⟨finishPlan_full hc hl, hl.2⟩⟩
    | false => exact hl.elim
  | dispatch hpc => exact absurd rfl (hno hpc)
  | idle hpc =>
    rw [hpc] at hl
    exact hl
  | reconnect =>
    obtain ⟨main, pc, dispatched, fresh⟩ := l
    cases pc with
    | top => exact ⟨rfl, hl.2⟩
    | read r b => exact ⟨⟨rfl, hl.1.2⟩, hl.2⟩
    | sweep i b => exact hl
    | chosen fifo b => cases fifo <;> exact hl
    | ready b => exact ⟨rfl, hl.2⟩

theorem Ages.Inv.turn (hc : c.Accepted) (hs : s.Inv c) (h : Loop.Step c s.loop l)
    (hno : s.loop.pc = .ready true → l.pc ≠ .top) (hg : s.loop.Uncut c l) :
    Ages.Inv c { s with loop := l } := by
  obtain ⟨hcount, hcur, hlist⟩ := h.counter hno
  exact {
    queued := h.queued hc.vars_pos hs.queued
    counter_lt := hcount ▸ hs.counter_lt
    sentIn_le := hs.sentIn_le
    ready := h.ready hs.ready
    reset := fun hle => h.reset (hcount ▸ hle) (hs.reset (hcount ▸ hle))
    noSweep := fun hlt => by
      rw [hcount] at hlt
      exact h.noSweep hc hg hno hlt.le (hs.noSweep hlt)
    visited := fun t ht => by
      rw [hcount] at ht
      have hcalm := hs.noSweep (Nat.lt_of_le_of_lt (Nat.le_add_right _ _) ht)
      rcases hlist with ⟨i, b, hpc⟩ | hlist
      · rw [Loop.NoSweep, hpc] at hcalm
        exact hcalm.elim
      · rw [hcur, hlist]
        exact hs.visited t ht
    age := fun p hp => (hs.age p hp).trans_eq (by rw [hcount]) }

/-- The step of the loop that dispatches. -/
theorem Loop.Step.dispatched {l l' : Loop μ} (h : Loop.Step c l l') (hpc : l.pc = .ready true)
    (htop : l'.pc = .top) : l'.main = l.main.dispatch c := by
  cases h with
  | dispatch _ => rfl
  | read _ hpc' | waiting _ _ hpc' _ | fifo _ _ _ _ hpc' _ _ | priority _ _ _ _ hpc' _ _
  | sweepTurn _ _ hpc' _ | swept _ _ hpc' _ | settle _ _ hpc' _ | settleRestart _ _ hpc' _ | idle hpc' =>
      rw [hpc'] at hpc; cases hpc
  | reconnect => rw [show l.pc = Pc.top from htop] at hpc; cases hpc

/-- `sendCounter++`, which wraps. -/
theorem Ages.Inv.counter_succ (hs : s.Inv c) :
    u32 (s.loop.main.sendCounter + 1) = s.loop.main.sendCounter + 1 ∨
    (u32 (s.loop.main.sendCounter + 1) = 0 ∧ s.loop.main.sendCounter = 2 ^ 32 - 1) := by
  have hlt := hs.counter_lt
  rcases Nat.lt_or_ge (s.loop.main.sendCounter + 1) (2 ^ 32) with hsmall | hbig
  · exact .inl (u32_of_lt hsmall)
  · have heq : s.loop.main.sendCounter = 2 ^ 32 - 1 := by omega
    exact .inr ⟨by rw [heq]; rfl, heq⟩

/-- **A whole cycle** comes past the next PVs of the queue. -/
theorem Ages.Inv.visited_newRound (hs : s.Inv c) (hpc : s.loop.pc = .ready true)
    (hcount : c.resetCounter + t < s.loop.main.sendCounter) :
    Visited c.numberOfVariables c.maxSignalPerThread (s.loop.main.dispatch c).currentIdx (s.round + 1)
      ((s.newRound c l).sentIn ∘ s.loop.main.indexList) (t + 1) := by
  have hcalm := hs.noSweep (Nat.lt_of_le_of_lt (Nat.le_add_right _ _) hcount)
  rw [Loop.NoSweep, hpc] at hcalm
  obtain ⟨hfull, hwrap⟩ := hcalm.2 (hs.ready true hpc)
  have hcur : (s.loop.main.dispatch c).currentIdx =
      ringPos c.numberOfVariables s.loop.main.currentIdx c.maxSignalPerThread := by
    show u32 (s.loop.main.currentIdx + s.loop.main.nVariables) % c.numberOfVariables = _
    rw [hfull, u32_of_lt hwrap, ringPos]
  rw [hcur]
  refine visited_turn (hs.visited t hcount) (fun d _ => ?_) fun d hd => ?_
  · rw [Function.comp_apply, Function.comp_apply, Ages.sentIn_newRound]
    split_ifs
    · exact (hs.sentIn_le _).trans (Nat.le_succ _)
    · exact le_rfl
  · exact if_pos ⟨d, hfull ▸ hd, rfl⟩

theorem Ages.Inv.newRound (hc : c.Accepted) (hroom : c.resetCounter + c.numberOfChunks + 1 < 2 ^ 32)
    (hs : s.Inv c) (h : Loop.Step c s.loop l) (hpc : s.loop.pc = .ready true) (htop : l.pc = .top) :
    (s.newRound c l).Inv c := by
  have hmain := h.dispatched hpc htop
  have hcounter : l.main.sendCounter = u32 (s.loop.main.sendCounter + 1) := by rw [hmain]; rfl
  have hchanged : l.main.changed = false := by rw [hmain]; rfl
  exact {
    queued := h.queued hc.vars_pos hs.queued
    counter_lt := hcounter ▸ u32_lt _
    sentIn_le := fun p => by
      show (s.newRound c l).sentIn p ≤ s.round + 1
      rw [Ages.sentIn_newRound]
      split_ifs
      · exact le_rfl
      · exact (hs.sentIn_le p).trans (Nat.le_succ _)
    ready := fun b hb => by cases htop.symm.trans hb
    reset := fun _ hch => absurd (hchanged.symm.trans hch) Bool.false_ne_true
    noSweep := fun hlt => by
      have hle : c.resetCounter ≤ s.loop.main.sendCounter := by
        change c.resetCounter < l.main.sendCounter at hlt
        rw [hcounter] at hlt
        rcases hs.counter_succ with hsucc | ⟨hzero, -⟩ <;> omega
      have hreset := hs.reset hle (hs.ready true hpc)
      show Loop.NoSweep c l
      rw [Loop.NoSweep, htop]
      exact ⟨by rw [hmain]; exact hreset, fun hch => absurd (hchanged.symm.trans hch) Bool.false_ne_true⟩
    visited := fun t ht => by
      change c.resetCounter + t < l.main.sendCounter at ht
      rw [hcounter] at ht
      show Visited _ _ l.main.currentIdx _ (_ ∘ l.main.indexList) t
      rw [hmain]
      cases t with
      | zero => exact visited_zero
      | succ t => exact hs.visited_newRound hpc (by rcases hs.counter_succ with hsucc | ⟨hzero, -⟩ <;> omega)
    age := fun p hp => by
      have hage := hs.age p hp
      show s.round + 1 ≤ (s.newRound c l).sentIn p + c.numberOfChunks + l.main.sendCounter
      rw [hcounter, Ages.sentIn_newRound]
      split_ifs
      · exact (Nat.le_add_right _ _).trans (Nat.le_add_right _ _)
      · rcases hs.counter_succ with hsucc | ⟨hzero, hmax⟩
        · omega
        · have hrecent := hs.recent hc (by omega) hp
          omega }

/-- **One step** keeps the invariant. -/
theorem Ages.Inv.step (hc : c.Accepted) (hroom : c.resetCounter + c.numberOfChunks + 1 < 2 ^ 32)
    (hs : s.Inv c)
    (h : Ages.Step c s s') (hg : s.loop.Uncut c s'.loop) : s'.Inv c := by
  cases h with
  | turn hstep hno => exact hs.turn hc hstep hno hg
  | dispatch hstep hpc htop => exact hs.newRound hc hroom hstep hpc htop

end Hieratika.Sender

import Hieratika.Foundations.Runs
import Hieratika.Receiver.Slots
import Hieratika.Workers.Ranges
import Mathlib.Logic.Function.Basic

/-!
# The put threads

`DiodeReceiverCycleLoop`: in every cycle thread 0 copies the buffer and the change flags to
`memory2` and `changeFlag2` (`Synchronise`, which clears `changeFlag`), and each thread goes
over its own range of indices and puts the PVs flagged in `changeFlag2`.

## The model

`Loop.Step` interleaves, in any order, the storing of a frame, `Synchronise` by thread 0 at
the top of its cycle, and the examination of one index by a thread. Every `ca_array_put`
succeeds, a thread waits as long as it likes, and `quit` stays `0`. The last six fields of
`Loop` are history, which no step reads to change the others.

## What is proved

Only thread 0 refreshes the flags, so only for thread 0 is a scan of its range complete when
they are overwritten. No change is lost when thread 0 waits for the other threads to go round,
which the source does not make it do; over all runs, exactly when every PV that can change is
in the range of thread 0 (`puts_complete_iff`).
-/

namespace Hieratika.Receiver

open Foundations Workers

/-- A `ca_array_put`. -/
structure Put where
  index : ℕ
  chtype : ℕ
  count : ℕ
  /-- The bytes from `pValue` on: the value and its time stamp. -/
  pValue : List UInt8

/-- The buffers and the put threads. -/
structure Loop where
  store : Store
  memory2 : Memory
  changeFlag2 : ℕ → Bool
  /-- The loop variable of each thread. -/
  index : ℕ → ℕ
  /-- The puts, the last one first. -/
  puts : List Put
  /-- The values received for each PV, the last one first. -/
  received : ℕ → List (List UInt8)
  /-- Flags moved into `changeFlag2` whose PV has not been put since. -/
  owed : ℕ → Bool
  /-- Flags overwritten with `0` while owed. -/
  lost : ℕ → Bool
  /-- How often `Synchronise` was called. -/
  syncs : ℕ
  /-- The value of `syncs` when each thread began its scan. -/
  began : ℕ → ℕ

/-- The indices of thread `k` of `T`. -/
def DiodeReceiver.range (r : DiodeReceiver) (T k : ℕ) : Range := cycleLoopRange r.numberOfVariables T k

/-- The loops when `eventSem` is posted: every thread is at the top of its cycle. -/
def Loop.start (r : DiodeReceiver) (T : ℕ) : Loop where
  store := .start
  memory2 := fun _ => 0
  changeFlag2 := fun _ => false
  index := fun k => (r.range T k).stop
  puts := []
  received := fun _ => []
  owed := fun _ => false
  lost := fun _ => false
  syncs := 0
  began := fun _ => 0

/-- Thread `k` has finished its scan. -/
def Loop.AtTop (s : Loop) (r : DiodeReceiver) (T k : ℕ) : Prop := (r.range T k).stop ≤ s.index k

/-- A frame for the local index `i` is stored. -/
def Loop.storeFrame (s : Loop) (r : DiodeReceiver) (env : Env) (threadId i : ℕ) (h : Header)
    (data : Memory) : Loop :=
  { s with store := r.readVarValue env threadId s.store data h (r.localAt h i)
           received := Function.update s.received i (readAt data 0 h.receivedSize :: s.received i) }

/-- `Copy(dst, src, n)` on flags. -/
def copyFlags (dst src : ℕ → Bool) (n : ℕ) : ℕ → Bool := fun i => if i < n then src i else dst i

/-- `Synchronise(memory2, changeFlag2)` by thread 0 at the top of its cycle. The report of
`numberOfReceivedPVs` under `debug` is left out. -/
def Loop.synchronise (s : Loop) (r : DiodeReceiver) (T : ℕ) : Loop :=
  { s with
    store := { s.store with changeFlag := copyFlags s.store.changeFlag (fun _ => false) r.numberOfVariables }
    memory2 := writeAt s.memory2 0 (readAt s.store.memory 0 (r.offset r.numberOfVariables))
    changeFlag2 := copyFlags s.changeFlag2 s.store.changeFlag r.numberOfVariables
    index := Function.update s.index 0 (r.range T 0).beg
    owed := s.store.changeFlag
    lost := fun i => s.lost i || (s.owed i && !s.store.changeFlag i)
    syncs := s.syncs + 1
    began := Function.update s.began 0 (s.syncs + 1) }

/-- Thread `k` starts over. -/
def Loop.restart (s : Loop) (r : DiodeReceiver) (T k : ℕ) : Loop :=
  { s with index := Function.update s.index k (r.range T k).beg
           began := Function.update s.began k s.syncs }

/-- What the put of the PV `i` sends. -/
def DiodeReceiver.put (r : DiodeReceiver) (memory2 : Memory) (i : ℕ) : Put where
  index := i
  chtype := (r.pvs i).pvType ||| 0x8000
  count := (r.pvs i).numberOfElements
  pValue := readAt memory2 (r.offset i) ((r.pvs i).totalSize + 8)

/-- Thread `k` examines its next index. -/
def Loop.examine (s : Loop) (r : DiodeReceiver) (k : ℕ) : Loop :=
  if s.changeFlag2 (s.index k) then
    { s with puts := r.put s.memory2 (s.index k) :: s.puts
             owed := Function.update s.owed (s.index k) false
             index := Function.update s.index k (s.index k + 1) }
  else { s with index := Function.update s.index k (s.index k + 1) }

/-- The atomic steps with `T` put threads, for the frames that `arrives` admits. -/
inductive Loop.Step (r : DiodeReceiver) (env : Env) (T : ℕ) (arrives : ℕ → Header → Prop) : Loop → Loop → Prop
  /-- A frame is stored. -/
  | store {s : Loop} (threadId i : ℕ) (h : Header) (data : Memory) : arrives i h →
      Loop.Step r env T arrives s (s.storeFrame r env threadId i h data)
  /-- Thread 0 synchronises and begins its scan. -/
  | synchronise {s : Loop} : s.AtTop r T 0 → Loop.Step r env T arrives s (s.synchronise r T)
  /-- Another thread begins its scan. -/
  | restart {s : Loop} {k : ℕ} : 0 < k → k < T → s.AtTop r T k → Loop.Step r env T arrives s (s.restart r T k)
  /-- A thread examines an index. -/
  | examine {s : Loop} {k : ℕ} : k < T → s.index k < (r.range T k).stop →
      Loop.Step r env T arrives s (s.examine r k)

/-- The condition on a step: if it is a `Synchronise`, every thread has gone over its range since
the last one. -/
def Loop.Waits (r : DiodeReceiver) (T : ℕ) (s s' : Loop) : Prop :=
  s'.syncs ≠ s.syncs → ∀ k < T, s.began k = s.syncs ∧ s.AtTop r T k

variable {r : DiodeReceiver} {env : Env} {T k i j threadId : ℕ} {arrives : ℕ → Header → Prop} {s s' : Loop}
  {h : Header} {data : Memory}

/-! ### What storing a frame does to the flags -/

/-- A stored frame either leaves the PV with its previous value, or flags it and keeps the new one. -/
theorem readVarValue_cases {st : Store} {l : Local} (hi : l.index < r.numberOfVariables) {st' : Store}
    (hst : r.readVarValue env threadId st data h l = st') :
    (readAt st'.memory (r.offset l.index) (r.pvs l.index).totalSize =
        readAt st.memoryPrec (r.offset l.index) (r.pvs l.index).totalSize ∧
      st'.changeFlag = st.changeFlag ∧ st'.memoryPrec = st.memoryPrec) ∨
    (readAt st'.memory (r.offset l.index) (r.pvs l.index).totalSize ≠
        readAt st.memoryPrec (r.offset l.index) (r.pvs l.index).totalSize ∧
      st'.changeFlag = Function.update st.changeFlag l.index true ∧
      st'.memoryPrec = writeAt st.memoryPrec (r.offset l.index)
        (readAt st'.memory (r.offset l.index) (r.pvs l.index).totalSize)) := by
  have hmem : st'.memory = writeAll st.memory (r.writes env st data h l) := hst ▸ readVarValue_memory hi
  rw [hmem, ← hst]
  rw [DiodeReceiver.readVarValue, if_pos hi, Store.compareAndFlag]
  by_cases heq : readAt (writeAll st.memory (r.writes env st data h l)) (r.offset l.index)
      (r.pvs l.index).totalSize = readAt st.memoryPrec (r.offset l.index) (r.pvs l.index).totalSize
  · rw [if_neg (not_not.mpr heq)]
    exact Or.inl ⟨heq, rfl, rfl⟩
  · rw [if_pos heq]
    exact Or.inr ⟨heq, rfl, rfl⟩

/-- A flag after a frame was there before, or is the one of the frame's PV, which has elements. -/
theorem readVarValue_changeFlag {st : Store} {l : Local}
    (hj : (r.readVarValue env threadId st data h l).changeFlag j = true) :
    st.changeFlag j = true ∨ j = l.index ∧ j < r.numberOfVariables ∧ 0 < (r.pvs j).totalSize := by
  by_cases hi : l.index < r.numberOfVariables
  · rcases readVarValue_cases hi rfl with ⟨-, hflag, -⟩ | ⟨hne, hflag, -⟩ <;> rw [hflag] at hj
    · exact Or.inl hj
    · by_cases hjl : j = l.index
      · subst hjl
        refine Or.inr ⟨rfl, hi, Nat.pos_of_ne_zero fun hz => hne ?_⟩
        rw [hz, readAt_zero, readAt_zero]
      · rw [Function.update_of_ne hjl] at hj
        exact Or.inl hj
  · rw [DiodeReceiver.readVarValue, if_neg hi] at hj
    exact Or.inl hj

theorem readVarValue_changeFlag_of_ne {st : Store} {l : Local} (hj : j ≠ l.index) :
    (r.readVarValue env threadId st data h l).changeFlag j = st.changeFlag j := by
  by_cases hi : l.index < r.numberOfVariables
  · rcases readVarValue_cases hi rfl with ⟨-, hflag, -⟩ | ⟨-, hflag, -⟩ <;> rw [hflag]
    exact Function.update_of_ne hj _ _
  · rw [DiodeReceiver.readVarValue, if_neg hi]

/-! ### What is owed is still to come -/

/-- A flag that is owed is one that its threads are going to see. -/
structure Loop.Inv (r : DiodeReceiver) (T : ℕ) (s : Loop) : Prop where
  /-- Only a PV with elements is flagged. -/
  flagged : ∀ i, s.store.changeFlag i = true → i < r.numberOfVariables ∧ 0 < (r.pvs i).totalSize
  /-- A thread whose scan began after the last `Synchronise` has not passed what is owed. -/
  owed : ∀ i, s.owed i = true → i < r.numberOfVariables ∧ 0 < (r.pvs i).totalSize ∧ s.changeFlag2 i = true ∧
    ∀ k, s.began k = s.syncs → (r.range T k).Has i → s.index k ≤ i
  /-- Scans began in the past. -/
  began : ∀ k, s.began k ≤ s.syncs
  /-- Thread 0 began its scan at the last `Synchronise`. -/
  began_zero : s.began 0 = s.syncs

theorem Loop.start_index : (Loop.start r T).index = fun k => (r.range T k).stop := rfl

theorem Loop.atTop_start (k : ℕ) : (Loop.start r T).AtTop r T k := by
  rw [Loop.AtTop, Loop.start_index]

theorem Loop.atTop_storeFrame : (s.storeFrame r env threadId i h data).AtTop r T k ↔ s.AtTop r T k := by
  simp only [Loop.AtTop, Loop.storeFrame]

theorem Loop.inv_start : (Loop.start r T).Inv r T := by
  refine ⟨?_, ?_, fun _ => le_rfl, rfl⟩
  · intro i hi; simp [Loop.start, Store.start] at hi
  · intro i hi; simp [Loop.start] at hi

theorem Loop.Inv.storeFrame (hs : s.Inv r T) (threadId i : ℕ) (h : Header) (data : Memory) :
    (s.storeFrame r env threadId i h data).Inv r T := by
  refine ⟨fun j hj => ?_, hs.owed, hs.began, hs.began_zero⟩
  rcases readVarValue_changeFlag hj with hj | ⟨-, hlt, hpos⟩
  · exact hs.flagged j hj
  · exact ⟨hlt, hpos⟩

theorem Loop.Inv.synchronise (hs : s.Inv r T) : (s.synchronise r T).Inv r T := by
  refine ⟨fun i hi => ?_, fun i hi => ?_, fun k => ?_, by simp [Loop.synchronise]⟩
  · simp only [Loop.synchronise, copyFlags] at hi
    split_ifs at hi
    exact hs.flagged i hi
  · obtain ⟨hlt, hpos⟩ := hs.flagged i hi
    refine ⟨hlt, hpos, (if_pos hlt).trans hi, fun k hk hhas => ?_⟩
    have hk0 : k = 0 := by
      by_contra hne
      simp only [Loop.synchronise, Function.update_of_ne hne] at hk
      have := hs.began k
      omega
    subst hk0
    simpa [Loop.synchronise] using hhas.1
  · by_cases hk : k = 0
    · subst hk; simp [Loop.synchronise]
    · simp only [Loop.synchronise, Function.update_of_ne hk]
      exact (hs.began k).trans (Nat.le_succ _)

theorem Loop.Inv.restart (hs : s.Inv r T) (hk : 0 < k) : (s.restart r T k).Inv r T := by
  refine ⟨hs.flagged, fun i hi => ?_, fun j => ?_, ?_⟩
  · obtain ⟨hlt, hpos, hflag, hbeh⟩ := hs.owed i hi
    refine ⟨hlt, hpos, hflag, fun j hj hhas => ?_⟩
    by_cases hjk : j = k
    · subst hjk; simpa [Loop.restart] using hhas.1
    · simp only [Loop.restart, Function.update_of_ne hjk] at hj ⊢
      exact hbeh j hj hhas
  · by_cases hjk : j = k
    · subst hjk; simp [Loop.restart]
    · simpa only [Loop.restart, Function.update_of_ne hjk] using hs.began j
  · simpa only [Loop.restart, Function.update_of_ne hk.ne] using hs.began_zero

/-- What examining an index leaves owed, and where it leaves the threads. -/
theorem Loop.examine_owed (hi : (s.examine r k).owed i = true) :
    s.owed i = true ∧ (s.changeFlag2 (s.index k) = true → i ≠ s.index k) := by
  unfold Loop.examine at hi
  split_ifs at hi with hflag
  · by_cases hik : i = s.index k
    · subst hik; simp at hi
    · simp only [Function.update_of_ne hik] at hi
      exact ⟨hi, fun _ => hik⟩
  · exact ⟨hi, fun h => absurd h hflag⟩

@[simp] theorem Loop.examine_index : (s.examine r k).index = Function.update s.index k (s.index k + 1) := by
  unfold Loop.examine
  split_ifs <;> rfl

/-- Examining an index leaves the buffers and the clock alone. -/
theorem Loop.examine_frame : (s.examine r k).store = s.store ∧ (s.examine r k).memory2 = s.memory2 ∧
    (s.examine r k).changeFlag2 = s.changeFlag2 ∧ (s.examine r k).received = s.received ∧
    (s.examine r k).lost = s.lost ∧ (s.examine r k).syncs = s.syncs ∧ (s.examine r k).began = s.began := by
  unfold Loop.examine
  split_ifs <;> exact ⟨rfl, rfl, rfl, rfl, rfl, rfl, rfl⟩

theorem Loop.Inv.examine (hs : s.Inv r T) : (s.examine r k).Inv r T := by
  obtain ⟨hstore, -, hcf, -, -, hsyncs, hbegan⟩ := Loop.examine_frame (s := s) (r := r) (k := k)
  refine ⟨by rw [hstore]; exact hs.flagged, fun i hi => ?_, by rw [hsyncs, hbegan]; exact hs.began,
    by rw [hsyncs, hbegan]; exact hs.began_zero⟩
  obtain ⟨howed, hne⟩ := Loop.examine_owed hi
  obtain ⟨hlt, hpos, hflag, hbeh⟩ := hs.owed i howed
  rw [hcf, hsyncs, hbegan, Loop.examine_index]
  refine ⟨hlt, hpos, hflag, fun j hj hhas => ?_⟩
  have hle := hbeh j hj hhas
  by_cases hjk : j = k
  · subst hjk
    rw [Function.update_self]
    have : i ≠ s.index j := fun he => hne (he ▸ hflag) he
    omega
  · rwa [Function.update_of_ne hjk]

theorem Loop.Inv.step (hs : s.Inv r T) (hstep : Loop.Step r env T arrives s s') : s'.Inv r T := by
  cases hstep with
  | store threadId i h data _ => exact hs.storeFrame threadId i h data
  | synchronise _ => exact hs.synchronise
  | restart hk _ _ => exact hs.restart hk
  | examine _ _ => exact hs.examine

/-! ### When a change is lost -/

/-- **A `Synchronise` loses nothing** if every PV with elements has a thread that has gone over its
range since the last one. -/
theorem Loop.Inv.synchronise_lost (hs : s.Inv r T)
    (hround : ∀ i < r.numberOfVariables, 0 < (r.pvs i).totalSize →
      ∃ k, (r.range T k).Has i ∧ s.began k = s.syncs ∧ s.AtTop r T k) :
    (s.synchronise r T).lost = s.lost := by
  have hnone : ∀ i, s.owed i = false := by
    intro i
    by_contra hi
    obtain ⟨hlt, hpos, -, hbeh⟩ := hs.owed i (by simpa using hi)
    obtain ⟨k, hhas, hk, htop⟩ := hround i hlt hpos
    have hle : s.index k ≤ i := hbeh k hk hhas
    have hstop : i < s.index k := lt_of_lt_of_le hhas.2 htop
    omega
  funext i
  simp [Loop.synchronise, hnone i]

/-- No step but a `Synchronise` loses a change. -/
theorem Loop.Step.lost_eq (hstep : Loop.Step r env T arrives s s') :
    s'.lost = s.lost ∨ s.AtTop r T 0 ∧ s' = s.synchronise r T := by
  cases hstep with
  | store => exact Or.inl rfl
  | synchronise htop => exact Or.inr ⟨htop, rfl⟩
  | restart => exact Or.inl rfl
  | examine => exact Or.inl Loop.examine_frame.2.2.2.2.1

/-- Nothing is lost in a run of the steps that meet `g`, if every `Synchronise` that meets `g` comes
after a round. -/
theorem lost_of_round {g : Loop → Loop → Prop}
    (hround : ∀ s, s.Inv r T → s.AtTop r T 0 → g s (s.synchronise r T) →
      ∀ i < r.numberOfVariables, 0 < (r.pvs i).totalSize →
        ∃ k, (r.range T k).Has i ∧ s.began k = s.syncs ∧ s.AtTop r T k)
    (hs : Reachable (Guarded (Loop.Step r env T arrives) g) (Loop.start r T) s) (i : ℕ) :
    s.lost i = false := by
  have hinv : s.Inv r T ∧ s.lost = fun _ => false := by
    refine hs.invariant (I := fun s => s.Inv r T ∧ s.lost = fun _ => false) ⟨Loop.inv_start, rfl⟩ ?_
    rintro a b ⟨hinv, hlost⟩ ⟨hstep, hg⟩
    refine ⟨hinv.step hstep, ?_⟩
    rcases hstep.lost_eq with heq | ⟨htop, rfl⟩
    · rw [heq, hlost]
    · rw [hinv.synchronise_lost (hround a hinv htop hg), hlost]
  rw [hinv.2]

/-! ### A lost change -/

/-- Thread 0 can always finish its scan, and does not put what is outside its range. -/
theorem scan_zero (arrives : ℕ → Header → Prop) (hT : 0 < T) (hi : ¬ (r.range T 0).Has i)
    (hbeg : (r.range T 0).beg ≤ s.index 0)
    (howed : s.owed i = true) (hflag : s.store.changeFlag i = false) :
    ∃ s', Reachable (Loop.Step r env T arrives) s s' ∧ s'.AtTop r T 0 ∧ s'.owed i = true ∧
      s'.store.changeFlag i = false := by
  generalize hn : (r.range T 0).stop - s.index 0 = n
  induction n generalizing s with
  | zero => exact ⟨s, .refl, by unfold Loop.AtTop; omega, howed, hflag⟩
  | succ n ih =>
    have hstep : Loop.Step r env T arrives s (s.examine r 0) := .examine hT (by omega)
    have hne : i ≠ s.index 0 := fun he => hi ⟨by omega, by omega⟩
    have howed' : (s.examine r 0).owed i = true := by
      unfold Loop.examine
      split_ifs
      · simpa only [Function.update_of_ne hne] using howed
      · exact howed
    have hindex : (s.examine r 0).index 0 = s.index 0 + 1 := by simp
    have hflag' : (s.examine r 0).store.changeFlag i = false := by rw [Loop.examine_frame.1, hflag]
    obtain ⟨s', hreach, htop, howed'', hflag''⟩ := ih (by omega) howed' hflag' (by omega)
    exact ⟨s', Reachable.trans (Reachable.next .refl hstep) hreach, htop, howed'', hflag''⟩

/-- A frame with a whole value for the PV `i`. -/
def wholeHeader (r : DiodeReceiver) (i : ℕ) : Header := ⟨(r.pvs i).pvName, i, 0, (r.pvs i).totalSize, 0, 0, 0⟩

/-- The loops after a first value for the PV `i`, of ones. -/
def firstStore (r : DiodeReceiver) (env : Env) (T i : ℕ) : Loop :=
  (Loop.start r T).storeFrame r env 0 i (wholeHeader r i) fun _ => 1

/-- The first value of a PV with elements is flagged, if it is not zero. -/
theorem first_store_flags (hi : i < r.numberOfVariables) (hpos : 0 < (r.pvs i).totalSize) :
    (firstStore r env T i).store.changeFlag i = true := by
  have hslot := readVarValue_slot env 0 .start (fun _ => 1) hi hpos
    (⟨rfl, rfl⟩ : r.WholeFrame i (wholeHeader r i))
  rcases readVarValue_cases (l := r.localAt (wholeHeader r i) i) hi rfl with ⟨heq, -⟩ | ⟨-, hflag, -⟩
  · exfalso
    rw [show (r.localAt (wholeHeader r i) i).index = i from rfl] at heq
    rw [readAt_add, heq] at hslot
    have hhead := congrArg (fun bs => bs.getD 0 0) hslot
    simp [readAt, Store.start, hpos] at hhead
  · show (r.readVarValue _ _ .start _ _ _).changeFlag i = true
    rw [hflag]
    exact Function.update_self ..

/-- A PV outside the range of thread 0 is flagged, moved, and overwritten before its own thread runs. -/
theorem lost_reachable (env : Env) (hT : 0 < T) (hi : i < r.numberOfVariables)
    (hpos : 0 < (r.pvs i).totalSize) (hout : ¬ (r.range T 0).Has i) :
    ∃ s, Reachable (Loop.Step r env T fun _ _ => True) (Loop.start r T) s ∧ s.lost i = true := by
  have h₁ : Loop.Step r env T (fun _ _ => True) (Loop.start r T) (firstStore r env T i) :=
    .store 0 i _ _ trivial
  have h₂ : Loop.Step r env T (fun _ _ => True) (firstStore r env T i)
      ((firstStore r env T i).synchronise r T) :=
    .synchronise (Loop.atTop_storeFrame.mpr (Loop.atTop_start 0))
  have hflag : (firstStore r env T i).store.changeFlag i = true := first_store_flags hi hpos
  have hbeg : (r.range T 0).beg ≤ ((firstStore r env T i).synchronise r T).index
    0 := by simp [Loop.synchronise]
  have hclear : ((firstStore r env T i).synchronise r T).store.changeFlag i = false := by
    simp [Loop.synchronise, copyFlags, hi]
  obtain ⟨s, hreach, htop, howed, hzero⟩ := scan_zero (fun _ _ => True) hT hout hbeg hflag
    hclear
  refine ⟨s.synchronise r T,
    (Reachable.trans ((Reachable.refl.next h₁).next h₂) hreach).next (.synchronise htop), ?_⟩
  simp [Loop.synchronise, howed, hzero]

/-! ### The ranges -/

theorem range_zero_of_few (hT : 0 < T) (h32 : T < 2 ^ 32) (h : T = 1 ∨ r.numberOfVariables ≤ T)
    (hi : i < r.numberOfVariables) : (r.range T 0).Has i := by
  have hn : r.numberOfVariables < 2 ^ 32 := r.vars_lt.trans (by decide)
  have hlt : r.numberOfVariables - (0 + 1) * (r.numberOfVariables / T) < T := by
    rcases h with rfl | hle
    · rw [Nat.div_one]; omega
    · by_cases heq : r.numberOfVariables = T
      · rw [heq, Nat.div_self hT]; omega
      · omega
  rw [DiodeReceiver.range, cycleLoopRange, chunkRange_eq hn h32 hT, if_pos hlt]
  exact ⟨(Nat.zero_mul _).trans_le (Nat.zero_le i), hi⟩

/-- With two threads or more and more PVs than threads, thread 0 has the first `N / T` PVs. -/
theorem range_zero_of_many (h1 : 1 < T) (h32 : T < 2 ^ 32) (hm : T < r.numberOfVariables) :
    (r.range T 0).Has i ↔ i < r.numberOfVariables / T := by
  have hn : r.numberOfVariables < 2 ^ 32 := r.vars_lt.trans (by decide)
  have hge : ¬ r.numberOfVariables - (0 + 1) * (r.numberOfVariables / T) < T := by
    rw [left_after (by omega)]
    have hq : 1 ≤ r.numberOfVariables / T := Nat.div_pos hm.le (by omega)
    have hdiv := Nat.div_add_mod r.numberOfVariables T
    by_cases hq1 : r.numberOfVariables / T = 1
    · rw [hq1] at hdiv ⊢; omega
    · have : (T - 1) * 2 ≤ (T - 1 - 0) * (r.numberOfVariables / T) := Nat.mul_le_mul (by omega) (by omega)
      omega
  rw [DiodeReceiver.range, cycleLoopRange, chunkRange_eq hn h32 (by omega), if_neg hge]
  simp [Range.Has]

/-- Every PV that can change is in the range of thread 0. -/
theorem range_zero_covers_iff (hT : 0 < T) (h32 : T < 2 ^ 32) :
    (∀ i < r.numberOfVariables, 0 < (r.pvs i).totalSize → (r.range T 0).Has i) ↔
      T = 1 ∨ r.numberOfVariables ≤ T ∨
        ∀ i < r.numberOfVariables, r.numberOfVariables / T ≤ i → (r.pvs i).totalSize = 0 := by
  constructor
  · intro hall
    by_cases h1 : T = 1
    · exact Or.inl h1
    by_cases hm : r.numberOfVariables ≤ T
    · exact Or.inr (Or.inl hm)
    refine Or.inr (Or.inr fun i hi hge => ?_)
    by_contra hne
    have hhas := hall i hi (Nat.pos_of_ne_zero hne)
    rw [range_zero_of_many (by omega) h32 (by omega)] at hhas
    omega
  · intro hcond i hi hpos
    by_cases hfew : T = 1 ∨ r.numberOfVariables ≤ T
    · exact range_zero_of_few hT h32 hfew hi
    · push Not at hfew
      rw [range_zero_of_many (by omega) h32 hfew.2]
      rcases hcond with h1 | hle | hzero
      · exact absurd h1 hfew.1
      · exact absurd hle (by omega)
      · by_contra hge
        have := hzero i hi (by omega)
        omega

/-- **No change is lost** in the runs in which a `Synchronise` comes only after every thread has gone
over its range since the last one; over all runs, exactly when there is one thread, or not more PVs
than threads, or no PV from index `N / T` on has elements. -/
theorem puts_complete_iff (r : DiodeReceiver) (env : Env) (T : ℕ) (hT : 0 < T) (h32 : T < 2 ^ 32) :
    (∀ s, Reachable (Guarded (Loop.Step r env T fun _ _ => True) (Loop.Waits r T)) (Loop.start r T) s →
        ∀ i, s.lost i = false) ∧
      ((∀ s, Reachable (Loop.Step r env T fun _ _ => True) (Loop.start r T) s → ∀ i, s.lost i = false) ↔
        T = 1 ∨ r.numberOfVariables ≤ T ∨
          ∀ i < r.numberOfVariables, r.numberOfVariables / T ≤ i → (r.pvs i).totalSize = 0) := by
  refine ⟨fun s hs => lost_of_round (fun s hinv htop hg i hi _ => ?_) hs, ?_⟩
  · obtain ⟨k, hk, hhas⟩ := chunkRange_cover (T := T) (r.vars_lt.trans (by decide)) h32 hT hi
    obtain ⟨hbegan, hdone⟩ := hg (by simp [Loop.synchronise]) k hk
    exact ⟨k, hhas, hbegan, hdone⟩
  rw [← range_zero_covers_iff hT h32]
  constructor
  · intro hall i hi hpos
    by_contra hout
    obtain ⟨s, hs, hlost⟩ := lost_reachable env hT hi hpos hout
    rw [hall s hs i] at hlost
    cases hlost
  · intro hcover s hs
    refine lost_of_round (g := fun _ _ => True) (fun s hinv htop _ i hi hpos => ?_)
      (hs.mono fun a b hab => ⟨hab, trivial⟩)
    exact ⟨0, hcover i hi hpos, hinv.began_zero, htop⟩

/-- A receiver of three PVs of two bytes. -/
def threePvs : DiodeReceiver where
  numberOfVariables := 3
  maxArraySize := 4
  maxNumberOfThreads := 1
  pvs := fun n => ⟨[65 + UInt8.ofNat n], 0, 2, 2⟩
  vars_lt := by decide
  size_lt := fun _ => by
    show 2 < 2 ^ 32
    decide

/-- A step that is no `Synchronise`. -/
theorem Loop.Step.guarded (h : Loop.Step r env T arrives s s') (hsyncs : s'.syncs = s.syncs) :
    Guarded (Loop.Step r env T arrives) (Loop.Waits r T) s s' := ⟨h, fun hne => absurd hsyncs hne⟩

/-- Three PVs and two threads: thread 1 puts the PV 2 before the next `Synchronise`. -/
theorem puts_complete_two : ∃ s,
    Reachable (Guarded (Loop.Step threePvs plainEnv 2 fun _ _ => True) (Loop.Waits threePvs 2))
      (Loop.start threePvs 2) s ∧ s.syncs = 2 ∧ s.puts = [⟨2, 0x8000, 2, List.replicate 10 1⟩] ∧
      ∀ i, s.lost i = false := by
  have hstored : Reachable (Guarded (Loop.Step threePvs plainEnv 2 fun _ _ => True) (Loop.Waits threePvs 2))
      (Loop.start threePvs 2)
      ((Loop.start threePvs 2).storeFrame threePvs plainEnv 0 2 (wholeHeader threePvs 2) fun _ => 1) :=
    Reachable.refl.next (Loop.Step.guarded (.store 0 2 _ _ trivial) rfl)
  have hcopied := (hstored.next ⟨.synchronise (Nat.le_refl 1), fun _ => by unfold Loop.AtTop; decide⟩).next
    (Loop.Step.guarded (.restart Nat.one_pos Nat.one_lt_two (Nat.le_refl 3)) rfl)
  have hscanned := ((hcopied.next (Loop.Step.guarded (.examine (k := 1) Nat.one_lt_two (by decide)) rfl)).next
    (Loop.Step.guarded (.examine (k := 0) Nat.two_pos (by decide)) rfl)).next
    (Loop.Step.guarded (.examine (k := 1) Nat.one_lt_two (by decide)) rfl)
  have hrun := hscanned.next ⟨.synchronise (Nat.le_refl 1), fun _ => by unfold Loop.AtTop; decide⟩
  exact ⟨_, hrun, rfl, rfl, (puts_complete_iff threePvs plainEnv 2 (by decide) (by decide)).1 _ hrun⟩

/-- Three PVs and two threads: thread 0 has PV 0 only, and PV 2 is lost. -/
theorem puts_lost_two : ¬ ∀ (r : DiodeReceiver) (env : Env) (T : ℕ), 0 < T → T < 2 ^ 32 →
    ∀ s, Reachable (Loop.Step r env T fun _ _ => True) (Loop.start r T) s → ∀ i, s.lost i = false := by
  intro hall
  obtain ⟨s, hs, hlost⟩ := lost_reachable (r := threePvs) (T := 2) (i := 2) plainEnv (by decide) (by decide)
    (by decide) (by decide)
  rw [hall threePvs plainEnv 2 (by decide) (by decide) s hs 2] at hlost
  cases hlost

end Hieratika.Receiver

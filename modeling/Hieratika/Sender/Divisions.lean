import Hieratika.Sender.CycleLoop
import Hieratika.Sender.Initialise
import Hieratika.Sender.SendVariables
import Hieratika.Subscriber.Divisions

/-!
# The divisions of the sender

`SetDataSource` divides by the number of PVs of a cycle, `PrioritySenderCycleLoop` takes positions modulo
the number of PVs, and `SendVariables` divides by the number of threads as well. Here the functions are
computed with the divisions checked; with divisors that are not zero they are those of the model. The
division of a time by 1000 is left out.

## What is proved

No division in subscriber and sender has a zero divisor exactly if the number of PVs of a cycle, as a
32-bit product, is not zero, and there is a PV for each thread of the subscriber, or none at all
(`no_zero_divisor_iff`).
-/

namespace Hieratika.Sender

open Foundations Subscriber Diode

variable {μ : Type}

/-! ### `SetDataSource` -/

/-- `numberOfChunks`, if the data source is accepted. -/
def Config.checkedSetDataSource (c : Config) : Option (Option ℕ) :=
  let sentPerCycle := u32 (c.numberOfPoolThreads * c.numberOfSignalToBeSent)
  if sentPerCycle ≤ c.numberOfVariables then do
    let numberOfChunks ← checkedDiv c.numberOfVariables sentPerCycle
    let rest ← checkedMod c.numberOfVariables sentPerCycle
    return some (numberOfChunks + if 0 < rest then 1 else 0)
  else some none

/-! ### `PrioritySenderCycleLoop` -/

/-- `queueIndex`. -/
def Config.checkedQueueIndex (c : Config) (currentIdx x : ℕ) : Option ℕ :=
  checkedMod (u32 (currentIdx + x)) c.numberOfVariables

/-- `pushForward`. -/
def Config.checkedPushForward (c : Config) (currentIdx pvSize : ℕ) : ℕ → (ℕ → ℕ) → Option (ℕ → ℕ)
  | 0, list => some list
  | j + 1, list => do
    let jIndex ← c.checkedQueueIndex currentIdx (j + 1)
    let prevJIndex := if jIndex = 0 then c.numberOfVariables - 1 else jIndex - 1
    if pvSize < (c.pvDes prevJIndex).totalSize then
      c.checkedPushForward currentIdx pvSize j (exchange list prevJIndex jIndex)
    else some list

/-- `sweepAt`. -/
def Config.checkedSweepAt (c : Config) (m : Main μ) (i : ℕ) : Option (Main μ) := do
  let index ← c.checkedQueueIndex m.currentIdx i
  let signalIdx := m.indexList index
  if m.changeFlag signalIdx then do
    let nextIndex ← c.checkedQueueIndex m.currentIdx i
    let pvSize := (c.pvDes nextIndex).totalSize
    let prevIndex ← c.checkedQueueIndex m.currentIdx m.currentChangePos
    let list ← c.checkedPushForward m.currentIdx pvSize m.currentChangePos
      (exchange m.indexList prevIndex nextIndex)
    return { m with
      indexList := list
      nVariables := u32 (m.nVariables + 1)
      currentChangePos := u32 (m.currentChangePos + 1) }
  else some m

/-- `fitBudget`. -/
def Config.checkedFitBudget (c : Config) (currentIdx : ℕ) : (left nVariables totalSize : ℕ) → Option ℕ
  | 0, nVariables, _ => some nVariables
  | left + 1, nVariables, totalSize => do
    let nextIndex ← c.checkedQueueIndex currentIdx nVariables
    let total := u32 (totalSize + (c.pvDes nextIndex).totalSize)
    if c.maxBytesPerCycle < total then some (if 0 < nVariables then nVariables - 1 else nVariables)
    else c.checkedFitBudget currentIdx left (nVariables + 1) total

/-- `finishPlan`. -/
def Main.checkedFinishPlan (c : Config) (m : Main μ) : Option (Main μ) := do
  let m := m.clamp c
  let nVariables ← c.checkedFitBudget m.currentIdx m.nVariables 0 0
  return { m with nVariables }

/-- `dispatch`. -/
def Main.checkedDispatch (c : Config) (m : Main μ) : Option (Main μ) := do
  let currentIdx ← checkedMod (u32 (m.currentIdx + m.nVariables)) c.numberOfVariables
  return { m with
    memoryThreads := m.memory
    indexListThreads := m.indexList
    currentIdxThreads := m.currentIdx
    currentIdx
    numberOfChangedVariables := m.nVariables
    changed := false
    sendCounter := u32 (m.sendCounter + 1) }

/-- What the loop computes with a division where it is. -/
def Loop.checkedTurn (c : Config) (s : Loop μ) : Option (Main μ) :=
  match s.pc with
  | .sweep i _ => if i < c.numberOfVariables then c.checkedSweepAt s.main i else some s.main
  | .chosen _ _ => s.main.checkedFinishPlan c
  | .ready true => s.main.checkedDispatch c
  | _ => some s.main

/-! ### `SendVariables` -/

/-- `nVarsPerThread`. -/
def Main.checkedNVarsPerThread (c : Config) (m : Main μ) (threadId : ℕ) : Option ℕ := do
  let nVarsPerThread ← checkedDiv m.numberOfChangedVariables c.numberOfPoolThreads
  if threadId = sub32 c.numberOfPoolThreads 1 then do
    let rest ← checkedMod m.numberOfChangedVariables c.numberOfPoolThreads
    return u32 (nVarsPerThread + rest)
  else some nVarsPerThread

/-- `takeSlice`, for a slice of `nVarsPerThread`. -/
def Main.checkedTakeSlice (c : Config) (m : Main μ) (nVarsPerThread : ℕ) : Option (Main μ) := do
  let currentIdxThreads ← checkedMod (u32 (m.currentIdxThreads + nVarsPerThread)) c.numberOfVariables
  return { m with currentIdxThreads }

section

variable (c : Config) (w : Wire) (memoryThreads : Memory) (indexListThreads : ℕ → ℕ) (n : ℕ)

/-- `sendEntry`; the frames of a PV are written without a division. -/
def checkedSendEntry (st : Send) : Option Send :=
  let signalIndex := indexListThreads st.listIndex
  let pv := c.pvDes signalIndex
  let (st', frames) :=
    if 0 < pv.numberOfElements ∧ 0 < pv.memorySize then
      let (st', frames) := sendPv c w memoryThreads n signalIndex st []
      (if pv.totalSize ≤ st'.varOffset then { st' with varOffset := 0 } else st', frames)
    else ({ st with i := st.i + 1 }, [])
  do
    let listIndex ← checkedMod (u32 (st'.listIndex + 1)) c.numberOfVariables
    return { st' with
      listIndex
      cntVariables := st'.cntVariables + 1
      out := st'.out ++ [frames] }

/-- `sendMessage`. -/
def checkedSendMessage : (left : ℕ) → Send → Option Send
  | 0, st => some st
  | left + 1, st =>
    if st.condition n then do
      let st' ← checkedSendEntry c w memoryThreads indexListThreads n st
      checkedSendMessage left st'
    else some st

/-- `sendMessages`. -/
def checkedSendMessages : (left : ℕ) → Send → Option Send
  | 0, st => some st
  | left + 1, st =>
    if st.cntVariables < n ∧ st.err = false then
      if w.header st.cntVariables then do
        let st' ← checkedSendMessage c w memoryThreads indexListThreads n (n - st.cntVariables)
          { st with i := 0 }
        checkedSendMessages left { st' with err := st'.err || !w.finish st.cntVariables }
      else some { st with err := true }
    else some st

end

/-- `SendVariables` in a thread: the slice, and the frames it writes. -/
def Main.checkedSend (c : Config) (w : Wire) (m : Main Memory) (threadId : ℕ) :
    Option (Main Memory × Send) := do
  let n ← m.checkedNVarsPerThread c threadId
  let m' ← m.checkedTakeSlice c n
  let st ← checkedSendMessages c w m.memoryThreads m.indexListThreads n n ⟨0, m.currentIdxThreads, 0, 0,
    false, []⟩
  return (m', st)

/-! ### With divisors -/

variable {c : Config} {m : Main μ} {s s' : Loop μ}

section

variable (hn : 0 < c.numberOfVariables)
include hn

theorem checkedQueueIndex_eq (currentIdx x : ℕ) :
    c.checkedQueueIndex currentIdx x = some (c.queueIndex currentIdx x) :=
  checkedMod_of_pos hn _

theorem checkedPushForward_eq (currentIdx pvSize : ℕ) : ∀ (j : ℕ) (list : ℕ → ℕ),
    c.checkedPushForward currentIdx pvSize j list = some (c.pushForward currentIdx pvSize j list)
  | 0, _ => rfl
  | j + 1, list => by
    simp only [Config.checkedPushForward, Config.pushForward, checkedQueueIndex_eq hn,
      checkedPushForward_eq currentIdx pvSize j,
      Option.bind_eq_bind, Option.bind_some]
    rw [apply_ite some]

theorem checkedSweepAt_eq (m : Main μ) (i : ℕ) : c.checkedSweepAt m i = some (c.sweepAt m i) := by
  simp only [Config.checkedSweepAt, Config.sweepAt, checkedQueueIndex_eq hn, checkedPushForward_eq hn,
    Option.bind_eq_bind,
    Option.bind_some, Option.pure_def]
  rw [apply_ite some]

theorem checkedFitBudget_eq (currentIdx : ℕ) : ∀ left nVariables totalSize : ℕ,
    c.checkedFitBudget currentIdx left nVariables totalSize =
      some (c.fitBudget currentIdx left nVariables totalSize)
  | 0, _, _ => rfl
  | left + 1, nVariables, totalSize => by
    simp only [Config.checkedFitBudget, Config.fitBudget, checkedQueueIndex_eq hn,
      checkedFitBudget_eq currentIdx left,
      Option.bind_eq_bind, Option.bind_some]
    split_ifs <;> rfl

theorem checkedFinishPlan_eq (m : Main μ) : m.checkedFinishPlan c = some (m.finishPlan c) := by
  unfold Main.checkedFinishPlan
  dsimp only
  rw [checkedFitBudget_eq hn]
  rfl

theorem checkedDispatch_eq (m : Main μ) : m.checkedDispatch c = some (m.dispatch c) := by
  unfold Main.checkedDispatch
  rw [checkedMod_of_pos hn]
  rfl

/-- Where the loop divides, it computes what the model does. -/
theorem checkedTurn_isSome (s : Loop μ) : (s.checkedTurn c).isSome := by
  unfold Loop.checkedTurn
  split
  · split_ifs
    · rw [checkedSweepAt_eq hn]
      rfl
    · rfl
  · rw [checkedFinishPlan_eq hn]
    rfl
  · rw [checkedDispatch_eq hn]
    rfl
  · rfl

theorem checkedSendEntry_eq (w : Wire) (memoryThreads : Memory) (indexListThreads : ℕ → ℕ) (n : ℕ)
    (st : Send) :
    checkedSendEntry c w memoryThreads indexListThreads n st =
      some (sendEntry c w memoryThreads indexListThreads n st) := by
  unfold checkedSendEntry sendEntry
  dsimp only
  rw [checkedMod_of_pos hn]
  rfl

theorem checkedSendMessage_eq (w : Wire) (memoryThreads : Memory) (indexListThreads : ℕ → ℕ) (n : ℕ) :
    ∀ (left : ℕ) (st : Send),
    checkedSendMessage c w memoryThreads indexListThreads n left st =
      some (sendMessage c w memoryThreads indexListThreads n left st)
  | 0, _ => rfl
  | left + 1, st => by
    simp only [checkedSendMessage, sendMessage, checkedSendEntry_eq hn, Option.bind_eq_bind, Option.bind_some,
      checkedSendMessage_eq w memoryThreads indexListThreads n left]
    rw [apply_ite some]

theorem checkedSendMessages_eq (w : Wire) (memoryThreads : Memory) (indexListThreads : ℕ → ℕ) (n : ℕ) :
    ∀ (left : ℕ) (st : Send),
    checkedSendMessages c w memoryThreads indexListThreads n left st =
      some (sendMessages c w memoryThreads indexListThreads n left st)
  | 0, _ => rfl
  | left + 1, st => by
    simp only [checkedSendMessages, sendMessages, checkedSendMessage_eq hn, Option.bind_eq_bind,
      Option.bind_some,
      checkedSendMessages_eq w memoryThreads indexListThreads n left]
    rw [apply_ite some, apply_ite some]

/-- A thread of the pool comes to the end of `SendVariables`, with its slice taken. -/
theorem checkedSend_eq (hpool : 0 < c.numberOfPoolThreads) (w : Wire) (m : Main Memory) (threadId : ℕ) :
    m.checkedSend c w threadId =
      some (m.takeSlice c threadId, sendVariables c w m.memoryThreads m.indexListThreads
      (m.nVarsPerThread c threadId) m.currentIdxThreads) := by
  have hshare : m.checkedNVarsPerThread c threadId = some (m.nVarsPerThread c threadId) := by
    unfold Main.checkedNVarsPerThread Main.nVarsPerThread
    rw [checkedDiv_of_pos hpool, checkedMod_of_pos hpool]
    simp only [Option.bind_eq_bind, Option.bind_some, Option.pure_def]
    rw [apply_ite some]
  have hslice : m.checkedTakeSlice c (m.nVarsPerThread c threadId) = some (m.takeSlice c threadId) := by
    unfold Main.checkedTakeSlice
    rw [checkedMod_of_pos hn]
    rfl
  unfold Main.checkedSend
  simp only [hshare, hslice, checkedSendMessages_eq hn, Option.bind_eq_bind, Option.bind_some]
  rfl

end

/-! ### The configuration -/

/-- The checked `SetDataSource` is that of the model, unless the product is zero. -/
theorem checkedSetDataSource_eq (c : Config) : c.checkedSetDataSource =
    if u32 (c.numberOfPoolThreads * c.numberOfSignalToBeSent) = 0 then none
    else some (if c.setDataSource then some c.numberOfChunks else none) := by
  unfold Config.checkedSetDataSource Config.setDataSource Config.numberOfChunks
  dsimp only
  generalize u32 (c.numberOfPoolThreads * c.numberOfSignalToBeSent) = sentPerCycle
  by_cases hzero : sentPerCycle = 0
  · subst hzero
    rfl
  · have hpos : 0 < sentPerCycle := Nat.pos_of_ne_zero hzero
    rw [if_neg hzero, checkedDiv_of_pos hpos, checkedMod_of_pos hpos]
    by_cases hle : sentPerCycle ≤ c.numberOfVariables
    · simp only [hle, if_true, decide_true]
      rfl
    · simp only [hle, if_false, decide_false, Bool.false_eq_true]

/-- No division of the subscriber, of `SetDataSource` and, if it accepts, of the loop and the pool
has a zero divisor. -/
structure NoZeroDivisor (subscriber : Setup) (c : Config) : Prop where
  subscriber : subscriber.DivisionsDefined
  setDataSource : c.checkedSetDataSource.isSome
  cycleLoop : c.setDataSource = true → ∀ (memory memoryThreads : Memory) (flags : ℕ → Bool) (s : Loop Memory),
    Reachable (Loop.Step c) (.start memory memoryThreads flags) s → (s.checkedTurn c).isSome
  sendVariables :
    c.setDataSource = true → ∀ (w : Wire) (m : Main Memory) (threadId : ℕ),
    (m.checkedSend c w threadId).isSome

theorem no_zero_divisor_of (c : Config) {subscriber : Setup} (hsubscriber : subscriber.DivisionsDefined)
    (hpool : 0 < c.numberOfPoolThreads) (hne : u32 (c.numberOfPoolThreads * c.numberOfSignalToBeSent) ≠ 0) :
    NoZeroDivisor subscriber c := by
  have hpos : c.setDataSource = true → 0 < c.numberOfVariables := fun h =>
    (Nat.pos_of_ne_zero hne).trans_le (of_decide_eq_true h)
  refine ⟨hsubscriber, ?_, fun h _ _ _ s _ => checkedTurn_isSome (hpos h) s, fun h w m threadId => ?_⟩
  · rw [checkedSetDataSource_eq, if_neg hne]
    rfl
  · rw [checkedSend_eq (hpos h) hpool]
    rfl

/-- The product is a divisor of `SetDataSource`. -/
theorem NoZeroDivisor.sentPerCycle {subscriber : Setup} (h : NoZeroDivisor subscriber c) :
    u32 (c.numberOfPoolThreads * c.numberOfSignalToBeSent) ≠ 0 := by
  intro hzero
  have hsome := h.setDataSource
  rw [checkedSetDataSource_eq, if_pos hzero] at hsome
  cases hsome

/-- **No division by zero**: a PV for each thread of the subscriber, or none, and a cycle whose PVs
are not zero as a 32-bit product. -/
theorem no_zero_divisor_iff {p : Parameters} {settings : Settings} (hinit : p.initialise = .ok settings)
    (subscriber : Setup)
    (hsub : 0 < subscriber.numberOfPoolThreads) (hlt : subscriber.numberOfPoolThreads < 2 ^ 32)
    (numberOfPoolThreads : ℕ) (hpool : 0 < numberOfPoolThreads) (pvDes : ℕ → PvDescriptor) :
    NoZeroDivisor subscriber (settings.config numberOfPoolThreads subscriber.numberOfVariables pvDes) ↔
      (subscriber.numberOfVariables = 0 ∨ subscriber.numberOfPoolThreads ≤ subscriber.numberOfVariables) ∧
        ∀ signals ∈ p.numberOfSignalPerThread, u32 (numberOfPoolThreads * signals) ≠ 0 := by
  have hsignals : p.numberOfSignalPerThread = some settings.numberOfSignalToBeSent := (initialise_ok hinit).1
  rw [hsignals]
  constructor
  · intro h
    refine ⟨(divisions_defined_iff hsub hlt).mp h.subscriber, fun signals hmem => ?_⟩
    cases hmem
    exact h.sentPerCycle
  · rintro ⟨hmany, hne⟩
    exact no_zero_divisor_of _ ((divisions_defined_iff hsub hlt).mpr hmany) hpool (hne _ rfl)

/-- The parameters that must be given, with so many signals for a thread. -/
def minimalParameters (numberOfSignalPerThread : ℕ) : Parameters :=
  ⟨some numberOfSignalPerThread, some [], some 0, some 1, some 1, none, none, none, none⟩

/-- What `Initialise` makes of them. -/
def minimalSettings (numberOfSignalPerThread : ℕ) : Settings :=
  ⟨numberOfSignalPerThread, 0xFFFFFFFF, 0xFFFFFFFF, 120, 0⟩

/-- Four PVs, one of them without elements, for two threads on each side, which send in two cycles. -/
theorem no_zero_divisor_four :
    NoZeroDivisor fourChannels ((minimalSettings 1).config 2 fourChannels.numberOfVariables fun i =>
      [⟨[80, 48], 1, 8, 0, 9⟩, ⟨[80, 49], 0, 8, 16, 9⟩, ⟨[80, 50], 2, 4, 24, 4⟩].getD i
        ⟨[80, 51], 1, 8, 40, 9⟩) := by
  refine (no_zero_divisor_iff (p := minimalParameters 1) rfl fourChannels (by decide) (by decide) 2
    (by decide) _).mpr ⟨.inr (by decide), ?_⟩
  intro signals hmem
  cases hmem
  decide

/-- One connected PV of one double, and one thread. -/
def oneDouble : Setup := ⟨1, 1, 20000, fun _ => [80], fun _ => ⟨true, 1, .double⟩⟩

/-- No signal for a thread of the sender, or one PV for two threads of the subscriber: `Initialise`
accepts both, and both divide by zero. -/
theorem zero_divisor :
    ((minimalParameters 0).initialise = .ok (minimalSettings 0) ∧ ∀ pvDes : ℕ → PvDescriptor,
      ¬ NoZeroDivisor oneDouble ((minimalSettings 0).config 1 oneDouble.numberOfVariables pvDes)) ∧
    ((minimalParameters 1).initialise = .ok (minimalSettings 1) ∧ ∀ pvDes : ℕ → PvDescriptor,
      ¬ NoZeroDivisor { oneDouble with numberOfPoolThreads := 2 }
        ((minimalSettings 1).config 1 oneDouble.numberOfVariables pvDes)) := by
  have hzero : u32 (1 * 0) = 0 := by decide
  refine ⟨⟨rfl, fun pvDes h => h.sentPerCycle hzero⟩, rfl, fun pvDes h => ?_⟩
  have hmany := (divisions_defined_iff (by decide) (by decide)).mp h.subscriber
  exact absurd hmany (by decide)

end Hieratika.Sender

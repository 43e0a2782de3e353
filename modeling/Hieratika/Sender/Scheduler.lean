import Hieratika.Foundations.Ring
import Hieratika.Subscriber.Descriptors

/-!
# The sender's main loop

`PrioritySenderCycleLoop` as a function on its state, one definition for each part of a
turn:

* `Main.synchronise`, `Main.select`, `Main.clamp`, `Main.budget`, `Main.settle` are the
  block `if (!changed)`, in this order (`prepare`);
* `dispatch` is the block `if (nThreadsFinishedTmp == arg.numberOfPoolThreads)` and the
  `sendCounter++` that follows it in the same turn.

The queue `indexList` is a function from positions to PV indices, exchanged in place as in
the source; positions are computed in 32 bits and taken modulo the number of PVs. The
memory snapshot is copied as a whole and never looked into here, so its type `μ` is left
open.
-/

namespace Hieratika.Sender

open Foundations Subscriber

/-- The parameters of `PrioritySender` that the loop and the pool threads read, and the
descriptors of the data source. -/
structure Config where
  /-- `numberOfVariables`. -/
  numberOfVariables : ℕ
  /-- `numberOfSignalToBeSent`: PVs for each thread and cycle. -/
  numberOfSignalToBeSent : ℕ
  /-- `numberOfPoolThreads`. -/
  numberOfPoolThreads : ℕ
  /-- `maxBytesPerCycle`; `0xFFFFFFFF` is the default, no limit. -/
  maxBytesPerCycle : ℕ
  /-- `maxVarSize`: the most value bytes in one frame. -/
  maxVarSize : ℕ
  /-- `resetCounter`. -/
  resetCounter : ℕ
  /-- `sendOnlyChanged != 0`. -/
  sendOnlyChanged : Bool
  /-- `dataSource->GetPvDescriptors()`. -/
  pvDes : ℕ → PvDescriptor

/-- `numberOfSignalToBeSent * numberOfPoolThreads`: the PVs of one cycle. -/
def Config.maxSignalPerThread (c : Config) : ℕ :=
  u32 (c.numberOfSignalToBeSent * c.numberOfPoolThreads)

/-- `numberOfChunks` of `SetDataSource`: how many cycles send every PV once. -/
def Config.numberOfChunks (c : Config) : ℕ :=
  let sentPerCycle := u32 (c.numberOfPoolThreads * c.numberOfSignalToBeSent)
  c.numberOfVariables / sentPerCycle + if 0 < c.numberOfVariables % sentPerCycle then 1 else 0

/-- `SetDataSource` accepts the data source: `numberOfVariables >= sentPerCycle`. -/
def Config.setDataSource (c : Config) : Bool :=
  u32 (c.numberOfPoolThreads * c.numberOfSignalToBeSent) ≤ c.numberOfVariables

/-- The members and local variables of the main loop. -/
structure Main (μ : Type*) where
  /-- `changed`: a cycle is prepared and not yet dispatched. -/
  changed : Bool
  /-- `nVariables`. -/
  nVariables : ℕ
  /-- `sendCounter`. -/
  sendCounter : ℕ
  /-- `memory`: the last snapshot. -/
  memory : μ
  /-- `changeFlag[i] == 1` in the last snapshot. -/
  changeFlag : ℕ → Bool
  /-- `indexList`: which PV is at a position of the queue. -/
  indexList : ℕ → ℕ
  /-- `currentIdx`. -/
  currentIdx : ℕ
  /-- `currentChangePos`. -/
  currentChangePos : ℕ
  /-- `chunckCounter`. -/
  chunckCounter : ℕ
  /-- `memoryThreads`: the snapshot the pool threads send. -/
  memoryThreads : μ
  /-- `indexListThreads`: the queue the pool threads send. -/
  indexListThreads : ℕ → ℕ
  /-- `currentIdxThreads`: where the next slice starts. -/
  currentIdxThreads : ℕ
  /-- `numberOfChangedVariables`: how many PVs the round sends. -/
  numberOfChangedVariables : ℕ

variable {μ : Type*}

/-- The state when the loop starts: `SetDataSource` has filled both queues with `0, 1, ...`
and `Start` has taken a first snapshot. -/
def Main.start (memory memoryThreads : μ) (flags : ℕ → Bool) : Main μ where
  changed := false
  nVariables := 0
  sendCounter := 0
  memory := memory
  changeFlag := flags
  indexList := id
  currentIdx := 0
  currentChangePos := 0
  chunckCounter := 0
  memoryThreads := memoryThreads
  indexListThreads := id
  currentIdxThreads := 0
  numberOfChangedVariables := 0

/-- `dataSource->Synchronise(arg.memory, arg.changeFlag)`, with what it copies out. -/
def Main.synchronise (m : Main μ) (snapshot : μ) (flags : ℕ → Bool) : Main μ :=
  { m with memory := snapshot, changeFlag := flags }

/-! ### The priority sweep -/

/-- `(arg.currentIdx + x) % arg.numberOfVariables`. -/
def Config.queueIndex (c : Config) (currentIdx x : ℕ) : ℕ := u32 (currentIdx + x) % c.numberOfVariables

/-- The inner loop: from `j` down, exchange an entry with the one before it while the descriptor
at the position before is larger than `pvSize`. -/
def Config.pushForward (c : Config) (currentIdx pvSize : ℕ) : ℕ → (ℕ → ℕ) → ℕ → ℕ
  | 0, list => list
  | j + 1, list =>
    let jIndex := c.queueIndex currentIdx (j + 1)
    let prevJIndex := if jIndex = 0 then c.numberOfVariables - 1 else jIndex - 1
    if pvSize < (c.pvDes prevJIndex).totalSize then
      c.pushForward currentIdx pvSize j (exchange list prevJIndex jIndex)
    else list

/-- The body of the sweep for one `i`. -/
def Config.sweepAt (c : Config) (m : Main μ) (i : ℕ) : Main μ :=
  let index := c.queueIndex m.currentIdx i
  let signalIdx := m.indexList index
  if m.changeFlag signalIdx then
    let nextIndex := c.queueIndex m.currentIdx i
    let pvSize := (c.pvDes nextIndex).totalSize
    let prevIndex := c.queueIndex m.currentIdx m.currentChangePos
    let list := exchange m.indexList prevIndex nextIndex
    { m with
      indexList := c.pushForward m.currentIdx pvSize m.currentChangePos list
      nVariables := u32 (m.nVariables + 1)
      currentChangePos := u32 (m.currentChangePos + 1) }
  else m

/-- The first `k` turns of the sweep. -/
def Config.sweep (c : Config) (m : Main μ) (k : ℕ) : Main μ := (List.range k).foldl c.sweepAt m

/-! ### Preparing and dispatching a cycle -/

/-- The priority branch: the pending PVs and those that have changed come first. -/
def Main.priority (c : Config) (m : Main μ) : Main μ :=
  c.sweep { m with nVariables := m.currentChangePos } c.numberOfVariables

/-- The FIFO branch: one more cycle of the trip, the queue as it is. -/
def Main.fifo (c : Config) (m : Main μ) : Main μ :=
  { m with nVariables := c.maxSignalPerThread, chunckCounter := u32 (m.chunckCounter + 1) }

/-- The choice between the two, on the `chunckCounter` read at the top of the turn. -/
def Main.select (c : Config) (chunkCounterRead : ℕ) (m : Main μ) : Main μ :=
  if c.numberOfChunks ≤ chunkCounterRead then m.priority c else m.fifo c

/-- The two bounds on `nVariables` after the choice. -/
def Main.clamp (c : Config) (m : Main μ) : Main μ :=
  let n := if c.sendOnlyChanged then m.nVariables else c.maxSignalPerThread
  { m with nVariables := if c.maxSignalPerThread < n then c.maxSignalPerThread else n }

/-- The loop that adds up sizes until the byte budget is exceeded; `left` PVs are still to be
checked. -/
def Config.fitBudget (c : Config) (currentIdx : ℕ) : (left nVariables totalSize : ℕ) → ℕ
  | 0, nVariables, _ => nVariables
  | left + 1, nVariables, totalSize =>
    let nextIndex := c.queueIndex currentIdx nVariables
    let total := u32 (totalSize + (c.pvDes nextIndex).totalSize)
    if c.maxBytesPerCycle < total then
      if 0 < nVariables then nVariables - 1 else nVariables
    else c.fitBudget currentIdx left (nVariables + 1) total

/-- The byte budget. -/
def Main.budget (c : Config) (m : Main μ) : Main μ :=
  { m with nVariables := c.fitBudget m.currentIdx m.nVariables 0 0 }

/-- What stays pending once `nVariables` PVs are sent. -/
def Main.pending (m : Main μ) : ℕ :=
  if m.nVariables < m.currentChangePos then m.currentChangePos - m.nVariables else 0

/-- `tooManyChanged || (sendCounter >= arg.resetCounter)`: the cycle starts a new FIFO trip. -/
def Main.restarts (c : Config) (m : Main μ) : Bool :=
  sub32 c.numberOfVariables c.maxSignalPerThread < m.pending || c.resetCounter ≤ m.sendCounter

/-- The end of the preparation: the pending count, and the new trip if there is one. -/
def Main.settle (c : Config) (m : Main μ) : Main μ :=
  if m.restarts c then { m with currentChangePos := 0, chunckCounter := 0, changed := true }
  else { m with currentChangePos := m.pending, changed := true }

/-- The preparation up to the byte budget. -/
def Main.plan (c : Config) (m : Main μ) (snapshot : μ) (flags : ℕ → Bool) : Main μ :=
  (((m.synchronise snapshot flags).select c m.chunckCounter).clamp c).budget c

/-- The block `if (!changed)`, when no pool thread reconnects during it. -/
def Main.prepare (c : Config) (m : Main μ) (snapshot : μ) (flags : ℕ → Bool) : Main μ :=
  (m.plan c snapshot flags).settle c

/-- The block run when every thread has finished: the snapshot and the queue go to the pool. -/
def Main.dispatch (c : Config) (m : Main μ) : Main μ :=
  { m with
    memoryThreads := m.memory
    indexListThreads := m.indexList
    currentIdxThreads := m.currentIdx
    currentIdx := u32 (m.currentIdx + m.nVariables) % c.numberOfVariables
    numberOfChangedVariables := m.nVariables
    changed := false
    sendCounter := u32 (m.sendCounter + 1) }

end Hieratika.Sender

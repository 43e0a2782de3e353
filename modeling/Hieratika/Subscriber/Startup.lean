import Hieratika.Foundations.Bytes
import Hieratika.Foundations.Runs
import Hieratika.Foundations.Scan
import Hieratika.Subscriber.Descriptors
import Hieratika.Workers.Ranges
import Mathlib.Algebra.BigOperators.Intervals

/-!
# The start of the subscriber

`EpicsParserAndSubscriber::Execute` runs in every thread of the pool: the thread takes its range,
`FillMemorySizes` sizes the PVs of the range and places them in a block of memory of the thread's
own, `CreateSubscriptions` subscribes to them, and the thread that finishes last turns the offsets,
local to the blocks, into offsets in the memory that `Synchronise` puts together.

## The model

The threads take their steps in any order; from the subscription on, the callbacks of a PV run in
between, as does `Synchronise`. `FillMemorySizes` is one step: it touches the PVs of its range and
the block of its thread. A pointer is a block and a position in it. `memorySize` and `offset` are
`uint64`, here natural numbers; `memoryOffset` and the `offset` of `Synchronise` are `uint32`.
-/

namespace Hieratika.Subscriber

open Foundations Workers

/-! ### What EPICS says about a PV -/

/-- The field types that `cainfo` tells apart. -/
inductive FieldType where
  | double | float | long | ulong | short | ushort | char | uchar | string
  /-- Any other name, `DBF_ENUM` among them. -/
  | other
  deriving DecidableEq

/-- `memorySize` and `typeId` in `cainfo`; `MAX_STRING_SIZE` is 40. -/
def FieldType.info : FieldType → ℕ × UInt8
  | .double => (8, 9)
  | .float => (4, 8)
  | .long => (4, 4)
  | .ulong => (4, 5)
  | .short => (2, 2)
  | .ushort => (2, 3)
  | .char => (1, 0)
  | .uchar => (1, 1)
  | .string => (40, 10)
  | .other => (8, 9)

/-- What `ca_state`, `ca_element_count` and `ca_field_type` answer. -/
structure Channel where
  connected : Bool
  elementCount : ℕ
  fieldType : FieldType

/-- What the subscriber is started with. -/
structure Setup where
  numberOfVariables : ℕ
  numberOfPoolThreads : ℕ
  maxArraySize : ℕ
  pvName : ℕ → List UInt8
  channel : ℕ → Channel

/-- `nVarsPerChunk`. -/
def Setup.nVarsPerChunk (c : Setup) : ℕ := Workers.nVarsPerChunk c.numberOfVariables c.numberOfPoolThreads

/-- The range of a thread. -/
def Setup.range (c : Setup) (t : ℕ) : Range := executeRange c.numberOfVariables c.numberOfPoolThreads t

/-! ### The state -/

/-- A position in the block of a thread. -/
structure Pointer where
  block : ℕ
  pos : ℕ

/-- A descriptor with its pointers. -/
structure Pv extends PvDescriptor where
  memory : Pointer
  timeStamp : Pointer

/-- How far a thread is. -/
inductive Stage where
  /-- Before `FillMemorySizes`. -/
  | fill
  /-- In the loop of `CreateSubscriptions`, before the PV `i`. -/
  | subscribe (i : ℕ)
  | done
  deriving DecidableEq

/-- The subscriber. -/
structure Startup where
  pvDescriptor : ℕ → Pv
  /-- Per thread. -/
  memorySize : ℕ → ℕ
  /-- Per thread. -/
  memory : ℕ → Memory
  changedFlagMem : ℕ → Bool
  initialisationDone : ℕ
  stage : ℕ → Stage
  /-- EPICS may call back for the PV. -/
  subscribed : ℕ → Bool
  /-- The bytes the last `GetValueCallback` of a PV copied. -/
  lastValue : ℕ → Option (List UInt8)
  /-- The bytes the last `GetTimeoutCallback` of a PV copied. -/
  lastTimeStamp : ℕ → Option (List UInt8)

/-- After `ParseAndSubscribe`. -/
def Startup.start (c : Setup) : Startup where
  pvDescriptor i := ⟨⟨c.pvName i, 0, 0, 0, 0⟩, ⟨0, 0⟩, ⟨0, 0⟩⟩
  memorySize _ := 0
  memory _ _ := 0
  changedFlagMem _ := false
  initialisationDone := 0
  stage _ := .fill
  subscribed _ := false
  lastValue _ := none
  lastTimeStamp _ := none

/-! ### `FillMemorySizes` -/

/-- `cainfo`: the fields it fills in. -/
def cainfo (ch : Channel) (pv : Pv) : Pv :=
  { pv with numberOfElements := if ch.connected then ch.elementCount else 0
            memorySize := ch.fieldType.info.1
            typeId := ch.fieldType.info.2 }

/-- A turn of the first loop, with `memorySize[threadId]`; `sizeof(epicsTimeStamp)` is 8. -/
def countPv (c : Setup) (i : ℕ) (pv : Pv) (memorySize : ℕ) : Pv × ℕ :=
  let pv := cainfo (c.channel i) pv
  if c.maxArraySize < pv.numberOfElements then ({ pv with numberOfElements := 0 }, memorySize)
  else (pv, memorySize + (pv.totalSize + 8))

/-- A turn of the second loop, with `memoryOffset`. -/
def placePv (threadId : ℕ) (_ : ℕ) (pv : Pv) (memoryOffset : ℕ) : Pv × ℕ :=
  ({ pv with memory := ⟨threadId, memoryOffset⟩
             offset := memoryOffset
             timeStamp := ⟨threadId, memoryOffset + pv.totalSize⟩ },
    if 0 < pv.numberOfElements then u32 (memoryOffset + (pv.totalSize + 8)) else memoryOffset)

/-- `FillMemorySizes`. -/
def Startup.fillMemorySizes (c : Setup) (s : Startup) (beg stop threadId : ℕ) : Startup :=
  let counted := scan (countPv c) beg stop (s.pvDescriptor, s.memorySize threadId)
  let placed := scan (placePv threadId) beg stop (counted.1, 0)
  { s with pvDescriptor := placed.1
           memorySize := Function.update s.memorySize threadId counted.2
           memory := Function.update s.memory threadId fun _ => 0 }

/-! ### `CreateSubscriptions` -/

/-- Bytes copied to where a pointer points. -/
def Startup.copyTo (s : Startup) (p : Pointer) (bytes : List UInt8) : Startup :=
  { s with memory := Function.update s.memory p.block (writeAt (s.memory p.block) p.pos bytes) }

/-- A turn of the loop: `ca_array_get` (`get` is what it brings, if anything) and the two
subscriptions. -/
def Startup.subscribePv (s : Startup) (i : ℕ) (get : Option Memory) : Startup :=
  let pv := s.pvDescriptor i
  if 0 < pv.numberOfElements then
    let s := match get with
      | none => s
      | some m => s.copyTo pv.memory (readAt m 0 pv.totalSize)
    { s with subscribed := Function.update s.subscribed i true }
  else s

/-- A turn of the loop that remaps the offsets, with `memCnt`. -/
def remapPv (c : Setup) (memorySize : ℕ → ℕ) (i : ℕ) (pv : Pv) (memCnt : ℕ) : Pv × ℕ :=
  let memCnt := if i % c.nVarsPerChunk = 0 ∧ 0 < i then u32 (memCnt + 1) else memCnt
  let memCnt := if sub32 c.numberOfPoolThreads 1 < memCnt then sub32 c.numberOfPoolThreads 1 else memCnt
  ({ pv with offset := pv.offset + ∑ k ∈ Finset.range memCnt, memorySize k }, memCnt)

/-- The descriptors after the locked section at the end: the last thread remaps the offsets. -/
def Startup.remapped (c : Setup) (s : Startup) : ℕ → Pv :=
  if sub32 c.numberOfPoolThreads 1 ≤ s.initialisationDone then
    (scan (remapPv c s.memorySize) 0 c.numberOfVariables (s.pvDescriptor, 0)).1
  else s.pvDescriptor

/-- The descriptors and the counter set. -/
def Startup.counting (s : Startup) (pvDescriptor : ℕ → Pv) (initialisationDone : ℕ) : Startup :=
  { s with pvDescriptor := pvDescriptor, initialisationDone := initialisationDone }

/-- The locked section. -/
def Startup.finish (c : Setup) (s : Startup) : Startup :=
  s.counting (s.remapped c) (u32 (s.initialisationDone + 1))

/-- What the locked section leaves alone. -/
structure Startup.Frame (s s' : Startup) : Prop where
  memorySize : s'.memorySize = s.memorySize
  memory : s'.memory = s.memory
  stage : s'.stage = s.stage
  subscribed : s'.subscribed = s.subscribed
  lastValue : s'.lastValue = s.lastValue
  lastTimeStamp : s'.lastTimeStamp = s.lastTimeStamp

theorem Startup.counting_frame (s : Startup) (pv : ℕ → Pv) (n : ℕ) : Startup.Frame s (s.counting pv n) :=
  ⟨rfl, rfl, rfl, rfl, rfl, rfl⟩

theorem Startup.finish_frame (c : Setup) (s : Startup) : Startup.Frame s (s.finish c) := by
  unfold Startup.finish
  exact s.counting_frame _ _

theorem Startup.counting_pvDescriptor (s : Startup) (pv : ℕ → Pv) (n : ℕ) :
    (s.counting pv n).pvDescriptor = pv := rfl

theorem Startup.counting_initialisationDone (s : Startup) (pv : ℕ → Pv) (n : ℕ) :
    (s.counting pv n).initialisationDone = n := rfl

theorem Startup.finish_pvDescriptor (c : Setup) (s : Startup) : (s.finish c).pvDescriptor = s.remapped c := by
  unfold Startup.finish
  exact s.counting_pvDescriptor _ _

/-- `InitialisationDone`. -/
def Startup.InitialisationDone (c : Setup) (s : Startup) : Prop :=
  c.numberOfPoolThreads ≤ s.initialisationDone

instance (c : Setup) (s : Startup) : Decidable (s.InitialisationDone c) := inferInstanceAs (Decidable (_ ≤ _))

/-! ### The callbacks and the reader -/

/-- `GetValueCallback`; `dbr` is what EPICS passes. -/
def Startup.getValueCallback (s : Startup) (i : ℕ) (dbr : Memory) : Startup :=
  let pv := s.pvDescriptor i
  let bytes := readAt dbr 0 pv.totalSize
  { s.copyTo pv.memory bytes with
      changedFlagMem := Function.update s.changedFlagMem i true
      lastValue := Function.update s.lastValue i (some bytes) }

/-- `GetTimeoutCallback`; `ptsNewS` is the time stamp EPICS passes. -/
def Startup.getTimeoutCallback (s : Startup) (i : ℕ) (ptsNewS : Memory) : Startup :=
  let bytes := readAt ptsNewS 0 8
  { s.copyTo (s.pvDescriptor i).timeStamp bytes with
      lastTimeStamp := Function.update s.lastTimeStamp i (some bytes) }

/-- A turn of the loop of `Synchronise`, with `memoryOut` and `offset`. -/
def Startup.copyBlock (s : Startup) (x : Memory × ℕ) (k : ℕ) : Memory × ℕ :=
  (writeAt x.1 x.2 (readAt (s.memory k) 0 (s.memorySize k)), u32 (x.2 + s.memorySize k))

/-- The memory `Synchronise` fills. -/
def Startup.memoryOut (c : Setup) (s : Startup) (memoryOut : Memory) : Memory :=
  ((List.range c.numberOfPoolThreads).foldl s.copyBlock (memoryOut, 0)).1

/-- `Synchronise`: the memory, the flags, and the flags reset. -/
def Startup.synchronise (c : Setup) (s : Startup) (memoryOut : Memory) : (Memory × (ℕ → Bool)) × Startup :=
  ((s.memoryOut c memoryOut, s.changedFlagMem), { s with changedFlagMem := fun _ => false })

/-- `GetTotalMemorySize`. -/
def Startup.getTotalMemorySize (c : Setup) (s : Startup) : ℕ :=
  ∑ k ∈ Finset.range c.numberOfPoolThreads, s.memorySize k

/-- Thread `t` goes on to the stage `x`. -/
def Startup.setStage (s : Startup) (t : ℕ) (x : Stage) : Startup :=
  { s with stage := Function.update s.stage t x }

section

variable (s : Startup) (t : ℕ) (x : Stage)

@[simp] theorem Startup.setStage_memorySize : (s.setStage t x).memorySize = s.memorySize := rfl

@[simp] theorem Startup.setStage_pvDescriptor : (s.setStage t x).pvDescriptor = s.pvDescriptor := rfl

@[simp] theorem Startup.setStage_initialisationDone :
    (s.setStage t x).initialisationDone = s.initialisationDone := rfl

end

/-- The steps. -/
inductive Startup.Step (c : Setup) : Startup → Startup → Prop
  /-- Thread `t` runs `FillMemorySizes`. -/
  | fill {s : Startup} (t : ℕ) : t < c.numberOfPoolThreads → s.stage t = .fill →
      Startup.Step c s
        ((s.fillMemorySizes c (c.range t).beg (c.range t).stop t).setStage t (.subscribe (c.range t).beg))
  /-- Thread `t` subscribes to the PV `i`. -/
  | subscribe {s : Startup} (t i : ℕ) (get : Option Memory) : t < c.numberOfPoolThreads →
      s.stage t = .subscribe i → i < (c.range t).stop →
      Startup.Step c s ((s.subscribePv i get).setStage t (.subscribe (i + 1)))
  /-- Thread `t` leaves the loop and runs the locked section. -/
  | finish {s : Startup} (t i : ℕ) : t < c.numberOfPoolThreads → s.stage t = .subscribe i →
      (c.range t).stop ≤ i → Startup.Step c s ((s.finish c).setStage t .done)
  | value {s : Startup} (i : ℕ) (dbr : Memory) : s.subscribed i = true →
      Startup.Step c s (s.getValueCallback i dbr)
  | timeStamp {s : Startup} (i : ℕ) (ptsNewS : Memory) : s.subscribed i = true →
      Startup.Step c s (s.getTimeoutCallback i ptsNewS)
  | synchronise {s : Startup} (memoryOut : Memory) : Startup.Step c s (s.synchronise c memoryOut).2

end Hieratika.Subscriber

import Hieratika.Foundations.Bytes
import Hieratika.Foundations.Word

/-!
# The receiver's buffer

`DiodeReceiver` after `Start`: the PVs with their slots `[value | timestamp]` in `memory`,
the previous values in `memoryPrec`, the change flags, and the cache `pvMapping` from sender
to local indices. `getLocalIndex` and `readVarValue` are the parts of `GetLocalIndex` and
`ReadVarValueAndSkip` that touch this state; each runs under `syncSem`.

The EPICS and MARTe2 calls are parameters (`Env`): the string comparison, the conversion of
a value to the local type, and the bytes that happen to lie behind the payload.
-/

namespace Hieratika.Receiver

open Foundations

/-- `PvRecDescriptor`, without the EPICS handle and the offset, which `Start` computes. -/
structure PvRecDescriptor where
  pvName : List UInt8
  pvType : ℕ
  numberOfElements : ℕ
  totalSize : ℕ

/-- The receiver after `Start`. -/
structure DiodeReceiver where
  numberOfVariables : ℕ
  maxArraySize : ℕ
  maxNumberOfThreads : ℕ
  pvs : ℕ → PvRecDescriptor
  /-- `2 * numberOfVariables`, the size of `pvMapping`, does not wrap. -/
  vars_lt : numberOfVariables < 2 ^ 31
  /-- `totalSize` is a `uint32`. -/
  size_lt : ∀ n, (pvs n).totalSize < 2 ^ 32

/-- `pvs[n].offset` as `Start` computes it; at `numberOfVariables` this is `totalMemorySize`. -/
def DiodeReceiver.offset (r : DiodeReceiver) : ℕ → ℕ
  | 0 => 0
  | n + 1 => u32 (r.offset n + ((r.pvs n).totalSize + 8))

/-- `INDEX_INIT_ID`. -/
def indexInitId : ℕ := 0xFFFFFFFF

/-- `INDEX_NOT_FOUND_ID`. -/
def indexNotFoundId : ℕ := 0xFFFFFFFE

/-- `NUMBER_OF_TYPES`. -/
def numberOfTypes : ℕ := 11

/-- What the code relies on from outside. -/
structure Env where
  /-- `StringHelper::Compare`. -/
  compare : List UInt8 → List UInt8 → ℕ
  /-- `TypeConvert(pvs[index].at, ...)`: the bytes written for a source of the given type id, from the
  source bytes and the previous content of the slot. -/
  typeConvert : ℕ → UInt8 → Memory → List UInt8 → List UInt8
  /-- What lies in memory behind the end of the payload. -/
  beyond : Memory

/-- `TypeConvert` writes into the value it is given, not behind it. -/
def Env.Converts (env : Env) (r : DiodeReceiver) : Prop :=
  ∀ index typeId source old, (env.typeConvert index typeId source old).length ≤ (r.pvs index).totalSize

/-- The buffers that the connections and the put threads share. -/
structure Store where
  memory : Memory
  memoryPrec : Memory
  /-- `changeFlag[i] == 1`. -/
  changeFlag : ℕ → Bool
  pvMapping : ℕ → ℕ
  numberOfReceivedPVs : ℕ → ℕ

/-- The buffers as `Start` leaves them. -/
def Store.start : Store where
  memory := fun _ => 0
  memoryPrec := fun _ => 0
  changeFlag := fun _ => false
  pvMapping := fun _ => indexInitId
  numberOfReceivedPVs := fun _ => 0

/-- What `ReadVarNameAndIndex` reads of a frame. -/
structure Header where
  varName : List UInt8
  receivedIndex : ℕ
  receivedTypeId : UInt8
  receivedSize : ℕ
  receivedOffset : ℕ
  processedSize : ℕ
  /-- Where `dataPtr` points to in the payload: the offset field. -/
  dataPtr : ℕ

/-! ### The local index -/

/-- The loop of `GetLocalVariableIndex`; `range` is half of `range_1` throughout. -/
def DiodeReceiver.searchFrom (r : DiodeReceiver) (env : Env) (varName : List UInt8)
    (range_1 index : ℕ) : Bool × ℕ :=
  if _h : 0 < range_1 then
    let range := range_1 / 2
    let res := if r.numberOfVariables ≤ index then 2 else env.compare (r.pvs index).pvName varName
    if res = 0 then (true, index)
    else if res = 2 then
      let index := if range % 2 = 1 then sub32 index 1 else index
      r.searchFrom env varName range (sub32 index (range / 2))
    else if res = 1 then
      let range_1' := if range_1 % 2 = 0 then range - 1 else range
      r.searchFrom env varName range_1' (u32 (index + (range_1' / 2 + 1)))
    else (false, index)
  else (false, index)
termination_by range_1
decreasing_by all_goals grind

/-- `GetLocalVariableIndex`. -/
def DiodeReceiver.getLocalVariableIndex (r : DiodeReceiver) (env : Env) (varName : List UInt8) : Bool × ℕ :=
  r.searchFrom env varName r.numberOfVariables (r.numberOfVariables / 2)

/-- What `GetLocalIndex` finds out about a frame. -/
structure Local where
  index : ℕ
  processedSize : ℕ
  controlOk : Bool

/-- The index of the frame's PV: from the cache, else by name. -/
def DiodeReceiver.resolve (r : DiodeReceiver) (env : Env) (s : Store) (h : Header) : ℕ :=
  if s.pvMapping h.receivedIndex = indexInitId then
    let (found, index) := r.getLocalVariableIndex env h.varName
    if found then index else indexNotFoundId
  else s.pvMapping h.receivedIndex

/-- What `GetLocalIndex` computes once the local index is known. -/
def DiodeReceiver.localAt (r : DiodeReceiver) (h : Header) (index : ℕ) : Local where
  index := index
  processedSize := u32 (h.processedSize + (12 + h.receivedSize + 8 + 4))
  controlOk := if index < r.numberOfVariables then
      decide (0 < (r.pvs index).totalSize) &&
        decide (u32 (h.receivedSize + h.receivedOffset) ≤ (r.pvs index).totalSize)
    else true

/-- `GetLocalIndex`, up to the comparison with the payload's size. -/
def DiodeReceiver.getLocalIndex (r : DiodeReceiver) (env : Env) (s : Store) (h : Header) : Local :=
  r.localAt h (r.resolve env s h)

/-- The cache after `GetLocalIndex`: an index found by name is kept. -/
def DiodeReceiver.remember (r : DiodeReceiver) (env : Env) (s : Store) (h : Header) : Store :=
  if s.pvMapping h.receivedIndex = indexInitId ∧ (r.getLocalVariableIndex env h.varName).1 = true then
    { s with pvMapping :=
        Function.update s.pvMapping h.receivedIndex (r.getLocalVariableIndex env h.varName).2 }
  else s

/-! ### Storing a value -/

/-- What a frame writes into `memory`, with the address of each write; `data` is the payload from the
value bytes on. -/
def DiodeReceiver.writes (r : DiodeReceiver) (env : Env) (s : Store) (data : Memory) (h : Header)
    (l : Local) :
    List (ℕ × List UInt8) :=
  let ptr := r.offset l.index
  let totalSize := (r.pvs l.index).totalSize
  if l.controlOk then
    [(ptr + h.receivedOffset, readAt data 0 h.receivedSize), (ptr + totalSize, readAt data h.receivedSize 8)]
  else if h.receivedOffset = 0 ∧ h.receivedTypeId.toNat < numberOfTypes then
    [(ptr, env.typeConvert l.index h.receivedTypeId data (readAt s.memory ptr totalSize))]
  else []

/-- The memory after some writes. -/
def writeAll (m : Memory) (ws : List (ℕ × List UInt8)) : Memory :=
  ws.foldl (fun m w => writeAt m w.1 w.2) m

/-- The comparison with `memoryPrec`: a changed value is flagged and becomes the previous one. -/
def Store.compareAndFlag (s : Store) (ptr totalSize index : ℕ) : Store :=
  if readAt s.memory ptr totalSize ≠ readAt s.memoryPrec ptr totalSize then
    { s with changeFlag := Function.update s.changeFlag index true
             memoryPrec := writeAt s.memoryPrec ptr (readAt s.memory ptr totalSize) }
  else s

/-- The lock-protected part of `ReadVarValueAndSkip`. -/
def DiodeReceiver.readVarValue (r : DiodeReceiver) (env : Env) (threadId : ℕ) (s : Store)
    (data : Memory) (h : Header) (l : Local) : Store :=
  if l.index < r.numberOfVariables then
    let received := if threadId < r.maxNumberOfThreads then
        Function.update s.numberOfReceivedPVs threadId (u32 (s.numberOfReceivedPVs threadId + 1))
      else s.numberOfReceivedPVs
    { s with memory := writeAll s.memory (r.writes env s data h l)
             numberOfReceivedPVs := received }.compareAndFlag
      (r.offset l.index) (r.pvs l.index).totalSize l.index
  else s

/-! ### A small receiver -/

/-- A receiver of one PV `A` of two bytes. -/
def onePv (maxArraySize : ℕ) : DiodeReceiver where
  numberOfVariables := 1
  maxArraySize := maxArraySize
  maxNumberOfThreads := 1
  pvs := fun _ => ⟨[65], 0, 2, 2⟩
  vars_lt := by decide
  size_lt := fun _ => by decide

/-- Exact comparison, no conversion, and zeros behind the payload. -/
def plainEnv : Env := ⟨fun a b => if a = b then 0 else 1, fun _ _ _ _ => [], fun _ => 0⟩

end Hieratika.Receiver

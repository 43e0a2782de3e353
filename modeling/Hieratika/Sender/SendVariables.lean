import Hieratika.Diode.Frame
import Hieratika.Sender.Scheduler

/-!
# Sending a slice

`SendVariables`: a pool thread takes its slice of the queue and writes it as frames, in as
many HTTP messages as it needs. The three loops of the source are `sendPv` (the frames of one
PV), `sendMessage` (the PVs of one message) and `sendMessages` (the messages); they share
`cntVariables`, `listIndex`, `varOffset` and `i`.

The variable `condition` of the source equals `(i < nVarsPerThread) && err.ErrorsCleared()`
at every place where it is read, and is computed from the two here (`Send.condition`).

What the connection does is a parameter `Wire`: whether a header, a frame and the end of a
message go through. A frame that fails is cut somewhere on the wire and is not in `out`.
Replies and the acknowledge counter are left to `Wire`.

`sendMessages` is the mode with chunks (`ChunkSize > 0`), in which frames are written to the
connection. With `ChunkSize = 0` a message is first collected in `myBuffer` and written behind its
header: `sendBuffered`.
-/

namespace Hieratika.Sender

open Foundations Subscriber Diode

/-- Which operations on the connection succeed; a message is named by `cntVariables` at its start. -/
structure Wire where
  /-- The HTTP header of the message. -/
  header : ℕ → Bool
  /-- The writes of the frame for slice entry `cntVariables` from `varOffset`. -/
  frame : ℕ → ℕ → Bool
  /-- `Flush`, `FinalChunk` and the replies. -/
  finish : ℕ → Bool

/-- A connection on which everything succeeds. -/
def Wire.good : Wire := ⟨fun _ => true, fun _ _ => true, fun _ => true⟩

/-- The local variables of `SendVariables`. -/
structure Send where
  cntVariables : ℕ
  listIndex : ℕ
  varOffset : ℕ
  /-- The frames of the current message. -/
  i : ℕ
  /-- `!err.ErrorsCleared()`. -/
  err : Bool
  /-- The frames written so far, those of each slice entry in a list of their own. -/
  out : List (List Frame)

/-- `condition`. -/
def Send.condition (n : ℕ) (st : Send) : Bool := st.i < n && !st.err

/-- How many PVs a thread takes of a round. -/
def Main.nVarsPerThread {μ : Type*} (c : Config) (m : Main μ) (threadId : ℕ) : ℕ :=
  let nVarsPerThread := m.numberOfChangedVariables / c.numberOfPoolThreads
  if threadId = sub32 c.numberOfPoolThreads 1
  then u32 (nVarsPerThread + m.numberOfChangedVariables % c.numberOfPoolThreads)
  else nVarsPerThread

/-- The lock-protected start: the slice begins at `currentIdxThreads`, which moves behind it. -/
def Main.takeSlice {μ : Type*} (c : Config) (m : Main μ) (threadId : ℕ) : Main μ :=
  let next := u32 (m.currentIdxThreads + m.nVarsPerThread c threadId)
  { m with currentIdxThreads := next % c.numberOfVariables }

section

variable (c : Config) (w : Wire) (memoryThreads : Memory) (indexListThreads : ℕ → ℕ) (n : ℕ)

/-- The frame for a PV from `varOffset` on. -/
def frameAt (signalIndex varOffset : ℕ) : Frame :=
  let pv := c.pvDes signalIndex
  let totalSize := pv.totalSize
  let actualSize := if totalSize - varOffset < c.maxVarSize then totalSize - varOffset else c.maxVarSize
  { name := pv.pvName
    index := signalIndex
    typeId := pv.typeId
    size := actualSize
    offset := varOffset
    value := readAt memoryThreads (pv.offset + varOffset) actualSize
    timeStamp := readAt memoryThreads (pv.offset + totalSize) 8 }

/-- The turn of the innermost loop: one frame. The offset moves on only if the message goes on. -/
def sendFrame (signalIndex : ℕ) (st : Send) : Send :=
  let frame := frameAt c memoryThreads signalIndex st.varOffset
  let st' := { st with i := st.i + 1, err := !w.frame st.cntVariables st.varOffset }
  if st'.condition n then { st' with varOffset := st.varOffset + frame.size } else st'

/-- `while ((varOffset < totalSize) && condition)`, with the frames written. -/
def sendPv (signalIndex : ℕ) (st : Send) (frames : List Frame) : Send × List Frame :=
  if _h : st.varOffset < (c.pvDes signalIndex).totalSize ∧ st.condition n = true then
    let frame := frameAt c memoryThreads signalIndex st.varOffset
    sendPv signalIndex (sendFrame c w memoryThreads n signalIndex st)
      (if w.frame st.cntVariables st.varOffset then frames ++ [frame] else frames)
  else (st, frames)
termination_by n - st.i
decreasing_by
  have hi : st.i < n := by simpa using (Bool.and_eq_true_iff.mp _h.2).1
  have hnext : (sendFrame c w memoryThreads n signalIndex st).i = st.i + 1 := by
    unfold sendFrame
    dsimp only
    split_ifs <;> rfl
  omega

/-- The turn of the middle loop: the entry at `listIndex`. -/
def sendEntry (st : Send) : Send :=
  let signalIndex := indexListThreads st.listIndex
  let pv := c.pvDes signalIndex
  let (st', frames) :=
    if 0 < pv.numberOfElements ∧ 0 < pv.memorySize then
      let (st', frames) := sendPv c w memoryThreads n signalIndex st []
      (if pv.totalSize ≤ st'.varOffset then { st' with varOffset := 0 } else st', frames)
    else ({ st with i := st.i + 1 }, [])
  { st' with
    listIndex := u32 (st'.listIndex + 1) % c.numberOfVariables
    cntVariables := st'.cntVariables + 1
    out := st'.out ++ [frames] }

/-- `while (condition && (cntVariables < nVarsPerThread))`; `left` entries are still to come. -/
def sendMessage : (left : ℕ) → Send → Send
  | 0, st => st
  | left + 1, st =>
    if st.condition n then sendMessage left (sendEntry c w memoryThreads indexListThreads n st) else st

/-- `while ((cntVariables < nVarsPerThread) && (err.ErrorsCleared()))` with `chunkSize > 0`: a message
with at least one entry in each turn. -/
def sendMessages : (left : ℕ) → Send → Send
  | 0, st => st
  | left + 1, st =>
    if st.cntVariables < n ∧ st.err = false then
      if w.header st.cntVariables then
        let st' := sendMessage c w memoryThreads indexListThreads n (n - st.cntVariables) { st with i := 0 }
        sendMessages left { st' with err := st'.err || !w.finish st.cntVariables }
      else { st with err := true }
    else st

/-- `SendVariables` after the slice is taken, with `chunkSize > 0`. -/
def sendVariables (listIndex : ℕ) : Send :=
  sendMessages c w memoryThreads indexListThreads n n ⟨0, listIndex, 0, 0, false, []⟩

/-- The frames of `myBuffer` that the one `client.Write` of a message gets through: all of them, or
the first few before it fails. -/
def throughWrite (written : Option ℕ) (myBuffer : List Frame) : List Frame :=
  match written with
  | none => myBuffer
  | some k => myBuffer.take k

/-- The same loop with `chunkSize == 0`, and the frames on the connection. The result of
`WriteHeader` replaces `err`, whatever became of the frames before, and that of `client.Write` is not
looked at; the writes of a frame go to `myBuffer`. -/
def sendBuffered (written : ℕ → Option ℕ) : (left : ℕ) → Send → List Frame → Send × List Frame
  | 0, st, sent => (st, sent)
  | left + 1, st, sent =>
    if st.cntVariables < n ∧ st.err = false then
      let st' := sendMessage c w memoryThreads indexListThreads n (n - st.cntVariables) { st with i := 0 }
      let myBuffer := (st'.out.drop st.out.length).flatten
      sendBuffered written left
        { st' with err := !w.header st.cntVariables || !w.finish st.cntVariables }
        (sent ++ throughWrite (written st.cntVariables) myBuffer)
    else (st, sent)

/-- `SendVariables` after the slice is taken, with `chunkSize == 0`. -/
def sendVariablesBuffered (written : ℕ → Option ℕ) (listIndex : ℕ) : Send × List Frame :=
  sendBuffered c w memoryThreads indexListThreads n written n ⟨0, listIndex, 0, 0, false, []⟩ []

end

end Hieratika.Sender

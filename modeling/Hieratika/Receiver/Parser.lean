import Hieratika.Diode.Frame
import Hieratika.Foundations.Runs
import Hieratika.Receiver.Store
import Mathlib.Data.List.DropRight

/-!
# The payload parser

`ReadVarNameAndIndex`, the loop of `ClientService` that consumes the complete frames of the
payload, and the loop around it that reads the body of a request. The payload is a list of
bytes; positions and sizes that the source keeps in a `uint32` are reduced to 32 bits.

The two scan-and-shift loops are turns (`resyncTurn`, `patternTurn`); what the function returns
is a relation, as on a payload of `2 ^ 32` bytes they need not end. `calls` records the calls
of `ReadVarValueAndSkip` with what it is given.

What `HttpProtocol` reads of the request header (chunked or not, the content length) and the
conversion of a chunk size line to a number are parameters.
-/

namespace Hieratika.Receiver

open Foundations Diode

/-- `PV_NAME_MAX_SIZE_REC`. -/
def pvNameMaxSize : ℕ := 64

/-- The memory from a position of the payload on. -/
def bufferAt (env : Env) (payload : List UInt8) (pos : ℕ) : Memory := fun k =>
  if pos + k < payload.length then payload.getD (pos + k) 0 else env.beyond (pos + k - payload.length)

/-- `Copy(payload.Buffer(), payload.Buffer() + i, currentSize)` and `SetSize(currentSize)`, with
`currentSize` the `uint32` of what is left behind `i`. -/
def shift (payload : List UInt8) (i : ℕ) : List UInt8 := (payload.drop i).take (u32 (payload.length - i))

/-! ### The name -/

/-- A turn of the loop that looks for a quote which is not a pattern; it leaves with the payload,
`found` and `ok`. -/
def resyncTurn : List UInt8 × ℕ → Turn (List UInt8 × ℕ) (List UInt8 × Bool × Bool)
  | (payload, i) =>
    if i < payload.length then
      if payload.getD i 0 = quote then
        let payload := shift payload i
        if 3 ≤ payload.length then
          if payload.take 3 ≠ namePattern then .leave (payload, true, true) else .again (payload, 1)
        else .leave (payload, true, false)
      else .again (payload, u32 (i + 1))
    else .leave (payload, false, true)

/-- A turn of the loop that looks for the pattern behind the name; it leaves with the payload and
the position of the pattern. -/
def patternTurn : List UInt8 × ℕ → Turn (List UInt8 × ℕ) (List UInt8 × Option ℕ)
  | (payload, i) =>
    if i < payload.length then
      if payload.getD i 0 = quote then
        if 3 ≤ u32 (payload.length - i) then
          if (payload.drop i).take 3 = namePattern then .leave (payload, some i)
          else .again (shift payload i, 1)
        else .leave (payload, none)
      else .again (payload, u32 (i + 1))
    else .leave (payload, none)

/-- The part of `ReadVarNameAndIndex` behind the two loops, with the pattern at `dataPtr`. -/
def DiodeReceiver.readHeader (r : DiodeReceiver) (env : Env) (payload : List UInt8) (dataPtr : ℕ) :
    List UInt8 × Option Header :=
  let nameSize := sub32 dataPtr 1
  if nameSize ≤ pvNameMaxSize then
    -- the name as a C string, up to its first '.'
    let varNameTemp := ((payload.drop 1).take nameSize).takeWhile (· ≠ 0)
    let varName := varNameTemp.takeWhile (· ≠ 46)
    let dataPtr := dataPtr + 3
    let processedSize := nameSize + 3
    if 13 ≤ payload.length - processedSize then
      let buffer := bufferAt env payload
      let receivedIndex := ofLe (readAt (buffer dataPtr) 0 4)
      let receivedTypeId := buffer dataPtr 4
      let receivedSize := ofLe (readAt (buffer dataPtr) 5 4)
      let receivedOffset := ofLe (readAt (buffer dataPtr) 9 4)
      if r.numberOfVariables ≤ receivedIndex ∨ u32 (8 * r.maxArraySize) ≤ receivedSize then ([], none)
      else (payload, some ⟨varName, receivedIndex, receivedTypeId, receivedSize, receivedOffset,
        processedSize, dataPtr + 9⟩)
    else (payload, none)
  else (shift payload (min nameSize payload.length), none)

/-- The first block of `ReadVarNameAndIndex`: the payload it leaves, and `ok`. -/
def Resynced (payload : List UInt8) (res : List UInt8 × Bool) : Prop :=
  if payload = [] then res = ([], false)
  else if payload.head? = some quote then res = (payload, true)
  else ∃ p found ok, Ends resyncTurn (payload, 0) (p, found, ok) ∧
    -- without a quote and without the need of a refill the payload is consumed
    res = (if ok && !found then [] else p, ok && found)

/-- `ReadVarNameAndIndex`: the payload it leaves, and what it read if it returns `true`. -/
def ReadVarNameAndIndex (r : DiodeReceiver) (env : Env) (payload : List UInt8)
    (res : List UInt8 × Option Header) : Prop :=
  ∃ p ok, Resynced payload (p, ok) ∧
    if ok then ∃ q found, Ends patternTurn (p, 1) (q, found) ∧
      res = match found with
        | some dataPtr => r.readHeader env q dataPtr
        | none => (q, none)
    else res = (p, none)

/-! ### Consuming the payload -/

/-- A call of `ReadVarValueAndSkip`, with the bytes it finds. -/
structure Call where
  varName : List UInt8
  receivedIndex : ℕ
  receivedTypeId : UInt8
  receivedSize : ℕ
  varOffset : ℕ
  value : List UInt8
  timeStamp : List UInt8
  deriving DecidableEq

/-- A connection's payload, the shared buffers, and the calls made so far. -/
structure Service where
  payload : List UInt8
  store : Store
  calls : List Call

section

variable (r : DiodeReceiver) (env : Env) (threadId : ℕ)

/-- `ReadVarValueAndSkip`. -/
def Service.readVarValueAndSkip (st : Service) (h : Header) (l : Local) : Service :=
  let data := bufferAt env st.payload (h.dataPtr + 4)
  { payload := shift st.payload (min l.processedSize st.payload.length)
    store := r.readVarValue env threadId st.store data h l
    calls := st.calls ++ [⟨h.varName, h.receivedIndex, h.receivedTypeId, h.receivedSize, h.receivedOffset,
      readAt data 0 h.receivedSize, readAt data h.receivedSize 8⟩] }

/-- A turn of `while (ok)` that stores a frame: from `st` to `st'`. -/
def Service.Stores (st st' : Service) : Prop :=
  ∃ p h, ReadVarNameAndIndex r env st.payload (p, some h) ∧
    (r.getLocalIndex env st.store h).processedSize ≤ p.length ∧
    st' = { st with payload := p, store := r.remember env st.store h }.readVarValueAndSkip r env threadId h
      (r.getLocalIndex env st.store h)

/-- A turn that leaves the loop: no complete frame is at hand. -/
inductive Service.Leaves : Service → Service → Prop where
  | noHeader {st : Service} {p : List UInt8} : ReadVarNameAndIndex r env st.payload (p, none) →
      Leaves st { st with payload := p }
  | incomplete {st : Service} {p : List UInt8} {h : Header} :
      ReadVarNameAndIndex r env st.payload (p, some h) →
      p.length < (r.getLocalIndex env st.store h).processedSize →
      Leaves st { st with payload := p, store := r.remember env st.store h }

/-- The whole loop. -/
def Service.Consumes (st st' : Service) : Prop :=
  ∃ t, Reachable (Service.Stores r env threadId) st t ∧ Service.Leaves r env t st'

end

/-! ### Reading the body -/

/-- `GetLine`: up to the next newline, which is taken; the carriage return is not skipped. -/
def getLine (socket : List UInt8) : Option (List UInt8 × List UInt8) :=
  if 10 ∈ socket then some (socket.takeWhile (· ≠ 10), (socket.dropWhile (· ≠ 10)).tail) else none

/-- The line without the carriage returns and newlines at its end. -/
def stripLine (line : List UInt8) : List UInt8 := line.rdropWhile fun b => b = 13 ∨ b = 10

/-- The loop that reads `left` bytes in pieces of at most 1023 and appends them to the payload. -/
def readPieces (socket payload : List UInt8) (left : ℕ) : Option (List UInt8 × List UInt8) :=
  if _h : 0 < left then
    let sizeToRead := min left 1023
    if sizeToRead ≤ socket.length then
      readPieces (socket.drop sizeToRead) (payload ++ socket.take sizeToRead) (left - sizeToRead)
    else none
  else some (socket, payload)
termination_by left
decreasing_by omega

/-- The variables of the body loop of `ClientService`. -/
structure Body where
  socket : List UInt8
  chunkSize : ℕ
  contentLength : ℕ
  service : Service

/-- `ReadNewChunk`; `toSize` is `TypeConvert` of a chunk size line behind `0x`. -/
def Body.readNewChunk (toSize : List UInt8 → ℕ) (isChunked : Bool) (b : Body) : Option Body := do
  let (socket, chunkSize, contentLength) ←
    if isChunked then
      if b.contentLength = 0 then do
        let (line, rest) ← getLine b.socket
        let size := u32 (toSize (stripLine line))
        pure (rest, size, size)
      else pure (b.socket, b.contentLength, b.contentLength)
    else pure (b.socket, min b.chunkSize b.contentLength, b.contentLength)
  let (socket, payload) ← readPieces socket b.service.payload chunkSize
  pure ⟨socket, chunkSize, contentLength - chunkSize, { b.service with payload := payload }⟩

/-- The rest of a turn of the body loop once the chunk is read: the line behind a chunk. -/
def Body.skipLine (isChunked : Bool) (b : Body) : Option Body :=
  if isChunked then (getLine b.socket).map fun l => { b with socket := l.2 } else some b

/-- The body loop of `ClientService`; it ends with `none` on an error. -/
inductive ReadsBody (r : DiodeReceiver) (env : Env) (threadId : ℕ) (toSize : List UInt8 → ℕ)
    (isChunked : Bool) :
    Body → Option Service → Prop where
  | readError {b : Body} :
      b.readNewChunk toSize isChunked = none → ReadsBody r env threadId toSize isChunked b none
  /-- An empty chunk ends the body. -/
  | done {b b' : Body} : b.readNewChunk toSize isChunked = some b' → b'.chunkSize = 0 →
      ReadsBody r env threadId toSize isChunked b ((b'.skipLine isChunked).map fun b => b.service)
  | lineError {b b' : Body} : b.readNewChunk toSize isChunked = some b' → 0 < b'.chunkSize →
      b'.skipLine isChunked = none → ReadsBody r env threadId toSize isChunked b none
  | chunk {b b' b'' : Body} {st : Service} {res : Option Service} :
      b.readNewChunk toSize isChunked = some b' → 0 < b'.chunkSize → b'.skipLine isChunked = some b'' →
      b''.service.Consumes r env threadId st →
      ReadsBody r env threadId toSize isChunked { b'' with service := st } res →
      ReadsBody r env threadId toSize isChunked b res

/-- `ClientService` behind the request header. -/
def ClientService (r : DiodeReceiver) (env : Env) (threadId : ℕ) (toSize : List UInt8 → ℕ) (isChunked : Bool)
    (contentLength : ℕ) (socket : List UInt8) (s : Store) (res : Option Service) : Prop :=
  ReadsBody r env threadId toSize isChunked
    ⟨socket, if isChunked then 0 else 32, if isChunked then 0 else contentLength, ⟨[], s, []⟩⟩ res

end Hieratika.Receiver

import Hieratika.Foundations.Bytes
import Hieratika.Foundations.Word

/-!
# A put with a time stamp

The patched Channel Access put (`FERRO_TS_PATCH`): `insertRequestWithPayLoad` of the client,
which writes the message, and `write_action` of the server, which hands it to the record. The
client marks the data type with `0x8000` and sends the time stamp behind the value; the server
clears nothing and sees no mark: it infers the time stamp from the sizes.

The seven plain types are modelled. The value of an element is a list of bytes in the order of
the host; strings are not turned round. `Dbr.swap` stands for what EPICS does to an element on
its way, in `comBuf::push` and in `caNetConvert`; neither is in the repository. `write_action` is the part
for a channel that exists and may be written, whose data `caNetConvert` accepts; `dbChannel_put` is what it
is given. The payload of the server is a memory with addresses on both sides of its first byte, as the size
it adds to the address is an `int`.
-/

namespace Hieratika.ChannelAccess

open Foundations

/-! ### Types -/

/-- The plain types, `DBR_STRING` to `DBR_DOUBLE`. -/
inductive Dbr where
  | string | short | float | enum | char | long | double
  deriving DecidableEq

/-- The number of the type. -/
def Dbr.code : Dbr → ℕ
  | .string => 0
  | .short => 1
  | .float => 2
  | .enum => 3
  | .char => 4
  | .long => 5
  | .double => 6

/-- The type of a number, for the plain ones. -/
def Dbr.ofCode : ℕ → Option Dbr
  | 0 => some .string
  | 1 => some .short
  | 2 => some .float
  | 3 => some .enum
  | 4 => some .char
  | 5 => some .long
  | 6 => some .double
  | _ => none

/-- `dbr_size`, and `dbr_value_size`; `MAX_STRING_SIZE` for a string. -/
def Dbr.size : Dbr → ℕ
  | .string => 40
  | .short => 2
  | .float => 4
  | .enum => 2
  | .char => 1
  | .long => 4
  | .double => 8

/-- `dbr_size_n`: no elements have the size of one. -/
def Dbr.sizeN (t : Dbr) (n : ℕ) : ℕ := if n = 0 then t.size else u32 (n * t.size)

theorem Dbr.sizeN_eq (t : Dbr) (n : ℕ) : t.sizeN n = u32 (if n = 0 then t.size else n * t.size) := by
  unfold Dbr.sizeN
  split_ifs
  · cases t <;> rfl
  · rfl

theorem Dbr.sizeN_of_lt {t : Dbr} {n : ℕ} (hn : 1 ≤ n) (h : n * t.size < 2 ^ 32) :
    t.sizeN n = n * t.size := by
  rw [Dbr.sizeN, if_neg (Nat.one_le_iff_ne_zero.mp hn), u32_of_lt h]

/-- An element in the order of a host and in the network's: what `comBuf::push` and `caNetConvert` do to it. -/
def Dbr.swap (t : Dbr) (little : Bool) (e : List UInt8) : List UInt8 :=
  if t = .string then e else if little then e.reverse else e

/-- What an element stands for: a string ends at its first NUL, a number is the same in every order. -/
def Dbr.meaning (t : Dbr) (little : Bool) (e : List UInt8) : List UInt8 :=
  if t = .string then e.takeWhile (· ≠ 0) else t.swap little e

/-- The data type as `ca_array_put` is given it. -/
def Dbr.request (t : Dbr) (stamped : Bool) : ℕ := t.code + if stamped then 0x8000 else 0

/-- `dataType &= ~(0x8000u)`. -/
def clearFlag (dataType : ℕ) : ℕ := if dataType.testBit 15 then dataType - 0x8000 else dataType

/-- `CA_MESSAGE_ALIGN`. -/
def messageAlign (n : ℕ) : ℕ := u32 (n + 7) / 8 * 8

/-- `MAX_TCP`. -/
def maxTcp : ℕ := 16384

/-! ### The client -/

/-- `caHdr`, with the two words of the large form behind it. -/
structure CaHdr where
  m_cmmd : ℕ
  m_postsize : ℕ
  m_dataType : ℕ
  m_count : ℕ
  m_cid : ℕ
  m_available : ℕ
  large : Option (ℕ × ℕ)

/-- A message on the wire. -/
structure Message where
  hdr : CaHdr
  body : List UInt8

/-- `insertRequestHeader`; `none` is the exception `outOfBounds`. -/
def insertRequestHeader (request payloadSize dataType nElem cid requestDependent : ℕ) (v49Ok : Bool) :
    Option CaHdr :=
  let payloadSize := if dataType.testBit 15 then u32 (payloadSize + 8) else payloadSize
  let dataType := clearFlag dataType
  if payloadSize < 0xffff ∧ nElem < 0xffff then
    some ⟨request, payloadSize, dataType, nElem, cid, requestDependent, none⟩
  else if v49Ok then some ⟨request, 0xffff, dataType, 0, cid, requestDependent, some (payloadSize, nElem)⟩
  else none

/-- The value in `insertRequestWithPayLoad`: its size and the bytes that are pushed. -/
def insertValue (little : Bool) (t : Dbr) (nElem : ℕ) (pPayload : Memory) (v49Ok : Bool) :
    Option (ℕ × List UInt8) :=
  if nElem = 1 then
    if t = .string then
      -- without a NUL in 40 bytes, `strlen` is too large
      let strlen := ((readAt pPayload 0 40).takeWhile (· ≠ 0)).length
      if strlen = 40 then none else some (strlen + 1, readAt pPayload 0 (strlen + 1))
    else some (t.size, t.swap little (readAt pPayload 0 t.size))
  else
    let maxBytes := if v49Ok then 0xffffffff else maxTcp - 16
    let maxElem := (maxBytes - 8 - t.size) / t.size
    if maxElem ≤ nElem then none
    else some (t.sizeN nElem,
      (List.range nElem).flatMap fun i => t.swap little (readAt pPayload (i * t.size) t.size))

/-- `insertRequestWithPayLoad`; `none` is an exception. -/
def insertRequestWithPayLoad (little : Bool) (request : ℕ) (t : Dbr) (stamped : Bool)
    (nElem cid requestDependent : ℕ) (pPayload : Memory) (v49Ok : Bool) : Option Message := do
  let dataTypeOrig := t.request stamped
  let (size, value) ← insertValue little t nElem pPayload v49Ok
  let payloadSize := messageAlign size
  let hdr ← insertRequestHeader request payloadSize dataTypeOrig nElem cid requestDependent v49Ok
  -- the time stamp is taken from behind the aligned value
  let stamp := if dataTypeOrig.testBit 15 then readAt pPayload payloadSize 8 else []
  let payloadSize := if dataTypeOrig.testBit 15 then u32 (payloadSize + 8) else payloadSize
  let size := if dataTypeOrig.testBit 15 then u32 (size + 8) else size
  some ⟨hdr, value ++ stamp ++ List.replicate (sub32 payloadSize size) 0⟩

/-! ### The server -/

/-- `caHdrLargeArray`. -/
structure CaHdrLargeArray where
  m_cmmd : ℕ
  m_postsize : ℕ
  m_dataType : ℕ
  m_count : ℕ
  m_cid : ℕ
  m_available : ℕ

/-- The header as `camessage` reads it; the client speaks version 4.9 or later. -/
def CaHdr.read (h : CaHdr) : CaHdrLargeArray :=
  match h.large with
  | some (postsize, count) =>
    if h.m_postsize = 0xffff then ⟨h.m_cmmd, postsize, h.m_dataType, count, h.m_cid, h.m_available⟩
    else ⟨h.m_cmmd, h.m_postsize, h.m_dataType, h.m_count, h.m_cid, h.m_available⟩
  | none => ⟨h.m_cmmd, h.m_postsize, h.m_dataType, h.m_count, h.m_cid, h.m_available⟩

/-- A record: the elements that `dbChannel_put` has been given, and the field `time`. -/
structure Record where
  value : List (List UInt8)
  time : List UInt8

/-- The `n` bytes from address `a`, which may be before the payload. -/
def readInt (m : ℤ → UInt8) (a : ℤ) (n : ℕ) : List UInt8 :=
  (List.range n).map fun k : ℕ => m (a + k)

/-- A 32-bit word as an `int`. -/
def toInt32 (n : ℕ) : ℤ := if n < 2 ^ 31 then n else n - 2 ^ 32

/-- `write_action`. -/
def writeAction (little : Bool) (mp : CaHdrLargeArray) (pPayload : ℤ → UInt8) (record : Record) : Record :=
  match Dbr.ofCode mp.m_dataType with
  | none => record
  | some t =>
    -- `realSize` is an `int`, which the comparison takes for unsigned
    let realSize := t.sizeN mp.m_count
    let addTimeStamp := sub32 mp.m_postsize 8 ≤ realSize
    { value := (List.range mp.m_count).map fun i =>
      t.swap little (readInt pPayload ((i * t.size : ℕ) : ℤ) t.size)
      time := if addTimeStamp then readInt pPayload (toInt32 realSize) 8 else record.time }

/-! ### What is asked of both -/

/-- The message lies in the memory of the server; around it there is anything. -/
def Message.At (msg : Message) (pPayload : ℤ → UInt8) : Prop :=
  ∀ k < msg.body.length, pPayload k = msg.body.getD k 0

/-- `ca_array_put` of the memory `[value | timestamp]`, end to end: with the mark, the record
receives the value and its time is the time stamp; without it, its time is not touched. -/
def EndToEnd (t : Dbr) (stamped : Bool) (value : List (List UInt8)) (v49Ok : Bool) : Prop :=
  ∀ (client server : Bool) (request cid requestDependent : ℕ) (pPayload : Memory) (timestamp : List UInt8)
    (msg : Message) (buffer : ℤ → UInt8) (record : Record),
    readAt pPayload 0 (value.length * t.size) = value.flatten →
    readAt pPayload (value.length * t.size) 8 = timestamp →
    insertRequestWithPayLoad client request t stamped value.length cid requestDependent pPayload v49Ok =
      some msg →
    msg.At buffer →
    if stamped then
      (writeAction server msg.hdr.read buffer record).value.map (t.meaning server) =
        value.map (t.meaning client) ∧
        (writeAction server msg.hdr.read buffer record).time = timestamp
    else (writeAction server msg.hdr.read buffer record).time = record.time

end Hieratika.ChannelAccess

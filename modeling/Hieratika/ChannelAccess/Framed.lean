import Hieratika.ChannelAccess.Stamp

/-!
# The payload size in the header

`insertRequestHeader` writes the size of the payload before `insertRequestWithPayLoad` pushes it, and
both add the eight bytes of the time stamp for themselves. The bounds of `insertRequestWithPayLoad`
keep the value below `2 ^ 32` bytes; they are those of a message without a time stamp.

The header is right as long as the aligned value leaves room for eight more bytes in 32 bits
(`put_framed_iff`). Behind the last multiple of eight there is none: the header says 0.
-/

namespace Hieratika.ChannelAccess

open Foundations

variable {client stamped v49Ok : Bool} {t : Dbr} {n request cid requestDependent size : ℕ} {pPayload : Memory}
variable {bytes : List UInt8} {msg : Message}

/-- What is behind the header has the size that the header says, is a multiple of eight bytes, and
ends with less than eight bytes of padding behind the value and the time stamp. -/
structure Message.Framed (msg : Message) (client : Bool) (t : Dbr) (stamped : Bool) (n : ℕ)
    (pPayload : Memory) (v49Ok : Bool) : Prop where
  postsize : msg.body.length = msg.hdr.read.m_postsize
  aligned : 8 ∣ msg.body.length
  padding : ∃ size value pad, insertValue client t n pPayload v49Ok = some (size, value) ∧
    msg.body.length = value.length + (if stamped then 8 else 0) + pad ∧ pad ≤ 7

/-- The value has as many bytes as its size says, and they can be aligned. -/
theorem Sent.value_length (hn : 1 ≤ n) (h : Sent client t stamped n pPayload v49Ok size bytes msg) :
    bytes.length = size ∧ size + 10 < 2 ^ 32 ∧ size ≤ n * t.size := by
  rcases insertValue_eq hn h.value with ⟨rfl, rfl, -, hle, hbytes⟩ | ⟨-, rfl, hlt, hbytes⟩
  · have h40 : Dbr.string.size = 40 := rfl
    exact ⟨by rw [hbytes, length_readAt], by omega, by omega⟩
  · exact ⟨by rw [hbytes, length_flatMap_swap], hlt, le_rfl⟩

/-- What is pushed, and what the header says. -/
theorem Sent.lengths (hn : 1 ≤ n) (h : Sent client t stamped n pPayload v49Ok size bytes msg) :
    msg.body.length = messageAlign size + (if stamped then 8 else 0) ∧
      msg.hdr.read.m_postsize = u32 (messageAlign size + if stamped then 8 else 0) := by
  obtain ⟨hlen, hlt, -⟩ := h.value_length hn
  have hal := messageAlign_bounds (n := size) (by omega)
  rw [h.postsize, h.body]
  cases stamped with
  | false =>
    simp only [Bool.false_eq_true, if_false, List.append_nil, List.length_append, List.length_replicate, hlen]
    rw [sub32_of_le (by omega) hal.1, Nat.add_zero, u32_of_lt (by omega)]
    exact ⟨by omega, rfl⟩
  | true =>
    have hpad : sub32 (u32 (messageAlign size + 8)) (u32 (size + 8)) = messageAlign size - size := by
      unfold sub32 u32
      omega
    simp only [if_true, List.length_append, List.length_replicate, hlen, length_readAt, hpad]
    exact ⟨by omega, trivial⟩

/-- The aligned value and the time stamp fit in 32 bits. -/
theorem Sent.framed (hn : 1 ≤ n) (h : Sent client t stamped n pPayload v49Ok size bytes msg)
    (hfit : messageAlign size + (if stamped then 8 else 0) < 2 ^ 32) :
    msg.Framed client t stamped n pPayload v49Ok := by
  obtain ⟨hlen, hlt, -⟩ := h.value_length hn
  obtain ⟨hbody, hpost⟩ := h.lengths hn
  have hal := messageAlign_bounds (n := size) (by omega)
  refine ⟨?_, ?_, size, bytes, messageAlign size - size, h.value, ?_, by omega⟩
  · rw [hbody, hpost, u32_of_lt hfit]
  · rw [hbody]
    split_ifs <;> omega
  · rw [hbody, hlen]
    omega

/-- They do not: the header says 0. -/
theorem Sent.not_framed (hn : 1 ≤ n) (h : Sent client t true n pPayload v49Ok size bytes msg)
    (hover : 2 ^ 32 - 16 < size) : ¬ msg.Framed client t true n pPayload v49Ok := by
  intro hframed
  obtain ⟨-, hlt, -⟩ := h.value_length hn
  obtain ⟨hbody, hpost⟩ := h.lengths hn
  have hal := messageAlign_bounds (n := size) (by omega)
  have hwrap : u32 (messageAlign size + 8) = 0 := by
    unfold u32
    omega
  have heq := hframed.postsize
  rw [hbody, hpost, if_pos rfl, hwrap] at heq
  omega

/-- **The put message is framed** if and only if it has no time stamp, or its value has at most
`2 ^ 32 - 16` bytes. -/
theorem put_framed_iff (client : Bool) (request : ℕ) (t : Dbr) (stamped : Bool) (n cid requestDependent : ℕ)
    (pPayload : Memory) (v49Ok : Bool) (msg : Message) (hn : 1 ≤ n)
    (h : insertRequestWithPayLoad client request t stamped n cid requestDependent pPayload v49Ok = some msg) :
    msg.Framed client t stamped n pPayload v49Ok ↔ (stamped = true → n * t.size ≤ 2 ^ 32 - 16) := by
  obtain ⟨size, bytes, hsent⟩ := insertRequestWithPayLoad_sent h
  obtain ⟨-, hlt, hle⟩ := hsent.value_length hn
  have hal := messageAlign_bounds (n := size) (by omega)
  constructor
  · rintro hframed rfl
    by_contra hover
    rcases insertValue_eq hn hsent.value with ⟨rfl, rfl, -⟩ | ⟨-, rfl, -⟩
    · exact hover (by decide)
    · exact hsent.not_framed hn (not_le.mp hover) hframed
  · intro hfit
    apply hsent.framed hn
    cases stamped with
    | false => simp only [Bool.false_eq_true, if_false]; omega
    | true =>
      have := hfit rfl
      simp only [if_true]
      omega

/-- A single double with its time stamp. -/
theorem put_framed_double :
    ∃ msg, insertRequestWithPayLoad true 4 .double true 1 0 0 (fun _ => 0) true = some msg ∧
    msg.Framed true .double true 1 (fun _ => 0) true :=
  ⟨_, rfl, (put_framed_iff true 4 .double true 1 0 0 (fun _ => 0) true _ le_rfl rfl).mpr fun _ => by decide⟩

/-- The bounds let `2 ^ 32 - 11` characters through. -/
theorem put_not_framed :
    ¬ ∀ (client : Bool) (request : ℕ) (t : Dbr) (stamped : Bool) (n cid requestDependent : ℕ)
    (pPayload : Memory) (v49Ok : Bool) (msg : Message), 1 ≤ n →
    insertRequestWithPayLoad client request t stamped n cid requestDependent pPayload v49Ok = some msg →
      msg.Framed client t stamped n pPayload v49Ok := by
  intro h
  have hvalue :
      ∃ bytes, insertValue true .char (2 ^ 32 - 11) (fun _ => 0) true = some (2 ^ 32 - 11, bytes) := by
    unfold insertValue
    rw [if_neg (by decide)]
    exact ⟨_, if_neg (by decide)⟩
  obtain ⟨bytes, hvalue⟩ := hvalue
  have hinsert :
      ∃ msg, insertRequestWithPayLoad true 4 .char true (2 ^ 32 - 11) 0 0 (fun _ => 0) true = some msg := by
    unfold insertRequestWithPayLoad
    rw [hvalue]
    exact ⟨_, rfl⟩
  obtain ⟨msg, hmsg⟩ := hinsert
  obtain ⟨size, bytes', hsent⟩ := insertRequestWithPayLoad_sent hmsg
  have hsize : size = 2 ^ 32 - 11 := by
    have heq := hsent.value
    rw [hvalue] at heq
    cases heq
    rfl
  exact hsent.not_framed (by decide) (by omega) (h _ _ _ _ _ _ _ _ _ _ (by decide) hmsg)

end Hieratika.ChannelAccess

import Hieratika.ChannelAccess.Header
import Hieratika.Foundations.Segments

/-!
# The message loop of the server

`camessage` goes through the messages in the receive buffer of a client on TCP: a header, then as many bytes
as the header says, and the function of the jump table for them. What is not complete stays for the
next call. A message that does not fit into the largest buffer is thrown away, with what arrives of it
later (`recvBytesToDrain`).

## The model

The functions of the jump table are a parameter, as is `casExpandRecvBuffer`. A function has a pointer to the
body of its message: it reads and changes the memory on both sides of it, and keeps its data in `work`. The
caller reads from the socket as much as fits behind what is in the buffer, calls `camessage`, and moves
what is left to the front; what is in the memory around the bytes that were received is left open. A client
is disconnected when `camessage` returns `RSRV_ERROR`.

A function treats a message as its own (`Cas.Local`) if what it does depends on the header, the body and its
data, and it changes nothing outside the body.

## What is proved

If the functions treat the messages of a stream as their own, it makes no difference where TCP cuts the
stream: whatever has been read of it, in whatever segments, `camessage` has done what the reader
`Cas.reader` does with the same bytes at once (`camessage_reads`, `segments_do_not_matter`).
-/

namespace Hieratika.ChannelAccess

open Foundations

/-- What `camessage` calls. -/
structure Cas (γ : Type*) where
  /-- `CA_V49` of the client. -/
  v49 : γ → Bool
  /-- The functions of `tcpJumpTable`, with the memory as `pBody` addresses it; `true` is `RSRV_OK`. -/
  action : CaHdrLargeArray → (ℤ → UInt8) → γ → γ × (ℤ → UInt8) × Bool
  /-- `send_err`. -/
  sendErr : CaHdrLargeArray → γ → γ
  /-- `casExpandRecvBuffer`, which is not in the repository: the new `maxstk`. -/
  expand : ℕ → ℕ → ℕ
  le_expand : ∀ maxstk size, maxstk ≤ expand maxstk size

/-- The client that is served. -/
structure Client (γ : Type*) where
  work : γ
  /-- The bytes of `recv.buf` below `recv.cnt`. -/
  buf : List UInt8
  /-- The memory around them, by the distance from `recv.buf`. -/
  around : ℤ → UInt8
  /-- `recv.stk`. -/
  stk : ℕ
  /-- `recv.maxstk`. -/
  maxstk : ℕ
  recvBytesToDrain : ℕ
  /-- `camessage` has returned `RSRV_ERROR`. -/
  closed : Bool

/-- The length of `tcpJumpTable`. -/
def tcpCommands : ℕ := 28

variable {γ : Type*} {A : Cas γ} {c c' : Client γ}

/-- Bytes from address 0 on, amid other memory. -/
def amid (bs : List UInt8) (around : ℤ → UInt8) (a : ℤ) : UInt8 :=
  if 0 ≤ a ∧ a < bs.length then bs.getD a.toNat 0 else around a

/-- The function of the jump table, with `pBody` behind the header at `recv.stk`. -/
def Client.call (A : Cas γ) (c : Client γ) (msg : CaHdrLargeArray) (header : ℕ) : Client γ × Bool :=
  let pBody : ℤ := (c.stk + header : ℕ)
  let (work, memory, ok) := A.action msg (fun k => amid c.buf c.around (pBody + k)) c.work
  ({ c with work := work
            buf := readInt memory (-pBody) c.buf.length
            around := fun a => memory (a - pBody) }, ok)

/-- A turn of the loop in `camessage`. -/
def Client.turn (A : Cas γ) (c : Client γ) : Turn (Client γ) (Client γ) :=
  let bytes := c.buf.drop c.stk
  match readHeader (A.v49 c.work) bytes with
  | none => .leave c
  | some (msg, header) =>
    let msgsize := u32 (msg.m_postsize + header)
    if msgsize % 8 ≠ 0 then .leave { c with work := A.sendErr msg c.work, closed := true }
    else
      let maxstk := if c.maxstk < msgsize then A.expand c.maxstk msgsize else c.maxstk
      if maxstk < msgsize then
        .leave { c with work := A.sendErr msg c.work, maxstk := maxstk
                        recvBytesToDrain := sub32 msgsize bytes.length, stk := c.buf.length }
      else if bytes.length < msgsize then .leave { c with maxstk := maxstk }
      else if msg.m_cmmd < tcpCommands then
        let (c', ok) := Client.call A { c with maxstk := maxstk } msg header
        if ok then .again { c' with stk := c.stk + msgsize } else .leave { c' with closed := true }
      else .leave { c with work := A.sendErr msg c.work, maxstk := maxstk, closed := true }

/-- `camessage`. -/
inductive Camessage (A : Cas γ) (c : Client γ) : Client γ → Prop
  /-- All of it belongs to a message that is thrown away. -/
  | drained : 0 < c.recvBytesToDrain → c.buf.length ≤ c.recvBytesToDrain →
      Camessage A c { c with recvBytesToDrain := c.recvBytesToDrain - c.buf.length, stk := c.buf.length }
  | behind {c' : Client γ} : 0 < c.recvBytesToDrain → c.recvBytesToDrain < c.buf.length →
      Ends (Client.turn A) { c with stk := c.stk + c.recvBytesToDrain, recvBytesToDrain := 0 } c' →
      Camessage A c c'
  | messages {c' : Client γ} : c.recvBytesToDrain = 0 → Ends (Client.turn A) c c' → Camessage A c c'

/-- What is left moves to the front. -/
def Client.compact (c : Client γ) : Client γ := { c with buf := c.buf.drop c.stk, stk := 0 }

/-- A segment from the socket, of at least one byte and at most the room in the buffer, and `camessage`. -/
inductive Receives (A : Cas γ) : Client γ × List UInt8 → Client γ × List UInt8 → Prop
  | segment {c c' : Client γ} {stream : List UInt8} {n : ℕ} (around : ℤ → UInt8) : c.closed = false → 0 < n →
      n ≤ stream.length → c.buf.length + n ≤ c.maxstk →
      Camessage A { c with buf := c.buf ++ stream.take n, around := around } c' →
      Receives A (c, stream) (c'.compact, stream.drop n)

/-! ### The reader -/

/-- What `camessage` remembers beside the bytes. -/
structure CasState (γ : Type*) where
  work : γ
  maxstk : ℕ
  recvBytesToDrain : ℕ
  closed : Bool

/-- A body in empty memory. -/
def alone (body : List UInt8) : ℤ → UInt8 := amid body fun _ => 0

/-- The body behind the function for its message. -/
def Cas.changed (A : Cas γ) (msg : CaHdrLargeArray) (body : List UInt8) (w : γ) : List UInt8 :=
  readInt (A.action msg (alone body) w).2.1 0 body.length

/-- The body of the message at the front. -/
def messageBody (l : List UInt8) (msgsize header : ℕ) : List UInt8 := (l.take msgsize).drop header

/-- The messages of a stream, one by one. -/
def Cas.reader (A : Cas γ) : Reader (CasState γ) UInt8 := fun s l =>
  if s.closed then none
  else if 0 < s.recvBytesToDrain then
    match l with
    | [] => none
    | _ :: rest => some ({ s with recvBytesToDrain := s.recvBytesToDrain - 1 }, rest)
  else
    match readHeader (A.v49 s.work) l with
    | none => none
    | some (msg, header) =>
      let msgsize := u32 (msg.m_postsize + header)
      if msgsize % 8 ≠ 0 then some ({ s with work := A.sendErr msg s.work, closed := true }, l)
      else if s.maxstk < msgsize then
        if A.expand s.maxstk msgsize < msgsize then
          some ({ s with work := A.sendErr msg s.work, maxstk := A.expand s.maxstk msgsize
                         recvBytesToDrain := msgsize }, l)
        else some ({ s with maxstk := A.expand s.maxstk msgsize }, l)
      else if l.length < msgsize then none
      else if msg.m_cmmd < tcpCommands then
        let body := messageBody l msgsize header
        let (work, _, ok) := A.action msg (alone body) s.work
        if ok then some ({ s with work := work }, l.drop msgsize)
        else some ({ s with work := work, closed := true },
          l.take header ++ (A.changed msg body s.work ++ l.drop (header + body.length)))
      else some ({ s with work := A.sendErr msg s.work, closed := true }, l)

variable {s : CasState γ} {l body : List UInt8} {msg : CaHdrLargeArray} {header : ℕ} {w : γ}

/-- The function for a message depends on the header, the body and its data, and changes the body only. -/
structure Cas.Local (A : Cas γ) (msg : CaHdrLargeArray) (body : List UInt8) (w : γ) : Prop where
  work : ∀ m, readInt m 0 body.length = body → (A.action msg m w).1 = (A.action msg (alone body) w).1
  ok : ∀ m, readInt m 0 body.length = body → (A.action msg m w).2.2 = (A.action msg (alone body) w).2.2
  changed : ∀ m, readInt m 0 body.length = body →
    readInt (A.action msg m w).2.1 0 body.length = A.changed msg body w
  around : ∀ m, readInt m 0 body.length = body → ∀ k : ℤ, k < 0 ∨ (body.length : ℤ) ≤ k →
    (A.action msg m w).2.1 k = m k

/-- The reader calls the function for a message. -/
def Cas.Hands (A : Cas γ) (x : CasState γ × List UInt8) (msg : CaHdrLargeArray) (body : List UInt8) : Prop :=
  x.1.closed = false ∧ x.1.recvBytesToDrain = 0 ∧ ∃ header,
    readHeader (A.v49 x.1.work) x.2 = some (msg, header) ∧
    u32 (msg.m_postsize + header) % 8 = 0 ∧ u32 (msg.m_postsize + header) ≤ x.1.maxstk ∧
    u32 (msg.m_postsize + header) ≤ x.2.length ∧ msg.m_cmmd < tcpCommands ∧
    body = messageBody x.2 (u32 (msg.m_postsize + header)) header

/-- The functions treat every message of what is still to come as their own. -/
def Cas.LocalFrom (A : Cas γ) (x₀ : CasState γ × List UInt8) : Prop :=
  ∀ x, Reachable (Reader.Reads A.reader) x₀ x → ∀ msg body, A.Hands x msg body → A.Local msg body x.1.work

/-! ### The memory of a function -/

theorem length_readInt (m : ℤ → UInt8) (a : ℤ) (n : ℕ) : (readInt m a n).length = n := by simp [readInt]

theorem readInt_congr {m m' : ℤ → UInt8} {a : ℤ} {n : ℕ} (h : ∀ j : ℕ, j < n → m (a + j) = m' (a + j)) :
    readInt m a n = readInt m' a n :=
  List.map_congr_left fun j hj => h j (List.mem_range.mp hj)

theorem readInt_add (m : ℤ → UInt8) (a : ℤ) (j k : ℕ) :
    readInt m a (j + k) = readInt m a j ++ readInt m (a + j) k := by
  simp only [readInt, List.range_add, List.map_append, List.map_map]
  congr 1
  refine List.map_congr_left fun i _ => ?_
  simp [add_assoc]

/-- Bytes of the buffer, as a function addresses them. -/
theorem readInt_amid {p q n : ℕ} (around : ℤ → UInt8) (h : q + n ≤ l.length) :
    readInt (fun k => amid l around (p + k)) (q - p) n = (l.drop q).take n := by
  refine List.ext_getElem (by rw [length_readInt, List.length_take, List.length_drop]; omega) fun j hj _ => ?_
  rw [length_readInt] at hj
  have haddr : (p : ℤ) + ((q : ℤ) - p + j) = ((q + j : ℕ) : ℤ) := by push_cast; ring
  simp only [readInt, List.getElem_map, List.getElem_range, List.getElem_take, List.getElem_drop, haddr]
  rw [amid, if_pos ⟨Int.natCast_nonneg _, by omega⟩, Int.toNat_natCast, List.getD_eq_getElem _ _ (by omega)]

theorem readInt_alone (body : List UInt8) : readInt (alone body) 0 body.length = body := by
  have h := readInt_amid (p := 0) (q := 0) (n := body.length) (l := body) (fun _ => 0) (Nat.zero_add _).le
  rw [List.drop_zero, List.take_length] at h
  simpa [alone] using h

/-- **A function that treats its message as its own** does what the reader says, and leaves the rest of the
buffer. -/
theorem call_local {p : ℕ} (hp : c.stk + header = p) (hlen : p + body.length ≤ c.buf.length)
    (hbody : body = (c.buf.drop p).take body.length) (hlocal : A.Local msg body c.work) :
    (c.call A msg header).1.work = (A.action msg (alone body) c.work).1 ∧
      (c.call A msg header).2 = (A.action msg (alone body) c.work).2.2 ∧
      (c.call A msg header).1.buf =
        c.buf.take p ++ (A.changed msg body c.work ++ c.buf.drop (p + body.length)) := by
  obtain ⟨m, hm⟩ : ∃ m, m = fun k => amid c.buf c.around ((p : ℤ) + k) := ⟨_, rfl⟩
  have hread : readInt m 0 body.length = body := by
    have h := readInt_amid (p := p) (q := p) (n := body.length) (l := c.buf) c.around hlen
    rw [← hm, sub_self] at h
    exact h.trans hbody.symm
  have hcall : c.call A msg header = ({ c with
      work := (A.action msg m c.work).1
      buf := readInt (A.action msg m c.work).2.1 (-(p : ℤ)) c.buf.length
      around := fun a => (A.action msg m c.work).2.1 (a - p) }, (A.action msg m c.work).2.2) := by
    subst hp hm
    rfl
  rw [hcall]
  refine ⟨hlocal.work m hread, hlocal.ok m hread, ?_⟩
  have hsplit : c.buf.length = p + (body.length + (c.buf.length - (p + body.length))) := by omega
  have hbefore : readInt (A.action msg m c.work).2.1 (-(p : ℤ)) p = c.buf.take p := by
    have h := readInt_amid (p := p) (q := 0) (n := p) (l := c.buf) c.around (by omega)
    rw [← hm, Nat.cast_zero, zero_sub, List.drop_zero] at h
    refine (readInt_congr fun j hj => hlocal.around m hread _ (Or.inl ?_)).trans h
    omega
  have hbehind : readInt (A.action msg m c.work).2.1 body.length (c.buf.length - (p + body.length)) =
      c.buf.drop (p + body.length) := by
    have h := readInt_amid (p := p) (q := p + body.length) (n := c.buf.length - (p + body.length))
      (l := c.buf) c.around (by omega)
    rw [← hm, Nat.cast_add, add_sub_cancel_left, List.take_of_length_le (by rw [List.length_drop])] at h
    refine (readInt_congr fun j hj => hlocal.around m hread _ (Or.inr ?_)).trans h
    omega
  show readInt (A.action msg m c.work).2.1 (-(p : ℤ)) c.buf.length = _
  rw [hsplit, readInt_add, readInt_add, neg_add_cancel, zero_add, hbefore, hlocal.changed m hread, hbehind]

/-! ### The reader, case by case -/

theorem reader_none (hclosed : s.closed = false) (hdrain : s.recvBytesToDrain = 0)
    (hread : readHeader (A.v49 s.work) l = none) : A.reader s l = none := by
  unfold Cas.reader
  rw [hclosed, hdrain, hread]
  rfl

/-- What the reader does behind a header. -/
theorem reader_some (hclosed : s.closed = false) (hdrain : s.recvBytesToDrain = 0)
    (hread : readHeader (A.v49 s.work) l = some (msg, header)) : A.reader s l =
      if u32 (msg.m_postsize + header) % 8 ≠ 0 then
        some ({ s with work := A.sendErr msg s.work, closed := true }, l)
      else if s.maxstk < u32 (msg.m_postsize + header) then
        if A.expand s.maxstk (u32 (msg.m_postsize + header)) < u32 (msg.m_postsize + header) then
          some ({ s with work := A.sendErr msg s.work
                         maxstk := A.expand s.maxstk (u32 (msg.m_postsize + header))
                         recvBytesToDrain := u32 (msg.m_postsize + header) }, l)
        else some ({ s with maxstk := A.expand s.maxstk (u32 (msg.m_postsize + header)) }, l)
      else if l.length < u32 (msg.m_postsize + header) then none
      else if msg.m_cmmd < tcpCommands then
        if (A.action msg (alone (messageBody l (u32 (msg.m_postsize + header)) header)) s.work).2.2 then
          some ({ s with
            work := (A.action msg (alone (messageBody l (u32 (msg.m_postsize + header)) header)) s.work).1 },
            l.drop (u32 (msg.m_postsize + header)))
        else some ({ s with
            work := (A.action msg (alone (messageBody l (u32 (msg.m_postsize + header)) header)) s.work).1
            closed := true },
          l.take header ++ (A.changed msg (messageBody l (u32 (msg.m_postsize + header)) header) s.work ++
            l.drop (header + (messageBody l (u32 (msg.m_postsize + header)) header).length)))
      else some ({ s with work := A.sendErr msg s.work, closed := true }, l) := by
  unfold Cas.reader
  rw [hclosed, hdrain, hread]
  rfl

theorem length_messageBody {msgsize : ℕ} (h : msgsize ≤ l.length) :
    (messageBody l msgsize header).length = msgsize - header := by
  rw [messageBody, List.length_drop, List.length_take, min_eq_left h]

theorem messageBody_more {msgsize : ℕ} (h : msgsize ≤ l.length) (tail : List UInt8) :
    messageBody (l ++ tail) msgsize header = messageBody l msgsize header := by
  rw [messageBody, List.take_append_of_le_length h, messageBody]

/-- **The reader does not look ahead**. -/
theorem reader_streams (A : Cas γ) : Reader.Streams A.reader := by
  intro s l s' l' hstep tail
  cases hclosed : s.closed with
  | true =>
    unfold Cas.reader at hstep
    rw [hclosed] at hstep
    cases hstep
  | false =>
    rcases Nat.eq_zero_or_pos s.recvBytesToDrain with hdrain | hdrain
    · cases hread : readHeader (A.v49 s.work) l with
      | none =>
        rw [reader_none hclosed hdrain hread] at hstep
        cases hstep
      | some x =>
        obtain ⟨msg, header⟩ := x
        rw [reader_some hclosed hdrain hread] at hstep
        rw [reader_some hclosed hdrain (readHeader_more hread tail)]
        have hheader := (readHeader_size hread).2.2
        dsimp only at hheader
        generalize u32 (msg.m_postsize + header) = msgsize at hstep ⊢
        by_cases halign : msgsize % 8 ≠ 0
        · rw [if_pos halign] at hstep ⊢
          cases hstep
          rfl
        · rw [if_neg halign] at hstep ⊢
          by_cases hlarge : s.maxstk < msgsize
          · rw [if_pos hlarge] at hstep ⊢
            split_ifs at hstep ⊢ <;> cases hstep <;> rfl
          · rw [if_neg hlarge] at hstep ⊢
            by_cases hpart : l.length < msgsize
            · rw [if_pos hpart] at hstep
              cases hstep
            · have hwhole := not_lt.mp hpart
              have hlen : (messageBody l msgsize header).length = _ := length_messageBody hwhole
              rw [if_neg hpart] at hstep
              rw [if_neg (by rw [List.length_append]; omega), messageBody_more hwhole,
                List.drop_append_of_le_length hwhole, List.take_append_of_le_length hheader,
                List.drop_append_of_le_length (show header + _ ≤ _ by rw [hlen]; omega)]
              simp only [← List.append_assoc]
              split_ifs at hstep ⊢ <;> cases hstep <;> simp only [List.append_assoc]
    · unfold Cas.reader at hstep ⊢
      rw [hclosed, if_neg Bool.false_ne_true, if_pos hdrain] at hstep ⊢
      cases l with
      | nil => cases hstep
      | cons b l =>
        cases hstep
        rfl

/-- Bytes that are thrown away. -/
theorem reads_drain (A : Cas γ) (hclosed : s.closed = false) {k : ℕ} : ∀ {l : List UInt8} {d : ℕ},
    s.recvBytesToDrain = d + k → k ≤ l.length →
    Reachable (Reader.Reads A.reader) (s, l) ({ s with recvBytesToDrain := d }, l.drop k) := by
  induction k generalizing s with
  | zero =>
    intro l d hd _
    obtain ⟨work, maxstk, drain, closed⟩ := s
    cases hd
    exact .refl
  | succ k ih =>
    intro l d hd hk
    cases l with
    | nil => cases hk
    | cons b l =>
      have hstep : Reader.Reads A.reader (s, b :: l) ({ s with recvBytesToDrain := d + k }, l) := by
        have hpos : 0 < s.recvBytesToDrain := by omega
        unfold Reader.Reads Cas.reader
        rw [hclosed, if_neg Bool.false_ne_true, if_pos hpos, hd]
        rfl
      have hrest : k ≤ l.length := Nat.le_of_succ_le_succ hk
      exact .head hstep (ih (s := { s with recvBytesToDrain := d + k }) hclosed rfl hrest)

theorem waits_drain (hclosed : s.closed = false) (hdrain : 0 < s.recvBytesToDrain) :
    Reader.Waits A.reader (s, []) := by
  unfold Reader.Waits Cas.reader
  rw [hclosed, if_neg Bool.false_ne_true, if_pos hdrain]

theorem waits_closed (hclosed : s.closed = true) : Reader.Waits A.reader (s, l) := by
  unfold Reader.Waits Cas.reader
  rw [hclosed, if_pos rfl]

/-! ### The loop is the reader -/

/-- What the reader has of the client. -/
def Client.state (c : Client γ) : CasState γ := ⟨c.work, c.maxstk, c.recvBytesToDrain, c.closed⟩

/-- The reader with the bytes that are still in the buffer. -/
def Client.unread (c : Client γ) : CasState γ × List UInt8 := (c.state, c.buf.drop c.stk)

/-- In the loop nothing is thrown away, and the buffer is not exceeded. -/
structure Client.InLoop (c : Client γ) : Prop where
  open_ : c.closed = false
  drain : c.recvBytesToDrain = 0
  stk_le : c.stk ≤ c.buf.length
  buf_le : c.buf.length ≤ c.maxstk

/-- What a turn leaves: the loop goes on or ends, and the reader goes on or waits. -/
inductive Client.Turned (A : Cas γ) (c : Client γ) : Turn (Client γ) (Client γ) → Prop
  | again {c' : Client γ} : Reachable (Reader.Reads A.reader) c.unread c'.unread → c'.InLoop →
      Client.Turned A c (.again c')
  | leave {c' : Client γ} : Reachable (Reader.Reads A.reader) c.unread c'.unread →
      Reader.Waits A.reader c'.unread → c'.buf.length ≤ c'.maxstk → Client.Turned A c (.leave c')

theorem turn_none (hread : readHeader (A.v49 c.work) (c.buf.drop c.stk) = none) : c.turn A = .leave c := by
  unfold Client.turn
  dsimp only
  rw [hread]

/-- The buffer that is asked for. -/
def Client.maxstkFor (A : Cas γ) (c : Client γ) (msgsize : ℕ) : ℕ :=
  if c.maxstk < msgsize then A.expand c.maxstk msgsize else c.maxstk

theorem maxstk_le (msgsize : ℕ) : c.maxstk ≤ c.maxstkFor A msgsize := by
  unfold Client.maxstkFor
  split_ifs
  · exact A.le_expand _ _
  · exact le_rfl

/-- What a turn does behind a header. -/
theorem turn_some (hread : readHeader (A.v49 c.work) (c.buf.drop c.stk) = some (msg, header)) {msgsize : ℕ}
    (hsize : u32 (msg.m_postsize + header) = msgsize) : c.turn A =
      if msgsize % 8 ≠ 0 then .leave { c with work := A.sendErr msg c.work, closed := true }
      else if c.maxstkFor A msgsize < msgsize then
        .leave { c with work := A.sendErr msg c.work, maxstk := c.maxstkFor A msgsize
                        recvBytesToDrain := sub32 msgsize (c.buf.drop c.stk).length, stk := c.buf.length }
      else if (c.buf.drop c.stk).length < msgsize then .leave { c with maxstk := c.maxstkFor A msgsize }
      else if msg.m_cmmd < tcpCommands then
        if (Client.call A { c with maxstk := c.maxstkFor A msgsize } msg header).2 then
          .again { (Client.call A { c with maxstk := c.maxstkFor A msgsize } msg header).1 with
            stk := c.stk + msgsize }
        else .leave { (Client.call A { c with maxstk := c.maxstkFor A msgsize } msg header).1 with
            closed := true }
      else .leave { c with
          work := A.sendErr msg c.work, maxstk := c.maxstkFor A msgsize, closed := true } := by
  subst hsize
  unfold Client.turn
  dsimp only
  rw [hread]
  rfl

/-- The reader asks for the same buffer. -/
theorem reads_expand (hc : c.InLoop)
    (hread : readHeader (A.v49 c.work) (c.buf.drop c.stk) = some (msg, header)) {msgsize : ℕ}
    (hsize : u32 (msg.m_postsize + header) = msgsize) (halign : ¬ msgsize % 8 ≠ 0)
    (hfits : ¬ c.maxstkFor A msgsize < msgsize) :
    Reachable (Reader.Reads A.reader) c.unread
      ({ c.state with maxstk := c.maxstkFor A msgsize }, c.buf.drop c.stk) := by
  unfold Client.maxstkFor at hfits ⊢
  by_cases hlarge : c.maxstk < msgsize
  · rw [if_pos hlarge] at hfits ⊢
    refine Reachable.refl.next ?_
    rw [Reader.Reads, Client.unread, reader_some hc.open_ hc.drain hread, hsize, if_neg halign,
      if_pos (by exact hlarge), if_neg (by exact hfits)]
    rfl
  · rw [if_neg hlarge]
    exact .refl

/-- What a function that treats its message as its own leaves unread. -/
theorem call_unread (hread : readHeader (A.v49 c.work) (c.buf.drop c.stk) = some (msg, header)) {msgsize : ℕ}
    (hstk : c.stk ≤ c.buf.length) (hwhole : msgsize ≤ (c.buf.drop c.stk).length)
    (hlocal : A.Local msg (messageBody (c.buf.drop c.stk) msgsize header) c.work) :
    let body := messageBody (c.buf.drop c.stk) msgsize header
    let called := Client.call A c msg header
    called.1.work = (A.action msg (alone body) c.work).1 ∧
      called.2 = (A.action msg (alone body) c.work).2.2 ∧ called.1.buf.length = c.buf.length ∧
      called.1.buf.drop (c.stk + msgsize) = (c.buf.drop c.stk).drop msgsize ∧
      called.1.buf.drop c.stk = (c.buf.drop c.stk).take header ++
        (A.changed msg body c.work ++ (c.buf.drop c.stk).drop (header + body.length)) := by
  intro body called
  have hheader := (readHeader_size hread).2.2
  have hlen : body.length = msgsize - header := length_messageBody hwhole
  rw [List.length_drop] at hheader hwhole
  have hchanged : (A.changed msg body c.work).length = body.length := length_readInt _ _ _
  have hbody : body = (c.buf.drop (c.stk + header)).take body.length := by
    rw [hlen, ← List.drop_drop, ← List.drop_take]
    rfl
  obtain ⟨hwork, hok, hbuf⟩ := call_local rfl (by omega) hbody hlocal
  have hfront : (c.buf.take (c.stk + header)).length = c.stk + header := by
    rw [List.length_take]
    omega
  refine ⟨hwork, hok, ?_, ?_, ?_⟩
  · show (Client.call A c msg header).1.buf.length = _
    rw [hbuf, List.length_append, List.length_append, List.length_drop, hfront, hchanged]
    omega
  · show (Client.call A c msg header).1.buf.drop _ = _
    rw [hbuf, List.drop_drop]
    by_cases hle : header ≤ msgsize
    · rw [← List.append_assoc, List.drop_append_of_le_length, List.drop_of_length_le, List.nil_append]
      · congr 1
        omega
      · rw [List.length_append, hfront, hchanged]
        omega
      · rw [List.length_append, hfront, hchanged]
        omega
    · have hzero : body.length = 0 := by omega
      rw [List.eq_nil_of_length_eq_zero (hchanged.trans hzero), hzero, List.nil_append, Nat.add_zero,
        List.take_append_drop]
  · show (Client.call A c msg header).1.buf.drop _ = _
    rw [hbuf, List.drop_append_of_le_length (by rw [hfront]; omega), List.drop_drop, List.drop_take,
      Nat.add_sub_cancel_left, Nat.add_assoc]

/-- What is true of all that is to come is true behind a part of it. -/
theorem Cas.LocalFrom.along {x y : CasState γ × List UInt8} (h : A.LocalFrom x)
    (hrun : Reachable (Reader.Reads A.reader) x y) : A.LocalFrom y := fun _ hz => h _ (hrun.trans hz)

/-- The reader may have read something before the turn. -/
theorem Client.Turned.head {d : Client γ} {t : Turn (Client γ) (Client γ)}
    (hrun : Reachable (Reader.Reads A.reader) c.unread d.unread) (h : d.Turned A t) : c.Turned A t := by
  cases h with
  | again hreads hloop => exact .again (hrun.trans hreads) hloop
  | leave hreads hwaits hle => exact .leave (hrun.trans hreads) hwaits hle

/-- A message that no buffer can hold. -/
theorem turned_over (hc : c.InLoop)
    (hread : readHeader (A.v49 c.work) (c.buf.drop c.stk) = some (msg, header)) {msgsize : ℕ}
    (hsize : u32 (msg.m_postsize + header) = msgsize) (halign : ¬ msgsize % 8 ≠ 0)
    (hover : c.maxstkFor A msgsize < msgsize) :
    c.Turned A (.leave { c with
      work := A.sendErr msg c.work, maxstk := c.maxstkFor A msgsize
      recvBytesToDrain := sub32 msgsize (c.buf.drop c.stk).length, stk := c.buf.length }) := by
  have hlarge : c.maxstk < msgsize := (maxstk_le msgsize).trans_lt hover
  have hmax : c.maxstkFor A msgsize = A.expand c.maxstk msgsize := if_pos hlarge
  have hstep := reader_some (s := c.state) hc.open_ hc.drain hread
  rw [hsize, if_neg halign, if_pos (by exact hlarge), if_pos (by exact hmax ▸ hover)] at hstep
  have hleft : (c.buf.drop c.stk).length < msgsize := by
    have hle := hc.buf_le
    rw [List.length_drop]
    omega
  have hdrain : Reachable (Reader.Reads A.reader)
      (⟨A.sendErr msg c.work, A.expand c.maxstk msgsize, msgsize, c.closed⟩, c.buf.drop c.stk)
      (⟨A.sendErr msg c.work, A.expand c.maxstk msgsize, msgsize - (c.buf.drop c.stk).length, c.closed⟩,
        (c.buf.drop c.stk).drop (c.buf.drop c.stk).length) :=
    reads_drain (s := ⟨_, _, msgsize, c.closed⟩) A hc.open_ (Nat.sub_add_cancel hleft.le).symm le_rfl
  have hfirst : Reader.Reads A.reader c.unread _ := hstep
  have hrun := hdrain.head hfirst
  rw [List.drop_length] at hrun
  rw [hmax, sub32_of_le (hsize ▸ u32_lt _) hleft.le]
  refine .leave ?_ ?_ (hc.buf_le.trans (A.le_expand _ _))
  · rw [Client.unread, Client.unread, List.drop_length]
    exact hrun
  · rw [Client.unread, List.drop_length]
    exact waits_drain hc.open_ (Nat.sub_pos_of_lt hleft)

/-- A whole message that fits, and its function. -/
theorem turned_call (hc : c.InLoop)
    (hread : readHeader (A.v49 c.work) (c.buf.drop c.stk) = some (msg, header)) {msgsize : ℕ}
    (hsize : u32 (msg.m_postsize + header) = msgsize) (halign : ¬ msgsize % 8 ≠ 0)
    (hfits : msgsize ≤ c.maxstk) (hwhole : msgsize ≤ (c.buf.drop c.stk).length)
    (hcmmd : msg.m_cmmd < tcpCommands) (hlocal : A.LocalFrom c.unread) :
    c.Turned A (if (Client.call A c msg header).2 then
      .again { (Client.call A c msg header).1 with stk := c.stk + msgsize }
      else .leave { (Client.call A c msg header).1 with closed := true }) := by
  have hhands : A.Hands c.unread msg (messageBody (c.buf.drop c.stk) msgsize header) :=
    ⟨hc.open_, hc.drain, header, hread, by rw [hsize]; omega, by rw [hsize]; exact hfits,
      by rw [hsize]; exact hwhole, hcmmd, by rw [hsize]; rfl⟩
  obtain ⟨hwork, hok, hlen, hnext, hfail⟩ := call_unread hread hc.stk_le hwhole (hlocal _ .refl _ _ hhands)
  have hstep := reader_some (s := c.state) hc.open_ hc.drain hread
  rw [hsize, if_neg halign, if_neg (by exact not_lt.mpr hfits), if_neg (not_lt.mpr hwhole),
    if_pos hcmmd] at hstep
  obtain ⟨called, hcalled⟩ : ∃ x, x = Client.call A c msg header := ⟨_, rfl⟩
  have hframe : called.1.maxstk = c.maxstk ∧ called.1.stk = c.stk ∧
      called.1.recvBytesToDrain = c.recvBytesToDrain ∧ called.1.closed = c.closed := by
    rw [hcalled]
    exact ⟨rfl, rfl, rfl, rfl⟩
  rw [← hcalled] at hwork hok hlen hnext hfail ⊢
  obtain ⟨hmaxstk, hstk, hdrain, hclosed⟩ := hframe
  have hroom : called.1.buf.length ≤ called.1.maxstk := by
    rw [hlen, hmaxstk]
    exact hc.buf_le
  cases hdone : called.2 with
  | true =>
    rw [if_pos (by exact hok.symm.trans hdone)] at hstep
    rw [if_pos rfl]
    have hunread : Client.unread { called.1 with stk := c.stk + msgsize } =
        ({ c.state with
          work := (A.action msg (alone (messageBody (c.buf.drop c.stk) msgsize header)) c.work).1 },
          (c.buf.drop c.stk).drop msgsize) := by
      simp only [Client.unread, Client.state, hnext, hwork, hmaxstk, hdrain, hclosed]
    refine .again (hunread ▸ Reachable.refl.next hstep)
      ⟨hclosed.trans hc.open_, hdrain.trans hc.drain, ?_, hroom⟩
    have hle := hc.stk_le
    rw [List.length_drop] at hwhole
    show c.stk + msgsize ≤ called.1.buf.length
    omega
  | false =>
    rw [if_neg (by exact fun h => Bool.false_ne_true (hdone.symm.trans (hok.trans h)))] at hstep
    rw [if_neg Bool.false_ne_true]
    have hunread : Client.unread { called.1 with closed := true } =
        ({ c.state with
          work := (A.action msg (alone (messageBody (c.buf.drop c.stk) msgsize header)) c.work).1
          closed := true },
        (c.buf.drop c.stk).take header ++
          (A.changed msg (messageBody (c.buf.drop c.stk) msgsize header) c.work ++
            (c.buf.drop c.stk).drop (header + (messageBody (c.buf.drop c.stk) msgsize header).length))) := by
      simp only [Client.unread, Client.state, hfail, hstk, hwork, hmaxstk, hdrain]
    exact .leave (hunread ▸ Reachable.refl.next hstep) (waits_closed rfl) hroom

/-- **A turn of the loop** is a run of the reader. -/
theorem turn_turned (hc : c.InLoop) (hlocal : A.LocalFrom c.unread) : c.Turned A (c.turn A) := by
  cases hread : readHeader (A.v49 c.work) (c.buf.drop c.stk) with
  | none =>
    rw [turn_none hread]
    exact .leave .refl (reader_none hc.open_ hc.drain hread) hc.buf_le
  | some x =>
    obtain ⟨msg, header⟩ := x
    obtain ⟨msgsize, hsize⟩ : ∃ n, u32 (msg.m_postsize + header) = n := ⟨_, rfl⟩
    rw [turn_some hread hsize]
    by_cases halign : msgsize % 8 ≠ 0
    · have hstep := reader_some (s := c.state) hc.open_ hc.drain hread
      rw [hsize, if_pos halign] at hstep
      rw [if_pos halign]
      exact .leave (Reachable.refl.next hstep) (waits_closed rfl) hc.buf_le
    · rw [if_neg halign]
      by_cases hover : c.maxstkFor A msgsize < msgsize
      · rw [if_pos hover]
        exact turned_over hc hread hsize halign hover
      · rw [if_neg hover]
        have hexpand := reads_expand hc hread hsize halign hover
        have hroom := hc.buf_le.trans (maxstk_le (A := A) msgsize)
        have hstep :=
          reader_some (s := { c.state with maxstk := c.maxstkFor A msgsize }) hc.open_ hc.drain hread
        rw [hsize, if_neg halign, if_neg (by exact hover)] at hstep
        by_cases hpart : (c.buf.drop c.stk).length < msgsize
        · rw [if_pos hpart] at hstep ⊢
          exact .leave hexpand hstep hroom
        · rw [if_neg hpart] at hstep ⊢
          by_cases hcmmd : msg.m_cmmd < tcpCommands
          · rw [if_pos hcmmd]
            have hcall := turned_call (c := { c with maxstk := c.maxstkFor A msgsize })
              ⟨hc.open_, hc.drain, hc.stk_le, hroom⟩ hread hsize halign (not_lt.mp hover)
              (not_lt.mp hpart) hcmmd (hlocal.along hexpand)
            exact Client.Turned.head (d := { c with maxstk := c.maxstkFor A msgsize }) hexpand hcall
          · rw [if_neg hcmmd] at hstep ⊢
            exact .leave (hexpand.next hstep) (waits_closed rfl) hroom

/-- Nor does less behind it change that. -/
theorem Cas.LocalFrom.less {tail : List UInt8} (h : A.LocalFrom (s, l ++ tail)) : A.LocalFrom (s, l) := by
  rintro ⟨s', l'⟩ hrun msg body ⟨hopen, hdrain, header, hread, halign, hroom, hwhole, hcmmd, hbody⟩
  refine h _ ((reader_streams A).run_more hrun tail) msg body
    ⟨hopen, hdrain, header, readHeader_more hread tail, halign, hroom, ?_, hcmmd, ?_⟩
  · exact hwhole.trans (by rw [Reader.more, List.length_append]; exact Nat.le_add_right _ _)
  · exact hbody.trans (messageBody_more hwhole tail).symm

theorem ends_reads (hc : c.InLoop) (hlocal : A.LocalFrom c.unread) (h : Ends (Client.turn A) c c') :
    Reachable (Reader.Reads A.reader) c.unread c'.unread ∧ Reader.Waits A.reader c'.unread ∧
      c'.buf.length ≤ c'.maxstk := by
  induction h with
  | leave hturn =>
    have hturned := turn_turned (A := A) hc hlocal
    rw [hturn] at hturned
    cases hturned with
    | leave hrun hwaits hle => exact ⟨hrun, hwaits, hle⟩
  | again hturn _ ih =>
    have hturned := turn_turned (A := A) hc hlocal
    rw [hturn] at hturned
    cases hturned with
    | again hrun hloop =>
      obtain ⟨hrest, hwaits, hle⟩ := ih hloop (hlocal.along hrun)
      exact ⟨hrun.trans hrest, hwaits, hle⟩

/-- A client between two calls of `camessage`. -/
structure Client.Between (c : Client γ) : Prop where
  stk : c.stk = 0
  buf_le : c.buf.length ≤ c.maxstk

/-- **A call of `camessage`** is a run of the reader, up to where it waits. -/
theorem camessage_reads (hc : c.Between) (hopen : c.closed = false) (hlocal : A.LocalFrom (c.state, c.buf))
    (h : Camessage A c c') :
    Reachable (Reader.Reads A.reader) (c.state, c.buf) c'.unread ∧ Reader.Waits A.reader c'.unread ∧
      c'.buf.length ≤ c'.maxstk := by
  cases h with
  | drained hpos hle =>
    have hdrain := reads_drain (s := c.state) A hopen (Nat.sub_add_cancel hle).symm le_rfl
    rw [Client.unread, List.drop_length]
    rw [List.drop_length] at hdrain
    refine ⟨hdrain, ?_, hc.buf_le⟩
    rcases Nat.eq_zero_or_pos (c.recvBytesToDrain - c.buf.length) with hzero | hleft
    · exact reader_none hopen hzero rfl
    · exact waits_drain hopen hleft
  | behind hpos hlt hends =>
    have hdrain := reads_drain (s := c.state) (d := 0) A hopen (Nat.zero_add _).symm hlt.le
    have hstk : c.stk + c.recvBytesToDrain = c.recvBytesToDrain := by rw [hc.stk, Nat.zero_add]
    rw [hstk] at hends
    obtain ⟨hrun, hwaits, hle⟩ := ends_reads
      (c := { c with stk := c.recvBytesToDrain, recvBytesToDrain := 0 }) ⟨hopen, rfl, hlt.le, hc.buf_le⟩
      (hlocal.along hdrain) hends
    exact ⟨hdrain.trans hrun, hwaits, hle⟩
  | messages hzero hends =>
    have hunread : c.unread = (c.state, c.buf) := by rw [Client.unread, hc.stk, List.drop_zero]
    obtain ⟨hrun, hwaits, hle⟩ :=
      ends_reads ⟨hopen, hzero, hc.stk ▸ Nat.zero_le _, hc.buf_le⟩ (hunread.symm ▸ hlocal) hends
    rw [hunread] at hrun
    exact ⟨hrun, hwaits, hle⟩

/-! ### The connection -/

/-- A client that has just connected. -/
def Client.fresh (work : γ) (maxstk : ℕ) : Client γ := ⟨work, [], fun _ => 0, 0, maxstk, 0, false⟩

/-- What was read of a stream is what the reader reads of it. -/
structure Received (A : Cas γ) (c : Client γ) (stream : List UInt8) (x : Client γ × List UInt8) : Prop where
  between : x.1.Between
  reads : Reachable (Reader.Reads A.reader) (c.state, stream) (x.1.state, x.1.buf ++ x.2)
  waits : Reader.Waits A.reader (x.1.state, x.1.buf)

variable {work : γ} {maxstk : ℕ} {stream : List UInt8} {x y : Client γ × List UInt8}

theorem received_fresh (A : Cas γ) (work : γ) (maxstk : ℕ) (stream : List UInt8) :
    Received A (.fresh work maxstk) stream (.fresh work maxstk, stream) :=
  ⟨⟨rfl, Nat.zero_le _⟩, .refl, reader_none rfl rfl rfl⟩

/-- **A segment** more. -/
theorem Received.step (hlocal : A.LocalFrom (c.state, stream)) (hx : Received A c stream x)
    (h : Receives A x y) :
    Received A c stream y := by
  cases h with
  | @segment c₁ c₂ rest n around hopen hpos hle hroom hcall =>
    have hbetween : Client.Between { c₁ with buf := c₁.buf ++ rest.take n, around := around } := by
      refine ⟨hx.between.stk, ?_⟩
      show (c₁.buf ++ rest.take n).length ≤ c₁.maxstk
      rw [List.length_append, List.length_take, min_eq_left hle]
      exact hroom
    have hrest := hlocal.along hx.reads
    dsimp only at hrest
    rw [← List.take_append_drop n rest, ← List.append_assoc] at hrest
    obtain ⟨hrun, hwaits, hbuf⟩ := camessage_reads hbetween hopen hrest.less hcall
    refine ⟨⟨rfl, ?_⟩, ?_, hwaits⟩
    · rw [Client.compact, List.length_drop]
      exact (Nat.sub_le _ _).trans hbuf
    · have hreads := hx.reads
      rw [← List.take_append_drop n rest] at hreads
      exact (reader_streams A).run_segment hreads hrun

theorem receives_received (hlocal : A.LocalFrom ((Client.fresh work maxstk).state, stream))
    (h : Reachable (Receives A) (.fresh work maxstk, stream) x) : Received A (.fresh work maxstk) stream x :=
  h.invariant (received_fresh A work maxstk stream) fun _ _ ha hstep => ha.step hlocal hstep

/-- At the end of a stream, or when the client is disconnected, the reader waits. -/
theorem Received.waits_end (hx : Received A c stream x) (hend : x.2 = [] ∨ x.1.closed = true) :
    Reader.Waits A.reader (x.1.state, x.1.buf ++ x.2) := by
  rcases hend with hnil | hclosed
  · rw [hnil, List.append_nil]
    exact hx.waits
  · exact waits_closed hclosed

/-- **The segments do not matter**: a stream whose messages the functions treat as their own, and that arrives
in two different ways, up to its end or to the disconnection of the client, has called the same functions
with the same messages, and left the same bytes unread. -/
theorem segments_do_not_matter (A : Cas γ) (work : γ) (maxstk : ℕ) (stream rest₁ rest₂ : List UInt8)
    (c₁ c₂ : Client γ) (hlocal : A.LocalFrom ((Client.fresh work maxstk).state, stream))
    (h₁ : Reachable (Receives A) (.fresh work maxstk, stream) (c₁, rest₁))
    (h₂ : Reachable (Receives A) (.fresh work maxstk, stream) (c₂, rest₂))
    (hend₁ : rest₁ = [] ∨ c₁.closed = true) (hend₂ : rest₂ = [] ∨ c₂.closed = true) :
    c₁.state = c₂.state ∧ c₁.buf ++ rest₁ = c₂.buf ++ rest₂ := by
  have hr₁ := receives_received hlocal h₁
  have hr₂ := receives_received hlocal h₂
  have hone := Reader.end_unique hr₁.reads (hr₁.waits_end hend₁) hr₂.reads (hr₂.waits_end hend₂)
  exact Prod.mk.inj hone

/-- The server whose clients ask for `tcp_echo_action` only, with the bytes that it has sent back. -/
def echoCas : Cas (List UInt8) where
  v49 _ := true
  action mp pPayload sent := (sent ++ readInt pPayload 0 mp.m_postsize, pPayload, true)
  sendErr _ sent := sent
  expand maxstk _ := maxstk
  le_expand _ _ := le_rfl

/-- What is in a body is the same wherever the body is. -/
theorem readInt_body {m : ℤ → UInt8} (hm : readInt m 0 body.length = body) {k n : ℕ}
    (h : k + n ≤ body.length) :
    readInt m k n = readInt (alone body) k n := by
  have hboth : readInt m 0 body.length = readInt (alone body) 0 body.length :=
    hm.trans (readInt_alone body).symm
  refine readInt_congr fun j hj => ?_
  have hget := congrArg (fun l => l.getD (k + j) 0) hboth
  have hlt : k + j < body.length := by omega
  simp only [readInt, List.getD_eq_getElem?_getD, List.getElem?_map, List.getElem?_range hlt, Option.map_some,
    Option.getD_some, zero_add, Nat.cast_add] at hget
  exact hget

/-- An echo treats a message as its own that is as long as it says. -/
theorem echo_local (hsize : msg.m_postsize ≤ body.length) (sent : List UInt8) :
    echoCas.Local msg body sent where
  work m hm := congrArg (sent ++ ·) (readInt_body hm (k := 0) (by omega))
  ok _ _ := rfl
  changed m hm := readInt_body hm (k := 0) (by omega)
  around _ _ _ _ := rfl

/-- A segment, by what it is. -/
theorem Receives.piece {segment rest : List UInt8} {around : ℤ → UInt8} (hopen : c.closed = false)
    (hpos : 0 < segment.length) (hroom : c.buf.length + segment.length ≤ c.maxstk)
    (hcall : Camessage A { c with buf := c.buf ++ segment, around := around } c') :
    Receives A (c, segment ++ rest) (c'.compact, rest) := by
  have hle : segment.length ≤ (segment ++ rest).length := by
    rw [List.length_append]
    exact Nat.le_add_right _ _
  have h : Receives A (c, segment ++ rest) (c'.compact, (segment ++ rest).drop segment.length) :=
    .segment around hopen hpos hle hroom (by rw [List.take_left]; exact hcall)
  rwa [List.drop_left] at h

/-- An echo of eight bytes, at once and in two pieces. -/
theorem segments_do_not_matter_echo : ∃ (stream : List UInt8) (c₁ c₂ : Client (List UInt8)),
    Reachable (Receives echoCas) (.fresh [] 64, stream) (c₁, []) ∧
      Reachable (Receives echoCas) (.fresh [] 64, stream) (c₂, []) ∧ c₁.work = [1, 2, 3, 4, 5, 6, 7, 8] ∧
      c₁.state = c₂.state ∧ c₁.buf ++ [] = c₂.buf ++ [] := by
  obtain ⟨half, rest, hhalf, hrest⟩ : ∃ half rest : List UInt8,
      half = be16 23 ++ be16 8 ++ List.replicate 6 0 ∧
        rest = List.replicate 6 0 ++ [1, 2, 3, 4, 5, 6, 7, 8] := ⟨_, _, rfl, rfl⟩
  obtain ⟨c₁, hends, hwork⟩ : ∃ c,
      Ends (Client.turn echoCas) ⟨[], half ++ rest, fun _ => 0, 0, 64, 0, false⟩ c ∧
      c.work = [1, 2, 3, 4, 5, 6, 7, 8] := by
    rw [hhalf, hrest]
    exact ⟨_, .again rfl (.leave rfl), rfl⟩
  have hwaits : Ends (Client.turn echoCas) ⟨[], half, fun _ => 0, 0, 64, 0, false⟩
      ⟨[], half, fun _ => 0, 0, 64, 0, false⟩ := by
    rw [hhalf]
    exact .leave rfl
  have hone : Receives echoCas (.fresh [] 64, (half ++ rest) ++ []) (c₁.compact, []) :=
    .piece rfl (by rw [hhalf, hrest]; decide) (by rw [hhalf, hrest]; decide) (.messages rfl hends)
  have hfirst : Receives echoCas (.fresh [] 64, half ++ rest) (_, rest) :=
    .piece rfl (by rw [hhalf]; decide) (by rw [hhalf]; decide) (.messages rfl hwaits)
  have hsecond : Receives echoCas (⟨[], half, fun _ => 0, 0, 64, 0, false⟩, rest ++ []) (c₁.compact, []) :=
    .piece rfl (by rw [hrest]; decide) (by rw [hhalf, hrest]; decide) (.messages rfl hends)
  rw [List.append_nil] at hone hsecond
  have htwo := (Reachable.refl.next hfirst).next hsecond
  have hlocal : echoCas.LocalFrom ((Client.fresh [] 64).state, half ++ rest) := by
    have hreads : echoCas.reader ⟨[], 64, 0, false⟩ (half ++ rest) =
        some (⟨[1, 2, 3, 4, 5, 6, 7, 8], 64, 0, false⟩, []) := by
      rw [hhalf, hrest]
      rfl
    intro x hrun msg body hhands
    have hx := hrun.invariant (I := fun x =>
        x = (⟨[], 64, 0, false⟩, half ++ rest) ∨ x = (⟨[1, 2, 3, 4, 5, 6, 7, 8], 64, 0, false⟩, []))
      (Or.inl rfl) <| by
      rintro a b ha hstep
      rcases ha with rfl | rfl
      · exact .inr (Option.some.inj (hstep.symm.trans hreads))
      · cases hstep
    obtain ⟨-, -, header, hread, -, -, -, -, hbody⟩ := hhands
    rcases hx with rfl | rfl
    · rw [hhalf, hrest] at hread hbody
      cases hread
      rw [hbody]
      exact echo_local (by decide) _
    · cases hread
  exact ⟨_, c₁.compact, c₁.compact, Reachable.refl.next hone, htwo, hwork,
    segments_do_not_matter echoCas [] 64 _ _ _ _ _ hlocal (Reachable.refl.next hone) htwo
      (.inl rfl) (.inl rfl)⟩

end Hieratika.ChannelAccess

import Hieratika.Foundations.HeaderLines
import Hieratika.Foundations.Runs
import Hieratika.Foundations.Word

/-!
# Draining the replies

At the end of a message `SendVariables` reads the replies of the server, as long as `Peek` finds
something to read. Once `err` is set nothing is read any more, but the loop goes on asking `Peek`.

The HTTP protocol is a parameter: what `ReadHeader` and `CompleteReadOperation` take off the bytes, and
what `KeepAlive` says. The bytes of the server come in portions, one before each `Peek`; what arrives
while a turn is waiting for more belongs to the portion before it.

## What is proved

The loop ends, with an error if a header is malformed, exactly if the first malformed header is the last
thing there is to read (`replies_drained_iff`). Otherwise `SendVariables` never returns.
-/

namespace Hieratika.Sender

open Foundations

variable {π : Type*}

/-- The protocol, with its state in `π`: what is left of the bytes, and whether the header was well
formed. -/
structure HttpProtocol (π : Type*) where
  readHeader : π → List UInt8 → Bool × π × List UInt8
  completeReadOperation : π → List UInt8 → π × List UInt8
  keepAlive : π → Bool

/-- A header that is read takes a byte at least; a body may be empty. A header that fails is not
spoken of. -/
structure HttpProtocol.Consumes (P : HttpProtocol π) : Prop where
  readHeader_lt :
    ∀ http bytes, (P.readHeader http bytes).1 = true → (P.readHeader http bytes).2.2.length < bytes.length
  completeReadOperation_le : ∀ http bytes, (P.completeReadOperation http bytes).2.length ≤ bytes.length

/-- `FatalError` for what did not succeed, and `Completed`. -/
inductive ReplyError where
  | fatal | completed
  deriving DecidableEq

/-- The state of the loop. -/
structure Drain (π : Type*) where
  http : π
  /-- What has arrived and has not been read. -/
  unread : List UInt8
  /-- What arrives before each of the next calls of `Peek`. -/
  coming : List (List UInt8)
  err : Option ReplyError
  packetsNotAck : ℕ

/-- The loop begins behind a message that was sent without an error; its own acknowledge is counted. -/
def Drain.start (http : π) (sent : List (List UInt8)) (packetsNotAck : ℕ) : Drain π :=
  ⟨http, [], sent, none, u32 (packetsNotAck + 1)⟩

/-- The bytes that are there when `Peek` looks. -/
def Drain.arrive (s : Drain π) : Drain π :=
  { s with unread := s.unread ++ s.coming.headD [], coming := s.coming.tail }

section

variable (P : HttpProtocol π)

/-- `ReadHeader`, and what it leaves behind. -/
def Drain.readHeader (s : Drain π) : Bool × Drain π :=
  let (ok, http, unread) := P.readHeader s.http s.unread
  (ok, { s with http := http, unread := unread })

/-- `CompleteReadOperation`, and one packet less to acknowledge. -/
def Drain.completeReply (s : Drain π) : Drain π :=
  let (http, unread) := P.completeReadOperation s.http s.unread
  { s with http := http, unread := unread, packetsNotAck := sub32 s.packetsNotAck 1 }

/-- A turn of `while (keepReading)`. -/
def drainTurn (s : Drain π) : Turn (Drain π) (Drain π) :=
  let s := s.arrive
  -- `Peek`
  if s.unread = [] then .leave s
  else if s.err ≠ none then .again s
  else
    let (ok, s) := s.readHeader P
    if ok then
      let s := s.completeReply P
      if P.keepAlive s.http then .again s else .leave { s with err := some .completed }
    else .again { s with err := some .fatal }

/-! ### What the server sends -/

/-- There is something to read, with such a header. -/
def Drain.Header (ok : Bool) (s : Drain π) : Prop := s.arrive.unread ≠ [] ∧ (s.arrive.readHeader P).1 = ok

/-- What comes next is no reply. -/
def Drain.Malformed (s : Drain π) : Prop := s.Header P false

/-- Behind a well-formed reply that keeps the connection alive. -/
def Reply (s s' : Drain π) : Prop :=
  s.Header P true ∧ s' = (s.arrive.readHeader P).2.completeReply P ∧ P.keepAlive s'.http = true

/-- The bytes that are there for the `Peek` behind a header. -/
def Drain.leftBehind (s : Drain π) : List UInt8 := (s.arrive.readHeader P).2.arrive.unread

/-- The loop ends, and with an error if it comes to a malformed header. -/
def Drained (s : Drain π) : Prop :=
  ∃ e, Ends (drainTurn P) s e ∧ ((∃ t, Reachable (Reply P) s t ∧ t.Malformed P) → e.err = some .fatal)

end

variable {P : HttpProtocol π} {s s' e : Drain π}

/-! ### One turn -/

@[simp] theorem arrive_err (s : Drain π) : s.arrive.err = s.err := rfl

@[simp] theorem readHeader_err (s : Drain π) : (s.readHeader P).2.err = s.err := rfl

@[simp] theorem completeReply_err (s : Drain π) : (s.completeReply P).err = s.err := rfl

/-- Nothing that is there gets lost on the way to the next `Peek`. -/
theorem arrive_unread_ne_nil (h : s.unread ≠ []) : s.arrive.unread ≠ [] :=
  List.append_ne_nil_of_left_ne_nil h _

/-- `Peek` finds nothing. -/
theorem drainTurn_of_nil (h : s.arrive.unread = []) : drainTurn P s = .leave s.arrive := by
  unfold drainTurn
  rw [if_pos h]

/-- With an error the loop goes round and reads nothing. -/
theorem drainTurn_of_err (h : s.arrive.unread ≠ []) (herr : s.err ≠ none) :
    drainTurn P s = .again s.arrive := by
  unfold drainTurn
  rw [if_neg h, if_pos (by rwa [arrive_err])]

/-- The state behind a malformed header. -/
def Drain.failed (P : HttpProtocol π) (s : Drain π) : Drain π :=
  { (s.arrive.readHeader P).2 with err := some .fatal }

/-- Without an error the loop reads what there is. -/
theorem drainTurn_of_unread (hne : s.arrive.unread ≠ []) (herr : s.err = none) :
    drainTurn P s = if (s.arrive.readHeader P).1 then
        if P.keepAlive ((s.arrive.readHeader P).2.completeReply P).http
        then .again ((s.arrive.readHeader P).2.completeReply P)
        else .leave { (s.arrive.readHeader P).2.completeReply P with err := some .completed }
      else .again (s.failed P) := by
  unfold drainTurn
  rw [if_neg hne, if_neg (by rw [arrive_err, herr]; simp)]
  rfl

theorem drainTurn_of_malformed (herr : s.err = none) (h : s.Malformed P) :
    drainTurn P s = .again (s.failed P) := by
  obtain ⟨hne, hok⟩ := h
  rw [drainTurn_of_unread hne herr, hok]
  rfl

theorem drainTurn_of_header (herr : s.err = none) (h : s.Header P true) :
    drainTurn P s = if P.keepAlive ((s.arrive.readHeader P).2.completeReply P).http
      then .again ((s.arrive.readHeader P).2.completeReply P)
      else .leave { (s.arrive.readHeader P).2.completeReply P with err := some .completed } := by
  obtain ⟨hne, hok⟩ := h
  rw [drainTurn_of_unread hne herr, if_pos hok]

/-- The loop goes round behind a reply. -/
theorem drainTurn_of_reply (herr : s.err = none) (h : Reply P s s') :
    drainTurn P s = .again s' ∧ s'.err = none := by
  obtain ⟨hheader, rfl, halive⟩ := h
  rw [drainTurn_of_header herr hheader, if_pos halive]
  exact ⟨rfl, herr⟩

/-- **The step lemma**: without an error the loop goes round behind a reply or behind a malformed
header. -/
theorem drainTurn_again (herr : s.err = none) (hturn : drainTurn P s = .again s') :
    Reply P s s' ∨ s.Malformed P ∧ s' = s.failed P := by
  by_cases hne : s.arrive.unread = []
  · rw [drainTurn_of_nil hne] at hturn
    cases hturn
  cases hok : (s.arrive.readHeader P).1 with
  | false =>
    have hmal : s.Malformed P := ⟨hne, hok⟩
    rw [drainTurn_of_malformed herr hmal] at hturn
    cases hturn
    exact .inr ⟨hmal, rfl⟩
  | true =>
    have hheader : s.Header P true := ⟨hne, hok⟩
    rw [drainTurn_of_header herr hheader] at hturn
    split_ifs at hturn with halive
    cases hturn
    exact .inl ⟨hheader, rfl, halive⟩

/-! ### The runs -/

/-- Through the replies the loop goes round without an error. -/
theorem reachable_of_replies (herr : s.err = none) (h : Reachable (Reply P) s s') :
    Reachable (fun a b => drainTurn P a = .again b) s s' ∧ s'.err = none := by
  induction h with
  | refl => exact ⟨.refl, herr⟩
  | tail _ hreply ih =>
    obtain ⟨hturn, hnone⟩ := drainTurn_of_reply ih.2 hreply
    exact ⟨ih.1.next hturn, hnone⟩

/-- With an error and something to read the loop never ends. -/
theorem not_ends_of_err (herr : s.err ≠ none) (hne : s.arrive.unread ≠ []) : ¬ Ends (drainTurn P) s e := by
  intro he
  refine he.post (I := fun a => a.err ≠ none ∧ a.arrive.unread ≠ []) (Q := fun _ => False) ⟨herr, hne⟩ ?_ ?_
  · rintro a b ⟨ha, hane⟩ hturn
    rw [drainTurn_of_err hane ha] at hturn
    cases hturn
    exact ⟨ha, arrive_unread_ne_nil hane⟩
  · rintro a b ⟨ha, hane⟩ hturn
    rw [drainTurn_of_err hane ha] at hturn
    cases hturn

/-- The bytes that the server has sent and that have not been read. -/
def Drain.remaining (s : Drain π) : ℕ := s.unread.length + s.coming.flatten.length

theorem remaining_arrive (s : Drain π) : s.arrive.remaining = s.remaining := by
  unfold Drain.remaining Drain.arrive
  cases s.coming with
  | nil => simp
  | cons bytes coming => simp [Nat.add_assoc]

/-- A reply takes a byte at least. -/
theorem remaining_lt (hP : P.Consumes) (h : Reply P s s') : s'.remaining < s.remaining := by
  obtain ⟨⟨-, hok⟩, rfl, -⟩ := h
  rw [← remaining_arrive s]
  have hheader := hP.readHeader_lt s.arrive.http s.arrive.unread hok
  have hbody := hP.completeReadOperation_le (s.arrive.readHeader P).2.http (s.arrive.readHeader P).2.unread
  exact Nat.add_lt_add_right (hbody.trans_lt hheader) _

/-- Every run of the loop ends if a malformed header leaves nothing behind. -/
theorem exists_drained (hP : P.Consumes) (herr : s.err = none)
    (hleft : ∀ t, Reachable (Reply P) s t → t.Malformed P → t.leftBehind P = []) :
    ∃ e, Ends (drainTurn P) s e := by
  refine exists_ends (I := fun a => a.err = none ∧ Reachable (Reply P) s a ∨ a.err ≠ none ∧
    a.arrive.unread = [])
    (fun a => if a.err = none then a.remaining + 1 else 0) ?_ (.inl ⟨herr, .refl⟩)
  rintro a b (⟨ha, hreach⟩ | ⟨ha, hnil⟩) hturn
  · rcases drainTurn_again ha hturn with hreply | ⟨hmal, rfl⟩
    · have hb := (drainTurn_of_reply ha hreply).2
      refine ⟨.inl ⟨hb, hreach.next hreply⟩, ?_⟩
      rw [if_pos hb, if_pos ha]
      exact Nat.add_lt_add_right (remaining_lt hP hreply) 1
    · have hb : (a.failed P).err ≠ none := by simp [Drain.failed]
      refine ⟨.inr ⟨hb, hleft a hreach hmal⟩, ?_⟩
      rw [if_neg hb, if_pos ha]
      exact Nat.succ_pos _
  · rw [drainTurn_of_nil hnil] at hturn
    cases hturn

/-- Behind a malformed header the loop goes on. -/
theorem ends_failed (herr : s.err = none) (hreach : Reachable (Reply P) s s') (hmal : s'.Malformed P)
    (he : Ends (drainTurn P) s e) : Ends (drainTurn P) (s'.failed P) e := by
  obtain ⟨hagain, hnone⟩ := reachable_of_replies herr hreach
  exact he.along (hagain.next (drainTurn_of_malformed hnone hmal))

theorem failed_err_ne_none (s : Drain π) : (s.failed P).err ≠ none := by simp [Drain.failed]

/-- A run that ends has found nothing behind a malformed header. -/
theorem leftBehind_of_drained (herr : s.err = none) (h : Drained P s) (hreach : Reachable (Reply P) s s')
    (hmal : s'.Malformed P) : s'.leftBehind P = [] := by
  obtain ⟨e, he, -⟩ := h
  by_contra hne
  exact not_ends_of_err (failed_err_ne_none s') hne (ends_failed herr hreach hmal he)

/-- **The replies are drained** exactly if the first malformed header is the last thing there is to
read. -/
theorem replies_drained_iff (P : HttpProtocol π) (hP : P.Consumes) (http : π) (sent : List (List UInt8))
    (packetsNotAck : ℕ) :
    Drained P (Drain.start http sent packetsNotAck) ↔
      ∀ t, Reachable (Reply P) (Drain.start http sent packetsNotAck) t → t.Malformed P →
        t.leftBehind P = [] := by
  have herr : (Drain.start http sent packetsNotAck).err = none := rfl
  constructor
  · intro h t hreach hmal
    exact leftBehind_of_drained herr h hreach hmal
  · intro hleft
    obtain ⟨e, he⟩ := exists_drained hP herr hleft
    refine ⟨e, he, ?_⟩
    rintro ⟨t, hreach, hmal⟩
    have hleave : Ends (drainTurn P) (t.failed P) (t.failed P).arrive :=
      .leave (drainTurn_of_nil (hleft t hreach hmal))
    rw [(ends_failed herr hreach hmal he).unique hleave]
    rfl

/-- Replies of HTTP/1.1: how long the body is, and whether the connection is kept. A line that is no status
line is read, and nothing behind it. -/
def lineProtocol : HttpProtocol (ℕ × Bool) where
  readHeader http bytes :=
    if ascii "HTTP/1.1 " <+: bytes then
      match headerLines [] bytes with
      | none => (false, http, [])
      | some (lines, rest) =>
        (true, (((fieldValue (ascii "Content-Length: ") lines).map decimal).getD 0,
          fieldValue (ascii "Connection: ") lines ≠ some (ascii "close")), rest)
    else (false, http, bytes.drop ((bytes.takeWhile (· ≠ 10)).length + 1))
  completeReadOperation http bytes := ((0, http.2), bytes.drop http.1)
  keepAlive http := http.2

theorem lineProtocol_consumes : lineProtocol.Consumes where
  readHeader_lt http bytes h := by
    unfold lineProtocol at h ⊢
    dsimp only at h ⊢
    split_ifs at h ⊢
    cases hlines : headerLines [] bytes with
    | none =>
      rw [hlines] at h
      cases h
    | some x => exact headerLines_length hlines
  completeReadOperation_le http bytes := List.length_drop.trans_le (Nat.sub_le _ _)

/-- A reply to a put. -/
def okReply : List UInt8 := ascii "HTTP/1.1 200 OK\r\nContent-Length: 12\r\n\r\n<h1>OK!</h1>"

/-- A reply, and a line that is none, are drained. -/
theorem replies_drained_line :
    Drained lineProtocol (Drain.start (0, true) [okReply ++ ascii "OK\r\n"] 0) := by
  refine (replies_drained_iff lineProtocol lineProtocol_consumes (0, true) [okReply ++ ascii "OK\r\n"] 0).mpr
    fun t hreach hmal => ?_
  rcases hreach.cases_head with rfl | ⟨u, ⟨-, rfl, -⟩, hreach⟩
  · exact absurd hmal.2 (by decide)
  rcases hreach.cases_head with rfl | ⟨v, ⟨⟨-, hok⟩, -⟩, -⟩
  · rfl
  · exact absurd hok (by decide)

/-- Behind two lines that are no replies the loop does not end: the second one is never read. -/
theorem replies_not_drained : ¬ ∀ P : HttpProtocol (ℕ × Bool), P.Consumes →
    ∀ (http : ℕ × Bool) (sent : List (List UInt8)) (packetsNotAck : ℕ),
      Drained P (Drain.start http sent packetsNotAck) := by
  intro h
  have hdrained := h lineProtocol lineProtocol_consumes (0, true) [ascii "OK\r\nOK\r\n"] 0
  have hmal : (Drain.start (0, true) [ascii "OK\r\nOK\r\n"] 0).Malformed lineProtocol :=
    ⟨by decide, by decide⟩
  have hleft := leftBehind_of_drained rfl hdrained .refl hmal
  exact absurd hleft (by decide)

end Hieratika.Sender

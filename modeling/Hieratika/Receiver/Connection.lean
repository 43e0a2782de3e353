import Hieratika.Receiver.BodyTurns
import Hieratika.Foundations.HeaderLines

/-!
# A connection

`ClientService` serves one request of a connection: the header, the body, and a reply, after which the
connection is kept or closed. A connection is a run of such calls (`Connection.Step`); the payload is a
local variable of the call and starts empty each time.

## The model

`HttpProtocol` and the conversion of a size line are a parameter (`Http`). The bytes on the socket are
all that the peer sends before it closes; to read more of them is an error, as after `readTimeout`.
`quit` stays `0`.

## What is proved

Complete requests are read one after the other without losing the boundary between them, each is
answered after exactly its frames, and the last one closes the connection if it says so
(`requests_in_step`).
-/

namespace Hieratika.Receiver

open Foundations Diode

/-! ### One request -/

/-- What `ClientService` looks up in a request header. -/
structure RequestHeader where
  /-- `Content-Length`, where it is given. -/
  contentLength : Option ℕ
  keepAlive : Bool

/-- `HttpProtocol`, and `TypeConvert` of a size line behind `0x`. -/
structure Http where
  /-- `ReadHeader`: the header, and what is left on the socket. -/
  readHeader : List UInt8 → Option (RequestHeader × List UInt8)
  /-- What `CompleteReadOperation` leaves on the socket. -/
  completeRead : RequestHeader → List UInt8 → List UInt8
  toSize : List UInt8 → ℕ

/-- `isChunked`. -/
def RequestHeader.isChunked (h : RequestHeader) : Bool := h.contentLength.isNone

/-- `KeepAlive` when the reply is sent: `SetKeepAlive(false)` for a content length of `0`. -/
def RequestHeader.keeps (h : RequestHeader) : Bool := h.keepAlive && h.contentLength != some 0

/-- The body loop as it starts. -/
def Body.start (h : RequestHeader) (socket : List UInt8) (s : Store) : Body :=
  ⟨socket, if h.isChunked then 0 else 32, h.contentLength.getD 0, ⟨[], s, []⟩⟩

/-- What a call of `ClientService` leaves behind. -/
structure Served where
  store : Store
  calls : List Call
  /-- The reply: `OK!` or `ERROR!`. -/
  ok : Bool
  /-- The socket, if the connection is kept. -/
  socket : Option (List UInt8)

/-- `ClientService`, with `quit == 0`. -/
inductive Serves (P : Http) (r : DiodeReceiver) (env : Env) (threadId : ℕ) (socket : List UInt8) (s : Store) :
    Served → Prop
  | badHeader : P.readHeader socket = none → Serves P r env threadId socket s ⟨s, [], false, none⟩
  | badBody {h : RequestHeader} {rest : List UInt8} {st : Service} :
      P.readHeader socket = some (h, rest) →
      (Body.start h rest s).Reads r env threadId P.toSize h.isChunked st none →
      Serves P r env threadId socket s ⟨st.store, st.calls, false, none⟩
  | ok {h : RequestHeader} {rest left : List UInt8} {st : Service} :
      P.readHeader socket = some (h, rest) →
      (Body.start h rest s).Reads r env threadId P.toSize h.isChunked st (some left) →
      Serves P r env threadId socket s
        ⟨st.store, st.calls, true, if h.keeps then some (P.completeRead h left) else none⟩

variable {P : Http} {r : DiodeReceiver} {env : Env} {threadId : ℕ} {socket : List UInt8} {s : Store}
  {x y : Served}

theorem Serves.unique (hx : Serves P r env threadId socket s x) (hy : Serves P r env threadId socket s y) :
    x = y := by
  cases hx with
  | badHeader hnone =>
    cases hy with
    | badHeader => rfl
    | badBody hread _ | ok hread _ => rw [hnone] at hread; cases hread
  | badBody hread hbody =>
    cases hy with
    | badHeader hnone => rw [hnone] at hread; cases hread
    | badBody hread' hbody' =>
      cases hread.symm.trans hread'
      rw [(hbody.unique hbody').1]
    | ok hread' hbody' =>
      cases hread.symm.trans hread'
      cases (hbody.unique hbody').2
  | ok hread hbody =>
    cases hy with
    | badHeader hnone => rw [hnone] at hread; cases hread
    | badBody hread' hbody' =>
      cases hread.symm.trans hread'
      cases (hbody.unique hbody').2
    | ok hread' hbody' =>
      cases hread.symm.trans hread'
      obtain ⟨rfl, hleft⟩ := hbody.unique hbody'
      cases hleft
      rfl

/-! ### The connection -/

/-- A connection, with the calls and the replies so far. -/
structure Connection where
  /-- The bytes still to be read, until the connection is closed. -/
  socket : Option (List UInt8)
  store : Store
  calls : List Call
  /-- `true` for `OK!`. -/
  replies : List Bool

/-- The connection is established. -/
def Connection.start (socket : List UInt8) (s : Store) : Connection := ⟨some socket, s, [], []⟩

/-- The connection after a call of `ClientService`. -/
def Connection.after (c : Connection) (x : Served) : Connection :=
  ⟨x.socket, x.store, c.calls ++ x.calls, c.replies ++ [x.ok]⟩

/-- The calls of `ClientService`, as long as the connection is kept. -/
inductive Connection.Step (P : Http) (r : DiodeReceiver) (env : Env) (threadId : ℕ) :
    Connection → Connection → Prop
  | serve {c : Connection} {socket : List UInt8} {x : Served} : c.socket = some socket →
      Serves P r env threadId socket c.store x → Connection.Step P r env threadId c (c.after x)

theorem connection_deterministic : Deterministic (Connection.Step P r env threadId) := by
  rintro c _ _ ⟨hsocket, hx⟩ ⟨hsocket', hy⟩
  cases hsocket.symm.trans hsocket'
  rw [hx.unique hy]

/-! ### Requests -/

/-- How the body of a request is sent. -/
inductive Form where
  | chunks (chunks : List Chunk) (lastLine : List UInt8)
  | length

/-- A request. -/
structure Request where
  /-- The bytes of its header. -/
  head : List UInt8
  keepAlive : Bool
  form : Form
  frames : List Frame

def Request.body (q : Request) : List UInt8 :=
  match q.form with
  | .chunks chunks lastLine => chunked chunks lastLine
  | .length => wire q.frames

/-- The request on the wire. -/
def Request.encode (q : Request) : List UInt8 := q.head ++ q.body

/-- What its header says. -/
def Request.header (q : Request) : RequestHeader where
  contentLength := match q.form with
    | .chunks _ _ => none
    | .length => some (wire q.frames).length
  keepAlive := q.keepAlive

/-- The chunks carry the frames, each behind a line with its size; the lengths fit in 32 bits. -/
def Form.Carries (toSize : List UInt8 → ℕ) (frames : List Frame) : Form → Prop
  | .chunks chs lastLine => chs.flatMap Chunk.data = wire frames ∧
      (∀ ch ∈ chs, ch.data ≠ [] ∧ SizeLine toSize ch.line ch.data.length) ∧ SizeLine toSize lastLine 0 ∧
      ∀ f ∈ frames, ∀ ch ∈ chs, f.encode.length + ch.data.length ≤ 2 ^ 32
  | .length => (wire frames).length < 2 ^ 32

/-- A request that is well formed, with frames that pass the checks. -/
structure Request.Sound (P : Http) (r : DiodeReceiver) (q : Request) : Prop where
  readHeader : ∀ rest, P.readHeader (q.head ++ rest) = some (q.header, rest)
  /-- The body is taken from the socket, and nothing behind it. -/
  completeRead : ∀ rest, P.completeRead q.header rest = rest
  accepts : ∀ f ∈ q.frames, Accepts r f
  carries : q.form.Carries P.toSize q.frames

variable {q : Request} {reqs : List Request}

/-- **A sound request** is answered after exactly its frames, and what is behind it stays. -/
theorem Request.Sound.serves (env : Env) (threadId : ℕ) (hM : 8 * r.maxArraySize < 2 ^ 32) (hq : q.Sound P r)
    (s : Store) (rest : List UInt8) : ∃ s', Serves P r env threadId (q.encode ++ rest) s
      ⟨s', q.frames.map callOf, true, if q.header.keeps then some rest else none⟩ := by
  have hhead := hq.readHeader (q.body ++ rest)
  have hreads : ∃ st, (Body.start q.header (q.body ++ rest) s).Reads r env threadId P.toSize
      q.header.isChunked st (some rest) ∧ st.calls = q.frames.map callOf := by
    have hcarries := hq.carries
    unfold Form.Carries at hcarries
    unfold Body.start Request.body Request.header RequestHeader.isChunked
    cases hform : q.form with
    | chunks chunks lastLine =>
      rw [hform] at hcarries
      obtain ⟨hdata, hch, hlast, hfit⟩ := hcarries
      exact reads_chunked env threadId s rest hM hq.accepts hdata hch hlast hfit
    | length =>
      rw [hform] at hcarries
      exact reads_length env threadId P.toSize s rest hM hq.accepts hcarries
  obtain ⟨st, hreads, hcalls⟩ := hreads
  have hserves := Serves.ok hhead hreads
  rw [hq.completeRead, hcalls] at hserves
  refine ⟨st.store, ?_⟩
  rwa [Request.encode, List.append_assoc]

/-- The requests on the wire. -/
def requestBytes (reqs : List Request) : List UInt8 := reqs.flatMap Request.encode

/-- The calls that the frames of the requests should cause. -/
def requestCalls (reqs : List Request) : List Call := reqs.flatMap fun q => q.frames.map callOf

/-- The connection has processed some of the requests, and the next one is at the front of the socket. -/
structure Connection.InStep (reqs : List Request) (tail : List UInt8) (c : Connection) : Prop where
  socket : c.socket = some (requestBytes (reqs.drop c.replies.length) ++ tail)
  calls : c.calls = requestCalls (reqs.take c.replies.length)
  replies : c.replies = List.replicate c.replies.length true

theorem Connection.inStep_start (reqs : List Request) (tail : List UInt8) (s : Store) :
    (Connection.start (requestBytes reqs ++ tail) s).InStep reqs tail := ⟨rfl, rfl, rfl⟩

/-- **The next request.** -/
theorem Connection.InStep.next {c : Connection} {tail : List UInt8} (env : Env) (threadId : ℕ)
    (hM : 8 * r.maxArraySize < 2 ^ 32) (hc : c.InStep reqs tail) (hlt : c.replies.length < reqs.length)
    (hq : reqs[c.replies.length].Sound P r) :
    ∃ s', Connection.Step P r env threadId c (c.after ⟨s', reqs[c.replies.length].frames.map callOf, true,
      if reqs[c.replies.length].header.keeps then
        some (requestBytes (reqs.drop (c.replies.length + 1)) ++ tail) else none⟩) := by
  obtain ⟨s', hserves⟩ := hq.serves env threadId hM c.store
    (requestBytes (reqs.drop (c.replies.length + 1)) ++ tail)
  refine ⟨s', .serve hc.socket ?_⟩
  rwa [List.drop_eq_getElem_cons hlt, requestBytes, List.flatMap_cons, List.append_assoc]

theorem requestCalls_take_succ {k : ℕ} (hlt : k < reqs.length) :
    requestCalls (reqs.take (k + 1)) = requestCalls (reqs.take k) ++ reqs[k].frames.map callOf := by
  rw [List.take_succ_eq_append_getElem hlt, requestCalls, List.flatMap_append, List.flatMap_singleton]
  rfl

/-- Every call of `ClientService` replies once. -/
theorem Connection.Step.length_replies {c c' : Connection} (h : Connection.Step P r env threadId c c') :
    c'.replies.length = c.replies.length + 1 := by
  obtain ⟨-, -⟩ := h
  simp [Connection.after]

theorem length_replies_le {c c' : Connection} (h : Reachable (Connection.Step P r env threadId) c c') :
    c.replies.length ≤ c'.replies.length :=
  h.le_of_step (f := fun c : Connection => c.replies.length) fun _ _ hstep =>
    (Nat.le_succ _).trans_eq hstep.length_replies.symm

/-- A kept connection stays in step. -/
theorem Connection.InStep.after {c : Connection} {tail : List UInt8} (hc : c.InStep reqs tail)
    (hlt : c.replies.length < reqs.length) (s' : Store) :
    (c.after ⟨s', reqs[c.replies.length].frames.map callOf, true,
      some (requestBytes (reqs.drop (c.replies.length + 1)) ++ tail)⟩).InStep reqs tail := by
  have hlen : (c.replies ++ [true]).length = c.replies.length + 1 := by simp
  refine ⟨?_, ?_, ?_⟩ <;> simp only [Connection.after, hlen]
  · rw [requestCalls_take_succ hlt, hc.calls]
  · rw [List.replicate_succ', ← hc.replies]

/-- Requests on a connection that all of them keep. -/
structure KeptAlive (P : Http) (r : DiodeReceiver) (reqs : List Request) : Prop where
  sound : ∀ q ∈ reqs, q.Sound P r
  keeps : ∀ q ∈ reqs, q.header.keeps = true

/-- As long as there are requests, the connection is in step, and goes on. -/
theorem KeptAlive.inStep (hM : 8 * r.maxArraySize < 2 ^ 32) (hreqs : KeptAlive P r reqs) {tail : List UInt8}
    {c : Connection}
    (h : Reachable (Connection.Step P r env threadId) (.start (requestBytes reqs ++ tail) s) c) :
    c.replies.length ≤ reqs.length → c.InStep reqs tail := by
  induction h with
  | refl => exact fun _ => Connection.inStep_start reqs tail s
  | @tail b c hb hstep ih =>
    intro hle
    have hreplies : c.replies.length = b.replies.length + 1 := hstep.length_replies
    have hlt : b.replies.length < reqs.length := by omega
    have hin := ih hlt.le
    have hmem : reqs[b.replies.length] ∈ reqs := List.getElem_mem hlt
    obtain ⟨s', hnext⟩ := hin.next env threadId hM hlt (hreqs.sound _ hmem)
    rw [hreqs.keeps _ hmem, if_pos rfl] at hnext
    rw [connection_deterministic hstep hnext]
    exact hin.after hlt s'

/-- Every request is reached. -/
theorem KeptAlive.reaches (env : Env) (threadId : ℕ) (s : Store) (hM : 8 * r.maxArraySize < 2 ^ 32)
    (hreqs : KeptAlive P r reqs) (tail : List UInt8) : ∀ k ≤ reqs.length, ∃ c,
      Reachable (Connection.Step P r env threadId) (.start (requestBytes reqs ++ tail) s) c ∧
        c.replies.length = k := by
  intro k
  induction k with
  | zero => exact fun _ => ⟨_, .refl, rfl⟩
  | succ k ih =>
    intro hk
    obtain ⟨c, hc, rfl⟩ := ih (by omega)
    have hlt : c.replies.length < reqs.length := hk
    obtain ⟨s', hnext⟩ := (hreqs.inStep hM hc hlt.le).next env threadId hM hlt
      (hreqs.sound _ (List.getElem_mem hlt))
    exact ⟨_, hc.next hnext, hnext.length_replies⟩

/-- **The requests of a connection stay in step**: the connection gets to the end of every request,
has then made exactly the calls for the frames of the requests so far, in order, and answered each
with `OK!`; and a request that does not keep the connection is reached, too, and closes it behind its last
call. -/
theorem requests_in_step (P : Http) (r : DiodeReceiver) (env : Env) (threadId : ℕ) (s : Store)
    (reqs : List Request) (tail : List UInt8) (hM : 8 * r.maxArraySize < 2 ^ 32)
    (hreqs : KeptAlive P r reqs) :
    (∀ k ≤ reqs.length, ∃ c, Reachable (Connection.Step P r env threadId)
        (.start (requestBytes reqs ++ tail) s) c ∧ c.replies.length = k) ∧
      (∀ c, Reachable (Connection.Step P r env threadId) (.start (requestBytes reqs ++ tail) s) c →
        c.replies.length ≤ reqs.length → c.InStep reqs tail) ∧
      ∀ q more, q.Sound P r → q.header.keeps = false → tail = q.encode ++ more →
        (∃ c, Reachable (Connection.Step P r env threadId) (.start (requestBytes reqs ++ tail) s) c ∧
          c.replies.length = reqs.length + 1) ∧
        ∀ c, Reachable (Connection.Step P r env threadId) (.start (requestBytes reqs ++ tail) s) c →
          reqs.length < c.replies.length → c.socket = none ∧ c.calls = requestCalls (reqs ++ [q]) ∧
            c.replies = List.replicate (reqs.length + 1) true := by
  refine ⟨hreqs.reaches env threadId s hM tail, fun c => hreqs.inStep hM, ?_⟩
  rintro q more hq hcloses rfl
  obtain ⟨a, ha, hlen⟩ := hreqs.reaches env threadId s hM (q.encode ++ more) reqs.length le_rfl
  have hin := hreqs.inStep hM ha hlen.le
  obtain ⟨s', hserves⟩ := hq.serves env threadId hM a.store more
  have hsocket := hin.socket
  rw [hlen, List.drop_length] at hsocket
  have hlast : Connection.Step P r env threadId a _ := .serve hsocket hserves
  rw [hcloses, if_neg Bool.false_ne_true] at hlast
  refine ⟨⟨_, ha.next hlast, hlast.length_replies.trans (by rw [hlen])⟩, ?_⟩
  intro c hc hlt
  have hfinal : Final (Connection.Step P r env threadId)
      (a.after ⟨s', q.frames.map callOf, true, none⟩) := by
    rintro _ ⟨hsome, -⟩
    cases hsome
  obtain rfl : c = a.after ⟨s', q.frames.map callOf, true, none⟩ := by
    rcases ((ha.next hlast).to_final connection_deterministic hfinal hc).cases_head with heq | ⟨u, hu, hrest⟩
    · exact heq
    · have hle := length_replies_le hrest
      rw [hlast.length_replies, hu.length_replies] at hle
      omega
  have hcalls := hin.calls
  have hreplies := hin.replies
  rw [hlen, List.take_length] at hcalls
  rw [hlen] at hreplies
  refine ⟨rfl, ?_, ?_⟩ <;> simp only [Connection.after]
  · rw [hcalls, requestCalls, requestCalls, List.flatMap_append, List.flatMap_singleton]
  · rw [List.replicate_succ', ← hreplies]

/-- A request line of HTTP/1.1, and the fields that matter here. -/
def plainHeader : List (List UInt8) → Option RequestHeader
  | [] => none
  | requestLine :: fields =>
    if ascii " HTTP/1.1" <:+ requestLine then
      some ⟨(fieldValue (ascii "Content-Length: ") fields).map decimal,
        fieldValue (ascii "Connection: ") fields ≠ some (ascii "close")⟩
    else none

def readPlainHeader (socket : List UInt8) : Option (RequestHeader × List UInt8) :=
  (headerLines [] socket).bind fun x => (plainHeader x.1).map fun h => (h, x.2)

/-- Such headers, and hexadecimal sizes. -/
def plainHttp : Http := ⟨readPlainHeader, fun _ rest => rest, hexSize⟩

/-- The value `01 02` for the PV `A`, in one chunk; the connection is kept, or closed. -/
def smallRequest (keepAlive : Bool) : Request where
  head := ascii (if keepAlive then
    "PUT / HTTP/1.1\r\nConnection: keep-alive\r\nTransfer-Encoding: chunked\r\n\r\n"
  else "PUT / HTTP/1.1\r\nConnection: close\r\nTransfer-Encoding: chunked\r\n\r\n")
  keepAlive := keepAlive
  form := .chunks [⟨ascii "1e", smallFrame.encode⟩] (ascii "0")
  frames := [smallFrame]

theorem smallRequest_sound (keepAlive : Bool) : (smallRequest keepAlive).Sound plainHttp (onePv 4) where
  readHeader _ := by cases keepAlive <;> rfl
  completeRead _ := rfl
  accepts := List.forall_mem_singleton.mpr smallFrame_accepts
  carries := ⟨rfl, List.forall_mem_singleton.mpr ⟨by decide, by decide, by decide, by decide, by decide⟩,
    ⟨by decide, by decide, by decide, by decide⟩, by cases keepAlive <;> decide⟩

theorem smallRequests_keptAlive (n : ℕ) :
    KeptAlive plainHttp (onePv 4) (List.replicate n (smallRequest true)) where
  sound _ hq := List.eq_of_mem_replicate hq ▸ smallRequest_sound true
  keeps _ hq := List.eq_of_mem_replicate hq ▸ rfl

/-- Three requests on one connection, the last of which closes it. -/
theorem requests_in_step_three : ∃ c, Reachable (Connection.Step plainHttp (onePv 4) plainEnv 0)
    (.start (requestBytes (List.replicate 2 (smallRequest true)) ++ (smallRequest false).encode)
      Store.start) c ∧
    c.socket = none ∧ c.calls = requestCalls (List.replicate 2 (smallRequest true) ++ [smallRequest false]) ∧
    c.replies = [true, true, true] := by
  obtain ⟨-, -, hclose⟩ := requests_in_step plainHttp (onePv 4) plainEnv 0 Store.start
    (List.replicate 2 (smallRequest true)) (smallRequest false).encode (by decide) (smallRequests_keptAlive 2)
  obtain ⟨⟨c, hc, hlen⟩, hlast⟩ :=
    hclose (smallRequest false) [] (smallRequest_sound false) rfl (List.append_nil _).symm
  exact ⟨c, hc, hlast c hc (by rw [hlen]; decide)⟩

end Hieratika.Receiver

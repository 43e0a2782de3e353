import Hieratika.Receiver.Connection

/-!
# A connection that breaks

The bytes of a connection may end anywhere: inside a header, a size line, a chunk or the line behind
it. What was read of the part that arrived is what would have been read of the whole
(`Body.Turns.more`): every function of the body loop takes bytes from the front of the socket and does
not look further. So the turns made before the connection breaks are the first turns of the whole
request.

## What is proved

Of requests that are cut at any byte, the receiver has processed the frames of a beginning, each of them
whole, and it has answered a request with `OK!` only after all of its frames (`cut_keeps_order`).
-/

namespace Hieratika.Receiver

open Foundations Diode

variable {r : DiodeReceiver} {env : Env} {threadId : ℕ} {toSize : List UInt8 → ℕ} {isChunked : Bool}
  {b c : Body} {st st' : Service} {socket tail : List UInt8} {s : Store}

/-! ### More bytes on the socket -/

/-- The same body with more bytes behind those on the socket. -/
def Body.more (b : Body) (tail : List UInt8) : Body := { b with socket := b.socket ++ tail }

theorem getLine_some {line rest : List UInt8} (h : getLine socket = some (line, rest)) :
    socket = line ++ 10 :: rest ∧ 10 ∉ line := by
  unfold getLine at h
  split_ifs at h with hmem
  cases h
  have hdrop : socket.dropWhile (· ≠ 10) ≠ [] := by
    intro hnil
    have hall := List.dropWhile_eq_nil_iff.mp hnil 10 hmem
    simp at hall
  obtain ⟨d, ds, hds⟩ := List.exists_cons_of_ne_nil hdrop
  have hhead : d = 10 := by
    have hnot := List.head_dropWhile_not (fun b : UInt8 => decide (b ≠ 10)) hdrop
    simp only [hds, List.head_cons] at hnot
    simpa using hnot
  subst hhead
  refine ⟨?_, fun hin => ?_⟩
  · rw [hds, List.tail_cons, ← hds, List.takeWhile_append_dropWhile]
  · have hne := List.mem_takeWhile_imp hin
    simp at hne

theorem getLine_more {line rest : List UInt8} (h : getLine socket = some (line, rest)) (tail : List UInt8) :
    getLine (socket ++ tail) = some (line, rest ++ tail) := by
  obtain ⟨rfl, hline⟩ := getLine_some h
  rw [List.append_assoc, List.cons_append]
  exact getLine_append hline

/-- A piece that does not arrive whole is an error. -/
theorem readPieces_none (socket payload : List UInt8) (left : ℕ) (h : socket.length < left) :
    readPieces socket payload left = none := by
  induction socket, payload, left using readPieces.induct with
  | case1 socket payload left hpos sizeToRead hle ih =>
    have hsz : sizeToRead = min left 1023 := rfl
    rw [readPieces, dif_pos hpos]
    dsimp only
    rw [if_pos hle]
    exact ih (by rw [List.length_drop]; omega)
  | case2 socket payload left hpos sizeToRead hgt =>
    rw [readPieces, dif_pos hpos]
    exact if_neg hgt
  | case3 socket payload left hz => omega

theorem readPieces_more {payload : List UInt8} {left : ℕ} {z : List UInt8 × List UInt8}
    (h : readPieces socket payload left = some z) (tail : List UInt8) :
    readPieces (socket ++ tail) payload left = some (z.1 ++ tail, z.2) := by
  have hle : left ≤ socket.length := by
    by_contra hlt
    rw [readPieces_none _ _ _ (not_le.mp hlt)] at h
    cases h
  rw [readPieces_eq _ _ _ hle, Option.some.injEq] at h
  subst h
  rw [readPieces_eq _ _ _ (by rw [List.length_append]; omega), List.drop_append_of_le_length hle,
    List.take_append_of_le_length hle]

theorem nextSize_more {x : List UInt8 × ℕ × ℕ} (h : b.nextSize toSize isChunked = some x)
    (tail : List UInt8) :
    (b.more tail).nextSize toSize isChunked = some (x.1 ++ tail, x.2) := by
  unfold Body.nextSize at h ⊢
  cases isChunked with
  | false =>
    cases h
    rfl
  | true =>
    simp only [if_true] at h ⊢
    by_cases hzero : b.contentLength = 0
    · rw [if_pos hzero] at h
      obtain ⟨l, hl, rfl⟩ := Option.map_eq_some_iff.mp h
      rw [if_pos (by exact hzero), show (b.more tail).socket = b.socket ++ tail from rfl,
        getLine_more hl tail]
      rfl
    · rw [if_neg hzero] at h
      cases h
      rw [if_neg (by exact hzero)]
      rfl

theorem readNewChunk_more {b' : Body} (h : b.readNewChunk toSize isChunked = some b') (tail : List UInt8) :
    (b.more tail).readNewChunk toSize isChunked = some (b'.more tail) := by
  obtain ⟨x, hsize, hread, hb'⟩ := readNewChunk_some h
  rw [readNewChunk_eq, nextSize_more hsize tail, Option.bind_some]
  have hmore := readPieces_more hread tail
  rw [show (b.more tail).service = b.service from rfl, hmore, Option.map_some, hb']
  rfl

theorem skipLine_more {b' : Body} (h : b.skipLine isChunked = some b') (tail : List UInt8) :
    (b.more tail).skipLine isChunked = some (b'.more tail) := by
  unfold Body.skipLine at h ⊢
  split_ifs at h ⊢
  · obtain ⟨l, hl, rfl⟩ := Option.map_eq_some_iff.mp h
    rw [Body.more, getLine_more hl tail]
    rfl
  · cases h
    rfl

/-- **A turn is the same turn** when there is more on the socket. -/
theorem Body.Turns.more (h : b.Turns r env threadId toSize isChunked c) (tail : List UInt8) :
    (b.more tail).Turns r env threadId toSize isChunked (c.more tail) := by
  obtain ⟨b', b'', st, hread, hpos, hline, hcons, rfl⟩ := h
  exact ⟨_, _, st, readNewChunk_more hread tail, hpos, skipLine_more hline tail, hcons, rfl⟩

/-- So is the last turn, if it was no error. -/
theorem Body.Stops.more {left : List UInt8} (h : b.Stops toSize isChunked (some left)) (tail : List UInt8) :
    (b.more tail).Stops toSize isChunked (some (left ++ tail)) := by
  generalize hres : some left = res at h
  cases h with
  | readError _ => cases hres
  | lineError _ _ _ => cases hres
  | @done b' hread hzero =>
    obtain ⟨b'', hline, rfl⟩ := Option.map_eq_some_iff.mp hres.symm
    have hdone := Body.Stops.done (readNewChunk_more hread tail) hzero
    rwa [skipLine_more hline tail] at hdone

/-- A body that is read to its end is read so with more behind it. -/
theorem Body.Reads.more {left : List UInt8} (h : b.Reads r env threadId toSize isChunked st (some left))
    (tail : List UInt8) :
    (b.more tail).Reads r env threadId toSize isChunked st (some (left ++ tail)) := by
  obtain ⟨t, hturns, hstop, rfl⟩ := h
  exact ⟨t.more tail, hturns.map (f := fun b => b.more tail) fun _ _ h => h.more tail, hstop.more tail, rfl⟩

/-! ### A body that breaks -/

theorem Body.Turns.calls_le (h : b.Turns r env threadId toSize isChunked c) :
    b.service.calls <+: c.service.calls := by
  obtain ⟨b', b'', st, hread, -, hline, hcons, rfl⟩ := h
  have hcalls := hcons.calls_le
  rwa [skipLine_service_eq hline, readNewChunk_calls hread] at hcalls

theorem turns_calls_le (h : Reachable (Body.Turns r env threadId toSize isChunked) b c) :
    b.service.calls <+: c.service.calls :=
  h.invariant (I := fun c => b.service.calls <+: c.service.calls) List.prefix_rfl
    fun _ _ hi hs => hi.trans hs.calls_le

/-- **What was read before the connection breaks** is the beginning of what is read of the whole. -/
theorem Body.Reads.calls_le_more {left left' : Option (List UInt8)}
    (h : b.Reads r env threadId toSize isChunked st left)
    (h' : (b.more tail).Reads r env threadId toSize isChunked st' left') : st.calls <+: st'.calls := by
  obtain ⟨t, hturns, -, rfl⟩ := h
  obtain ⟨t', hturns', hstop', rfl⟩ := h'
  have hmore := hturns.map (f := fun b => b.more tail) fun _ _ h => h.more tail
  have hle := turns_calls_le (hturns'.to_final turns_deterministic (fun _ => hstop'.not_turns) hmore)
  exact hle

/-! ### A connection that breaks -/

/-- `ReadHeader` takes a header from the front of the socket, and does not find one where there
is nothing. -/
structure Http.Streams (P : Http) : Prop where
  more : ∀ socket tail h rest, P.readHeader socket = some (h, rest) →
    P.readHeader (socket ++ tail) = some (h, rest ++ tail)
  nothing : P.readHeader [] = none

variable {P : Http} {reqs : List Request} {x : Served} {q : Request} {conn conn' : Connection} {k : ℕ}

/-- What a call of `ClientService` makes of a part of a request that is sound. -/
inductive Served.Part (q : Request) (rest tail : List UInt8) : Served → Prop
  /-- The connection broke within the request. -/
  | broken {s : Store} {calls : List Call} : calls <+: q.frames.map callOf →
      Served.Part q rest tail ⟨s, calls, false, none⟩
  /-- The whole request was there. -/
  | whole {s : Store} {left : List UInt8} : left ++ tail = rest →
      Served.Part q rest tail ⟨s, q.frames.map callOf, true, some left⟩

theorem Serves.part (hP : P.Streams) (hM : 8 * r.maxArraySize < 2 ^ 32) (hq : q.Sound P r)
    (hkeeps : q.header.keeps = true) {rest : List UInt8} (hsplit : socket ++ tail = q.encode ++ rest)
    (hx : Serves P r env threadId socket s x) : x.Part q rest tail := by
  obtain ⟨s', hwhole⟩ := hq.serves env threadId hM s rest
  rw [hkeeps, if_pos rfl, ← hsplit] at hwhole
  cases hx with
  | badHeader _ => exact .broken (List.nil_prefix)
  | @badBody h hrest st hread hbody =>
    generalize hy : (⟨s', q.frames.map callOf, true, some rest⟩ : Served) = y at hwhole
    cases hwhole with
    | badHeader hnone => rw [hP.more _ _ _ _ hread] at hnone; cases hnone
    | badBody _ _ => rw [Served.mk.injEq] at hy; cases hy.2.2.1
    | ok hread' hbody' =>
      rw [hP.more _ _ _ _ hread] at hread'
      cases hread'
      have hle := hbody.calls_le_more hbody'
      rw [Served.mk.injEq] at hy
      rw [← hy.2.1] at hle
      exact .broken hle
  | @ok h hrest left st hread hbody =>
    have hhead := hq.readHeader (q.body ++ rest)
    rw [← List.append_assoc, ← Request.encode, ← hsplit, hP.more _ _ _ _ hread, Option.some.injEq,
      Prod.mk.injEq] at hhead
    obtain ⟨rfl, -⟩ := hhead
    have heq := (Serves.ok (hP.more _ tail _ _ hread) (hbody.more tail)).unique hwhole
    rw [hkeeps, if_pos rfl, hq.completeRead, Served.mk.injEq, Option.some.injEq] at heq
    obtain ⟨-, hcalls, -, hleft⟩ := heq
    rw [hkeeps, if_pos rfl, hq.completeRead, hcalls]
    exact .whole hleft

/-- The connection has processed `k` requests, and then broken or not. -/
inductive Connection.Cut (reqs : List Request) (k : ℕ) (c : Connection) : Prop
  /-- A part of the remaining requests is there. -/
  | kept {socket tail : List UInt8} : c.socket = some socket →
      socket ++ tail = requestBytes (reqs.drop k) →
      c.calls = requestCalls (reqs.take k) → c.replies = List.replicate k true → Connection.Cut reqs k c
  | broken : c.socket = none → requestCalls (reqs.take k) <+: c.calls →
      c.calls <+: requestCalls (reqs.take (k + 1)) → c.replies = List.replicate k true ++ [false] →
      Connection.Cut reqs k c

/-- **One call** on a connection that may break. -/
theorem Connection.Cut.step (hP : P.Streams) (hM : 8 * r.maxArraySize < 2 ^ 32) (hreqs : KeptAlive P r reqs)
    (hk : k ≤ reqs.length) (hc : conn.Cut reqs k) (hstep : Connection.Step P r env threadId conn conn') :
    ∃ k' ≤ reqs.length, conn'.Cut reqs k' := by
  obtain ⟨hsocket', hx⟩ := hstep
  cases hc with
  | broken hnone => rw [hnone] at hsocket'; cases hsocket'
  | kept hsocket hsplit hcalls hreplies =>
    cases hsocket.symm.trans hsocket'
    rcases hk.eq_or_lt with rfl | hlt
    · rw [List.drop_length, requestBytes, List.flatMap_nil, List.append_eq_nil_iff] at hsplit
      obtain ⟨rfl, -⟩ := hsplit
      cases hx with
      | badHeader _ =>
        refine ⟨_, le_rfl, .broken rfl ?_ ?_ ?_⟩ <;> simp only [Connection.after, List.append_nil]
        · exact ⟨[], by rw [hcalls, List.append_nil]⟩
        · refine ⟨[], ?_⟩
          rw [hcalls, List.append_nil, List.take_of_length_le (Nat.le_succ _), List.take_length]
        · rw [hreplies]
      | badBody hread _ | ok hread _ => rw [hP.nothing] at hread; cases hread
    · have hmem : reqs[k] ∈ reqs := List.getElem_mem hlt
      rw [List.drop_eq_getElem_cons hlt, requestBytes, List.flatMap_cons] at hsplit
      cases hx.part hP hM (hreqs.sound _ hmem) (hreqs.keeps _ hmem) hsplit with
      | broken hle =>
        refine ⟨k, hk, .broken rfl ?_ ?_ ?_⟩ <;> simp only [Connection.after]
        · rw [hcalls]
          exact List.prefix_append _ _
        · rw [hcalls, requestCalls_take_succ hlt]
          exact (List.prefix_append_right_inj _).mpr hle
        · rw [hreplies]
      | whole hleft =>
        refine ⟨k + 1, hlt, .kept rfl hleft ?_ ?_⟩ <;> simp only [Connection.after]
        · rw [hcalls, requestCalls_take_succ hlt]
        · rw [hreplies, List.replicate_succ']

/-- **A connection that breaks costs an end**: whatever part of the requests arrives, some `k` of them are
answered with `OK!` and at most one more call fails; all the frames of those `k` have been processed,
then perhaps some of the next request, always in order and without anything in between. -/
theorem cut_keeps_order (P : Http) (r : DiodeReceiver) (env : Env) (threadId : ℕ) (s : Store)
    (reqs : List Request) (socket tail : List UInt8) (c : Connection) (hM : 8 * r.maxArraySize < 2 ^ 32)
    (hP : P.Streams) (hreqs : KeptAlive P r reqs) (hsplit : socket ++ tail = requestBytes reqs)
    (hc : Reachable (Connection.Step P r env threadId) (.start socket s) c) :
    ∃ k ≤ reqs.length, (c.replies = List.replicate k true ∨ c.replies = List.replicate k true ++ [false]) ∧
      requestCalls (reqs.take k) <+: c.calls ∧ c.calls <+: requestCalls (reqs.take (k + 1)) := by
  obtain ⟨k, hk, hcut⟩ : ∃ k ≤ reqs.length, c.Cut reqs k :=
    hc.invariant (I := fun c => ∃ k ≤ reqs.length, c.Cut reqs k)
      ⟨0, Nat.zero_le _, .kept rfl hsplit rfl rfl⟩
      fun _ _ ⟨_, hk, hcut⟩ hstep => hcut.step hP hM hreqs hk hstep
  refine ⟨k, hk, ?_⟩
  cases hcut with
  | kept _ _ hcalls hreplies =>
    refine ⟨Or.inl hreplies, ⟨[], by rw [hcalls, List.append_nil]⟩, ?_⟩
    rw [hcalls, List.take_add_one, requestCalls, requestCalls, List.flatMap_append]
    exact List.prefix_append _ _
  | broken _ hle hge hreplies => exact ⟨Or.inr hreplies, hle, hge⟩

theorem readPlainHeader_more {h : RequestHeader} {rest : List UInt8}
    (hread : readPlainHeader socket = some (h, rest))
    (tail : List UInt8) : readPlainHeader (socket ++ tail) = some (h, rest ++ tail) := by
  obtain ⟨x, hlines, hmap⟩ := Option.bind_eq_some_iff.mp hread
  obtain ⟨h', hheader, heq⟩ := Option.map_eq_some_iff.mp hmap
  cases heq
  rw [readPlainHeader, headerLines_more hlines, Option.bind_some, hheader, Option.map_some]

theorem plainHttp_streams : plainHttp.Streams :=
  ⟨fun _ tail _ _ hread => readPlainHeader_more hread tail, rfl⟩

/-- Two requests, the second of which breaks in its chunk. -/
theorem cut_keeps_order_second : ∃ c, Reachable (Connection.Step plainHttp (onePv 4) plainEnv 0)
    (.start (requestBytes (List.replicate 1 (smallRequest true)) ++ (smallRequest true).encode.take 80)
      Store.start) c ∧
    c.replies.length = 1 ∧ ∃ k ≤ 2, (c.replies = List.replicate k true ∨
      c.replies = List.replicate k true ++ [false]) ∧
      requestCalls ((List.replicate 2 (smallRequest true)).take k) <+: c.calls ∧
        c.calls <+: requestCalls ((List.replicate 2 (smallRequest true)).take (k + 1)) := by
  obtain ⟨c, hc, hlen⟩ := (smallRequests_keptAlive 1).reaches plainEnv 0 Store.start (by decide)
    ((smallRequest true).encode.take 80) 1 le_rfl
  exact ⟨c, hc, hlen, cut_keeps_order plainHttp (onePv 4) plainEnv 0 Store.start
    (List.replicate 2 (smallRequest true)) _ ((smallRequest true).encode.drop 80) c (by decide)
    plainHttp_streams (smallRequests_keptAlive 2) (by simp [requestBytes, List.replicate]) hc⟩

end Hieratika.Receiver

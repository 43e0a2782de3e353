import Hieratika.Foundations.Deterministic
import Hieratika.Receiver.RoundTrip

/-!
# The body loop in turns

The loop of `ClientService` that reads the body of a request, taken apart into its turns, so that
what is left on the socket and what was stored before an error are known. The turns are the loop of
`Parser` (`reads_some_iff`, `reads_none_iff`), and there is one way to go on.

A body with frames that pass the checks is read to its end, chunked (`reads_chunked`) or with a content
length (`reads_length`), and what is behind it stays on the socket.
-/

namespace Hieratika.Receiver

open Foundations Diode

variable {r : DiodeReceiver} {env : Env} {threadId : ℕ} {toSize : List UInt8 → ℕ} {isChunked : Bool}
  {b c : Body} {st : Service}

/-! ### The body loop in turns -/

/-- A turn of the body loop that goes round again: a chunk is read and its frames are consumed. -/
def Body.Turns (r : DiodeReceiver) (env : Env) (threadId : ℕ) (toSize : List UInt8 → ℕ) (isChunked : Bool)
    (b c : Body) : Prop :=
  ∃ b' b'' st, b.readNewChunk toSize isChunked = some b' ∧ 0 < b'.chunkSize ∧
    b'.skipLine isChunked = some b'' ∧ b''.service.Consumes r env threadId st ∧ c = { b'' with service := st }

/-- The turn in which the loop ends, with what is left on the socket, or nothing after an error. -/
inductive Body.Stops (toSize : List UInt8 → ℕ) (isChunked : Bool) (b : Body) : Option (List UInt8) → Prop
  | readError : b.readNewChunk toSize isChunked = none → Body.Stops toSize isChunked b none
  /-- The empty chunk, and the line behind it. -/
  | done {b' : Body} : b.readNewChunk toSize isChunked = some b' → b'.chunkSize = 0 →
      Body.Stops toSize isChunked b ((b'.skipLine isChunked).map fun b => b.socket)
  | lineError {b' : Body} : b.readNewChunk toSize isChunked = some b' → 0 < b'.chunkSize →
      b'.skipLine isChunked = none → Body.Stops toSize isChunked b none

/-- The whole loop, with the buffers and the calls at its end. -/
def Body.Reads (r : DiodeReceiver) (env : Env) (threadId : ℕ) (toSize : List UInt8 → ℕ) (isChunked : Bool)
    (b : Body) (st : Service) (left : Option (List UInt8)) : Prop :=
  ∃ t, Reachable (Body.Turns r env threadId toSize isChunked) b t ∧ t.Stops toSize isChunked left ∧
    st = t.service

/-- The size of the next chunk, with what is left on the socket and of `contentLength` before it. -/
def Body.nextSize (toSize : List UInt8 → ℕ) (isChunked : Bool) (b : Body) : Option (List UInt8 × ℕ × ℕ) :=
  if isChunked then
    if b.contentLength = 0 then (getLine b.socket).map fun l =>
      (l.2, u32 (toSize (stripLine l.1)), u32 (toSize (stripLine l.1)))
    else some (b.socket, b.contentLength, b.contentLength)
  else some (b.socket, min b.chunkSize b.contentLength, b.contentLength)

/-- `ReadNewChunk` is the size, then the bytes. -/
theorem readNewChunk_eq : b.readNewChunk toSize isChunked = (b.nextSize toSize isChunked).bind fun x =>
    (readPieces x.1 b.service.payload x.2.1).map fun y =>
      ⟨y.1, x.2.1, x.2.2 - x.2.1, { b.service with payload := y.2 }⟩ := by
  unfold Body.readNewChunk Body.nextSize
  cases isChunked with
  | false =>
    simp only [Bool.false_eq_true, if_false, Option.bind_eq_bind, Option.bind_some, Option.pure_def]
    rw [Option.map_eq_bind]
    rfl
  | true =>
    simp only [if_true, Option.bind_eq_bind, Option.pure_def]
    split_ifs
    · cases getLine b.socket <;> simp [Option.map_eq_bind]
    · simp [Option.map_eq_bind]

/-- What a chunk that is read consists of. -/
theorem readNewChunk_some {b' : Body} (h : b.readNewChunk toSize isChunked = some b') :
    ∃ x, b.nextSize toSize isChunked = some x ∧
      readPieces x.1 b.service.payload x.2.1 = some (b'.socket, b'.service.payload) ∧
      b' = ⟨b'.socket, x.2.1, x.2.2 - x.2.1, { b.service with payload := b'.service.payload }⟩ := by
  rw [readNewChunk_eq, Option.bind_eq_some_iff] at h
  obtain ⟨x, hx, h⟩ := h
  obtain ⟨y, hy, rfl⟩ := Option.map_eq_some_iff.mp h
  exact ⟨x, hx, hy, rfl⟩

/-- An empty chunk leaves the payload as it is. -/
theorem readNewChunk_empty {b' : Body} (h : b.readNewChunk toSize isChunked = some b')
    (hzero : b'.chunkSize = 0) : b'.service = b.service := by
  obtain ⟨x, -, hread, hb'⟩ := readNewChunk_some h
  rw [hb'] at hzero
  rw [show x.2.1 = 0 from hzero, readPieces, dif_neg (by simp), Option.some.injEq, Prod.mk.injEq] at hread
  rw [hb', ← hread.2]

theorem skipLine_service_eq {b' : Body} (h : b.skipLine isChunked = some b') : b'.service = b.service := by
  unfold Body.skipLine at h
  split_ifs at h
  · obtain ⟨_, -, rfl⟩ := Option.map_eq_some_iff.mp h
    rfl
  · cases h
    rfl

/-- The loop as it was, with the last turn at its end. -/
theorem readsBody_of_reads {left : Option (List UInt8)}
    (h : b.Reads r env threadId toSize isChunked st left) :
    ReadsBody r env threadId toSize isChunked b (left.map fun _ => st) := by
  obtain ⟨t, hturns, hstop, rfl⟩ := h
  induction hturns using Relation.ReflTransGen.head_induction_on with
  | refl =>
    cases hstop with
    | readError hnone => exact .readError hnone
    | lineError hread hpos hline => exact .lineError hread hpos hline
    | @done b' hread hzero =>
      have hdone := @ReadsBody.done r env threadId toSize isChunked _ _ hread hzero
      have hservice := readNewChunk_empty hread hzero
      cases hskip : b'.skipLine isChunked with
      | none =>
        rw [hskip] at hdone
        exact hdone
      | some b'' =>
        rw [hskip, Option.map_some, skipLine_service_eq hskip, hservice] at hdone
        exact hdone
  | head hturn _ ih =>
    obtain ⟨b', b'', st, hread, hpos, hline, hcons, rfl⟩ := hturn
    exact .chunk hread hpos hline hcons ih

theorem exists_reads {res : Option Service} (h : ReadsBody r env threadId toSize isChunked b res) :
    ∃ st left, b.Reads r env threadId toSize isChunked st left ∧ res = left.map fun _ => st := by
  induction h with
  | readError hnone => exact ⟨_, none, ⟨_, .refl, .readError hnone, rfl⟩, rfl⟩
  | lineError hread hpos hline => exact ⟨_, none, ⟨_, .refl, .lineError hread hpos hline, rfl⟩, rfl⟩
  | @done b b' hread hzero =>
    refine ⟨b.service, _, ⟨b, .refl, .done hread hzero, rfl⟩, ?_⟩
    have hservice := readNewChunk_empty hread hzero
    cases hskip : b'.skipLine isChunked with
    | none => rfl
    | some b'' =>
      rw [Option.map_some, Option.map_some, skipLine_service_eq hskip, hservice]
      rfl
  | chunk hread hpos hline hcons _ ih =>
    obtain ⟨st, left, ⟨t, hturns, hstop, rfl⟩, rfl⟩ := ih
    exact ⟨_, left, ⟨t, .head ⟨_, _, _, hread, hpos, hline, hcons, rfl⟩ hturns, hstop, rfl⟩, rfl⟩

/-- **The turns are the loop**: a body that is read to its end. -/
theorem reads_some_iff : ReadsBody r env threadId toSize isChunked b (some st) ↔
    ∃ left, b.Reads r env threadId toSize isChunked st (some left) := by
  constructor
  · intro h
    obtain ⟨st', left, hreads, heq⟩ := exists_reads h
    obtain ⟨left, rfl, rfl⟩ := Option.map_eq_some_iff.mp heq.symm
    exact ⟨left, hreads⟩
  · rintro ⟨left, hreads⟩
    exact readsBody_of_reads hreads

/-- A body on which the loop ends with an error. -/
theorem reads_none_iff : ReadsBody r env threadId toSize isChunked b none ↔
    ∃ st, b.Reads r env threadId toSize isChunked st none := by
  constructor
  · intro h
    obtain ⟨st', left, hreads, heq⟩ := exists_reads h
    rw [Option.map_eq_none_iff.mp heq.symm] at hreads
    exact ⟨st', hreads⟩
  · rintro ⟨st, hreads⟩
    exact readsBody_of_reads hreads

/-! ### One way to go on -/

theorem Body.Turns.unique {c' : Body} (h : b.Turns r env threadId toSize isChunked c)
    (h' : b.Turns r env threadId toSize isChunked c') : c = c' := by
  obtain ⟨b₁, b₂, st, hread, -, hline, hcons, rfl⟩ := h
  obtain ⟨b₁', b₂', st', hread', -, hline', hcons', rfl⟩ := h'
  cases hread.symm.trans hread'
  cases hline.symm.trans hline'
  rw [hcons.unique hcons']

theorem Body.Stops.not_turns {left : Option (List UInt8)} (h : b.Stops toSize isChunked left) :
    ¬ b.Turns r env threadId toSize isChunked c := by
  rintro ⟨b₁, b₂, st, hread, hpos, hline, -, -⟩
  cases h with
  | readError hnone => rw [hnone] at hread; cases hread
  | done hread' hzero =>
    cases hread.symm.trans hread'
    omega
  | lineError hread' _ hline' =>
    cases hread.symm.trans hread'
    rw [hline'] at hline
    cases hline

theorem Body.Stops.unique {left left' : Option (List UInt8)} (h : b.Stops toSize isChunked left)
    (h' : b.Stops toSize isChunked left') : left = left' := by
  cases h with
  | readError hnone =>
    cases h' with
    | readError => rfl
    | done hread' _ => rw [hnone] at hread'; cases hread'
    | lineError => rfl
  | done hread hzero =>
    cases h' with
    | readError hnone => rw [hnone] at hread; cases hread
    | done hread' _ => cases hread.symm.trans hread'; rfl
    | lineError hread' hpos _ => cases hread.symm.trans hread'; omega
  | lineError hread hpos _ =>
    cases h' with
    | readError => rfl
    | done hread' hzero => cases hread.symm.trans hread'; omega
    | lineError => rfl

theorem turns_deterministic : Deterministic (Body.Turns r env threadId toSize isChunked) :=
  fun _ _ _ h h' => h.unique h'

theorem Body.Reads.unique {st' : Service} {left left' : Option (List UInt8)}
    (h : b.Reads r env threadId toSize isChunked st left)
    (h' : b.Reads r env threadId toSize isChunked st' left') : st = st' ∧ left = left' := by
  obtain ⟨t, ht, hstop, rfl⟩ := h
  obtain ⟨t', ht', hstop', rfl⟩ := h'
  obtain rfl := ht.final_unique turns_deterministic (fun _ => hstop.not_turns) ht' fun _ => hstop'.not_turns
  exact ⟨rfl, hstop.unique hstop'⟩

/-! ### Reading a body to its end -/

variable {frames : List Frame} {chunks : List Chunk} {lastLine : List UInt8}

/-- The line behind a chunk. -/
theorem skipLine_crlf (rest : List UInt8) (cs cl : ℕ) (st : Service) :
    Body.skipLine true ⟨crlf ++ rest, cs, cl, st⟩ = some ⟨rest, cs, cl, st⟩ := by
  have hline := getLine_append (s := rest) (show 10 ∉ [13] by decide)
  unfold Body.skipLine
  rw [if_pos rfl, show crlf ++ rest = [13] ++ 10 :: rest from rfl, hline]
  rfl

/-- The chunks, one turn for each. -/
theorem turns_chunks (r : DiodeReceiver) (env : Env) (threadId : ℕ) {I : Service → List Chunk → Prop}
    (rest : List UInt8)
    (hstep : ∀ ch chunks st, ch.data ≠ [] → I st (ch :: chunks) → ch.data.length < 2 ^ 32 ∧
      ∃ st', Service.Consumes r env threadId { st with payload := st.payload ++ ch.data } st' ∧
        I st' chunks) :
    ∀ (chunks : List Chunk) (st : Service) (cs : ℕ), I st chunks →
    (∀ ch ∈ chunks, ch.data ≠ [] ∧ SizeLine toSize ch.line ch.data.length) →
    ∃ st' cs', Reachable (Body.Turns r env threadId toSize true)
      ⟨chunks.flatMap Chunk.encode ++ rest, cs, 0, st⟩ ⟨rest, cs', 0, st'⟩ ∧ I st' [] := by
  intro chunks
  induction chunks with
  | nil => exact fun st cs hI _ => ⟨st, cs, .refl, hI⟩
  | cons ch chunks ih =>
    intro st cs hI hch
    obtain ⟨hne, hline⟩ := hch ch (by simp)
    obtain ⟨hlt, st₁, hcons, hI₁⟩ := hstep ch chunks st hne hI
    obtain ⟨st', cs', hrest, hI'⟩ := ih st₁ ch.data.length hI₁ (fun c hc => hch c (by simp [hc]))
    have hread := readNewChunk_chunked st cs (crlf ++ (chunks.flatMap Chunk.encode ++ rest)) hline hlt
    have hskip := skipLine_crlf (chunks.flatMap Chunk.encode ++ rest) ch.data.length 0
      { st with payload := st.payload ++ ch.data }
    refine ⟨st', cs', .head ⟨_, _, st₁, ?_, List.length_pos_of_ne_nil hne, hskip, hcons, rfl⟩ hrest, hI'⟩
    simpa [Chunk.encode] using hread

/-- A chunked body with frames that pass the checks. -/
theorem reads_chunked (env : Env) (threadId : ℕ) (s : Store) (rest : List UInt8)
    (hM : 8 * r.maxArraySize < 2 ^ 32) (hacc : ∀ f ∈ frames, Accepts r f)
    (hdata : chunks.flatMap Chunk.data = wire frames)
    (hch : ∀ ch ∈ chunks, ch.data ≠ [] ∧ SizeLine toSize ch.line ch.data.length)
    (hlast : SizeLine toSize lastLine 0)
    (hfit : ∀ f ∈ frames, ∀ ch ∈ chunks, f.encode.length + ch.data.length ≤ 2 ^ 32) :
    ∃ st, Body.Reads r env threadId toSize true ⟨chunked chunks lastLine ++ rest, 0, 0, ⟨[], s, []⟩⟩ st
      (some rest) ∧ st.calls = frames.map callOf := by
  have hinit := Delivered.start (fun f hf => (hacc f hf).shaped) s
  obtain ⟨st, cs, hturns, hI, -⟩ := turns_chunks r env threadId
    (I := fun st chs => Delivered frames st (chs.flatMap Chunk.data) ∧ ∀ ch ∈ chs, ch ∈ chunks)
    (lastLine ++ crlf ++ (crlf ++ rest))
    (fun ch chs st hne ⟨hdel, hsub⟩ => by
      rw [List.flatMap_cons] at hdel
      have hmem := hsub ch (by simp)
      obtain ⟨f, hf, hlt⟩ := hdel.length_lt (by simp [hne])
      have hroom := hfit f hf ch hmem
      have hpos := List.length_pos_of_ne_nil hne
      obtain ⟨st', hcons, hdel'⟩ := hdel.deliver env threadId hM
        (fun g hg => ⟨hacc g hg, by have := hfit g hg ch hmem; omega⟩) (by omega)
      exact ⟨by omega, st', hcons, hdel', fun c hc => hsub c (by simp [hc])⟩)
    chunks ⟨[], s, []⟩ 0 ⟨hdata ▸ hinit, fun _ h => h⟩ hch
  have hread := readNewChunk_chunked st cs (crlf ++ rest)
    (show SizeLine toSize lastLine ([] : List UInt8).length from hlast) (by simp)
  have hstop := Body.Stops.done hread rfl
  rw [skipLine_crlf] at hstop
  refine ⟨st, ⟨_, ?_, hstop, rfl⟩, hI.finished.2⟩
  simpa [chunked] using hturns

/-- A body with a content length, 32 bytes in each turn. -/
theorem turns_pieces (r : DiodeReceiver) (env : Env) (threadId : ℕ) {I : Service → List UInt8 → Prop}
    (toSize : List UInt8 → ℕ) (rest : List UInt8)
    (hstep : ∀ data more st, data ≠ [] → I st (data ++ more) →
      ∃ st', Service.Consumes r env threadId { st with payload := st.payload ++ data } st' ∧ I st' more) :
    ∀ (n : ℕ) (more : List UInt8), more.length = n → ∀ (st : Service) (cs : ℕ), cs = 32 ∨ more = [] →
      I st more →
    ∃ st' cs', Reachable (Body.Turns r env threadId toSize false) ⟨more ++ rest, cs, more.length, st⟩
      ⟨rest, cs', 0, st'⟩ ∧ I st' [] := by
  intro n
  induction n using Nat.strong_induction_on with
  | _ n ih =>
    intro more hn st cs hcs hI
    by_cases hne : more = []
    · subst hne
      exact ⟨st, cs, .refl, hI⟩
    · have hpos := List.length_pos_of_ne_nil hne
      obtain rfl : cs = 32 := hcs.resolve_right hne
      have hread := readNewChunk_length toSize st 32
        (show min 32 more.length ≤ (more ++ rest).length by simp)
      rw [← List.take_append_drop (min 32 more.length) more] at hI
      obtain ⟨st₁, hcons, hI₁⟩ := hstep _ _ st (List.ne_nil_of_length_pos (by simp; omega)) hI
      have hcs' : min 32 more.length = 32 ∨ more.drop (min 32 more.length) = [] := by
        rcases Nat.le_total 32 more.length with h | h
        · exact Or.inl (min_eq_left h)
        · exact Or.inr (by rw [min_eq_right h, List.drop_length])
      obtain ⟨st', cs', hturns, hI'⟩ := ih (more.length - min 32 more.length) (by omega)
        (more.drop (min 32 more.length)) (by simp) st₁ (min 32 more.length) hcs' hI₁
      rw [List.take_append_of_le_length (by omega), List.drop_append_of_le_length (by omega)] at hread
      rw [List.length_drop] at hturns
      exact ⟨st', cs', .head ⟨_, _, st₁, hread, by simp; omega, rfl, hcons, rfl⟩ hturns, hI'⟩

theorem reads_length (env : Env) (threadId : ℕ) (toSize : List UInt8 → ℕ) (s : Store) (rest : List UInt8)
    (hM : 8 * r.maxArraySize < 2 ^ 32) (hacc : ∀ f ∈ frames, Accepts r f)
    (hlen : (wire frames).length < 2 ^ 32) :
    ∃ st, Body.Reads r env threadId toSize false
      ⟨wire frames ++ rest, 32, (wire frames).length, ⟨[], s, []⟩⟩ st (some rest) ∧
        st.calls = frames.map callOf := by
  have hinit := Delivered.start (fun f hf => (hacc f hf).shaped) s
  obtain ⟨st, cs, hturns, hI⟩ := turns_pieces r env threadId toSize rest
    (fun data more st hne hdel => by
      have hle := hdel.length_le
      rw [List.length_append] at hle
      exact hdel.deliver env threadId hM
        (fun g hg => ⟨hacc g hg, lt_of_le_of_lt (length_encode_le hg) hlen⟩) (by omega))
    _ (wire frames) rfl ⟨[], s, []⟩ 32 (Or.inl rfl) hinit
  have hread := readNewChunk_length toSize st cs (show min cs 0 ≤ rest.length by simp)
  have hstop := Body.Stops.done hread (by simp)
  refine ⟨st, ⟨_, hturns, ?_, rfl⟩, hI.finished.2⟩
  simpa [Body.skipLine] using hstop

end Hieratika.Receiver

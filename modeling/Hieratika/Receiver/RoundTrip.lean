import Hieratika.Receiver.Framing

/-!
# Decoding undoes encoding

A request body with the frames `fs` is read by `ClientService` in pieces: the chunks of a
chunked body, or 32 bytes at a time. `Pending fs st rest` is the invariant between two pieces:
the payload and the bytes still to come are the encodings of `fs`, and the payload is shorter
than the first of them. A piece turns `Pending fs` into `Pending fs₂`, where `fs = fs₁ ++ fs₂`
and the frames `fs₁` have been handed to `ReadVarValueAndSkip` (`Pending.deliver`).

The counters of the parser are 32 bits wide. A frame and a chunk together must fit, as must a
body that is not chunked; `processedSize_wraps` shows a frame of more than `2 ^ 32` bytes that
is stored as soon as its header is there.
-/

namespace Hieratika.Receiver

open Foundations Diode

variable {r : DiodeReceiver} {env : Env} {threadId : ℕ} {fs : List Frame} {st : Service} {rest : List UInt8}

/-- The frames as they are written. -/
def wire (fs : List Frame) : List UInt8 := fs.flatMap Frame.encode

theorem wire_cons (f : Frame) (fs : List Frame) : wire (f :: fs) = f.encode ++ wire fs := rfl

/-! ### The loops have one result -/

theorem Resynced.unique {p : List UInt8} {a b : List UInt8 × Bool} (ha : Resynced p a) (hb : Resynced p b) :
    a = b := by
  unfold Resynced at ha hb
  split_ifs at ha hb
  · exact ha.trans hb.symm
  · exact ha.trans hb.symm
  · obtain ⟨_, _, _, he, rfl⟩ := ha
    obtain ⟨_, _, _, he', rfl⟩ := hb
    cases he.unique he'
    rfl

theorem ReadVarNameAndIndex.unique {p : List UInt8} {a b : List UInt8 × Option Header}
    (ha : ReadVarNameAndIndex r env p a) (hb : ReadVarNameAndIndex r env p b) : a = b := by
  obtain ⟨q, ok, hq, ha⟩ := ha
  obtain ⟨q', ok', hq', hb⟩ := hb
  cases hq.unique hq'
  cases ok with
  | false => exact ha.trans hb.symm
  | true =>
    obtain ⟨_, _, he, rfl⟩ := ha
    obtain ⟨_, _, he', rfl⟩ := hb
    cases he.unique he'
    rfl

theorem Service.Stores.unique {a b : Service} (ha : Service.Stores r env threadId st a)
    (hb : Service.Stores r env threadId st b) : a = b := by
  obtain ⟨p, h, hrv, -, rfl⟩ := ha
  obtain ⟨p', h', hrv', -, rfl⟩ := hb
  cases hrv.unique hrv'
  rfl

theorem Service.Leaves.unique {a b : Service} (ha : Service.Leaves r env st a)
    (hb : Service.Leaves r env st b) : a = b := by
  cases ha with
  | noHeader ha =>
    cases hb with
    | noHeader hb => cases ha.unique hb; rfl
    | incomplete hb _ => cases ha.unique hb
  | incomplete ha _ =>
    cases hb with
    | noHeader hb => cases ha.unique hb
    | incomplete hb _ => cases ha.unique hb; rfl

/-- A turn does not both store and leave. -/
theorem Service.Stores.not_leaves {a b : Service} (ha : Service.Stores r env threadId st a)
    (hb : Service.Leaves r env st b) : False := by
  obtain ⟨p, h, hrv, hle, -⟩ := ha
  cases hb with
  | noHeader hb => cases hrv.unique hb
  | incomplete hb hlt =>
    cases hrv.unique hb
    omega

theorem Service.Consumes.unique {a b : Service} (ha : Service.Consumes r env threadId st a)
    (hb : Service.Consumes r env threadId st b) : a = b := by
  obtain ⟨t, ht, hl⟩ := ha
  obtain ⟨t', ht', hl'⟩ := hb
  induction ht using Relation.ReflTransGen.head_induction_on with
  | refl =>
    cases Relation.ReflTransGen.cases_head ht' with
    | inl heq => subst heq; exact hl.unique hl'
    | inr hstep =>
      obtain ⟨_, hs, -⟩ := hstep
      exact (hs.not_leaves hl).elim
  | head hs _ ih =>
    cases Relation.ReflTransGen.cases_head ht' with
    | inl heq => subst heq; exact (hs.not_leaves hl').elim
    | inr hstep =>
      obtain ⟨_, hs', ht'⟩ := hstep
      cases hs.unique hs'
      exact ih ht'

theorem ReadsBody.unique {toSize : List UInt8 → ℕ} {isChunked : Bool} {b : Body} {x y : Option Service}
    (hx : ReadsBody r env threadId toSize isChunked b x)
    (hy : ReadsBody r env threadId toSize isChunked b y) :
    x = y := by
  induction hx generalizing y with
  | readError hn =>
    cases hy with
    | readError => rfl
    | lineError => rfl
    | done hn' _ | chunk hn' _ _ _ _ => rw [hn] at hn'; cases hn'
  | done hn hz =>
    cases hy with
    | readError hn' => rw [hn] at hn'; cases hn'
    | done hn' hz' => rw [hn] at hn'; cases hn'; rfl
    | lineError hn' hp' _ => rw [hn] at hn'; cases hn'; omega
    | chunk hn' hp' _ _ _ => rw [hn] at hn'; cases hn'; omega
  | lineError hn hp hs =>
    cases hy with
    | readError hn' => rfl
    | done hn' hz' => rw [hn] at hn'; cases hn'; omega
    | lineError hn' hp' _ => rfl
    | chunk hn' hp' hs' _ _ => rw [hn] at hn'; cases hn'; rw [hs] at hs'; cases hs'
  | chunk hn hp hs hc _ ih =>
    cases hy with
    | readError hn' => rw [hn] at hn'; cases hn'
    | done hn' hz' => rw [hn] at hn'; cases hn'; omega
    | lineError hn' hp' hs' => rw [hn] at hn'; cases hn'; rw [hs] at hs'; cases hs'
    | chunk hn' hp' hs' hc' hy =>
      rw [hn] at hn'
      cases hn'
      rw [hs] at hs'
      cases hs'
      cases hc.unique hc'
      exact ih hy

/-! ### One piece of the body -/

/-- Between two pieces: what is in the payload is the beginning of the next frame. -/
structure Pending (fs : List Frame) (st : Service) (rest : List UInt8) : Prop where
  bytes : st.payload ++ rest = wire fs
  incomplete : ∀ f, fs.head? = some f → st.payload.length < f.encode.length

/-- The loop hands over every complete frame, in order, and keeps the rest. -/
theorem consumes_complete (hM : 8 * r.maxArraySize < 2 ^ 32) : ∀ (fs : List Frame),
    (∀ f ∈ fs, Accepts r f ∧ f.encode.length < 2 ^ 32) → ∀ (st : Service) (rest : List UInt8),
    st.payload ++ rest = wire fs → st.payload.length < 2 ^ 32 →
    ∃ fs₁ fs₂ st', fs = fs₁ ++ fs₂ ∧ Service.Consumes r env threadId st st' ∧
      st'.calls = st.calls ++ fs₁.map callOf ∧ Pending fs₂ st' rest := by
  intro fs
  induction fs with
  | nil =>
    intro _ st rest hw _
    have hnil : st.payload = [] := (List.append_eq_nil_iff.mp hw).1
    have hleave : Service.Leaves r env st { st with payload := [] } :=
      .noHeader ⟨[], false, by simp [Resynced, hnil], rfl⟩
    refine ⟨[], [], _, rfl, ⟨st, .refl, hleave⟩, by simp, ⟨?_, by simp⟩⟩
    rw [← hw, hnil]
  | cons f fs ih =>
    intro hgood st rest hw hlen
    obtain ⟨hacc, hf⟩ := hgood f (by simp)
    have hp : st.payload <+: f.encode ++ wire fs := ⟨rest, hw⟩
    rcases Nat.lt_or_ge st.payload.length f.encode.length with hlt | hge
    · obtain ⟨s, hleave⟩ := leaves_incomplete env (hacc.size_lt_u32 hM) hacc hf hp hlt
      refine ⟨[], f :: fs, _, rfl, ⟨st, .refl, hleave⟩, by simp, ⟨hw, ?_⟩⟩
      rintro _ ⟨⟩
      exact hlt
    · obtain ⟨s, hstore⟩ := stores_complete env threadId (hacc.size_lt_u32 hM) hacc hf hp hlen hge
      have hsplit : st.payload = f.encode ++ st.payload.drop f.encode.length := by
        obtain ⟨u, hu⟩ := List.prefix_of_prefix_length_le (List.prefix_append _ _) hp hge
        rw [← hu, List.drop_left]
      have hw' : st.payload.drop f.encode.length ++ rest = wire fs := by
        rw [hsplit, wire_cons, List.append_assoc, List.append_cancel_left_eq] at hw
        exact hw
      obtain ⟨fs₁, fs₂, st', rfl, ⟨t, ht, hl⟩, hcalls, hpend⟩ :=
        ih (fun g hg => hgood g (by simp [hg])) ⟨_, s, st.calls ++ [callOf f]⟩ rest hw' (by simp; omega)
      refine ⟨f :: fs₁, fs₂, st', rfl, ⟨t, Reachable.trans (Reachable.next .refl hstore) ht, hl⟩, ?_, hpend⟩
      rw [hcalls]
      simp

/-- A piece of the body that comes in between. -/
theorem Pending.deliver (env : Env) (threadId : ℕ) (hM : 8 * r.maxArraySize < 2 ^ 32)
    (hgood : ∀ f ∈ fs, Accepts r f ∧ f.encode.length < 2 ^ 32) {data : List UInt8}
    (h : Pending fs st (data ++ rest)) (hlen : st.payload.length + data.length < 2 ^ 32) :
    ∃ fs₁ fs₂ st', fs = fs₁ ++ fs₂ ∧
      Service.Consumes r env threadId { st with payload := st.payload ++ data } st' ∧
      st'.calls = st.calls ++ fs₁.map callOf ∧ Pending fs₂ st' rest :=
  consumes_complete hM fs hgood { st with payload := st.payload ++ data } rest
    (by rw [← h.bytes]; simp) (by simpa using hlen)

/-- At the end of the body everything has been handed over. -/
theorem Pending.finished (h : Pending fs st []) : fs = [] ∧ st.payload = [] := by
  have hb := h.bytes
  rw [List.append_nil] at hb
  cases fs with
  | nil => exact ⟨rfl, hb⟩
  | cons f fs =>
    have hlt := h.incomplete f rfl
    rw [hb, wire_cons, List.length_append] at hlt
    omega

/-- The payload is at most the next frame. -/
theorem Pending.length_lt (h : Pending fs st rest) (hne : rest ≠ []) :
    ∃ f ∈ fs, st.payload.length < f.encode.length := by
  cases fs with
  | nil => exact absurd (List.append_eq_nil_iff.mp h.bytes).2 hne
  | cons f fs => exact ⟨f, by simp, h.incomplete f rfl⟩

/-! ### Reading from the socket -/

theorem readPieces_eq (socket payload : List UInt8) (left : ℕ) (h : left ≤ socket.length) :
    readPieces socket payload left = some (socket.drop left, payload ++ socket.take left) := by
  induction socket, payload, left using readPieces.induct with
  | case1 socket payload left hpos sizeToRead hle ih =>
    have hsz : sizeToRead = min left 1023 := rfl
    rw [readPieces, dif_pos hpos]
    dsimp only
    rw [if_pos hle, ih (by simp; omega), List.drop_drop, List.append_assoc,
      ← List.take_add, Nat.add_sub_cancel' (by omega)]
  | case2 socket payload left hpos sizeToRead hgt => omega
  | case3 socket payload left hz =>
    have h0 : left = 0 := by omega
    subst h0
    rw [readPieces, dif_neg hz]
    simp

theorem getLine_append {line s : List UInt8} (h : 10 ∉ line) :
    getLine (line ++ 10 :: s) = some (line, s) := by
  have htake : (line ++ 10 :: s).takeWhile (· ≠ 10) = line := by
    rw [List.takeWhile_append_of_pos fun b hb => by simpa using fun h10 : b = 10 => h (h10 ▸ hb)]
    simp
  have hdrop : (line ++ 10 :: s).dropWhile (· ≠ 10) = 10 :: s := by
    rw [List.dropWhile_append_of_pos fun b hb => by simpa using fun h10 : b = 10 => h (h10 ▸ hb)]
    simp
  rw [getLine, if_pos (by simp), htake, hdrop]
  rfl

/-- A chunk of the body: its size line and its bytes. -/
structure Chunk where
  line : List UInt8
  data : List UInt8

/-- The end of a line. -/
def crlf : List UInt8 := [13, 10]

/-- A chunk on the wire. -/
def Chunk.encode (ch : Chunk) : List UInt8 := ch.line ++ crlf ++ ch.data ++ crlf

/-- A line that the conversion `toSize` takes for the number `n`. -/
structure SizeLine (toSize : List UInt8 → ℕ) (line : List UInt8) (n : ℕ) : Prop where
  nonempty : line ≠ []
  noNewline : 10 ∉ line
  noReturn : 13 ∉ line
  toSize_eq : toSize line = n

theorem stripLine_eq {toSize : List UInt8 → ℕ} {line : List UInt8} {n : ℕ} (h : SizeLine toSize line n) :
    stripLine (line ++ [13]) = line := by
  unfold stripLine
  rw [List.rdropWhile_concat_pos _ _ _ (by simp)]
  refine List.rdropWhile_eq_self_iff.mpr fun hne => ?_
  have hmem := List.getLast_mem hne
  simp only [decide_eq_true_eq]
  rintro (h13 | h10)
  · exact h.noReturn (h13 ▸ hmem)
  · exact h.noNewline (h10 ▸ hmem)

variable {toSize : List UInt8 → ℕ} {cs : ℕ}

/-- Reading a chunk takes its size line and appends its bytes. -/
theorem readNewChunk_chunked (st : Service) (cs : ℕ) {line data : List UInt8} (s : List UInt8)
    (h : SizeLine toSize line data.length)
    (hlt : data.length < 2 ^ 32) :
    Body.readNewChunk toSize true ⟨line ++ crlf ++ data ++ s, cs, 0, st⟩ =
      some ⟨s, data.length, 0, { st with payload := st.payload ++ data }⟩ := by
  have hline : getLine (line ++ crlf ++ data ++ s) = some (line ++ [13], data ++ s) := by
    have := getLine_append (s := data ++ s) (show 10 ∉ line ++ [13] by simp [h.noNewline])
    simpa [crlf] using this
  have hsize : u32 (toSize (stripLine (line ++ [13]))) = data.length := by
    rw [stripLine_eq h, h.toSize_eq, u32_of_lt hlt]
  unfold Body.readNewChunk
  simp only [hline, if_true, Option.bind_eq_bind, Option.bind_some, Option.pure_def, hsize]
  rw [readPieces_eq _ _ _ (by simp)]
  simp

/-- Reading a piece of a body with a content length. -/
theorem readNewChunk_length (toSize : List UInt8 → ℕ) (st : Service) (cs : ℕ) {s : List UInt8} {left : ℕ}
    (h : min cs left ≤ s.length) :
    Body.readNewChunk toSize false ⟨s, cs, left, st⟩ =
      some ⟨s.drop (min cs left), min cs left, left - min cs left,
        { st with payload := st.payload ++ s.take (min cs left) }⟩ := by
  unfold Body.readNewChunk
  simp only [Bool.false_eq_true, if_false, Option.bind_eq_bind, Option.bind_some, Option.pure_def]
  rw [readPieces_eq _ _ _ h]
  rfl

/-! ### The whole body -/

/-- **The rule for a chunked body**: what every chunk keeps holds at its end. -/
theorem readsBody_of_chunks (r : DiodeReceiver) (env : Env) (threadId : ℕ) {I : Service → List Chunk → Prop}
    {lastLine : List UInt8} (tail : List UInt8)
    (hlast : SizeLine toSize lastLine 0)
    (hstep : ∀ ch chunks st, ch.data ≠ [] → I st (ch :: chunks) → ch.data.length < 2 ^ 32 ∧
      ∃ st', Service.Consumes r env threadId { st with payload := st.payload ++ ch.data } st' ∧
        I st' chunks) :
    ∀ (chunks : List Chunk) (st : Service) (cs : ℕ), I st chunks →
    (∀ ch ∈ chunks, ch.data ≠ [] ∧ SizeLine toSize ch.line ch.data.length) →
    ∃ st', ReadsBody r env threadId toSize true
      ⟨chunks.flatMap Chunk.encode ++ (lastLine ++ crlf ++ (crlf ++ tail)), cs, 0, st⟩ (some st') ∧
        I st' [] := by
  intro chunks
  induction chunks with
  | nil =>
    intro st cs hI _
    have hread := readNewChunk_chunked st cs (crlf ++ tail)
      (show SizeLine toSize lastLine ([] : List UInt8).length from hlast) (by simp)
    have hdone := @ReadsBody.done r env threadId toSize true _ _ hread rfl
    have hskip : Body.skipLine true ⟨crlf ++ tail, 0, 0, st⟩ = some ⟨tail, 0, 0, st⟩ := by
      have hline := getLine_append (s := tail) (show 10 ∉ [13] by decide)
      simp only [Body.skipLine, if_true, crlf, List.cons_append, List.nil_append] at hline ⊢
      rw [hline]
      rfl
    simp only [List.append_nil, List.length_nil] at hdone
    rw [hskip] at hdone
    exact ⟨st, by simpa using hdone, hI⟩
  | cons ch chunks ih =>
    intro st cs hI hch
    obtain ⟨hne, hline⟩ := hch ch (by simp)
    obtain ⟨hlt, st₁, hcons, hI₁⟩ := hstep ch chunks st hne hI
    obtain ⟨st', hrest, hI'⟩ := ih st₁ ch.data.length hI₁ (fun c hc => hch c (by simp [hc]))
    refine ⟨st', ?_, hI'⟩
    have hread := readNewChunk_chunked st cs
      (crlf ++ (chunks.flatMap Chunk.encode ++ (lastLine ++ crlf ++ (crlf ++ tail)))) hline hlt
    have hskip : Body.skipLine true ⟨crlf ++ (chunks.flatMap Chunk.encode ++
        (lastLine ++ crlf ++ (crlf ++ tail))), ch.data.length, 0,
          { st with payload := st.payload ++ ch.data }⟩ =
        some ⟨chunks.flatMap Chunk.encode ++ (lastLine ++ crlf ++ (crlf ++ tail)), ch.data.length, 0,
          { st with payload := st.payload ++ ch.data }⟩ := by
      have hl := getLine_append (s := chunks.flatMap Chunk.encode ++ (lastLine ++ crlf ++ (crlf ++ tail)))
        (show 10 ∉ [13] by decide)
      simp only [Body.skipLine, if_true]
      rw [show crlf ++ (chunks.flatMap Chunk.encode ++ (lastLine ++ crlf ++ (crlf ++ tail))) =
        [13] ++ 10 :: (chunks.flatMap Chunk.encode ++ (lastLine ++ crlf ++ (crlf ++ tail))) from rfl, hl]
      rfl
    have hturn := ReadsBody.chunk hread (List.length_pos_of_ne_nil hne) hskip hcons hrest
    simpa [Chunk.encode] using hturn

/-- **The rule for a body with a content length**: what every piece keeps holds at its end. -/
theorem readsBody_of_pieces (r : DiodeReceiver) (env : Env) (threadId : ℕ) {I : Service → List UInt8 → Prop}
    (toSize : List UInt8 → ℕ) (tail : List UInt8)
    (hstep : ∀ data rest st, data ≠ [] → I st (data ++ rest) →
      ∃ st', Service.Consumes r env threadId { st with payload := st.payload ++ data } st' ∧ I st' rest) :
    ∀ (n : ℕ) (rest : List UInt8), rest.length = n → ∀ (st : Service) (cs : ℕ), cs = 32 ∨ rest = [] →
      I st rest →
    ∃ st', ReadsBody r env threadId toSize false ⟨rest ++ tail, cs, rest.length, st⟩ (some st') ∧
      I st' [] := by
  intro n
  induction n using Nat.strong_induction_on with
  | _ n ih =>
    intro rest hn st cs hcs hI
    have hread := readNewChunk_length toSize st cs (show min cs rest.length ≤ (rest ++ tail).length by simp)
    by_cases hne : rest = []
    · subst hne
      have hdone := @ReadsBody.done r env threadId toSize false _ _ hread (by simp)
      exact ⟨st, by simpa [Body.skipLine] using hdone, hI⟩
    · have hpos := List.length_pos_of_ne_nil hne
      obtain rfl : cs = 32 := hcs.resolve_right hne
      rw [← List.take_append_drop (min 32 rest.length) rest] at hI
      obtain ⟨st₁, hcons, hI₁⟩ := hstep _ _ st (List.ne_nil_of_length_pos (by simp; omega)) hI
      have hcs' : min 32 rest.length = 32 ∨ rest.drop (min 32 rest.length) = [] := by
        rcases Nat.le_total 32 rest.length with h | h
        · exact Or.inl (min_eq_left h)
        · exact Or.inr (by rw [min_eq_right h, List.drop_length])
      obtain ⟨st', hrest, hI'⟩ := ih (rest.length - min 32 rest.length) (by omega)
        (rest.drop (min 32 rest.length)) (by simp) st₁ (min 32 rest.length) hcs' hI₁
      refine ⟨st', ?_, hI'⟩
      rw [List.take_append_of_le_length (by omega), List.drop_append_of_le_length (by omega)] at hread
      rw [List.length_drop] at hrest
      exact .chunk hread (by simp; omega) rfl hcons hrest

/-- Between two pieces, with the frames that have been handed over. -/
def Delivered (frames : List Frame) (st : Service) (rest : List UInt8) : Prop :=
  ∃ fs₁ fs₂, frames = fs₁ ++ fs₂ ∧ st.calls = fs₁.map callOf ∧ Pending fs₂ st rest

variable {frames : List Frame}

theorem Delivered.start (hacc : ∀ f ∈ frames, Shaped f) (s : Store) :
    Delivered frames ⟨[], s, []⟩ (wire frames) := by
  refine ⟨[], frames, rfl, rfl, rfl, fun f hf => ?_⟩
  rw [length_encode (hacc f (List.mem_of_mem_head? hf))]
  simp

theorem Delivered.deliver (env : Env) (threadId : ℕ) (hM : 8 * r.maxArraySize < 2 ^ 32)
    (hgood : ∀ f ∈ frames, Accepts r f ∧ f.encode.length < 2 ^ 32) {data : List UInt8}
    (h : Delivered frames st (data ++ rest)) (hlen : st.payload.length + data.length < 2 ^ 32) :
    ∃ st', Service.Consumes r env threadId { st with payload := st.payload ++ data } st' ∧
      Delivered frames st' rest := by
  obtain ⟨fs₁, fs₂, rfl, hcalls, hpend⟩ := h
  obtain ⟨fs₃, fs₄, st', rfl, hcons, hcalls', hpend'⟩ :=
    hpend.deliver env threadId hM (fun f hf => hgood f (by simp [hf])) hlen
  refine ⟨st', hcons, fs₁ ++ fs₃, fs₄, by simp, ?_, hpend'⟩
  rw [hcalls', hcalls, List.map_append]

/-- The payload is at most a frame. -/
theorem Delivered.length_lt (h : Delivered frames st rest) (hne : rest ≠ []) :
    ∃ f ∈ frames, st.payload.length < f.encode.length := by
  obtain ⟨fs₁, fs₂, rfl, -, hpend⟩ := h
  obtain ⟨f, hf, hlt⟩ := hpend.length_lt hne
  exact ⟨f, by simp [hf], hlt⟩

/-- The payload and what is still to come are no more than the frames. -/
theorem Delivered.length_le (h : Delivered frames st rest) :
    st.payload.length + rest.length ≤ (wire frames).length := by
  obtain ⟨fs₁, fs₂, rfl, -, hpend⟩ := h
  have hb := congrArg List.length hpend.bytes
  simp only [wire, List.flatMap_append, List.length_append] at hb ⊢
  omega

theorem Delivered.finished (h : Delivered frames st []) : st.payload = [] ∧ st.calls = frames.map callOf := by
  obtain ⟨fs₁, fs₂, rfl, hcalls, hpend⟩ := h
  obtain ⟨rfl, hnil⟩ := hpend.finished
  exact ⟨hnil, by rw [hcalls, List.append_nil]⟩

theorem length_encode_le {f : Frame} (hf : f ∈ frames) : f.encode.length ≤ (wire frames).length :=
  (List.sublist_flatten_of_mem (List.mem_map_of_mem hf)).length_le

/-- The request `socket` is answered after exactly the calls for `frames`, in order, and nothing is left
of the payload. -/
def Decodes (r : DiodeReceiver) (env : Env) (threadId : ℕ) (toSize : List UInt8 → ℕ) (isChunked : Bool)
    (contentLength : ℕ) (socket : List UInt8) (s : Store) (frames : List Frame) : Prop :=
  ∃ st : Service, (∀ res, ClientService r env threadId toSize isChunked contentLength socket s res ↔
      res = some st) ∧ st.payload = [] ∧ st.calls = frames.map callOf

theorem decodes_of_readsBody {isChunked : Bool} {contentLength : ℕ} {socket : List UInt8} {s : Store}
    {frames : List Frame}
    (h : ∃ st, ClientService r env threadId toSize isChunked contentLength socket s (some st) ∧
      st.payload = [] ∧ st.calls = frames.map callOf) :
    Decodes r env threadId toSize isChunked contentLength socket s frames := by
  obtain ⟨st, hst, hnil, hcalls⟩ := h
  refine ⟨st, fun res => ⟨fun hres => hres.unique hst, ?_⟩, hnil, hcalls⟩
  rintro rfl
  exact hst

/-- A chunked request: the chunks, the empty chunk and the line behind it. -/
def chunked (chunks : List Chunk) (lastLine : List UInt8) : List UInt8 :=
  chunks.flatMap Chunk.encode ++ (lastLine ++ crlf ++ crlf)

/-- Frames that pass the checks, in chunks. -/
theorem decodes_chunks (env : Env) (threadId : ℕ) (s : Store) (tail : List UInt8)
    (hM : 8 * r.maxArraySize < 2 ^ 32)
    (hacc : ∀ f ∈ frames, Accepts r f) {chunks : List Chunk} {lastLine : List UInt8}
    (hdata : chunks.flatMap Chunk.data = wire frames)
    (hch : ∀ ch ∈ chunks, ch.data ≠ [] ∧ SizeLine toSize ch.line ch.data.length)
    (hlast : SizeLine toSize lastLine 0)
    (hfit : ∀ f ∈ frames, ∀ ch ∈ chunks, f.encode.length + ch.data.length ≤ 2 ^ 32) :
    Decodes r env threadId toSize true 0 (chunked chunks lastLine ++ tail) s frames := by
  have hinit := Delivered.start (fun f hf => (hacc f hf).shaped) s
  obtain ⟨st, hread, hI, -⟩ := readsBody_of_chunks r env threadId
    (I := fun st chs => Delivered frames st (chs.flatMap Chunk.data) ∧ ∀ ch ∈ chs, ch ∈ chunks) tail hlast
    (fun ch chs st hne ⟨hdel, hsub⟩ => by
      rw [List.flatMap_cons] at hdel
      have hmem := hsub ch (by simp)
      obtain ⟨f, hf, hlt⟩ := hdel.length_lt (by simp [hne])
      have hroom := hfit f hf ch hmem
      have hpos := List.length_pos_of_ne_nil hne
      obtain ⟨st', hcons, hdel'⟩ := hdel.deliver env threadId hM
        (fun g hg => ⟨hacc g hg, by have := hfit g hg ch hmem; omega⟩) (by omega)
      exact ⟨by omega, st', hcons, hdel', fun c hc => hsub c (by simp [hc])⟩)
    chunks ⟨[], s, []⟩ 0 ⟨hdata ▸ hinit, fun _ h => h⟩ hch
  refine decodes_of_readsBody ⟨st, ?_, hI.finished⟩
  simpa [ClientService, chunked] using hread

/-- **Decoding undoes encoding**: frames that pass the checks are handed over one by one, in order, from
any partition of their encodings into non-empty chunks, if a frame and a chunk together do not
exceed `2 ^ 32` bytes, and from a body with a content length. -/
theorem decode_encode (r : DiodeReceiver) (env : Env) (threadId : ℕ) (toSize : List UInt8 → ℕ) (s : Store)
    (frames : List Frame) (tail : List UInt8) (hM : 8 * r.maxArraySize < 2 ^ 32)
    (hacc : ∀ f ∈ frames, Accepts r f) :
    (∀ (chunks : List Chunk) (lastLine : List UInt8), chunks.flatMap Chunk.data = wire frames →
        (∀ ch ∈ chunks, ch.data ≠ [] ∧ SizeLine toSize ch.line ch.data.length) → SizeLine toSize lastLine 0 →
        (∀ f ∈ frames, ∀ ch ∈ chunks, f.encode.length + ch.data.length ≤ 2 ^ 32) →
        Decodes r env threadId toSize true 0 (chunked chunks lastLine ++ tail) s frames) ∧
      ((wire frames).length < 2 ^ 32 →
        Decodes r env threadId toSize false (wire frames).length (wire frames ++ tail) s frames) := by
  refine ⟨fun chunks lastLine hdata hch hlast hfit =>
    decodes_chunks env threadId s tail hM hacc hdata hch hlast hfit,
    fun hlen => ?_⟩
  have hinit := Delivered.start (fun f hf => (hacc f hf).shaped) s
  obtain ⟨st, hread, hI⟩ := readsBody_of_pieces r env threadId toSize tail
    (fun data rest st hne hdel => by
      have hle := hdel.length_le
      rw [List.length_append] at hle
      exact hdel.deliver env threadId hM
        (fun g hg => ⟨hacc g hg, lt_of_le_of_lt (length_encode_le hg) hlen⟩) (by omega))
    _ (wire frames) rfl ⟨[], s, []⟩ 32 (Or.inl rfl) hinit
  exact decodes_of_readsBody ⟨st, hread, hI.finished⟩

/-! ### Examples -/

/-- The number that hexadecimal digits stand for. -/
def hexSize (line : List UInt8) : ℕ :=
  line.foldl (fun n b => 16 * n + (if b ≤ 57 then b - 48 else if b ≤ 70 then b - 55 else b - 87).toNat) 0

/-- The value `01 02` for the PV `A`. -/
def smallFrame : Frame := ⟨[65], 0, 0, 2, 0, [1, 2], List.replicate 8 0⟩

theorem smallFrame_accepts : Accepts (onePv 4) smallFrame :=
  ⟨by decide, by decide, by decide, by decide, by decide, by decide, rfl, rfl⟩

/-- Thirty bytes in chunks of 10 and 20. -/
theorem decode_encode_small : Decodes (onePv 4) plainEnv 0 hexSize true 0
    (chunked [⟨[65], smallFrame.encode.take 10⟩, ⟨[49, 52], smallFrame.encode.drop 10⟩] [48] ++ [])
    Store.start [smallFrame] := by
  refine (decode_encode (onePv 4) plainEnv 0 hexSize Store.start [smallFrame] [] (by decide) ?_).1 _ _
    (by decide) ?_ ⟨by decide, by decide, by decide, by decide⟩ (by decide)
  · simpa using smallFrame_accepts
  · rintro ch hch
    simp only [List.mem_cons, List.not_mem_nil, or_false] at hch
    rcases hch with rfl | rfl
    · exact ⟨by decide, ⟨by decide, by decide, by decide, by decide⟩⟩
    · exact ⟨by decide, ⟨by decide, by decide, by decide, by decide⟩⟩

/-! ### Where the counters wrap -/

theorem Service.Stores.calls_le {st' : Service} (h : Service.Stores r env threadId st st') :
    st.calls <+: st'.calls := by
  obtain ⟨p, h, -, -, rfl⟩ := h
  exact List.prefix_append _ _

/-- The calls after a first store are calls of the whole loop. -/
theorem Service.Stores.calls_le_consumes {a st' : Service} (h : Service.Stores r env threadId st a)
    (hc : Service.Consumes r env threadId st st') : a.calls <+: st'.calls := by
  have hleave : ∀ {x y : Service}, Service.Leaves r env x y → x.calls = y.calls := fun hl => by
    cases hl <;> rfl
  obtain ⟨t, ht, hl⟩ := hc
  cases Relation.ReflTransGen.cases_head ht with
  | inl heq => subst heq; exact (h.not_leaves hl).elim
  | inr hstep =>
    obtain ⟨b, hb, hbt⟩ := hstep
    cases h.unique hb
    rw [← hleave hl]
    exact Reachable.invariant (I := fun x => a.calls <+: x.calls) hbt (List.prefix_refl _)
      fun _ _ hi hs => hi.trans hs.calls_le

theorem Service.Consumes.calls_le {st' : Service} (h : Service.Consumes r env threadId st st') :
    st.calls <+: st'.calls := by
  obtain ⟨t, ht, hl⟩ := h
  have hmono : st.calls <+: t.calls :=
    Reachable.invariant (I := fun x => st.calls <+: x.calls) ht (List.prefix_refl _)
      fun _ _ hi hs => hi.trans hs.calls_le
  cases hl <;> exact hmono

theorem readNewChunk_calls {isChunked : Bool} {b b' : Body} (h : b.readNewChunk toSize isChunked = some b') :
    b'.service.calls = b.service.calls := by
  cases isChunked with
  | false =>
    simp only [Body.readNewChunk, Bool.false_eq_true, if_false, Option.bind_eq_bind, Option.bind_some,
      Option.pure_def, Option.bind_eq_some_iff, Option.some.injEq] at h
    obtain ⟨_, -, rfl⟩ := h
    rfl
  | true =>
    simp only [Body.readNewChunk, if_true, Option.bind_eq_bind, Option.pure_def] at h
    split_ifs at h
    · simp only [Option.bind_eq_some_iff, Option.some.injEq] at h
      obtain ⟨_, -, _, -, _, -, rfl⟩ := h
      rfl
    · simp only [Option.bind_some, Option.bind_eq_some_iff, Option.some.injEq] at h
      obtain ⟨_, -, rfl⟩ := h
      rfl

theorem skipLine_service {isChunked : Bool} {b b' : Body} (h : b.skipLine isChunked = some b') :
    b'.service = b.service := by
  unfold Body.skipLine at h
  split_ifs at h
  · obtain ⟨_, -, rfl⟩ := Option.map_eq_some_iff.mp h
    rfl
  · cases h
    rfl

theorem ReadsBody.calls_le {isChunked : Bool} {b : Body} {res : Option Service}
    (h : ReadsBody r env threadId toSize isChunked b res) : ∀ st', res = some st' →
    b.service.calls <+: st'.calls := by
  induction h with
  | readError => rintro _ ⟨⟩
  | lineError => rintro _ ⟨⟩
  | done hn _ =>
    intro st' hst
    obtain ⟨b'', hb'', rfl⟩ := Option.map_eq_some_iff.mp hst
    have hcalls : b''.service.calls = _ :=
      (congrArg Service.calls (skipLine_service hb'')).trans (readNewChunk_calls hn)
    exact hcalls ▸ List.prefix_rfl
  | chunk hn _ hs hc _ ih =>
    intro st' hst
    refine List.IsPrefix.trans ?_ (ih st' hst)
    rw [← readNewChunk_calls hn, ← skipLine_service hs]
    exact hc.calls_le

/-- A value of `n` bytes `01` for the PV `A`. -/
def wideFrame (n : ℕ) : Frame := ⟨[65], 0, 0, n, 0, List.replicate n 1, List.replicate 8 0⟩

theorem wideFrame_accepts {n m : ℕ} (h : n < 8 * m) : Accepts (onePv m) (wideFrame n) :=
  ⟨by simp [wideFrame, pvNameMaxSize], by simp [wideFrame, quote], by simp [wideFrame],
    by simp [wideFrame, onePv], h, by simp [wideFrame], List.length_replicate, rfl⟩

theorem sizeLine_first : SizeLine hexSize [49, 51] 19 := ⟨by decide, by decide, by decide, by decide⟩

theorem sizeLine_half : SizeLine hexSize [56, 48, 48, 48, 48, 48, 48, 48] (2 ^ 31) :=
  ⟨by decide, by decide, by decide, by decide⟩

/-- The frame in chunks of 19 and twice `2 ^ 31` bytes, for `n = 2 ^ 32 - 9`. -/
def wideChunks (n : ℕ) : List Chunk :=
  [⟨[49, 51], (wideFrame n).encode.take 19⟩,
    ⟨[56, 48, 48, 48, 48, 48, 48, 48], ((wideFrame n).encode.drop 19).take (2 ^ 31)⟩,
    ⟨[56, 48, 48, 48, 48, 48, 48, 48], ((wideFrame n).encode.drop 19).drop (2 ^ 31)⟩]

theorem wideChunks_data (n : ℕ) : (wideChunks n).flatMap Chunk.data = wire [wideFrame n] := by
  simp only [wideChunks, List.flatMap_cons, List.flatMap_nil, List.append_nil, wire]
  rw [List.take_append_drop, List.take_append_drop]

section

variable {n : ℕ} (hn : n + 9 = 2 ^ 32)

include hn

theorem wideFrame_accepted : Accepts (onePv (2 ^ 29 - 1)) (wideFrame n) := wideFrame_accepts (by omega)

theorem length_wideFrame : (wideFrame n).encode.length = 2 ^ 32 + 19 := by
  rw [length_encode (wideFrame_accepted hn).shaped]
  simp only [wideFrame, List.length_singleton]
  omega

theorem wideChunks_sizes : ∀ ch ∈ wideChunks n, ch.data ≠ [] ∧ SizeLine hexSize ch.line ch.data.length := by
  have hlen := length_wideFrame hn
  rintro ch hch
  simp only [wideChunks, List.mem_cons, List.not_mem_nil, or_false] at hch
  generalize (wideFrame n).encode = w at hlen hch
  have h₁ : (w.take 19).length = 19 := by rw [List.length_take]; omega
  have h₂ : ((w.drop 19).take (2 ^ 31)).length = 2 ^ 31 := by rw [List.length_take, List.length_drop]; omega
  have h₃ : ((w.drop 19).drop (2 ^ 31)).length = 2 ^ 31 := by rw [List.length_drop, List.length_drop]; omega
  rcases hch with rfl | rfl | rfl
  · exact ⟨List.ne_nil_of_length_pos (by rw [h₁]; omega), by rw [h₁]; exact sizeLine_first⟩
  · exact ⟨List.ne_nil_of_length_pos (by rw [h₂]; omega), by rw [h₂]; exact sizeLine_half⟩
  · exact ⟨List.ne_nil_of_length_pos (by rw [h₃]; omega), by rw [h₃]; exact sizeLine_half⟩

/-- `processedSize` wraps to 19: the frame is stored from the first chunk, without its value. -/
theorem wideChunks_calls {st : Service}
    (hst : ClientService (onePv (2 ^ 29 - 1)) plainEnv 0 hexSize true 0
      (chunked (wideChunks n) [48] ++ []) Store.start
      (some st)) : st.calls ≠ [callOf (wideFrame n)] := by
  intro hcalls
  have hacc := wideFrame_accepted hn
  have hlen := length_wideFrame hn
  unfold wideChunks at hst
  generalize hw : (wideFrame n).encode = w at hlen hst
  have h₁ : (w.take 19).length = 19 := by rw [List.length_take]; omega
  let rest : List UInt8 := Chunk.encode ⟨[56, 48, 48, 48, 48, 48, 48, 48], (w.drop 19).take (2 ^ 31)⟩ ++
    (Chunk.encode ⟨[56, 48, 48, 48, 48, 48, 48, 48], (w.drop 19).drop (2 ^ 31)⟩ ++ ([48] ++ crlf ++ crlf))
  have hsock : chunked [⟨[49, 51], w.take 19⟩, ⟨[56, 48, 48, 48, 48, 48, 48, 48], (w.drop 19).take (2 ^ 31)⟩,
      ⟨[56, 48, 48, 48, 48, 48, 48, 48], (w.drop 19).drop (2 ^ 31)⟩] [48] ++ [] =
      [49, 51] ++ crlf ++ w.take 19 ++ (crlf ++ rest) := by
    simp only [rest, chunked, Chunk.encode, List.flatMap_cons, List.flatMap_nil, List.append_assoc,
      List.append_nil]
  rw [hsock, ClientService] at hst
  have hread := readNewChunk_chunked ⟨[], Store.start, []⟩ 0 (crlf ++ rest)
    (show SizeLine hexSize [49, 51] (w.take 19).length by rw [h₁]; exact sizeLine_first) (by omega)
  simp only [if_true] at hst
  generalize hres : some st = res at hst
  cases hst with
  | readError hn | lineError hn _ _ => cases hres
  | done hn hz =>
    rw [hread] at hn
    cases hn
    rw [h₁] at hz
    cases hz
  | chunk hn _ hs hc hnext =>
    rw [hread] at hn
    cases hn
    rw [skipLine_service hs, List.nil_append] at hc
    have hwrap : u32 (wideFrame n).encode.length = 19 := by
      rw [hw, hlen]
      decide
    have hpart : (Service.mk (w.take 19) Store.start []).payload <+: (wideFrame n).encode ++ [] := by
      rw [hw, List.append_nil]
      exact List.take_prefix _ _
    obtain ⟨s, hstore⟩ :=
      stores_header plainEnv 0 (hacc.size_lt_u32 (by simp [onePv])) hacc hpart (by simp only; omega)
      (by simp only [wideFrame, List.length_singleton]; omega) (by rw [hwrap]; simp only; omega)
    have hle := (hstore.calls_le_consumes hc).trans (hnext.calls_le st hres.symm)
    rw [hcalls] at hle
    have hcall := (List.cons_prefix_cons.mp hle).1
    have hbyte := congrArg (fun c => c.value[1]?) hcall
    simp only [callOf, wideFrame, readAt, List.getElem?_map, List.getElem?_range (show 1 < n by omega),
      List.getElem?_replicate_of_lt (show 1 < n by omega), Option.map_some, Option.some.injEq] at hbyte
    rw [bufferAt, if_neg (by rw [h₁]; decide)] at hbyte
    exact absurd hbyte (show ¬ (0 : UInt8) = 1 by decide)

end

theorem exists_wide : ∃ n, n + 9 = 2 ^ 32 := ⟨2 ^ 32 - 9, by decide⟩

/-- A frame of `2 ^ 32 + 19` bytes in chunks of 19 and twice `2 ^ 31`: `processedSize` wraps to 19, and
the frame is stored from the first chunk. -/
theorem processedSize_wraps :
    ¬ ∀ (r : DiodeReceiver) (env : Env) (threadId : ℕ) (toSize : List UInt8 → ℕ) (s : Store)
      (frames : List Frame) (tail : List UInt8), 8 * r.maxArraySize < 2 ^ 32 → (∀ f ∈ frames, Accepts r f) →
      ∀ (chunks : List Chunk) (lastLine : List UInt8), chunks.flatMap Chunk.data = wire frames →
        (∀ ch ∈ chunks, ch.data ≠ [] ∧ SizeLine toSize ch.line ch.data.length) → SizeLine toSize lastLine 0 →
        Decodes r env threadId toSize true 0 (chunked chunks lastLine ++ tail) s frames := by
  intro hall
  obtain ⟨n, hn⟩ := exists_wide
  obtain ⟨st, hst, -, hcalls⟩ := hall (onePv (2 ^ 29 - 1)) plainEnv 0 hexSize Store.start [wideFrame n] []
    (by simp [onePv]) (by simpa using wideFrame_accepted hn) (wideChunks n) [48] (wideChunks_data n)
    (wideChunks_sizes hn) ⟨by decide, by decide, by decide, by decide⟩
  exact wideChunks_calls hn ((hst _).mpr rfl) hcalls

end Hieratika.Receiver

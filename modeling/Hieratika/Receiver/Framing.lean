import Hieratika.Receiver.Parser

/-!
# The parser on a part of a frame

The payload of a synchronised connection is a prefix of `f.encode ++ t`, where `f` is the next
frame. With `n` the length of the name, `ReadVarNameAndIndex` asks for more as long as fewer than
`n + 16` bytes are there (`readVarNameAndIndex_short`), and from then on returns the header of
`f` (`readVarNameAndIndex_header`). The 16 is one less than the header is long, as `processedSize`
does not count the opening quote; the last byte of the offset may still be missing then, but so
are the value and the terminator, and the frame is not stored.
-/

namespace Hieratika.Receiver

open Foundations Diode

variable {r : DiodeReceiver} {env : Env} {f : Frame} {p t w : List UInt8}

/-- A frame as `SendVariables` writes one: a C string without quotes as its name, the announced number
of value bytes, and eight bytes of time stamp. -/
structure Shaped (f : Frame) : Prop where
  name_quote : quote ∉ f.name
  name_nul : 0 ∉ f.name
  value_length : f.value.length = f.size
  timeStamp_length : f.timeStamp.length = 8

/-- A frame that passes the checks of `ReadVarNameAndIndex`, with fields of the right lengths. -/
structure Accepts (r : DiodeReceiver) (f : Frame) : Prop where
  name_le : f.name.length ≤ pvNameMaxSize
  name_quote : quote ∉ f.name
  /-- The name is a C string. -/
  name_nul : 0 ∉ f.name
  index_lt : f.index < r.numberOfVariables
  size_lt : f.size < 8 * r.maxArraySize
  offset_lt : f.offset < 2 ^ 32
  value_length : f.value.length = f.size
  timeStamp_length : f.timeStamp.length = 8

theorem Accepts.shaped (h : Accepts r f) : Shaped f :=
  ⟨h.name_quote, h.name_nul, h.value_length, h.timeStamp_length⟩

/-- The bound on the size as it is computed. -/
theorem Accepts.size_lt_u32 (h : Accepts r f) (hM : 8 * r.maxArraySize < 2 ^ 32) :
    f.size < u32 (8 * r.maxArraySize) := by
  rw [u32_of_lt hM]
  exact h.size_lt

theorem length_encode (h : Shaped f) : f.encode.length = f.name.length + f.size + 27 := by
  simp [Frame.encode, namePattern, terminator, h.value_length, h.timeStamp_length]
  omega

/-! ### Reading a prefix -/

theorem getD_of_part (hp : p <+: w) {i : ℕ} (hi : i < p.length) : p.getD i 0 = w.getD i 0 := by
  obtain ⟨s, rfl⟩ := hp
  rw [List.getD_append _ _ _ _ hi]

theorem drop_take_of_part (hp : p <+: w) {i k : ℕ} (hi : i + k ≤ p.length) :
    (p.drop i).take k = (w.drop i).take k := by
  obtain ⟨s, rfl⟩ := hp
  rw [List.drop_append_of_le_length (by omega), List.take_append_of_le_length (by simp; omega)]

theorem readAt_bufferAt {pos i k : ℕ} (h : pos + i + k ≤ p.length) :
    readAt (bufferAt env p pos) i k = (p.drop (pos + i)).take k := by
  refine List.ext_getElem (by simp; omega) fun j hj hj' => ?_
  simp only [length_readAt] at hj
  simp only [readAt, List.getElem_map, List.getElem_range, List.getElem_take, List.getElem_drop, bufferAt]
  rw [if_pos (by omega), List.getD_eq_getElem _ _ (by omega)]
  congr 1
  omega

/-- Where a part of the frame is. -/
theorem drop_take_append {a b c : List UInt8} {i k : ℕ} (ha : a.length = i) (hb : b.length = k) :
    ((a ++ (b ++ c)).drop i).take k = b := by
  rw [List.drop_left' ha, List.take_left' hb]

/-- A part of the frame, as it is read from a prefix that has it. -/
theorem readAt_part {a b c : List UInt8} {pos i k : ℕ} (hw : w = a ++ (b ++ c)) (hp : p <+: w)
    (ha : a.length = pos + i) (hb : b.length = k) (h : pos + i + k ≤ p.length) :
    readAt (bufferAt env p pos) i k = b := by
  rw [readAt_bufferAt h, drop_take_of_part hp h, hw, drop_take_append ha hb]

theorem shift_eq_drop {i : ℕ} (h : p.length < 2 ^ 32) : shift p i = p.drop i := by
  unfold shift
  rw [u32_of_lt (by omega), List.take_of_length_le (by simp)]

/-! ### The two loops -/

/-- The pattern loop passes over bytes that are no quotes. -/
theorem patternTurn_skip {e : List UInt8 × Option ℕ} (hlen : p.length < 2 ^ 32) {i : ℕ} : ∀ k : ℕ,
    (∀ j, i ≤ j → j < i + k → j < p.length ∧ p.getD j 0 ≠ quote) →
    Ends patternTurn (p, i + k) e → Ends patternTurn (p, i) e := by
  intro k
  induction k with
  | zero => exact fun _ he => he
  | succ k ih =>
    intro hskip he
    obtain ⟨hlt, hne⟩ := hskip (i + k) (by omega) (by omega)
    refine ih (fun j hj hj' => hskip j hj (by omega)) (.again ?_ he)
    simp only [patternTurn]
    rw [if_pos hlt, if_neg hne, u32_of_lt (by omega), Nat.add_assoc]

theorem head_of_part (hp : p <+: f.encode ++ t) (hne : p ≠ []) : p.head? = some quote := by
  obtain ⟨s, hs⟩ := hp
  cases p with
  | nil => exact absurd rfl hne
  | cons b p =>
    have hb := (List.cons.inj hs).1
    rw [hb]
    rfl

/-- The bytes of the name. -/
theorem name_ne_quote (h : Shaped f) (hp : p <+: f.encode ++ t) {j : ℕ} (h₁ : 1 ≤ j)
    (h₂ : j < f.name.length + 1) (hlt : j < p.length) : p.getD j 0 ≠ quote := by
  obtain ⟨k, rfl⟩ : ∃ k, j = k + 1 := ⟨j - 1, by omega⟩
  have hk : k < f.name.length := by omega
  rw [getD_of_part hp hlt]
  simp only [Frame.encode, List.cons_append, List.getD_cons_succ, List.append_assoc]
  rw [List.getD_append _ _ _ _ hk, List.getD_eq_getElem _ _ hk]
  exact fun he => h.name_quote (he ▸ List.getElem_mem hk)

/-- The bytes behind the name. -/
theorem pattern_at (hp : p <+: f.encode ++ t) (hlt : f.name.length + 4 ≤ p.length) :
    (p.drop (f.name.length + 1)).take 3 = namePattern := by
  rw [drop_take_of_part hp (by omega)]
  have hw : f.encode ++ t = (quote :: f.name) ++ (namePattern ++ (le32 f.index ++ ([f.typeId] ++
      (le32 f.size ++ (le32 f.offset ++ (f.value ++ (f.timeStamp ++ (terminator ++ t)))))))) := by
    simp [Frame.encode]
  rw [hw]
  exact drop_take_append (by simp) rfl

theorem quote_at (hp : p <+: f.encode ++ t) (hlt : f.name.length + 1 < p.length) :
    p.getD (f.name.length + 1) 0 = quote := by
  rw [getD_of_part hp hlt]
  simp only [Frame.encode, List.cons_append, List.getD_cons_succ, List.append_assoc]
  rw [List.getD_append_right _ _ _ _ le_rfl, Nat.sub_self]
  rfl

/-- The loop passes over the name. -/
theorem patternTurn_name (h : Shaped f) (hp : p <+: f.encode ++ t) (hlen : p.length < 2 ^ 32)
    (hlt : f.name.length + 1 ≤ p.length) {e : List UInt8 × Option ℕ}
    (he : Ends patternTurn (p, f.name.length + 1) e) :
    Ends patternTurn (p, 1) e := by
  refine patternTurn_skip hlen f.name.length (fun j hj hj' =>
    ⟨by omega, name_ne_quote h hp hj (by omega) (by omega)⟩) ?_
  rwa [Nat.add_comm 1]

/-- Until the pattern is complete the loop asks for more. -/
theorem patternTurn_short (h : Shaped f) (hp : p <+: f.encode ++ t) (hlen : p.length < 2 ^ 32)
    (hshort : p.length < f.name.length + 4) : Ends patternTurn (p, 1) (p, none) := by
  rcases Nat.lt_or_ge (f.name.length + 1) p.length with hlt | hge
  · refine patternTurn_name h hp hlen hlt.le (.leave ?_)
    simp only [patternTurn]
    rw [if_pos hlt, if_pos (quote_at hp hlt), if_neg (by rw [u32_of_lt (by omega)]; omega)]
  · refine patternTurn_skip hlen (p.length - 1) (fun j hj hj' =>
      ⟨by omega, name_ne_quote h hp hj (by omega) (by omega)⟩) (.leave ?_)
    simp only [patternTurn]
    rw [if_neg (by omega)]

theorem patternTurn_found (h : Shaped f) (hp : p <+: f.encode ++ t) (hlen : p.length < 2 ^ 32)
    (hlong : f.name.length + 4 ≤ p.length) : Ends patternTurn (p, 1) (p, some (f.name.length + 1)) := by
  refine patternTurn_name h hp hlen (by omega) (.leave ?_)
  simp only [patternTurn]
  rw [if_pos (by omega), if_pos (quote_at hp (by omega)), if_pos (by rw [u32_of_lt (by omega)]; omega),
    if_pos (pattern_at hp hlong)]

/-! ### The header -/

/-- What is before the header of a frame. -/
def opening (f : Frame) : List UInt8 := quote :: f.name ++ namePattern

/-- The header, from the index to the offset. -/
def header (f : Frame) : List UInt8 := le32 f.index ++ [f.typeId] ++ le32 f.size ++ le32 f.offset

theorem length_opening (f : Frame) : (opening f).length = f.name.length + 4 := by
  simp [opening, namePattern]

/-- A part of the header, with what is before and behind it. -/
theorem encode_header (f : Frame) (t : List UInt8) :
    f.encode ++ t = opening f ++ (header f ++ (f.value ++ (f.timeStamp ++ (terminator ++ t)))) := by
  simp [Frame.encode, opening, header]

/-- The name as the receiver searches it: up to its first '.'. -/
def searchName (name : List UInt8) : List UInt8 := name.takeWhile (· ≠ 46)

/-- What `ReadVarNameAndIndex` returns for the frame, from a payload `p` that may lack the last byte
of the offset. -/
def headerOf (env : Env) (p : List UInt8) (f : Frame) : Header where
  varName := searchName f.name
  receivedIndex := f.index
  receivedTypeId := f.typeId
  receivedSize := f.size
  receivedOffset := ofLe (readAt (bufferAt env p (f.name.length + 4)) 9 4)
  processedSize := f.name.length + 3
  dataPtr := f.name.length + 13

theorem readHeader_short (hname : f.name.length ≤ pvNameMaxSize) (hshort : p.length < f.name.length + 16) :
    r.readHeader env p (f.name.length + 1) = (p, none) := by
  have hname' := hname
  unfold pvNameMaxSize at hname'
  unfold DiodeReceiver.readHeader
  rw [sub32_succ (by omega), if_pos hname, if_neg (by omega)]

/-- With the header there, the checks decide: a rejected frame empties the payload. -/
theorem readHeader_eq (h : Shaped f) (hname : f.name.length ≤ pvNameMaxSize) (hindex : f.index < 2 ^ 32)
    (hsize : f.size < 2 ^ 32) (hp : p <+: f.encode ++ t) (hlong : f.name.length + 16 ≤ p.length) :
    r.readHeader env p (f.name.length + 1) =
      if r.numberOfVariables ≤ f.index ∨ u32 (8 * r.maxArraySize) ≤ f.size then ([], none)
      else (p, some (headerOf env p f)) := by
  have hname' := hname
  unfold pvNameMaxSize at hname'
  have hopen := length_opening f
  have hw := encode_header f t
  have hhead : readAt (bufferAt env p (f.name.length + 1 + 3)) 0 9 = (header f).take 9 := by
    refine readAt_part (c := (header f).drop 9 ++ (f.value ++ (f.timeStamp ++ (terminator ++ t)))) ?_ hp
      hopen rfl (by omega)
    rw [hw, ← List.append_assoc ((header f).take 9), List.take_append_drop]
  have hidx : readAt (bufferAt env p (f.name.length + 1 + 3)) 0 4 = le32 f.index := by
    have := congrArg (List.take 4) hhead
    simpa [readAt, List.range_succ, header, le32] using this
  have htid : bufferAt env p (f.name.length + 1 + 3) 4 = f.typeId := by
    have := congrArg (·[4]?) hhead
    simpa [readAt, List.range_succ, header, le32] using this
  have hsz : readAt (bufferAt env p (f.name.length + 1 + 3)) 5 4 = le32 f.size := by
    have := congrArg (List.drop 5) hhead
    simpa [readAt, List.range_succ, header, le32] using this
  have hnm : (p.drop 1).take f.name.length = f.name := by
    rw [drop_take_of_part hp (by omega), show f.encode ++ t = [quote] ++ (f.name ++ (namePattern ++
      (header f ++ (f.value ++ (f.timeStamp ++ (terminator ++ t)))))) by rw [hw]; simp [opening]]
    exact drop_take_append rfl rfl
  have hnul : f.name.takeWhile (· ≠ 0) = f.name := by
    refine List.takeWhile_eq_self_iff.mpr fun b hb => ?_
    simpa using fun h0 : b = 0 => h.name_nul (h0 ▸ hb)
  unfold DiodeReceiver.readHeader
  rw [sub32_succ (by omega), if_pos hname, if_pos (by omega)]
  dsimp only
  rw [hidx, htid, hsz, ofLe_le32 hindex,
    ofLe_le32 hsize, hnm, hnul]
  rfl

/-- With the whole header there, the offset is the frame's. -/
theorem headerOf_offset (h : Accepts r f) (hp : p <+: f.encode ++ t) (hlong : f.name.length + 17 ≤ p.length) :
    (headerOf env p f).receivedOffset = f.offset := by
  have hoff : readAt (bufferAt env p (f.name.length + 4)) 9 4 = le32 f.offset := by
    refine readAt_part (a := opening f ++ (le32 f.index ++ [f.typeId] ++ le32 f.size))
      (c := f.value ++ (f.timeStamp ++ (terminator ++ t))) ?_ hp (by simp [length_opening]) rfl (by omega)
    rw [encode_header]
    simp [header]
  show ofLe (readAt (bufferAt env p (f.name.length + 4)) 9 4) = _
  rw [hoff, ofLe_le32 h.offset_lt]

/-! ### The function -/

theorem resynced_of_part (hp : p <+: f.encode ++ t) (hne : p ≠ []) : Resynced p (p, true) := by
  rw [Resynced, if_neg hne, if_pos (head_of_part hp hne)]

theorem readVarNameAndIndex_noPattern (h : Shaped f) (hp : p <+: f.encode ++ t) (hlen : p.length < 2 ^ 32)
    (hshort : p.length < f.name.length + 4) : ReadVarNameAndIndex r env p (p, none) := by
  by_cases hne : p = []
  · subst hne
    exact ⟨[], false, by simp [Resynced], rfl⟩
  · exact ⟨p, true, resynced_of_part hp hne, p, none, patternTurn_short h hp hlen hshort, rfl⟩

theorem readVarNameAndIndex_short (h : Shaped f) (hname : f.name.length ≤ pvNameMaxSize)
    (hp : p <+: f.encode ++ t)
    (hlen : p.length < 2 ^ 32) (hshort : p.length < f.name.length + 16) :
    ReadVarNameAndIndex r env p (p, none) := by
  rcases Nat.lt_or_ge p.length (f.name.length + 4) with hlt | hge
  · exact readVarNameAndIndex_noPattern h hp hlen hlt
  · have hne : p ≠ [] := by
      rintro rfl
      simp at hge
    exact ⟨p, true, resynced_of_part hp hne, p, _, patternTurn_found h hp hlen hge,
      (readHeader_short hname hshort).symm⟩

/-- With the header there, the function is its checks. -/
theorem readVarNameAndIndex_checked (h : Shaped f) (hname : f.name.length ≤ pvNameMaxSize)
    (hindex : f.index < 2 ^ 32)
    (hsize : f.size < 2 ^ 32) (hp : p <+: f.encode ++ t) (hlen : p.length < 2 ^ 32)
    (hlong : f.name.length + 16 ≤ p.length) :
    ReadVarNameAndIndex r env p (if r.numberOfVariables ≤ f.index ∨ u32 (8 * r.maxArraySize) ≤
      f.size then ([], none)
      else (p, some (headerOf env p f))) := by
  have hne : p ≠ [] := List.ne_nil_of_length_pos (by omega)
  exact ⟨p, true, resynced_of_part hp hne, p, _, patternTurn_found h hp hlen (by omega),
    (readHeader_eq h hname hindex hsize hp hlong).symm⟩

theorem readVarNameAndIndex_header (hsize : f.size < u32 (8 * r.maxArraySize)) (h : Accepts r f)
    (hp : p <+: f.encode ++ t) (hlen : p.length < 2 ^ 32) (hlong : f.name.length + 16 ≤ p.length) :
    ReadVarNameAndIndex r env p (p, some (headerOf env p f)) := by
  have hN := r.vars_lt
  have hindex := h.index_lt
  have hlt := u32_lt (8 * r.maxArraySize)
  have hread : ReadVarNameAndIndex r env p _ :=
    readVarNameAndIndex_checked h.shaped h.name_le (by omega) (by omega) hp hlen hlong
  rwa [if_neg (by omega)] at hread

/-! ### One turn of the consuming loop -/

variable {threadId : ℕ} {st : Service}

/-- The call that a frame should cause. -/
def callOf (f : Frame) : Call :=
  ⟨searchName f.name, f.index, f.typeId, f.size, f.offset, f.value, f.timeStamp⟩

variable (env)

/-- The length that the receiver computes for a frame, in 32 bits. -/
theorem getLocalIndex_processedSize (p : List UInt8) (h : Accepts r f) (s : Store) :
    (r.getLocalIndex env s (headerOf env p f)).processedSize = u32 f.encode.length := by
  rw [length_encode h.shaped]
  show u32 (f.name.length + 3 + (12 + f.size + 8 + 4)) = _
  congr 1
  omega

/-- As long as the frame is incomplete, the loop leaves and the payload stays as it is. -/
theorem leaves_incomplete (hsize : f.size < u32 (8 * r.maxArraySize)) (h : Accepts r f)
    (hf : f.encode.length < 2 ^ 32)
    (hp : st.payload <+: f.encode ++ t) (hlen : st.payload.length < f.encode.length) :
    ∃ s, Service.Leaves r env st { st with store := s } := by
  rcases Nat.lt_or_ge st.payload.length (f.name.length + 16) with hlt | hge
  · exact ⟨st.store, .noHeader (readVarNameAndIndex_short h.shaped h.name_le hp (by omega) hlt)⟩
  · refine ⟨_, .incomplete (readVarNameAndIndex_header hsize h hp (by omega) hge) ?_⟩
    rw [getLocalIndex_processedSize env st.payload h, u32_of_lt hf]
    exact hlen

/-- What is found behind the header of a complete frame: its value and its time stamp. -/
theorem readAt_behind (h : Shaped f) (hp : p <+: f.encode ++ t) (hlen : f.encode.length ≤ p.length) :
    readAt (bufferAt env p (f.name.length + 17)) 0 f.size = f.value ∧
      readAt (bufferAt env p (f.name.length + 17)) f.size 8 = f.timeStamp := by
  have hl := length_encode h
  constructor
  · refine readAt_part (a := opening f ++ header f) (c := f.timeStamp ++ (terminator ++ t)) ?_ hp
      (by simp [length_opening, header]) h.value_length (by omega)
    rw [encode_header]
    simp
  · refine readAt_part (a := opening f ++ header f ++ f.value) (c := terminator ++ t) ?_ hp
      (by simp [length_opening, header, h.value_length]; omega) h.timeStamp_length (by omega)
    rw [encode_header]
    simp

variable (threadId)

/-- Once the header is there and the computed length is not larger than the payload, the frame is
stored: one call with its header and the bytes found behind it. -/
theorem stores_header (hsize : f.size < u32 (8 * r.maxArraySize)) (h : Accepts r f)
    (hp : st.payload <+: f.encode ++ t)
    (hlen : st.payload.length < 2 ^ 32) (hlong : f.name.length + 17 ≤ st.payload.length)
    (hcomp : u32 f.encode.length ≤ st.payload.length) :
    ∃ s, Service.Stores r env threadId st ⟨st.payload.drop (u32 f.encode.length), s, st.calls ++
      [⟨searchName f.name, f.index, f.typeId, f.size, f.offset,
        readAt (bufferAt env st.payload (f.name.length + 17)) 0 f.size,
        readAt (bufferAt env st.payload (f.name.length + 17)) f.size 8⟩]⟩ := by
  have hproc := fun s => getLocalIndex_processedSize env st.payload h s
  let hd := headerOf env st.payload f
  refine ⟨r.readVarValue env threadId (r.remember env st.store hd)
    (bufferAt env st.payload (hd.dataPtr + 4)) hd
    (r.getLocalIndex env st.store hd), st.payload, hd,
      readVarNameAndIndex_header hsize h hp hlen (by omega), ?_, ?_⟩
  · rw [hproc]
    exact hcomp
  · unfold Service.readVarValueAndSkip
    dsimp only
    rw [hproc, min_eq_left hcomp, shift_eq_drop hlen, headerOf_offset h hp hlong]
    simp only [hd, headerOf]

/-- A complete frame is stored: one call with its fields, and the payload goes on behind it. -/
theorem stores_complete (hsize : f.size < u32 (8 * r.maxArraySize)) (h : Accepts r f)
    (hf : f.encode.length < 2 ^ 32)
    (hp : st.payload <+: f.encode ++ t) (hlen : st.payload.length < 2 ^ 32)
    (hcomp : f.encode.length ≤ st.payload.length) :
    ∃ s, Service.Stores r env threadId st ⟨st.payload.drop f.encode.length, s, st.calls ++ [callOf f]⟩ := by
  have hl := length_encode h.shaped
  obtain ⟨hval, hts⟩ := readAt_behind env h.shaped hp hcomp
  have hstore := stores_header env threadId hsize h hp hlen (by omega) (by rwa [u32_of_lt hf])
  rwa [u32_of_lt hf, hval, hts] at hstore

end Hieratika.Receiver

import Hieratika.Receiver.Bounds
import Hieratika.Receiver.Terminates

/-!
# What the parser reads of the payload

Every read of `ReadVarNameAndIndex` and `ReadVarValueAndSkip` from the buffer of the payload, with the
size that the payload has at that moment: the bytes looked at by the two scans and what these move to
the front, the name, the header, what is stored of the value, and what is kept behind the frame.
`GetLocalIndex` reads nothing of it.

## What is proved

All of this lies inside the payload except for three kinds of it (`reads_inside_iff`). The last byte of
the offset is missing if the payload ends right before it, as `processedSize` does not count the opening
quote. A conversion from a string reads 40 bytes, whatever size the frame announces. And the length of a
frame can wrap. Where the header is not cut, what lies behind the payload is of no influence
(`readVarNameAndIndex_beyond`).
-/

namespace Hieratika.Receiver

open Foundations Diode

variable {r : DiodeReceiver} {env : Env} {s : Store} {payload p q : List UInt8} {i : ℕ} {h : Header}
  {l : Local}

/-- A read of `length` bytes from `pos` on, of a payload of `size` bytes. -/
structure Read where
  size : ℕ
  pos : ℕ
  length : ℕ

/-- Every byte of it is one of the payload. -/
def Read.Inside (x : Read) : Prop := ∀ k < x.length, x.pos + k < x.size

theorem inside_of_le {size pos length : ℕ} (hle : pos + length ≤ size) :
    (Read.mk size pos length).Inside := fun k hk => by
  dsimp only at hk ⊢
  omega

theorem le_of_inside {size pos length : ℕ} (hin : (Read.mk size pos length).Inside)
    (hpos : 0 < length) : pos + length ≤ size := by
  have hlast : pos + (length - 1) < size := hin (length - 1) (Nat.sub_lt hpos Nat.one_pos)
  omega

/-! ### The reads -/

/-- A turn of the loop that looks for a quote: the byte, what is moved to the front, the comparison. -/
def resyncReads : List UInt8 × ℕ → List Read
  | (payload, i) =>
    if i < payload.length then
      ⟨payload.length, i, 1⟩ :: if payload.getD i 0 = quote then
        let moved := shift payload i
        ⟨payload.length, i, u32 (payload.length - i)⟩ :: if 3 ≤
          moved.length then [⟨moved.length, 0, 3⟩] else []
      else []
    else []

/-- A turn of the loop that looks for the pattern: the byte, the comparison, what is moved to the
front. -/
def patternReads : List UInt8 × ℕ → List Read
  | (payload, i) =>
    if i < payload.length then
      ⟨payload.length, i, 1⟩ :: if payload.getD i 0 = quote then
        if 3 ≤ u32 (payload.length - i) then
          ⟨payload.length, i, 3⟩ :: if (payload.drop i).take 3 = namePattern then []
            else [⟨payload.length, i, u32 (payload.length - i)⟩]
        else []
      else []
    else []

/-- Behind the loops: the name and the four fields, or what is kept behind a name that is too long. -/
def headerReads (payload : List UInt8) (dataPtr : ℕ) : List Read :=
  let nameSize := sub32 dataPtr 1
  if nameSize ≤ pvNameMaxSize then
    ⟨payload.length, 1, nameSize⟩ :: if 13 ≤ payload.length - (nameSize + 3) then
      [⟨payload.length, dataPtr + 3, 4⟩, ⟨payload.length, dataPtr + 7, 1⟩, ⟨payload.length, dataPtr + 8, 4⟩,
        ⟨payload.length, dataPtr + 12, 4⟩]
    else []
  else [⟨payload.length, min nameSize payload.length, u32 (payload.length - min nameSize payload.length)⟩]

/-- The byte size of `descriptors[typeId]`; a string has `MAX_STRING_SIZE` bytes. -/
def descriptorSize (typeId : UInt8) : ℕ := [1, 1, 2, 2, 4, 4, 8, 8, 4, 8, 40].getD typeId.toNat 0

/-- What `ReadVarValueAndSkip` reads behind the header: value and time stamp, or the operand of
`TypeConvert`. -/
def valueReads (payload : List UInt8) (h : Header) (l : Local) : List Read :=
  if l.controlOk then
    [⟨payload.length, h.dataPtr + 4, h.receivedSize⟩, ⟨payload.length, h.dataPtr + 4 + h.receivedSize, 8⟩]
  else if h.receivedOffset = 0 ∧ h.receivedTypeId.toNat < numberOfTypes then
    [⟨payload.length, h.dataPtr + 4, descriptorSize h.receivedTypeId⟩]
  else []

/-- What is kept behind the frame. -/
def skipRead (payload : List UInt8) (l : Local) : Read :=
  ⟨payload.length, min l.processedSize payload.length,
    u32 (payload.length - min l.processedSize payload.length)⟩

/-- The reads of a turn of `while (ok)`. -/
inductive Reads (r : DiodeReceiver) (env : Env) (s : Store) (payload : List UInt8) : Read → Prop where
  | first : payload ≠ [] → Reads r env s payload ⟨payload.length, 0, 1⟩
  | resync {a : List UInt8 × ℕ} {x : Read} : payload ≠ [] → payload.head? ≠ some quote →
      Reachable (fun a b => resyncTurn a = .again b) (payload, 0) a → x ∈ resyncReads a →
        Reads r env s payload x
  | pattern {p : List UInt8} {a : List UInt8 × ℕ} {x : Read} : Resynced payload (p, true) →
      Reachable (fun a b => patternTurn a = .again b) (p, 1) a → x ∈ patternReads a → Reads r env s payload x
  | header {p q : List UInt8} {i : ℕ} {x : Read} :
      Resynced payload (p, true) → Ends patternTurn (p, 1) (q, some i) →
      x ∈ headerReads q i → Reads r env s payload x
  | value {q : List UInt8} {h : Header} {x : Read} : ReadVarNameAndIndex r env payload (q, some h) →
      (r.getLocalIndex env s h).processedSize ≤ q.length →
        (r.getLocalIndex env s h).index < r.numberOfVariables →
      x ∈ valueReads q h (r.getLocalIndex env s h) → Reads r env s payload x
  | skip {q : List UInt8} {h : Header} : ReadVarNameAndIndex r env payload (q, some h) →
      (r.getLocalIndex env s h).processedSize ≤ q.length →
        Reads r env s payload (skipRead q (r.getLocalIndex env s h))

/-! ### Moving bytes, and the scans -/

/-- What is moved to the front is what is left. -/
theorem moved_inside {size pos : ℕ} (hle : pos ≤ size) : (Read.mk size pos (u32 (size - pos))).Inside := by
  have hu := u32_le (size - pos)
  exact inside_of_le (by omega)

theorem resyncReads_inside {a : List UInt8 × ℕ} {x : Read} (hx : x ∈ resyncReads a) : x.Inside := by
  obtain ⟨payload, i⟩ := a
  simp only [resyncReads] at hx
  split_ifs at hx with hi hquote hthree
  all_goals simp only [List.mem_cons, List.not_mem_nil, or_false] at hx
  · rcases hx with rfl | rfl | rfl
    · exact inside_of_le hi
    · exact moved_inside hi.le
    · exact inside_of_le hthree
  · rcases hx with rfl | rfl
    · exact inside_of_le hi
    · exact moved_inside hi.le
  · rw [hx]
    exact inside_of_le hi

theorem patternReads_inside {a : List UInt8 × ℕ} {x : Read} (hx : x ∈ patternReads a) : x.Inside := by
  obtain ⟨payload, i⟩ := a
  have hu := u32_le (payload.length - i)
  simp only [patternReads] at hx
  split_ifs at hx with hi hquote hthree hpattern
  all_goals simp only [List.mem_cons, List.not_mem_nil, or_false] at hx
  · rcases hx with rfl | rfl
    · exact inside_of_le hi
    · exact inside_of_le (by omega)
  · rcases hx with rfl | rfl | rfl
    · exact inside_of_le hi
    · exact inside_of_le (by omega)
    · exact moved_inside hi.le
  · rw [hx]
    exact inside_of_le hi
  · rw [hx]
    exact inside_of_le hi

/-- Where the pattern is found it is all there, and its place is a `uint32`. -/
theorem pattern_found (he : Ends patternTurn (p, 1) (q, some i)) : i + 3 ≤ q.length ∧ i < 2 ^ 32 := by
  refine he.post (I := fun a => a.2 < 2 ^ 32) (Q := fun e => ∀ j, e.2 = some j → j + 3 ≤ e.1.length ∧
    j < 2 ^ 32)
    (show 1 < 2 ^ 32 by decide) (fun a b _ hb => ?_) (fun a e ha hb j hj => ?_) i rfl
  · unfold patternTurn at hb
    dsimp only at hb
    split_ifs at hb
    · cases hb
      exact show 1 < 2 ^ 32 by decide
    · cases hb
      exact u32_lt _
  · have hu := u32_le (a.1.length - a.2)
    unfold patternTurn at hb
    dsimp only at hb
    split_ifs at hb with hi hquote hthree
    all_goals cases hb
    · cases hj
      exact ⟨by dsimp only; omega, ha⟩
    all_goals cases hj

/-! ### The header -/

/-- The payload ends right before the last byte of the offset. -/
def HeaderCut (payload : List UInt8) (dataPtr : ℕ) : Prop :=
  sub32 dataPtr 1 ≤ pvNameMaxSize ∧ payload.length = sub32 dataPtr 1 + 16

/-- The pattern of a name that is not too long is behind the opening quote. -/
theorem nameSize_eq (hi : i < 2 ^ 32) (hname : sub32 i 1 ≤ pvNameMaxSize) : i = sub32 i 1 + 1 := by
  rcases Nat.eq_zero_or_pos i with rfl | hpos
  · exact absurd hname (by decide)
  · rw [sub32_of_le hi hpos]
    omega

theorem headerReads_inside_iff (hfound : i + 3 ≤ q.length) (hi : i < 2 ^ 32) :
    (∀ x ∈ headerReads q i, x.Inside) ↔ ¬ HeaderCut q i := by
  unfold headerReads HeaderCut
  dsimp only
  by_cases hname : sub32 i 1 ≤ pvNameMaxSize
  · have hn := nameSize_eq hi hname
    generalize sub32 i 1 = n at hn hname
    subst hn
    rw [if_pos hname]
    by_cases hthere : 13 ≤ q.length - (n + 3)
    · rw [if_pos hthere]
      refine ⟨fun hall ⟨_, hcut⟩ => ?_, fun hcut => ?_⟩
      · have hlast := le_of_inside (hall ⟨q.length, n + 1 + 12, 4⟩ (by simp)) (by decide)
        omega
      · have hlong : n + 17 ≤ q.length := by
          have hne : q.length ≠ n + 16 := fun heq => hcut ⟨hname, heq⟩
          omega
        simp only [List.mem_cons, List.not_mem_nil, or_false]
        rintro x (rfl | rfl | rfl | rfl | rfl)
        all_goals exact inside_of_le (by omega)
    · rw [if_neg hthere]
      refine iff_of_true ?_ fun ⟨_, hcut⟩ => by omega
      simp only [List.mem_cons, List.not_mem_nil, or_false]
      rintro x rfl
      exact inside_of_le (by omega)
  · rw [if_neg hname]
    refine iff_of_true ?_ fun ⟨hle, _⟩ => hname hle
    simp only [List.mem_cons, List.not_mem_nil, or_false]
    rintro x rfl
    exact moved_inside (min_le_right _ _)

/-! ### The value -/

/-- How many bytes behind the header are read. -/
def wanted (h : Header) (l : Local) : ℕ :=
  if l.controlOk then h.receivedSize + 8
  else if h.receivedOffset = 0 ∧ h.receivedTypeId.toNat < numberOfTypes then descriptorSize h.receivedTypeId
  else 0

/-- A string is to be converted, and fewer than 40 bytes are behind the header. -/
def StringCut (payload : List UInt8) (h : Header) (l : Local) : Prop :=
  l.controlOk = false ∧ h.receivedOffset = 0 ∧ h.receivedTypeId = 10 ∧ payload.length < h.dataPtr + 4 + 40

/-- The length of the frame does not fit in 32 bits, and not all that is read of it is there. -/
def LengthWrapped (payload : List UInt8) (h : Header) (l : Local) : Prop :=
  2 ^ 32 ≤ h.processedSize + (12 + h.receivedSize + 8 + 4) ∧ 0 < wanted h l ∧
    payload.length < h.dataPtr + 4 + wanted h l

/-- The reads are one after the other. -/
theorem valueReads_inside_iff (q : List UInt8) (h : Header) (l : Local) :
    (∀ x ∈ valueReads q h l, x.Inside) ↔ (0 < wanted h l → h.dataPtr + 4 + wanted h l ≤ q.length) := by
  unfold valueReads wanted
  split_ifs with hcontrol hconvert
  · simp only [List.mem_cons, List.not_mem_nil, or_false]
    refine ⟨fun hall _ => ?_, fun hle => ?_⟩
    · have hlast := le_of_inside (hall ⟨q.length, h.dataPtr + 4 + h.receivedSize, 8⟩ (.inr rfl)) (by decide)
      omega
    · have hle := hle (by omega)
      rintro x (rfl | rfl)
      all_goals exact inside_of_le (by omega)
  · simp only [List.mem_cons, List.not_mem_nil, or_false, forall_eq]
    exact ⟨fun hin hpos => le_of_inside hin hpos,
      fun hle k hk => inside_of_le (hle (Nat.zero_lt_of_lt hk)) k hk⟩
  · exact iff_of_true (fun x hx => absurd hx List.not_mem_nil) fun hpos => absurd hpos (Nat.lt_irrefl 0)

/-- Only strings have more than eight bytes. -/
theorem descriptorSize_le {typeId : UInt8} (htype : typeId.toNat < numberOfTypes) (hne : typeId ≠ 10) :
    descriptorSize typeId ≤ 8 := by
  have hlt : typeId.toNat < 10 := by
    have hnat : typeId.toNat ≠ 10 := fun heq => hne (UInt8.toNat_inj.mp heq)
    unfold numberOfTypes at htype
    omega
  have hall : ∀ n < 10, [1, 1, 2, 2, 4, 4, 8, 8, 4, 8, 40].getD n 0 ≤ 8 := by decide
  exact hall _ hlt

/-- A complete frame whose length does not wrap has what is read of it, but for a string. -/
theorem arrived_iff (hstart : h.dataPtr = h.processedSize + 10)
    (hproc : l.processedSize = u32 (h.processedSize + (12 + h.receivedSize + 8 + 4)))
    (hle : l.processedSize ≤ q.length) :
    (0 < wanted h l → h.dataPtr + 4 + wanted h l ≤ q.length) ↔ ¬ StringCut q h l ∧ ¬ LengthWrapped q h l := by
  constructor
  · refine fun hall => ⟨fun ⟨hcontrol, hoffset, htype, hcut⟩ => ?_, fun ⟨_, hpos, hcut⟩ => ?_⟩
    · have hwanted : wanted h l = 40 := by
        rw [wanted, if_neg (by rw [hcontrol]; exact Bool.false_ne_true), htype, if_pos ⟨hoffset, by decide⟩]
        rfl
      rw [hwanted] at hall
      have hthere := hall (by decide)
      omega
    · have hthere := hall hpos
      omega
  · rintro ⟨hstring, hwrap⟩ hpos
    by_cases hfits : 2 ^ 32 ≤ h.processedSize + (12 + h.receivedSize + 8 + 4)
    · exact Nat.le_of_not_lt fun hcut => hwrap ⟨hfits, hpos, hcut⟩
    · rw [hproc, u32_of_lt (by omega)] at hle
      unfold wanted at hpos ⊢
      split_ifs at hpos ⊢ with hcontrol hconvert
      · omega
      · by_cases htype : h.receivedTypeId = 10
        · have hthere : ¬ q.length < h.dataPtr + 4 + 40 := fun hcut =>
            hstring ⟨Bool.eq_false_of_not_eq_true hcontrol, hconvert.1, htype, hcut⟩
          have hsize : descriptorSize h.receivedTypeId = 40 := by rw [htype]; rfl
          omega
        · have hsize := descriptorSize_le hconvert.2 htype
          omega
      · exact absurd hpos (Nat.lt_irrefl 0)

/-- Where `dataPtr` points to. -/
theorem ReadVarNameAndIndex.dataPtr_eq (hread : ReadVarNameAndIndex r env p (q, some h)) :
    h.dataPtr = h.processedSize + 10 := by
  obtain ⟨p', i, -, he, hpass, rfl⟩ := hread.passed
  have hn := nameSize_eq (pattern_found he).2 hpass.name_le
  rw [headerAt]
  dsimp only
  omega

/-! ### Behind the payload -/

variable (env' : Env)

theorem readAt_beyond {pos k j : ℕ} (hle : pos + j + k ≤ q.length) :
    readAt (bufferAt env q pos) j k = readAt (bufferAt env' q pos) j k := by
  rw [readAt_bufferAt hle, readAt_bufferAt hle]

/-- A header that is not cut is the same, whatever lies behind the payload. -/
theorem readHeader_beyond (r : DiodeReceiver) (hfound : i + 3 ≤ q.length) (hi : i < 2 ^ 32)
    (hcut : ¬ HeaderCut q i) :
    r.readHeader env q i = r.readHeader env' q i := by
  unfold DiodeReceiver.readHeader
  by_cases hname : sub32 i 1 ≤ pvNameMaxSize
  · have hn := nameSize_eq hi hname
    by_cases hthere : 13 ≤ q.length - (sub32 i 1 + 3)
    · have hlong : i + 16 ≤ q.length := by
        have hne : q.length ≠ sub32 i 1 + 16 := fun heq => hcut ⟨hname, heq⟩
        omega
      have htypeId : bufferAt env q (i + 3) 4 = bufferAt env' q (i + 3) 4 := by
        unfold bufferAt
        rw [if_pos (by omega), if_pos (by omega)]
      rw [if_pos hname, if_pos hthere, if_pos hname, if_pos hthere]
      dsimp only
      rw [htypeId, readAt_beyond env' (j := 0) (by omega), readAt_beyond env' (j := 5) (by omega),
        readAt_beyond env' (j := 9) (by omega)]
    · rw [if_pos hname, if_neg hthere, if_pos hname, if_neg hthere]
  · rw [if_neg hname, if_neg hname]

/-- **What lies behind the payload has no influence** on `ReadVarNameAndIndex`, if no header is cut. -/
theorem readVarNameAndIndex_beyond {res : List UInt8 × Option Header}
    (hcut : ∀ p q i, Resynced payload (p, true) → Ends patternTurn (p, 1) (q, some i) → ¬ HeaderCut q i)
    (hread : ReadVarNameAndIndex r env payload res) : ReadVarNameAndIndex r env' payload res := by
  obtain ⟨p, ok, hp, hread⟩ := hread
  cases ok with
  | false =>
    rw [if_neg Bool.false_ne_true] at hread
    exact ⟨p, false, hp, hread⟩
  | true =>
    rw [if_pos rfl] at hread
    obtain ⟨q, found, he, hres⟩ := hread
    cases found with
    | none => exact ⟨p, true, hp, q, none, he, hres⟩
    | some i =>
      obtain ⟨hfound, hi⟩ := pattern_found he
      refine ⟨p, true, hp, q, some i, he, ?_⟩
      dsimp only at hres ⊢
      rw [hres, readHeader_beyond env' r hfound hi (hcut p q i hp he)]

/-- `TypeConvert` reads as many bytes as its operand has. -/
def Env.ReadsOperand (env : Env) : Prop := ∀ index typeId source source' old,
  readAt source 0 (descriptorSize typeId) = readAt source' 0 (descriptorSize typeId) →
    env.typeConvert index typeId source old = env.typeConvert index typeId source' old

/-- Nor on what is stored, if the reads of the value are inside. -/
theorem writes_beyond (henv : env.ReadsOperand) (r : DiodeReceiver) (hin : ∀ x ∈ valueReads q h l, x.Inside) :
    r.writes env s (bufferAt env q (h.dataPtr + 4)) h l =
      r.writes env s (bufferAt env' q (h.dataPtr + 4)) h l := by
  rw [valueReads_inside_iff] at hin
  unfold wanted at hin
  unfold DiodeReceiver.writes
  dsimp only
  split_ifs at hin ⊢ with hcontrol hconvert
  · have hle := hin (by omega)
    rw [readAt_beyond env' (k := h.receivedSize) (by omega), readAt_beyond env' (k := 8) (by omega)]
  · refine congrArg (fun bytes => [(r.offset l.index, bytes)]) (henv _ _ _ _ _ ?_)
    rcases Nat.eq_zero_or_pos (descriptorSize h.receivedTypeId) with hzero | hpos
    · rw [hzero, readAt_zero, readAt_zero]
    · exact readAt_beyond env' (hin hpos)
  · rfl

/-! ### All of them -/

/-- **The parser reads only received bytes**, unless the header is cut before its last byte, a string that
is to be converted is cut, or the length of a frame wraps. -/
theorem reads_inside_iff (r : DiodeReceiver) (env : Env) (s : Store) (payload : List UInt8) :
    (∀ x, Reads r env s payload x → x.Inside) ↔
      (∀ p q i, Resynced payload (p, true) → Ends patternTurn (p, 1) (q, some i) → ¬ HeaderCut q i) ∧
        ∀ q h, ReadVarNameAndIndex r env payload (q, some h) → (r.getLocalIndex env s h).processedSize ≤
          q.length →
          (r.getLocalIndex env s h).index < r.numberOfVariables →
            ¬ StringCut q h (r.getLocalIndex env s h) ∧ ¬ LengthWrapped q h (r.getLocalIndex env s h) := by
  constructor
  · refine fun hall => ⟨fun p q i hp he => ?_, fun q h hread hle hindex => ?_⟩
    · obtain ⟨hfound, hi⟩ := pattern_found he
      exact (headerReads_inside_iff hfound hi).mp fun x hx => hall x (.header hp he hx)
    · have harrived := arrived_iff hread.dataPtr_eq (getLocalIndex_size s h) hle
      exact harrived.mp ((valueReads_inside_iff q h _).mp fun x hx => hall x (.value hread hle hindex hx))
  · rintro ⟨hheader, hvalue⟩ x hx
    cases hx with
    | first hne => exact inside_of_le (List.length_pos_of_ne_nil hne)
    | resync _ _ _ hx => exact resyncReads_inside hx
    | pattern _ _ hx => exact patternReads_inside hx
    | header hp he hx =>
      obtain ⟨hfound, hi⟩ := pattern_found he
      exact (headerReads_inside_iff hfound hi).mpr (hheader _ _ _ hp he) x hx
    | value hread hle hindex hx =>
      have harrived := arrived_iff hread.dataPtr_eq (getLocalIndex_size s _) hle
      exact (valueReads_inside_iff _ _ _).mpr (harrived.mpr (hvalue _ _ hread hle hindex)) x hx
    | skip _ _ => exact moved_inside (min_le_right _ _)

/-- `A` with three bytes of a string, for a PV of two bytes. -/
def stringFrame : Frame := ⟨[65], 0, 10, 3, 0, [66, 67, 68], List.replicate 8 0⟩

theorem stringFrame_accepts : Accepts (onePv 4) stringFrame :=
  ⟨by decide, by decide, by decide, by decide, by decide, by decide, rfl, rfl⟩

theorem smallFrame_cut :
    ∃ q, Ends patternTurn (smallFrame.encode.take 17, 1) (q, some 2) ∧ HeaderCut q 2 := by
  have hp : smallFrame.encode.take 17 <+: smallFrame.encode ++ [] := by
    rw [List.append_nil]
    exact List.take_prefix _ _
  exact ⟨_, patternTurn_found smallFrame_accepts.shaped hp (by decide) (by decide), by decide, by decide⟩

/-- A payload of 17 bytes is read behind its end, and so is one with a whole string. -/
theorem reads_outside : (¬ ∀ (r : DiodeReceiver) (env : Env) (s : Store) (payload : List UInt8) (x : Read),
      Reads r env s payload x → x.Inside) ∧
    ¬ ∀ (r : DiodeReceiver) (env : Env) (s : Store) (payload : List UInt8),
      (∀ p q i, Resynced payload (p, true) → Ends patternTurn (p, 1) (q, some i) → ¬ HeaderCut q i) →
      ∀ x, Reads r env s payload x → x.Inside := by
  constructor
  · intro hall
    have hp : Resynced (smallFrame.encode.take 17) (smallFrame.encode.take 17, true) := by
      rw [Resynced, if_neg (by decide), if_pos (by decide)]
    obtain ⟨q, he, hcut⟩ := smallFrame_cut
    obtain ⟨hfound, hi⟩ := pattern_found he
    exact (headerReads_inside_iff hfound hi).mp
      (fun x hx => hall (onePv 4) plainEnv .start (smallFrame.encode.take 17) x (.header hp he hx)) hcut
  · intro hall
    have hp : stringFrame.encode <+: stringFrame.encode ++ [] := by simp
    have hlen : stringFrame.encode.length = 31 := by decide
    have hsync : Resynced stringFrame.encode (stringFrame.encode, true) := resynced_of_part hp (by decide)
    have hscan : Ends patternTurn (stringFrame.encode, 1) (stringFrame.encode, some 2) :=
      patternTurn_found stringFrame_accepts.shaped hp (by rw [hlen]; decide) (by rw [hlen]; decide)
    have hread : ReadVarNameAndIndex (onePv 4) plainEnv stringFrame.encode
        (stringFrame.encode, some (headerOf plainEnv stringFrame.encode stringFrame)) :=
      readVarNameAndIndex_header (by decide) stringFrame_accepts hp (by rw [hlen]; decide)
        (by rw [hlen]; decide)
    have hproc := getLocalIndex_processedSize plainEnv stringFrame.encode stringFrame_accepts .start
    have hidx : ((onePv 4).getLocalIndex plainEnv .start
        (headerOf plainEnv stringFrame.encode stringFrame)).index = 0 :=
      onePv_resolve _ rfl
    have hi : ((onePv 4).getLocalIndex plainEnv .start
      (headerOf plainEnv stringFrame.encode stringFrame)).index <
        (onePv 4).numberOfVariables := hidx ▸ Nat.one_pos
    have hinside := hall (onePv 4) plainEnv .start stringFrame.encode (fun p q i hp' he hcut => by
      cases hp'.unique hsync
      cases he.unique hscan
      rw [HeaderCut, hlen] at hcut
      exact absurd hcut.2 (by decide))
    have hle : ((onePv 4).getLocalIndex plainEnv .start
      (headerOf plainEnv stringFrame.encode stringFrame)).processedSize ≤
        stringFrame.encode.length := by
      rw [hproc, hlen]
      decide
    have harrived :=
        (arrived_iff hread.dataPtr_eq (getLocalIndex_size _ _) hle).mp
        ((valueReads_inside_iff _ _ _).mp fun x hx =>
      hinside x (.value hread hle hi hx))
    have hoffset : (headerOf plainEnv stringFrame.encode stringFrame).receivedOffset = 0 :=
      headerOf_offset stringFrame_accepts hp (by rw [hlen]; decide)
    refine harrived.1 ⟨?_, hoffset, rfl, by rw [hlen]; decide⟩
    rw [Bool.eq_false_iff]
    intro hcontrol
    have hfit := (controlOk_iff hi).mp hcontrol
    rw [hoffset] at hfit
    exact absurd hfit.2 (by decide)

end Hieratika.Receiver

import Hieratika.ChannelAccess.Stamp
import Mathlib.Data.List.TakeWhile

/-!
# What a put is checked for

The client checks a put in several places: `nciu::write` the state of the channel, the count and
the strings, `tcpiiu` the type, `insertRequestWithPayLoad` the type and the bounds. With the patch the
type can carry the mark `0x8000`, and each place takes it away for itself, or does not.

The tables `dbr_size` and `dbr_value_size` are those of EPICS; only the plain types are known here. An
exception takes back what has been pushed, so that a put that fails leaves nothing.

## What is proved

The mark changes what becomes of a put in two cases only (`flag_checked_iff`): `nciu::write` without
notification does not verify strings with the mark, and `writeNotifyRequest` takes a marked type for
an invalid one.
-/

namespace Hieratika.ChannelAccess

open Foundations

/-- The exceptions of `cacChannel` that a put can throw. -/
inductive CacException where
  | notConnected | noWriteAccess | outOfBounds | badString | badType | unsupportedByService
  deriving DecidableEq

/-- `dbr_size` and `dbr_value_size`, by the number of the type. -/
structure DbrTables where
  dbrSize : ℕ → ℕ
  dbrValueSize : ℕ → ℕ
  plain : ∀ t : Dbr, dbrSize t.code = t.size ∧ dbrValueSize t.code = t.size
  /-- One element fits into a message. -/
  size_le : ∀ type, dbrSize type ≤ maxTcp

/-- `type | 0x8000`. -/
def setFlag (dataType : ℕ) : ℕ := if dataType.testBit 15 then dataType else dataType + 0x8000

/-- `INVALID_DB_REQ`; `LAST_BUFFER_TYPE` is `DBR_CLASS_NAME`. -/
def invalidDbReq (type : ℕ) : Bool := 38 < type

/-- `dbrCopyScalar` and `dbrCopyVector` have a function for the type: a plain one, `DBR_PUT_ACKT` or
`DBR_PUT_ACKS`. For the others `copy_dbr_invalid` throws. -/
def dbrCopy (dataType : ℕ) : Bool := dataType ≤ 6 || dataType = 35 || dataType = 36

/-- What a put finds: the channel, and the minor version of the server. -/
structure Nciu where
  connected : Bool
  writePermit : Bool
  count : ℕ
  v41Ok : Bool
  v49Ok : Bool

section

variable (tables : DbrTables) (chan : Nciu)

/-! ### The queue -/

/-- `insertRequestHeader`, as far as it can throw; the numbers of the request have no part in it. -/
def headerChecks (v49Ok : Bool) (payloadSize dataType nElem : ℕ) : Except CacException Unit :=
  match insertRequestHeader 0 payloadSize dataType nElem 0 0 v49Ok with
  | some _ => .ok ()
  | none => .error .outOfBounds

/-- The copy of the value. -/
def copyChecks (dataType : ℕ) : Except CacException Unit :=
  if dbrCopy dataType then .ok () else .error .badType

/-- `maxElem`. -/
def maxElem (v49Ok : Bool) (dataType : ℕ) : ℕ :=
  let maxBytes := if v49Ok then 0xffffffff else maxTcp - 16
  (maxBytes - 8 - tables.dbrSize dataType) / tables.dbrValueSize dataType

/-- `insertRequestWithPayLoad`, as far as it can throw. -/
def payLoadChecks (v49Ok : Bool) (dataTypeOrig nElem : ℕ) (pPayload : Memory) : Except CacException Unit := do
  let dataType := clearFlag dataTypeOrig
  if invalidDbReq dataType then throw .badType
  if 39 ≤ dataType then throw .badType
  if nElem = 1 then
    if dataType = Dbr.string.code then
      let size := ((readAt pPayload 0 40).takeWhile (· ≠ 0)).length + 1
      if 40 < size then throw .outOfBounds
      headerChecks v49Ok (messageAlign size) dataTypeOrig nElem
    else
      headerChecks v49Ok (messageAlign (tables.dbrSize dataType)) dataTypeOrig nElem
      copyChecks dataType
  else
    if maxElem tables v49Ok dataType ≤ nElem then throw .outOfBounds
    -- `dbr_size_n`
    let size := u32 (tables.dbrSize dataType + (nElem - 1) * tables.dbrValueSize dataType)
    headerChecks v49Ok (messageAlign size) dataTypeOrig nElem
    copyChecks dataType

/-! ### The circuit -/

/-- `tcpiiu::writeRequest`. -/
def Nciu.writeRequest (type nElem : ℕ) (pValue : Memory) : Except CacException Unit := do
  let typeOrig := type
  let type := clearFlag type
  if invalidDbReq type then throw .badType
  payLoadChecks tables chan.v49Ok typeOrig nElem pValue

/-- `tcpiiu::writeNotifyRequest`. -/
def Nciu.writeNotifyRequest (type nElem : ℕ) (pValue : Memory) : Except CacException Unit := do
  if !chan.v41Ok then throw .unsupportedByService
  if invalidDbReq type then throw .badType
  payLoadChecks tables chan.v49Ok type nElem pValue

/-! ### The channel -/

/-- `while ( pStr[strsize++] != '\0' )`, with `left` characters up to `MAX_STRING_SIZE`. -/
def verifyFrom (m : Memory) : (left pStr : ℕ) → Bool
  | 0, _ => false
  | left + 1, pStr => if m pStr = 0 then true else verifyFrom m left (pStr + 1)

/-- `stringVerify`: `count` strings of 40 bytes. -/
def stringVerify (m : Memory) : (count pStr : ℕ) → Except CacException Unit
  | 0, _ => .ok ()
  | count + 1, pStr => if verifyFrom m 40 pStr then stringVerify m count (pStr + 40) else .error .badString

/-- What both functions `nciu::write` check first. -/
def Nciu.admit (countIn : ℕ) : Except CacException Unit := do
  if !chan.connected then throw .notConnected
  if !chan.writePermit then throw .noWriteAccess
  if chan.count < countIn || countIn = 0 then throw .outOfBounds

/-- The strings, if the type says so. -/
def verifyValue (type countIn : ℕ) (pValue : Memory) : Except CacException Unit :=
  if type = Dbr.string.code then stringVerify pValue countIn 0 else .ok ()

/-- `nciu::write` without notification. -/
def Nciu.write (type countIn : ℕ) (pValue : Memory) : Except CacException Unit := do
  chan.admit countIn
  verifyValue type countIn pValue
  chan.writeRequest tables type countIn pValue

/-- `nciu::write` with notification. -/
def Nciu.writeNotify (type countIn : ℕ) (pValue : Memory) : Except CacException Unit := do
  let typeOrig := type
  let type := clearFlag type
  chan.admit countIn
  verifyValue type countIn pValue
  chan.writeNotifyRequest tables typeOrig countIn pValue

end

variable {tables : DbrTables} {chan : Nciu} {v49Ok : Bool} {type dataType n payloadSize : ℕ} {m : Memory}

/-! ### The mark -/

theorem testBit_setFlag (dataType : ℕ) : (setFlag dataType).testBit 15 = true := by
  unfold setFlag
  split_ifs with h
  · exact h
  · rw [Nat.add_comm, show 0x8000 = 2 ^ 15 from rfl, Nat.testBit_two_pow_add_eq]
    simpa using h

theorem clearFlag_setFlag (dataType : ℕ) : clearFlag (setFlag dataType) = clearFlag dataType := by
  unfold clearFlag
  rw [if_pos (testBit_setFlag dataType)]
  unfold setFlag
  split_ifs
  · rfl
  · exact Nat.add_sub_cancel _ _

/-- A number with the mark is no type. -/
theorem le_of_testBit (h : dataType.testBit 15 = true) : 0x8000 ≤ dataType := Nat.ge_two_pow_of_testBit h

/-! ### What the queue does -/

/-- The header is no obstacle: the server takes large ones, or this is a small one with or without a
mark. -/
theorem insertRequestHeader_isSome (request dataType cid requestDependent : ℕ)
    (h : v49Ok = true ∨ payloadSize + 8 < 0xffff ∧ n < 0xffff) :
    (insertRequestHeader request payloadSize dataType n cid requestDependent v49Ok).isSome := by
  unfold insertRequestHeader
  dsimp only
  rcases h with rfl | ⟨hsize, hn⟩
  · generalize (if dataType.testBit 15 = true then u32 (payloadSize + 8) else payloadSize) = size
    by_cases hsmall : size < 0xffff ∧ n < 0xffff
    · rw [if_pos hsmall]
      rfl
    · rw [if_neg hsmall, if_pos rfl]
      rfl
  · have hle : (if dataType.testBit 15 = true then u32 (payloadSize + 8) else payloadSize) < 0xffff := by
      split_ifs
      · exact (u32_le _).trans_lt hsize
      · omega
    rw [if_pos ⟨hle, hn⟩]
    rfl

theorem headerChecks_ok (h : v49Ok = true ∨ payloadSize + 8 < 0xffff ∧ n < 0xffff) :
    headerChecks v49Ok payloadSize dataType n = .ok () := by
  obtain ⟨hdr, hhdr⟩ := Option.isSome_iff_exists.mp
    (insertRequestHeader_isSome 0 dataType 0 0 h)
  rw [headerChecks, hhdr]

/-- The bound of a server that takes no large messages. -/
theorem maxElem_bound (h : v49Ok = false) (hn : n < maxElem tables v49Ok dataType) :
    n < 0xffff ∧ tables.dbrSize dataType + n * tables.dbrValueSize dataType ≤ maxTcp := by
  subst h
  unfold maxElem maxTcp at hn
  simp only [Bool.false_eq_true, if_false] at hn
  have hmul : (n + 1) * tables.dbrValueSize dataType ≤ 16384 - 16 - 8 - tables.dbrSize dataType :=
    (Nat.mul_le_mul_right _ hn).trans (Nat.div_mul_le_self _ _)
  have hpos : 0 < tables.dbrValueSize dataType := by
    by_contra hzero
    rw [Nat.eq_zero_of_not_pos hzero, Nat.div_zero] at hn
    exact absurd hn (Nat.not_lt_zero n)
  have hle : n ≤ n * tables.dbrValueSize dataType := Nat.le_mul_of_pos_right n hpos
  have hsize : tables.dbrSize dataType ≤ 16384 := tables.size_le dataType
  rw [Nat.add_mul, Nat.one_mul] at hmul
  unfold maxTcp
  omega

/-- Then the header is small, whether the size is that of `dbr_size_n` or of the elements alone. -/
theorem header_of_lt_maxElem (hn : n < maxElem tables v49Ok dataType) {size : ℕ}
    (hsize : size ≤ tables.dbrSize dataType + n * tables.dbrValueSize dataType) :
    v49Ok = true ∨ messageAlign (u32 size) + 8 < 0xffff ∧ n < 0xffff := by
  cases v49Ok with
  | true => exact .inl rfl
  | false =>
    obtain ⟨hlt, hle⟩ := maxElem_bound rfl hn
    unfold maxTcp at hle
    have hal := messageAlign_bounds (n := size) (by omega)
    rw [u32_of_lt (by omega)]
    exact .inr ⟨by omega, hlt⟩

/-- A string that ends in its 40 bytes. -/
theorem strlen_lt_iff (m : Memory) (a : ℕ) :
    ((readAt m a 40).takeWhile (· ≠ 0)).length < 40 ↔ 0 ∈ readAt m a 40 := by
  have hlen : (readAt m a 40).length = 40 := length_readAt
  have hle := (List.takeWhile_prefix (fun b : UInt8 => decide (b ≠ 0)) (l := readAt m a 40)).length_le
  rw [hlen] at hle
  rw [Nat.lt_iff_le_and_ne, and_iff_right hle, ← not_iff_not, not_not]
  constructor
  · intro hfull hmem
    have heq := (List.takeWhile_prefix (fun b : UInt8 => decide (b ≠ 0))
      (l := readAt m a 40)).eq_of_length (hfull.trans hlen.symm)
    have hne := List.mem_takeWhile_imp (heq.symm ▸ hmem)
    simp at hne
  · intro hnot
    have hall : ∀ b ∈ readAt m a 40, decide (b ≠ 0) = true :=
      fun b hb => decide_eq_true fun hzero => hnot (hzero ▸ hb)
    rw [List.takeWhile_eq_self_iff.mpr hall, hlen]

/-- **What the queue does with a put** does not depend on the mark. -/
theorem payLoadChecks_eq (tables : DbrTables) (v49Ok : Bool) (dataType n : ℕ) (m : Memory) :
    payLoadChecks tables v49Ok dataType n m =
      if 38 < clearFlag dataType then .error .badType
      else if n = 1 ∧ clearFlag dataType = Dbr.string.code then
        if 0 ∈ readAt m 0 40 then .ok () else .error .outOfBounds
      else if n ≠ 1 ∧ maxElem tables v49Ok (clearFlag dataType) ≤ n then .error .outOfBounds
      else copyChecks (clearFlag dataType) := by
  unfold payLoadChecks invalidDbReq
  dsimp only
  by_cases hinvalid : 38 < clearFlag dataType
  · simp only [hinvalid, decide_true, if_true]
    rfl
  · have h39 : ¬ 39 ≤ clearFlag dataType := by omega
    simp only [hinvalid, h39, decide_false, Bool.false_eq_true, if_false]
    by_cases hone : n = 1
    · subst hone
      have hmany : ¬ ((1 : ℕ) ≠ 1 ∧ maxElem tables v49Ok (clearFlag dataType) ≤ 1) := fun h => h.1 rfl
      by_cases hstring : clearFlag dataType = Dbr.string.code
      · have hlt := strlen_lt_iff m 0
        simp only [hstring, if_true, and_self]
        by_cases hmem : (0 : UInt8) ∈ readAt m 0 40
        · have hlen := hlt.mpr hmem
          have hal := messageAlign_bounds (n := ((readAt m 0 40).takeWhile (· ≠ 0)).length + 1) (by omega)
          have hfits : ¬ 40 < ((readAt m 0 40).takeWhile (· ≠ 0)).length + 1 := by omega
          rw [if_pos hmem, if_neg hfits]
          exact headerChecks_ok (.inr ⟨by omega, by decide⟩)
        · have hlong : 40 < ((readAt m 0 40).takeWhile (· ≠ 0)).length + 1 := by
            by_contra hle
            exact hmem (hlt.mp (by omega))
          rw [if_neg hmem, if_pos hlong]
          rfl
      · have hsize : tables.dbrSize (clearFlag dataType) ≤ 16384 := tables.size_le _
        have hal := messageAlign_bounds (n := tables.dbrSize (clearFlag dataType)) (by omega)
        have hheader :
            headerChecks v49Ok (messageAlign (tables.dbrSize (clearFlag dataType))) dataType 1 = .ok () :=
          headerChecks_ok (.inr ⟨by omega, by decide⟩)
        simp only [hstring, hmany, and_false, if_true, if_false, hheader]
        rfl
    · by_cases hmax : maxElem tables v49Ok (clearFlag dataType) ≤ n
      · simp only [hone, hmax, false_and, if_false, if_true, ne_eq, not_false_eq_true, and_self]
        rfl
      · have hsub : (n - 1) * tables.dbrValueSize (clearFlag dataType) ≤
            n * tables.dbrValueSize (clearFlag dataType) :=
          Nat.mul_le_mul_right _ (Nat.sub_le n 1)
        have hheader := header_of_lt_maxElem (not_le.mp hmax) (Nat.add_le_add_left hsub _)
        simp only [hone, hmax, false_and, and_false, if_false, headerChecks_ok hheader]
        rfl

theorem payLoadChecks_setFlag (dataType : ℕ) :
    payLoadChecks tables v49Ok (setFlag dataType) n m = payLoadChecks tables v49Ok dataType n m := by
  rw [payLoadChecks_eq, payLoadChecks_eq, clearFlag_setFlag]

/-- What it throws is about the type or the count. -/
theorem payLoadChecks_ne_badString : payLoadChecks tables v49Ok dataType n m ≠ .error .badString := by
  rw [payLoadChecks_eq]
  unfold copyChecks
  split_ifs <;> simp

/-- The types for which there is no copy, and no bound comes first. -/
def Unwritable (tables : DbrTables) (v49Ok : Bool) (type n : ℕ) : Prop :=
  38 < type ∨ dbrCopy type = false ∧ (n = 1 ∨ n < maxElem tables v49Ok type)

theorem payLoadChecks_badType_iff (h : clearFlag type = type) :
    payLoadChecks tables v49Ok type n m = .error .badType ↔ Unwritable tables v49Ok type n := by
  rw [payLoadChecks_eq, h]
  unfold Unwritable copyChecks
  by_cases hinvalid : 38 < type
  · simp [hinvalid]
  · by_cases hstring : n = 1 ∧ type = Dbr.string.code
    · have hcopy : dbrCopy Dbr.string.code = true := by decide
      obtain ⟨rfl, rfl⟩ := hstring
      split_ifs <;> simp_all
    · by_cases hmax : n ≠ 1 ∧ maxElem tables v49Ok type ≤ n
      · have hbound : ¬ (n = 1 ∨ n < maxElem tables v49Ok type) := by omega
        rw [if_neg hinvalid, if_neg hstring, if_pos hmax]
        simp [hinvalid, hbound]
      · have hbound : n = 1 ∨ n < maxElem tables v49Ok type := by omega
        rw [if_neg hinvalid, if_neg hstring, if_neg hmax]
        cases dbrCopy type <;> simp [hinvalid, hbound]

/-- The value of a plain type, and a header with room for it and for the time stamp. -/
theorem insertValue_isSome_iff (tables : DbrTables) (client : Bool) (t : Dbr) (n : ℕ) (m : Memory)
    (v49Ok : Bool) :
    ((insertValue client t n m v49Ok).isSome ↔ if n = 1 ∧ t = .string then 0 ∈ readAt m 0 40
      else ¬ (n ≠ 1 ∧ maxElem tables v49Ok t.code ≤ n)) ∧
      ∀ size bytes, insertValue client t n m v49Ok = some (size, bytes) →
        v49Ok = true ∨ messageAlign size + 8 < 0xffff ∧ n < 0xffff := by
  obtain ⟨hsize, hvalueSize⟩ := tables.plain t
  have hmax : maxElem tables v49Ok t.code = ((if v49Ok then 0xffffffff else maxTcp - 16) - 8 - t.size) /
      t.size := by
    rw [maxElem, hsize, hvalueSize]
  unfold insertValue
  dsimp only
  rw [← hmax]
  by_cases hone : n = 1
  · subst hone
    by_cases ht : t = .string
    · have hlt := strlen_lt_iff m 0
      have hle := (List.takeWhile_prefix (fun b : UInt8 => decide (b ≠ 0)) (l := readAt m 0 40)).length_le
      rw [length_readAt] at hle
      simp only [ht, and_self, if_true]
      rw [← hlt]
      generalize ((readAt m 0 40).takeWhile fun b => decide (b ≠ 0)).length = strlen at hle
      have hal := messageAlign_bounds (n := strlen + 1) (by omega)
      by_cases hfull : strlen = 40
      · rw [if_pos hfull]
        exact ⟨iff_of_false (by simp) (by omega), fun size bytes h => by cases h⟩
      · rw [if_neg hfull]
        refine ⟨iff_of_true rfl (by omega), fun size bytes h => ?_⟩
        cases h
        exact .inr ⟨by omega, by decide⟩
    · have hsmall : messageAlign t.size + 8 < 0xffff := by cases t <;> decide
      simp only [ht, and_false, if_true, if_false]
      refine ⟨iff_of_true rfl fun h => h.1 rfl, fun size bytes h => ?_⟩
      cases h
      exact .inr ⟨hsmall, by decide⟩
  · simp only [hone, false_and, if_false]
    by_cases hmany : maxElem tables v49Ok t.code ≤ n
    · rw [if_pos hmany]
      exact ⟨iff_of_false (by simp) fun h => h ⟨hone, hmany⟩, fun size bytes h => by cases h⟩
    · rw [if_neg hmany]
      refine ⟨iff_of_true rfl fun h => hmany h.2, fun size bytes h => ?_⟩
      cases h
      rw [Dbr.sizeN_eq]
      apply header_of_lt_maxElem (not_le.mp hmany)
      rw [hsize, hvalueSize]
      split_ifs
      · exact Nat.le_add_right _ _
      · exact Nat.le_add_left _ _

/-- **A put of a plain type that passes is inserted**, with the mark or without it. -/
theorem payLoadChecks_ok_iff (tables : DbrTables) (client : Bool) (t : Dbr) (stamped : Bool)
    (request n cid requestDependent : ℕ) (pPayload : Memory) (v49Ok : Bool) :
    payLoadChecks tables v49Ok (t.request stamped) n pPayload = .ok () ↔
      (insertRequestWithPayLoad client request t stamped n cid requestDependent pPayload v49Ok).isSome := by
  obtain ⟨hvalue, hheader⟩ := insertValue_isSome_iff tables client t n pPayload v49Ok
  have hsome :
      (insertRequestWithPayLoad client request t stamped n cid requestDependent pPayload v49Ok).isSome ↔
        (insertValue client t n pPayload v49Ok).isSome := by
    unfold insertRequestWithPayLoad
    cases hinsert : insertValue client t n pPayload v49Ok with
    | none => rfl
    | some x =>
      obtain ⟨hdr, hhdr⟩ := Option.isSome_iff_exists.mp
        (insertRequestHeader_isSome request (t.request stamped) cid requestDependent
          (hheader x.1 x.2 hinsert))
      simp only [Option.bind_eq_bind, Option.bind_some, hhdr, Option.isSome_some]
  have hcopy : dbrCopy t.code = true ∧ ¬ 38 < t.code := by cases t <;> decide
  have hstring : t.code = Dbr.string.code ↔ t = .string := by cases t <;> decide
  rw [hsome, hvalue, payLoadChecks_eq, clearFlag_request, if_neg hcopy.2, copyChecks, if_pos hcopy.1]
  simp only [hstring]
  split_ifs with hone hmem hmax
  · exact iff_of_true rfl hmem
  · exact iff_of_false (by simp) hmem
  · exact iff_of_false (by simp) fun h => h hmax
  · exact iff_of_true rfl hmax

/-! ### The strings -/

theorem verifyFrom_iff : ∀ {left a : ℕ}, verifyFrom m left a = true ↔ 0 ∈ readAt m a left
  | 0, _ => by simp [verifyFrom, readAt]
  | left + 1, a => by
    have hcons : readAt m a (left + 1) = m a :: readAt m (a + 1) left := by
      rw [Nat.add_comm, readAt_add]
      simp [readAt]
    rw [verifyFrom, hcons, List.mem_cons]
    by_cases hzero : m a = 0
    · simp [hzero]
    · rw [if_neg hzero, verifyFrom_iff, or_iff_right (Ne.symm hzero)]

/-- Every string of the value ends in its 40 bytes. -/
def Terminated (m : Memory) (countIn : ℕ) : Prop := ∀ i < countIn, 0 ∈ readAt m (i * 40) 40

theorem stringVerify_eq (m : Memory) :
    ∀ count a : ℕ, (stringVerify m count a = .ok () ∧ ∀ i < count, 0 ∈ readAt m (a + i * 40) 40) ∨
    (stringVerify m count a = .error .badString ∧ ¬ ∀ i < count, 0 ∈ readAt m (a + i * 40) 40)
  | 0, _ => .inl ⟨rfl, fun i hi => absurd hi (Nat.not_lt_zero i)⟩
  | count + 1, a => by
    have hsplit : (∀ i < count + 1, 0 ∈ readAt m (a + i * 40) 40) ↔
        0 ∈ readAt m a 40 ∧ ∀ i < count, 0 ∈ readAt m (a + 40 + i * 40) 40 := by
      have hshift : ∀ i, a + 40 + i * 40 = a + (i + 1) * 40 := fun i => by ring
      simp only [hshift]
      rw [Nat.forall_lt_succ_left, Nat.zero_mul, Nat.add_zero]
    rw [hsplit, stringVerify]
    by_cases hfirst : verifyFrom m 40 a = true
    · rw [if_pos hfirst, and_iff_right (verifyFrom_iff.mp hfirst)]
      exact stringVerify_eq m count (a + 40)
    · rw [if_neg hfirst]
      exact .inr ⟨rfl, fun h => hfirst (verifyFrom_iff.mpr h.1)⟩

/-! ### The two paths -/

/-- The channel takes a put of so many elements. -/
def Nciu.Admits (chan : Nciu) (countIn : ℕ) : Prop :=
  chan.connected = true ∧ chan.writePermit = true ∧ 1 ≤ countIn ∧ countIn ≤ chan.count

theorem Nciu.admit_ok_iff {countIn : ℕ} : chan.admit countIn = .ok () ↔ chan.Admits countIn := by
  obtain ⟨connected, writePermit, count, v41Ok, v49Ok⟩ := chan
  unfold Nciu.Admits
  have htakes : Nciu.admit ⟨connected, writePermit, count, v41Ok, v49Ok⟩ countIn =
      if connected = false then .error .notConnected
      else if writePermit = false then .error .noWriteAccess
      else if count < countIn || countIn = 0 then .error .outOfBounds else .ok () := by
    cases connected <;> cases writePermit <;> rfl
  rw [htakes]
  cases connected <;> cases writePermit <;> simp
  omega

theorem Nciu.writeRequest_eq (type countIn : ℕ) (pValue : Memory) :
    chan.writeRequest tables type countIn pValue = payLoadChecks tables chan.v49Ok type countIn pValue := by
  unfold Nciu.writeRequest invalidDbReq
  dsimp only
  by_cases hinvalid : 38 < clearFlag type
  · rw [payLoadChecks_eq, if_pos hinvalid]
    simp only [hinvalid, decide_true, if_true]
    rfl
  · simp only [hinvalid, decide_false, Bool.false_eq_true, if_false]

theorem Nciu.writeNotifyRequest_eq (type countIn : ℕ) (pValue : Memory) :
    chan.writeNotifyRequest tables type countIn pValue =
      if chan.v41Ok = false then .error .unsupportedByService
      else if 38 < type then .error .badType else payLoadChecks tables chan.v49Ok type countIn pValue := by
  unfold Nciu.writeNotifyRequest invalidDbReq
  cases chan.v41Ok with
  | false => rfl
  | true =>
    by_cases hinvalid : 38 < type
    · simp only [hinvalid, decide_true, if_true]
      rfl
    · simp only [hinvalid, decide_false, if_false]
      rfl

/-- The strings of a put are verified, or there are none. -/
theorem verifyValue_cases (type countIn : ℕ) (pValue : Memory) :
    (verifyValue type countIn pValue = .ok () ∧ (type = Dbr.string.code → Terminated pValue countIn)) ∨
      verifyValue type countIn pValue = .error .badString ∧ type = Dbr.string.code ∧
        ¬ Terminated pValue countIn := by
  have hverify := stringVerify_eq pValue countIn 0
  simp only [Nat.zero_add] at hverify
  unfold verifyValue
  by_cases hstring : type = Dbr.string.code
  · rw [if_pos hstring]
    rcases hverify with ⟨hok, hall⟩ | ⟨herr, hnot⟩
    · exact .inl ⟨hok, fun _ => hall⟩
    · exact .inr ⟨herr, hstring, hnot⟩
  · rw [if_neg hstring]
    exact .inl ⟨rfl, fun h => absurd h hstring⟩

/-- With the mark no type is that of a string. -/
theorem verifyValue_setFlag (type countIn : ℕ) (pValue : Memory) :
    verifyValue (setFlag type) countIn pValue = .ok () := by
  have hle := le_of_testBit (testBit_setFlag type)
  have hcode : Dbr.string.code = 0 := rfl
  exact if_neg (by omega)

/-- `nciu::write` without notification, on a channel that takes the put. -/
theorem write_setFlag_iff {countIn : ℕ} {pValue : Memory} (htakes : chan.admit countIn = .ok ()) :
    chan.write tables (setFlag type) countIn pValue = chan.write tables type countIn pValue ↔
      (type = Dbr.string.code → Terminated pValue countIn) := by
  have hmarked :
      chan.write tables (setFlag type) countIn pValue =
        payLoadChecks tables chan.v49Ok type countIn pValue := by
    unfold Nciu.write
    rw [htakes, verifyValue_setFlag, Nciu.writeRequest_eq, payLoadChecks_setFlag]
    rfl
  rw [hmarked]
  unfold Nciu.write
  rw [htakes, Nciu.writeRequest_eq]
  rcases verifyValue_cases type countIn pValue with ⟨hok, hall⟩ | ⟨herr, hstring, hnot⟩
  · rw [hok]
    exact iff_of_true rfl hall
  · rw [herr]
    exact iff_of_false payLoadChecks_ne_badString fun h => hnot (h hstring)

theorem setFlag_of_testBit (h : type.testBit 15 = true) : setFlag type = type := if_pos h

/-- `nciu::write` with notification, on a channel that takes the put. -/
theorem writeNotify_setFlag_iff {countIn : ℕ} {pValue : Memory} (htakes : chan.admit countIn = .ok ()) :
    chan.writeNotify tables (setFlag type) countIn pValue = chan.writeNotify tables type countIn pValue ↔
      ((type = Dbr.string.code → Terminated pValue countIn) → chan.v41Ok = true →
        Unwritable tables chan.v49Ok type countIn) := by
  by_cases hbit : type.testBit 15 = true
  · rw [setFlag_of_testBit hbit]
    have hle := le_of_testBit hbit
    exact iff_of_true rfl fun _ _ => .inl (by omega)
  · have hclear : clearFlag type = type := if_neg hbit
    have hmarked : 38 < setFlag type := by
      have hle := le_of_testBit (testBit_setFlag type)
      omega
    unfold Nciu.writeNotify
    dsimp only
    rw [htakes, clearFlag_setFlag, hclear]
    rcases verifyValue_cases type countIn pValue with ⟨hok, hall⟩ | ⟨herr, hstring, hnot⟩
    · rw [hok]
      show chan.writeNotifyRequest tables (setFlag type) countIn pValue =
        chan.writeNotifyRequest tables type countIn pValue ↔ _
      rw [Nciu.writeNotifyRequest_eq, Nciu.writeNotifyRequest_eq, if_pos hmarked]
      cases hold : chan.v41Ok with
      | false => exact iff_of_true rfl fun _ h => by cases h
      | true =>
        have hcond : ((type = Dbr.string.code → Terminated pValue countIn) → true = true →
            Unwritable tables chan.v49Ok type countIn) ↔
              payLoadChecks tables chan.v49Ok type countIn pValue = .error .badType := by
          rw [payLoadChecks_badType_iff hclear]
          exact ⟨fun h => h hall rfl, fun h _ _ => h⟩
        rw [hcond]
        simp only [Bool.true_eq_false, if_false]
        by_cases hinvalid : 38 < type
        · have hbad : payLoadChecks tables chan.v49Ok type countIn pValue = .error .badType := by
            rw [payLoadChecks_eq, hclear, if_pos hinvalid]
          rw [if_pos hinvalid]
          exact iff_of_true rfl hbad
        · rw [if_neg hinvalid]
          exact eq_comm
    · rw [herr]
      exact iff_of_true rfl fun h => absurd (h hstring) hnot

/-- **The mark does not change what becomes of a put** without notification, unless the channel
takes it and one of its strings does not end; with notification, unless everything lets it through
up to the type check of the circuit, and the type can be written. -/
theorem flag_checked_iff (tables : DbrTables) (chan : Nciu) (type countIn : ℕ) (pValue : Memory) :
    (chan.write tables (setFlag type) countIn pValue = chan.write tables type countIn pValue ↔
        (chan.Admits countIn → type = Dbr.string.code → Terminated pValue countIn)) ∧
      (chan.writeNotify tables (setFlag type) countIn pValue = chan.writeNotify tables type countIn pValue ↔
        (chan.Admits countIn → (type = Dbr.string.code → Terminated pValue countIn) → chan.v41Ok = true →
          Unwritable tables chan.v49Ok type countIn)) := by
  cases htakes : chan.admit countIn with
  | error e =>
    have hnot : ¬ chan.Admits countIn := fun h => by
      rw [Nciu.admit_ok_iff.mpr h] at htakes
      cases htakes
    unfold Nciu.write Nciu.writeNotify
    dsimp only
    rw [htakes]
    exact ⟨iff_of_true rfl fun h => absurd h hnot, iff_of_true rfl fun h => absurd h hnot⟩
  | ok u =>
    have hadmits := Nciu.admit_ok_iff.mp htakes
    rw [write_setFlag_iff htakes, writeNotify_setFlag_iff htakes]
    exact ⟨⟨fun h _ => h, fun h => h hadmits⟩, fun h _ => h, fun h => h hadmits⟩

/-- The tables, with nothing said of the types that are not plain. -/
def plainTables : DbrTables where
  dbrSize type := ((Dbr.ofCode type).map Dbr.size).getD 8
  dbrValueSize type := ((Dbr.ofCode type).map Dbr.size).getD 8
  plain t := by rw [ofCode_code]; exact ⟨rfl, rfl⟩
  size_le type := by
    cases Dbr.ofCode type with
    | none => decide
    | some t => cases t <;> decide

/-- Two strings without an end pass with the mark only, a double with notification passes without it
only. -/
theorem flag_checked_otherwise :
    (¬ ∀ (tables : DbrTables) (chan : Nciu) (type countIn : ℕ) (pValue : Memory), type ≤ 38 →
      chan.write tables (setFlag type) countIn pValue = chan.write tables type countIn pValue) ∧
      ¬ ∀ (tables : DbrTables) (chan : Nciu) (type countIn : ℕ) (pValue : Memory), type ≤ 38 →
        chan.writeNotify tables (setFlag type) countIn pValue =
          chan.writeNotify tables type countIn pValue := by
  constructor
  · intro h
    have hmarked :
      Nciu.write plainTables ⟨true, true, 2, true, true⟩ (setFlag 0) 2 (fun _ => 65) = .ok () := by decide
    have hplain :
      Nciu.write plainTables ⟨true, true, 2, true, true⟩ 0 2 (fun _ => 65) = .error .badString := by decide
    have heq := h plainTables ⟨true, true, 2, true, true⟩ 0 2 (fun _ => 65) (by decide)
    rw [hmarked, hplain] at heq
    cases heq
  · intro h
    have hmarked :
        Nciu.writeNotify plainTables ⟨true, true, 1, true, true⟩ (setFlag 6) 1 (fun _ => 0) =
        .error .badType := by
      decide
    have hplain :
      Nciu.writeNotify plainTables ⟨true, true, 1, true, true⟩ 6 1 (fun _ => 0) = .ok () := by decide
    have heq := h plainTables ⟨true, true, 1, true, true⟩ 6 1 (fun _ => 0) (by decide)
    rw [hmarked, hplain] at heq
    cases heq

end Hieratika.ChannelAccess

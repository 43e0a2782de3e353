import Hieratika.Foundations.Integers
import Hieratika.Receiver.Reads
import Hieratika.Subscriber.Startup

/-!
# Integers of another type

The PV of a name need not have the same type on both sides. The frame carries the sender's type id, but
`GetLocalIndex` compares sizes only: a frame that fits into the slot is copied as it is, any other is
converted with `TypeConvert`.

## What is proved

After a frame with an integer for a PV of one integer, the slot holds the same integer exactly when the
sender's type is at least as wide as the receiver's, or the bytes of the slot behind the copied ones
repeat the sign already (`number_kept_iff`).
-/

namespace Hieratika.Diode

open Foundations Receiver Subscriber

/-! ### The integer types -/

/-- The integers among the `descriptors`. -/
inductive IntType where
  | signedInteger8Bit | unsignedInteger8Bit | signedInteger16Bit | unsignedInteger16Bit | signedInteger32Bit
  | unsignedInteger32Bit
  deriving DecidableEq

/-- The index in `descriptors`. -/
def IntType.typeId : IntType → UInt8
  | .signedInteger8Bit => 0
  | .unsignedInteger8Bit => 1
  | .signedInteger16Bit => 2
  | .unsignedInteger16Bit => 3
  | .signedInteger32Bit => 4
  | .unsignedInteger32Bit => 5

def IntType.width : IntType → ℕ
  | .signedInteger8Bit | .unsignedInteger8Bit => 1
  | .signedInteger16Bit | .unsignedInteger16Bit => 2
  | .signedInteger32Bit | .unsignedInteger32Bit => 4

def IntType.signed : IntType → Bool
  | .signedInteger8Bit | .signedInteger16Bit | .signedInteger32Bit => true
  | .unsignedInteger8Bit | .unsignedInteger16Bit | .unsignedInteger32Bit => false

/-- The field type for which `cainfo` chooses it. -/
def IntType.fieldType : IntType → FieldType
  | .signedInteger8Bit => .char
  | .unsignedInteger8Bit => .uchar
  | .signedInteger16Bit => .short
  | .unsignedInteger16Bit => .ushort
  | .signedInteger32Bit => .long
  | .unsignedInteger32Bit => .ulong

/-- The value is one of the type. -/
def IntType.Fits (t : IntType) (v : ℤ) : Prop := InRange t.signed t.width v

def IntType.bytes (t : IntType) (v : ℤ) : List UInt8 := intBytes t.width v

/-- What some bytes are, read as a value of the type. -/
def IntType.read (t : IntType) (bs : List UInt8) : ℤ := ofBytes t.signed bs

variable {a b t : IntType} {v : ℤ} {r : DiodeReceiver} {env : Env} {threadId i : ℕ} {s : Store}
  {st st' : Service} {p : List UInt8} {h : Header} {data : Memory}

/-- The type ids and sizes of the sender are those of the receiver's table. -/
theorem IntType.info_fieldType (t : IntType) :
    t.fieldType.info = (t.width, t.typeId) ∧ descriptorSize t.typeId = t.width := by
  cases t <;> decide

theorem IntType.width_pos (t : IntType) : 0 < t.width := by cases t <;> decide

theorem IntType.width_lt (t : IntType) : t.width < 2 ^ 32 := by cases t <;> decide

theorem IntType.typeId_lt (t : IntType) : t.typeId.toNat < numberOfTypes := by cases t <;> decide

@[simp] theorem IntType.length_bytes (t : IntType) (v : ℤ) : (t.bytes v).length = t.width :=
  length_intBytes _ _

theorem IntType.Fits.read_eq_iff (hv : t.Fits v) {bs : List UInt8} (hlen : bs.length = t.width) :
    t.read bs = v ↔ bs = t.bytes v :=
  ofBytes_eq_iff hv hlen

/-- The bytes of a wider type are those of a narrower one and copies of the sign. -/
theorem IntType.Fits.bytes_wider (hv : a.Fits v) (hle : a.width ≤ b.width) :
    b.bytes v = a.bytes v ++ List.replicate (b.width - a.width) (signByte v) := by
  have hext := intBytes_extend hv (b.width - a.width)
  rwa [Nat.add_sub_cancel' hle] at hext

/-! ### What is stored -/

/-- The PV is one integer of the type. -/
structure Scalar (r : DiodeReceiver) (i : ℕ) (t : IntType) : Prop where
  numberOfElements : (r.pvs i).numberOfElements = 1
  totalSize : (r.pvs i).totalSize = t.width

/-- The frame with this header, and its value and what follows, is one for an integer of the type. -/
structure Carries (t : IntType) (v : ℤ) (h : Header) (data : Memory) : Prop where
  info : (h.receivedSize, h.receivedTypeId) = t.fieldType.info
  offset : h.receivedOffset = 0
  value : readAt data 0 t.width = t.bytes v

theorem Carries.size (hc : Carries t v h data) : h.receivedSize = t.width :=
  (Prod.mk.inj (hc.info.trans t.info_fieldType.1)).1

theorem Carries.typeId (hc : Carries t v h data) : h.receivedTypeId = t.typeId :=
  (Prod.mk.inj (hc.info.trans t.info_fieldType.1)).2

/-- `TypeConvert` to the type of the PV is exact on the integers of both types. -/
def Env.ConvertsExactly (env : Env) (i : ℕ) (b : IntType) : Prop :=
  ∀ (a : IntType) (v : ℤ) (source : Memory) (old : List UInt8),
  a.Fits v → b.Fits v → readAt source 0 a.width = a.bytes v → env.typeConvert i a.typeId source old =
    b.bytes v

theorem Carries.controlOk_iff (hc : Carries a v h data) (hN : i < r.numberOfVariables) (hs : Scalar r i b) :
    (r.localAt h i).controlOk = true ↔ a.width ≤ b.width := by
  have hpos := b.width_pos
  rw [Receiver.controlOk_iff hN, hs.totalSize, hc.size, hc.offset, Nat.add_zero, u32_of_lt a.width_lt]
  exact ⟨fun hok => hok.2, fun hle => ⟨hpos, hle⟩⟩

/-- A value that fits is copied, and the rest of the slot stays. -/
theorem Carries.stored_narrow (hc : Carries a v h data) (hN : i < r.numberOfVariables)
    (hs : Scalar r i b) (hle : a.width ≤ b.width) :
    readAt (r.readVarValue env threadId s data h (r.localAt h i)).memory (r.offset i) b.width =
      a.bytes v ++ readAt s.memory (r.offset i + a.width) (b.width - a.width) := by
  have hok := (hc.controlOk_iff hN hs).mpr hle
  have hindex : (r.localAt h i).index = i := rfl
  have hlen : (readAt data 0 a.width).length = a.width := length_readAt
  have hsplit : b.width = a.width + (b.width - a.width) := (Nat.add_sub_cancel' hle).symm
  rw [readVarValue_memory hN, DiodeReceiver.writes, if_pos hok, hindex, hs.totalSize, hc.size,
    hc.offset, Nat.add_zero]
  show readAt (writeAt (writeAt s.memory (r.offset i) (readAt data 0 a.width)) (r.offset i + b.width)
    (readAt data a.width 8)) (r.offset i) b.width = _
  rw [readAt_writeAt_of_disjoint (.inl le_rfl), hsplit, readAt_add, ← hsplit, readAt_writeAt_readAt, hc.value,
    readAt_writeAt_of_disjoint (.inr (by rw [IntType.length_bytes]))]

/-- Any other value is converted. -/
theorem Carries.stored_wide (hc : Carries a v h data) (hN : i < r.numberOfVariables) (hs : Scalar r i b)
    (hlt : b.width < a.width) (henv : Env.ConvertsExactly env i b) (ha : a.Fits v) (hb : b.Fits v) :
    readAt (r.readVarValue env threadId s data h (r.localAt h i)).memory (r.offset i) b.width =
      b.bytes v := by
  have hnot : ¬ (r.localAt h i).controlOk = true :=
    fun hok => Nat.not_le.mpr hlt ((hc.controlOk_iff hN hs).mp hok)
  have hconvert : h.receivedOffset = 0 ∧ h.receivedTypeId.toNat < numberOfTypes :=
    ⟨hc.offset, hc.typeId ▸ a.typeId_lt⟩
  have hindex : (r.localAt h i).index = i := rfl
  have hbytes := henv a v data (readAt s.memory (r.offset i) b.width) ha hb hc.value
  rw [readVarValue_memory hN, DiodeReceiver.writes, if_neg hnot, if_pos hconvert, hindex, hs.totalSize,
    hc.typeId, hbytes]
  have hslot : readAt (writeAt s.memory (r.offset i) (b.bytes v)) (r.offset i) (b.bytes v).length =
    b.bytes v := readAt_writeAt
  rwa [IntType.length_bytes] at hslot

/-- The integer in the slot afterwards. -/
theorem Carries.read_iff (threadId : ℕ) (s : Store) (hc : Carries a v h data)
    (hN : i < r.numberOfVariables) (hs : Scalar r i b)
    (henv : Env.ConvertsExactly env i b) (ha : a.Fits v) (hb : b.Fits v) :
    b.read (readAt (r.readVarValue env threadId s data h (r.localAt h i)).memory (r.offset i) b.width) = v ↔
      b.width ≤ a.width ∨ readAt s.memory (r.offset i + a.width) (b.width - a.width) =
        List.replicate (b.width - a.width) (signByte v) := by
  rw [hb.read_eq_iff length_readAt]
  rcases Nat.lt_or_ge b.width a.width with hlt | hge
  · exact iff_of_true (hc.stored_wide hN hs hlt henv ha hb) (.inl hlt.le)
  · rw [hc.stored_narrow hN hs hge, ha.bytes_wider hge, List.append_cancel_left_eq]
    refine ⟨.inr, fun hor => hor.elim (fun hle => ?_) id⟩
    rw [Nat.sub_eq_zero_of_le hle]
    rfl

/-! ### A turn of the consuming loop -/

/-- What the turn that has read `h` stores. -/
theorem stores_store (hread : ReadVarNameAndIndex r env st.payload (p, some h))
    (hi : (r.getLocalIndex env st.store h).index = i)
    (hst : Service.Stores r env threadId st st') : st'.store =
      r.readVarValue env threadId (r.remember env st.store h) (bufferAt env p (h.dataPtr + 4)) h
        (r.localAt h i) := by
  obtain ⟨p', h', hread', -, rfl⟩ := hst
  cases hread.unique hread'
  rw [← hi]
  rfl

/-- **The number is kept** by the turn that stores its frame exactly if the slot has no bytes that are not
copied, or these repeat the sign of the number. -/
theorem number_kept_iff (r : DiodeReceiver) (env : Env) (threadId : ℕ) (a b : IntType) (v : ℤ) (i : ℕ)
    (hN : i < r.numberOfVariables) (hs : Scalar r i b) (henv : Env.ConvertsExactly env i b)
    (ha : a.Fits v) (hb : b.Fits v)
    (hread : ReadVarNameAndIndex r env st.payload (p, some h))
    (hi : (r.getLocalIndex env st.store h).index = i)
    (hc : Carries a v h (bufferAt env p (h.dataPtr + 4))) (hst : Service.Stores r env threadId st st') :
    b.read (readAt st'.store.memory (r.offset i) b.width) = v ↔
      b.width ≤ a.width ∨ readAt st.store.memory (r.offset i + a.width) (b.width - a.width) =
        List.replicate (b.width - a.width) (signByte v) := by
  have hiff := hc.read_iff threadId (r.remember env st.store h) hN hs henv ha hb
  rwa [remember_memory, ← stores_store hread hi hst] at hiff

/-! ### One PV -/

/-- A receiver of one PV `A`, an integer. -/
def scalarPv (t : IntType) : DiodeReceiver where
  numberOfVariables := 1
  maxArraySize := 1
  maxNumberOfThreads := 1
  pvs := fun _ => ⟨[65], t.typeId.toNat, 1, t.width⟩
  vars_lt := (onePv 1).vars_lt
  size_lt := fun _ => t.width_lt

/-- The type with a type id. -/
def IntType.ofTypeId (typeId : UInt8) : Option IntType :=
  [signedInteger8Bit, unsignedInteger8Bit, signedInteger16Bit, unsignedInteger16Bit, signedInteger32Bit,
    unsignedInteger32Bit][typeId.toNat]?

/-- A conversion of integers to a type. -/
def integerEnv (t : IntType) : Env where
  compare := fun x y => if x = y then 0 else 1
  typeConvert :=
    fun _ typeId source old =>
    ((IntType.ofTypeId typeId).map fun a => t.bytes (a.read (readAt source 0 a.width))).getD old
  beyond := fun _ => 0

theorem integerEnv_converts (t : IntType) : Env.ConvertsExactly (integerEnv t) i t := by
  intro a v source old ha _ hsource
  have hfrom : IntType.ofTypeId a.typeId = some a := by cases a <;> rfl
  show ((IntType.ofTypeId a.typeId).map fun a => t.bytes (a.read (readAt source 0 a.width))).getD old =
    t.bytes v
  rw [hfrom, Option.map_some, Option.getD_some, hsource]
  exact congrArg t.bytes (ofBytes_intBytes ha)

theorem scalarPv_scalar (t : IntType) : Scalar (scalarPv t) i t := ⟨rfl, rfl⟩

/-- The frame of an integer for `A`. -/
def integerFrame (t : IntType) (v : ℤ) : Frame :=
  ⟨[65], 0, t.typeId, t.width, 0, t.bytes v, List.replicate 8 0⟩

theorem integerFrame_accepts (t u : IntType) (v : ℤ) : Accepts (scalarPv u) (integerFrame t v) where
  name_le := show 1 ≤ 64 by decide
  name_quote := show quote ∉ [65] by decide
  name_nul := show 0 ∉ [65] by decide
  index_lt := show 0 < 1 by decide
  size_lt := show t.width < 8 * 1 by cases t <;> decide
  offset_lt := show 0 < 2 ^ 32 by decide
  value_length := t.length_bytes v
  timeStamp_length := rfl

/-- A payload of one such frame: it is read, it is for the one PV, and it is stored. -/
theorem integerFrame_stored (t u : IntType) (v : ℤ) (s : Store) (hs : s.pvMapping 0 = indexInitId) :
    ∃ h st', ReadVarNameAndIndex (scalarPv u) (integerEnv u) (integerFrame t v).encode
      ((integerFrame t v).encode, some h) ∧
      ((scalarPv u).getLocalIndex (integerEnv u) s h).index = 0 ∧
      Carries t v h (bufferAt (integerEnv u) (integerFrame t v).encode (h.dataPtr + 4)) ∧
      Service.Stores (scalarPv u) (integerEnv u) 0 ⟨(integerFrame t v).encode, s, []⟩ st' := by
  have hacc := integerFrame_accepts t u v
  have hp : (integerFrame t v).encode <+: (integerFrame t v).encode ++ [] := by rw [List.append_nil]
  have hlen : (integerFrame t v).encode.length = 1 + t.width + 27 := length_encode hacc.shaped
  have hname : (integerFrame t v).name.length = 1 := rfl
  have hwidth := t.width_lt
  have hsmall : t.width < 8 := hacc.size_lt
  have hread : ReadVarNameAndIndex (scalarPv u) (integerEnv u) (integerFrame t v).encode
      ((integerFrame t v).encode,
        some (headerOf (integerEnv u) (integerFrame t v).encode (integerFrame t v))) :=
    readVarNameAndIndex_header hsmall hacc hp (by omega) (by omega)
  have hproc := getLocalIndex_processedSize (integerEnv u) (integerFrame t v).encode hacc s
  refine ⟨_, _, hread, ?_,
    ⟨t.info_fieldType.1.symm, headerOf_offset hacc hp (by omega),
    (readAt_behind (integerEnv u) hacc.shaped hp le_rfl).1⟩,
    _, _, hread, ?_, rfl⟩
  · have hsearch : (scalarPv u).getLocalVariableIndex (integerEnv u) [65] = (true, 0) := by
      rw [DiodeReceiver.getLocalVariableIndex, DiodeReceiver.searchFrom]
      simp [scalarPv, integerEnv]
    have hempty :
      s.pvMapping (headerOf (integerEnv u) (integerFrame t v).encode (integerFrame t v)).receivedIndex =
      indexInitId := hs
    have hvar : (headerOf (integerEnv u) (integerFrame t v).encode (integerFrame t v)).varName = [65] := by
      simp [headerOf, searchName, integerFrame]
    show (scalarPv u).resolve (integerEnv u) s _ = 0
    rw [DiodeReceiver.resolve, if_pos hempty, hvar, hsearch]
    rfl
  · rw [hproc, u32_of_lt (by omega)]

/-- `-3` as 32 bits arrives at a PV of 16 bits. -/
theorem number_kept_narrowed :
    ∃ st', Service.Stores (scalarPv .signedInteger16Bit) (integerEnv .signedInteger16Bit) 0
      ⟨(integerFrame .signedInteger32Bit (-3)).encode, .start, []⟩ st' ∧
    IntType.signedInteger16Bit.read (readAt st'.store.memory 0 2) = -3 := by
  obtain ⟨h, st', hread, hi, hc, hst⟩ :=
    integerFrame_stored .signedInteger32Bit .signedInteger16Bit (-3) .start rfl
  exact ⟨st', hst,
    (number_kept_iff _ _ 0 .signedInteger32Bit .signedInteger16Bit (-3) 0 Nat.one_pos (scalarPv_scalar _)
    (integerEnv_converts _) (show InRange true 4 (-3) by decide)
    (show InRange true 2 (-3) by decide) hread hi hc hst).mpr
    (.inl (by decide))⟩

/-- `5` as 8 bits does not arrive at a PV of 32 bits that holds `256`. -/
theorem number_not_kept :
    ¬ ∀ (r : DiodeReceiver) (env : Env) (threadId : ℕ) (a b : IntType) (v : ℤ) (i : ℕ) (st st' : Service)
    (p : List UInt8) (h : Header), i < r.numberOfVariables → Scalar r i b →
      Env.ConvertsExactly env i b → a.Fits v → b.Fits v →
    ReadVarNameAndIndex r env st.payload (p, some h) → (r.getLocalIndex env st.store h).index = i →
    Carries a v h (bufferAt env p (h.dataPtr + 4)) → Service.Stores r env threadId st st' →
    b.read (readAt st'.store.memory (r.offset i) b.width) = v := by
  intro hall
  have hs : ({ Store.start with memory := writeAt (fun _ => 0) 0 [0, 1, 0, 0] } : Store).pvMapping 0 =
    indexInitId := rfl
  obtain ⟨h, st', hread, hi, hc, hst⟩ := integerFrame_stored .unsignedInteger8Bit .unsignedInteger32Bit 5 _ hs
  have hb : IntType.unsignedInteger32Bit.Fits 5 := show InRange false 4 5 by decide
  have hkept :=
    hall _ _ _ .unsignedInteger8Bit .unsignedInteger32Bit 5 0 _ _ _ _ Nat.one_pos (scalarPv_scalar _)
    (integerEnv_converts _) (show InRange false 1 5 by decide) hb hread hi hc hst
  have hiff := hc.read_iff 0 ((scalarPv .unsignedInteger32Bit).remember (integerEnv .unsignedInteger32Bit)
    { Store.start with memory := writeAt (fun _ => 0) 0 [0, 1, 0, 0] } h) Nat.one_pos (scalarPv_scalar _)
    (integerEnv_converts _) (show InRange false 1 5 by decide) hb
  rw [remember_memory, ← stores_store hread hi hst] at hiff
  rcases hiff.mp hkept with hle | hslot
  · exact absurd hle (by decide)
  · exact absurd hslot (by decide)

end Hieratika.Diode

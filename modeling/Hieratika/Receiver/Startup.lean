import Hieratika.Receiver.Slots
import Hieratika.Subscriber.Startup
import Mathlib.Algebra.Group.Action.Defs
import Mathlib.Algebra.Order.BigOperators.Group.Finset

/-!
# The start of the receiver

`Start` begins `numberOfInitThreads` threads. Each creates the channels of its range in
`DiodeReceiverCycleLoop` and sizes the PVs; then `Start` places them one behind the other and
allocates the memory. The sizes, the offsets and `totalMemorySize` are `uint32`, and no sum or
product is checked.

A PV can be in the range of two threads, which then both do the same for it: the order in which the
threads come to the PVs is arbitrary. The `AnyType` of a PV, a type and a pointer, is left out, as
is what is printed.

## What is proved

The sizes and the offsets are right, and the slots apart and inside the memory, exactly if all the slots
together have less than `2 ^ 32` bytes (`slots_sound_iff`).
-/

namespace Hieratika.Receiver

open Foundations Subscriber Workers

/-- What EPICS says about a PV: whether `ca_create_channel` is `ECA_NORMAL`, and what `ca_state`,
`ca_element_count` and `ca_field_type` answer. -/
structure RecChannel where
  created : Bool
  connected : Bool
  elementCount : ℕ
  fieldType : ℕ

/-- What `Start` finds. -/
structure RecSetup where
  numberOfVariables : ℕ
  numberOfInitThreads : ℕ
  maxArraySize : ℕ
  /-- As `Initialise` leaves them. -/
  pvs : ℕ → PvRecDescriptor
  channel : ℕ → RecChannel
  /-- `dbf_type_to_text`. -/
  dbfTypeToText : ℕ → FieldType
  variables_lt : numberOfVariables < 2 ^ 32
  threads_pos : 0 < numberOfInitThreads
  threads_lt : numberOfInitThreads < 2 ^ 32
  size_lt : ∀ n, (pvs n).totalSize < 2 ^ 32

/-- `DBF_DOUBLE`. -/
def dbfDouble : ℕ := 6

/-- The `sizeof` in the branches of `DiodeReceiverCycleLoop`; `MAX_STRING_SIZE` is 40. -/
def sizeofField : FieldType → ℕ
  | .double => 8
  | .float => 4
  | .long | .ulong => 4
  | .short | .ushort => 2
  | .char | .uchar => 1
  | .string => 1 * 40
  -- handled as a double
  | .other => 8

/-! ### `DiodeReceiverCycleLoop` -/

/-- `cainfo`: the fields it fills in. -/
def RecChannel.cainfo (ch : RecChannel) (pv : PvRecDescriptor) : PvRecDescriptor :=
  { pv with pvType := ch.fieldType
            numberOfElements := if ch.connected then ch.elementCount else 0 }

/-- A turn of the loop over the range of a thread. -/
def RecSetup.initPv (c : RecSetup) (n : ℕ) (pv : PvRecDescriptor) : PvRecDescriptor :=
  if (c.channel n).created then
    let pv := { (c.channel n).cainfo pv with totalSize := 0 }
    let pv := if c.maxArraySize < pv.numberOfElements then { pv with numberOfElements := 0 } else pv
    if 0 < pv.numberOfElements then
      let epicsTypeName := c.dbfTypeToText pv.pvType
      { pv with totalSize := u32 (sizeofField epicsTypeName * pv.numberOfElements)
                pvType := if epicsTypeName = .other then dbfDouble else pv.pvType }
    else pv
  else pv

/-- The order in which the threads come to the PVs of their ranges. -/
structure RecSetup.Order (c : RecSetup) where
  order : List ℕ
  mem_iff : ∀ n, n ∈ order ↔ ∃ t < c.numberOfInitThreads,
    (cycleLoopRange c.numberOfVariables c.numberOfInitThreads t).Has n

/-- The descriptors when the threads have gone through their ranges. -/
def RecSetup.started (c : RecSetup) (o : c.Order) : ℕ → PvRecDescriptor :=
  o.order.foldl (fun pvs n => Function.update pvs n (c.initPv n (pvs n))) c.pvs

/-! ### `Start` -/

/-- `pvs[n].offset`; behind the last PV this is `totalMemorySize`. -/
def startOffset (pvs : ℕ → PvRecDescriptor) : ℕ → ℕ
  | 0 => 0
  | n + 1 => u32 (startOffset pvs n + ((pvs n).totalSize + 8))

/-! ### What should come out -/

/-- The elements of a PV: those of a connected one, if they are not too many. -/
def RecSetup.elements (c : RecSetup) (n : ℕ) : ℕ :=
  let count := if (c.channel n).connected then (c.channel n).elementCount else 0
  if c.maxArraySize < count then 0 else count

/-- The size of a value, as an unbounded number; a PV without a channel keeps the one it has. -/
def RecSetup.size (c : RecSetup) (n : ℕ) : ℕ :=
  if (c.channel n).created then sizeofField (c.dbfTypeToText (c.channel n).fieldType) * c.elements n
  else (c.pvs n).totalSize

/-- Sizes and offsets are those of unbounded arithmetic, and the slots are apart and inside the memory. -/
structure RecSetup.SlotsSound (c : RecSetup) (pvs : ℕ → PvRecDescriptor) : Prop where
  totalSize : ∀ n < c.numberOfVariables, (pvs n).totalSize = c.size n
  offset : ∀ n < c.numberOfVariables, startOffset pvs n = ∑ i ∈ Finset.range n, (c.size i + 8)
  disjoint : ∀ i < c.numberOfVariables, ∀ j < c.numberOfVariables, i ≠ j →
    startOffset pvs i + ((pvs i).totalSize + 8) ≤ startOffset pvs j ∨
      startOffset pvs j + ((pvs j).totalSize + 8) ≤ startOffset pvs i
  inside : ∀ n < c.numberOfVariables, startOffset pvs n + ((pvs n).totalSize + 8) ≤
    startOffset pvs c.numberOfVariables

variable {c : RecSetup} {o : c.Order} {n : ℕ}

/-! ### The sizes -/

/-- Of the descriptor only the name is kept. -/
theorem initPv_pvName (c : RecSetup) (n : ℕ) (pv : PvRecDescriptor) : (c.initPv n pv).pvName = pv.pvName := by
  unfold RecSetup.initPv
  by_cases hcreated : (c.channel n).created = true
  · rw [if_pos hcreated]
    dsimp only
    split_ifs <;> rfl
  · rw [if_neg hcreated]

/-- Nothing else of it is read. -/
theorem initPv_congr {pv pv' : PvRecDescriptor} (hcreated : (c.channel n).created = true)
    (h : pv.pvName = pv'.pvName) :
    c.initPv n pv = c.initPv n pv' := by
  unfold RecSetup.initPv
  rw [if_pos hcreated, if_pos hcreated]
  unfold RecChannel.cainfo
  dsimp only
  rw [h]

/-- A second thread does the same again. -/
theorem initPv_initPv (c : RecSetup) (n : ℕ) (pv : PvRecDescriptor) :
    c.initPv n (c.initPv n pv) = c.initPv n pv := by
  by_cases hcreated : (c.channel n).created = true
  · exact initPv_congr hcreated (initPv_pvName c n pv)
  · have hkeep : ∀ pv, c.initPv n pv = pv := fun pv => if_neg hcreated
    rw [hkeep, hkeep]

theorem initPv_totalSize (c : RecSetup) (n : ℕ) : (c.initPv n (c.pvs n)).totalSize = u32 (c.size n) := by
  unfold RecSetup.initPv RecSetup.size
  by_cases hcreated : (c.channel n).created = true
  · rw [if_pos hcreated, if_pos hcreated]
    unfold RecChannel.cainfo RecSetup.elements
    dsimp only
    generalize (if (c.channel n).connected = true then (c.channel n).elementCount else 0) = count
    by_cases hmax : c.maxArraySize < count
    · simp [hmax, u32]
    · rw [if_neg hmax, if_neg hmax]
      by_cases hpos : 0 < count
      · rw [if_pos hpos]
      · rw [if_neg hpos, Nat.eq_zero_of_not_pos hpos]
        rfl
  · rw [if_neg hcreated, if_neg hcreated, u32_of_lt (c.size_lt n)]

/-- What the turns do to the PV `n`. -/
theorem foldl_initPv (c : RecSetup) (n : ℕ) : ∀ (order : List ℕ) (pvs : ℕ → PvRecDescriptor),
    order.foldl (fun pvs n => Function.update pvs n (c.initPv n (pvs n))) pvs n =
      if n ∈ order then c.initPv n (pvs n) else pvs n := by
  intro order
  induction order with
  | nil => intro pvs; rfl
  | cons m order ih =>
    intro pvs
    rw [List.foldl_cons, ih]
    by_cases hm : n = m
    · subst hm
      rw [Function.update_self, initPv_initPv, if_pos List.mem_cons_self, ite_self]
    · rw [Function.update_of_ne hm]
      simp only [List.mem_cons, hm, false_or]

/-- The ranges of the threads cover the PVs. -/
theorem started_totalSize (o : c.Order) (hn : n < c.numberOfVariables) :
    (c.started o n).totalSize = u32 (c.size n) := by
  have hmem : n ∈ o.order := (o.mem_iff n).mpr (chunkRange_cover c.variables_lt c.threads_lt c.threads_pos hn)
  rw [RecSetup.started, foldl_initPv, if_pos hmem, initPv_totalSize]

/-! ### The slots -/

/-- The receiver that is started. -/
def RecSetup.receiver (c : RecSetup) (o : c.Order) (maxNumberOfThreads : ℕ)
    (hvars : c.numberOfVariables < 2 ^ 31) : DiodeReceiver where
  numberOfVariables := c.numberOfVariables
  maxArraySize := c.maxArraySize
  maxNumberOfThreads := maxNumberOfThreads
  pvs := c.started o
  vars_lt := hvars
  size_lt n := by
    have hsize : ∀ n, (c.initPv n (c.pvs n)).totalSize < 2 ^ 32 := fun n => by
      rw [initPv_totalSize]
      exact u32_lt _
    rw [RecSetup.started, foldl_initPv]
    split_ifs
    · exact hsize n
    · exact c.size_lt n

/-- `Start` places them as the receiver has them. -/
theorem startOffset_eq (r : DiodeReceiver) : ∀ n, startOffset r.pvs n = r.offset n
  | 0 => rfl
  | n + 1 => by
    rw [startOffset, startOffset_eq r n]
    rfl

/-- The end of the slots, from the sizes. -/
theorem slotsEnd_eq_sum (r : DiodeReceiver) {size : ℕ → ℕ} : ∀ n, (∀ i < n, (r.pvs i).totalSize = size i) →
    r.slotsEnd n = ∑ i ∈ Finset.range n, (size i + 8)
  | 0, _ => rfl
  | n + 1, h => by
    rw [Finset.sum_range_succ, ← slotsEnd_eq_sum r n fun i hi => h i (Nat.lt_succ_of_lt hi),
      ← h n (Nat.lt_succ_self n)]
    rfl

/-- Each slot has 8 bytes at least, and no slot is larger than all of them. -/
theorem le_sum_slots (hn : n < c.numberOfVariables) :
    c.size n + 8 ≤ ∑ i ∈ Finset.range c.numberOfVariables, (c.size i + 8) :=
  Finset.single_le_sum (f := fun i => c.size i + 8) (fun _ _ => Nat.zero_le _) (Finset.mem_range.mpr hn)

theorem numberOfVariables_le_sum (c : RecSetup) :
    c.numberOfVariables * 8 ≤ ∑ i ∈ Finset.range c.numberOfVariables, (c.size i + 8) := by
  have hle := Finset.card_nsmul_le_sum (Finset.range c.numberOfVariables) (fun i => c.size i + 8) 8
    fun i _ => Nat.le_add_left 8 _
  rwa [Finset.card_range, smul_eq_mul] at hle

theorem slotsSound_of_lt (o : c.Order)
    (hlt : ∑ i ∈ Finset.range c.numberOfVariables, (c.size i + 8) < 2 ^ 32) :
    c.SlotsSound (c.started o) := by
  have hvars := numberOfVariables_le_sum c
  have htotal : ∀ n < c.numberOfVariables, (c.started o n).totalSize = c.size n := fun n hn => by
    have hle := le_sum_slots hn
    rw [started_totalSize o hn, u32_of_lt (by omega)]
  let r := c.receiver o 1 (by omega)
  have hends : ∀ n ≤ c.numberOfVariables, r.slotsEnd n = ∑ i ∈ Finset.range n, (c.size i + 8) := fun n hn =>
    slotsEnd_eq_sum r n fun i hi => htotal i (hi.trans_le hn)
  have hfit : r.LayoutFits := by
    show r.slotsEnd c.numberOfVariables < 2 ^ 32
    rwa [hends _ le_rfl]
  have hoffset : ∀ n, startOffset (c.started o) n = r.offset n := startOffset_eq r
  refine ⟨htotal, fun n hn => ?_, fun i hi j hj hne => ?_, fun n hn => ?_⟩
  · rw [hoffset, offset_eq hfit n hn.le, hends n hn.le]
  · rw [hoffset, hoffset]
    exact slots_disjoint hfit hi hj hne
  · rw [hoffset, hoffset]
    exact slot_le_total hfit hn

/-- **The slots do not overlap** exactly if all of them together have less than `2 ^ 32` bytes. -/
theorem slots_sound_iff (c : RecSetup) (o : c.Order) :
    c.SlotsSound (c.started o) ↔ ∑ i ∈ Finset.range c.numberOfVariables, (c.size i + 8) < 2 ^ 32 := by
  refine ⟨fun h => ?_, slotsSound_of_lt o⟩
  rcases hvars : c.numberOfVariables with - | n
  · norm_num
  · have hn : n < c.numberOfVariables := by omega
    have hinside := h.inside n hn
    rw [h.offset n hn, h.totalSize n hn, ← Finset.sum_range_succ (fun i => c.size i + 8), hvars] at hinside
    exact hinside.trans_lt (u32_lt _)

/-- One PV of `2 ^ 29` doubles, in a receiver that takes so many. -/
def largeSetup : RecSetup where
  numberOfVariables := 1
  numberOfInitThreads := 1
  maxArraySize := 2 ^ 29
  pvs _ := ⟨[], 0, 0, 0⟩
  channel _ := ⟨true, true, 2 ^ 29, dbfDouble⟩
  dbfTypeToText _ := .double
  variables_lt := by norm_num
  threads_pos := by norm_num
  threads_lt := by norm_num
  size_lt _ := by norm_num

def largeSetup.order : largeSetup.Order where
  order := [0]
  mem_iff n := by
    have hrange : cycleLoopRange 1 1 0 = ⟨0, 1⟩ := by decide
    show n ∈ [0] ↔ ∃ t < 1, (cycleLoopRange 1 1 t).Has n
    simp [hrange, Range.Has]

/-- `totalSize` is 0 there: its 32 bits are all there is of `2 ^ 32`. -/
theorem slots_not_sound :
    ¬ ∀ (c : RecSetup) (o : c.Order), (∀ n < c.numberOfVariables, (c.channel n).created = true ∧
    (c.channel n).connected = true ∧ (c.channel n).elementCount ≤ c.maxArraySize) →
      c.SlotsSound (c.started o) := by
  intro h
  have hsound := h largeSetup largeSetup.order fun _ _ => ⟨rfl, rfl, le_rfl⟩
  have htotal := hsound.totalSize 0 (by decide)
  have hsize : largeSetup.size 0 = 2 ^ 32 := by decide
  rw [started_totalSize largeSetup.order (by decide), hsize] at htotal
  exact absurd htotal (by decide)

end Hieratika.Receiver

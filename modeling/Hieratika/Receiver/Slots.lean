import Hieratika.Receiver.Store

/-!
# The slots of the receiver's buffer

`Start` gives every PV a slot `[offset, offset + totalSize + 8)`. As long as the running sum
fits in 32 bits (`LayoutFits`) the slots lie one behind the other, and a write inside one of
them leaves the others alone.

`readVarValue` writes inside the slot of its PV unless the 32-bit sum of size and offset in
the test of `GetLocalIndex` has wrapped (`writes_inside`).
-/

namespace Hieratika.Receiver

open Foundations

variable {r : DiodeReceiver} {env : Env} {s : Store} {h : Header} {l : Local} {data : Memory}
  {threadId i j n : ℕ}

/-! ### The layout -/

/-- Where the slots of the first `n` PVs end, as an unbounded number. -/
def DiodeReceiver.slotsEnd (r : DiodeReceiver) : ℕ → ℕ
  | 0 => 0
  | n + 1 => r.slotsEnd n + ((r.pvs n).totalSize + 8)

/-- The running sum of `Start` does not wrap. -/
def DiodeReceiver.LayoutFits (r : DiodeReceiver) : Prop := r.slotsEnd r.numberOfVariables < 2 ^ 32

theorem slotsEnd_mono : ∀ {m n : ℕ}, m ≤ n → r.slotsEnd m ≤ r.slotsEnd n := by
  intro m n hmn
  induction hmn with
  | refl => exact le_rfl
  | step _ ih => exact ih.trans (Nat.le_add_right _ _)

theorem offset_eq (hfit : r.LayoutFits) : ∀ n ≤ r.numberOfVariables, r.offset n = r.slotsEnd n := by
  intro n
  induction n with
  | zero => intro _; rfl
  | succ n ih =>
    intro hn
    have hlt : r.slotsEnd (n + 1) < 2 ^ 32 := (slotsEnd_mono hn).trans_lt hfit
    show u32 (r.offset n + _) = _
    rw [ih (by omega)]
    exact u32_of_lt hlt

/-- **Slots do not overlap.** -/
theorem slots_disjoint (hfit : r.LayoutFits) (hi : i < r.numberOfVariables) (hj : j < r.numberOfVariables)
    (hne : i ≠ j) : r.offset i + ((r.pvs i).totalSize + 8) ≤ r.offset j ∨
      r.offset j + ((r.pvs j).totalSize + 8) ≤ r.offset i := by
  rw [offset_eq hfit i (by omega), offset_eq hfit j (by omega)]
  rcases Nat.lt_or_gt_of_ne hne with hlt | hgt
  · exact Or.inl (slotsEnd_mono (n := j) hlt)
  · exact Or.inr (slotsEnd_mono (n := i) hgt)

/-- The slots end where the buffer ends. -/
theorem slot_le_total (hfit : r.LayoutFits) (hi : i < r.numberOfVariables) :
    r.offset i + ((r.pvs i).totalSize + 8) ≤ r.offset r.numberOfVariables := by
  rw [offset_eq hfit i (by omega), offset_eq hfit _ le_rfl]
  exact slotsEnd_mono (m := i + 1) hi

/-! ### Writes -/

/-- A write lies in the slot of the PV `i`. -/
def DiodeReceiver.Inside (r : DiodeReceiver) (i : ℕ) (w : ℕ × List UInt8) : Prop :=
  r.offset i ≤ w.1 ∧ w.1 + w.2.length ≤ r.offset i + (r.pvs i).totalSize + 8

theorem writeAll_of_notMem {x : ℕ} : ∀ {ws : List (ℕ × List UInt8)} {m : Memory},
    (∀ w ∈ ws, x < w.1 ∨ w.1 + w.2.length ≤ x) → writeAll m ws x = m x := by
  intro ws
  induction ws with
  | nil => intro m _; rfl
  | cons w ws ih =>
    intro m hx
    show writeAll (writeAt m w.1 w.2) ws x = _
    rw [ih fun v hv => hx v (by simp [hv])]
    exact writeAt_of_notMem (hx w (by simp))

/-- A frame for the PV `i` passes the test of `GetLocalIndex` only because the 32-bit sum of its size
and offset wraps. -/
def DiodeReceiver.Overflows (r : DiodeReceiver) (h : Header) (i : ℕ) : Prop :=
  i < r.numberOfVariables ∧ 0 < (r.pvs i).totalSize ∧ 2 ^ 32 ≤ h.receivedSize + h.receivedOffset ∧
    u32 (h.receivedSize + h.receivedOffset) ≤ (r.pvs i).totalSize

/-- The admission test of `GetLocalIndex`. -/
theorem controlOk_iff (hi : i < r.numberOfVariables) :
    (r.localAt h i).controlOk = true ↔ 0 < (r.pvs i).totalSize ∧
      u32 (h.receivedSize + h.receivedOffset) ≤ (r.pvs i).totalSize := by
  simp only [DiodeReceiver.localAt, if_pos hi, Bool.and_eq_true, decide_eq_true_eq]

/-- A frame that does not overflow fits whenever it is copied as it is. -/
theorem fits_of_not_overflows (hi : i < r.numberOfVariables) (hov : ¬ r.Overflows h i)
    (hc : (r.localAt h i).controlOk = true) : h.receivedOffset + h.receivedSize ≤ (r.pvs i).totalSize := by
  obtain ⟨hpos, hle⟩ := (controlOk_iff hi).mp hc
  have hlt : h.receivedSize + h.receivedOffset < 2 ^ 32 := by
    by_contra hge
    exact hov ⟨hi, hpos, by omega, hle⟩
  rw [u32_of_lt hlt] at hle
  omega

/-- **What a frame writes lies in its slot**, if it does not overflow. -/
theorem writes_inside (hconv : env.Converts r) (hi : i < r.numberOfVariables) (hov : ¬ r.Overflows h i) :
    ∀ w ∈ r.writes env s data h (r.localAt h i), r.Inside i w := by
  intro w hw
  unfold DiodeReceiver.writes at hw
  rw [show (r.localAt h i).index = i from rfl] at hw
  dsimp only at hw
  split_ifs at hw with hc hz
  · have hle := fits_of_not_overflows hi hov hc
    simp only [List.mem_cons, List.not_mem_nil, or_false] at hw
    rcases hw with rfl | rfl
    · constructor
      · exact Nat.le_add_right _ _
      · simp only [length_readAt]; omega
    · constructor
      · exact Nat.le_add_right _ _
      · simp only [length_readAt]; omega
  · simp only [List.mem_cons, List.not_mem_nil, or_false] at hw
    subst hw
    have hlen := hconv i h.receivedTypeId data (readAt s.memory (r.offset i) (r.pvs i).totalSize)
    exact ⟨le_rfl, by simp only; omega⟩
  · simp at hw

/-! ### A whole value -/

/-- The frame carries a whole value of the local PV `i`. -/
def DiodeReceiver.WholeFrame (r : DiodeReceiver) (i : ℕ) (h : Header) : Prop :=
  h.receivedSize = (r.pvs i).totalSize ∧ h.receivedOffset = 0

theorem not_overflows_of_whole (hw : r.WholeFrame i h) : ¬ r.Overflows h i := by
  rintro ⟨-, -, hge, -⟩
  rw [hw.1, hw.2] at hge
  exact absurd (r.size_lt i) (by omega)

theorem writes_whole (hi : i < r.numberOfVariables) (hpos : 0 < (r.pvs i).totalSize) (hw : r.WholeFrame i h) :
    r.writes env s data h (r.localAt h i) = [(r.offset i, readAt data 0 (r.pvs i).totalSize),
      (r.offset i + (r.pvs i).totalSize, readAt data (r.pvs i).totalSize 8)] := by
  have hok : (r.localAt h i).controlOk = true :=
    (controlOk_iff hi).mpr ⟨hpos, by rw [hw.1, hw.2, Nat.add_zero, u32_of_lt (r.size_lt i)]⟩
  rw [DiodeReceiver.writes, if_pos hok, hw.1, hw.2]
  rfl

/-! ### The other PVs -/

theorem compareAndFlag_memory (ptr n i : ℕ) : (s.compareAndFlag ptr n i).memory = s.memory := by
  unfold Store.compareAndFlag
  split_ifs <;> rfl

theorem compareAndFlag_memoryPrec_of_notMem {ptr n i x : ℕ} (hx : x < ptr ∨ ptr + n ≤ x) :
    (s.compareAndFlag ptr n i).memoryPrec x = s.memoryPrec x := by
  unfold Store.compareAndFlag
  split_ifs
  · exact writeAt_of_notMem (by simpa using hx)
  · rfl

/-- The store after a frame for a PV that is here. -/
theorem readVarValue_memory (hi : l.index < r.numberOfVariables) :
    (r.readVarValue env threadId s data h l).memory = writeAll s.memory (r.writes env s data h l) := by
  unfold DiodeReceiver.readVarValue
  rw [if_pos hi, compareAndFlag_memory]

/-- **A whole value is stored with its time stamp.** -/
theorem readVarValue_slot (env : Env) (threadId : ℕ) (s : Store) (data : Memory)
    (hi : i < r.numberOfVariables) (hpos : 0 < (r.pvs i).totalSize) (hw : r.WholeFrame i h) :
    readAt (r.readVarValue env threadId s data h (r.localAt h i)).memory (r.offset i)
      ((r.pvs i).totalSize + 8) =
      readAt data 0 ((r.pvs i).totalSize + 8) := by
  rw [readVarValue_memory hi, writes_whole hi hpos hw, readAt_add, readAt_add, Nat.zero_add]
  show readAt (writeAt (writeAt _ _ _) _ _) _ _ ++ readAt (writeAt (writeAt _ _ _) _ _) _ _ = _
  rw [readAt_writeAt_of_disjoint (Or.inl le_rfl), readAt_writeAt_readAt, readAt_writeAt_readAt]

theorem readVarValue_memoryPrec_of_notMem (hi : l.index < r.numberOfVariables) {x : ℕ}
    (hx : x < r.offset l.index ∨ r.offset l.index + (r.pvs l.index).totalSize ≤ x) :
    (r.readVarValue env threadId s data h l).memoryPrec x = s.memoryPrec x := by
  unfold DiodeReceiver.readVarValue
  rw [if_pos hi]
  exact compareAndFlag_memoryPrec_of_notMem hx

/-- **Frame**: the slots of the other PVs are as before. -/
theorem readVarValue_other (threadId : ℕ) (hfit : r.LayoutFits)
    (hin : l.index < r.numberOfVariables → ∀ w ∈ r.writes env s data h l, r.Inside l.index w)
    (hj : j < r.numberOfVariables) (hne : l.index ≠ j) {k : ℕ} (hk : k < (r.pvs j).totalSize + 8) :
    (r.readVarValue env threadId s data h l).memory (r.offset j + k) = s.memory (r.offset j + k) ∧
      (r.readVarValue env threadId s data h l).memoryPrec (r.offset j + k) =
        s.memoryPrec (r.offset j + k) := by
  by_cases hi : l.index < r.numberOfVariables
  · have hdisj := slots_disjoint hfit hi hj hne
    constructor
    · rw [readVarValue_memory hi]
      refine writeAll_of_notMem fun w hw => ?_
      obtain ⟨h₁, h₂⟩ := hin hi w hw
      omega
    · exact readVarValue_memoryPrec_of_notMem hi (by omega)
  · unfold DiodeReceiver.readVarValue
    rw [if_neg hi]
    exact ⟨rfl, rfl⟩

end Hieratika.Receiver

import Hieratika.Sender.SendVariables
import Hieratika.Sender.Sweep

/-!
# Which slices are sent whole

A pool thread has `n` entries in its slice and writes at most `n` frames in a message. A PV
larger than `maxVarSize` needs several frames, so a message can end within a PV or exactly
behind a PV of several frames. In the first case the source goes on with the next entry
(`cntVariables++` is unconditional) and the rest of the PV is never sent. In the second the
last `varOffset += actualSize` is skipped, the offset of the last frame is not reset, and the
next PV with data starts there instead of at `0`.

`sendVariables_tiles_iff` says that these are the only two ways to go wrong: on a connection
without errors every PV of the slice is tiled by its frames exactly when no PV of two or more
frames crosses the end of a message (`W pre % n + q ≤ n`), and after one that ends there the
next PV with elements has no bytes.

The proof follows the slice entry by entry (`Clean`): a run that is clean so far has
`varOffset = 0`, except behind a PV that ended with its message.
-/

namespace Hieratika.Sender

open Foundations Subscriber Diode

variable {c : Config} {m : Memory} {list : ℕ → ℕ} {n sig : ℕ}

/-! ### What a slice should look like on the wire -/

/-- The frames tile the value of the PV `sig` from `offset` on, each with the bytes that are there. -/
def Tiles (c : Config) (m : Memory) (sig : ℕ) : ℕ → List Frame → Prop
  | offset, [] => offset = (c.pvDes sig).totalSize
  | offset, f :: fs => f.index = sig ∧ f.offset = offset ∧ 0 < f.size ∧
      f.value = readAt m ((c.pvDes sig).offset + offset) f.size ∧ Tiles c m sig (offset + f.size) fs

/-- What the slice entry `sig` must produce: nothing without elements, and a tiling of its bytes. -/
def Delivered (c : Config) (m : Memory) (sig : ℕ) (fs : List Frame) : Prop :=
  ((c.pvDes sig).numberOfElements = 0 → fs = []) ∧ (0 < (c.pvDes sig).totalSize → Tiles c m sig 0 fs)

/-- The PVs of a slice of `n` entries. -/
def slice (c : Config) (list : ℕ → ℕ) (listIndex n : ℕ) : List ℕ :=
  (List.range n).map fun d => list (ringPos c.numberOfVariables listIndex d)

/-- `(numberOfElements > 0u) && (memorySize > 0u)`. -/
def HasElements (pv : PvDescriptor) : Prop := 0 < pv.numberOfElements ∧ 0 < pv.memorySize

instance : DecidablePred HasElements := fun _ => inferInstanceAs (Decidable (_ ∧ _))

/-- How many frames the bytes of a PV need. -/
def frameCount (maxVarSize totalSize : ℕ) : ℕ := (totalSize + maxVarSize - 1) / maxVarSize

/-- How far a PV moves `i`: its frames, or one if it is skipped. -/
def weight (maxVarSize : ℕ) (pv : PvDescriptor) : ℕ :=
  if HasElements pv then frameCount maxVarSize pv.totalSize else 1

/-- No PV of several frames crosses the end of a message of `n` frames, and behind one that ends
with its message the next PV with elements has no bytes. -/
def FitsMessages (n maxVarSize : ℕ) (pvs : List PvDescriptor) : Prop :=
  ∀ pre pv post, pvs = pre ++ pv :: post → 2 ≤ weight maxVarSize pv →
    (pre.map (weight maxVarSize)).sum % n + weight maxVarSize pv ≤ n ∧
      (n ∣ (pre.map (weight maxVarSize)).sum + weight maxVarSize pv →
        ∀ x, post.find? (HasElements ·) = some x → x.totalSize = 0)

/-! ### The frames of one PV -/

section frameCount

variable {k t : ℕ}

@[simp] theorem frameCount_zero (hk : 0 < k) : frameCount k 0 = 0 := by
  unfold frameCount
  exact Nat.div_eq_of_lt (by omega)

theorem frameCount_of_le (ht : 0 < t) (h : t ≤ k) : frameCount k t = 1 := by
  unfold frameCount
  rw [show t + k - 1 = (t - 1) + k by omega, Nat.add_div_right _ (by omega), Nat.div_eq_of_lt (by omega)]

/-- A full frame leaves one frame less. -/
theorem frameCount_of_gt (hk : 0 < k) (h : k < t) : frameCount k t = frameCount k (t - k) + 1 := by
  unfold frameCount
  rw [show t + k - 1 = (t - k + k - 1) + k by omega, Nat.add_div_right _ hk]

theorem frameCount_pos (hk : 0 < k) (ht : 0 < t) : 0 < frameCount k t := by
  unfold frameCount
  exact Nat.div_pos (by omega) hk

/-- All frames but the last do not exhaust the bytes. -/
theorem lt_of_lt_frameCount (hk : 0 < k) {q : ℕ} (h : q < frameCount k t) : q * k < t := by
  unfold frameCount at h
  have := (Nat.le_div_iff_mul_le hk).mp (show q + 1 ≤ _ from h)
  rw [Nat.add_mul] at this
  omega

end frameCount

/-- The first `k` frames of a PV from `varOffset` on. -/
def cut (c : Config) (m : Memory) (sig : ℕ) : ℕ → ℕ → List Frame
  | 0, _ => []
  | k + 1, varOffset =>
    if varOffset < (c.pvDes sig).totalSize then
      frameAt c m sig varOffset :: cut c m sig k (varOffset + (frameAt c m sig varOffset).size)
    else []

variable {varOffset k : ℕ}

theorem frameAt_size : (frameAt c m sig varOffset).size =
    min ((c.pvDes sig).totalSize - varOffset) c.maxVarSize := by
  simp only [frameAt]
  split_ifs <;> omega

/-- A frame is cut short by the end of the PV or by `maxVarSize`; either way it is not empty. -/
theorem frameAt_size_pos (hmax : 0 < c.maxVarSize) (hv : varOffset < (c.pvDes sig).totalSize) :
    0 < (frameAt c m sig varOffset).size := by
  rw [frameAt_size]
  omega

/-- `k` frames tile a PV exactly when it needs no more than `k`. -/
theorem tiles_cut_iff (hmax : 0 < c.maxVarSize) : ∀ k varOffset, varOffset ≤ (c.pvDes sig).totalSize →
    (Tiles c m sig varOffset (cut c m sig k varOffset) ↔
      frameCount c.maxVarSize ((c.pvDes sig).totalSize - varOffset) ≤ k) := by
  intro k
  induction k with
  | zero =>
    intro v hv
    show v = _ ↔ _
    rcases Nat.eq_or_lt_of_le hv with heq | hlt
    · simp [heq, hmax]
    · have := frameCount_pos hmax (show 0 < (c.pvDes sig).totalSize - v by omega)
      constructor <;> intro h <;> omega
  | succ k ih =>
    intro v hv
    unfold cut
    split_ifs with hlt
    · have hpos : 0 < (frameAt c m sig v).size := frameAt_size_pos hmax hlt
      have hsize : (frameAt c m sig v).size = _ := frameAt_size
      have hstep : Tiles c m sig v (frameAt c m sig v ::
          cut c m sig k (v + (frameAt c m sig v).size)) ↔
          Tiles c m sig (v + (frameAt c m sig v).size) (cut c m sig k (v + (frameAt c m sig v).size)) :=
        ⟨fun h => h.2.2.2.2, fun h => ⟨rfl, rfl, hpos, rfl, h⟩⟩
      rw [hstep, ih _ (by omega), hsize]
      by_cases hle : (c.pvDes sig).totalSize - v ≤ c.maxVarSize
      · rw [min_eq_left hle, Nat.add_sub_cancel' hv, Nat.sub_self, frameCount_zero hmax,
          frameCount_of_le (by omega) hle]
        omega
      · rw [min_eq_right (by omega), frameCount_of_gt hmax (t := _ - v) (by omega), Nat.sub_add_eq]
        omega
    · show v = _ ↔ _
      rw [show (c.pvDes sig).totalSize - v = 0 by omega, frameCount_zero hmax]
      constructor <;> intro <;> omega

/-- One turn of the innermost loop on a good connection. -/
theorem sendPv_turn {st : Send} {fs : List Frame} (herr : st.err = false) (hi : st.i < n)
    (hv : st.varOffset < (c.pvDes sig).totalSize) :
    sendPv c .good m n sig st fs = sendPv c .good m n sig { st with
        i := st.i + 1
        varOffset := if st.i + 1 <
          n then st.varOffset + (frameAt c m sig st.varOffset).size else st.varOffset }
      (fs ++ [frameAt c m sig st.varOffset]) := by
  rw [sendPv, dif_pos ⟨hv, by simp [Send.condition, hi, herr]⟩]
  have hturn : sendFrame c .good m n sig st = { st with
      i := st.i + 1
      varOffset := if st.i + 1 < n then st.varOffset + (frameAt c m sig st.varOffset).size
        else st.varOffset } := by
    unfold sendFrame
    simp only [Send.condition, Wire.good, Bool.not_true, Bool.not_false, Bool.and_true, decide_eq_true_eq]
    split_ifs <;> simp [herr]
  rw [hturn]
  rfl

theorem sendPv_stop {st : Send} {fs : List Frame}
    (h : (c.pvDes sig).totalSize ≤ st.varOffset ∨ n ≤ st.i) : sendPv c .good m n sig st fs = (st, fs) := by
  rw [sendPv, dif_neg]
  rintro ⟨hv, hc⟩
  simp only [Send.condition, Bool.and_eq_true, decide_eq_true_eq] at hc
  omega

/-- **The innermost loop** on a good connection: it writes the frames that still go into the message;
the offset ends at the end of the PV if another frame would have fitted in, at the last frame
otherwise. -/
theorem sendPv_good (hmax : 0 < c.maxVarSize) : ∀ (k : ℕ) (st : Send) (fs : List Frame), st.err = false →
    n - st.i = k + 1 → st.varOffset < (c.pvDes sig).totalSize →
    sendPv c .good m n sig st fs =
      (if frameCount c.maxVarSize ((c.pvDes sig).totalSize - st.varOffset) ≤ k then
        { st with i := st.i + frameCount c.maxVarSize ((c.pvDes sig).totalSize - st.varOffset)
                  varOffset := (c.pvDes sig).totalSize }
      else { st with i := n, varOffset := st.varOffset + k * c.maxVarSize },
      fs ++ cut c m sig (k + 1) st.varOffset) := by
  intro k
  induction k with
  | zero =>
    intro st fs herr hk hv
    have hq := frameCount_pos hmax (show 0 < (c.pvDes sig).totalSize - st.varOffset by omega)
    rw [sendPv_turn herr (by omega) hv, sendPv_stop (Or.inr (by dsimp only; omega)), if_neg (by omega),
      if_neg (by omega), cut, if_pos hv, show st.i + 1 = n by omega]
    simp [cut]
  | succ k ih =>
    intro st fs herr hk hv
    have hsize : (frameAt c m sig st.varOffset).size = _ := frameAt_size
    rw [sendPv_turn herr (by omega) hv, if_pos (by omega), cut, if_pos hv]
    by_cases hle : (c.pvDes sig).totalSize - st.varOffset ≤ c.maxVarSize
    · rw [min_eq_left hle] at hsize
      have hend : st.varOffset + (frameAt c m sig st.varOffset).size = (c.pvDes sig).totalSize := by omega
      rw [hend, sendPv_stop (Or.inl le_rfl), frameCount_of_le (by omega) hle, if_pos (by omega)]
      simp [cut]
    · rw [min_eq_right (by omega)] at hsize
      rw [ih _ _ (by exact herr) (by dsimp only; omega) (by dsimp only; omega),
        frameCount_of_gt hmax (t := _ - st.varOffset) (by omega), hsize]
      dsimp only
      rw [Nat.sub_add_eq, List.append_assoc, List.singleton_append]
      congr 1
      split_ifs with h₁ h₂ h₂
      · simp [Nat.add_assoc, Nat.add_comm]
      · omega
      · omega
      · rw [Nat.add_mul, Nat.one_mul]
        simp [Nat.add_assoc, Nat.add_comm]

/-! ### One entry of the slice -/

/-- An entry moves on to the next position and adds its list of frames. -/
def Send.advance (c : Config) (st : Send) (i varOffset : ℕ) (fs : List Frame) : Send :=
  { st with
    i := i, varOffset := varOffset, listIndex := u32 (st.listIndex + 1) % c.numberOfVariables
    cntVariables := st.cntVariables + 1, out := st.out ++ [fs] }

variable {st : Send}

theorem sendEntry_skip (h : ¬ HasElements (c.pvDes (list st.listIndex))) :
    sendEntry c .good m list n st = st.advance c (st.i + 1) st.varOffset [] := by
  unfold sendEntry
  dsimp only
  simp only [HasElements] at h
  rw [if_neg h]
  rfl

/-- Nothing is left of a PV behind its end; the offset is reset. -/
theorem sendEntry_end (h : HasElements (c.pvDes (list st.listIndex)))
    (hv : (c.pvDes (list st.listIndex)).totalSize ≤ st.varOffset) :
    sendEntry c .good m list n st = st.advance c st.i 0 [] := by
  unfold sendEntry
  dsimp only
  simp only [HasElements] at h
  rw [if_pos h, sendPv_stop (Or.inl hv)]
  simp [hv, Send.advance]

/-- Otherwise the frames that still go into the message are written, and the offset is reset if there
was room for one more. -/
theorem sendEntry_cut (hmax : 0 < c.maxVarSize) (h : HasElements (c.pvDes (list st.listIndex)))
    (hv : st.varOffset < (c.pvDes (list st.listIndex)).totalSize) (herr : st.err = false) {k : ℕ}
    (hk : n - st.i = k + 1) :
    sendEntry c .good m list n st =
      (if frameCount c.maxVarSize ((c.pvDes (list st.listIndex)).totalSize - st.varOffset) ≤ k then
        st.advance c (st.i + frameCount c.maxVarSize
          ((c.pvDes (list st.listIndex)).totalSize - st.varOffset)) 0
          (cut c m (list st.listIndex) (k + 1) st.varOffset)
      else st.advance c n (st.varOffset + k * c.maxVarSize)
          (cut c m (list st.listIndex) (k + 1) st.varOffset)) := by
  unfold sendEntry
  dsimp only
  simp only [HasElements] at h
  rw [if_pos h, sendPv_good hmax k st [] herr hk hv, List.nil_append]
  by_cases hq : frameCount c.maxVarSize ((c.pvDes (list st.listIndex)).totalSize - st.varOffset) ≤ k
  · simp [hq, Send.advance]
  · have hlt := lt_of_lt_frameCount hmax (Nat.lt_of_not_le hq)
    rw [if_neg hq, if_neg hq]
    have hne : ¬ (c.pvDes (list st.listIndex)).totalSize ≤ st.varOffset + k * c.maxVarSize := by omega
    simp [Send.advance, hne]

/-- A PV that starts at `0` with room for it in the message. -/
theorem sendEntry_fits (hmax : 0 < c.maxVarSize) (h : HasElements (c.pvDes (list st.listIndex)))
    (hv : st.varOffset = 0) (ht : 0 < (c.pvDes (list st.listIndex)).totalSize) (herr : st.err = false)
    (hi : st.i < n) (hq : st.i + frameCount c.maxVarSize (c.pvDes (list st.listIndex)).totalSize ≤ n) :
    ∃ v, sendEntry c .good m list n st =
        st.advance c (st.i + frameCount c.maxVarSize (c.pvDes (list st.listIndex)).totalSize) v
          (cut c m (list st.listIndex) (n - st.i) 0) ∧
      (v ≠ 0 ↔ st.i + frameCount c.maxVarSize (c.pvDes (list st.listIndex)).totalSize = n ∧
        2 ≤ frameCount c.maxVarSize (c.pvDes (list st.listIndex)).totalSize) := by
  obtain ⟨k, hk⟩ : ∃ k, n - st.i = k + 1 := ⟨n - st.i - 1, by omega⟩
  have hcut := sendEntry_cut (m := m) hmax h (hv ▸ ht) herr hk
  rw [hv, Nat.sub_zero, Nat.zero_add] at hcut
  rw [hk, hcut]
  split_ifs with hle
  · exact ⟨0, rfl, by simp only [ne_eq, not_true_eq_false, false_iff]; omega⟩
  · have hend : st.i + frameCount c.maxVarSize (c.pvDes (list st.listIndex)).totalSize = n := by omega
    rw [hend]
    refine ⟨k * c.maxVarSize, rfl, ?_⟩
    rw [Nat.mul_ne_zero_iff]
    omega

/-! ### The slice, entry by entry -/

/-- The two outer loops from within a message. -/
def resume (c : Config) (m : Memory) (list : ℕ → ℕ) (n left : ℕ) (st : Send) : Send :=
  sendMessages c .good m list n left (sendMessage c .good m list n (n - st.cntVariables) st)

variable {left : ℕ}

theorem resume_done (h : st.cntVariables = n) : resume c m list n left st = st := by
  unfold resume
  rw [h, Nat.sub_self, sendMessage]
  cases left with
  | zero => rfl
  | succ left => rw [sendMessages, if_neg (by omega)]

theorem resume_entry {i v : ℕ} {fs : List Frame} (herr : st.err = false) (hi : st.i < n)
    (hcnt : st.cntVariables < n) (h : sendEntry c .good m list n st = st.advance c i v fs) :
    resume c m list n left st = resume c m list n left (st.advance c i v fs) := by
  unfold resume
  rw [show n - st.cntVariables = n - (st.cntVariables + 1) + 1 by omega, sendMessage,
    if_pos (by simp [Send.condition, hi, herr]), h]
  rfl

/-- A full message is followed by the next one. -/
theorem resume_full (herr : st.err = false) (hi : st.i = n) (hcnt : st.cntVariables < n) :
    resume c m list n (left + 1) st = resume c m list n left { st with i := 0 } := by
  unfold resume
  have hstop : sendMessage c .good m list n (n - st.cntVariables) st = st := by
    rw [show n - st.cntVariables = n - (st.cntVariables + 1) + 1 by omega, sendMessage,
      if_neg (by simp [Send.condition, hi])]
  rw [hstop, sendMessages, if_pos ⟨hcnt, herr⟩]
  simp [Wire.good]

/-- The slice starts within its first message. -/
theorem sendVariables_resume (listIndex : ℕ) : sendVariables c .good m list (n + 1) listIndex =
    resume c m list (n + 1) n ⟨0, listIndex, 0, 0, false, []⟩ := by
  unfold sendVariables resume
  rw [sendMessages, if_pos ⟨by dsimp only; omega, rfl⟩]
  simp [Wire.good]

/-- Before an entry is sent a full message is left; `k` entries come after it. -/
theorem resume_ready (c : Config) (m : Memory) (list : ℕ → ℕ) {k : ℕ} (herr : st.err = false)
    (hi : st.i ≤ n) (hcnt : st.cntVariables < n)
    (hleft : k + 1 ≤ left + if st.i < n then 1 else 0) : ∃ left', resume c m list n left st =
      resume c m list n left' { st with i := st.i % n } ∧ st.i % n < n ∧ k ≤ left' := by
  rcases Nat.lt_or_eq_of_le hi with hlt | heq
  · refine ⟨left, by rw [Nat.mod_eq_of_lt hlt], by rwa [Nat.mod_eq_of_lt hlt], ?_⟩
    rw [if_pos hlt] at hleft
    omega
  · rw [if_neg (by omega)] at hleft
    cases left with
    | zero => omega
    | succ left =>
      refine ⟨left, ?_, Nat.mod_lt _ (by omega), by omega⟩
      rw [resume_full herr heq hcnt, heq, Nat.mod_self]

/-- The condition on a slice, followed entry by entry: `i` frames are in the message, and `carried`
says that the offset was not reset. -/
def Clean (n maxVarSize : ℕ) : ℕ → Bool → List PvDescriptor → Prop
  | _, _, [] => True
  | i, carried, pv :: pvs =>
    if ¬ HasElements pv then Clean n maxVarSize (i % n + 1) carried pvs
    else if pv.totalSize = 0 then Clean n maxVarSize (i % n) false pvs
    else carried = false ∧ i % n + frameCount maxVarSize pv.totalSize ≤ n ∧
      Clean n maxVarSize (i % n + frameCount maxVarSize pv.totalSize)
        (decide (i % n + frameCount maxVarSize pv.totalSize = n ∧ 2 ≤ frameCount maxVarSize pv.totalSize)) pvs

instance decidableClean (n cap : ℕ) : ∀ i carried pvs, Decidable (Clean n cap i carried pvs)
  | _, _, [] => .isTrue trivial
  | i, carried, pv :: pvs =>
    have := decidableClean n cap (i % n + 1) carried pvs
    have := decidableClean n cap (i % n) false pvs
    have := decidableClean n cap (i % n + frameCount cap pv.totalSize)
      (decide (i % n + frameCount cap pv.totalSize = n ∧ 2 ≤ frameCount cap pv.totalSize)) pvs
    decidable_of_iff (if ¬ HasElements pv then Clean n cap (i % n + 1) carried pvs
      else if pv.totalSize = 0 then Clean n cap (i % n) false pvs
      else carried = false ∧ i % n + frameCount cap pv.totalSize ≤ n ∧
        Clean n cap (i % n + frameCount cap pv.totalSize)
          (decide (i % n + frameCount cap pv.totalSize = n ∧ 2 ≤ frameCount cap pv.totalSize)) pvs) Iff.rfl

theorem slice_succ (hN : c.numberOfVariables < 2 ^ 32) {idx : ℕ} (hidx : idx < c.numberOfVariables) (k : ℕ) :
    slice c list idx (k + 1) = list idx :: slice c list (u32 (idx + 1) % c.numberOfVariables) k := by
  have hnext : u32 (idx + 1) % c.numberOfVariables = ringPos c.numberOfVariables idx 1 := by
    rw [u32_of_lt (by omega)]
    rfl
  unfold slice
  rw [List.range_succ_eq_map, List.map_cons, List.map_map, ringPos_zero hidx, hnext]
  congr 2
  funext d
  rw [ringPos_ringPos, Nat.add_comm]
  rfl

theorem delivered_nil (h : (c.pvDes sig).totalSize = 0) : Delivered c m sig [] :=
  ⟨fun _ => rfl, fun ht => by omega⟩

/-- What a PV with bytes must produce. -/
theorem delivered_iff {fs : List Frame} (ht : 0 < (c.pvDes sig).totalSize) :
    Delivered c m sig fs ↔ Tiles c m sig 0 fs := by
  have hne : (c.pvDes sig).numberOfElements ≠ 0 := fun h0 => by
    rw [PvDescriptor.totalSize, h0, Nat.zero_mul] at ht
    exact absurd ht (by decide)
  exact ⟨fun h => h.2 ht, fun h => ⟨fun h0 => absurd h0 hne, fun _ => h⟩⟩

/-- A first frame that does not start at `0`. -/
theorem not_tiles_cut {v : ℕ} (hv : v ≠ 0) (hlt : v < (c.pvDes sig).totalSize) (k : ℕ) :
    ¬ Tiles c m sig 0 (cut c m sig (k + 1) v) := by
  rw [cut, if_pos hlt]
  exact fun h => hv h.2.1

theorem hasElements_of_pos {pv : PvDescriptor} (h : 0 < pv.totalSize) : HasElements pv := by
  have hmul : 0 < pv.numberOfElements * pv.memorySize := h.trans_le (u32_le _)
  exact ⟨Nat.pos_of_mul_pos_right hmul, Nat.pos_of_mul_pos_left hmul⟩

/-- **The walk**: from within a message, the rest of the slice is sent as it should be exactly when
it is clean. -/
theorem resume_delivers (hmax : 0 < c.maxVarSize) (hN : c.numberOfVariables < 2 ^ 32) :
    ∀ (sigs : List ℕ) (left : ℕ) (st : Send), st.err = false → st.i ≤ n →
      st.cntVariables + sigs.length = n → st.listIndex < c.numberOfVariables →
      sigs = slice c list st.listIndex sigs.length → sigs.length ≤ left + (if st.i < n then 1 else 0) →
      ∃ fss, (resume c m list n left st).out = st.out ++ fss ∧
        (List.Forall₂ (Delivered c m) sigs fss ↔
          Clean n c.maxVarSize st.i (decide (st.varOffset ≠ 0)) (sigs.map c.pvDes)) := by
  intro sigs
  induction sigs with
  | nil =>
    intro left st _ _ hcnt _ _ _
    rw [resume_done (by simpa using hcnt)]
    exact ⟨[], by simp, by simp [Clean]⟩
  | cons sig sigs ih =>
    intro left st₀ herr₀ hi₀ hcnt₀ hidx₀ hsl₀ hleft₀
    rw [List.length_cons] at hcnt₀ hsl₀ hleft₀
    obtain ⟨left', hres, hi, hleft⟩ := resume_ready c m list herr₀ hi₀ (by omega) hleft₀
    obtain ⟨st, hst⟩ : ∃ st, st = { st₀ with i := st₀.i % n } := ⟨_, rfl⟩
    rw [← hst] at hres
    replace hi : st.i < n := by rw [hst]; exact hi
    have herr : st.err = false := by rw [hst]; exact herr₀
    have hidx : st.listIndex < c.numberOfVariables := by rw [hst]; exact hidx₀
    have hcnt : st.cntVariables + (sigs.length + 1) = n := by rw [hst]; exact hcnt₀
    have hvo : st₀.varOffset = st.varOffset := by rw [hst]
    have hout : st₀.out = st.out := by rw [hst]
    have him : st₀.i % n = st.i := by rw [hst]
    have hsl : sig :: sigs = slice c list st.listIndex (sigs.length + 1) := by rw [hst]; exact hsl₀
    rw [slice_succ hN hidx, List.cons.injEq] at hsl
    obtain ⟨rfl, hsl⟩ := hsl
    have key : ∀ i v fs, sendEntry c .good m list n st = st.advance c i v fs → i ≤ n →
        (Delivered c m (list st.listIndex) fs ∧
            Clean n c.maxVarSize i (decide (v ≠ 0)) (sigs.map c.pvDes) ↔
          Clean n c.maxVarSize st₀.i (decide (st₀.varOffset ≠ 0))
            ((list st.listIndex :: sigs).map c.pvDes)) →
        ∃ fss, (resume c m list n left st₀).out = st₀.out ++ fss ∧
          (List.Forall₂ (Delivered c m) (list st.listIndex :: sigs) fss ↔
            Clean n c.maxVarSize st₀.i (decide (st₀.varOffset ≠ 0))
              ((list st.listIndex :: sigs).map c.pvDes)) := by
      intro i v fs hentry hin hiff
      obtain ⟨fss, hfss, hrest⟩ := ih left' (st.advance c i v fs) herr hin (by
        simp only [Send.advance]; omega) (Nat.mod_lt _ (by omega)) hsl (by omega)
      refine ⟨fs :: fss, ?_, ?_⟩
      · rw [hres, resume_entry herr hi (by omega) hentry, hfss, hout]
        simp [Send.advance]
      · rw [List.forall₂_cons, hrest]
        exact hiff
    by_cases hel : HasElements (c.pvDes (list st.listIndex))
    · by_cases ht : (c.pvDes (list st.listIndex)).totalSize = 0
      · apply key _ _ _ (sendEntry_end hel (by omega)) hi.le
        simp [Clean, hel, ht, him, delivered_nil ht]
      · have ht' : 0 < (c.pvDes (list st.listIndex)).totalSize := by omega
        by_cases hv : st.varOffset = 0
        · by_cases hq : st.i + frameCount c.maxVarSize (c.pvDes (list st.listIndex)).totalSize ≤ n
          · obtain ⟨v, hentry, hv'⟩ := sendEntry_fits (m := m) hmax hel hv ht' herr hi hq
            apply key _ _ _ hentry hq
            rw [delivered_iff ht', tiles_cut_iff hmax _ 0 (Nat.zero_le _), Nat.sub_zero]
            simp only [List.map_cons, Clean, hel, not_true_eq_false, if_false, ht, hvo, hv, him, hv']
            simp only [ne_eq, not_true_eq_false, decide_false, true_and]
            exact and_congr_left fun _ => by omega
          · obtain ⟨k, hk⟩ : ∃ k, n - st.i = k + 1 := ⟨n - st.i - 1, by omega⟩
            have hentry := sendEntry_cut (m := m) hmax hel (hv ▸ ht') herr hk
            rw [hv, Nat.sub_zero, if_neg (by omega)] at hentry
            apply key _ _ _ hentry le_rfl
            rw [delivered_iff ht', tiles_cut_iff hmax _ 0 (Nat.zero_le _), Nat.sub_zero]
            simp only [List.map_cons, Clean, hel, not_true_eq_false, if_false, ht, him]
            constructor
            · intro h; omega
            · intro h; omega
        · have hbad : ¬ Clean n c.maxVarSize st₀.i (decide (st₀.varOffset ≠ 0))
              ((list st.listIndex :: sigs).map c.pvDes) := by
            simp [Clean, hel, ht, hvo, hv]
          rcases Nat.lt_or_ge st.varOffset (c.pvDes (list st.listIndex)).totalSize with hlt | hge
          · obtain ⟨k, hk⟩ : ∃ k, n - st.i = k + 1 := ⟨n - st.i - 1, by omega⟩
            have hnot : ¬ Delivered c m (list st.listIndex)
                (cut c m (list st.listIndex) (k + 1) st.varOffset) := by
              rw [delivered_iff ht']
              exact not_tiles_cut hv hlt k
            have hentry := sendEntry_cut (m := m) hmax hel hlt herr hk
            by_cases hq : frameCount c.maxVarSize
                ((c.pvDes (list st.listIndex)).totalSize - st.varOffset) ≤ k
            · rw [if_pos hq] at hentry
              exact key _ _ _ hentry (by omega) (iff_of_false (fun h => hnot h.1) hbad)
            · rw [if_neg hq] at hentry
              exact key _ _ _ hentry le_rfl (iff_of_false (fun h => hnot h.1) hbad)
          · refine key _ _ _ (sendEntry_end hel hge) hi.le (iff_of_false (fun h => ?_) hbad)
            have htile := (delivered_iff ht').mp h.1
            exact ht htile.symm
    · apply key _ _ _ (sendEntry_skip hel) hi
      have ht : (c.pvDes (list st.listIndex)).totalSize = 0 := by
        by_contra hne
        exact hel (hasElements_of_pos (by omega))
      simp [Clean, hel, him, hvo, delivered_nil ht]

/-! ### The condition on the slice -/

/-- The first PV with elements has no bytes. -/
def NextEmpty (pvs : List PvDescriptor) : Prop :=
  ∀ x, pvs.find? (HasElements ·) = some x → x.totalSize = 0

/-- The condition on the rest of a slice, with `W` frames before it. -/
def FitsFrom (n maxVarSize W : ℕ) (pvs : List PvDescriptor) : Prop :=
  ∀ pre pv post, pvs = pre ++ pv :: post → 2 ≤ weight maxVarSize pv →
    (W + (pre.map (weight maxVarSize)).sum) % n + weight maxVarSize pv ≤ n ∧
      (n ∣ W + (pre.map (weight maxVarSize)).sum + weight maxVarSize pv → NextEmpty post)

variable {cap W i : ℕ} {carried : Bool} {pv : PvDescriptor} {pvs : List PvDescriptor}

theorem fitsFrom_nil : FitsFrom n cap W [] := by
  intro pre pv post h
  simp at h

theorem fitsFrom_cons : FitsFrom n cap W (pv :: pvs) ↔
    (2 ≤ weight cap pv → W % n + weight cap pv ≤ n ∧ (n ∣ W + weight cap pv → NextEmpty pvs)) ∧
      FitsFrom n cap (W + weight cap pv) pvs := by
  constructor
  · intro h
    refine ⟨fun hw => by simpa using h [] pv pvs rfl hw, fun pre x post heq hw => ?_⟩
    simpa [Nat.add_assoc] using h (pv :: pre) x post (by rw [heq]; rfl) hw
  · rintro ⟨hhead, htail⟩ pre x post heq hw
    cases pre with
    | nil =>
      obtain ⟨rfl, rfl⟩ := List.cons.inj heq
      simpa using hhead hw
    | cons y pre =>
      obtain ⟨rfl, rfl⟩ := List.cons.inj heq
      simpa [Nat.add_assoc] using htail pre x post rfl hw

theorem nextEmpty_skip (h : ¬ HasElements pv) : NextEmpty (pv :: pvs) ↔ NextEmpty pvs := by
  unfold NextEmpty
  rw [List.find?_cons_of_neg (by simpa using h)]

theorem nextEmpty_cons (h : HasElements pv) : NextEmpty (pv :: pvs) ↔ pv.totalSize = 0 := by
  unfold NextEmpty
  rw [List.find?_cons_of_pos (by simpa using h)]
  simp

theorem clean_iff (hmax : 0 < cap) (hn : 0 < n) : ∀ (pvs : List PvDescriptor) (W i : ℕ) (carried : Bool),
    i % n = W % n →
    (Clean n cap i carried pvs ↔ (carried = true → NextEmpty pvs) ∧ FitsFrom n cap W pvs) := by
  intro pvs
  induction pvs with
  | nil =>
    intro W i carried _
    simp [Clean, fitsFrom_nil, NextEmpty]
  | cons pv pvs ih =>
    intro W i carried hW
    have hlt : W % n < n := Nat.mod_lt _ hn
    rw [fitsFrom_cons, Clean, hW]
    by_cases hel : HasElements pv
    · rw [if_neg (not_not.mpr hel), nextEmpty_cons hel]
      have hw : weight cap pv = frameCount cap pv.totalSize := if_pos hel
      rw [hw]
      by_cases ht : pv.totalSize = 0
      · rw [if_pos ht, ih W _ _ (Nat.mod_mod _ _)]
        simp [ht, hmax]
      · rw [if_neg ht]
        have hq := frameCount_pos hmax (Nat.pos_of_ne_zero ht)
        generalize frameCount cap pv.totalSize = q at hq
        by_cases hle : W % n + q ≤ n
        · have hdvd : n ∣ W + q ↔ W % n + q = n := by
            rw [Nat.dvd_iff_mod_eq_zero, ← Nat.mod_add_mod]
            rcases Nat.lt_or_eq_of_le hle with hlt' | heq
            · rw [Nat.mod_eq_of_lt hlt']
              omega
            · simp [heq]
          rw [ih (W + q) _ _ (Nat.mod_add_mod _ _ _), hdvd]
          cases carried <;> simp [ht, hle]
          tauto
        · have hge : 2 ≤ q := by omega
          simp [hle, hge]
    · have hw : weight cap pv = 1 := if_neg hel
      rw [if_pos hel, nextEmpty_skip hel, hw, ih (W + 1) _ _ (Nat.mod_add_mod _ _ _)]
      simp

theorem fitsMessages_iff : FitsMessages n cap pvs ↔ FitsFrom n cap 0 pvs := by
  simp only [FitsMessages, FitsFrom, NextEmpty, Nat.zero_add]

/-- A slice is sent as it should be exactly when it is clean. -/
theorem sendVariables_clean {listIndex : ℕ} (hmax : 0 < c.maxVarSize) (hN : c.numberOfVariables < 2 ^ 32)
    (hidx : listIndex < c.numberOfVariables) :
    List.Forall₂ (Delivered c m) (slice c list listIndex n) (sendVariables c .good m list n listIndex).out ↔
      Clean n c.maxVarSize 0 false ((slice c list listIndex n).map c.pvDes) := by
  have hlen : (slice c list listIndex n).length = n := by simp [slice]
  cases n with
  | zero => simp [slice, sendVariables, sendMessages, Clean]
  | succ n =>
    obtain ⟨fss, hout, hiff⟩ := resume_delivers (m := m) (n := n + 1) hmax hN
      (slice c list listIndex (n + 1)) n ⟨0, listIndex, 0, 0, false, []⟩ rfl (Nat.zero_le _)
      (by simp [slice]) hidx (by rw [hlen]) (by rw [hlen]; simp)
    rw [sendVariables_resume, hout, List.nil_append]
    exact hiff

/-- **Every byte of the slice once**: on a connection without errors, for any PVs, any position in the
queue and any `maxVarSize ≥ 1`, each PV of the slice is tiled by its frames, and one without elements
produces none, exactly when the slice fits the messages. -/
theorem sendVariables_tiles_iff (c : Config) (m : Memory) (list : ℕ → ℕ) (n listIndex : ℕ)
    (hmax : 0 < c.maxVarSize) (hN : c.numberOfVariables < 2 ^ 32) (hidx : listIndex < c.numberOfVariables) :
    List.Forall₂ (Delivered c m) (slice c list listIndex n) (sendVariables c .good m list n listIndex).out ↔
      FitsMessages n c.maxVarSize ((slice c list listIndex n).map c.pvDes) := by
  rw [sendVariables_clean hmax hN hidx, fitsMessages_iff]
  rcases Nat.eq_zero_or_pos n with rfl | hn
  · simp [slice, Clean, fitsFrom_nil]
  · rw [clean_iff hmax hn _ 0 0 false rfl]
    simp

/-- Three PVs of the given sizes and frames of at most 4 bytes. -/
def threePvs (size : ℕ → ℕ) : Config where
  numberOfVariables := 3
  numberOfSignalToBeSent := 3
  numberOfPoolThreads := 1
  maxBytesPerCycle := 0xFFFFFFFF
  maxVarSize := 4
  resetCounter := 120
  sendOnlyChanged := false
  pvDes := fun k => ⟨[], size k, 1, 0, 0⟩

/-- PVs of 8, 4 and no bytes: two frames and one fill the first message. -/
theorem sendVariables_tiles_three : List.Forall₂
    (Delivered (threePvs ([8, 4, 0].getD · 0)) fun _ => 0) [0, 1, 2]
    (sendVariables (threePvs ([8, 4, 0].getD · 0)) .good (fun _ => 0) id 3 0).out := by
  apply (sendVariables_tiles_iff _ _ id 3 0 (by decide) (by decide) (by decide)).mpr
  rw [fitsMessages_iff]
  exact ((clean_iff (by decide) (by decide) _ 0 0 false rfl).mp (by decide)).2

/-- A slice of one PV of 10 bytes: its one message holds one frame. -/
theorem sendVariables_cuts_one :
    ¬ ∀ (c : Config) (m : Memory) (list : ℕ → ℕ) (n listIndex : ℕ), 0 < c.maxVarSize →
      c.numberOfVariables < 2 ^ 32 → listIndex < c.numberOfVariables →
      List.Forall₂ (Delivered c m) (slice c list listIndex n)
        (sendVariables c .good m list n listIndex).out := by
  intro h
  have hall := h (threePvs fun _ => 10) (fun _ => 0) id 1 0 (by decide) (by decide) (by decide)
  rw [sendVariables_clean (by decide) (by decide) (by decide)] at hall
  exact absurd hall (by decide)

end Hieratika.Sender

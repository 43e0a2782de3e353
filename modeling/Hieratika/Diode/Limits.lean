import Hieratika.Receiver.Framing
import Hieratika.Sender.Tiling
import Hieratika.Subscriber.Places

/-!
# The limits of the two sides

The subscriber discards a PV of more than `maxArraySize` elements, whatever their size; the receiver
refuses a frame of `8 * maxArraySize` bytes or more. `SendVariables` puts at most `maxVarSize` bytes
in a frame, so it is `maxVarSize` that decides whether a PV at the limit arrives.

## What is proved

Every frame of a PV that the subscriber keeps passes the checks exactly when the smaller of its total
size and `maxVarSize` is below `8 * maxArraySize` (`limits_agree_iff`). An array of `maxArraySize`
doubles in one frame does not, nor do long arrays of strings.
-/

namespace Hieratika.Diode

open Foundations Sender Subscriber Receiver

/-- The checks of `ReadVarNameAndIndex`. -/
def Admits (r : DiodeReceiver) (f : Frame) : Prop :=
  f.index < r.numberOfVariables ∧ f.size < u32 (8 * r.maxArraySize)

/-- A header that is there is returned exactly when the frame passes the checks. -/
theorem readHeader_isSome_iff {r : DiodeReceiver} {env : Env} {f : Frame} {p t : List UInt8} (h : Shaped f)
    (hname : f.name.length ≤ pvNameMaxSize) (hindex : f.index < 2 ^ 32) (hsize : f.size < 2 ^ 32)
    (hp : p <+: f.encode ++ t) (hlong : f.name.length + 16 ≤ p.length) :
    (r.readHeader env p (f.name.length + 1)).2.isSome ↔ Admits r f := by
  rw [readHeader_eq h hname hindex hsize hp hlong]
  unfold Admits
  by_cases hc : r.numberOfVariables ≤ f.index ∨ u32 (8 * r.maxArraySize) ≤ f.size
  · rw [if_pos hc]
    exact iff_of_false Bool.false_ne_true (by omega)
  · rw [if_neg hc]
    exact iff_of_true rfl (by omega)

/-! ### The frames of a slice -/

section frames

variable {c : Config} {w : Wire} {m : Memory} {list : ℕ → ℕ} {n : ℕ} {P : Frame → Prop}

theorem sendFrame_out (sig : ℕ) (st : Send) : (sendFrame c w m n sig st).out = st.out := by
  simp only [sendFrame]
  split_ifs <;> rfl

theorem sendPv_frames (hP : ∀ sig varOffset, P (frameAt c m sig varOffset)) (sig : ℕ) (st : Send)
    (fs : List Frame)
    (hfs : ∀ f ∈ fs, P f) :
    (sendPv c w m n sig st fs).1.out = st.out ∧ ∀ f ∈ (sendPv c w m n sig st fs).2, P f := by
  induction st, fs using sendPv.induct c w m n sig with
  | case1 st fs h frame ih =>
    rw [sendPv, dif_pos h]
    dsimp only
    have hnext : ∀ f ∈ (if w.frame st.cntVariables st.varOffset then fs ++ [frame] else fs), P f := by
      intro f hf
      split_ifs at hf
      · rcases List.mem_append.mp hf with hf | hf
        · exact hfs f hf
        · rw [List.mem_singleton.mp hf]
          exact hP sig st.varOffset
      · exact hfs f hf
    obtain ⟨hout, hall⟩ := ih hnext
    exact ⟨hout.trans (sendFrame_out sig st), hall⟩
  | case2 st fs h =>
    rw [sendPv, dif_neg h]
    exact ⟨rfl, hfs⟩

theorem sendEntry_frames (hP : ∀ sig varOffset, P (frameAt c m sig varOffset)) (st : Send)
    (hst : ∀ fs ∈ st.out, ∀ f ∈ fs, P f) : ∀ fs ∈ (sendEntry c w m list n st).out, ∀ f ∈ fs, P f := by
  obtain ⟨hout, hall⟩ :=
    sendPv_frames (c := c) (w := w) (m := m) (n := n) hP (list st.listIndex) st [] (by simp)
  intro fs hfs
  unfold sendEntry at hfs
  dsimp only at hfs
  split_ifs at hfs
  all_goals
    rcases List.mem_append.mp hfs with hfs | hfs
  · exact hst fs (hout ▸ hfs)
  · rw [List.mem_singleton.mp hfs]
    exact hall
  · exact hst fs (hout ▸ hfs)
  · rw [List.mem_singleton.mp hfs]
    exact hall
  · exact hst fs hfs
  · rw [List.mem_singleton.mp hfs]
    exact fun f hf => absurd hf List.not_mem_nil

theorem sendMessage_frames (hP : ∀ sig varOffset, P (frameAt c m sig varOffset)) : ∀ (left : ℕ) (st : Send),
    (∀ fs ∈ st.out, ∀ f ∈ fs, P f) → ∀ fs ∈ (sendMessage c w m list n left st).out, ∀ f ∈ fs, P f
  | 0, _, hst => hst
  | left + 1, st, hst => by
    unfold sendMessage
    split_ifs
    · exact sendMessage_frames hP left _ (sendEntry_frames hP st hst)
    · exact hst

theorem sendMessages_frames (hP : ∀ sig varOffset, P (frameAt c m sig varOffset)) : ∀ (left : ℕ) (st : Send),
    (∀ fs ∈ st.out, ∀ f ∈ fs, P f) → ∀ fs ∈ (sendMessages c w m list n left st).out, ∀ f ∈ fs, P f
  | 0, _, hst => hst
  | left + 1, st, hst => by
    unfold sendMessages
    split_ifs
    · exact sendMessages_frames hP left _ (sendMessage_frames hP _ _ hst)
    · exact hst
    · exact hst

/-- Every frame of a slice is one that `frameAt` makes, whatever the connection does. -/
theorem sendVariables_frames (hP : ∀ sig varOffset, P (frameAt c m sig varOffset)) (listIndex : ℕ) :
    ∀ fs ∈ (sendVariables c w m list n listIndex).out, ∀ f ∈ fs, P f :=
  sendMessages_frames hP n _ fun _ h => absurd h List.not_mem_nil

/-- A PV alone in a slice starts with its first frame. -/
theorem sendVariables_first {sig : ℕ} (hpv : HasElements (c.pvDes sig)) (hpos : 0 < (c.pvDes sig).totalSize) :
    ∃ fs ∈ (sendVariables c Wire.good m (fun _ => sig) 1 0).out, frameAt c m sig 0 ∈ fs := by
  have hrun : sendPv c Wire.good m 1 sig ⟨0, 0, 0, 0, false, []⟩ [] =
      (⟨0, 0, 0, 1, false, []⟩, [frameAt c m sig 0]) := by
    rw [sendPv, dif_pos ⟨hpos, rfl⟩]
    show sendPv c Wire.good m 1 sig ⟨0, 0, 0, 1, false, []⟩ [frameAt c m sig 0] = _
    rw [sendPv, dif_neg (by simp [Send.condition])]
  have hentry :
      (sendEntry c Wire.good m (fun _ => sig) 1 ⟨0, 0, 0, 0, false, []⟩).out = [[frameAt c m sig 0]] := by
    unfold sendEntry
    dsimp only
    rw [if_pos (show 0 < (c.pvDes sig).numberOfElements ∧ 0 < (c.pvDes sig).memorySize from hpv), hrun]
    split_ifs <;> rfl
  refine ⟨[frameAt c m sig 0], ?_, List.mem_singleton_self _⟩
  show _ ∈ (sendEntry c Wire.good m (fun _ => sig) 1 ⟨0, 0, 0, 0, false, []⟩).out
  rw [hentry]
  exact List.mem_singleton_self _

end frames

/-! ### The limits -/

/-- The sender's descriptor of a PV is what the subscriber's `FillMemorySizes` made of it. -/
def Subscribed (s : Setup) (i : ℕ) (pv : PvDescriptor) : Prop :=
  ∃ pv₀, pv.numberOfElements = (countPv s i pv₀ 0).1.numberOfElements ∧
    pv.memorySize = (countPv s i pv₀ 0).1.memorySize

/-- Every frame that any slice emits for the PV `i` passes the checks. -/
def FramesAdmitted (c : Config) (r : DiodeReceiver) (i : ℕ) : Prop :=
  ∀ (w : Wire) (m : Memory) (list : ℕ → ℕ) (n listIndex : ℕ),
    ∀ fs ∈ (sendVariables c w m list n listIndex).out, ∀ f ∈ fs, f.index = i → Admits r f

/-- The sizes of the type table. -/
theorem elementSize (ft : FieldType) :
    ft.info.1 = 1 ∨ ft.info.1 = 2 ∨ ft.info.1 = 4 ∨ ft.info.1 = 8 ∨ ft.info.1 = 40 := by
  cases ft <;> decide

/-- Fewer than `2 ^ 29` strings do not wrap to no bytes. -/
theorem strings_pos {n : ℕ} (h : 0 < n) (h' : n < 2 ^ 29) : 0 < n * 40 % 2 ^ 32 := by
  have hcop : Nat.Coprime (2 ^ 29) 5 := Nat.Coprime.pow_left 29 (by decide)
  have hnot : ¬ 2 ^ 29 ∣ n * 5 := fun hdvd => Nat.not_dvd_of_pos_of_lt h h' (hcop.dvd_of_dvd_mul_right hdvd)
  have hpos : 0 < n * 5 % 2 ^ 29 := Nat.pos_of_ne_zero fun hz => hnot (Nat.dvd_of_mod_eq_zero hz)
  have hsplit : n * 40 % 2 ^ 32 = 8 * (n * 5 % 2 ^ 29) := by
    rw [← Nat.mul_mod_mul_left]
    congr 1
    omega
  rw [hsplit]
  exact Nat.mul_pos (by decide) hpos

/-- A PV that is kept has bytes: the product of its elements and their size does not wrap to zero. -/
theorem Subscribed.totalSize_pos {s : Setup} {i : ℕ} {pv : PvDescriptor} (h : Subscribed s i pv)
    (hM : 8 * s.maxArraySize < 2 ^ 32) (hkept : 0 < pv.numberOfElements) :
    HasElements pv ∧ 0 < pv.totalSize := by
  obtain ⟨pv₀, hn, hm⟩ := h
  have hle : pv.numberOfElements ≤ s.maxArraySize := by
    rw [hn, countPv_fst, counted_numberOfElements]
    unfold Setup.elements
    split_ifs <;> omega
  rw [countPv_fst, counted_memorySize] at hm
  have hsize := elementSize (s.channel i).fieldType
  rw [← hm] at hsize
  refine ⟨⟨hkept, by omega⟩, ?_⟩
  unfold PvDescriptor.totalSize u32
  rcases hsize with h | h | h | h | h <;> rw [h]
  case inr.inr.inr.inr => exact strings_pos hkept (by omega)
  all_goals omega

/-- **The limits agree** on a PV that the subscriber keeps exactly when its total size or `maxVarSize`
is below the `8 * maxArraySize` bytes of the receiver. -/
theorem limits_agree_iff (s : Setup) (c : Config) (r : DiodeReceiver) (i : ℕ)
    (hM : 8 * s.maxArraySize < 2 ^ 32)
    (hmax : r.maxArraySize = s.maxArraySize) (hvars : r.numberOfVariables = c.numberOfVariables)
    (hi : i < c.numberOfVariables) (hsub : Subscribed s i (c.pvDes i))
    (hkept : 0 < (c.pvDes i).numberOfElements) :
    FramesAdmitted c r i ↔ min (c.pvDes i).totalSize c.maxVarSize < 8 * s.maxArraySize := by
  obtain ⟨hpv, hpos⟩ := hsub.totalSize_pos hM hkept
  have hbound : u32 (8 * r.maxArraySize) = 8 * s.maxArraySize := by rw [hmax, u32_of_lt hM]
  constructor
  · intro h
    obtain ⟨fs, hfs, hf⟩ := sendVariables_first (m := fun _ => 0) hpv hpos
    have hadm := (h _ _ _ _ _ fs hfs _ hf rfl).2
    rwa [hbound, frameAt_size, Nat.sub_zero] at hadm
  · intro h w m list n listIndex fs hfs f hf hfi
    refine sendVariables_frames (P := fun f => f.index = i → Admits r f) (fun sig varOffset hsig => ?_)
      listIndex fs hfs f hf hfi
    have hsig : sig = i := hsig
    subst hsig
    refine ⟨hvars ▸ hi, ?_⟩
    rw [hbound, frameAt_size]
    omega

/-! ### An array at the limit -/

/-- One PV of `k` doubles. -/
def doubles (k : ℕ) : Setup := ⟨1, 1, 2, fun _ => [65], fun _ => ⟨true, k, .double⟩⟩

/-- The sender of one PV of `k` doubles, with the default `maxVarSize`. -/
def doublesSender (k : ℕ) : Config := ⟨1, 1, 1, 0xFFFFFFFF, 0xFFFFFFFF, 0, false, fun _ => ⟨[65], k, 8, 0, 9⟩⟩

theorem doubles_subscribed {k : ℕ} (hk : k ≤ 2) : Subscribed (doubles k) 0 ((doublesSender k).pvDes 0) := by
  refine ⟨⟨⟨[], 0, 0, 0, 0⟩, ⟨0, 0⟩, ⟨0, 0⟩⟩, ?_, ?_⟩
  · rw [countPv_fst, counted_numberOfElements, Setup.elements,
      if_neg (show ¬ (doubles k).maxArraySize < (doubles k).count 0 from Nat.not_lt.mpr hk)]
    rfl
  · rw [countPv_fst, counted_memorySize]
    rfl

/-- With a limit of two elements, one double arrives. -/
theorem limits_agree_one : FramesAdmitted (doublesSender 1) (onePv 2) 0 :=
  (limits_agree_iff (doubles 1) (doublesSender 1) (onePv 2) 0 (by decide) rfl rfl (by decide)
    (doubles_subscribed (by decide)) (by decide)).mpr (by decide)

/-- Two doubles do not. -/
theorem limits_disagree_two :
    ¬ ∀ (s : Setup) (c : Config) (r : DiodeReceiver) (i : ℕ), 8 * s.maxArraySize < 2 ^ 32 →
    r.maxArraySize = s.maxArraySize → r.numberOfVariables = c.numberOfVariables → i < c.numberOfVariables →
    Subscribed s i (c.pvDes i) → 0 < (c.pvDes i).numberOfElements → 0 < c.maxVarSize →
      FramesAdmitted c r i := by
  intro h
  have hall := h (doubles 2) (doublesSender 2) (onePv 2) 0 (by decide) rfl rfl (by decide)
    (doubles_subscribed (by decide)) (by decide) (by decide)
  obtain ⟨fs, hfs, hf⟩ := @sendVariables_first (doublesSender 2) (fun _ => 0) 0 (by decide) (by decide)
  have hadm := (hall _ _ _ _ _ fs hfs _ hf rfl).2
  revert hadm
  rw [frameAt_size]
  decide

end Hieratika.Diode

import Hieratika.Receiver.Slots
import Hieratika.Receiver.Terminates

/-!
# Writes stay in their slot

A payload of arbitrary bytes, from any state of the buffers. `Handles` says that a turn of the
consuming loop has read the header of a complete frame, which it then hands to
`ReadVarValueAndSkip`. Index, size and offset of the frame come from the network.

`frames_inside_iff`: over the whole run on a payload every write lies in the slot of the PV the
frame resolves to, and the raw copy is taken only for frames that fit, exactly when no frame
overflows. With a layout that fits in 32 bits the other PVs are then untouched.
-/

namespace Hieratika.Receiver

open Foundations Diode

variable {r : DiodeReceiver} {env : Env} {threadId : ℕ}

/-- A turn in state `st` has read the header `h` of a complete frame from the payload `p`. -/
def Service.Handles (r : DiodeReceiver) (env : Env) (st : Service) (p : List UInt8) (h : Header) : Prop :=
  ReadVarNameAndIndex r env st.payload (p, some h) ∧ (r.getLocalIndex env st.store h).processedSize ≤ p.length

/-- The frame with header `h` writes only into the slot of the PV it resolves to, and is copied as it
is only if it fits there. -/
def WritesInside (r : DiodeReceiver) (env : Env) (st : Service) (p : List UInt8) (h : Header) : Prop :=
  let l := r.getLocalIndex env st.store h
  l.index < r.numberOfVariables →
    (∀ w ∈ r.writes env (r.remember env st.store h) (bufferAt env p (h.dataPtr + 4)) h l,
      r.Inside l.index w) ∧
      (l.controlOk = true → h.receivedOffset + h.receivedSize ≤ (r.pvs l.index).totalSize)

/-- The turn that stores the frame leaves the slots of all other PVs as they are. -/
def OthersUnchanged (r : DiodeReceiver) (env : Env) (threadId : ℕ) (st : Service) (p : List UInt8)
    (h : Header) :
    Prop :=
  let l := r.getLocalIndex env st.store h
  let st' := { st with payload := p, store := r.remember env st.store h }.readVarValueAndSkip r env
    threadId h l
  ∀ j < r.numberOfVariables, l.index ≠ j → ∀ k < (r.pvs j).totalSize + 8,
    st'.store.memory (r.offset j + k) = st.store.memory (r.offset j + k) ∧
      st'.store.memoryPrec (r.offset j + k) = st.store.memoryPrec (r.offset j + k)

theorem remember_memory (s : Store) (h : Header) : (r.remember env s h).memory = s.memory := by
  unfold DiodeReceiver.remember
  split_ifs <;> rfl

theorem remember_memoryPrec (s : Store) (h : Header) : (r.remember env s h).memoryPrec = s.memoryPrec := by
  unfold DiodeReceiver.remember
  split_ifs <;> rfl

theorem remember_changeFlag (s : Store) (h : Header) : (r.remember env s h).changeFlag = s.changeFlag := by
  unfold DiodeReceiver.remember
  split_ifs <;> rfl

/-- One frame. -/
theorem writesInside_iff (hconv : env.Converts r) (st : Service) (p : List UInt8) (h : Header) :
    WritesInside r env st p h ↔ ¬ r.Overflows h (r.getLocalIndex env st.store h).index := by
  constructor
  · rintro hin ⟨hi, hpos, hge, hwrap⟩
    have hle := (hin hi).2 ((controlOk_iff hi).mpr ⟨hpos, hwrap⟩)
    have hsz := r.size_lt (r.getLocalIndex env st.store h).index
    omega
  · intro hov hi
    exact ⟨writes_inside hconv hi hov, fits_of_not_overflows hi hov⟩

theorem othersUnchanged_of_writesInside (hfit : r.LayoutFits) {st : Service} {p : List UInt8} {h : Header}
    (hin : WritesInside r env st p h) : OthersUnchanged r env threadId st p h := by
  intro j hj hne k hk
  have hother := readVarValue_other threadId hfit (fun hi => (hin hi).1) hj hne hk
  rw [remember_memory, remember_memoryPrec] at hother
  exact hother

/-- No frame of the payload overflows. -/
def NoOverflow (r : DiodeReceiver) (env : Env) (threadId : ℕ) (st : Service) : Prop :=
  ∀ t, Reachable (Service.Stores r env threadId) st t → ∀ p h, t.Handles r env p h →
    ¬ r.Overflows h (r.getLocalIndex env t.store h).index

/-- **Writes stay in their slot**: on any payload and from any state of the buffers, every frame that
`ReadVarValueAndSkip` gets writes inside the slot of its PV and is copied raw only if it fits,
exactly when no frame overflows. The other PVs are then unchanged, if the layout fits. -/
theorem frames_inside_iff (r : DiodeReceiver) (env : Env) (threadId : ℕ) (st : Service)
    (hconv : env.Converts r) :
    ((∀ t, Reachable (Service.Stores r env threadId) st t → ∀ p h, t.Handles r env p h →
        WritesInside r env t p h) ↔ NoOverflow r env threadId st) ∧
      (r.LayoutFits →
        ((∀ t, Reachable (Service.Stores r env threadId) st t → ∀ p h, t.Handles r env p h →
          WritesInside r env t p h ∧ OthersUnchanged r env threadId t p h) ↔
            NoOverflow r env threadId st)) := by
  have hiff : (∀ t, Reachable (Service.Stores r env threadId) st t → ∀ p h, t.Handles r env p h →
      WritesInside r env t p h) ↔ NoOverflow r env threadId st :=
    forall₂_congr fun t _ => forall₃_congr fun p h _ => writesInside_iff hconv t p h
  refine ⟨hiff,
    fun hfit => ⟨fun hall => hiff.mp fun t ht p h hh => (hall t ht p h hh).1, fun hno t ht p h hh => ?_⟩⟩
  have hin := hiff.mpr hno t ht p h hh
  exact ⟨hin, othersUnchanged_of_writesInside hfit hin⟩

/-- Of a payload with one small frame nothing is left behind it. -/
theorem smallFrame_noOverflow : NoOverflow (onePv 4) plainEnv 0 ⟨smallFrame.encode, .start, []⟩ := by
  have hlen : smallFrame.encode.length = 30 := by decide
  rintro t ht p h ⟨hread, hle⟩
  rcases ht.cases_head with rfl | ⟨u, hu, hrest⟩
  · have hp : smallFrame.encode <+: smallFrame.encode ++ [] := by simp
    cases hread.unique
      (readVarNameAndIndex_header (by decide) smallFrame_accepts hp (by rw [hlen]; decide)
        (by rw [hlen]; decide))
    have hoff : (headerOf plainEnv smallFrame.encode smallFrame).receivedOffset = 0 :=
      headerOf_offset smallFrame_accepts hp (by rw [hlen]; decide)
    rintro ⟨-, -, hge, -⟩
    rw [hoff] at hge
    exact absurd hge (by decide)
  · have hfirst := hu.removes (by decide) (by rw [hlen]; decide)
    rw [hlen] at hfirst
    have hmore := reached_length_le (by decide) (by omega) hrest
    have hstores : Service.Stores (onePv 4) plainEnv 0 t _ := ⟨p, h, hread, hle, rfl⟩
    have hlast := hstores.removes (by decide) (by omega)
    omega

/-- So a small frame stays in its slot. -/
theorem frames_inside_small : NoOverflow (onePv 4) plainEnv 0 ⟨smallFrame.encode, .start, []⟩ ∧
    ∀ t, Reachable (Service.Stores (onePv 4) plainEnv 0) ⟨smallFrame.encode, .start, []⟩ t →
      ∀ p h, t.Handles (onePv 4) plainEnv p h →
        WritesInside (onePv 4) plainEnv t p h ∧ OthersUnchanged (onePv 4) plainEnv 0 t p h :=
  ⟨smallFrame_noOverflow,
    ((frames_inside_iff (onePv 4) plainEnv 0 ⟨smallFrame.encode, .start, []⟩ fun _ _ _ _ => Nat.zero_le _).2
      (show (onePv 4).slotsEnd 1 < 2 ^ 32 by decide)).mpr smallFrame_noOverflow⟩

/-- Four bytes at offset `2 ^ 32 - 4` of a PV of two bytes. -/
def farFrame : Frame := ⟨[65], 0, 0, 4, 2 ^ 32 - 4, [1, 2, 3, 4], List.replicate 8 0⟩

theorem farFrame_accepts : Accepts (onePv 4) farFrame :=
  ⟨by decide, by decide, by decide, by decide, by decide, by decide, rfl, rfl⟩

theorem onePv_resolve (p : List UInt8) {f : Frame} (hf : f.name = [65]) :
    (onePv 4).resolve plainEnv .start (headerOf plainEnv p f) = 0 := by
  have hsearch : (onePv 4).getLocalVariableIndex plainEnv [65] = (true, 0) := by
    rw [DiodeReceiver.getLocalVariableIndex, DiodeReceiver.searchFrom]
    rfl
  have hname : (headerOf plainEnv p f).varName = [65] := by
    simp [headerOf, searchName, hf]
  have hinit : Store.start.pvMapping (headerOf plainEnv p f).receivedIndex = indexInitId := rfl
  rw [DiodeReceiver.resolve, if_pos hinit, hname, hsearch]
  rfl

/-- `4 + (2 ^ 32 - 4)` is `0` in 32 bits: the frame is copied to an address `2 ^ 32 - 4` behind the slot's
start. -/
theorem frame_outside_far :
    ¬ ∀ (r : DiodeReceiver) (env : Env) (threadId : ℕ) (st : Service), env.Converts r → r.LayoutFits →
      ∀ t, Reachable (Service.Stores r env threadId) st t → ∀ p h, t.Handles r env p h →
        WritesInside r env t p h ∧ OthersUnchanged r env threadId t p h := by
  intro hall
  have hp : farFrame.encode <+: farFrame.encode ++ [] := by simp
  have hlen : farFrame.encode.length = 32 := by decide
  have hrv : ReadVarNameAndIndex (onePv 4) plainEnv farFrame.encode
      (farFrame.encode, some (headerOf plainEnv farFrame.encode farFrame)) :=
    readVarNameAndIndex_header (by decide) farFrame_accepts hp (by rw [hlen]; decide) (by rw [hlen]; decide)
  have hproc := getLocalIndex_processedSize plainEnv farFrame.encode farFrame_accepts .start
  obtain ⟨hin, -⟩ := hall (onePv 4) plainEnv 0 ⟨farFrame.encode, .start, []⟩ (fun _ _ _ _ => Nat.zero_le _)
    (show (onePv 4).slotsEnd 1 < 2 ^ 32 by decide) _ .refl _ _ ⟨hrv, by rw [hproc, hlen]; decide⟩
  have hidx : ((onePv 4).getLocalIndex plainEnv .start
      (headerOf plainEnv farFrame.encode farFrame)).index = 0 :=
    onePv_resolve _ rfl
  have hoff : (headerOf plainEnv farFrame.encode farFrame).receivedOffset = 2 ^ 32 - 4 :=
    headerOf_offset farFrame_accepts hp (by rw [hlen]; decide)
  have hi : ((onePv 4).getLocalIndex plainEnv .start (headerOf plainEnv farFrame.encode farFrame)).index <
      (onePv 4).numberOfVariables := hidx ▸ Nat.one_pos
  have hle := (hin hi).2 ((controlOk_iff hi).mpr (by
    rw [hoff]
    exact ⟨by show 0 < 2; decide, by show u32 (4 + (2 ^ 32 - 4)) ≤ 2; decide⟩))
  rw [hoff] at hle
  exact absurd hle (show ¬ 2 ^ 32 - 4 + 4 ≤ 2 by decide)

end Hieratika.Receiver

import Hieratika.Receiver.Bounds
import Hieratika.Receiver.IndexCache
import Hieratika.Receiver.Rejects

/-!
# One frame and one slot

What a turn of the consuming loop does to the slot of a PV when the payload begins with a frame of
the sender that starts at offset 0. Frames of a sender with one list of names resolve as the search
for the name does, whether the cache has an entry or not (`Store.Resolved`); a frame that resolves to
the PV and has its size fills the slot, and a frame that does not leaves it alone.
-/

namespace Hieratika.Receiver

open Foundations Diode

variable {r : DiodeReceiver} {env : Env} {f : Frame} {s : Store} {more : List UInt8} {threadId i : ℕ}
  {h : Header} {calls : List Call} {st' : Service}

/-! ### What is read -/

/-- The header of a whole frame. -/
def sentHeader (f : Frame) : Header :=
  ⟨searchName f.name, f.index, f.typeId, f.size, f.offset, f.name.length + 3, f.name.length + 13⟩

/-- **A turn that stores a frame** of the sender: the frame has passed the checks, and the buffers
are those `ReadVarValueAndSkip` leaves for its header and the bytes behind it. -/
theorem Service.Stores.of_frame (hf : Formed f) (hlen : (f.encode ++ more).length < 2 ^ 32)
    (hst : Service.Stores r env threadId ⟨f.encode ++ more, s, calls⟩ st') : Passes r f ∧
      ∃ data, readAt data 0 f.size = f.value ∧ readAt data f.size 8 = f.timeStamp ∧
        st'.store = r.readVarValue env threadId (r.remember env s (sentHeader f)) data (sentHeader f)
          (r.getLocalIndex env s (sentHeader f)) := by
  obtain ⟨p, hd, hread, -, rfl⟩ := hst
  dsimp only at hread
  have hl := length_encode hf.toShaped
  have hp : f.encode ++ more <+: f.encode ++ more := List.prefix_rfl
  have hlong : f.name.length + 27 ≤ (f.encode ++ more).length := by
    rw [List.length_append]
    omega
  have hpass : Passes r f := by
    by_contra hnot
    by_cases hname : f.name.length ≤ pvNameMaxSize
    · have hcheck : r.numberOfVariables ≤ f.index ∨ u32 (8 * r.maxArraySize) ≤ f.size := by
        by_contra hcon
        rw [not_or, not_le, not_le] at hcon
        exact hnot ⟨hname, hcon⟩
      cases hread.unique (readVarNameAndIndex_range env hf hp hlen hname hcheck (by omega))
    · cases hread.unique (readVarNameAndIndex_nameLong r env hf.toShaped hp hlen (not_le.mp hname) (by omega))
  have hacc := hf.accepts hpass
  cases hread.unique (readVarNameAndIndex_header hpass.2.2 hacc hp hlen (by omega))
  have hhead : headerOf env (f.encode ++ more) f = sentHeader f := by
    have hoff : (headerOf env (f.encode ++ more) f).receivedOffset = f.offset :=
      headerOf_offset hacc hp (by omega)
    rw [sentHeader, ← hoff]
    rfl
  obtain ⟨hval, hts⟩ := readAt_behind env hf.toShaped hp (by rw [List.length_append]; omega)
  refine ⟨hpass, _, hval, hts, ?_⟩
  rw [hhead]
  rfl

/-! ### Names and indices -/

/-- Every entry of the cache is what the search for the name of its sender index finds. -/
def Store.Resolved (r : DiodeReceiver) (env : Env) (names : ℕ → List UInt8) (s : Store) : Prop :=
  ∀ p, s.pvMapping p ≠ indexInitId → s.pvMapping p = r.lookup env (searchName (names p))

variable {names : ℕ → List UInt8}

theorem Store.resolved_start : Store.start.Resolved r env names := fun _ hne => absurd rfl hne

/-- The index of a frame is what the search for its name finds, with the cache or without it. -/
theorem Store.Resolved.resolve_eq (hs : s.Resolved r env names)
    (hname : h.varName = searchName (names h.receivedIndex)) :
    r.resolve env s h = r.lookup env h.varName := by
  unfold DiodeReceiver.resolve
  by_cases hinit : s.pvMapping h.receivedIndex = indexInitId
  · rw [if_pos hinit]
    rfl
  · rw [if_neg hinit, hs _ hinit, hname]

theorem Store.Resolved.remember (hs : s.Resolved r env names)
    (hname : h.varName = searchName (names h.receivedIndex)) :
    (r.remember env s h).Resolved r env names := by
  unfold DiodeReceiver.remember
  split_ifs with hfound
  · intro p hne
    by_cases hp : p = h.receivedIndex
    · subst hp
      simp only [Function.update_self]
      rw [← hname, DiodeReceiver.lookup, if_pos hfound.2]
    · simp only [Function.update_of_ne hp] at hne ⊢
      exact hs p hne
  · exact hs

theorem readVarValue_pvMapping (data : Memory) (l : Local) :
    (r.readVarValue env threadId s data h l).pvMapping = s.pvMapping := by
  unfold DiodeReceiver.readVarValue Store.compareAndFlag
  dsimp only
  split_ifs <;> rfl

/-! ### The slot -/

theorem Store.Resolved.getLocalIndex_eq (hs : s.Resolved r env names) (hname : f.name = names f.index) :
    r.getLocalIndex env s (sentHeader f) = r.localAt (sentHeader f) (r.lookup env (searchName f.name)) := by
  rw [DiodeReceiver.getLocalIndex, hs.resolve_eq (congrArg searchName hname)]
  rfl

/-- The slot of the PV `i`: its value and its time stamp. -/
def DiodeReceiver.slotAt (r : DiodeReceiver) (m : Memory) (i : ℕ) : List UInt8 :=
  readAt m (r.offset i) ((r.pvs i).totalSize + 8)

section

variable (hf : Formed f) (hlen : (f.encode ++ more).length < 2 ^ 32)
  (hst : Service.Stores r env threadId ⟨f.encode ++ more, s, calls⟩ st') (hs : s.Resolved r env names)
  (hname : f.name = names f.index)

include hf hlen hst hs hname

/-- The cache stays right. -/
theorem Service.Stores.resolved : st'.store.Resolved r env names := by
  obtain ⟨-, data, -, -, hstore⟩ := hst.of_frame hf hlen
  have hrem : (r.remember env s (sentHeader f)).Resolved r env names :=
    hs.remember (congrArg searchName hname)
  intro p hne
  rw [hstore, readVarValue_pvMapping] at hne ⊢
  exact hrem p hne

/-- A frame for the PV fills its slot. -/
theorem Service.Stores.slot_self (hi : r.lookup env (searchName f.name) = i) (hlt : i < r.numberOfVariables)
    (hsize : f.size = (r.pvs i).totalSize) (hpos : 0 < (r.pvs i).totalSize) (hoff : f.offset = 0) :
    r.slotAt st'.store.memory i = f.value ++ f.timeStamp := by
  obtain ⟨-, data, hval, hts, hstore⟩ := hst.of_frame hf hlen
  rw [DiodeReceiver.slotAt, hstore, hs.getLocalIndex_eq hname, hi,
    readVarValue_slot env threadId _ data hlt hpos ⟨hsize, hoff⟩, ← hval, ← hts, hsize, readAt_add,
      Nat.zero_add]

/-- A frame for another PV leaves the slot alone. -/
theorem Service.Stores.slot_other (hfit : r.LayoutFits) (hconv : env.Converts r)
    (hne : r.lookup env (searchName f.name) ≠ i) (hlt : i < r.numberOfVariables) (hoff : f.offset = 0) :
    r.slotAt st'.store.memory i = r.slotAt s.memory i := by
  obtain ⟨-, data, -, -, hstore⟩ := hst.of_frame hf hlen
  have hov : ∀ j, ¬ r.Overflows (sentHeader f) j := by
    rintro j ⟨-, -, hge, -⟩
    have hsize := hf.size_lt
    simp only [sentHeader, hoff] at hge
    omega
  rw [DiodeReceiver.slotAt, DiodeReceiver.slotAt, hstore, hs.getLocalIndex_eq hname]
  generalize r.lookup env (searchName f.name) = j at hne
  have hin : ∀ s, (r.localAt (sentHeader f) j).index < r.numberOfVariables →
      ∀ w ∈ r.writes env s data (sentHeader f) (r.localAt (sentHeader f) j), r.Inside j w :=
    fun s hj => writes_inside hconv hj (hov j)
  refine readAt_congr fun k hk => ?_
  rw [(readVarValue_other threadId hfit (hin _) hlt hne hk).1, remember_memory]

end

end Hieratika.Receiver

import Hieratika.Receiver.IndexCache
import Hieratika.Receiver.Slots

/-!
# Frames of different PVs

A frame changes five things in the receiver: the value and the time stamp in `memory`, the previous
value, the flag, the counter of its thread, and the cache of the indices. The first three lie in
what belongs to its PV (`storeValue_eq`), and a value does the same to slots that are equal
(`Store.AgreeOn.storeValue`).

## What is proved

Two frames for different PVs leave the same buffers in either order (`receive_comm`), if they fit
and their sender indices are different.
-/

namespace Hieratika.Receiver

open Foundations

variable {r : DiodeReceiver} {env : Env} {threadId threadId' i j : ℕ} {s s' : Store} {h h' : Header}
  {data data' : Memory}

/-- What a connection has of a frame behind `ReadVarNameAndIndex`. -/
structure Arrival where
  header : Header
  /-- The bytes from the value on. -/
  data : Memory

/-- A frame, from `GetLocalIndex` to `ReadVarValueAndSkip`. -/
def DiodeReceiver.receive (r : DiodeReceiver) (env : Env) (threadId : ℕ) (s : Store) (a : Arrival) : Store :=
  r.readVarValue env threadId (r.remember env s a.header) a.data a.header (r.getLocalIndex env s a.header)

/-- The value of a frame for the PV `i`. -/
def DiodeReceiver.storeValue (r : DiodeReceiver) (env : Env) (threadId i : ℕ) (a : Arrival)
    (s : Store) : Store :=
  r.readVarValue env threadId s a.data a.header (r.localAt a.header i)

/-- The frame is for the local PV `i` and fits into it. -/
structure DiodeReceiver.Fits (r : DiodeReceiver) (i : ℕ) (a : Arrival) : Prop where
  local_lt : i < r.numberOfVariables
  size_le : a.header.receivedSize + a.header.receivedOffset ≤ (r.pvs i).totalSize

/-! ### What a value touches -/

theorem Store.eq_of_fields (hmemory : s.memory = s'.memory) (hprec : s.memoryPrec = s'.memoryPrec)
    (hflag : s.changeFlag = s'.changeFlag) (hmapping : s.pvMapping = s'.pvMapping)
    (hreceived : s.numberOfReceivedPVs = s'.numberOfReceivedPVs) : s = s' := by
  cases s
  cases s'
  dsimp only at hmemory hprec hflag hmapping hreceived
  rw [hmemory, hprec, hflag, hmapping, hreceived]

theorem DiodeReceiver.Fits.not_overflows {a : Arrival} (ha : r.Fits i a) : ¬ r.Overflows a.header i := by
  rintro ⟨-, -, hge, -⟩
  have hle := ha.size_le
  exact absurd (r.size_lt i) (by omega)

/-- Not in the slot of the PV `i`. -/
def DiodeReceiver.Outside (r : DiodeReceiver) (i x : ℕ) : Prop :=
  x < r.offset i ∨ r.offset i + ((r.pvs i).totalSize + 8) ≤ x

/-- Two buffers agree on the slot of the PV `i`. -/
structure Store.AgreeOn (r : DiodeReceiver) (i : ℕ) (s s' : Store) : Prop where
  memory : ∀ x, ¬ r.Outside i x → s.memory x = s'.memory x
  memoryPrec : ∀ x, ¬ r.Outside i x → s.memoryPrec x = s'.memoryPrec x

/-- The memory behind the copy or the conversion. -/
def DiodeReceiver.written (r : DiodeReceiver) (env : Env) (i : ℕ) (a : Arrival) (s : Store) : Memory :=
  writeAll s.memory (r.writes env s a.data a.header (r.localAt a.header i))

/-- The value there is another one than before. -/
def DiodeReceiver.Changed (r : DiodeReceiver) (env : Env) (i : ℕ) (a : Arrival) (s : Store) : Prop :=
  readAt (r.written env i a s) (r.offset i) (r.pvs i).totalSize ≠
    readAt s.memoryPrec (r.offset i) (r.pvs i).totalSize

instance (r : DiodeReceiver) (env : Env) (i : ℕ) (a : Arrival) (s : Store) :
    Decidable (r.Changed env i a s) :=
  inferInstanceAs (Decidable (_ ≠ _))

/-- The counter of a thread. -/
def DiodeReceiver.bump (r : DiodeReceiver) (threadId : ℕ) (received : ℕ → ℕ) : ℕ → ℕ :=
  if threadId < r.maxNumberOfThreads then Function.update received threadId
    (u32 (received threadId + 1)) else received

/-- **What a value does**, field by field. -/
theorem storeValue_eq {a : Arrival} (hi : i < r.numberOfVariables) (s : Store) :
    r.storeValue env threadId i a s =
    { memory := r.written env i a s
      memoryPrec := if r.Changed env i a s then
          writeAt s.memoryPrec (r.offset i) (readAt (r.written env i a s) (r.offset i) (r.pvs i).totalSize)
        else s.memoryPrec
      changeFlag := if r.Changed env i a s then Function.update s.changeFlag i true else s.changeFlag
      pvMapping := s.pvMapping
      numberOfReceivedPVs := r.bump threadId s.numberOfReceivedPVs } := by
  have hindex : (r.localAt a.header i).index = i := rfl
  unfold DiodeReceiver.storeValue DiodeReceiver.readVarValue
  rw [hindex, if_pos hi]
  unfold Store.compareAndFlag
  by_cases hchanged : r.Changed env i a s
  · rw [if_pos hchanged, if_pos hchanged]
    exact if_pos hchanged
  · rw [if_neg hchanged, if_neg hchanged]
    exact if_neg hchanged

/-! ### Reading and writing a slot -/

section

variable {a b : Arrival}

theorem readAt_slot {m m' : Memory} (h : ∀ x, ¬ r.Outside i x → m x = m' x) :
    readAt m (r.offset i) (r.pvs i).totalSize = readAt m' (r.offset i) (r.pvs i).totalSize :=
  readAt_congr fun k hk => h _ fun hout => by
    unfold DiodeReceiver.Outside at hout
    omega

theorem writeAll_congr {x : ℕ} : ∀ (ws : List (ℕ × List UInt8)) {m m' : Memory}, m x = m' x →
    writeAll m ws x = writeAll m' ws x
  | [], _, _, h => h
  | w :: ws, m, m', h => by
    show writeAll (writeAt m w.1 w.2) ws x = writeAll (writeAt m' w.1 w.2) ws x
    apply writeAll_congr ws
    unfold writeAt
    rw [h]

/-- The writes depend on the slot only. -/
theorem Store.AgreeOn.written_eq (h : s.AgreeOn r i s') (env : Env) (a : Arrival) {x : ℕ}
    (hx : ¬ r.Outside i x) :
    r.written env i a s x = r.written env i a s' x := by
  have hwrites : r.writes env s a.data a.header (r.localAt a.header i) =
      r.writes env s' a.data a.header (r.localAt a.header i) := by
    unfold DiodeReceiver.writes
    dsimp only
    rw [show (r.localAt a.header i).index = i from rfl, readAt_slot h.memory]
  unfold DiodeReceiver.written
  rw [hwrites]
  exact writeAll_congr _ (h.memory x hx)

theorem Store.AgreeOn.changed_iff (h : s.AgreeOn r i s') (env : Env) (a : Arrival) :
    r.Changed env i a s ↔ r.Changed env i a s' := by
  unfold DiodeReceiver.Changed
  rw [readAt_slot fun x => h.written_eq env a, readAt_slot h.memoryPrec]

/-- **A value does the same** to slots that are equal. -/
theorem Store.AgreeOn.storeValue (h : s.AgreeOn r i s') (env : Env) (threadId : ℕ) (a : Arrival)
    (hi : i < r.numberOfVariables) :
    (r.storeValue env threadId i a s).AgreeOn r i (r.storeValue env threadId i a s') := by
  rw [storeValue_eq hi, storeValue_eq hi]
  refine ⟨fun x hx => h.written_eq env a hx, fun x hx => ?_⟩
  have hvalue := readAt_slot (r := r) (i := i) fun x => h.written_eq env a
  by_cases hchanged : r.Changed env i a s
  · simp only [if_pos hchanged, if_pos ((h.changed_iff env a).mp hchanged), hvalue]
    unfold writeAt
    rw [h.memoryPrec x hx]
  · simp only [if_neg hchanged, if_neg (mt (h.changed_iff env a).mpr hchanged)]
    exact h.memoryPrec x hx

theorem written_of_outside (hconv : env.Converts r) (ha : r.Fits i a) (s : Store) {x : ℕ}
    (hx : r.Outside i x) :
    r.written env i a s x = s.memory x := by
  refine writeAll_of_notMem fun w hw => ?_
  obtain ⟨hbeg, hend⟩ := writes_inside hconv ha.local_lt ha.not_overflows w hw
  unfold DiodeReceiver.Outside at hx
  omega

/-- **A value leaves the rest of the buffers alone.** -/
theorem storeValue_of_outside (hconv : env.Converts r) (ha : r.Fits i a) (threadId : ℕ) (s : Store)
    {x : ℕ} (hx : r.Outside i x) :
    (r.storeValue env threadId i a s).memory x = s.memory x ∧
      (r.storeValue env threadId i a s).memoryPrec x = s.memoryPrec x := by
  rw [storeValue_eq ha.local_lt]
  refine ⟨written_of_outside hconv ha s hx, ?_⟩
  dsimp only
  split_ifs
  · apply writeAt_of_notMem
    rw [length_readAt]
    unfold DiodeReceiver.Outside at hx
    omega
  · rfl

theorem outside_of_ne (hfit : r.LayoutFits) (hi : i < r.numberOfVariables)
    (hj : j < r.numberOfVariables) (hne : i ≠ j) {x : ℕ} (hx : ¬ r.Outside i x) : r.Outside j x := by
  have hdisj := slots_disjoint hfit hi hj hne
  unfold DiodeReceiver.Outside at hx ⊢
  omega

/-- The slot of another PV is as before. -/
theorem agreeOn_storeValue (hfit : r.LayoutFits) (hconv : env.Converts r) (ha : r.Fits i a)
    (hj : j < r.numberOfVariables)
    (hne : i ≠ j) (threadId : ℕ) (s : Store) : (r.storeValue env threadId i a s).AgreeOn r j s := by
  have hout : ∀ x, ¬ r.Outside j x → r.Outside i x :=
    fun x hx => outside_of_ne hfit hj ha.local_lt hne.symm hx
  exact ⟨fun x hx => (storeValue_of_outside hconv ha threadId s (hout x hx)).1,
    fun x hx => (storeValue_of_outside hconv ha threadId s (hout x hx)).2⟩

/-! ### Two values -/

/-- One of two memories that two actions change in disjoint slots only, each depending on its own slot. -/
theorem eq_of_slots {m : Store → Memory} {A B : Store → Store}
    (hA : ∀ s x, r.Outside i x → m (A s) x = m s x) (hB : ∀ s x, r.Outside j x → m (B s) x = m s x)
    (hAB : ∀ x, ¬ r.Outside i x → m (A (B s)) x = m (A s) x)
    (hBA : ∀ x, ¬ r.Outside j x → m (B (A s)) x = m (B s) x)
    (hdisj : ∀ x, ¬ r.Outside i x → r.Outside j x) : m (A (B s)) = m (B (A s)) := by
  funext x
  by_cases hi : r.Outside i x
  · by_cases hj : r.Outside j x
    · rw [hA _ x hi, hB _ x hj, hB _ x hj, hA _ x hi]
    · rw [hA _ x hi, hBA x hj]
  · rw [hAB x hi, hB _ x (hdisj x hi)]

theorem bump_comm (received : ℕ → ℕ) :
    r.bump threadId (r.bump threadId' received) = r.bump threadId' (r.bump threadId received) := by
  by_cases hthread : threadId = threadId'
  · rw [hthread]
  · unfold DiodeReceiver.bump
    split_ifs
    any_goals rfl
    rw [Function.update_of_ne hthread, Function.update_of_ne (Ne.symm hthread), Function.update_comm hthread]

/-- **Values of different PVs commute.** -/
theorem storeValue_comm (hfit : r.LayoutFits) (hconv : env.Converts r) (ha : r.Fits i a)
    (hb : r.Fits j b) (hne : i ≠ j)
    (threadId threadId' : ℕ) (s : Store) : r.storeValue env threadId i a (r.storeValue env threadId' j b s) =
      r.storeValue env threadId' j b (r.storeValue env threadId i a s) := by
  have hi : (r.storeValue env threadId' j b s).AgreeOn r i s :=
    agreeOn_storeValue hfit hconv hb ha.local_lt hne.symm threadId' s
  have hj : (r.storeValue env threadId i a s).AgreeOn r j s :=
    agreeOn_storeValue hfit hconv ha hb.local_lt hne threadId s
  have hAB := hi.storeValue env threadId a ha.local_lt
  have hBA := hj.storeValue env threadId' b hb.local_lt
  have hdisj : ∀ x, ¬ r.Outside i x → r.Outside j x := fun x => outside_of_ne hfit ha.local_lt hb.local_lt hne
  have hmemory :=
    eq_of_slots (m := Store.memory) (fun s x hx => (storeValue_of_outside hconv ha threadId s hx).1)
    (fun s x hx => (storeValue_of_outside hconv hb threadId' s hx).1) hAB.memory hBA.memory hdisj
  have hprec :=
    eq_of_slots (m := Store.memoryPrec) (fun s x hx => (storeValue_of_outside hconv ha threadId s hx).2)
    (fun s x hx => (storeValue_of_outside hconv hb threadId' s hx).2) hAB.memoryPrec hBA.memoryPrec hdisj
  have hflag : (r.storeValue env threadId i a (r.storeValue env threadId' j b s)).changeFlag =
      (r.storeValue env threadId' j b (r.storeValue env threadId i a s)).changeFlag := by
    have hci := hi.changed_iff env a
    have hcj := hj.changed_iff env b
    rw [storeValue_eq ha.local_lt, storeValue_eq hb.local_lt (r.storeValue env threadId i a s)]
    simp only [hci, hcj]
    rw [storeValue_eq ha.local_lt, storeValue_eq hb.local_lt]
    dsimp only
    split_ifs
    any_goals rfl
    exact Function.update_comm hne.symm _ _ _
  refine Store.eq_of_fields hmemory hprec hflag ?_ ?_
  all_goals rw [storeValue_eq ha.local_lt, storeValue_eq hb.local_lt, storeValue_eq hb.local_lt,
    storeValue_eq ha.local_lt]
  exact bump_comm _

/-! ### Two frames -/

/-- The buffers with another cache. -/
def Store.remap (s : Store) (pvMapping : ℕ → ℕ) : Store := { s with pvMapping := pvMapping }

/-- The cache after `GetLocalIndex`. -/
def DiodeReceiver.kept (r : DiodeReceiver) (env : Env) (pvMapping : ℕ → ℕ) (h : Header) : ℕ → ℕ :=
  if pvMapping h.receivedIndex = indexInitId ∧ (r.getLocalVariableIndex env h.varName).1 = true then
    Function.update pvMapping h.receivedIndex (r.getLocalVariableIndex env h.varName).2
  else pvMapping

theorem remember_eq (s : Store) (h : Header) : r.remember env s h = s.remap (r.kept env s.pvMapping h) := by
  unfold DiodeReceiver.remember DiodeReceiver.kept
  split_ifs <;> rfl

/-- The cache has no part in what a value does. -/
theorem storeValue_remap (hi : i < r.numberOfVariables) (threadId : ℕ) (a : Arrival) (s : Store) (m : ℕ → ℕ) :
    r.storeValue env threadId i a (s.remap m) = (r.storeValue env threadId i a s).remap m := by
  rw [storeValue_eq hi, storeValue_eq hi]
  rfl

theorem storeValue_pvMapping (hi : i < r.numberOfVariables) :
    (r.storeValue env threadId i a s).pvMapping = s.pvMapping := by
  rw [storeValue_eq hi]

/-- The index of a frame depends on its name and on the entry for its sender index. -/
theorem resolve_congr (hentry : s.pvMapping h.receivedIndex = s'.pvMapping h'.receivedIndex)
    (hname : h.varName = h'.varName) :
    r.resolve env s h = r.resolve env s' h' := by
  unfold DiodeReceiver.resolve
  rw [hentry, hname]

/-- **A frame is its value, and the cache kept.** -/
theorem receive_eq (hi : r.resolve env s a.header = i) (hlt : i < r.numberOfVariables) :
    r.receive env threadId s a = (r.storeValue env threadId i a s).remap
      (r.kept env s.pvMapping a.header) := by
  rw [← storeValue_remap hlt, ← remember_eq, ← hi]
  rfl

theorem kept_of_ne {m : ℕ → ℕ} {p : ℕ} (hp : p ≠ h.receivedIndex) : r.kept env m h p = m p := by
  unfold DiodeReceiver.kept
  split_ifs
  · exact Function.update_of_ne hp _ _
  · rfl

theorem kept_comm {m : ℕ → ℕ} (hne : h.receivedIndex ≠ h'.receivedIndex) :
    r.kept env (r.kept env m h) h' = r.kept env (r.kept env m h') h := by
  have hh : r.kept env m h' h.receivedIndex = m h.receivedIndex := kept_of_ne hne
  have hh' : r.kept env m h h'.receivedIndex = m h'.receivedIndex := kept_of_ne hne.symm
  rw [DiodeReceiver.kept, hh', DiodeReceiver.kept.eq_def r env (r.kept env m h') h, hh]
  unfold DiodeReceiver.kept
  split_ifs
  any_goals rfl
  exact Function.update_comm hne _ _ _

/-- Frames of different PVs with one sender index would have one name, and one PV. -/
theorem receivedIndex_ne (hone : a.header.receivedIndex = b.header.receivedIndex →
    a.header.varName = b.header.varName)
    (hne : r.resolve env s a.header ≠ r.resolve env s b.header) :
    a.header.receivedIndex ≠ b.header.receivedIndex :=
  fun heq => hne (resolve_congr (congrArg s.pvMapping heq) (hone heq))

theorem receive_pvMapping (hlt : r.resolve env s a.header < r.numberOfVariables) :
    (r.receive env threadId s a).pvMapping = r.kept env s.pvMapping a.header := by
  rw [receive_eq rfl hlt]
  rfl

/-- Behind a frame with another sender index a frame has the index it had before. -/
theorem resolve_receive (ha : r.resolve env s a.header < r.numberOfVariables)
    (hindex : a.header.receivedIndex ≠ b.header.receivedIndex) :
    r.resolve env (r.receive env threadId s a) b.header = r.resolve env s b.header := by
  refine resolve_congr ?_ rfl
  rw [receive_pvMapping ha]
  exact kept_of_ne hindex.symm

/-- One frame behind another one: both values, and the cache kept twice. -/
theorem receive_receive (ha : r.resolve env s a.header < r.numberOfVariables)
    (hb : r.resolve env s b.header < r.numberOfVariables)
    (hindex : a.header.receivedIndex ≠ b.header.receivedIndex) (threadId threadId' : ℕ) :
    r.receive env threadId' (r.receive env threadId s a) b =
      (r.storeValue env threadId' (r.resolve env s b.header) b
        (r.storeValue env threadId (r.resolve env s a.header) a s)).remap
          (r.kept env (r.kept env s.pvMapping a.header) b.header) := by
  rw [receive_eq (resolve_receive ha hindex) hb, receive_pvMapping ha, receive_eq rfl ha, storeValue_remap hb]
  rfl

/-- **Frames of different PVs commute.** -/
theorem receive_comm (hfit : r.LayoutFits) (hconv : env.Converts r) (ha : r.Fits (r.resolve env s a.header) a)
    (hb : r.Fits (r.resolve env s b.header) b) (hindex : a.header.receivedIndex ≠ b.header.receivedIndex)
    (hne : r.resolve env s a.header ≠ r.resolve env s b.header) (threadId threadId' : ℕ) :
    r.receive env threadId' (r.receive env threadId s a) b =
      r.receive env threadId (r.receive env threadId' s b) a := by
  rw [receive_receive ha.local_lt hb.local_lt hindex, receive_receive hb.local_lt ha.local_lt hindex.symm,
    storeValue_comm hfit hconv hb ha hne.symm, kept_comm hindex]

end

end Hieratika.Receiver

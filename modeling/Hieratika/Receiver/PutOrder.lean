import Hieratika.Receiver.Mirror
import Hieratika.Receiver.OneFrame

/-!
# The order of the puts

The threads of the server store frames while the put threads go over a copy of the buffer. Thread 0 makes
the copy under the lock (`Synchronise`) and then reads it itself; the other put threads read it without
the lock, also while thread 0 writes it.

## The model

Frames are stored, copied and put by thread 0 as in `PutLoop`. What another thread puts is left open: any
bytes, for any PV of its range, at any moment (`Loop.Other`). The loops of `PutLoop`, whose copies are one
step for all threads, are among these runs (`reachable_race`).

Beside the loops stands the history of each slot: what it held behind each frame for it (`History`). The
history restricts nothing: every run of the loops has one (`Loop.Race.recorded`).

## What is proved

The puts of a PV that no thread but thread 0 has in its range follow the history of its slot: each put is one
of its states, no put mixes two of them, none comes behind a newer one, and no state is put twice. Where
all frames for a PV are whole, a state is the value and the time stamp of one frame (`puts_in_order`).
-/

namespace Hieratika.Receiver

open Foundations Workers

variable {r : DiodeReceiver} {env : Env} {T i j k threadId : ℕ} {arrives : ℕ → Header → Prop} {s s' : Loop}
  {h : Header} {data : Memory}

/-- What has been put for the PV `i`, the last put first. -/
def Loop.putsOf (s : Loop) (i : ℕ) : List (List UInt8) :=
  (s.puts.filter fun p => p.index = i).map Put.pValue

/-- What another put thread leaves alone, and what it may put. -/
structure Loop.Other (r : DiodeReceiver) (T k : ℕ) (s s' : Loop) : Prop where
  store : s'.store = s.store
  memory2 : s'.memory2 = s.memory2
  changeFlag2 : s'.changeFlag2 = s.changeFlag2
  index : s'.index 0 = s.index 0
  puts : s'.puts = s.puts ∨ ∃ p : Put, (r.range T k).Has p.index ∧ s'.puts = p :: s.puts

/-- The steps of the loops when only thread 0 reads the copy that it makes. -/
inductive Loop.Race (r : DiodeReceiver) (env : Env) (T : ℕ) (arrives : ℕ → Header → Prop) : Loop → Loop → Prop
  | store {s : Loop} (threadId i : ℕ) (h : Header) (data : Memory) : arrives i h →
      Loop.Race r env T arrives s (s.storeFrame r env threadId i h data)
  | synchronise {s : Loop} : s.AtTop r T 0 → Loop.Race r env T arrives s (s.synchronise r T)
  | examine {s : Loop} : s.index 0 < (r.range T 0).stop → Loop.Race r env T arrives s (s.examine r 0)
  | other {s s' : Loop} {k : ℕ} : 0 < k → k < T → s.Other r T k s' → Loop.Race r env T arrives s s'

/-- The loops, and what was in the slots. -/
structure History where
  loop : Loop
  /-- What the slot of each PV held behind each of its frames, the last one first. -/
  slots : ℕ → List (List UInt8)
  /-- The value and the time stamp of each frame. -/
  frames : ℕ → List (List UInt8)
  /-- `slots` at the last `Synchronise`. -/
  copied : ℕ → List (List UInt8)

/-- Nothing has been received. -/
def History.start (r : DiodeReceiver) (T : ℕ) : History := ⟨.start r T, fun _ => [], fun _ => [], fun _ => []⟩

variable {x y : History}

/-- A frame for the local index `i` is stored. -/
def History.storeFrame (x : History) (r : DiodeReceiver) (env : Env) (threadId i : ℕ) (h : Header)
    (data : Memory) : History :=
  let loop := x.loop.storeFrame r env threadId i h data
  { x with
    loop := loop
    slots := Function.update x.slots i (r.slotAt loop.store.memory i :: x.slots i)
    frames := Function.update x.frames i (readAt data 0 (h.receivedSize + 8) :: x.frames i) }

/-- The steps of the loops, with the history. -/
inductive History.Step (r : DiodeReceiver) (env : Env) (T : ℕ) (arrives : ℕ → Header → Prop) :
    History → History → Prop
  | store {x : History} (threadId i : ℕ) (h : Header) (data : Memory) : arrives i h →
      History.Step r env T arrives x (x.storeFrame r env threadId i h data)
  | synchronise {x : History} : x.loop.AtTop r T 0 →
      History.Step r env T arrives x { x with loop := x.loop.synchronise r T, copied := x.slots }
  | examine {x : History} : x.loop.index 0 < (r.range T 0).stop →
      History.Step r env T arrives x { x with loop := x.loop.examine r 0 }
  | other {x : History} {loop : Loop} {k : ℕ} : 0 < k → k < T → x.loop.Other r T k loop →
      History.Step r env T arrives x { x with loop := loop }

/-- **Every run has a history**. -/
theorem Loop.Race.recorded (hstep : Loop.Race r env T arrives x.loop s') :
    ∃ y, History.Step r env T arrives x y ∧ y.loop = s' := by
  cases hstep with
  | store threadId i h data harr => exact ⟨_, .store threadId i h data harr, rfl⟩
  | synchronise htop => exact ⟨_, .synchronise htop, rfl⟩
  | examine hlt => exact ⟨_, .examine hlt, rfl⟩
  | other hpos hk hother => exact ⟨_, .other hpos hk hother, rfl⟩

/-! ### The loops with copies in one step -/

theorem range_beg_le_stop (h32 : T < 2 ^ 32) (hk : k < T) : (r.range T k).beg ≤ (r.range T k).stop := by
  have hn : r.numberOfVariables < 2 ^ 32 := r.vars_lt.trans (by decide)
  rw [DiodeReceiver.range, cycleLoopRange, chunkRange_eq hn h32 hk]
  split_ifs
  · exact mul_chunk_le hk.le
  · exact Nat.mul_le_mul_right _ (Nat.le_succ k)

/-- The scans are in their ranges. -/
def Loop.Scans (r : DiodeReceiver) (T : ℕ) (s : Loop) : Prop := ∀ k < T, (r.range T k).beg ≤ s.index k

theorem Loop.scans_start (h32 : T < 2 ^ 32) : (Loop.start r T).Scans r T := fun k hk => by
  rw [Loop.start_index]
  exact range_beg_le_stop h32 hk

/-- A scan begins, or goes on. -/
theorem Loop.Scans.update (hs : s.Scans r T) {n : ℕ} (hn : (r.range T k).beg ≤ n)
    (hindex : s'.index = Function.update s.index k n) : s'.Scans r T := fun j hj => by
  rw [hindex]
  by_cases hjk : j = k
  · subst hjk
    rwa [Function.update_self]
  · rw [Function.update_of_ne hjk]
    exact hs j hj

theorem Loop.Scans.step (hs : s.Scans r T) (hstep : Loop.Step r env T arrives s s') : s'.Scans r T := by
  cases hstep with
  | store _ _ _ _ _ => exact hs
  | synchronise _ => exact hs.update le_rfl rfl
  | restart _ _ _ => exact hs.update le_rfl rfl
  | examine hk _ => exact hs.update ((hs _ hk).trans (Nat.le_succ _)) Loop.examine_index

/-- Another thread examines an index. -/
theorem Loop.other_examine (hpos : 0 < k) (hhas : (r.range T k).Has (s.index k)) :
    s.Other r T k (s.examine r k) where
  store := Loop.examine_frame.1
  memory2 := Loop.examine_frame.2.1
  changeFlag2 := Loop.examine_frame.2.2.1
  index := by
    rw [Loop.examine_index]
    exact Function.update_of_ne hpos.ne _ _
  puts := by
    unfold Loop.examine
    split_ifs
    · exact Or.inr ⟨r.put s.memory2 (s.index k), hhas, rfl⟩
    · exact Or.inl rfl

theorem Loop.Step.race (hs : s.Scans r T) (hstep : Loop.Step r env T arrives s s') :
    Loop.Race r env T arrives s s' := by
  cases hstep with
  | store threadId i h data harr => exact .store threadId i h data harr
  | synchronise htop => exact .synchronise htop
  | @restart k hpos hk _ =>
    exact .other hpos hk ⟨rfl, rfl, rfl, Function.update_of_ne hpos.ne _ _, Or.inl rfl⟩
  | @examine k hk hlt =>
    rcases Nat.eq_zero_or_pos k with rfl | hpos
    · exact .examine hlt
    · exact .other hpos hk (Loop.other_examine hpos ⟨hs k hk, hlt⟩)

/-- **The loops of `PutLoop`** are among those here. -/
theorem reachable_race (h32 : T < 2 ^ 32) (hs : Reachable (Loop.Step r env T arrives) (.start r T) s) :
    Reachable (Loop.Race r env T arrives) (.start r T) s := by
  have hboth : Reachable (Loop.Race r env T arrives) (.start r T) s ∧ s.Scans r T :=
    hs.invariant (I := fun s => Reachable (Loop.Race r env T arrives) (.start r T) s ∧ s.Scans r T)
      ⟨.refl, Loop.scans_start h32⟩ fun _ _ ha hstep => ⟨ha.1.next (hstep.race ha.2), ha.2.step hstep⟩
  exact hboth.1

/-! ### The puts -/

theorem put_pValue (m : Memory) (i : ℕ) : (r.put m i).pValue = r.slotAt m i := rfl

theorem putsOf_examine_self (hflag : s.changeFlag2 (s.index k) = true) (hk : s.index k = i) :
    (s.examine r k).putsOf i = r.slotAt s.memory2 i :: s.putsOf i := by
  subst hk
  rw [Loop.examine, if_pos hflag, Loop.putsOf, List.filter_cons_of_pos (by simp [DiodeReceiver.put]),
    List.map_cons, put_pValue]
  rfl

theorem putsOf_examine_of_not (hnot : ¬ (s.changeFlag2 (s.index k) = true ∧ s.index k = i)) :
    (s.examine r k).putsOf i = s.putsOf i := by
  unfold Loop.examine
  split_ifs with hflag
  · have hne : s.index k ≠ i := fun hk => hnot ⟨hflag, hk⟩
    rw [Loop.putsOf, List.filter_cons_of_neg (by simp [DiodeReceiver.put, hne])]
    rfl
  · rfl

/-! ### The slots -/

/-- A frame for another PV. -/
theorem slotAt_storeFrame_of_ne (hfit : r.LayoutFits) (hconv : env.Converts r) (hi : i < r.numberOfVariables)
    (hne : i ≠ j) (hov : ¬ r.Overflows h j) :
    r.slotAt (s.storeFrame r env threadId j h data).store.memory i = r.slotAt s.store.memory i := by
  have hin : (r.localAt h j).index < r.numberOfVariables →
      ∀ w ∈ r.writes env s.store data h (r.localAt h j), r.Inside (r.localAt h j).index w :=
    fun hj => writes_inside hconv hj hov
  exact readAt_congr fun k hk => (readVarValue_other threadId hfit hin hi (Ne.symm hne) hk).1

/-- The copy has the slots as they are. -/
theorem slotAt_synchronise (hfit : r.LayoutFits) (hi : i < r.numberOfVariables) :
    r.slotAt (s.synchronise r T).memory2 i = r.slotAt s.store.memory i := by
  have hle := slot_le_total hfit hi
  exact readAt_copy (Nat.zero_le _) (by omega)

/-- The copy has the flags as they are. -/
theorem changeFlag2_synchronise (hi : i < r.numberOfVariables) :
    (s.synchronise r T).changeFlag2 i = s.store.changeFlag i := by
  simp [Loop.synchronise, copyFlags, hi]

/-- A longer history behind a part of which `ps` is a sublist. -/
theorem sublist_tail_of_suffix {α : Type*} {l l' ps : List α} (h : List.Sublist ps l) (hl : l <:+ l')
    (hne : l ≠ l') :
    List.Sublist ps l'.tail := by
  obtain ⟨new, rfl⟩ := hl
  cases new with
  | nil => exact absurd rfl hne
  | cons a new => exact h.trans (List.sublist_append_right new l)

/-! ### The invariant -/

/-- An empty slot. -/
def DiodeReceiver.emptySlot (r : DiodeReceiver) (i : ℕ) : List UInt8 :=
  List.replicate ((r.pvs i).totalSize + 8) 0

/-- The PV `i` is in the range of thread 0 and of no other thread. -/
structure DiodeReceiver.Alone (r : DiodeReceiver) (T i : ℕ) : Prop where
  has : (r.range T 0).Has i
  other : ∀ k < T, (r.range T k).Has i → k = 0

/-- What the slot of the PV `i`, its copy, its flags and its puts have to do with its history. -/
structure History.Follows (r : DiodeReceiver) (x : History) (i : ℕ) : Prop where
  slot : r.slotAt x.loop.store.memory i = (x.slots i).headD (r.emptySlot i)
  copy : r.slotAt x.loop.memory2 i = (x.copied i).headD (r.emptySlot i)
  older : x.copied i <:+ x.slots i
  /-- A change came behind the copy. -/
  changed : x.loop.store.changeFlag i = true → x.copied i ≠ x.slots i
  flagged : x.loop.changeFlag2 i = true → x.copied i ≠ []
  /-- What thread 0 is about to put has not been put. -/
  coming : x.loop.changeFlag2 i = true → x.loop.index 0 ≤ i → List.Sublist (x.loop.putsOf i) (x.copied i).tail
  once : List.Sublist (x.loop.putsOf i) (x.copied i)

theorem History.follows_start (r : DiodeReceiver) (T i : ℕ) : (History.start r T).Follows r i where
  slot := by simp [History.start, Loop.start, Store.start, DiodeReceiver.slotAt,
    DiodeReceiver.emptySlot, readAt]
  copy := by simp [History.start, Loop.start, DiodeReceiver.slotAt, DiodeReceiver.emptySlot, readAt]
  older := List.suffix_rfl
  changed := fun h => by cases h
  flagged := fun h => by cases h
  coming := fun h => by cases h
  once := List.nil_sublist _

/-- Nothing but the slot, its copy, its flags, the scan of thread 0 and the puts matters. -/
theorem History.Follows.congr (hx : x.Follows r i) (hmem : y.loop.store.memory = x.loop.store.memory)
    (hflag : y.loop.store.changeFlag = x.loop.store.changeFlag) (hmem2 : y.loop.memory2 = x.loop.memory2)
    (hflag2 : y.loop.changeFlag2 = x.loop.changeFlag2) (hindex : y.loop.index 0 = x.loop.index 0)
    (hputs : y.loop.putsOf i = x.loop.putsOf i) (hslots : y.slots i = x.slots i)
    (hcopied : y.copied i = x.copied i) : y.Follows r i where
  slot := by rw [hmem, hslots]; exact hx.slot
  copy := by rw [hmem2, hcopied]; exact hx.copy
  older := by rw [hslots, hcopied]; exact hx.older
  changed := by rw [hflag, hslots, hcopied]; exact hx.changed
  flagged := by rw [hflag2, hcopied]; exact hx.flagged
  coming := by rw [hflag2, hindex, hputs, hcopied]; exact hx.coming
  once := by rw [hputs, hcopied]; exact hx.once

theorem History.Follows.storeFrame (hfit : r.LayoutFits) (hconv : env.Converts r) (hx : x.Follows r i)
    (hi : i < r.numberOfVariables) (hov : ¬ r.Overflows h j) :
    (x.storeFrame r env threadId j h data).Follows r i := by
  by_cases hij : i = j
  · subst hij
    have hslots : (x.storeFrame r env threadId i h data).slots i =
        r.slotAt (x.loop.storeFrame r env threadId i h data).store.memory i :: x.slots i :=
      Function.update_self _ _ _
    refine ⟨?_, hx.copy, ?_, fun _ heq => ?_, hx.flagged, hx.coming, hx.once⟩
    · rw [hslots]
      rfl
    · rw [hslots]
      exact hx.older.trans (List.suffix_cons _ _)
    · rw [hslots] at heq
      have hlen := hx.older.length_le
      have hcopied : x.copied i = _ := heq
      rw [hcopied, List.length_cons] at hlen
      omega
  · have hslots : (x.storeFrame r env threadId j h data).slots i = x.slots i := Function.update_of_ne hij _ _
    have hslot : r.slotAt (x.loop.storeFrame r env threadId j h data).store.memory i =
        r.slotAt x.loop.store.memory i := slotAt_storeFrame_of_ne hfit hconv hi hij hov
    have hflag : (x.storeFrame r env threadId j h data).loop.store.changeFlag i = x.loop.store.changeFlag i :=
      readVarValue_changeFlag_of_ne hij
    refine ⟨?_, hx.copy, ?_, ?_, hx.flagged, hx.coming, hx.once⟩
    · rw [hslots]
      exact hslot.trans hx.slot
    · rw [hslots]
      exact hx.older
    · rw [hslots, hflag]
      exact hx.changed

theorem History.Follows.synchronise (hfit : r.LayoutFits) (hx : x.Follows r i)
    (hi : i < r.numberOfVariables) :
    History.Follows r { x with loop := x.loop.synchronise r T, copied := x.slots } i where
  slot := hx.slot
  copy := (slotAt_synchronise hfit hi).trans hx.slot
  older := List.suffix_rfl
  changed := fun hflag => by
    rw [show (x.loop.synchronise r T).store.changeFlag i = false from if_pos hi] at hflag
    cases hflag
  flagged := fun hflag hnil => by
    have hchange : x.loop.store.changeFlag i = true := (changeFlag2_synchronise hi).symm.trans hflag
    have hcopied : x.copied i = [] := List.eq_nil_of_suffix_nil (hnil ▸ hx.older)
    exact hx.changed hchange (hcopied.trans hnil.symm)
  coming := fun hflag _ => by
    have hchange : x.loop.store.changeFlag i = true := (changeFlag2_synchronise hi).symm.trans hflag
    exact sublist_tail_of_suffix hx.once hx.older (hx.changed hchange)
  once := hx.once.trans hx.older.sublist

/-- **Thread 0 puts** what it has not put. -/
theorem History.Follows.examine (hx : x.Follows r i) :
    History.Follows r { x with loop := x.loop.examine r 0 } i := by
  obtain ⟨hstore, hmem2, hflag2, -⟩ := Loop.examine_frame (s := x.loop) (r := r) (k := 0)
  have hindex : (x.loop.examine r 0).index 0 = x.loop.index 0 + 1 := by
    rw [Loop.examine_index, Function.update_self]
  refine ⟨?_, ?_, hx.older, ?_, ?_, fun hflag hle => ?_, ?_⟩
  · rw [hstore]
    exact hx.slot
  · rw [hmem2]
    exact hx.copy
  · rw [hstore]
    exact hx.changed
  · rw [hflag2]
    exact hx.flagged
  · rw [hindex] at hle
    rw [hflag2] at hflag
    rw [putsOf_examine_of_not fun hput => absurd hput.2 (Nat.ne_of_lt hle)]
    exact hx.coming hflag ((Nat.le_succ _).trans hle)
  · by_cases hput : x.loop.changeFlag2 (x.loop.index 0) = true ∧ x.loop.index 0 = i
    · obtain ⟨hflag, hk⟩ := hput
      have hcoming := hx.coming (hk ▸ hflag) hk.le
      have hne := hx.flagged (hk ▸ hflag)
      rw [putsOf_examine_self hflag hk, hx.copy]
      show List.Sublist _ (x.copied i)
      cases hcopied : x.copied i with
      | nil => exact absurd hcopied hne
      | cons a l =>
        rw [hcopied] at hcoming
        exact hcoming.cons_cons a
    · rw [putsOf_examine_of_not hput]
      exact hx.once

/-- Another thread does not have the PV. -/
theorem Loop.Other.putsOf (hother : s.Other r T k s') (hown : r.Alone T i) (hpos : 0 < k) (hk : k < T) :
    s'.putsOf i = s.putsOf i := by
  rcases hother.puts with hputs | ⟨p, hhas, hputs⟩
  · rw [Loop.putsOf, hputs, Loop.putsOf]
  · have hne : p.index ≠ i := by
      rintro rfl
      exact hpos.ne' (hown.other k hk hhas)
    rw [Loop.putsOf, hputs, List.filter_cons_of_neg (by simp [hne]), Loop.putsOf]

theorem History.Follows.other (hx : x.Follows r i) (hown : r.Alone T i) (hpos : 0 < k) (hk : k < T)
    (hother : x.loop.Other r T k s') : History.Follows r { x with loop := s' } i :=
  hx.congr (by rw [hother.store]) (by rw [hother.store]) hother.memory2 hother.changeFlag2 hother.index
    (hother.putsOf hown hpos hk) rfl rfl

/-- **One step.** -/
theorem History.Follows.step (hfit : r.LayoutFits) (hconv : env.Converts r)
    (harr : ∀ j h, arrives j h → ¬ r.Overflows h j) (hi : i < r.numberOfVariables) (hown : r.Alone T i)
    (hx : x.Follows r i) (hstep : History.Step r env T arrives x y) : y.Follows r i := by
  cases hstep with
  | store threadId j h data hj => exact hx.storeFrame hfit hconv hi (harr j h hj)
  | synchronise _ => exact hx.synchronise hfit hi
  | examine _ => exact hx.examine
  | other hpos hk hother => exact hx.other hown hpos hk hother

/-! ### Whole frames -/

/-- With whole frames for the PV, the history is that of the frames. -/
theorem History.Step.whole (hi : r.Connected i) (hwhole : ∀ h, arrives i h → r.WholeFrame i h)
    (hx : x.slots i = x.frames i) (hstep : History.Step r env T arrives x y) : y.slots i = y.frames i := by
  cases hstep with
  | store threadId j h data hj =>
    by_cases hij : i = j
    · subst hij
      have hw := hwhole h hj
      have hslot := readVarValue_slot env threadId x.loop.store data hi.1 hi.2 hw
      rw [← hw.1] at hslot
      show Function.update x.slots i _ i = Function.update x.frames i _ i
      rw [Function.update_self, Function.update_self, hx, ← hslot, hw.1]
      rfl
    · show Function.update x.slots j _ i = Function.update x.frames j _ i
      rw [Function.update_of_ne hij, Function.update_of_ne hij, hx]
  | synchronise _ | examine _ | other _ _ _ => exact hx

/-- **Puts come in order**: what is put for a PV that thread 0 has alone follows what was in its slot, without
a mixture, without an older value behind a newer one, and each state at most once; and where the frames
for a PV are whole, its states are the frames. -/
theorem puts_in_order (r : DiodeReceiver) (env : Env) (T : ℕ) (arrives : ℕ → Header → Prop)
    (x : History) (i : ℕ)
    (hfit : r.LayoutFits) (hconv : env.Converts r) (harr : ∀ j h, arrives j h → ¬ r.Overflows h j)
    (hi : r.Connected i) (hown : r.Alone T i) (hx : Reachable (History.Step r env T arrives) (.start r T) x) :
    List.Sublist (x.loop.putsOf i) (x.slots i) ∧
      ((∀ h, arrives i h → r.WholeFrame i h) → x.slots i = x.frames i) := by
  have hfol : x.Follows r i := hx.invariant (I := fun x => x.Follows r i) (History.follows_start r T i)
    fun _ _ ha hs => ha.step hfit hconv harr hi.1 hown hs
  exact ⟨hfol.once.trans hfol.older.sublist, fun hwhole =>
    hx.invariant (I := fun x => x.slots i = x.frames i) rfl fun _ _ ha hs => hs.whole hi hwhole ha⟩

/-! ### A run of two threads -/

/-- A put with any bytes. -/
def Loop.putAnything (s : Loop) (p : Put) : Loop := { s with puts := p :: s.puts }

theorem Loop.other_putAnything {p : Put} (hhas : (r.range T k).Has p.index) :
    s.Other r T k (s.putAnything p) :=
  ⟨rfl, rfl, rfl, rfl, Or.inr ⟨p, hhas, rfl⟩⟩

/-- A frame of equal bytes for the first of three PVs, the copy, a torn put of the last PV by thread 1, and
the scan of thread 0. -/
def History.served (x : History) (b : UInt8) : History :=
  let stored := x.storeFrame threePvs plainEnv 0 0 (wholeHeader threePvs 0) fun _ => b
  let raced := (stored.loop.synchronise threePvs 2).putAnything ⟨2, 0, 2, [b, 0]⟩
  { stored with loop := raced.examine threePvs 0, copied := stored.slots }

theorem threePvs_ranges : threePvs.range 2 0 = ⟨0, 1⟩ ∧ threePvs.range 2 1 = ⟨1, 3⟩ := by decide

theorem threePvs_alone : threePvs.Alone 2 0 := by
  obtain ⟨hzero, hone⟩ := threePvs_ranges
  refine ⟨by rw [hzero]; decide, fun k hk hhas => ?_⟩
  by_contra hne
  obtain rfl : k = 1 := by omega
  rw [hone] at hhas
  exact absurd hhas (by decide)

theorem History.served_run {b : UInt8} (htop : x.loop.AtTop threePvs 2 0) :
    Reachable (History.Step threePvs plainEnv 2 threePvs.WholeFrame) x (x.served b) ∧
      (x.served b).loop.AtTop threePvs 2 0 := by
  obtain ⟨hzero, hone⟩ := threePvs_ranges
  have hstored : History.Step threePvs plainEnv 2 threePvs.WholeFrame x _ :=
    .store 0 0 (wholeHeader threePvs 0) (fun _ => b) ⟨rfl, rfl⟩
  have hcopied := (Reachable.refl.next hstored).next (.synchronise (Loop.atTop_storeFrame.mpr htop))
  have hhas : (threePvs.range 2 1).Has 2 := by rw [hone]; decide
  have hraced := hcopied.next (.other Nat.one_pos Nat.one_lt_two
    (Loop.other_putAnything (p := ⟨2, 0, 2, [b, 0]⟩) hhas))
  refine ⟨hraced.next (.examine ?_), ?_⟩
  · rw [hzero]
    exact Nat.one_pos
  · rw [Loop.AtTop, hzero, History.served, Loop.examine_index, Function.update_self]
    exact Nat.le_add_left 1 _

/-- Two frames and two puts of the first PV, beside two torn puts of another one. -/
theorem puts_in_order_two : ∃ x, Reachable (History.Step threePvs plainEnv 2 threePvs.WholeFrame)
    (.start threePvs 2) x ∧ x.loop.putsOf 0 = [List.replicate 10 2, List.replicate 10 1] ∧
      x.loop.putsOf 2 = [[2, 0], [1, 0]] ∧ List.Sublist (x.loop.putsOf 0) (x.slots 0) ∧
      x.slots 0 = x.frames 0 := by
  obtain ⟨hone, htop⟩ := History.served_run (x := .start threePvs 2) (b := 1) (Loop.atTop_start 0)
  obtain ⟨htwo, -⟩ := History.served_run (b := 2) htop
  obtain ⟨honce, hwhole⟩ := puts_in_order threePvs plainEnv 2 threePvs.WholeFrame _ 0
    (show threePvs.slotsEnd 3 < 2 ^ 32 by decide) (fun _ _ _ _ => Nat.zero_le _)
    (fun _ _ hw => not_overflows_of_whole hw) ⟨by decide, by decide⟩ threePvs_alone (hone.trans htwo)
  exact ⟨_, hone.trans htwo, rfl, rfl, honce, hwhole fun _ hw => hw⟩

end Hieratika.Receiver

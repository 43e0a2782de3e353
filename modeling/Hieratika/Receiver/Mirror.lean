import Hieratika.Receiver.PutLoop
import Mathlib.Logic.Function.Iterate

/-!
# What the receiver puts

One put thread, and frames that carry whole values: after a put cycle, is the last value put
for a PV the last value received for it?

## What is proved

The comparison of `ReadVarValueAndSkip` is with `memoryPrec`, which `Start` fills with zeros:
the first value received for a PV is a change only if it is not zero. A PV whose values were
all zero so far has never been put; as soon as one was not, every put cycle leaves the
last value received (`mirrors_iff`).
-/

namespace Hieratika.Receiver

open Foundations Workers

variable {r : DiodeReceiver} {env : Env} {i j k n threadId : ℕ} {s s' : Loop} {h : Header} {data : Memory}

/-- The value of a PV that is all zero bytes. -/
def DiodeReceiver.zeros (r : DiodeReceiver) (i : ℕ) : List UInt8 := List.replicate (r.pvs i).totalSize 0

/-- The value part of a slot. -/
def DiodeReceiver.valueAt (r : DiodeReceiver) (m : Memory) (i : ℕ) : List UInt8 :=
  readAt m (r.offset i) (r.pvs i).totalSize

/-- The value of a put. -/
def DiodeReceiver.putValue (r : DiodeReceiver) (p : Put) : List UInt8 :=
  p.pValue.take (r.pvs p.index).totalSize

/-- The last value put for the PV `i`. -/
def Loop.lastPut (s : Loop) (r : DiodeReceiver) (i : ℕ) : Option (List UInt8) :=
  (s.puts.find? fun p => p.index = i).map r.putValue

/-- A put cycle of the one thread: `Synchronise`, then every index. -/
def Loop.cycle (s : Loop) (r : DiodeReceiver) : Loop :=
  (fun s => s.examine r 0)^[r.numberOfVariables] (s.synchronise r 1)

/-- The PV is connected and has elements. -/
def DiodeReceiver.Connected (r : DiodeReceiver) (i : ℕ) : Prop :=
  i < r.numberOfVariables ∧ 0 < (r.pvs i).totalSize

/-- The runs: one put thread, frames with whole values. -/
def Loop.Run (r : DiodeReceiver) (env : Env) : Loop → Prop :=
  Reachable (Loop.Step r env 1 r.WholeFrame) (Loop.start r 1)

/-! ### The range of one thread -/

theorem range_one (r : DiodeReceiver) : r.range 1 0 = ⟨0, r.numberOfVariables⟩ := by
  have h := last_stop (n := r.numberOfVariables) (T := 1) (r.vars_lt.trans (by decide)) (by decide)
    (by decide)
  simpa [DiodeReceiver.range, cycleLoopRange] using h

theorem atTop_iff : s.AtTop r 1 0 ↔ r.numberOfVariables ≤ s.index 0 := by
  rw [Loop.AtTop, range_one]

/-! ### The puts -/

theorem putValue_put (m : Memory) (i : ℕ) : r.putValue (r.put m i) = r.valueAt m i := by
  simp only [DiodeReceiver.putValue, DiodeReceiver.put, DiodeReceiver.valueAt, readAt_add]
  exact List.take_left' length_readAt

theorem lastPut_examine_self (hflag : s.changeFlag2 (s.index 0) = true) :
    (s.examine r 0).lastPut r (s.index 0) = some (r.valueAt s.memory2 (s.index 0)) := by
  rw [Loop.examine, if_pos hflag, Loop.lastPut, List.find?_cons_of_pos (by simp [DiodeReceiver.put]),
    Option.map_some,
    putValue_put]

/-- The PVs that are not put keep their last put. -/
theorem lastPut_examine_of_ne (hne : s.changeFlag2 (s.index 0) = true → i ≠ s.index 0) :
    (s.examine r 0).lastPut r i = s.lastPut r i := by
  unfold Loop.examine
  split_ifs with hflag
  · rw [Loop.lastPut, List.find?_cons_of_neg (by simp [DiodeReceiver.put, (hne hflag).symm]), Loop.lastPut]
  · rfl

/-! ### The invariant -/

/-- The flag of the PV `i` has been moved and its index is still to come. -/
def Loop.Pending (s : Loop) (i : ℕ) : Prop := s.changeFlag2 i = true ∧ s.index 0 ≤ i

/-- Where the last value received for a connected PV is. -/
structure Loop.Tracks (r : DiodeReceiver) (s : Loop) (i : ℕ) : Prop where
  /-- It is in the buffer. -/
  memory : r.valueAt s.store.memory i = (s.received i).headD (r.zeros i)
  /-- The previous value is the current one. -/
  memoryPrec : r.valueAt s.store.memoryPrec i = r.valueAt s.store.memory i
  /-- Once a value was not zero: it is flagged, or on its way, or put. -/
  put : (∃ v ∈ s.received i, v ≠ r.zeros i) → s.store.changeFlag i = false →
    (s.Pending i → r.valueAt s.memory2 i = r.valueAt s.store.memory i) ∧
      (¬ s.Pending i → s.lastPut r i = some (r.valueAt s.store.memory i))
  /-- As long as all values were zero: nothing happens. -/
  silent : (∀ v ∈ s.received i, v = r.zeros i) →
    s.store.changeFlag i = false ∧ s.changeFlag2 i = false ∧ s.lastPut r i = none

theorem Loop.tracks_start (r : DiodeReceiver) (i : ℕ) : (Loop.start r 1).Tracks r i := by
  have hzero : ∀ m : Memory, (∀ x, m x = 0) → r.valueAt m i = r.zeros i := fun m hm => by
    simp [DiodeReceiver.valueAt, DiodeReceiver.zeros, readAt, hm]
  refine ⟨hzero _ fun _ => rfl, rfl, ?_, fun _ => ⟨rfl, rfl, rfl⟩⟩
  rintro ⟨v, hv, -⟩
  simp [Loop.start] at hv

/-- The last value is not zero only if some value is not. -/
theorem Loop.Tracks.exists_ne (hs : s.Tracks r i) (hne : r.valueAt s.store.memory i ≠ r.zeros i) :
    ∃ v ∈ s.received i, v ≠ r.zeros i := by
  rw [hs.memory] at hne
  cases hrec : s.received i with
  | nil => rw [hrec] at hne; exact absurd rfl hne
  | cons v vs => rw [hrec] at hne; exact ⟨v, by simp, hne⟩

/-- A frame for another PV leaves the PV alone. -/
theorem Loop.Tracks.storeFrame_other (hfit : r.LayoutFits) (hconv : env.Converts r) (hs : s.Tracks r j)
    (hj : r.Connected j) (hw : r.WholeFrame i h) (hne : j ≠ i) :
    (s.storeFrame r env threadId i h data).Tracks r j := by
  have hin : (r.localAt h i).index < r.numberOfVariables →
      ∀ w ∈ r.writes env s.store data h (r.localAt h i), r.Inside (r.localAt h i).index w :=
    fun hi => writes_inside hconv hi (not_overflows_of_whole hw)
  have hother := fun k hk => readVarValue_other (k := k) threadId hfit hin hj.1 (Ne.symm hne) hk
  have hmem : r.valueAt (s.storeFrame r env threadId i h data).store.memory j = r.valueAt s.store.memory j :=
    readAt_congr fun k hk => (hother k (by omega)).1
  have hprec : r.valueAt (s.storeFrame r env threadId i h data).store.memoryPrec j =
      r.valueAt s.store.memoryPrec j :=
    readAt_congr fun k hk => (hother k (by omega)).2
  have hrec : (s.storeFrame r env threadId i h data).received j = s.received j :=
    Function.update_of_ne hne _ _
  have hflag : (s.storeFrame r env threadId i h data).store.changeFlag j = s.store.changeFlag j :=
    readVarValue_changeFlag_of_ne hne
  refine ⟨by rw [hmem, hrec]; exact hs.memory, by rw [hmem, hprec]; exact hs.memoryPrec, ?_, ?_⟩
  · rw [hrec, hflag, hmem]
    exact hs.put
  · rw [hrec, hflag]
    exact hs.silent

/-- A frame for the PV itself. -/
theorem Loop.Tracks.storeFrame_self (hs : s.Tracks r i) (hi : r.Connected i) (hw : r.WholeFrame i h) :
    (s.storeFrame r env threadId i h data).Tracks r i := by
  have hslot := readVarValue_slot env threadId s.store data hi.1 hi.2 hw
  rw [readAt_add, readAt_add] at hslot
  have hmem : r.valueAt (s.storeFrame r env threadId i h data).store.memory i =
      readAt data 0 (r.pvs i).totalSize :=
    (List.append_inj' hslot (by simp)).1
  have hrec : (s.storeFrame r env threadId i h data).received i =
      readAt data 0 (r.pvs i).totalSize :: s.received i := by
    simp only [Loop.storeFrame, Function.update_self, hw.1]
  have hhead : r.valueAt (s.storeFrame r env threadId i h data).store.memory i =
      ((s.storeFrame r env threadId i h data).received i).headD (r.zeros i) := by rw [hmem, hrec]; rfl
  rcases readVarValue_cases (l := r.localAt h i) hi.1 rfl with ⟨heq, hflag, hprec⟩ | ⟨hne, hflag, hprec⟩
  · replace heq :
      r.valueAt (s.storeFrame r env threadId i h data).store.memory i = r.valueAt s.store.memory i :=
      heq.trans hs.memoryPrec
    replace hflag : (s.storeFrame r env threadId i h data).store.changeFlag = s.store.changeFlag := hflag
    replace hprec : (s.storeFrame r env threadId i h data).store.memoryPrec = s.store.memoryPrec := hprec
    refine ⟨hhead, by rw [heq, hprec]; exact hs.memoryPrec, fun hex hno => ?_, fun hall => ?_⟩
    · rw [hflag] at hno
      have hex' : ∃ v ∈ s.received i, v ≠ r.zeros i := by
        obtain ⟨v, hv, hne⟩ := hex
        rw [hrec, List.mem_cons] at hv
        rcases hv with rfl | hv
        · exact hs.exists_ne (by rwa [← heq, hmem])
        · exact ⟨v, hv, hne⟩
      rw [heq]
      exact hs.put hex' hno
    · rw [hflag]
      exact hs.silent fun v hv => hall v (by rw [hrec]; exact List.mem_cons_of_mem _ hv)
  · replace hne :
      r.valueAt (s.storeFrame r env threadId i h data).store.memory i ≠ r.valueAt s.store.memoryPrec i := hne
    replace hflag : (s.storeFrame r env threadId i h data).store.changeFlag i = true := by
      have hi' := congrFun hflag i
      rwa [show (r.localAt h i).index = i from rfl, Function.update_self] at hi'
    refine ⟨hhead, ?_, fun _ hno => ?_, fun hall => ?_⟩
    · have hp := congrArg (fun m => r.valueAt m i) hprec
      exact hp.trans readAt_writeAt_readAt
    · rw [hflag] at hno; cases hno
    · rw [hs.memoryPrec] at hne
      have hcur : r.valueAt s.store.memory i = r.zeros i := by
        by_contra hcur
        obtain ⟨v, hv, hv0⟩ := hs.exists_ne hcur
        exact hv0 (hall v (by rw [hrec]; exact List.mem_cons_of_mem _ hv))
      exact absurd ((hmem.trans (hall _ (by rw [hrec]; simp))).trans hcur.symm) hne

/-- `Synchronise` moves the flag, or finds the value put. -/
theorem Loop.Tracks.synchronise (hfit : r.LayoutFits) (hs : s.Tracks r i) (hi : r.Connected i)
    (htop : s.AtTop r 1 0) :
    (s.synchronise r 1).Tracks r i := by
  have hlt := hi.1
  have hnot : ¬ s.Pending i := fun hp => by
    have := atTop_iff.mp htop
    have := hp.2
    omega
  have hmem2 : r.valueAt (s.synchronise r 1).memory2 i = r.valueAt s.store.memory i :=
    readAt_copy (Nat.zero_le _) (by have := slot_le_total hfit hlt; omega)
  have hflag2 : (s.synchronise r 1).changeFlag2 i = s.store.changeFlag i := if_pos hlt
  refine ⟨hs.memory, hs.memoryPrec, fun hex _ => ⟨fun _ => hmem2, fun hnp => ?_⟩, fun hall => ?_⟩
  · have hzero : s.store.changeFlag i = false := by
      by_contra hc
      refine hnp ⟨hflag2.trans (by simpa using hc), ?_⟩
      simp [Loop.synchronise, range_one]
    exact (hs.put hex hzero).2 hnot
  · obtain ⟨h1, h2, h3⟩ := hs.silent hall
    exact ⟨if_pos hlt, hflag2.trans h1, h3⟩

/-- Examining an index puts what is pending there. -/
theorem Loop.Tracks.examine (hs : s.Tracks r i) : (s.examine r 0).Tracks r i := by
  obtain ⟨hstore, hmem2, hcf, hrec, -⟩ := Loop.examine_frame (s := s) (r := r) (k := 0)
  have hpend : (s.examine r 0).Pending i ↔ s.Pending i ∧ i ≠ s.index 0 := by
    simp only [Loop.Pending, hcf, Loop.examine_index, Function.update_self]
    constructor
    · rintro ⟨h1, h2⟩; exact ⟨⟨h1, by omega⟩, by omega⟩
    · rintro ⟨⟨h1, h2⟩, h3⟩; exact ⟨h1, by omega⟩
  have hmemory := hs.memory
  have hprec := hs.memoryPrec
  rw [← hrec, ← hstore] at hmemory
  rw [← hstore] at hprec
  refine ⟨hmemory, hprec, fun hex hno => ?_, fun hall => ?_⟩
  · rw [hrec] at hex
    rw [hstore] at hno ⊢
    obtain ⟨h1, h2⟩ := hs.put hex hno
    rw [hmem2, hpend]
    refine ⟨fun hp => h1 hp.1, fun hnp => ?_⟩
    by_cases hput : s.changeFlag2 (s.index 0) = true ∧ i = s.index 0
    · obtain ⟨hflag, rfl⟩ := hput
      rw [lastPut_examine_self hflag, h1 ⟨hflag, le_rfl⟩]
    · rw [lastPut_examine_of_ne fun hflag he => hput ⟨hflag, he⟩]
      exact h2 fun hp => hnp ⟨hp, fun he => hput ⟨he ▸ hp.1, he⟩⟩
  · rw [hrec] at hall
    obtain ⟨h1, h2, h3⟩ := hs.silent hall
    rw [hstore, hcf, lastPut_examine_of_ne fun hflag he => by rw [← he, h2] at hflag; cases hflag]
    exact ⟨h1, h2, h3⟩

theorem Loop.Tracks.step (hfit : r.LayoutFits) (hconv : env.Converts r) (hi : r.Connected i)
    (hs : s.Tracks r i) (hstep : Loop.Step r env 1 r.WholeFrame s s') : s'.Tracks r i := by
  cases hstep with
  | store threadId j h data hw =>
    by_cases hij : i = j
    · subst hij; exact hs.storeFrame_self hi hw
    · exact hs.storeFrame_other hfit hconv hi hw hij
  | synchronise htop => exact hs.synchronise hfit hi htop
  | restart hk hk' _ => omega
  | @examine k hk _ =>
    obtain rfl : k = 0 := by omega
    exact hs.examine

/-- **Every run tracks the values received.** -/
theorem Loop.Run.tracks (hfit : r.LayoutFits) (hconv : env.Converts r) (hi : r.Connected i)
    (hs : Loop.Run r env s) :
    s.Tracks r i :=
  hs.invariant (I := fun s => s.Tracks r i) (Loop.tracks_start r i) fun _ _ ht hstep =>
    ht.step hfit hconv hi hstep

/-! ### A put cycle -/

/-- The one thread's scan is a run and leaves the buffer alone. -/
theorem scan_run (hs : Loop.Run r env s) (hn : s.index 0 + n = r.numberOfVariables) :
    Loop.Run r env ((fun s => s.examine r 0)^[n] s) ∧ ((fun s => s.examine r 0)^[n] s).store = s.store ∧
      ((fun s => s.examine r 0)^[n] s).received = s.received ∧
      ((fun s => s.examine r 0)^[n] s).index 0 = r.numberOfVariables := by
  induction n generalizing s with
  | zero => exact ⟨hs, rfl, rfl, hn⟩
  | succ n ih =>
    have hstep : Loop.Step r env 1 r.WholeFrame s (s.examine r 0) :=
      .examine Nat.one_pos (by rw [range_one]; show s.index 0 < r.numberOfVariables; omega)
    obtain ⟨h1, h2, h3, h4⟩ := ih (Reachable.next hs hstep) (by simp; omega)
    obtain ⟨hstore, -, -, hrec, -⟩ := Loop.examine_frame (s := s) (r := r) (k := 0)
    exact ⟨h1, h2.trans hstore, h3.trans hrec, h4⟩

/-- A put cycle is a run that ends at the top, with every flag moved. -/
theorem cycle_run (hs : Loop.Run r env s) (htop : s.AtTop r 1 0) :
    Loop.Run r env (s.cycle r) ∧ (s.cycle r).AtTop r 1 0 ∧ (s.cycle r).received = s.received ∧
      ∀ i < r.numberOfVariables, (s.cycle r).store.changeFlag i = false := by
  have hsync : Loop.Run r env (s.synchronise r 1) := Reachable.next hs (.synchronise htop)
  obtain ⟨h1, h2, h3, h4⟩ := scan_run (n := r.numberOfVariables) hsync (by simp [Loop.synchronise, range_one])
  refine ⟨h1, atTop_iff.mpr h4.ge, h3, fun i hi => ?_⟩
  rw [Loop.cycle, h2]
  exact if_pos hi

/-- After a put cycle, what was put last for a PV some of whose values were not zero. -/
theorem lastPut_cycle (hfit : r.LayoutFits) (hconv : env.Converts r) (hs : Loop.Run r env s)
    (htop : s.AtTop r 1 0) (hi : r.Connected i) (hex : ∃ v ∈ s.received i, v ≠ r.zeros i) :
    (s.cycle r).lastPut r i = (s.received i).head? := by
  obtain ⟨hrun, htop', hrec, hflag⟩ := cycle_run hs htop
  have ht := hrun.tracks hfit hconv hi
  have hlt := hi.1
  have hnot : ¬ (s.cycle r).Pending i := fun hp => by
    have := atTop_iff.mp htop'
    have := hp.2
    omega
  rw [(ht.put (by rwa [hrec]) (hflag i hi.1)).2 hnot, ht.memory, hrec]
  obtain ⟨v, hv, -⟩ := hex
  cases hrv : s.received i with
  | nil => rw [hrv] at hv; cases hv
  | cons w ws => rfl

/-- A PV whose values were all zero is not put. -/
theorem lastPut_cycle_zero (hfit : r.LayoutFits) (hconv : env.Converts r) (hs : Loop.Run r env s)
    (htop : s.AtTop r 1 0) (hi : r.Connected i) (hall : ∀ v ∈ s.received i, v = r.zeros i) :
    (s.cycle r).lastPut r i = none := by
  obtain ⟨hrun, -, hrec, -⟩ := cycle_run hs htop
  exact ((hrun.tracks hfit hconv hi).silent (by rwa [hrec])).2.2

/-- Every connected PV that has received a frame has been put, and its last put is its last value. -/
def Loop.Mirrors (s : Loop) (r : DiodeReceiver) : Prop :=
  ∀ i, r.Connected i → s.received i ≠ [] → ∃ v, s.lastPut r i = some v ∧ (s.received i).head? = some v

/-- **The receiver mirrors the sender** after a put cycle exactly when every connected PV that has
received a frame has received a value that is not zero. -/
theorem mirrors_iff (r : DiodeReceiver) (env : Env) (hfit : r.LayoutFits) (hconv : env.Converts r) (s : Loop)
    (hs : Loop.Run r env s) (htop : s.AtTop r 1 0) :
    (s.cycle r).Mirrors r ↔ ∀ i, r.Connected i → s.received i ≠ [] → ∃ v ∈ s.received i, v ≠ r.zeros i := by
  have hrec := (cycle_run hs htop).2.2.1
  constructor
  · intro hm i hi hne
    by_contra hall
    push Not at hall
    obtain ⟨v, hv, -⟩ := hm i hi (by rwa [hrec])
    rw [lastPut_cycle_zero hfit hconv hs htop hi hall] at hv
    cases hv
  · intro hex i hi hne
    rw [hrec] at hne ⊢
    rw [lastPut_cycle hfit hconv hs htop hi (hex i hi hne)]
    exact ⟨_, List.head?_eq_some_head hne, List.head?_eq_some_head hne⟩

/-- The loops after one frame for the PV of `onePv`. -/
def onceStored (data : Memory) : Loop :=
  (Loop.start (onePv 4) 1).storeFrame (onePv 4) plainEnv 0 0 (wholeHeader (onePv 4) 0) data

theorem onceStored_run (data : Memory) : Loop.Run (onePv 4) plainEnv (onceStored data) ∧
    (onceStored data).AtTop (onePv 4) 1 0 :=
  ⟨Reachable.next .refl (.store 0 0 _ data ⟨rfl, rfl⟩), Loop.atTop_storeFrame.mpr (Loop.atTop_start 0)⟩

theorem onePv_fits : (onePv 4).LayoutFits := show (onePv 4).slotsEnd 1 < 2 ^ 32 by decide

theorem onePv_connected : (onePv 4).Connected 0 := ⟨Nat.one_pos, Nat.two_pos⟩

/-- A value that is not zero is put. -/
theorem mirrors_ones : ((onceStored fun _ => 1).cycle (onePv 4)).Mirrors (onePv 4) :=
  (mirrors_iff (onePv 4) plainEnv onePv_fits (fun _ _ _ _ => Nat.zero_le _) _ (onceStored_run _).1
    (onceStored_run _).2).mpr fun i hi _ => by
      obtain rfl : i = 0 := Nat.lt_one_iff.mp hi.1
      exact ⟨[1, 1], List.mem_singleton.mpr rfl, by decide⟩

/-- A first value of two zero bytes is never put. -/
theorem not_mirrors_zeros : ¬ ∀ (r : DiodeReceiver) (env : Env), r.LayoutFits → env.Converts r →
    ∀ s, Loop.Run r env s → s.AtTop r 1 0 → (s.cycle r).Mirrors r := by
  intro hall
  have hconv : plainEnv.Converts (onePv 4) := fun _ _ _ _ => Nat.zero_le _
  obtain ⟨hrun, htop⟩ := onceStored_run fun _ => 0
  have hrec : ((onceStored fun _ => 0).cycle (onePv 4)).received 0 = [[0, 0]] :=
    congrFun (cycle_run hrun htop).2.2.1 0
  obtain ⟨v, hv, -⟩ := hall (onePv 4) plainEnv onePv_fits hconv _ hrun htop 0 onePv_connected (by simp [hrec])
  have hnone := lastPut_cycle_zero onePv_fits hconv hrun htop onePv_connected
    (fun w hw => List.mem_singleton.mp hw)
  rw [hnone] at hv
  cases hv

end Hieratika.Receiver

import Hieratika.Subscriber.Places

/-!
# The memory layout of the subscriber

The runs of the threads, the callbacks and the reader, from the start to after `InitialisationDone`.

## What is proved

`Startup.Inv` holds in every reachable state: a thread that is past `FillMemorySizes` has placed its
PVs, the offsets are those in the blocks until the last thread is done and those in the memory put
together from then on, and the place of a PV holds what its callbacks have stored. `layout_sound`
follows: once `InitialisationDone` holds, the PVs with elements have disjoint places in the memory,
and what `Synchronise` copies there is what their callbacks have stored.
-/

namespace Hieratika.Subscriber

open Foundations Workers

variable {c : Setup} {s s' : Startup} {i j t : ℕ}

/-! ### What is at the place of a PV -/

/-- The value. -/
def Startup.valueAt (c : Setup) (s : Startup) (i : ℕ) : List UInt8 :=
  readAt (s.memory (c.owner i)) (c.pos i) (c.size i)

/-- The time stamp. -/
def Startup.timeStampAt (c : Setup) (s : Startup) (i : ℕ) : List UInt8 :=
  readAt (s.memory (c.owner i)) (c.pos i + c.size i) 8

/-- A copy into the place of one PV leaves a read in the place of another one as it was. -/
theorem Startup.read_copyTo (hc : c.Sound) {d e n : ℕ} {bytes : List UInt8} (hij : j ≠ i)
    (hi : 0 < c.elements i)
    (hj : 0 < c.elements j) (hd : d + bytes.length ≤ c.size i + 8) (he : e + n ≤ c.size j + 8) :
    readAt ((s.copyTo ⟨c.owner i, c.pos i + d⟩ bytes).memory (c.owner j)) (c.pos j + e) n =
      readAt (s.memory (c.owner j)) (c.pos j + e) n := by
  by_cases howner : c.owner j = c.owner i
  · have hapart := Setup.pos_apart hc hij howner hj hi
    simp only [Startup.copyTo, howner, Function.update_self]
    exact readAt_writeAt_of_disjoint (by omega)
  · simp only [Startup.copyTo, Function.update_of_ne howner]

/-- The value callback writes the value. -/
theorem Startup.valueAt_copyTo {bytes : List UInt8} (h : bytes.length = c.size i) :
    (s.copyTo ⟨c.owner i, c.pos i⟩ bytes).valueAt c i = bytes := by
  simp only [Startup.valueAt, Startup.copyTo, Function.update_self, ← h, readAt_writeAt]

/-- It leaves the time stamp. -/
theorem Startup.timeStampAt_copyTo_value {bytes : List UInt8} (h : bytes.length = c.size i) :
    (s.copyTo ⟨c.owner i, c.pos i⟩ bytes).timeStampAt c i = s.timeStampAt c i := by
  simp only [Startup.timeStampAt, Startup.copyTo, Function.update_self]
  exact readAt_writeAt_of_disjoint (by omega)

/-- The time stamp callback writes the time stamp. -/
theorem Startup.timeStampAt_copyTo {bytes : List UInt8} (h : bytes.length = 8) :
    (s.copyTo ⟨c.owner i, c.pos i + c.size i⟩ bytes).timeStampAt c i = bytes := by
  simp only [Startup.timeStampAt, Startup.copyTo, Function.update_self, ← h, readAt_writeAt]

/-- It leaves the value. -/
theorem Startup.valueAt_copyTo_timeStamp {bytes : List UInt8} :
    (s.copyTo ⟨c.owner i, c.pos i + c.size i⟩ bytes).valueAt c i = s.valueAt c i := by
  simp only [Startup.valueAt, Startup.copyTo, Function.update_self]
  exact readAt_writeAt_of_disjoint (by omega)

/-! ### The invariant -/

/-- The threads that are done. -/
def Startup.doneThreads (c : Setup) (s : Startup) : Finset ℕ :=
  (Finset.range c.numberOfPoolThreads).filter fun t => s.stage t = .done

/-- How far the threads are with the descriptors. -/
structure Startup.Laid (c : Setup) (s : Startup) : Prop where
  unfilled : ∀ t < c.numberOfPoolThreads, s.stage t = .fill → s.memorySize t = 0
  filled : ∀ t < c.numberOfPoolThreads, s.stage t ≠ .fill → s.memorySize t = c.block t
  placed : ∀ i < c.numberOfVariables, s.stage (c.owner i) ≠ .fill → Placed c i (s.pvDescriptor i)
  /-- Until all are done the offsets are those in the blocks. -/
  offset : ∀ i < c.numberOfVariables, s.stage (c.owner i) ≠ .fill →
    (s.pvDescriptor i).offset = if s.InitialisationDone c then c.place i else c.pos i
  initialisationDone : s.initialisationDone = (s.doneThreads c).card
  loop : ∀ t < c.numberOfPoolThreads, ∀ i, s.stage t = .subscribe i → c.bound t ≤ i

/-- What the callbacks have stored is there. -/
structure Startup.Stored (c : Setup) (s : Startup) : Prop where
  subscribed : ∀ i, s.subscribed i = true →
    i < c.numberOfVariables ∧ s.stage (c.owner i) ≠ .fill ∧ 0 < c.elements i
  /-- The loop of the thread is past it. -/
  behind : ∀ i k, s.subscribed i = true → s.stage (c.owner i) = .subscribe k → i < k
  value : ∀ i v, s.lastValue i = some v → s.subscribed i = true ∧ s.valueAt c i = v
  timeStamp : ∀ i v, s.lastTimeStamp i = some v → s.subscribed i = true ∧ s.timeStampAt c i = v

/-- The invariant of the start. -/
structure Startup.Inv (c : Setup) (s : Startup) : Prop where
  laid : s.Laid c
  stored : s.Stored c

/-! ### The threads that are done -/

theorem Startup.doneThreads_congr (h : ∀ u < c.numberOfPoolThreads, s'.stage u = .done ↔ s.stage u = .done) :
    s'.doneThreads c = s.doneThreads c :=
  Finset.filter_congr fun u hu => h u (Finset.mem_range.mp hu)

theorem Startup.mem_doneThreads {u : ℕ} (hu : u < c.numberOfPoolThreads) :
    u ∈ s.doneThreads c ↔ s.stage u = .done := by
  simp [Startup.doneThreads, hu]

theorem Startup.doneThreads_subset : s.doneThreads c ⊆ Finset.range c.numberOfPoolThreads :=
  Finset.filter_subset _ _

/-- A thread that is not done is not counted. -/
theorem Startup.Laid.lt_of_stage (hs : s.Laid c) (ht : t < c.numberOfPoolThreads)
    (hstage : s.stage t ≠ .done) :
    s.initialisationDone < c.numberOfPoolThreads := by
  have hsub : insert t (s.doneThreads c) ⊆ Finset.range c.numberOfPoolThreads :=
    Finset.insert_subset (Finset.mem_range.mpr ht) Startup.doneThreads_subset
  have hcard := Finset.card_le_card hsub
  rw [Finset.card_insert_of_notMem (mt (Startup.mem_doneThreads ht).mp hstage), Finset.card_range] at hcard
  rw [hs.initialisationDone]
  omega

/-- When all but one are counted, the others are done. -/
theorem Startup.Laid.stage_of_le (hs : s.Laid c) (ht : t < c.numberOfPoolThreads) (hstage : s.stage t ≠ .done)
    (hle : c.numberOfPoolThreads ≤ s.initialisationDone + 1) {u : ℕ} (hu : u < c.numberOfPoolThreads)
    (hut : u ≠ t) :
    s.stage u = .done := by
  by_contra hcon
  have hsub : insert u (insert t (s.doneThreads c)) ⊆ Finset.range c.numberOfPoolThreads :=
    Finset.insert_subset (Finset.mem_range.mpr hu)
      (Finset.insert_subset (Finset.mem_range.mpr ht) Startup.doneThreads_subset)
  have hnot : u ∉ insert t (s.doneThreads c) := by
    rw [Finset.mem_insert, not_or]
    exact ⟨hut, mt (Startup.mem_doneThreads hu).mp hcon⟩
  have hcard := Finset.card_le_card hsub
  rw [Finset.card_insert_of_notMem hnot,
    Finset.card_insert_of_notMem (mt (Startup.mem_doneThreads ht).mp hstage),
    Finset.card_range, ← hs.initialisationDone] at hcard
  omega

/-! ### The steps of the threads -/

theorem Startup.laid_start (c : Setup) : (Startup.start c).Laid c where
  unfilled _ _ _ := rfl
  filled _ _ h := absurd rfl h
  placed _ _ h := absurd rfl h
  offset _ _ h := absurd rfl h
  initialisationDone := by simp [Startup.doneThreads, Startup.start]
  loop _ _ _ h := by cases h

theorem Startup.setStage_of_ne {x : Stage} {u : ℕ} (hut : u ≠ t) : (s.setStage t x).stage u = s.stage u :=
  Function.update_of_ne hut _ _

theorem Startup.setStage_self {x : Stage} : (s.setStage t x).stage t = x := Function.update_self _ _ _

/-- A thread that is not done goes on to a stage that is not the last. -/
theorem Startup.doneThreads_setStage {x : Stage} (hstage : s.stage t ≠ .done) (hx : x ≠ .done) :
    (s.setStage t x).doneThreads c = s.doneThreads c := by
  refine Startup.doneThreads_congr fun u _ => ?_
  by_cases hut : u = t
  · subst hut
    rw [Startup.setStage_self]
    exact iff_of_false hx hstage
  · rw [Startup.setStage_of_ne hut]

/-- It goes on to the last one. -/
theorem Startup.doneThreads_setStage_done (ht : t < c.numberOfPoolThreads) :
    (s.setStage t .done).doneThreads c = insert t (s.doneThreads c) := by
  ext u
  by_cases hut : u = t
  · subst hut
    simp [Startup.doneThreads, Startup.setStage_self, ht]
  · simp [Startup.doneThreads, Startup.setStage_of_ne hut, hut]

theorem Startup.Laid.fill (hc : c.Sound) (hs : s.Laid c) (ht : t < c.numberOfPoolThreads)
    (hstage : s.stage t = .fill) :
    ((s.fillMemorySizes c (c.bound t) (c.bound (t + 1)) t).setStage t (.subscribe (c.bound t))).Laid c := by
  have hzero : s.memorySize t = 0 := hs.unfilled t ht hstage
  have hdone : s.stage t ≠ .done := by rw [hstage]; exact Stage.noConfusion
  have hlt : ¬ s.InitialisationDone c := Nat.not_le.mpr (hs.lt_of_stage ht hdone)
  have heq := fillMemorySizes_eq hc ht hzero
  constructor
  case unfilled =>
    intro u hu h
    by_cases hut : u = t
    · subst hut
      rw [Startup.setStage_self] at h
      cases h
    · rw [Startup.setStage_of_ne hut] at h
      simp only [heq, Startup.setStage, Function.update_of_ne hut]
      rw [heq] at h
      exact hs.unfilled u hu h
  case filled =>
    intro u hu h
    by_cases hut : u = t
    · subst hut
      simp only [heq, Startup.setStage, Function.update_self]
    · rw [Startup.setStage_of_ne hut, heq] at h
      simp only [heq, Startup.setStage, Function.update_of_ne hut]
      exact hs.filled u hu h
  case placed =>
    intro i hi h
    by_cases howner : c.owner i = t
    · exact (fillMemorySizes_placed hc ht hzero hi howner).1
    · rw [Startup.setStage_of_ne howner, heq] at h
      have hp := hs.placed i hi h
      rwa [← fillMemorySizes_other hc ht hzero howner] at hp
  case offset =>
    intro i hi h
    by_cases howner : c.owner i = t
    · exact (fillMemorySizes_placed hc ht hzero hi howner).2.trans (if_neg hlt).symm
    · rw [Startup.setStage_of_ne howner, heq] at h
      have ho := hs.offset i hi h
      rwa [← fillMemorySizes_other hc ht hzero howner] at ho
  case initialisationDone =>
    have hset := Startup.doneThreads_setStage (c := c)
      (s := s.fillMemorySizes c (c.bound t) (c.bound (t + 1)) t)
      (x := .subscribe (c.bound t)) hdone Stage.noConfusion
    rw [hset]
    exact hs.initialisationDone
  case loop =>
    intro u hu i h
    by_cases hut : u = t
    · subst hut
      rw [Startup.setStage_self] at h
      cases h
      exact le_rfl
    · rw [Startup.setStage_of_ne hut] at h
      exact hs.loop u hu i h

/-- Behind `FillMemorySizes` a thread does not come to it again. -/
theorem Startup.setStage_fill_iff {x : Stage} (hstage : s.stage t ≠ .fill) (hx : x ≠ .fill) (u : ℕ) :
    (s.setStage t x).stage u = .fill ↔ s.stage u = .fill := by
  by_cases hut : u = t
  · subst hut
    rw [Startup.setStage_self]
    exact iff_of_false hx hstage
  · rw [Startup.setStage_of_ne hut]

/-- A thread in the loop goes on in it. -/
theorem Startup.Laid.setStage (hs : s.Laid c) (hstage : s.stage t = .subscribe i) (hij : i ≤ j)
    (ht : t < c.numberOfPoolThreads) : (s.setStage t (.subscribe j)).Laid c := by
  have hfill : ∀ u, (s.setStage t (.subscribe j)).stage u = .fill ↔ s.stage u = .fill :=
    Startup.setStage_fill_iff (by rw [hstage]; exact Stage.noConfusion) Stage.noConfusion
  refine ⟨fun u hu h => hs.unfilled u hu ((hfill u).mp h), fun u hu h => hs.filled u hu (mt (hfill u).mpr h),
    fun i hi h => hs.placed i hi (mt (hfill _).mpr h), fun i hi h =>
      hs.offset i hi (mt (hfill _).mpr h), ?_, ?_⟩
  · rw [Startup.doneThreads_setStage (by rw [hstage]; exact Stage.noConfusion) Stage.noConfusion]
    exact hs.initialisationDone
  · intro u hu k h
    by_cases hut : u = t
    · subst hut
      rw [Startup.setStage_self] at h
      cases h
      exact (hs.loop u hu i hstage).trans hij
    · rw [Startup.setStage_of_ne hut] at h
      exact hs.loop u hu k h

/-- `memCnt` before turn `i` of the remapping. -/
def Setup.memCnt (c : Setup) (i : ℕ) : ℕ := if i = 0 then 0 else c.owner (i - 1)

/-- The remapping finds the block of every PV. -/
theorem remapPv_eq (hc : c.Sound) (m : ℕ → ℕ) (i : ℕ) (pv : Pv) :
    remapPv c m i pv (c.memCnt i) =
      ({ pv with offset := pv.offset + ∑ k ∈ Finset.range (c.owner i), m k }, c.memCnt (i + 1)) := by
  have hT : sub32 c.numberOfPoolThreads 1 = c.numberOfPoolThreads - 1 :=
    sub32_of_le hc.threads_lt hc.threads_pos
  have hnext : c.memCnt (i + 1) = c.owner i := if_neg (Nat.succ_ne_zero i)
  have hTpos := hc.threads_pos
  have hTlt := hc.threads_lt
  have hcnt : ∀ a, (a = if i % c.nVarsPerChunk = 0 ∧ 0 < i then u32 (c.memCnt i + 1) else c.memCnt i) →
      (if c.numberOfPoolThreads - 1 < a then c.numberOfPoolThreads - 1 else a) = c.owner i := by
    intro a ha
    cases i with
    | zero =>
      rw [if_neg (by omega)] at ha
      simp [ha, Setup.memCnt, Setup.owner]
    | succ i =>
      have hprev : c.memCnt (i + 1) = c.owner i := if_neg (Nat.succ_ne_zero i)
      have hsucc : (i + 1) / c.nVarsPerChunk = i / c.nVarsPerChunk + _ := Nat.succ_div
      have hdvd : c.nVarsPerChunk ∣ i + 1 ↔ (i + 1) % c.nVarsPerChunk = 0 := Nat.dvd_iff_mod_eq_zero
      rw [hprev] at ha
      unfold Setup.owner at ha ⊢
      by_cases hd : c.nVarsPerChunk ∣ i + 1
      · rw [if_pos hd] at hsucc
        rw [if_pos ⟨hdvd.mp hd, Nat.succ_pos i⟩, u32_of_lt (by omega)] at ha
        split_ifs <;> omega
      · rw [if_neg hd] at hsucc
        rw [if_neg fun h => hd (hdvd.mpr h.1)] at ha
        split_ifs <;> omega
  simp only [remapPv, hT, hnext, hcnt _ rfl]

/-- The last thread remaps. -/
theorem Startup.remapped_last (hc : c.Sound) (h : c.numberOfPoolThreads - 1 ≤ s.initialisationDone)
    (hi : i < c.numberOfVariables) :
    s.remapped c i = { s.pvDescriptor i with
      offset := (s.pvDescriptor i).offset + ∑ k ∈ Finset.range (c.owner i), s.memorySize k } := by
  have hscan : scan (remapPv c s.memorySize) 0 c.numberOfVariables (s.pvDescriptor, c.memCnt 0) = _ :=
    scan_eq (remapPv c s.memorySize) s.pvDescriptor c.memCnt (Nat.zero_le c.numberOfVariables)
      fun i _ _ => by rw [remapPv_eq hc]
  rw [Setup.memCnt, if_pos rfl] at hscan
  unfold Startup.remapped
  rw [if_pos (by rwa [sub32_of_le hc.threads_lt hc.threads_pos]), hscan]
  simp only
  rw [scanned_of_mem (Nat.zero_le i) hi, remapPv_eq hc]

/-- The others do not. -/
theorem Startup.remapped_other (hc : c.Sound) (h : s.initialisationDone < c.numberOfPoolThreads - 1) :
    s.remapped c = s.pvDescriptor := by
  unfold Startup.remapped
  rw [if_neg (by rw [sub32_of_le hc.threads_lt hc.threads_pos]; omega)]

theorem Startup.finish_initialisationDone (hlt : c.numberOfPoolThreads < 2 ^ 32)
    (h : s.initialisationDone < c.numberOfPoolThreads) :
    (s.finish c).initialisationDone = s.initialisationDone + 1 := by
  rw [Startup.finish, Startup.counting_initialisationDone, u32_of_lt (by omega)]

theorem Startup.Laid.finish (hc : c.Sound) (hs : s.Laid c) (ht : t < c.numberOfPoolThreads)
    (hstage : s.stage t = .subscribe i) : ((s.finish c).setStage t .done).Laid c := by
  have hdone : s.stage t ≠ .done := by rw [hstage]; exact Stage.noConfusion
  have hlt := hs.lt_of_stage ht hdone
  have hcount := Startup.finish_initialisationDone hc.threads_lt hlt
  have hf := Startup.finish_frame c s
  have hbehind : (s.finish c).stage t ≠ .fill := by rw [hf.stage, hstage]; exact Stage.noConfusion
  have hfill : ∀ u, ((s.finish c).setStage t .done).stage u = .fill ↔ s.stage u = .fill := by
    intro u
    rw [Startup.setStage_fill_iff hbehind Stage.noConfusion, hf.stage]
  constructor
  case unfilled =>
    intro u hu h
    rw [Startup.setStage_memorySize, hf.memorySize]
    exact hs.unfilled u hu ((hfill u).mp h)
  case filled =>
    intro u hu h
    rw [Startup.setStage_memorySize, hf.memorySize]
    exact hs.filled u hu (mt (hfill u).mpr h)
  case placed =>
    intro i hi h
    have hp := hs.placed i hi (mt (hfill _).mpr h)
    by_cases hlast : c.numberOfPoolThreads - 1 ≤ s.initialisationDone
    · rw [Startup.setStage_pvDescriptor, Startup.finish_pvDescriptor, Startup.remapped_last hc hlast hi]
      exact ⟨hp.numberOfElements, hp.totalSize, hp.memory, hp.timeStamp⟩
    · rwa [Startup.setStage_pvDescriptor, Startup.finish_pvDescriptor,
        Startup.remapped_other hc (Nat.not_le.mp hlast)]
  case offset =>
    intro i hi h
    have ho := hs.offset i hi (mt (hfill _).mpr h)
    rw [if_neg (show ¬ s.InitialisationDone c from Nat.not_le.mpr hlt)] at ho
    have hall : ((s.finish c).setStage t .done).InitialisationDone c ↔
        c.numberOfPoolThreads ≤ s.initialisationDone + 1 := by
      unfold Startup.InitialisationDone
      rw [Startup.setStage_initialisationDone, hcount]
    rw [Startup.setStage_pvDescriptor, Startup.finish_pvDescriptor]
    by_cases hlast : c.numberOfPoolThreads - 1 ≤ s.initialisationDone
    · have hsum : ∑ k ∈ Finset.range (c.owner i), s.memorySize k = c.base (c.owner i) := by
        rw [← Setup.sum_block hc (Setup.owner_lt hc).le]
        refine Finset.sum_congr rfl fun k hk => ?_
        have hk : k < c.numberOfPoolThreads := (Finset.mem_range.mp hk).trans (Setup.owner_lt hc)
        apply hs.filled k hk
        by_cases hkt : k = t
        · rw [hkt, hstage]
          exact Stage.noConfusion
        · rw [hs.stage_of_le ht hdone (by omega) hk hkt]
          exact Stage.noConfusion
      rw [Startup.remapped_last hc hlast hi, if_pos (hall.mpr (by omega)), Setup.place, ← hsum, ← ho,
        Nat.add_comm]
    · rw [Startup.remapped_other hc (Nat.not_le.mp hlast), if_neg (mt hall.mp (by omega))]
      exact ho
  case initialisationDone =>
    rw [Startup.doneThreads_setStage_done ht]
    have hold : (s.finish c).doneThreads c = s.doneThreads c :=
      Startup.doneThreads_congr fun u _ => by rw [hf.stage]
    rw [Startup.setStage_initialisationDone, hcount, hold, hs.initialisationDone,
      Finset.card_insert_of_notMem (mt (Startup.mem_doneThreads ht).mp hdone)]
  case loop =>
    intro u hu i h
    by_cases hut : u = t
    · subst hut
      rw [Startup.setStage_self] at h
      cases h
    · rw [Startup.setStage_of_ne hut, hf.stage] at h
      exact hs.loop u hu i h

/-! ### What is stored -/

theorem Startup.stored_start (c : Setup) : (Startup.start c).Stored c where
  subscribed _ h := by cases h
  behind _ _ h := by cases h
  value _ _ h := by cases h
  timeStamp _ _ h := by cases h

/-- A step that leaves the callbacks and, where a PV is subscribed to, its place as they were. -/
theorem Startup.Stored.frame (hs : s.Stored c) (hsub : s'.subscribed = s.subscribed)
    (hval : s'.lastValue = s.lastValue) (htime : s'.lastTimeStamp = s.lastTimeStamp)
    (hfill : ∀ u, s.stage u ≠ .fill → s'.stage u ≠ .fill)
    (hbehind : ∀ i k, s.subscribed i = true → s'.stage (c.owner i) = .subscribe k → i < k)
    (hmem : ∀ i, s.subscribed i = true → s'.memory (c.owner i) = s.memory (c.owner i)) : s'.Stored c := by
  refine ⟨fun i h => ?_, fun i k h => hbehind i k (hsub ▸ h), fun i v h => ?_, fun i v h => ?_⟩
  · obtain ⟨hi, hstage, hpos⟩ := hs.subscribed i (hsub ▸ h)
    exact ⟨hi, hfill _ hstage, hpos⟩
  · obtain ⟨hi, hv⟩ := hs.value i v (hval ▸ h)
    exact ⟨hsub ▸ hi, by rwa [Startup.valueAt, hmem i hi]⟩
  · obtain ⟨hi, hv⟩ := hs.timeStamp i v (htime ▸ h)
    exact ⟨hsub ▸ hi, by rwa [Startup.timeStampAt, hmem i hi]⟩

theorem Startup.Stored.fill (hc : c.Sound) (hl : s.Laid c) (hs : s.Stored c) (ht : t < c.numberOfPoolThreads)
    (hstage : s.stage t = .fill) :
    ((s.fillMemorySizes c (c.bound t) (c.bound (t + 1)) t).setStage t (.subscribe (c.bound t))).Stored c := by
  have hne : ∀ i, s.subscribed i = true → c.owner i ≠ t := by
    intro i hi howner
    exact (hs.subscribed i hi).2.1 (howner ▸ hstage)
  rw [fillMemorySizes_eq hc ht (hl.unfilled t ht hstage)]
  refine hs.frame rfl rfl rfl (fun u hu => ?_) (fun i k hi h => ?_) (fun i hi => ?_)
  · by_cases hut : u = t
    · subst hut
      exact absurd hstage hu
    · rwa [Startup.setStage_of_ne hut]
  · rw [Startup.setStage_of_ne (hne i hi)] at h
    exact hs.behind i k hi h
  · exact Function.update_of_ne (hne i hi) _ _

theorem Startup.Stored.setStage (hs : s.Stored c) {x : Stage} (hx : x ≠ .fill)
    (hbehind : ∀ i k, s.subscribed i = true → c.owner i = t → x = .subscribe k → i < k) :
    (s.setStage t x).Stored c := by
  refine hs.frame rfl rfl rfl (fun u hu => ?_) (fun i k hi h => ?_) (fun i hi => rfl)
  · by_cases hut : u = t
    · subst hut
      rwa [Startup.setStage_self]
    · rwa [Startup.setStage_of_ne hut]
  · by_cases hut : c.owner i = t
    · rw [hut, Startup.setStage_self] at h
      exact hbehind i k hi hut h
    · rw [Startup.setStage_of_ne hut] at h
      exact hs.behind i k hi h

theorem Startup.Stored.finish (hs : s.Stored c) : ((s.finish c).setStage t .done).Stored c := by
  have hf := Startup.finish_frame c s
  have hfin : (s.finish c).Stored c := by
    refine hs.frame hf.subscribed hf.lastValue hf.lastTimeStamp (fun u hu => ?_) (fun i k hi h => ?_)
      fun i _ => ?_
    · rwa [hf.stage]
    · rw [hf.stage] at h
      exact hs.behind i k hi h
    · rw [hf.memory]
  exact hfin.setStage Stage.noConfusion fun i k _ _ h => by cases h

/-- A copy into the place of a PV leaves the places of the other ones. -/
theorem Startup.Stored.other (hc : c.Sound) (hs : s.Stored c) {d : ℕ} {bytes : List UInt8}
    (hi : 0 < c.elements i)
    (hd : d + bytes.length ≤ c.size i + 8) (hij : j ≠ i) (hj : s.subscribed j = true) :
    (s.copyTo ⟨c.owner i, c.pos i + d⟩ bytes).valueAt c j = s.valueAt c j ∧
      (s.copyTo ⟨c.owner i, c.pos i + d⟩ bytes).timeStampAt c j = s.timeStampAt c j := by
  obtain ⟨-, -, hpos⟩ := hs.subscribed j hj
  exact ⟨Startup.read_copyTo hc (e := 0) hij hi hpos hd (by omega),
    Startup.read_copyTo hc hij hi hpos hd (by omega)⟩

theorem Startup.Stored.getValueCallback (hc : c.Sound) (hl : s.Laid c) (hs : s.Stored c) (dbr : Memory)
    (hi : s.subscribed i = true) : (s.getValueCallback i dbr).Stored c := by
  obtain ⟨hN, hstage, hpos⟩ := hs.subscribed i hi
  have hp := hl.placed i hN hstage
  have hlen : (readAt dbr 0 (c.size i)).length = c.size i := length_readAt
  unfold Startup.getValueCallback
  simp only [hp.totalSize, hp.memory]
  refine ⟨hs.subscribed, hs.behind, fun j v h => ?_, fun j v h => ?_⟩
  · by_cases hj : j = i
    · subst hj
      simp only [Function.update_self, Option.some.injEq] at h
      subst h
      exact ⟨hi, Startup.valueAt_copyTo hlen⟩
    · simp only [Function.update_of_ne hj] at h
      obtain ⟨hsub, hv⟩ := hs.value j v h
      exact ⟨hsub, (hs.other hc (d := 0) hpos (by rw [hlen]; omega) hj hsub).1.trans hv⟩
  · obtain ⟨hsub, hv⟩ := hs.timeStamp j v h
    refine ⟨hsub, Eq.trans ?_ hv⟩
    by_cases hj : j = i
    · subst hj
      exact Startup.timeStampAt_copyTo_value hlen
    · exact (hs.other hc (d := 0) hpos (by rw [hlen]; omega) hj hsub).2

theorem Startup.Stored.getTimeoutCallback (hc : c.Sound) (hl : s.Laid c) (hs : s.Stored c) (ptsNewS : Memory)
    (hi : s.subscribed i = true) : (s.getTimeoutCallback i ptsNewS).Stored c := by
  obtain ⟨hN, hstage, hpos⟩ := hs.subscribed i hi
  have hp := hl.placed i hN hstage
  have hlen : (readAt ptsNewS 0 8).length = 8 := length_readAt
  unfold Startup.getTimeoutCallback
  simp only [hp.timeStamp]
  refine ⟨hs.subscribed, hs.behind, fun j v h => ?_, fun j v h => ?_⟩
  · obtain ⟨hsub, hv⟩ := hs.value j v h
    refine ⟨hsub, Eq.trans ?_ hv⟩
    by_cases hj : j = i
    · subst hj
      exact Startup.valueAt_copyTo_timeStamp
    · exact (hs.other hc hpos (by rw [hlen]) hj hsub).1
  · by_cases hj : j = i
    · subst hj
      simp only [Function.update_self, Option.some.injEq] at h
      subst h
      exact ⟨hi, Startup.timeStampAt_copyTo hlen⟩
    · simp only [Function.update_of_ne hj] at h
      obtain ⟨hsub, hv⟩ := hs.timeStamp j v h
      exact ⟨hsub, (hs.other hc hpos (by rw [hlen]) hj hsub).2.trans hv⟩

/-- Raising the subscription of a PV that no callback has run for. -/
theorem Startup.Stored.raise (hs : s.Stored c) (hN : i < c.numberOfVariables)
    (hstage : s.stage (c.owner i) ≠ .fill)
    (hpos : 0 < c.elements i) (hbehind : ∀ k, s.stage (c.owner i) = .subscribe k → i < k) :
    Startup.Stored c { s with subscribed := Function.update s.subscribed i true } := by
  have hmono : ∀ j, s.subscribed j = true → Function.update s.subscribed i true j = true := by
    intro j hj
    by_cases hji : j = i
    · rw [hji, Function.update_self]
    · rwa [Function.update_of_ne hji]
  refine ⟨fun j h => ?_, fun j k h hk => ?_, fun j v h => ?_, fun j v h => ?_⟩
  · by_cases hji : j = i
    · subst hji
      exact ⟨hN, hstage, hpos⟩
    · simp only [Function.update_of_ne hji] at h
      exact hs.subscribed j h
  · by_cases hji : j = i
    · subst hji
      exact hbehind k hk
    · simp only [Function.update_of_ne hji] at h
      exact hs.behind j k h hk
  · exact ⟨hmono j (hs.value j v h).1, (hs.value j v h).2⟩
  · exact ⟨hmono j (hs.timeStamp j v h).1, (hs.timeStamp j v h).2⟩

/-- A copy to a PV that no callback has run for. -/
theorem Startup.Stored.copyTo (hc : c.Sound) (hs : s.Stored c) {bytes : List UInt8} (hi : 0 < c.elements i)
    (hnot : s.subscribed i ≠ true) (hlen : bytes.length = c.size i) :
    (s.copyTo ⟨c.owner i, c.pos i⟩ bytes).Stored c := by
  have hne : ∀ j, s.subscribed j = true → j ≠ i := fun j hj hji => hnot (hji ▸ hj)
  refine ⟨hs.subscribed, hs.behind, fun j v h => ?_, fun j v h => ?_⟩
  · obtain ⟨hsub, hv⟩ := hs.value j v h
    exact ⟨hsub, (hs.other hc (d := 0) hi (by omega) (hne j hsub) hsub).1.trans hv⟩
  · obtain ⟨hsub, hv⟩ := hs.timeStamp j v h
    exact ⟨hsub, (hs.other hc (d := 0) hi (by omega) (hne j hsub) hsub).2.trans hv⟩

/-- A turn of the loop of `CreateSubscriptions`. -/
theorem Startup.Inv.subscribe (hc : c.Sound) (hs : s.Inv c) (ht : t < c.numberOfPoolThreads)
    (hstage : s.stage t = .subscribe i) (hi : i < c.bound (t + 1)) (get : Option Memory) :
    ((s.subscribePv i get).setStage t (.subscribe (i + 1))).Inv c := by
  have hfill : s.stage t ≠ .fill := by rw [hstage]; exact Stage.noConfusion
  have howner : c.owner i = t := Setup.owner_eq hc ht (hs.laid.loop t ht i hstage) hi
  have hN : i < c.numberOfVariables := hi.trans_le (Setup.bound_le ht)
  have hp := hs.laid.placed i hN (by rwa [howner])
  have hnot : s.subscribed i ≠ true := fun h =>
    absurd (hs.stored.behind i i h (howner ▸ hstage)) (Nat.lt_irrefl i)
  have hnext : ∀ {s : Startup}, s.Stored c → s.stage t = .subscribe i →
      (s.setStage t (.subscribe (i + 1))).Stored c := by
    intro s hs hstage
    refine hs.setStage Stage.noConfusion fun j k hj hjt hk => ?_
    cases hk
    exact Nat.lt_succ_of_lt (hs.behind j i hj (hjt ▸ hstage))
  unfold Startup.subscribePv
  simp only [hp.numberOfElements]
  by_cases hpos : 0 < c.elements i
  · rw [if_pos hpos]
    have hraise : ∀ {s : Startup}, s.Stored c → s.stage t = .subscribe i →
        Startup.Stored c
          { s.setStage t (.subscribe (i + 1)) with subscribed := Function.update s.subscribed i true } := by
      intro s hs hstage
      refine (hnext hs hstage).raise hN ?_ hpos fun k hk => ?_
      · rw [howner, Startup.setStage_self]
        exact Stage.noConfusion
      · rw [howner, Startup.setStage_self] at hk
        cases hk
        exact Nat.lt_succ_self i
    cases get with
    | none =>
      have hl := hs.laid.setStage hstage (Nat.le_succ i) ht
      exact ⟨⟨hl.unfilled, hl.filled, hl.placed, hl.offset, hl.initialisationDone, hl.loop⟩,
        hraise hs.stored hstage⟩
    | some m =>
      have hl := hs.laid.setStage hstage (Nat.le_succ i) ht
      have hlen : (readAt m 0 (c.size i)).length = c.size i := length_readAt
      simp only [hp.memory, hp.totalSize]
      exact ⟨⟨hl.unfilled, hl.filled, hl.placed, hl.offset, hl.initialisationDone, hl.loop⟩,
        hraise (hs.stored.copyTo hc hpos hnot hlen) hstage⟩
  · rw [if_neg hpos]
    exact ⟨hs.laid.setStage hstage (Nat.le_succ i) ht, hnext hs.stored hstage⟩

theorem Startup.Inv.step (hc : c.Sound) (hs : s.Inv c) (h : Startup.Step c s s') : s'.Inv c := by
  obtain ⟨hl, hst⟩ := hs
  cases h with
  | fill t ht hstage =>
    rw [Setup.range_eq hc ht]
    exact ⟨hl.fill hc ht hstage, hst.fill hc hl ht hstage⟩
  | subscribe t i get ht hstage hi =>
    rw [Setup.range_eq hc ht] at hi
    exact Startup.Inv.subscribe hc ⟨hl, hst⟩ ht hstage hi get
  | finish t i ht hstage hi => exact ⟨hl.finish hc ht hstage, hst.finish⟩
  | value i dbr hi =>
    exact ⟨⟨hl.unfilled, hl.filled, hl.placed, hl.offset, hl.initialisationDone, hl.loop⟩,
      hst.getValueCallback hc hl dbr hi⟩
  | timeStamp i ptsNewS hi =>
    exact ⟨⟨hl.unfilled, hl.filled, hl.placed, hl.offset, hl.initialisationDone, hl.loop⟩,
      hst.getTimeoutCallback hc hl ptsNewS hi⟩
  | synchronise memoryOut =>
    exact ⟨⟨hl.unfilled, hl.filled, hl.placed, hl.offset, hl.initialisationDone, hl.loop⟩,
      ⟨hst.subscribed, hst.behind, hst.value, hst.timeStamp⟩⟩

theorem Startup.inv_of_reachable (hc : c.Sound) (h : Reachable (Startup.Step c) (.start c) s) : s.Inv c :=
  h.invariant ⟨Startup.laid_start c, Startup.stored_start c⟩ fun _ _ hs hstep => hs.step hc hstep

/-! ### What `Synchronise` copies -/

/-- **What `Synchronise` copies** of the first blocks: they are behind one another. -/
theorem Startup.copyBlock_fold (hc : c.Sound)
    (hsize : ∀ t < c.numberOfPoolThreads, s.memorySize t = c.block t)
    (m : Memory) (ht : t ≤ c.numberOfPoolThreads) :
    ((List.range t).foldl s.copyBlock (m, 0)).2 = c.base t ∧
      ∀ u < t, ∀ a n, a + n ≤ c.block u →
        readAt ((List.range t).foldl s.copyBlock (m, 0)).1 (c.base u + a) n = readAt (s.memory u) a n := by
  induction t with
  | zero => exact ⟨(Setup.base_zero hc).symm, fun u hu => absurd hu (Nat.not_lt_zero u)⟩
  | succ t ih =>
    obtain ⟨hoff, hcopied⟩ := ih (by omega)
    have hsucc := Setup.base_succ (c := c) (t := t) (by omega)
    have hlt : c.base (t + 1) < 2 ^ 32 := by
      have := Setup.base_mono (c := c) ht le_rfl
      rw [Setup.base_last] at this
      exact this.trans_lt hc.total_lt
    rw [List.range_succ, List.foldl_append]
    simp only [List.foldl_cons, List.foldl_nil, Startup.copyBlock, hoff, hsize t (by omega)]
    refine ⟨by rw [u32_of_lt (by omega)]; exact hsucc, fun u hu a n han => ?_⟩
    rcases Nat.lt_succ_iff_lt_or_eq.mp hu with hlt | rfl
    · have hmono : c.base (u + 1) ≤ c.base t := Setup.base_mono hlt (by omega)
      have husucc := Setup.base_succ (c := c) (t := u) (by omega)
      rw [readAt_writeAt_of_disjoint (by omega)]
      exact hcopied u hlt a n han
    · rw [readAt_moved han, Nat.zero_add]

/-- Once all are done, what is read at the place of a PV in the copied memory. -/
theorem Startup.Laid.read_memoryOut (hc : c.Sound) (hs : s.Laid c) (hdone : s.InitialisationDone c)
    (m : Memory)
    (hi : i < c.numberOfVariables) (hpos : 0 < c.elements i) {d n : ℕ} (hd : d + n ≤ c.size i + 8) :
    readAt (s.memoryOut c m) (c.place i + d) n = readAt (s.memory (c.owner i)) (c.pos i + d) n := by
  have hsize : ∀ t < c.numberOfPoolThreads, s.memorySize t = c.block t := by
    intro t ht
    refine hs.filled t ht fun hstage => ?_
    have := hs.lt_of_stage ht (by rw [hstage]; exact Stage.noConfusion)
    exact Nat.not_le.mpr this hdone
  have hfit := Setup.pos_add_le hc hi hpos
  have hread :=
    (Startup.copyBlock_fold hc hsize m le_rfl).2 (c.owner i) (Setup.owner_lt hc) (c.pos i + d) n (by omega)
  rwa [← Nat.add_assoc] at hread

theorem Startup.Laid.getTotalMemorySize (hc : c.Sound) (hs : s.Laid c) (hdone : s.InitialisationDone c) :
    s.getTotalMemorySize c = c.total := by
  rw [← Setup.base_last, ← Setup.sum_block hc le_rfl]
  refine Finset.sum_congr rfl fun t ht => hs.filled t (Finset.mem_range.mp ht) fun hstage => ?_
  have := hs.lt_of_stage (Finset.mem_range.mp ht) (by rw [hstage]; exact Stage.noConfusion)
  exact Nat.not_le.mpr this hdone

/-- **The memory layout is sound**: in every state with `InitialisationDone`, the PVs have the elements
that are kept, those with elements have places that are apart and inside the total size, and what
`Synchronise` copies there is what their callbacks stored last. -/
theorem layout_sound (c : Setup) (hc : c.Sound) (s : Startup) (hs : Reachable (Startup.Step c) (.start c) s)
    (hdone : s.InitialisationDone c) :
    (∀ i < c.numberOfVariables, (s.pvDescriptor i).numberOfElements = c.elements i ∧
        (s.pvDescriptor i).totalSize = c.size i) ∧
      (∀ i < c.numberOfVariables, ∀ j < c.numberOfVariables, i ≠ j → 0 < c.elements i → 0 < c.elements j →
        (s.pvDescriptor i).offset + (c.size i + 8) ≤ (s.pvDescriptor j).offset ∨
          (s.pvDescriptor j).offset + (c.size j + 8) ≤ (s.pvDescriptor i).offset) ∧
      (∀ i < c.numberOfVariables, 0 < c.elements i →
        (s.pvDescriptor i).offset + (c.size i + 8) ≤ s.getTotalMemorySize c) ∧
      ∀ m : Memory, ∀ i < c.numberOfVariables, 0 < c.elements i →
        (∀ v, s.lastValue i = some v →
          readAt (s.synchronise c m).1.1 (s.pvDescriptor i).offset (c.size i) = v) ∧
        ∀ ts, s.lastTimeStamp i = some ts →
          readAt (s.synchronise c m).1.1 ((s.pvDescriptor i).offset + c.size i) 8 = ts := by
  obtain ⟨hl, hst⟩ := Startup.inv_of_reachable hc hs
  have hstage : ∀ i, s.stage (c.owner i) ≠ .fill := by
    intro i h
    have := hl.lt_of_stage (Setup.owner_lt (i := i) hc) (by rw [h]; exact Stage.noConfusion)
    exact Nat.not_le.mpr this hdone
  have hoffset : ∀ i < c.numberOfVariables, (s.pvDescriptor i).offset = c.place i := fun i hi =>
    (hl.offset i hi (hstage i)).trans (if_pos hdone)
  refine ⟨fun i hi => ?_, fun i hi j hj hij hposi hposj => ?_, fun i hi hpos => ?_, fun m i hi hpos => ?_⟩
  · have hp := hl.placed i hi (hstage i)
    exact ⟨hp.numberOfElements, hp.totalSize⟩
  · rw [hoffset i hi, hoffset j hj]
    rcases Nat.lt_or_gt_of_ne hij with h | h
    · exact .inl (Setup.place_add_le_place hc h hj hposi)
    · exact .inr (Setup.place_add_le_place hc h hi hposj)
  · rw [hoffset i hi, hl.getTotalMemorySize hc hdone, ← Setup.base_last]
    exact (Setup.place_add_le hc hi hpos).trans (Setup.base_mono (Setup.owner_lt hc) le_rfl)
  · rw [hoffset i hi]
    refine ⟨fun v hv => ?_, fun ts hts => ?_⟩
    · have hread := hl.read_memoryOut hc hdone m hi hpos (d := 0) (n := c.size i) (by omega)
      exact hread.trans (hst.value i v hv).2
    · have hread := hl.read_memoryOut hc hdone m hi hpos (d := c.size i) (n := 8) le_rfl
      exact hread.trans (hst.timeStamp i ts hts).2

/-- A double, a PV that is not connected, two words and a double, for two threads. -/
def fourChannels : Setup :=
  ⟨4, 2, 20000, fun i => [80, 48 + UInt8.ofNat i],
    fun i => [⟨true, 1, .double⟩, ⟨false, 1, .double⟩, ⟨true, 2, .long⟩].getD i ⟨true, 1, .double⟩⟩

theorem fourChannels_sound : fourChannels.Sound where
  variables_pos := by decide
  variables_lt := by decide
  threads_pos := by decide
  threads_lt := by decide
  disjoint s hs t ht hst i hi hi' := by
    have hranges : fourChannels.range 0 = ⟨0, 2⟩ ∧ fourChannels.range 1 = ⟨2, 4⟩ := by decide
    have hs : s < 2 := hs
    have ht : t < 2 := ht
    rcases show s = 0 ∧ t = 1 ∨ s = 1 ∧ t = 0 by omega with ⟨rfl, rfl⟩ | ⟨rfl, rfl⟩ <;>
      simp only [hranges, Range.Has] at hi hi' <;> omega
  chunk_pos := by decide
  total_lt := by decide

/-- Both threads have finished, and the words have a value and a time stamp. -/
theorem layout_sound_four : ∃ s, Reachable (Startup.Step fourChannels) (.start fourChannels) s ∧
    s.InitialisationDone fourChannels ∧ (s.pvDescriptor 1).numberOfElements = 0 ∧
    ((s.pvDescriptor 0).offset + 16 ≤ (s.pvDescriptor 2).offset ∨
      (s.pvDescriptor 2).offset + 16 ≤ (s.pvDescriptor 0).offset) ∧
    ∀ m, readAt (s.synchronise fourChannels m).1.1 (s.pvDescriptor 0).offset 8 = List.replicate 8 1 ∧
      readAt (s.synchronise fourChannels m).1.1 (s.pvDescriptor 2).offset 8 = List.replicate 8 2 ∧
      readAt (s.synchronise fourChannels m).1.1 ((s.pvDescriptor 2).offset + 8) 8 = List.replicate 8 3 := by
  have hfill := (Reachable.refl.next
    (Startup.Step.fill (c := fourChannels) (s := .start fourChannels) 1 (by decide) rfl)).next
    (.fill 0 (by decide) rfl)
  have hfirst := ((hfill.next (.subscribe 1 2 none (by decide) rfl (by decide))).next
    (.subscribe 0 0 none (by decide) rfl (by decide))).next (.value 0 (fun _ => 1) rfl)
  have hrest := (hfirst.next (.subscribe 0 1 none (by decide) rfl (by decide))).next
    (.subscribe 1 3 none (by decide) rfl (by decide))
  have hdone := (hrest.next (.finish 1 4 (by decide) rfl (by decide))).next
    (.finish 0 2 (by decide) rfl (by decide))
  have hreach := (hdone.next (.value 2 (fun _ => 2) rfl)).next (.timeStamp 2 (fun _ => 3) rfl)
  obtain ⟨helements, hapart, -, hread⟩ := layout_sound fourChannels fourChannels_sound _ hreach (by decide)
  refine ⟨_, hreach, by decide, (helements 1 (by decide)).1, hapart 0 (by decide) 2 (by decide) (by decide)
    (by decide) (by decide), fun m => ⟨(hread m 0 (by decide) (by decide)).1 _ rfl, ?_, ?_⟩⟩
  · exact (hread m 2 (by decide) (by decide)).1 _ rfl
  · exact (hread m 2 (by decide) (by decide)).2 _ rfl

end Hieratika.Subscriber

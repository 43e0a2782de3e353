import Hieratika.Subscriber.Layout

/-!
# The divisions of the subscriber

`ParseAndSubscribe` divides the PVs over the threads, and the thread that is done last in
`CreateSubscriptions` takes every index modulo the length of a chunk. Here both are computed with the
divisions checked.

## What is proved

If there are PVs, but fewer than threads, some run of the threads comes to a division by zero; otherwise
none does (`divisions_defined_iff`).
-/

namespace Hieratika.Subscriber

open Foundations Workers

/-! ### The functions with checked divisions -/

/-- `nVarsPerChunk` in `ParseAndSubscribe`. -/
def Setup.checkedNVarsPerChunk (c : Setup) : Option ℕ := checkedDiv c.numberOfVariables c.numberOfPoolThreads

/-- `remapPv`. -/
def checkedRemapPv (c : Setup) (memorySize : ℕ → ℕ) (i : ℕ) (pv : Pv) (memCnt : ℕ) : Option (Pv × ℕ) := do
  let rest ← checkedMod i c.nVarsPerChunk
  let memCnt := if rest = 0 ∧ 0 < i then u32 (memCnt + 1) else memCnt
  let memCnt := if sub32 c.numberOfPoolThreads 1 < memCnt then sub32 c.numberOfPoolThreads 1 else memCnt
  return ({ pv with offset := pv.offset + ∑ k ∈ Finset.range memCnt, memorySize k }, memCnt)

/-- A turn of the loop over the PVs. -/
def checkedRemapTurn (c : Setup) (memorySize : ℕ → ℕ) (x : (ℕ → Pv) × ℕ) (i : ℕ) : Option ((ℕ → Pv) × ℕ) := do
  let y ← checkedRemapPv c memorySize i (x.1 i) x.2
  return (Function.update x.1 i y.1, y.2)

/-- The locked section of `CreateSubscriptions`. -/
def Startup.checkedRemapped (c : Setup) (s : Startup) : Option (ℕ → Pv) :=
  if sub32 c.numberOfPoolThreads 1 ≤ s.initialisationDone then do
    let x ← (List.range' 0 c.numberOfVariables).foldlM (checkedRemapTurn c s.memorySize) (s.pvDescriptor, 0)
    return x.1
  else some s.pvDescriptor

/-- No thread comes to a division by zero. -/
structure Setup.DivisionsDefined (c : Setup) : Prop where
  parseAndSubscribe : c.checkedNVarsPerChunk.isSome
  createSubscriptions : ∀ s, Reachable (Startup.Step c) (.start c) s → ∀ t < c.numberOfPoolThreads, ∀ i,
    s.stage t = .subscribe i → (c.range t).stop ≤ i → (s.checkedRemapped c).isSome

variable {c : Setup} {s s' : Startup} {t : ℕ}

/-! ### With chunks -/

/-- The checked remapping is the remapping. -/
theorem Startup.checkedRemapped_eq (hpos : 0 < c.nVarsPerChunk) (s : Startup) :
    s.checkedRemapped c = some (s.remapped c) := by
  have hturn : checkedRemapTurn c s.memorySize = fun x i => pure (scanTurn (remapPv c s.memorySize) x i) := by
    funext x i
    unfold checkedRemapTurn checkedRemapPv
    rw [checkedMod_of_pos hpos]
    rfl
  unfold Startup.checkedRemapped Startup.remapped scan
  rw [hturn, List.foldlM_pure]
  split_ifs <;> rfl

/-- Without PVs the loop makes no turn. -/
theorem Startup.checkedRemapped_of_zero (hN : c.numberOfVariables = 0) (s : Startup) :
    (s.checkedRemapped c).isSome := by
  unfold Startup.checkedRemapped
  rw [hN]
  split_ifs <;> rfl

/-- Without chunks the first turn of the last thread fails. -/
theorem Startup.checkedRemapped_last (hN : 0 < c.numberOfVariables) (hchunk : c.nVarsPerChunk = 0)
    (hlast : sub32 c.numberOfPoolThreads 1 ≤ s.initialisationDone) : s.checkedRemapped c = none := by
  obtain ⟨n, hn⟩ : ∃ n, c.numberOfVariables = n + 1 := Nat.exists_eq_succ_of_ne_zero hN.ne'
  unfold Startup.checkedRemapped
  rw [if_pos hlast, hn, List.range'_succ, List.foldlM_cons]
  unfold checkedRemapTurn checkedRemapPv
  rw [hchunk, checkedMod_zero]
  rfl

/-! ### A run to the last thread -/

theorem Startup.subscribePv_stage (s : Startup) (i : ℕ) : (s.subscribePv i none).stage = s.stage := by
  unfold Startup.subscribePv
  dsimp only
  split_ifs <;> rfl

theorem Startup.subscribePv_initialisationDone (s : Startup) (i : ℕ) :
    (s.subscribePv i none).initialisationDone = s.initialisationDone := by
  unfold Startup.subscribePv
  dsimp only
  split_ifs <;> rfl

theorem Startup.fillMemorySizes_stage (s : Startup) (beg stop t : ℕ) :
    (s.fillMemorySizes c beg stop t).stage = s.stage := by
  unfold Startup.fillMemorySizes
  dsimp only

theorem Startup.fillMemorySizes_initialisationDone (s : Startup) (beg stop t : ℕ) :
    (s.fillMemorySizes c beg stop t).initialisationDone = s.initialisationDone := by
  unfold Startup.fillMemorySizes
  dsimp only

/-- Thread `t` has come to the locked section; the others are where they were. -/
structure Startup.AtSection (c : Setup) (t : ℕ) (s s' : Startup) : Prop where
  reachable : Reachable (Startup.Step c) s s'
  stage : ∃ i, s'.stage t = .subscribe i ∧ (c.range t).stop ≤ i
  initialisationDone : s'.initialisationDone = s.initialisationDone
  others : ∀ u, u ≠ t → s'.stage u = s.stage u

/-- The loop of `CreateSubscriptions` comes to its end. -/
theorem Startup.exists_atSection_of_subscribe (ht : t < c.numberOfPoolThreads) : ∀ (left i : ℕ) (s : Startup),
    s.stage t = .subscribe i → (c.range t).stop ≤ i + left → ∃ s', Startup.AtSection c t s s'
  | 0, i, s, hstage, hle => ⟨s, .refl, ⟨i, hstage, hle⟩, rfl, fun _ _ => rfl⟩
  | left + 1, i, s, hstage, hle => by
    by_cases hi : i < (c.range t).stop
    · obtain ⟨s', hrun, hat, hdone, hothers⟩ := exists_atSection_of_subscribe ht left (i + 1)
        ((s.subscribePv i none).setStage t (.subscribe (i + 1))) Startup.setStage_self (by omega)
      refine ⟨s', (Reachable.refl.next (.subscribe t i none ht hstage hi)).trans hrun, hat, ?_,
        fun u hu => ?_⟩
      · rw [hdone, Startup.setStage_initialisationDone, Startup.subscribePv_initialisationDone]
      · rw [hothers u hu, Startup.setStage_of_ne hu, Startup.subscribePv_stage]
    · exact ⟨s, .refl, ⟨i, hstage, by omega⟩, rfl, fun _ _ => rfl⟩

theorem Startup.exists_atSection (ht : t < c.numberOfPoolThreads) (hstage : s.stage t = .fill) :
    ∃ s', Startup.AtSection c t s s' := by
  obtain ⟨s', hrun, hat, hdone, hothers⟩ :=
    Startup.exists_atSection_of_subscribe ht (c.range t).stop (c.range t).beg
    ((s.fillMemorySizes c (c.range t).beg (c.range t).stop t).setStage t (.subscribe (c.range t).beg))
    Startup.setStage_self (Nat.le_add_left _ _)
  refine ⟨s', (Reachable.refl.next (.fill t ht hstage)).trans hrun, hat, ?_, fun u hu => ?_⟩
  · rw [hdone, Startup.setStage_initialisationDone, Startup.fillMemorySizes_initialisationDone]
  · rw [hothers u hu, Startup.setStage_of_ne hu, Startup.fillMemorySizes_stage]

/-- The first `k` threads can be done before the others begin. -/
theorem Startup.exists_done (hlt : c.numberOfPoolThreads < 2 ^ 32) : ∀ k ≤ c.numberOfPoolThreads,
    ∃ s, Reachable (Startup.Step c) (.start c) s ∧ s.initialisationDone = k ∧ ∀ u, k ≤ u → s.stage u = .fill
  | 0, _ => ⟨.start c, .refl, rfl, fun _ _ => rfl⟩
  | k + 1, hk => by
    obtain ⟨s, hs, hdone, hfill⟩ := exists_done hlt k (by omega)
    have hk' : k < c.numberOfPoolThreads := hk
    obtain ⟨s', hrun, ⟨i, hi, hstop⟩, hdone', hothers⟩ := Startup.exists_atSection hk' (hfill k le_rfl)
    refine ⟨(s'.finish c).setStage k .done, (hs.trans hrun).next (.finish k i hk' hi hstop), ?_,
      fun u hu => ?_⟩
    · rw [Startup.setStage_initialisationDone, Startup.finish_initialisationDone hlt (by omega),
        hdone', hdone]
    · have hne : u ≠ k := by omega
      rw [Startup.setStage_of_ne hne, (s'.finish_frame c).stage, hothers u hne]
      exact hfill u (by omega)

/-- Some run brings a thread to the locked section as the last one. -/
theorem Startup.exists_last (hpos : 0 < c.numberOfPoolThreads) (hlt : c.numberOfPoolThreads < 2 ^ 32) :
    ∃ s, Reachable (Startup.Step c) (.start c) s ∧ sub32 c.numberOfPoolThreads 1 ≤ s.initialisationDone ∧
      ∃ t < c.numberOfPoolThreads, ∃ i, s.stage t = .subscribe i ∧ (c.range t).stop ≤ i := by
  have hlast : c.numberOfPoolThreads - 1 < c.numberOfPoolThreads := by omega
  obtain ⟨s, hs, hdone, hfill⟩ := Startup.exists_done hlt (c.numberOfPoolThreads - 1) hlast.le
  obtain ⟨s', hrun, hat, hdone', -⟩ := Startup.exists_atSection hlast (hfill _ le_rfl)
  refine ⟨s', hs.trans hrun, ?_, _, hlast, hat⟩
  rw [hdone', hdone, sub32_of_le hlt hpos]

/-- **The divisors of the subscriber**: none is zero exactly if there is no PV, or one for each thread. -/
theorem divisions_defined_iff (hpos : 0 < c.numberOfPoolThreads) (hlt : c.numberOfPoolThreads < 2 ^ 32) :
    c.DivisionsDefined ↔ c.numberOfVariables = 0 ∨ c.numberOfPoolThreads ≤ c.numberOfVariables := by
  constructor
  · intro h
    by_contra hcon
    obtain ⟨hN, hfew⟩ := not_or.mp hcon
    obtain ⟨s, hs, hlast, t, ht, i, hi, hstop⟩ := Startup.exists_last hpos hlt
    have hsome := h.createSubscriptions s hs t ht i hi hstop
    rw [Startup.checkedRemapped_last (Nat.pos_of_ne_zero hN) (Nat.div_eq_of_lt (by omega)) hlast] at hsome
    cases hsome
  · intro h
    refine ⟨by rw [Setup.checkedNVarsPerChunk, checkedDiv_of_pos hpos]; rfl, fun s _ _ _ _ _ _ => ?_⟩
    rcases h with hN | hmany
    · exact s.checkedRemapped_of_zero hN
    · rw [s.checkedRemapped_eq (Nat.div_pos hmany hpos)]
      rfl

end Hieratika.Subscriber

import Hieratika.Foundations.Runs
import Hieratika.Receiver.Store
import Mathlib.Logic.Function.Basic

/-!
# The index cache

`GetLocalIndex` looks a frame's PV up by name only if `pvMapping` has no entry for the frame's
sender index; what it finds it keeps there, for all connections and as long as the receiver
runs.

## The model

`Cache.Step` has the two lock-protected sections of `GetLocalIndex` as separate steps, so that
between the two of one connection the others may take theirs. `returned` is the history of the
local indices returned.

## What is proved

The entry made for the first name stays when frames with another name carry the same sender
index. The cache agrees with the search in every interleaving exactly when frames with one
sender index resolve alike (`cache_agrees_iff`), as the frames of a single list of PVs do.
-/

namespace Hieratika.Receiver

open Foundations

variable {r : DiodeReceiver} {env : Env} {arrives : Header → Prop}

/-- What the search by name finds: a local index, or `INDEX_NOT_FOUND_ID`. -/
def DiodeReceiver.lookup (r : DiodeReceiver) (env : Env) (varName : List UInt8) : ℕ :=
  if (r.getLocalVariableIndex env varName).1 then (r.getLocalVariableIndex env varName).2 else indexNotFoundId

/-- `pvMapping`, and where the connections are in `GetLocalIndex`. -/
structure Cache where
  pvMapping : ℕ → ℕ
  /-- A connection that has found an index by name and not yet stored it. -/
  storing : ℕ → Option (Header × ℕ)
  /-- The frames with the local indices returned for them, the last one first. -/
  returned : List (Header × ℕ)

/-- The cache as `Start` leaves it. -/
def Cache.start : Cache := ⟨fun _ => indexInitId, fun _ => none, []⟩

/-- The steps of the connections, on the frames that `arrives` admits. -/
inductive Cache.Step (r : DiodeReceiver) (env : Env) (arrives : Header → Prop) : Cache → Cache → Prop
  /-- The entry is there. -/
  | cached {s : Cache} {threadId : ℕ} {h : Header} : arrives h → s.storing threadId = none →
      s.pvMapping h.receivedIndex ≠ indexInitId →
      Cache.Step r env arrives s { s with returned := (h, s.pvMapping h.receivedIndex) :: s.returned }
  /-- No entry, and the name is found. -/
  | found {s : Cache} {threadId index : ℕ} {h : Header} : arrives h → s.storing threadId = none →
      s.pvMapping h.receivedIndex = indexInitId → r.getLocalVariableIndex env h.varName = (true, index) →
      Cache.Step r env arrives s { s with storing := Function.update s.storing threadId (some (h, index)) }
  /-- No entry, and the name is not found. -/
  | notFound {s : Cache} {threadId : ℕ} {h : Header} : arrives h → s.storing threadId = none →
      s.pvMapping h.receivedIndex = indexInitId → (r.getLocalVariableIndex env h.varName).1 = false →
      Cache.Step r env arrives s { s with returned := (h, indexNotFoundId) :: s.returned }
  /-- The index found is stored. -/
  | store {s : Cache} {threadId index : ℕ} {h : Header} : s.storing threadId = some (h, index) →
      Cache.Step r env arrives s
        { pvMapping := Function.update s.pvMapping h.receivedIndex index
          storing := Function.update s.storing threadId none
          returned := (h, index) :: s.returned }

/-- Every index returned is what the search for the frame's own name finds. -/
def Cache.Agrees (r : DiodeReceiver) (env : Env) (s : Cache) : Prop :=
  ∀ x ∈ s.returned, x.2 = r.lookup env x.1.varName

/-- Frames with one sender index resolve alike, once one of them is found. -/
def Consistent (r : DiodeReceiver) (env : Env) (arrives : Header → Prop) : Prop :=
  ∀ h h', arrives h → arrives h' → h.receivedIndex = h'.receivedIndex →
    (r.getLocalVariableIndex env h.varName).1 = true → r.lookup env h'.varName = r.lookup env h.varName

/-! ### The search -/

/-- An index that is found is one of the receiver's. -/
theorem searchFrom_lt (varName : List UInt8) (range_1 index : ℕ)
    (hfound : (r.searchFrom env varName range_1 index).1 = true) :
    (r.searchFrom env varName range_1 index).2 < r.numberOfVariables := by
  induction range_1 using Nat.strong_induction_on generalizing index with
  | _ range_1 ih =>
    rw [DiodeReceiver.searchFrom] at hfound ⊢
    by_cases hpos : 0 < range_1
    · rw [dif_pos hpos] at hfound ⊢
      dsimp only at hfound ⊢
      by_cases hout : r.numberOfVariables ≤ index
      · simp only [if_pos hout, OfNat.ofNat_ne_zero, if_false, if_true] at hfound ⊢
        exact ih _ (by omega) _ hfound
      · simp only [if_neg hout] at hfound ⊢
        split_ifs at hfound ⊢ with h0 h2 h1
        · exact Nat.lt_of_not_le hout
        all_goals exact ih _ (by omega) _ hfound
    · rw [dif_neg hpos] at hfound
      cases hfound

theorem found_lt {varName : List UInt8} (hfound : (r.getLocalVariableIndex env varName).1 = true) :
    (r.getLocalVariableIndex env varName).2 < r.numberOfVariables := searchFrom_lt _ _ _ hfound

/-- An index that is found does not look like a missing entry. -/
theorem lookup_ne_init (varName : List UInt8) : r.lookup env varName ≠ indexInitId := by
  unfold DiodeReceiver.lookup
  split_ifs with hfound
  · have h := found_lt hfound
    have hN := r.vars_lt
    unfold indexInitId
    omega
  · decide

theorem lookup_of_found {varName : List UInt8} {index : ℕ}
    (hfound : r.getLocalVariableIndex env varName = (true, index)) : r.lookup env varName = index := by
  simp [DiodeReceiver.lookup, hfound]

theorem lookup_of_notFound {varName : List UInt8} (h : (r.getLocalVariableIndex env varName).1 = false) :
    r.lookup env varName = indexNotFoundId := by
  simp [DiodeReceiver.lookup, h]

/-! ### The invariant -/

/-- An entry was found for the name of some frame with its sender index. -/
structure Cache.Filled (r : DiodeReceiver) (env : Env) (arrives : Header → Prop) (s : Cache) : Prop where
  entry : ∀ i, s.pvMapping i ≠ indexInitId → ∃ h, arrives h ∧ h.receivedIndex = i ∧
    (r.getLocalVariableIndex env h.varName).1 = true ∧ r.lookup env h.varName = s.pvMapping i
  storing : ∀ threadId h index, s.storing threadId = some (h, index) → arrives h ∧
    r.getLocalVariableIndex env h.varName = (true, index)

theorem Cache.filled_start : Cache.start.Filled r env arrives where
  entry := fun _ hne => absurd rfl hne
  storing := fun _ _ _ hs => by cases hs

theorem Cache.Filled.step {s s' : Cache} (hs : s.Filled r env arrives)
    (hstep : Cache.Step r env arrives s s') :
    s'.Filled r env arrives := by
  cases hstep with
  | cached _ _ _ => exact ⟨hs.entry, hs.storing⟩
  | notFound _ _ _ _ => exact ⟨hs.entry, hs.storing⟩
  | @found threadId index h harr _ _ hfound =>
    refine ⟨hs.entry, fun t h' i ht => ?_⟩
    by_cases heq : t = threadId
    · subst heq
      simp only [Function.update_self, Option.some.injEq, Prod.mk.injEq] at ht
      obtain ⟨rfl, rfl⟩ := ht
      exact ⟨harr, hfound⟩
    · simp only [Function.update_of_ne heq] at ht
      exact hs.storing t h' i ht
  | @store threadId index h hst =>
    obtain ⟨harr, hfound⟩ := hs.storing _ _ _ hst
    refine ⟨fun i hi => ?_, fun t h' i ht => ?_⟩
    · by_cases heq : i = h.receivedIndex
      · subst heq
        exact ⟨h, harr, rfl, by rw [hfound], by simp [lookup_of_found hfound]⟩
      · simp only [Function.update_of_ne heq] at hi ⊢
        exact hs.entry i hi
    · by_cases heq : t = threadId
      · subst heq; simp at ht
      · simp only [Function.update_of_ne heq] at ht
        exact hs.storing t h' i ht

/-- A step of consistent frames keeps the cache in agreement with the search. -/
theorem Cache.Agrees.step {s s' : Cache} (hcons : Consistent r env arrives) (hf : s.Filled r env arrives)
    (hs : s.Agrees r env) (hstep : Cache.Step r env arrives s s') : s'.Agrees r env := by
  have key : ∀ h index, index = r.lookup env h.varName →
      ∀ x ∈ (h, index) :: s.returned, x.2 = r.lookup env x.1.varName := by
    intro h index hx x hmem
    rcases List.mem_cons.mp hmem with rfl | hmem
    · exact hx
    · exact hs x hmem
  cases hstep with
  | @cached threadId h harr _ hne =>
    obtain ⟨h', harr', hidx, hfound, hlook⟩ := hf.entry _ hne
    exact key h _ (hlook.symm.trans (hcons h' h harr' harr hidx hfound).symm)
  | @notFound _ h _ _ _ hnot => exact key h _ (lookup_of_notFound hnot).symm
  | found => exact hs
  | @store _ _ h hst => exact key h _ (lookup_of_found (hf.storing _ _ _ hst).2).symm

/-! ### One call of `GetLocalIndex` -/

/-- A call without interruption returns what `resolve` computes and leaves what `remember` leaves. -/
theorem getLocalIndex_run {s : Cache} (st : Store) (hst : s.pvMapping = st.pvMapping) (threadId : ℕ)
    (h : Header) (hidle : s.storing threadId = none) (harr : arrives h) :
    ∃ s', Reachable (Cache.Step r env arrives) s s' ∧ s'.pvMapping = (r.remember env st h).pvMapping ∧
      s'.storing = s.storing ∧ s'.returned = (h, r.resolve env st h) :: s.returned := by
  unfold DiodeReceiver.remember DiodeReceiver.resolve
  by_cases hinit : st.pvMapping h.receivedIndex = indexInitId
  · have hinit' : s.pvMapping h.receivedIndex = indexInitId := by rw [hst, hinit]
    rcases hsearch : r.getLocalVariableIndex env h.varName with ⟨_ | _, index⟩
    · refine ⟨_, Reachable.next .refl (.notFound harr hidle hinit' (by rw [hsearch])), ?_, rfl, ?_⟩
      · simp [hst]
      · simp [hinit]
    · have h₁ : Cache.Step r env arrives s
          { s with storing := Function.update s.storing threadId (some (h, index)) } :=
        .found harr hidle hinit' hsearch
      have h₂ := @Cache.Step.store r env arrives
        { s with storing := Function.update s.storing threadId (some (h, index)) } threadId index h
        (Function.update_self threadId (some (h, index)) s.storing)
      refine ⟨_, (Reachable.next .refl h₁).next h₂, ?_, ?_, ?_⟩
      · simp [hinit, hst]
      · simp only [Function.update_idem]
        rw [← hidle, Function.update_eq_self]
      · simp [hinit]
  · refine ⟨_, Reachable.next .refl (.cached harr hidle (by rw [hst]; exact hinit)), ?_, rfl, ?_⟩
    · simp [hinit, hst]
    · simp [hinit, hst]

/-- A second frame with the sender index of a frame that was found gets that frame's local index. -/
theorem second_returned {h h' : Header} (harr : arrives h) (harr' : arrives h')
    (hidx : h.receivedIndex = h'.receivedIndex) (hfound : (r.getLocalVariableIndex env h.varName).1 = true) :
    ∃ s, Reachable (Cache.Step r env arrives) .start s ∧ (h', r.lookup env h.varName) ∈ s.returned := by
  obtain ⟨s₁, h₁, hmap, hidle, -⟩ := @getLocalIndex_run r env arrives .start .start rfl 0 h rfl harr
  have hentry : s₁.pvMapping h'.receivedIndex = r.lookup env h.varName := by
    rw [hmap, DiodeReceiver.remember, if_pos ⟨rfl, hfound⟩, ← hidx]
    simp [DiodeReceiver.lookup, hfound]
  have h₂ : Cache.Step r env arrives s₁
      { s₁ with returned := (h', s₁.pvMapping h'.receivedIndex) :: s₁.returned } :=
    .cached harr' (congrFun hidle 0) (by rw [hentry]; exact lookup_ne_init _)
  exact ⟨_, h₁.next h₂, by simp [hentry]⟩

/-- **The cache agrees with the search** in every run exactly when frames with one sender index
resolve alike once one of them is found. -/
theorem cache_agrees_iff (r : DiodeReceiver) (env : Env) (arrives : Header → Prop) :
    (∀ s, Reachable (Cache.Step r env arrives) .start s → s.Agrees r env) ↔ Consistent r env arrives := by
  constructor
  · intro hall h h' harr harr' hidx hfound
    obtain ⟨s, hs, hmem⟩ := second_returned harr harr' hidx hfound
    exact (hall s hs _ hmem).symm
  · intro hcons s hs
    have hinv : s.Filled r env arrives ∧ s.Agrees r env :=
      hs.invariant (I := fun s => s.Filled r env arrives ∧ s.Agrees r env)
        ⟨Cache.filled_start, fun x hx => by cases hx⟩
        fun _ _ hi hstep => ⟨hi.1.step hstep, hi.2.step hcons hi.1 hstep⟩
    exact hinv.2

/-- A receiver of the PVs `A` and `B`. -/
def twoNames : DiodeReceiver where
  numberOfVariables := 2
  maxArraySize := 4
  maxNumberOfThreads := 1
  pvs := fun n => ⟨if n = 0 then [65] else [66], 0, 2, 2⟩
  vars_lt := by decide
  size_lt := fun _ => show 2 < 2 ^ 32 by decide

/-- Names compared byte by byte. -/
def orderedEnv : Env :=
  ⟨fun a b => if a = b then 0 else if a < b then 1 else 2, fun _ _ _ _ => [], fun _ => 0⟩

/-- A frame with the given name and sender index 0. -/
def namedFrame (name : List UInt8) : Header := ⟨name, 0, 0, 2, 0, 0, 0⟩

theorem twoNames_find : twoNames.getLocalVariableIndex orderedEnv [65] = (true, 0) ∧
    twoNames.getLocalVariableIndex orderedEnv [66] = (true, 1) := by
  have hgt : ¬ ([66] : List UInt8) < [65] := by decide
  constructor
  · simp [DiodeReceiver.getLocalVariableIndex, DiodeReceiver.searchFrom, twoNames, orderedEnv, sub32,
      u32, hgt]
  · simp [DiodeReceiver.getLocalVariableIndex, DiodeReceiver.searchFrom, twoNames, orderedEnv]

/-- A sender restarted with the list `B` after the list `A`: the frame for `B` gets the index of `A`. -/
theorem cache_disagrees_restarted : ¬ ∀ (r : DiodeReceiver) (env : Env) (s : Cache),
    Reachable (Cache.Step r env fun h => h.receivedIndex < r.numberOfVariables) .start s →
      s.Agrees r env := by
  intro hall
  obtain ⟨s, hs, hmem⟩ :=
    @second_returned twoNames orderedEnv (fun h => h.receivedIndex < twoNames.numberOfVariables)
    (namedFrame [65]) (namedFrame [66]) Nat.two_pos Nat.two_pos rfl (by rw [namedFrame, twoNames_find.1])
  have hagree := hall twoNames orderedEnv s hs _ hmem
  simp [namedFrame, DiodeReceiver.lookup, twoNames_find.1, twoNames_find.2] at hagree

end Hieratika.Receiver

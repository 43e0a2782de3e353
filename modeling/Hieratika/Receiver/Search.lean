import Hieratika.Receiver.IndexCache
import Hieratika.Receiver.Names

/-!
# The search by name

`GetLocalVariableIndex` looks a name up in the sorted list. It keeps the index it looks at and the
number `range_1` of entries that are still in question: with `lo` the first of them, the index is
`lo + range_1 / 2` (`Window`).

## What is proved

On the list that `Initialise` stores, the search ends, looks at indices of the list only, and finds a
name exactly when it is in the list, and then an entry with that name (`search_sorted`).
-/

namespace Hieratika.Receiver

open Foundations

variable {env : Env} {pvName : ℕ → List UInt8} {N : ℕ} {varName : List UInt8} {s : ℕ × ℕ}

/-- A turn of the loop, on `range_1` and `index`; it leaves with the result and `index`. -/
def searchTurn (env : Env) (numberOfVariables : ℕ) (pvName : ℕ → List UInt8) (varName : List UInt8)
    (s : ℕ × ℕ) :
    Turn (ℕ × ℕ) (Bool × ℕ) :=
  let (range_1, index) := s
  if 0 < range_1 then
    let range := range_1 / 2
    let res := if numberOfVariables ≤ index then 2 else env.compare (pvName index) varName
    if res = 0 then .leave (true, index)
    else if res = 2 then
      let index := if range % 2 = 1 then sub32 index 1 else index
      .again (range, sub32 index (range / 2))
    else if res = 1 then
      let range_1' := if range_1 % 2 = 0 then range - 1 else range
      .again (range_1', u32 (index + (range_1' / 2 + 1)))
    else .leave (false, index)
  else .leave (false, index)

/-- The states that the loop passes through. -/
def SearchReaches (env : Env) (numberOfVariables : ℕ) (pvName : ℕ → List UInt8) (varName : List UInt8)
    (s : ℕ × ℕ) : Prop :=
  Reachable (fun s t => searchTurn env numberOfVariables pvName varName s = .again t)
    (numberOfVariables, numberOfVariables / 2) s

/-- The loop with its result. -/
def SearchEnds (env : Env) (numberOfVariables : ℕ) (pvName : ℕ → List UInt8) (varName : List UInt8)
    (res : Bool × ℕ) : Prop :=
  Ends (searchTurn env numberOfVariables pvName varName) (numberOfVariables, numberOfVariables / 2) res

/-- The entries in question are those of a window, and the index is its middle. -/
def Window (env : Env) (N : ℕ) (pvName : ℕ → List UInt8) (varName : List UInt8) (s : ℕ × ℕ) : Prop :=
  ∃ lo, s.2 = lo + s.1 / 2 ∧ lo + s.1 ≤ N ∧ (∀ d < lo, env.compare (pvName d) varName = 1) ∧
    ∀ d < N, lo + s.1 ≤ d → env.compare (pvName d) varName = 2

/-- The names are in order. -/
def SortedNames (env : Env) (N : ℕ) (pvName : ℕ → List UInt8) : Prop :=
  ∀ d e, d < e → e < N → env.Before (pvName d) (pvName e)

theorem window_start : Window env N pvName varName (N, N / 2) :=
  ⟨0, (Nat.zero_add _).symm, (Nat.zero_add _).le, fun d hd => absurd hd (Nat.not_lt_zero d),
    fun d hd hle => by
    simp only at hle
    omega⟩

/-- The index of a window that is not empty is one of the list. -/
theorem Window.index_lt (h : Window env N pvName varName s) (hpos : 0 < s.1) : s.2 < N := by
  obtain ⟨lo, hmid, hle, -, -⟩ := h
  omega

/-- The name looked at is the one. -/
theorem searchTurn_equal (hpos : 0 < s.1) (hlt : s.2 < N) (hres : env.compare (pvName s.2) varName = 0) :
    searchTurn env N pvName varName s = .leave (true, s.2) := by
  unfold searchTurn
  dsimp only
  rw [if_pos hpos, if_neg (Nat.not_le.mpr hlt), hres, if_pos rfl]

/-- The name looked at is behind the one: the lower part of the window is left. -/
theorem searchTurn_lower (hN : N < 2 ^ 32) (h : env.Orders) (hsort : SortedNames env N pvName)
    (hw : Window env N pvName varName s)
    (hpos : 0 < s.1) (hres : env.compare (pvName s.2) varName = 2) :
    ∃ t, searchTurn env N pvName varName s = .again t ∧ t.1 < s.1 ∧ Window env N pvName varName t := by
  have hlt := hw.index_lt hpos
  obtain ⟨lo, hmid, hle, hlow, hhigh⟩ := hw
  have hindex : sub32 (if s.1 / 2 % 2 = 1 then sub32 s.2 1 else s.2) (s.1 / 2 / 2) = lo + s.1 / 2 / 2 := by
    split_ifs with hodd
    · have hone : sub32 s.2 1 = s.2 - 1 := sub32_of_le (by omega) (by omega)
      rw [hone, sub32_of_le (by omega) (by omega)]
      omega
    · rw [sub32_of_le (by omega) (by omega)]
      omega
  refine ⟨(s.1 / 2, lo + s.1 / 2 / 2), ?_, Nat.div_lt_self hpos (by omega), lo,
    rfl, by simp only; omega, hlow, fun d hd hge => ?_⟩
  · unfold searchTurn
    dsimp only
    rw [if_pos hpos, if_neg (Nat.not_le.mpr hlt), hres, if_neg (by decide), if_pos rfl, hindex]
  · have hge : s.2 ≤ d := by simp only at hge; omega
    rcases Nat.eq_or_lt_of_le hge with rfl | hbehind
    · exact hres
    · rw [← h.flip] at hres ⊢
      exact h.lt_of_lt_of_before hres (hsort _ _ hbehind hd)

/-- It is before the one: the upper part is left. -/
theorem searchTurn_upper (hN : N < 2 ^ 32) (h : env.Orders) (hsort : SortedNames env N pvName)
    (hw : Window env N pvName varName s)
    (hpos : 0 < s.1) (hres : env.compare (pvName s.2) varName = 1) :
    ∃ t, searchTurn env N pvName varName s = .again t ∧ t.1 < s.1 ∧ Window env N pvName varName t := by
  have hlt := hw.index_lt hpos
  obtain ⟨lo, hmid, hle, hlow, hhigh⟩ := hw
  have hrange : (if s.1 % 2 = 0 then s.1 / 2 - 1 else s.1 / 2) = s.1 - s.1 / 2 - 1 := by
    split_ifs <;> omega
  refine ⟨(s.1 - s.1 / 2 - 1, s.2 + ((s.1 - s.1 / 2 - 1) / 2 + 1)),
    ?_, by simp only; omega, s.2 + 1, by simp only; omega,
    by simp only; omega, fun d hd => ?_, fun d hd hge => hhigh d hd (by simp only at hge; omega)⟩
  · unfold searchTurn
    dsimp only
    rw [if_pos hpos, if_neg (Nat.not_le.mpr hlt), hres, if_neg (by decide), if_neg (by decide),
      if_pos rfl, hrange,
      u32_of_lt (by omega)]
  · rcases Nat.lt_succ_iff_lt_or_eq.mp hd with hbefore | rfl
    · exact h.lt_of_before_of_lt (hsort _ _ hbefore hlt) hres
    · exact hres

/-- **One turn**: the name is found, or the window gets smaller. -/
theorem Window.turn (hN : N < 2 ^ 32) (h : env.Orders) (hsort : SortedNames env N pvName)
    (hw : Window env N pvName varName s)
    (hpos : 0 < s.1) : (pvName s.2 = varName ∧ searchTurn env N pvName varName s = .leave (true, s.2)) ∨
      ∃ t, searchTurn env N pvName varName s = .again t ∧ t.1 < s.1 ∧ Window env N pvName varName t := by
  rcases h.side (pvName s.2) varName with h0 | h1 | h2
  · exact .inl ⟨(h.equal _ _).mp h0, searchTurn_equal hpos (hw.index_lt hpos) h0⟩
  · exact .inr (searchTurn_upper hN h hsort hw hpos h1)
  · exact .inr (searchTurn_lower hN h hsort hw hpos h2)

/-- An empty window leaves with nothing, and the name is not in the list. -/
theorem Window.empty (h : env.Orders) (hw : Window env N pvName varName s) (hzero : s.1 = 0) :
    searchTurn env N pvName varName s = .leave (false, s.2) ∧ ∀ d < N, pvName d ≠ varName := by
  obtain ⟨lo, -, -, hlow, hhigh⟩ := hw
  constructor
  · unfold searchTurn
    dsimp only
    rw [if_neg (by omega)]
  · intro d hd heq
    have hsame := (h.equal (pvName d) varName).mpr heq
    rcases Nat.lt_or_ge d lo with hlt | hge
    · rw [hlow d hlt] at hsame
      cases hsame
    · rw [hhigh d hd (by omega)] at hsame
      cases hsame

/-- **The whole loop**, by induction on the size of the window. -/
theorem Window.ends (hN : N < 2 ^ 32) (h : env.Orders) (hsort : SortedNames env N pvName)
    (hw : Window env N pvName varName s) :
    ∃ res, Ends (searchTurn env N pvName varName) s res ∧ (res.1 = true ↔ ∃ d < N, pvName d = varName) ∧
      (res.1 = true → res.2 < N ∧ pvName res.2 = varName) := by
  obtain ⟨range_1, index⟩ := s
  induction range_1 using Nat.strong_induction_on generalizing index with
  | _ range_1 ih =>
    rcases Nat.eq_zero_or_pos range_1 with rfl | hpos
    · obtain ⟨hleave, hnone⟩ := hw.empty h rfl
      refine ⟨_, .leave hleave, ⟨fun hfalse => absurd hfalse Bool.false_ne_true, ?_⟩,
        fun hfalse => absurd hfalse Bool.false_ne_true⟩
      rintro ⟨d, hd, heq⟩
      exact absurd heq (hnone d hd)
    · have hlt := hw.index_lt hpos
      rcases hw.turn hN h hsort hpos with ⟨hname, hleave⟩ | ⟨⟨range_1', index'⟩, hagain, hsmaller, hw'⟩
      · exact ⟨_, .leave hleave, ⟨fun _ => ⟨index, hlt, hname⟩, fun _ => rfl⟩, fun _ => ⟨hlt, hname⟩⟩
      · obtain ⟨res, hends, hres⟩ := ih range_1' hsmaller index' hw'
        exact ⟨res, .again hagain hends, hres⟩

/-- Every state the loop passes through has a window. -/
theorem SearchReaches.window (hN : N < 2 ^ 32) (h : env.Orders) (hsort : SortedNames env N pvName)
    (hs : SearchReaches env N pvName varName s) : Window env N pvName varName s :=
  hs.invariant window_start fun a b hw hturn => by
    rcases Nat.eq_zero_or_pos a.1 with hzero | hpos
    · rw [(hw.empty h hzero).1] at hturn
      cases hturn
    · rcases hw.turn hN h hsort hpos with ⟨-, hleave⟩ | ⟨t, hagain, -, hw'⟩
      · rw [hleave] at hturn
        cases hturn
      · rw [hagain] at hturn
        cases hturn
        exact hw'

/-! ### On the list that is stored -/

theorem sortedNames_stored (h : env.Orders) (names : List (List UInt8)) :
    SortedNames env names.length (readNames env names).1 := by
  intro d e hde he
  have hpair :=
    List.pairwise_iff_getElem.mp (readNames_sorted h names) d e
    (by rw [storedNames, stored, length_entries]; omega)
    (by rw [storedNames, stored, length_entries]; omega) hde
  simpa only [storedNames, stored, entries, List.getElem_map, List.getElem_range, id] using hpair

/-- A name is one of the list exactly if it is stored. -/
theorem exists_stored_iff (env : Env) (names : List (List UInt8)) (varName : List UInt8) :
    (∃ d < names.length, (readNames env names).1 d = varName) ↔ varName ∈ names := by
  rw [← (readNames_perm env names).mem_iff, storedNames, stored, entries, List.mem_map]
  simp only [List.mem_range, id]

/-- What is asked of the list and the search for a name in it. -/
structure FindsIn (env : Env) (names : List (List UInt8)) (varName : List UInt8) (res : Bool × ℕ) : Prop where
  ends : SearchEnds env names.length (readNames env names).1 varName res
  inside : ∀ s, SearchReaches env names.length (readNames env names).1 varName s → 0 < s.1 →
    s.2 < names.length
  found_iff : res.1 = true ↔ varName ∈ names
  found : res.1 = true → res.2 < names.length ∧ (readNames env names).1 res.2 = varName

/-- The search on a list of fewer than `2 ^ 32` names. -/
theorem finds_stored (h : env.Orders) {names : List (List UInt8)} (hlen : names.length < 2 ^ 32)
    (varName : List UInt8) :
    ∃ res, FindsIn env names varName res := by
  have hsort := sortedNames_stored h names
  have hstart :
    Window env names.length (readNames env names).1 varName (names.length, names.length / 2) := window_start
  obtain ⟨res, hends, hiff, hfound⟩ := hstart.ends hlen h hsort
  exact ⟨res, hends, fun s hs hpos => (hs.window hlen h hsort).index_lt hpos,
    hiff.trans (exists_stored_iff env names varName),
    hfound⟩

/-- **Sorted insertion and search are correct together**, for whatever the file contains. -/
theorem search_sorted (env : Env) (h : env.Orders) (firstVariableName : List UInt8) (maxNumberOfVariables : ℕ)
    (hmax : maxNumberOfVariables < 2 ^ 32) (file : List (List UInt8)) (varName : List UInt8) :
    (storedNames env (listed firstVariableName maxNumberOfVariables false 0 file)).Perm
        (listed firstVariableName maxNumberOfVariables false 0 file) ∧
      (storedNames env (listed firstVariableName maxNumberOfVariables false 0 file)).Pairwise env.Before ∧
      ∃ res, FindsIn env (listed firstVariableName maxNumberOfVariables false 0 file) varName res := by
  have hlen := length_listed firstVariableName maxNumberOfVariables false 0 file
  exact ⟨readNames_perm env _, readNames_sorted h _, finds_stored h (by omega) varName⟩

/-- The comparison byte by byte is such a `Compare`. -/
theorem orderedEnv_orders : orderedEnv.Orders where
  equal a b := by
    unfold orderedEnv
    dsimp only
    split_ifs with heq hlt
    · exact ⟨fun _ => heq, fun _ => rfl⟩
    · exact ⟨fun h => absurd h (by decide), fun h => absurd h heq⟩
    · exact ⟨fun h => absurd h (by decide), fun h => absurd h heq⟩
  side a b := by
    unfold orderedEnv
    dsimp only
    split_ifs
    · exact .inl rfl
    · exact .inr (.inl rfl)
    · exact .inr (.inr rfl)
  flip a b := by
    unfold orderedEnv
    dsimp only
    by_cases heq : a = b
    · simp [heq]
    · have hne : ¬ b = a := fun h => heq h.symm
      by_cases hlt : a < b
      · simp [heq, hne, hlt, List.lt_asymm hlt]
      · have hgt : b < a := by
          by_contra hle
          exact heq (List.le_antisymm (List.not_lt.mp hle) (List.not_lt.mp hlt))
        simp [heq, hne, hlt, hgt]
  trans a b c hab hbc := by
    have hlt : ∀ x y, orderedEnv.compare x y = 1 → x < y := by
      intro x y hxy
      unfold orderedEnv at hxy
      dsimp only at hxy
      by_contra hnot
      split_ifs at hxy
      all_goals omega
    have hac := List.lt_trans (hlt a b hab) (hlt b c hbc)
    unfold orderedEnv
    dsimp only
    rw [if_neg (by rintro rfl; exact List.lt_irrefl a hac), if_pos hac]

/-- `A` twice, and a name that is not there. -/
theorem search_sorted_two :
    ∃ res, FindsIn orderedEnv (listed [65] 0xFFFFFFFF false 0 [[66], [65], [67], [65]]) [66] res :=
  (search_sorted orderedEnv orderedEnv_orders [65] 0xFFFFFFFF (by decide) [[66], [65], [67], [65]] [66]).2.2

/-- The search of a receiver with the stored list. -/
theorem getLocalVariableIndex_ends (r : DiodeReceiver) (env : Env) (varName : List UInt8) :
    SearchEnds env r.numberOfVariables (fun n => (r.pvs n).pvName) varName
      (r.getLocalVariableIndex env varName) := by
  have hfrom : ∀ range_1 index, Ends (searchTurn env r.numberOfVariables (fun n => (r.pvs n).pvName) varName)
      (range_1, index) (r.searchFrom env varName range_1 index) := by
    intro range_1
    induction range_1 using Nat.strong_induction_on with
    | _ range_1 ih =>
      intro index
      rw [DiodeReceiver.searchFrom]
      by_cases hpos : 0 < range_1
      · rw [dif_pos hpos]
        dsimp only
        obtain ⟨turn, hturn⟩ : ∃ turn, searchTurn env r.numberOfVariables (fun n => (r.pvs n).pvName) varName
            (range_1, index) = turn := ⟨_, rfl⟩
        have hsame := hturn
        unfold searchTurn at hsame
        dsimp only at hsame
        rw [if_pos hpos] at hsame
        generalize (if r.numberOfVariables ≤ index then 2 else env.compare (r.pvs index).pvName
          varName) = res at hsame ⊢
        by_cases h0 : res = 0
        · rw [if_pos h0] at hsame ⊢
          exact .leave (hturn.trans hsame.symm)
        rw [if_neg h0] at hsame ⊢
        by_cases h2 : res = 2
        · rw [if_pos h2] at hsame ⊢
          exact .again (hturn.trans hsame.symm) (ih _ (by omega) _)
        rw [if_neg h2] at hsame ⊢
        by_cases h1 : res = 1
        · rw [if_pos h1] at hsame ⊢
          exact .again (hturn.trans hsame.symm) (ih _ (by split_ifs <;> omega) _)
        · rw [if_neg h1] at hsame ⊢
          exact .leave (hturn.trans hsame.symm)
      · rw [dif_neg hpos]
        exact .leave (by unfold searchTurn; dsimp only; rw [if_neg hpos])
  exact hfrom _ _

end Hieratika.Receiver

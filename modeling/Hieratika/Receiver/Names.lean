import Hieratika.Foundations.Insertion
import Hieratika.Receiver.Store

/-!
# The list of names

`DiodeReceiver::Initialise` reads the names of a file twice, from the first occurrence of
`FirstVariableName` on and at most `MaxNumberOfVariables` of them: once to count them, and once to
store them in `pvs`, where each new name is exchanged with the one before it as long as
`StringHelper::Compare` says 1. What `GetVariable` makes of the file is the list of names here; a name
is a C string that fits into `pvName`.

## What is proved

The stored names are those of the list in the order of `Compare` (`readNames_perm`, `readNames_sorted`),
whatever that order is.
-/

namespace Hieratika.Receiver

open Foundations

/-- The names for which the body of the loops is run; `n` is the counter, `start` whether the first name
was met. -/
def listed (firstVariableName : List UInt8) (maxNumberOfVariables : ℕ) :
    (start : Bool) → (n : ℕ) → List (List UInt8) →
    List (List UInt8)
  | _, _, [] => []
  | start, n, variable_ :: rest =>
    if start || variable_ == firstVariableName then
      variable_ :: if maxNumberOfVariables ≤ n + 1 then [] else listed firstVariableName
        maxNumberOfVariables true (n + 1) rest
    else listed firstVariableName maxNumberOfVariables false n rest

/-- The inner loop: from `j` down, exchange a name with the one before it while it is smaller. -/
def insertName (env : Env) : ℕ → (ℕ → List UInt8) → ℕ → List UInt8
  | 0, pvs => pvs
  | j + 1, pvs =>
    if env.compare (pvs (j + 1)) (pvs j) = 1 then insertName env j (exchange pvs j (j + 1)) else pvs

/-- The body of the second loop: `pvs` and `counter`. -/
def addName (env : Env) (x : (ℕ → List UInt8) × ℕ) (name : List UInt8) : (ℕ → List UInt8) × ℕ :=
  (insertName env x.2 (Function.update x.1 x.2 name), x.2 + 1)

/-- The second loop. -/
def readNames (env : Env) (names : List (List UInt8)) : (ℕ → List UInt8) × ℕ :=
  names.foldl (addName env) (fun _ => [], 0)

/-- `Compare` returns 0 exactly on equal strings, and 1 or 2 for the two sides of a total order. -/
structure Env.Orders (env : Env) : Prop where
  equal : ∀ a b, env.compare a b = 0 ↔ a = b
  side : ∀ a b, env.compare a b = 0 ∨ env.compare a b = 1 ∨ env.compare a b = 2
  flip : ∀ a b, env.compare a b = 1 ↔ env.compare b a = 2
  trans : ∀ a b c, env.compare a b = 1 → env.compare b c = 1 → env.compare a c = 1

variable {env : Env} {a b x : List UInt8} {names : List (List UInt8)}

/-- The first name is not behind the second one. -/
def Env.Before (env : Env) (a b : List UInt8) : Prop := env.compare a b ≠ 2

theorem before_of_lt (hab : env.compare a b = 1) : env.Before a b := by
  rw [Env.Before, hab]
  decide

theorem Env.Orders.before_of_not_lt (h : env.Orders) (hba : env.compare b a ≠ 1) : env.Before a b :=
  fun hab => hba ((h.flip b a).mpr hab)

theorem Env.Orders.lt_of_lt_of_before (h : env.Orders) {c : List UInt8} (hab : env.compare a b = 1)
    (hbc : env.Before b c) :
    env.compare a c = 1 := by
  rcases h.side b c with h0 | h1 | h2
  · rwa [← (h.equal b c).mp h0]
  · exact h.trans a b c hab h1
  · exact absurd h2 hbc

theorem Env.Orders.lt_of_before_of_lt (h : env.Orders) {c : List UInt8} (hab : env.Before a b)
    (hbc : env.compare b c = 1) :
    env.compare a c = 1 := by
  rcases h.side a b with h0 | h1 | h2
  · rwa [(h.equal a b).mp h0]
  · exact h.trans a b c h1 hbc
  · exact absurd h2 hab

theorem Env.Orders.before_trans (h : env.Orders) {c : List UInt8} (hab : env.Before a b)
    (hbc : env.Before b c) :
    env.Before a c := by
  rcases h.side b c with h0 | h1 | h2
  · rwa [← (h.equal b c).mp h0]
  · exact before_of_lt (h.lt_of_before_of_lt hab h1)
  · exact absurd h2 hbc

/-! ### The loops -/

/-- At most `MaxNumberOfVariables` names are read. -/
theorem length_listed (first : List UInt8) (most : ℕ) : ∀ (start : Bool) (n : ℕ) (file : List (List UInt8)),
    (listed first most start n file).length ≤ max 1 (most - n)
  | _, _, [] => Nat.zero_le _
  | start, n, v :: vs => by
    have hrest := length_listed first most true (n + 1) vs
    have hskip := length_listed first most false n vs
    rw [listed]
    split_ifs
    · simp
    · rw [List.length_cons]
      omega
    · exact hskip

/-- The inner loop is a sequence of exchanges past the names that the new one is smaller than. -/
theorem insertName_eq_sink : ∀ {j : ℕ} {pvs old : ℕ → List UInt8}, pvs j = x → (∀ d < j, pvs d = old d) →
    insertName env j pvs = sink id (fun d => decide (env.compare x (old d) = 1)) j pvs
  | 0, _, _, _, _ => rfl
  | j + 1, pvs, old, hx, hold => by
    have hmoved : insertName env j (exchange pvs j (j + 1)) =
        sink id (fun d => decide (env.compare x (old d) = 1)) j (exchange pvs j (j + 1)) := by
      refine insertName_eq_sink (by simp [exchange, hx]) fun d hd => ?_
      rw [← hold d (by omega)]
      simp [exchange, show d ≠ j by omega, show d ≠ j + 1 by omega]
    rw [insertName, sink, hx, hold j (by omega), hmoved]
    simp only [decide_eq_true_eq]
    rfl

/-- The first `n` names stored. -/
def stored (pvs : ℕ → List UInt8) (n : ℕ) : List (List UInt8) := entries id pvs n

/-- A new name is put in behind the names it is not smaller than. -/
theorem stored_addName (pvs : ℕ → List UInt8) (n : ℕ) (name : List UInt8) :
    stored (addName env (pvs, n) name).1 (n + 1) =
      insertAt (stored pvs n) (slot (fun d => decide (env.compare name (pvs d) = 1)) n) name := by
  have hnew : Function.update pvs n name n = name := Function.update_self n name pvs
  have hold : ∀ d < n, Function.update pvs n name d = pvs d :=
    fun d hd => Function.update_of_ne (by omega) _ _
  have hinj : ∀ d ≤ n, ∀ e ≤ n, id d = id e → d = e := fun _ _ _ _ heq => heq
  show entries id (insertName env n (Function.update pvs n name)) (n + 1) = _
  rw [insertName_eq_sink hnew hold, entries_sink hinj, id, hnew, stored]
  exact congrArg (insertAt · _ name) (entries_congr hold)

theorem Env.Orders.sorted_addName (h : env.Orders) {pvs : ℕ → List UInt8} {n : ℕ}
    (hs : (stored pvs n).Pairwise env.Before)
    (name : List UInt8) : (stored (addName env (pvs, n) name).1 (n + 1)).Pairwise env.Before := by
  rw [stored_addName, pairwise_insertAt]
  have hle : slot (fun d => decide (env.compare name (pvs d) = 1)) n ≤ n := slot_le n
  refine ⟨hs, fun y hy => ?_, fun y hy => ?_⟩
  · obtain ⟨d, hd, rfl⟩ := mem_take_entries.mp hy
    obtain ⟨e, he⟩ : ∃ e, slot (fun d => decide (env.compare name (pvs d) = 1)) n = e + 1 :=
      Nat.exists_eq_succ_of_ne_zero (by omega)
    have hstop : env.Before (pvs e) name := h.before_of_not_lt (of_decide_eq_false (back_slot he))
    rcases Nat.lt_or_ge d e with hlt | hge
    · have hpair := List.pairwise_iff_getElem.mp hs d e (by rw [stored, length_entries]; omega)
        (by rw [stored, length_entries]; omega) hlt
      simp only [stored, entries, List.getElem_map, List.getElem_range] at hpair
      exact h.before_trans hpair hstop
    · obtain rfl : d = e := by omega
      exact hstop
  · obtain ⟨d, hd, hn, rfl⟩ := mem_drop_entries.mp hy
    exact before_of_lt (of_decide_eq_true (back_of_slot_le hd hn))

/-! ### The stored names -/

/-- The inner loop does not reach behind the new name. -/
theorem insertName_of_lt : ∀ {j : ℕ} {pvs : ℕ → List UInt8} {i : ℕ}, j < i → insertName env j pvs i = pvs i
  | 0, _, _, _ => rfl
  | j + 1, pvs, i, hi => by
    rw [insertName]
    split_ifs
    · rw [insertName_of_lt (by omega)]
      simp [exchange, show i ≠ j by omega, show i ≠ j + 1 by omega]
    · rfl

theorem addName_of_lt {pvs : ℕ → List UInt8} {n i : ℕ} (hi : n < i) (name : List UInt8) :
    (addName env (pvs, n) name).1 i = pvs i :=
  (insertName_of_lt hi).trans (Function.update_of_ne hi.ne' _ _)

/-- The second loop over any array: as many names as there are, those of the list, and nothing
behind them. -/
theorem addName_foldl (env : Env) (pvs : ℕ → List UInt8) (names : List (List UInt8)) :
    (names.foldl (addName env) (pvs, 0)).2 = names.length ∧
      (stored (names.foldl (addName env) (pvs, 0)).1 names.length).Perm names ∧
        ∀ i, names.length ≤ i → (names.foldl (addName env) (pvs, 0)).1 i = pvs i := by
  induction names using List.reverseRecOn with
  | nil => exact ⟨rfl, List.Perm.refl _, fun _ _ => rfl⟩
  | append_singleton names name ih =>
    obtain ⟨hlen, hperm, hrest⟩ := ih
    have hpair : names.foldl (addName env) (pvs, 0) = ((names.foldl (addName env) (pvs, 0)).1,
      names.length) := Prod.ext rfl hlen
    rw [List.foldl_append, List.foldl_cons, List.foldl_nil, List.length_append, List.length_singleton,
      hpair, stored_addName]
    refine ⟨rfl, insertAt_perm.trans
      ((hperm.cons name).trans (List.perm_append_singleton name names).symm), fun i hi => ?_⟩
    rw [addName_of_lt (by omega)]
    exact hrest i (by omega)

theorem readNames_append (names : List (List UInt8)) (name : List UInt8) :
    readNames env (names ++ [name]) = addName env (readNames env names) name := by
  rw [readNames, List.foldl_append]
  rfl

@[simp] theorem readNames_length (names : List (List UInt8)) : (readNames env names).2 = names.length :=
  (addName_foldl env _ names).1

/-- What is stored. -/
def storedNames (env : Env) (names : List (List UInt8)) : List (List UInt8) :=
  stored (readNames env names).1 names.length

theorem storedNames_append (names : List (List UInt8)) (name : List UInt8) :
    storedNames env (names ++ [name]) =
    stored (addName env ((readNames env names).1, names.length) name).1 (names.length + 1) := by
  have hpair : readNames env names = ((readNames env names).1, names.length) :=
    Prod.ext rfl (readNames_length names)
  rw [storedNames, readNames_append, List.length_append, List.length_singleton, ← hpair]

/-- **The stored names are those of the list.** -/
theorem readNames_perm (env : Env) (names : List (List UInt8)) : (storedNames env names).Perm names :=
  (addName_foldl env _ names).2.1

/-- **They are in order.** -/
theorem readNames_sorted (h : env.Orders) (names : List (List UInt8)) :
    (storedNames env names).Pairwise env.Before := by
  induction names using List.reverseRecOn with
  | nil => exact List.Pairwise.nil
  | append_singleton names name ih =>
    rw [storedNames_append]
    exact h.sorted_addName ih name

end Hieratika.Receiver

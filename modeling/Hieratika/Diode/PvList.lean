import Hieratika.Diode.PvFile
import Hieratika.Receiver.Names
import Mathlib.Data.List.TakeWhile

/-!
# The list of PVs

`ParseAndSubscribe` and `DiodeReceiver::Initialise` go through the file twice: to count the PVs,
from the first `FirstVariableName` on and at most `MaxNumberOfVariables`, and, with arrays of this
length, to fill them. The four loops are one, `passTurn`, and differ in what they store.

## What is proved

All four select the same names of the file, so each filling pass fills as many entries as were
counted, and no other (`pv_list_read`).
-/

namespace Hieratika.Diode

open Foundations Receiver

variable {α : Type*}

/-! ### A pass -/

/-- The state of a pass; what is stored is in `acc`. -/
structure Passing (α : Type*) where
  file : List UInt8
  start : Bool
  counter : ℕ
  acc : α

section

variable (first : List UInt8) (most : ℕ) (store : α → ℕ → List UInt8 → α)

/-- A turn of `while (GetVariable(xmlFile, variable))`; `rest` is what the call leaves of the file. -/
def passTurn (s : Passing α) (variable_ rest : List UInt8) : Turn (Passing α) (Passing α) :=
  if s.start || variable_ == first then
    let s' : Passing α := ⟨rest, true, u32 (s.counter + 1), store s.acc s.counter variable_⟩
    if most ≤ s'.counter then .leave s' else .again s'
  else .again { s with file := rest }

/-- The pass from `s` ends in `e`. -/
inductive Pass (T : Tokens) : Passing α → Passing α → Prop where
  | stop {s : Passing α} {variable_ rest : List UInt8} : GetVariable T s.file (false, variable_, rest) →
      Pass T s { s with file := rest }
  | leave {s e : Passing α} {variable_ rest : List UInt8} : GetVariable T s.file (true, variable_, rest) →
      passTurn first most store s variable_ rest = .leave e → Pass T s e
  | again {s s' e : Passing α} {variable_ rest : List UInt8} : GetVariable T s.file (true, variable_, rest) →
      passTurn first most store s variable_ rest = .again s' → Pass T s' e → Pass T s e

end

/-! ### The four passes -/

/-- What `ParseAndSubscribe` sets in a descriptor, apart from the pointers. -/
structure ParsedPv where
  index : ℕ
  pvName : List UInt8

section

variable (T : Tokens) (first : List UInt8) (most : ℕ) (file : List UInt8)

/-- The first pass, in both components. -/
def Counts (numberOfVariables : ℕ) : Prop :=
  ∃ e, Pass first most (fun (_ : Unit) _ _ => ()) T ⟨file, false, 0, ()⟩ e ∧ e.counter = numberOfVariables

/-- The second pass of `ParseAndSubscribe`, over the descriptors `old`. -/
def Parses (old pvDescriptor : ℕ → ParsedPv) (counter : ℕ) : Prop :=
  ∃ e, Pass first most (fun pv counter name => Function.update pv counter ⟨counter, name⟩) T ⟨file,
    false, 0, old⟩ e ∧
    e.acc = pvDescriptor ∧ e.counter = counter

/-- The second pass of `DiodeReceiver::Initialise`, over the names `old`. -/
def Initialises (env : Env) (old pvs : ℕ → List UInt8) (counter : ℕ) : Prop :=
  ∃ e, Pass first most (fun pvs counter name => (addName env (pvs, counter) name).1) T ⟨file, false, 0,
    old⟩ e ∧
    e.acc = pvs ∧ e.counter = counter

end

variable {T : Tokens} {first : List UInt8} {most : ℕ} {store : α → ℕ → List UInt8 → α} {s e e' : Passing α}
  {file : List UInt8} {names : List (List UInt8)}

/-- A pass has one result. -/
theorem Pass.unique (h : Pass first most store T s e) (h' : Pass first most store T s e') : e = e' := by
  induction h with
  | stop hcall =>
    cases h' with
    | stop hcall' => cases hcall.unique hcall'; rfl
    | leave hcall' _ => cases hcall.unique hcall'
    | again hcall' _ _ => cases hcall.unique hcall'
  | leave hcall hturn =>
    cases h' with
    | stop hcall' => cases hcall.unique hcall'
    | leave hcall' hturn' => cases hcall.unique hcall'; cases hturn.symm.trans hturn'; rfl
    | again hcall' hturn' _ => cases hcall.unique hcall'; cases hturn.symm.trans hturn'
  | again hcall hturn _ ih =>
    cases h' with
    | stop hcall' => cases hcall.unique hcall'
    | leave hcall' hturn' => cases hcall.unique hcall'; cases hturn.symm.trans hturn'
    | again hcall' hturn' hpass' => cases hcall.unique hcall'; cases hturn.symm.trans hturn'; exact ih hpass'

/-! ### The names selected -/

/-- The selected names, stored one by one. -/
def storeAll (store : α → ℕ → List UInt8 → α) (x : α × ℕ) (name : List UInt8) : α × ℕ :=
  (store x.1 x.2 name, x.2 + 1)

/-- **A pass stores the names that are listed.** -/
theorem exists_pass (first : List UInt8) (store : α → ℕ → List UInt8 → α) (hmost : most < 2 ^ 32)
    (hcalls : Returns T file names) : ∀ (start : Bool) (counter : ℕ) (acc : α),
    counter < most → ∃ e, Pass first most store T ⟨file, start, counter, acc⟩ e ∧
      (e.acc, e.counter) = (listed first most start counter names).foldl (storeAll store) (acc, counter) := by
  induction hcalls with
  | stop hcall =>
    intro start counter acc _
    exact ⟨_, .stop hcall, rfl⟩
  | @next file v rest names hcall _ ih =>
    intro start counter acc hlt
    have hsucc : u32 (counter + 1) = counter + 1 := u32_of_lt (by omega)
    by_cases hstart : (start || v == first) = true
    · by_cases hend : most ≤ counter + 1
      · refine ⟨⟨rest, true, counter + 1, store acc counter v⟩, .leave hcall ?_, ?_⟩
        · simp only [passTurn, if_pos hstart, hsucc, if_pos hend]
        · rw [listed, if_pos hstart, if_pos hend]
          rfl
      · obtain ⟨e, hpass, he⟩ := ih true (counter + 1) (store acc counter v) (by omega)
        refine ⟨e, .again hcall ?_ hpass, ?_⟩
        · simp only [passTurn, if_pos hstart, hsucc, if_neg hend]
        · rw [he, listed, if_pos hstart, if_neg hend]
          rfl
    · obtain ⟨e, hpass, he⟩ := ih start counter acc hlt
      have hnot : start = false := by
        cases start with
        | false => rfl
        | true => exact absurd rfl hstart
      refine ⟨e, .again hcall ?_ hpass, ?_⟩
      · simp only [passTurn, if_neg hstart]
      · rw [he, listed, if_neg hstart, hnot]

/-- What is listed: the names from the first one on, cut to `most`. -/
theorem listed_eq (first : List UInt8) : ∀ (names : List (List UInt8)) (start : Bool) (n : ℕ), n < most →
    listed first most start n names = (if start then names else names.dropWhile (· != first)).take (most - n)
  | [], start, n, _ => by cases start <;> simp [listed]
  | v :: names, start, n, hlt => by
    obtain ⟨left, hleft⟩ : ∃ left, most - n = left + 1 := ⟨most - n - 1, by omega⟩
    have hrest : (if most ≤ n + 1 then [] else listed first most true (n + 1) names) = names.take left := by
      by_cases hend : most ≤ n + 1
      · rw [if_pos hend, show left = 0 by omega, List.take_zero]
      · rw [if_neg hend, listed_eq first names true (n + 1) (by omega), show most - (n + 1) = left by omega]
        rfl
    rw [listed, hrest, hleft]
    cases start with
    | true => rfl
    | false =>
      by_cases hv : v = first
      · simp [hv]
      · simp [hv, listed_eq first names false n hlt, hleft]

/-- The names that a pass selects. -/
def selected (first : List UInt8) (most : ℕ) (names : List (List UInt8)) : List (List UInt8) :=
  (names.dropWhile (· != first)).take most

/-- A pass over the file stores the selected names, and nothing else. -/
theorem pass_iff (first : List UInt8) (store : α → ℕ → List UInt8 → α) (hpos : 0 < most)
    (hmost : most < 2 ^ 32) (hcalls : Returns T file names) (acc : α) {x : α × ℕ} :
    (∃ e, Pass first most store T ⟨file, false, 0, acc⟩ e ∧ e.acc = x.1 ∧ e.counter = x.2) ↔
      x = (selected first most names).foldl (storeAll store) (acc, 0) := by
  obtain ⟨e, hpass, he⟩ := exists_pass first store hmost hcalls false 0 acc hpos
  rw [listed_eq first names false 0 hpos] at he
  constructor
  · rintro ⟨e', hpass', hacc, hcounter⟩
    rw [hpass'.unique hpass] at hacc hcounter
    exact (Prod.ext hacc hcounter).symm.trans he
  · rintro rfl
    exact ⟨e, hpass, congrArg Prod.fst he, congrArg Prod.snd he⟩

/-! ### The arrays -/

theorem storeAll_counter (names : List (List UInt8)) (x : α × ℕ) :
    (names.foldl (storeAll store) x).2 = x.2 + names.length := by
  induction names generalizing x with
  | nil => rfl
  | cons name names ih =>
    rw [List.foldl_cons, ih, List.length_cons]
    show x.2 + 1 + names.length = x.2 + (names.length + 1)
    omega

/-- The descriptors that `ParseAndSubscribe` fills. -/
def filled (old : ℕ → ParsedPv) (names : List (List UInt8)) : ℕ → ParsedPv := fun i =>
  match names[i]? with
  | some name => ⟨i, name⟩
  | none => old i

theorem storeAll_parsed (old : ℕ → ParsedPv) (names : List (List UInt8)) :
    names.foldl (storeAll fun pv counter name => Function.update pv counter ⟨counter, name⟩) (old, 0) =
      (filled old names, names.length) := by
  induction names using List.reverseRecOn with
  | nil => rfl
  | append_singleton names name ih =>
    rw [List.foldl_append, ih, List.length_append]
    refine Prod.ext (funext fun i => ?_) rfl
    show Function.update (filled old names) names.length ⟨names.length, name⟩ i =
      filled old (names ++ [name]) i
    unfold filled
    rcases Nat.lt_trichotomy i names.length with hlt | rfl | hgt
    · rw [Function.update_of_ne hlt.ne, List.getElem?_append_left hlt]
    · rw [Function.update_self, List.getElem?_concat_length]
    · rw [Function.update_of_ne hgt.ne', List.getElem?_eq_none hgt.le, List.getElem?_eq_none]
      rw [List.length_append, List.length_singleton]
      exact hgt

/-- **The PV list is read as it is written.** `GetVariable` returns the names of the file; both
components count those from `FirstVariableName` on, cut to `MaxNumberOfVariables`, and store these:
the subscriber one after the other, the receiver in the order of `Compare`. Behind them the arrays
are as they were. -/
theorem pv_list_read (hT : T.Reads) (f : PvFile) : Returns T f.text f.names ∧
    ∀ (first : List UInt8) (most : ℕ), 1 ≤ most → most < 2 ^ 32 →
      (∀ n, Counts T first most f.text n ↔ n = (selected first most f.names).length) ∧
      (∀ old pvDescriptor n, Parses T first most f.text old pvDescriptor n ↔
        n = (selected first most f.names).length ∧ pvDescriptor = filled old (selected first most f.names)) ∧
      ∀ (env : Env) (old : ℕ → List UInt8), (∃ pvs n, Initialises T first most f.text env old pvs n) ∧
        ∀ pvs n, Initialises T first most f.text env old pvs n → n = (selected first most f.names).length ∧
          (stored pvs n).Perm (selected first most f.names) ∧ ∀ i, n ≤ i → pvs i = old i := by
  have hcalls := returns_names hT f
  refine ⟨hcalls, fun first most hpos hmost =>
    ⟨fun n => ?_, fun old pvDescriptor n => ?_, fun env old => ⟨?_, ?_⟩⟩⟩
  · unfold Counts
    have hpass := pass_iff first (fun (_ : Unit) _ _ => ()) hpos hmost hcalls () (x := ((), n))
    simp only [true_and] at hpass
    rw [hpass, Prod.ext_iff, storeAll_counter, Nat.zero_add]
    exact and_iff_right rfl
  · unfold Parses
    rw [pass_iff first _ hpos hmost hcalls old (x := (pvDescriptor, n)), storeAll_parsed, Prod.mk.injEq]
    exact and_comm
  · obtain ⟨e, hpass, -, -⟩ :=
      (pass_iff first (fun pvs counter name => (addName env (pvs, counter) name).1) hpos hmost hcalls
      old).mpr rfl
    exact ⟨e.acc, e.counter, e, hpass, rfl, rfl⟩
  · intro pvs n hread
    have hfold := (pass_iff first _ hpos hmost hcalls old (x := (pvs, n))).mp hread
    obtain ⟨hlen, hperm, hrest⟩ := addName_foldl env old (selected first most f.names)
    have hpair : (selected first most f.names).foldl (addName env) (old, 0) = (pvs, n) := hfold.symm
    rw [hpair] at hlen hperm hrest
    dsimp only at hlen hperm hrest
    rw [← hlen] at hperm hrest
    exact ⟨hlen, hperm, hrest⟩

/-- Up to the terminator, without the skip characters; all the rest of the file if there is no
terminator. -/
def plainTokens : Tokens where
  getToken terminator skipCharacters file :=
    let token := (file.takeWhile (· != terminator)).filter fun c => !skipCharacters.contains c
    let rest := file.dropWhile (· != terminator)
    (!token.isEmpty || !rest.isEmpty, token, rest.tail)

theorem plainTokens_reads : plainTokens.Reads where
  stops terminator skipCharacters token file _ hnot := by
    have hall : ∀ c ∈ token, (c != terminator) = true := fun c hc => by
      simp only [bne_iff_ne, ne_eq]
      rintro rfl
      exact hnot hc
    simp [plainTokens, List.takeWhile_append_of_pos hall, List.dropWhile_append_of_pos hall]
  eof terminator skipCharacters file hnot hskip := by
    have hall : ∀ c ∈ file, (c != terminator) = true := fun c hc => by
      simp only [bne_iff_ne, ne_eq]
      rintro rfl
      exact hnot (hskip c hc)
    have htake : file.takeWhile (· != terminator) = file := List.takeWhile_eq_self_iff.mpr hall
    have hdrop : file.dropWhile (· != terminator) = [] := List.dropWhile_eq_nil_iff.mpr hall
    simpa [plainTokens, htake, hdrop] using hskip

def noGap : Gap := ⟨[], List.forall_mem_nil _⟩

def newline : Gap := ⟨[10], List.forall_mem_singleton.mpr (by decide)⟩

/-- The PVs `A` and `B`, with a newline before each entry. -/
def twoPvs : PvFile where
  beforeHeader := noGap
  header := ⟨[115, 115, 116], by decide⟩
  entries := [⟨newline, noGap, ⟨[65], List.cons_ne_nil _ _, List.forall_mem_singleton.mpr (by decide)⟩,
    noGap⟩,
    ⟨newline, noGap, ⟨[66], List.cons_ne_nil _ _, List.forall_mem_singleton.mpr (by decide)⟩, noGap⟩]
  beforeClosing := newline
  closing := ⟨[47, 115, 115, 116], by decide⟩
  afterClosing := newline

/-- From `B` on one PV is counted and stored. -/
theorem pv_list_read_two :
    Returns plainTokens twoPvs.text [[65], [66]] ∧ Counts plainTokens [66] 5 twoPvs.text 1 ∧
    ∀ old, Parses plainTokens [66] 5 twoPvs.text old (filled old [[66]]) 1 := by
  obtain ⟨hcalls, hpasses⟩ := pv_list_read plainTokens_reads twoPvs
  obtain ⟨hcount, hparse, -⟩ := hpasses [66] 5 (by decide) (by decide)
  exact ⟨hcalls, (hcount 1).mpr (by decide), fun old => (hparse old _ 1).mpr ⟨by decide, rfl⟩⟩

end Hieratika.Diode

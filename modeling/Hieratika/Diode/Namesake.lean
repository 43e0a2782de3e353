import Hieratika.Diode.Limits
import Hieratika.Receiver.RoundTrip
import Hieratika.Receiver.Search

/-!
# One list for both sides

Sender and receiver are given the same list of names. The sender keeps it as it is, the receiver keeps
it sorted, and both keep every name whole. A frame carries the name of its PV, and the receiver looks
for the part of it before the first `.` in its list.

## What is proved

A frame of the sender reaches the entry of its own name exactly when there is no `.` in the name and
the size of the frame passes the check of the receiver (`reaches_namesake_iff`). The value of a field
goes to the record, if that is in the list.
-/

namespace Hieratika.Diode

open Foundations Sender Receiver

variable {env : Env} {names : List (List UInt8)} {c : Config} {r : DiodeReceiver} {f : Frame} {s : Store}

/-- The sender and the receiver behind `Initialise`, with one list of names. -/
structure SharedList (env : Env) (names : List (List UInt8)) (c : Config) (r : DiodeReceiver) : Prop where
  /-- Each name is a C string that fits into `pvName`, without quotes. -/
  name : ∀ name ∈ names, 1 ≤ name.length ∧ name.length ≤ 63 ∧ quote ∉ name ∧ 0 ∉ name
  sent : ∀ p (hp : p < names.length), (c.pvDes p).pvName = names[p]
  count : r.numberOfVariables = names.length
  stored : ∀ n < names.length, (r.pvs n).pvName = (readNames env names).1 n

/-- As soon as its header is in the payload, the frame is read and resolved to an entry of the given
name. -/
def Reaches (r : DiodeReceiver) (env : Env) (f : Frame) (name : List UInt8) : Prop :=
  ∀ s : Store, (∀ i, s.pvMapping i = indexInitId) → ∀ p t, p <+: f.encode ++ t → p.length < 2 ^ 32 →
    f.name.length + 17 ≤ p.length → ∃ h, ReadVarNameAndIndex r env p (p, some h) ∧
      (r.getLocalIndex env s h).index < r.numberOfVariables ∧
        (r.pvs (r.getLocalIndex env s h).index).pvName = name

theorem searchName_eq_self {name : List UInt8} : searchName name = name ↔ 46 ∉ name := by
  rw [searchName, List.takeWhile_eq_self_iff]
  refine ⟨fun hall hdot => by simpa using hall 46 hdot, fun hdot b hb => ?_⟩
  simpa using fun heq : b = 46 => hdot (heq ▸ hb)

/-! ### The search with nothing remembered -/

/-- The search of `GetLocalIndex` in the shared list. -/
theorem SharedList.search (h : SharedList env names c r) (henv : env.Orders) (varName : List UInt8) :
    ((r.getLocalVariableIndex env varName).1 = true ↔ varName ∈ names) ∧
      ((r.getLocalVariableIndex env varName).1 = true →
        (r.getLocalVariableIndex env varName).2 < r.numberOfVariables ∧
          (r.pvs (r.getLocalVariableIndex env varName).2).pvName = varName) := by
  have hN := r.vars_lt
  have hsort : SortedNames env r.numberOfVariables fun n => (r.pvs n).pvName := by
    rw [h.count]
    intro d e hde he
    dsimp only
    rw [h.stored d (by omega), h.stored e he]
    exact sortedNames_stored henv names d e hde he
  have hmem : (∃ d < r.numberOfVariables, (r.pvs d).pvName = varName) ↔ varName ∈ names := by
    rw [← exists_stored_iff env, h.count]
    exact exists_congr fun d => and_congr_right fun hd => by rw [h.stored d hd]
  have hstart : Window env r.numberOfVariables (fun n => (r.pvs n).pvName) varName
    (r.numberOfVariables, r.numberOfVariables / 2) := window_start
  obtain ⟨res, hends, hiff, hfound⟩ := hstart.ends (by omega) henv hsort
  rw [(getLocalVariableIndex_ends r env varName).unique hends]
  exact ⟨hiff.trans hmem, hfound⟩

/-- With nothing remembered, a name of the list is resolved to an entry with that name. -/
theorem SharedList.resolve_mem (h : SharedList env names c r) (henv : env.Orders) {hd : Header}
    (hs : s.pvMapping hd.receivedIndex = indexInitId) (hmem : hd.varName ∈ names) :
    r.resolve env s hd < r.numberOfVariables ∧ (r.pvs (r.resolve env s hd)).pvName = hd.varName := by
  obtain ⟨hiff, hfound⟩ := h.search henv hd.varName
  have hres : r.resolve env s hd = (r.getLocalVariableIndex env hd.varName).2 := by
    rw [DiodeReceiver.resolve, if_pos hs]
    exact if_pos (hiff.mpr hmem)
  rw [hres]
  exact hfound (hiff.mpr hmem)

/-- Any other name is not resolved. -/
theorem SharedList.resolve_notMem (h : SharedList env names c r) (henv : env.Orders) {hd : Header}
    (hs : s.pvMapping hd.receivedIndex = indexInitId) (hmem : hd.varName ∉ names) :
    r.resolve env s hd = indexNotFoundId := by
  have hnot : ¬ (r.getLocalVariableIndex env hd.varName).1 = true := fun hfound =>
    hmem ((h.search henv hd.varName).1.mp hfound)
  rw [DiodeReceiver.resolve, if_pos hs]
  exact if_neg hnot

/-! ### The frames of the sender -/

/-- What a frame of the sender is for the receiver. -/
structure SentFor (names : List (List UInt8)) (f : Frame) : Prop where
  index_lt : f.index < names.length
  name : f.name = names[f.index]
  shaped : Shaped f
  name_le : f.name.length ≤ 63
  size_lt : f.size < 2 ^ 32

/-- Every frame of a slice is for an entry of the list, if its PV is one. -/
theorem SharedList.sentFor (h : SharedList env names c r) {w : Wire} {m : Memory} {list : ℕ → ℕ}
    {n listIndex : ℕ} :
    ∀ fs ∈ (sendVariables c w m list n listIndex).out, ∀ f ∈ fs, f.index < names.length →
      SentFor names f := by
  refine sendVariables_frames (fun sig varOffset hsig => ?_) listIndex
  have hname : (frameAt c m sig varOffset).name = names[sig] := h.sent sig hsig
  obtain ⟨-, hle, hquote, hnul⟩ := h.name _ (List.getElem_mem hsig)
  have hsize : (frameAt c m sig varOffset).size ≤ (c.pvDes sig).totalSize := by
    rw [frameAt_size]
    omega
  exact ⟨hsig, hname, ⟨hname ▸ hquote, hname ▸ hnul, length_readAt, length_readAt⟩, hname ▸ hle,
    hsize.trans_lt (u32_lt _)⟩

/-- The receiver reads the header of the frame, if the size passes. -/
theorem SentFor.read (hf : SentFor names f) (h : SharedList env names c r) {p t : List UInt8}
    (hp : p <+: f.encode ++ t) (hlen : p.length < 2 ^ 32) (hlong : f.name.length + 17 ≤ p.length) :
    ReadVarNameAndIndex r env p
      (if u32 (8 * r.maxArraySize) ≤ f.size then ([], none) else (p, some (headerOf env p f))) := by
  have hindex := hf.index_lt
  have hN := r.vars_lt
  have hcount := h.count
  have hchecks : (r.numberOfVariables ≤ f.index ∨ u32 (8 * r.maxArraySize) ≤ f.size) ↔
      u32 (8 * r.maxArraySize) ≤ f.size := by
    omega
  have hread : ReadVarNameAndIndex r env p _ := readVarNameAndIndex_checked hf.shaped
    (hf.name_le.trans (by decide)) (by omega) hf.size_lt hp hlen (by omega)
  simpa only [hchecks] using hread

/-- **A frame reaches the entry of its name** exactly when the name has no field and the size passes. -/
theorem SentFor.reaches_iff (hf : SentFor names f) (h : SharedList env names c r) (henv : env.Orders) :
    Reaches r env f f.name ↔ 46 ∉ f.name ∧ f.size < u32 (8 * r.maxArraySize) := by
  constructor
  · intro hreach
    have hlen := length_encode hf.shaped
    have hpart : f.encode.take (f.name.length + 17) <+: f.encode ++ [] := by
      rw [List.append_nil]
      exact List.take_prefix _ _
    have hplen : (f.encode.take (f.name.length + 17)).length = f.name.length + 17 := by
      rw [List.length_take]
      omega
    have hle := hf.name_le
    obtain ⟨hd, hread, hlt, hname⟩ := hreach Store.start (fun _ => rfl) _ [] hpart (by omega) hplen.ge
    have hsame := ReadVarNameAndIndex.unique (hf.read h hpart (by omega) hplen.ge) hread
    split_ifs at hsame with hsize
    · cases hsame
    · obtain rfl : headerOf env (f.encode.take (f.name.length + 17)) f = hd := by
        injection hsame with _ hsome
        injection hsome
      refine ⟨?_, Nat.lt_of_not_le hsize⟩
      have hvar : (headerOf env (f.encode.take (f.name.length + 17)) f).varName = searchName f.name := rfl
      by_cases hmem : searchName f.name ∈ names
      · have hfound := (h.resolve_mem henv (s := Store.start) rfl (hvar ▸ hmem)).2
        rw [← searchName_eq_self, ← hvar]
        exact hfound.symm.trans hname
      · have hnone := h.resolve_notMem henv (s := Store.start) rfl (hvar ▸ hmem)
        have hN := r.vars_lt
        have hidx : indexNotFoundId < r.numberOfVariables := hnone ▸ hlt
        unfold indexNotFoundId at hidx
        omega
  · rintro ⟨hdot, hsize⟩ s hs p t hp hlen hlong
    have hread := hf.read h hp hlen hlong
    rw [if_neg (Nat.not_le.mpr hsize)] at hread
    have hvar : (headerOf env p f).varName = f.name := searchName_eq_self.mpr hdot
    have hmem : (headerOf env p f).varName ∈ names := by
      rw [hvar, hf.name]
      exact List.getElem_mem hf.index_lt
    obtain ⟨hlt, hname⟩ := h.resolve_mem henv (hs _) hmem
    exact ⟨_, hread, hlt, hname.trans hvar⟩

/-- **Every PV reaches its namesake**, but for the fields of records and frames that are too large. -/
theorem reaches_namesake_iff (henv : env.Orders) (h : SharedList env names c r) (w : Wire) (m : Memory)
    (list : ℕ → ℕ)
    (n listIndex : ℕ) {fs : List Frame} (hfs : fs ∈ (sendVariables c w m list n listIndex).out)
    (hf : f ∈ fs) {p : ℕ} (hp : p < names.length) (hindex : f.index = p) :
    Reaches r env f names[p] ↔ 46 ∉ names[p] ∧ f.size < u32 (8 * r.maxArraySize) := by
  subst hindex
  have hsent := h.sentFor fs hfs f hf hp
  rw [← hsent.name]
  exact hsent.reaches_iff h henv

/-! ### A record and one of its fields -/

/-- The sender of some PVs of one long, by their names. -/
def listSender (names : List (List UInt8)) : Config :=
  ⟨names.length, 1, 1, 0xFFFFFFFF, 0xFFFFFFFF, 0, false, fun i => ⟨names.getD i [], 1, 4, 12 * i, 4⟩⟩

/-- The receiver of them. -/
def listReceiver (env : Env) (names : List (List UInt8)) (hN : names.length < 2 ^ 31) : DiodeReceiver where
  numberOfVariables := names.length
  maxArraySize := 1
  maxNumberOfThreads := 1
  pvs := fun n => ⟨(readNames env names).1 n, 4, 1, 4⟩
  vars_lt := hN
  size_lt := fun _ => show 4 < 2 ^ 32 by decide

theorem listed_shared (env : Env) (names : List (List UInt8)) (hN : names.length < 2 ^ 31)
    (hname : ∀ name ∈ names, 1 ≤ name.length ∧ name.length ≤ 63 ∧ quote ∉ name ∧ 0 ∉ name) :
    SharedList env names (listSender names) (listReceiver env names hN) where
  name := hname
  sent _ hp := List.getD_eq_getElem names [] hp
  count := rfl
  stored _ _ := rfl

/-- The record `A` and its field `A.B`. -/
def recordAndField : List (List UInt8) := [[65], [65, 46, 66]]

theorem recordAndField_shared : SharedList orderedEnv recordAndField (listSender recordAndField)
    (listReceiver orderedEnv recordAndField (by decide)) :=
  listed_shared _ _ _ (by decide)

/-- The first frame of an entry is sent. -/
theorem recordAndField_sent (p : ℕ) :
    ∃ fs ∈ (sendVariables (listSender recordAndField) .good (fun _ => 0) (fun _ => p) 1 0).out,
    frameAt (listSender recordAndField) (fun _ => 0) p 0 ∈ fs :=
  sendVariables_first ⟨Nat.one_pos, show 0 < 4 by decide⟩ (show 0 < u32 (4 * 1) by decide)

/-- The record is reached. -/
theorem record_reached :
    ∃ fs ∈ (sendVariables (listSender recordAndField) .good (fun _ => 0) (fun _ => 0) 1 0).out, ∃ f ∈ fs,
    Reaches (listReceiver orderedEnv recordAndField (by decide)) orderedEnv f [65] := by
  obtain ⟨fs, hfs, hf⟩ := recordAndField_sent 0
  exact ⟨fs, hfs, _, hf,
    (reaches_namesake_iff orderedEnv_orders recordAndField_shared .good (fun _ => 0) (fun _ => 0) 1 0 hfs hf
    (show 0 < 2 by decide) rfl).mpr ⟨by decide, by decide⟩⟩

/-- The field is not. -/
theorem field_not_reached :
    ¬ ∀ (env : Env) (names : List (List UInt8)) (c : Config) (r : DiodeReceiver), env.Orders →
    SharedList env names c r → ∀ (w : Wire) (m : Memory) (list : ℕ → ℕ) (n listIndex : ℕ),
    ∀ fs ∈ (sendVariables c w m list n listIndex).out, ∀ f ∈ fs, ∀ p (hp : p < names.length), f.index = p →
    Reaches r env f names[p] := by
  intro h
  obtain ⟨fs, hfs, hf⟩ := recordAndField_sent 1
  have hsent := recordAndField_shared.sentFor fs hfs _ hf (show 1 < 2 by decide)
  have hreach :=
    h orderedEnv recordAndField _ _ orderedEnv_orders recordAndField_shared .good (fun _ => 0)
    (fun _ => 1) 1 0 fs hfs
    _ hf 1 (show 1 < 2 by decide) rfl
  have hdot := ((hsent.reaches_iff recordAndField_shared orderedEnv_orders).mp hreach).1
  exact absurd hdot (by decide)

end Hieratika.Diode

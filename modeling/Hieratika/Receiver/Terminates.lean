import Hieratika.Receiver.RoundTrip

/-!
# The parser ends

A payload of arbitrary bytes. The two scan-and-shift loops set their index back to the start of the
payload whenever they drop what is before a quote, so neither the index nor the length alone goes down:
twice the length less the index does (`Scanned`).

## What is proved

On a payload of less than `2 ^ 32` bytes both loops end, the loop that consumes the frames ends, the
payload never gets longer, and a turn that stores a frame takes at least 27 bytes off it
(`parser_terminates`).
-/

namespace Hieratika.Receiver

open Foundations Diode

variable {r : DiodeReceiver} {env : Env} {threadId : ℕ} {st t : Service} {p q : List UInt8} {h : Header}
  {τ : Type*}

/-! ### The two loops -/

/-- From `s` a scan goes round in `s'`. -/
structure Scanned (s s' : List UInt8 × ℕ) : Prop where
  length_le : s'.1.length ≤ s.1.length
  measure_lt : 2 * s'.1.length - s'.2 < 2 * s.1.length - s.2

/-- A scan from `s` ends, and its payload never gets longer. -/
structure Halts (body : List UInt8 × ℕ → Turn (List UInt8 × ℕ) (List UInt8 × τ)) (s : List UInt8 × ℕ) :
    Prop where
  ends : ∃ e, Ends body s e ∧ e.1.length ≤ s.1.length
  length_le : ∀ s', Reachable (fun a b => body a = .again b) s s' → s'.1.length ≤ s.1.length

theorem length_shift_le (p : List UInt8) (i : ℕ) : (shift p i).length ≤ p.length - i := by
  rw [shift, List.length_take, List.length_drop]
  exact min_le_right _ _

theorem resyncTurn_again {s s' : List UInt8 × ℕ} (hlen : s.1.length < 2 ^ 32)
    (hturn : resyncTurn s = .again s') :
    Scanned s s' := by
  obtain ⟨p, i⟩ := s
  have hshift := length_shift_le p i
  unfold resyncTurn at hturn
  dsimp only at hlen hturn
  split_ifs at hturn with hi hquote hthree hpattern
  · cases hturn
    exact ⟨by dsimp only; omega, by dsimp only; omega⟩
  · cases hturn
    exact ⟨le_rfl, by dsimp only; rw [u32_of_lt (by omega)]; omega⟩

theorem resyncTurn_leave {s : List UInt8 × ℕ} {e : List UInt8 × Bool × Bool}
    (hturn : resyncTurn s = .leave e) :
    e.1.length ≤ s.1.length := by
  obtain ⟨p, i⟩ := s
  have hshift := length_shift_le p i
  unfold resyncTurn at hturn
  dsimp only at hturn
  split_ifs at hturn
  all_goals
    cases hturn
    dsimp only
    omega

theorem patternTurn_again {s s' : List UInt8 × ℕ} (hlen : s.1.length < 2 ^ 32)
    (hturn : patternTurn s = .again s') :
    Scanned s s' := by
  obtain ⟨p, i⟩ := s
  have hshift := length_shift_le p i
  unfold patternTurn at hturn
  dsimp only at hlen hturn
  split_ifs at hturn with hi hquote hthree hpattern
  · cases hturn
    exact ⟨by dsimp only; omega, by dsimp only; omega⟩
  · cases hturn
    exact ⟨le_rfl, by dsimp only; rw [u32_of_lt (by omega)]; omega⟩

/-- The loop for the pattern leaves the payload as it is. -/
theorem patternTurn_leave {s : List UInt8 × ℕ} {e : List UInt8 × Option ℕ}
    (hturn : patternTurn s = .leave e) :
    e.1 = s.1 := by
  unfold patternTurn at hturn
  dsimp only at hturn
  split_ifs at hturn
  all_goals
    cases hturn
    rfl

/-- A scan with such turns. -/
theorem halts_of_scanned {body : List UInt8 × ℕ → Turn (List UInt8 × ℕ) (List UInt8 × τ)}
    (hagain : ∀ a b, a.1.length < 2 ^ 32 → body a = .again b → Scanned a b)
    (hleave : ∀ a e, body a = .leave e → e.1.length ≤ a.1.length) {s : List UInt8 × ℕ}
    (hlen : s.1.length < 2 ^ 32) :
    Halts body s := by
  have hkeep : ∀ a b, a.1.length ≤ s.1.length → body a = .again b → b.1.length ≤ s.1.length :=
      fun a b ha hb =>
    (hagain a b (ha.trans_lt hlen) hb).length_le.trans ha
  have hstart : s.1.length ≤ s.1.length := le_rfl
  obtain ⟨e, he⟩ :=
      exists_ends (I := fun a => a.1.length ≤ s.1.length) (fun a => 2 * a.1.length - a.2) (fun a b ha hb =>
    ⟨hkeep a b ha hb, (hagain a b (ha.trans_lt hlen) hb).measure_lt⟩) hstart
  have hpost := he.post (Q := fun e => e.1.length ≤ s.1.length) hstart hkeep fun a e ha hb =>
    (hleave a e hb).trans ha
  exact ⟨⟨e, he, hpost⟩, fun s' hs' => hs'.invariant hstart hkeep⟩

theorem resync_halts (hlen : p.length < 2 ^ 32) (i : ℕ) : Halts resyncTurn (p, i) :=
  halts_of_scanned (fun _ _ => resyncTurn_again) (fun _ _ => resyncTurn_leave) hlen

theorem pattern_halts (hlen : p.length < 2 ^ 32) (i : ℕ) : Halts patternTurn (p, i) :=
  halts_of_scanned (fun _ _ => patternTurn_again)
    (fun _ _ hturn => (congrArg List.length (patternTurn_leave hturn)).le) hlen

/-! ### The function -/

theorem exists_resynced (hlen : p.length < 2 ^ 32) : ∃ res, Resynced p res ∧ res.1.length ≤ p.length := by
  by_cases hne : p = []
  · exact ⟨([], false), by rw [Resynced, if_pos hne], Nat.zero_le _⟩
  by_cases hhead : p.head? = some quote
  · exact ⟨(p, true), by rw [Resynced, if_neg hne, if_pos hhead], le_rfl⟩
  obtain ⟨⟨q, found, ok⟩, he, hle⟩ := (resync_halts hlen 0).ends
  refine ⟨(if ok && !found then [] else q, ok && found), ?_, ?_⟩
  · rw [Resynced, if_neg hne, if_neg hhead]
    exact ⟨q, found, ok, he, rfl⟩
  · dsimp only at hle ⊢
    split_ifs
    · exact Nat.zero_le _
    · exact hle

/-- The header behind the pattern at `i`. -/
def headerAt (env : Env) (q : List UInt8) (i : ℕ) : Header where
  varName := (((q.drop 1).take (sub32 i 1)).takeWhile (· ≠ 0)).takeWhile (· ≠ 46)
  receivedIndex := ofLe (readAt (bufferAt env q (i + 3)) 0 4)
  receivedTypeId := bufferAt env q (i + 3) 4
  receivedSize := ofLe (readAt (bufferAt env q (i + 3)) 5 4)
  receivedOffset := ofLe (readAt (bufferAt env q (i + 3)) 9 4)
  processedSize := sub32 i 1 + 3
  dataPtr := i + 3 + 9

/-- A header that is returned: the name, the bytes behind the pattern, the index and the size have
passed. -/
structure Passed (r : DiodeReceiver) (env : Env) (q : List UInt8) (i : ℕ) : Prop where
  name_le : sub32 i 1 ≤ pvNameMaxSize
  there : 13 ≤ q.length - (sub32 i 1 + 3)
  index_lt : (headerAt env q i).receivedIndex < r.numberOfVariables
  size_lt : (headerAt env q i).receivedSize < u32 (8 * r.maxArraySize)

/-- What `readHeader` can do. -/
theorem readHeader_cases (r : DiodeReceiver) (env : Env) (q : List UInt8) (i : ℕ) :
    (Passed r env q i ∧ r.readHeader env q i = (q, some (headerAt env q i))) ∨
      ∃ p, p.length ≤ q.length ∧ r.readHeader env q i = (p, none) := by
  unfold DiodeReceiver.readHeader
  by_cases hname : sub32 i 1 ≤ pvNameMaxSize
  · rw [if_pos hname]
    by_cases hthere : 13 ≤ q.length - (sub32 i 1 + 3)
    · rw [if_pos hthere]
      by_cases hcheck : r.numberOfVariables ≤ (headerAt env q i).receivedIndex ∨
          u32 (8 * r.maxArraySize) ≤ (headerAt env q i).receivedSize
      · exact .inr ⟨[], Nat.zero_le _, if_pos hcheck⟩
      · obtain ⟨hindex, hsize⟩ := not_or.mp hcheck
        exact .inl ⟨⟨hname, hthere, Nat.lt_of_not_le hindex, Nat.lt_of_not_le hsize⟩, if_neg hcheck⟩
    · rw [if_neg hthere]
      exact .inr ⟨q, le_rfl, rfl⟩
  · rw [if_neg hname]
    exact .inr ⟨_, (length_shift_le q _).trans (Nat.sub_le _ _), rfl⟩

theorem length_readHeader_le (r : DiodeReceiver) (env : Env) (q : List UInt8) (i : ℕ) :
    (r.readHeader env q i).1.length ≤ q.length := by
  rcases readHeader_cases r env q i with ⟨-, heq⟩ | ⟨p, hle, heq⟩
  · rw [heq]
  · rw [heq]
    exact hle

/-- `ReadVarNameAndIndex` returns, with a payload that is no longer. -/
theorem exists_readVarNameAndIndex (r : DiodeReceiver) (env : Env) (hlen : p.length < 2 ^ 32) :
    ∃ res, ReadVarNameAndIndex r env p res ∧ res.1.length ≤ p.length := by
  obtain ⟨⟨q, ok⟩, hq, hqle⟩ := exists_resynced hlen
  cases ok with
  | false => exact ⟨(q, none), ⟨q, false, hq, rfl⟩, hqle⟩
  | true =>
    have hqlen : q.length < 2 ^ 32 := hqle.trans_lt hlen
    obtain ⟨⟨q', found⟩, he, hle⟩ := (pattern_halts hqlen 1).ends
    cases found with
    | none => exact ⟨(q', none), ⟨q, true, hq, q', none, he, rfl⟩, hle.trans hqle⟩
    | some i => exact ⟨_, ⟨q, true, hq, q', some i, he, rfl⟩,
        (length_readHeader_le r env q' i).trans (hle.trans hqle)⟩

/-- Every payload that it leaves is no longer. -/
theorem ReadVarNameAndIndex.length_le {res : List UInt8 × Option Header}
    (hread : ReadVarNameAndIndex r env p res) (hlen : p.length < 2 ^ 32) : res.1.length ≤ p.length := by
  obtain ⟨res', hres', hle⟩ := exists_readVarNameAndIndex r env hlen
  rwa [hread.unique hres']

/-- A header that is returned is behind the pattern at some `i` of the payload that is left. -/
theorem ReadVarNameAndIndex.passed (hread : ReadVarNameAndIndex r env p (q, some h)) :
    ∃ p' i, Resynced p (p', true) ∧ Ends patternTurn (p', 1) (q, some i) ∧ Passed r env q i ∧
      h = headerAt env q i := by
  obtain ⟨p', ok, hp', hread⟩ := hread
  cases ok with
  | false => cases (Prod.mk.inj hread).2
  | true =>
    obtain ⟨q', found, he, hread⟩ := hread
    cases found with
    | none => cases (Prod.mk.inj hread).2
    | some i =>
      dsimp only at hread
      rcases readHeader_cases r env q' i with ⟨hpass, heq⟩ | ⟨_, -, heq⟩
      · obtain ⟨rfl, hsome⟩ := Prod.mk.inj (heq ▸ hread)
        exact ⟨p', i, hp', he, hpass, Option.some.inj hsome⟩
      · cases (Prod.mk.inj (heq ▸ hread)).2

/-! ### The loop over the frames -/

/-- The sizes in a header that is returned. -/
theorem ReadVarNameAndIndex.sizes (hread : ReadVarNameAndIndex r env p (q, some h)) :
    3 ≤ h.processedSize ∧ h.processedSize ≤ pvNameMaxSize + 3 ∧
      h.receivedSize < u32 (8 * r.maxArraySize) := by
  obtain ⟨-, i, -, -, hpass, heq⟩ := hread.passed
  obtain ⟨hname, -, -, hsize⟩ := hpass
  have hproc : h.processedSize = sub32 i 1 + 3 := by rw [heq, headerAt]
  rw [← heq] at hsize
  rw [hproc]
  exact ⟨Nat.le_add_left 3 _, Nat.add_le_add_right hname 3, hsize⟩

theorem getLocalIndex_size (s : Store) (h : Header) :
    (r.getLocalIndex env s h).processedSize = u32 (h.processedSize + (12 + h.receivedSize + 8 + 4)) := rfl

theorem readVarValueAndSkip_payload (h : Header) (l : Local) :
    (st.readVarValueAndSkip r env threadId h l).payload =
    shift st.payload (min l.processedSize st.payload.length) := rfl

/-- A turn that stores a frame takes its bytes off the payload. -/
theorem Service.Stores.removes (hM : 8 * r.maxArraySize + 128 < 2 ^ 32) (hlen : st.payload.length < 2 ^ 32)
    (hst : Service.Stores r env threadId st t) : t.payload.length + 27 ≤ st.payload.length := by
  obtain ⟨p, h, hread, hle, rfl⟩ := hst
  have hp := hread.length_le hlen
  obtain ⟨hthree, hname, hsize⟩ := hread.sizes
  rw [u32_of_lt (by omega)] at hsize
  unfold pvNameMaxSize at hname
  rw [getLocalIndex_size, u32_of_lt (by omega)] at hle
  rw [readVarValueAndSkip_payload, getLocalIndex_size, u32_of_lt (by omega)]
  have hshift := length_shift_le p (min (h.processedSize + (12 + h.receivedSize + 8 + 4)) p.length)
  dsimp only at hp ⊢
  omega

theorem Service.Leaves.length_le (hlen : st.payload.length < 2 ^ 32) (hst : Service.Leaves r env st t) :
    t.payload.length ≤ st.payload.length := by
  cases hst with
  | noHeader hread => exact hread.length_le hlen
  | incomplete hread _ => exact hread.length_le hlen

/-- The payload of a state that the loop reaches. -/
theorem reached_length_le (hM : 8 * r.maxArraySize + 128 < 2 ^ 32) (hlen : st.payload.length < 2 ^ 32)
    (hreach : Reachable (Service.Stores r env threadId) st t) : t.payload.length ≤ st.payload.length :=
  hreach.invariant (I := fun t => t.payload.length ≤ st.payload.length) le_rfl fun a b ha hab => by
    have hrem := hab.removes hM (ha.trans_lt hlen)
    omega

/-- The loop ends, by induction on the length of the payload. -/
theorem exists_consumes (r : DiodeReceiver) (env : Env) (threadId : ℕ)
    (hM : 8 * r.maxArraySize + 128 < 2 ^ 32) (st : Service)
    (hlen : st.payload.length < 2 ^ 32) : ∃ st', Service.Consumes r env threadId st st' := by
  generalize hn : st.payload.length = n
  induction n using Nat.strong_induction_on generalizing st with
  | _ n ih =>
    obtain ⟨⟨p, found⟩, hread, -⟩ := exists_readVarNameAndIndex r env hlen
    cases found with
    | none => exact ⟨_, st, .refl, .noHeader hread⟩
    | some h =>
      by_cases hle : (r.getLocalIndex env st.store h).processedSize ≤ p.length
      · obtain ⟨st₁, hst₁⟩ : ∃ st₁, Service.Stores r env threadId st st₁ := ⟨_, p, h, hread, hle, rfl⟩
        have hrem := hst₁.removes hM hlen
        obtain ⟨st', u, hreach, hleave⟩ := ih _ (by omega) st₁ (by omega) rfl
        exact ⟨st', u, Reachable.trans (Reachable.next .refl hst₁) hreach, hleave⟩
      · exact ⟨_, st, .refl, .incomplete hread (by omega)⟩

/-- What is asked of the loop on the payload of `st`. -/
structure Terminates (r : DiodeReceiver) (env : Env) (threadId : ℕ) (st : Service) : Prop where
  /-- In every turn the two scans of `ReadVarNameAndIndex` end. -/
  scans : ∀ t, Reachable (Service.Stores r env threadId) st t →
    Halts resyncTurn (t.payload, 0) ∧ ∀ p, Resynced t.payload (p, true) → Halts patternTurn (p, 1)
  ends : ∃ st', Service.Consumes r env threadId st st'
  /-- There is no infinite run. -/
  finite : ∀ run : ℕ → Service, run 0 = st → ∃ n, ¬ Service.Stores r env threadId (run n) (run (n + 1))
  length_le : ∀ t, Reachable (Service.Stores r env threadId) st t → t.payload.length ≤ st.payload.length ∧
    (∀ p found, ReadVarNameAndIndex r env t.payload (p, found) → p.length ≤ t.payload.length) ∧
    ∀ st', Service.Leaves r env t st' → st'.payload.length ≤ t.payload.length
  removes : ∀ t t', Reachable (Service.Stores r env threadId) st t → Service.Stores r env threadId t t' →
    t'.payload.length + 27 ≤ t.payload.length

/-- **The payload parser ends on any bytes.** -/
theorem parser_terminates (r : DiodeReceiver) (env : Env) (threadId : ℕ) (st : Service)
    (hM : 8 * r.maxArraySize + 128 < 2 ^ 32) (hlen : st.payload.length < 2 ^ 32) :
    Terminates r env threadId st where
  scans t ht := by
    have hle := (reached_length_le hM hlen ht).trans_lt hlen
    refine ⟨resync_halts hle 0, fun p hp => pattern_halts ?_ 1⟩
    obtain ⟨res, hres, hres_le⟩ := exists_resynced hle
    obtain rfl : (p, true) = res := hp.unique hres
    exact hres_le.trans_lt hle
  ends := exists_consumes r env threadId hM st hlen
  finite run hrun := by
    by_contra hall
    have hsteps : ∀ n, Service.Stores r env threadId (run n) (run (n + 1)) := fun n => by
      by_contra hnot
      exact hall ⟨n, hnot⟩
    have hdown : ∀ n, (run n).payload.length + n ≤ st.payload.length := by
      intro n
      induction n with
      | zero => rw [hrun, Nat.add_zero]
      | succ n ih =>
        have hrem := (hsteps n).removes hM (by omega)
        omega
    have hpast := hdown (st.payload.length + 1)
    omega
  length_le t ht := by
    have hle := reached_length_le hM hlen ht
    exact ⟨hle, fun p found hread => hread.length_le (hle.trans_lt hlen),
      fun st' hst' => hst'.length_le (hle.trans_lt hlen)⟩
  removes t t' ht hst := hst.removes hM ((reached_length_le hM hlen ht).trans_lt hlen)

/-- Three quotes and garbage. -/
theorem parser_terminates_garbage : Terminates (onePv 4) plainEnv 0 ⟨[34, 34, 0, 34, 255, 58], .start, []⟩ :=
  parser_terminates (onePv 4) plainEnv 0 ⟨[34, 34, 0, 34, 255, 58], .start, []⟩ (by decide) (by decide)

end Hieratika.Receiver
